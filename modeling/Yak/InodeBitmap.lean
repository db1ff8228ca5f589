import Yak.BlockBitmap

/-!
# Inode bitmaps and their counters

`ext2_ialloc` returns the number of a bit in the bitmap of some group, without
the inodes of the groups before, and `ext2_ifree` uses a whole inode number as
the number of a bit in the bitmap of its group.  Both are right for the first
group and for no other.
-/

namespace Yak.Ext2

open ByteBitmap

namespace Fs

def inodeMap (fs : Fs) (g : ℕ) : Bytes := fs.blocks (fs.bgdTable g).bgInodeBitmap

/-- How many inodes of a group its bitmap describes. -/
def groupInodes (fs : Fs) (g : ℕ) : ℕ :=
  min fs.sb.sInodesPerGroup
    (min fs.bitsPerBlock (fs.sb.sInodesCount - g * fs.sb.sInodesPerGroup))

/-- The group in which an inode lies. -/
def groupOfIno (fs : Fs) (ino : ℕ) : ℕ := (ino - 1) / fs.sb.sInodesPerGroup

/-- The bit which marks an inode in the bitmap of its group. -/
def indexOfIno (fs : Fs) (ino : ℕ) : ℕ := (ino - 1) % fs.sb.sInodesPerGroup

structure InodeDescribed (fs : Fs) (ino : ℕ) : Prop where
  pos : 1 ≤ ino
  group : fs.groupOfIno ino < fs.nrBlkGroup
  index : fs.indexOfIno ino < fs.groupInodes (fs.groupOfIno ino)

def InodeMarked (fs : Fs) (ino : ℕ) : Prop :=
  getBit (fs.inodeMap (fs.groupOfIno ino)) (fs.indexOfIno ino) = true

def InodesTallied (fs : Fs) : Prop :=
  Tallied fs.nrBlkGroup fs.groupInodes fs.inodeMap (fun g => (fs.bgdTable g).bgFreeInodesCount)
    fs.sb.sFreeInodesCount

/-- Nothing on the device changes but the bit of the inode, which is set. -/
def SetsInode (fs fs' : Fs) (ino : ℕ) : Prop :=
  fs'.blocks = Function.update fs.blocks (fs.bgdTable (fs.groupOfIno ino)).bgInodeBitmap
    (setBit (fs.inodeMap (fs.groupOfIno ino)) (fs.indexOfIno ino))

/-- Nothing on the device changes but the bit of the inode, which is cleared. -/
def ClearsInode (fs fs' : Fs) (ino : ℕ) : Prop :=
  fs'.blocks = Function.update fs.blocks (fs.bgdTable (fs.groupOfIno ino)).bgInodeBitmap
    (clearBit (fs.inodeMap (fs.groupOfIno ino)) (fs.indexOfIno ino))

/-- A file system which `ext2_init` accepts, with its inode bitmaps in order. -/
structure SoundInodes (fs : Fs) : Prop where
  accepted : fs.sb.ext2Init = .ok fs.nrBlkGroup
  count : fs.sb.sInodesCount < 2 ^ 32
  fields : ∀ g < fs.nrBlkGroup, (fs.bgdTable g).bgFreeInodesCount < 2 ^ 16
  apart : ∀ g < fs.nrBlkGroup, ∀ h < fs.nrBlkGroup,
    (fs.bgdTable g).bgInodeBitmap = (fs.bgdTable h).bgInodeBitmap → g = h
  tallied : fs.InodesTallied

instance (fs : Fs) (ino : ℕ) : Decidable (fs.InodeDescribed ino) :=
  decidable_of_iff (1 ≤ ino ∧ fs.groupOfIno ino < fs.nrBlkGroup ∧
      fs.indexOfIno ino < fs.groupInodes (fs.groupOfIno ino))
    ⟨fun ⟨h₁, h₂, h₃⟩ => ⟨h₁, h₂, h₃⟩, fun ⟨h₁, h₂, h₃⟩ => ⟨h₁, h₂, h₃⟩⟩

instance (fs : Fs) (ino : ℕ) : Decidable (fs.InodeMarked ino) :=
  inferInstanceAs (Decidable (_ = true))

end Fs

/-- The file system, and the inodes which are in use. -/
structure InodeUse where
  fs : Fs
  owned : List ℕ

inductive InodeOp where
  | ialloc
  | ifree (ino : ℕ)

namespace InodeUse

def step (s : InodeUse) : InodeOp → Except Halt InodeUse
  | .ialloc => do
      let (num, fs) ← s.fs.ialloc
      .ok ⟨fs, if num = 0 then s.owned else num :: s.owned⟩
  | .ifree ino => do
      let fs ← s.fs.ifree ino
      .ok ⟨fs, s.owned.erase ino⟩

structure Sound (s : InodeUse) : Prop where
  fs : s.fs.SoundInodes
  nodup : s.owned.Nodup
  described : ∀ ino ∈ s.owned, s.fs.InodeDescribed ino
  marked : ∀ ino ∈ s.owned, s.fs.InodeMarked ino

/-- What one call does on the device. -/
def Exact (s s' : InodeUse) : InodeOp → Prop
  | .ialloc =>
      s'.owned = s.owned ∧ s'.fs = s.fs ∨
        ∃ ino, s'.owned = ino :: s.owned ∧ s.fs.SetsInode s'.fs ino
  | .ifree ino => s.fs.ClearsInode s'.fs ino

/-- Along the run every call returns, the counters stay right, no inode is
handed out twice, and every call changes the bit of its inode and nothing
else. -/
def Keeps (s : InodeUse) : List InodeOp → Prop
  | [] => s.fs.InodesTallied ∧ s.owned.Nodup
  | op :: ops =>
      (s.fs.InodesTallied ∧ s.owned.Nodup) ∧
        ∃ s', s.step op = .ok s' ∧ s.Exact s' op ∧ s'.Keeps ops

/-- An inode is taken from the first group, unless there is none at all, and
given back to the first group.  The caller frees an inode which is in use and not
reserved. -/
def SafeStep (s : InodeUse) : InodeOp → Prop
  | .ialloc => s.fs.sb.sFreeInodesCount = 0 ∨ (s.fs.bgdTable 0).bgFreeInodesCount ≠ 0
  | .ifree ino => (ino ∈ s.owned ∧ s.fs.sb.firstFreeIno ≤ ino) ∧
      ino ≤ s.fs.sb.sInodesPerGroup ∧ (s.fs.bgdTable 0).bgFreeInodesCount ≠ 2 ^ 16 - 1

def SafeRun (s : InodeUse) : List InodeOp → Prop
  | [] => True
  | op :: ops =>
      s.SafeStep op ∧
        match s.step op with
        | .ok s' => s'.SafeRun ops
        | .error _ => True

instance (s : InodeUse) : (op : InodeOp) → Decidable (s.SafeStep op)
  | .ialloc => inferInstanceAs (Decidable (_ ∨ _))
  | .ifree _ => inferInstanceAs (Decidable (_ ∧ _ ∧ _))

def decidableSafeRun : (ops : List InodeOp) → (s : InodeUse) → Decidable (s.SafeRun ops)
  | [], _ => isTrue trivial
  | op :: ops, s =>
      match h : s.step op with
      | .ok s' =>
          have := decidableSafeRun ops s'
          decidable_of_iff (s.SafeStep op ∧ s'.SafeRun ops) (by simp only [SafeRun, h])
      | .error _ => decidable_of_iff (s.SafeStep op ∧ True) (by simp only [SafeRun, h])

instance (s : InodeUse) (ops : List InodeOp) : Decidable (s.SafeRun ops) := decidableSafeRun ops s

end InodeUse

namespace Fs

variable {fs fs' : Fs} {g off ino count total : ℕ} {map : Bytes}

/-! ## Changes of one bit -/

/-- The bitmaps and counters after one bit has changed. -/
structure InodeBitChanged (fs fs' : Fs) (g : ℕ) (map : Bytes) (count total : ℕ) : Prop where
  geometry : fs'.sb = { fs.sb with sFreeInodesCount := total }
  groups : fs'.nrBlkGroup = fs.nrBlkGroup
  desc : fs'.bgdTable = Function.update fs.bgdTable g
    { fs.bgdTable g with bgFreeInodesCount := count }
  blocks : fs'.blocks = Function.update fs.blocks (fs.bgdTable g).bgInodeBitmap map

theorem InodeBitChanged.bitmap (h : InodeBitChanged fs fs' g map count total) (k : ℕ) :
    (fs'.bgdTable k).bgInodeBitmap = (fs.bgdTable k).bgInodeBitmap := by
  rw [h.desc]
  by_cases hk : k = g
  · rw [hk, Function.update_self]
  · rw [Function.update_of_ne hk]

theorem InodeBitChanged.freeInodesCount (h : InodeBitChanged fs fs' g map count total) (k : ℕ) :
    (fs'.bgdTable k).bgFreeInodesCount =
      if k = g then count else (fs.bgdTable k).bgFreeInodesCount := by
  rw [h.desc]
  split
  next hk => rw [hk, Function.update_self]
  next hk => rw [Function.update_of_ne hk]

theorem SoundInodes.inodeMap_changed (hs : fs.SoundInodes) (hg : g < fs.nrBlkGroup)
    (h : InodeBitChanged fs fs' g map count total) {k : ℕ} (hk : k < fs.nrBlkGroup) :
    fs'.inodeMap k = if k = g then map else fs.inodeMap k := by
  unfold Fs.inodeMap
  rw [h.bitmap, h.blocks]
  split
  next hkg => rw [hkg, Function.update_self]
  next hkg => rw [Function.update_of_ne fun heq => hkg (hs.apart k hk g hg heq)]

theorem InodeBitChanged.groupOfIno (h : InodeBitChanged fs fs' g map count total) (ino : ℕ) :
    fs'.groupOfIno ino = fs.groupOfIno ino := by
  unfold Fs.groupOfIno
  rw [h.geometry]

theorem InodeBitChanged.indexOfIno (h : InodeBitChanged fs fs' g map count total) (ino : ℕ) :
    fs'.indexOfIno ino = fs.indexOfIno ino := by
  unfold Fs.indexOfIno
  rw [h.geometry]

theorem InodeBitChanged.groupInodes (h : InodeBitChanged fs fs' g map count total) (k : ℕ) :
    fs'.groupInodes k = fs.groupInodes k := by
  unfold Fs.groupInodes Fs.bitsPerBlock Superblock.blocksize
  rw [h.geometry]

theorem InodeBitChanged.described (h : InodeBitChanged fs fs' g map count total)
    (hd : fs.InodeDescribed ino) : fs'.InodeDescribed ino := by
  refine ⟨hd.pos, ?_, ?_⟩
  · rw [h.groupOfIno, h.groups]
    exact hd.group
  · rw [h.groupOfIno, h.indexOfIno, h.groupInodes]
    exact hd.index

theorem SoundInodes.changed (hs : fs.SoundInodes) (hg : g < fs.nrBlkGroup)
    (h : InodeBitChanged fs fs' g map count total) (hcount : count < 2 ^ 16)
    (hbits : count = clearCount map (fs.groupInodes g))
    (htotal : total + (fs.bgdTable g).bgFreeInodesCount = fs.sb.sFreeInodesCount + count) :
    fs'.SoundInodes := by
  have hself := h.freeInodesCount g
  rw [if_pos rfl] at hself
  constructor
  · rw [h.groups, ← hs.accepted, h.geometry]
    rfl
  · rw [h.geometry]
    exact hs.count
  · intro k hk
    rw [h.groups] at hk
    rw [h.freeInodesCount]
    split
    next => exact hcount
    next => exact hs.fields k hk
  · intro j hj k hk
    rw [h.groups] at hj hk
    rw [h.bitmap, h.bitmap]
    exact hs.apart j hj k hk
  · have hsize : fs'.groupInodes = fs.groupInodes := funext h.groupInodes
    unfold InodesTallied
    rw [h.groups, hsize, h.geometry]
    refine hs.tallied.change hg ?_ ?_ ?_ ?_
    · intro k hk hne
      rw [hs.inodeMap_changed hg h hk, if_neg hne]
    · intro k _ hne
      rw [h.freeInodesCount, if_neg hne]
    · rw [hself, hs.inodeMap_changed hg h hg, if_pos rfl]
      exact hbits
    · rw [hself]
      exact htotal

/-! ## The first group -/

theorem groupOfIno_succ (hoff : off < fs.groupInodes 0) : fs.groupOfIno (off + 1) = 0 := by
  unfold groupOfIno
  exact Nat.div_eq_of_lt (lt_of_lt_of_le hoff (min_le_left _ _))

theorem indexOfIno_succ (hoff : off < fs.groupInodes 0) : fs.indexOfIno (off + 1) = off := by
  unfold indexOfIno
  exact Nat.mod_eq_of_lt (lt_of_lt_of_le hoff (min_le_left _ _))

theorem SoundInodes.nrBlkGroup_pos (hs : fs.SoundInodes) (hfree : fs.sb.sFreeInodesCount ≠ 0) :
    0 < fs.nrBlkGroup := by
  obtain ⟨g, hg, _⟩ := hs.tallied.exists_count hfree
  omega

/-- The first group gives its first clear bit. -/
theorem SoundInodes.ialloc (hs : fs.SoundInodes) (hfree : fs.sb.sFreeInodesCount ≠ 0)
    (hcount : (fs.bgdTable 0).bgFreeInodesCount ≠ 0) :
    ∃ off < fs.groupInodes 0, getBit (fs.inodeMap 0) off = false ∧
      fs.ialloc = .ok (off + 1, fs.takeInode 0 off) := by
  have hpos := hs.nrBlkGroup_pos hfree
  have hclear : clearCount (fs.inodeMap 0) (fs.groupInodes 0) ≠ 0 := by
    rw [← hs.tallied.count 0 hpos]
    exact hcount
  obtain ⟨k, hk, hbit⟩ := exists_clear hclear
  have hbits : k < 0 + fs.bitsPerBlock := by
    rw [Nat.zero_add]
    exact lt_of_lt_of_le hk ((min_le_right _ _).trans (min_le_left _ _))
  obtain ⟨off, hscan, hle⟩ := scan_of_clear (Nat.zero_le k) hbits hbit
  obtain ⟨hoffclear, _⟩ := scan_eq_some hscan
  refine ⟨off, lt_of_le_of_lt hle hk, hoffclear, ?_⟩
  have hbgd : fs.iallocBgd 0 = .ok (off + 1, fs.takeInode 0 off) := by
    unfold Fs.iallocBgd
    rw [if_neg hcount, show fs.blocks (fs.bgdTable 0).bgInodeBitmap = fs.inodeMap 0 from rfl, hscan]
  obtain ⟨n, hn⟩ := Nat.exists_eq_succ_of_ne_zero hpos.ne'
  unfold Fs.ialloc
  rw [if_neg hfree, hn, List.range_succ_eq_map, Fs.iallocGroups, hbgd, ok_bind]
  exact if_pos (Nat.succ_ne_zero off)

theorem InodeBitChanged.takeInode (hfree : fs.sb.sFreeInodesCount ≠ 0)
    (hcount : (fs.bgdTable 0).bgFreeInodesCount ≠ 0) :
    InodeBitChanged fs (fs.takeInode 0 off) 0 (setBit (fs.inodeMap 0) off)
      ((fs.bgdTable 0).bgFreeInodesCount - 1) (fs.sb.sFreeInodesCount - 1) := by
  have hdecr : decr 32 fs.sb.sFreeInodesCount = fs.sb.sFreeInodesCount - 1 := decr_eq hfree
  have hdecr' : decr 16 (fs.bgdTable 0).bgFreeInodesCount =
      (fs.bgdTable 0).bgFreeInodesCount - 1 := decr_eq hcount
  constructor
  · rw [← hdecr]
    rfl
  · rfl
  · rw [← hdecr']
    rfl
  · rfl

theorem SoundInodes.sum_groupInodes_lt (h : fs.SoundInodes) :
    ∑ g ∈ Finset.range fs.nrBlkGroup, fs.groupInodes g < 2 ^ 32 := by
  have hle : ∑ g ∈ Finset.range fs.nrBlkGroup, fs.groupInodes g ≤
      ∑ g ∈ Finset.range fs.nrBlkGroup, min fs.sb.sInodesPerGroup
        (fs.sb.sInodesCount - g * fs.sb.sInodesPerGroup) := by
    apply Finset.sum_le_sum
    intro g _
    unfold groupInodes
    omega
  have hsum := sum_groups_le fs.sb.sInodesCount fs.sb.sInodesPerGroup fs.nrBlkGroup
  have hcount := h.count
  omega

end Fs

namespace InodeUse

open Fs

variable {s : InodeUse} {ino : ℕ}

theorem Sound.ialloc (hs : s.Sound) (hsafe : s.SafeStep .ialloc) :
    ∃ s', s.step .ialloc = .ok s' ∧ s.Exact s' .ialloc ∧ s'.Sound := by
  by_cases hfree : s.fs.sb.sFreeInodesCount = 0
  · have hnone : s.fs.ialloc = .ok (0, s.fs) := if_pos hfree
    refine ⟨s, ?_, Or.inl ⟨rfl, rfl⟩, hs⟩
    unfold step
    dsimp only
    rw [hnone, ok_bind]
    exact congrArg Except.ok (by rw [if_pos rfl])
  · have hcount : (s.fs.bgdTable 0).bgFreeInodesCount ≠ 0 := hsafe.resolve_left hfree
    have hpos := hs.fs.nrBlkGroup_pos hfree
    obtain ⟨off, hoff, hclear, hfound⟩ := hs.fs.ialloc hfree hcount
    have hchange : InodeBitChanged s.fs (s.fs.takeInode 0 off) 0 (setBit (s.fs.inodeMap 0) off)
        ((s.fs.bgdTable 0).bgFreeInodesCount - 1) (s.fs.sb.sFreeInodesCount - 1) :=
      InodeBitChanged.takeInode hfree hcount
    have hgroup := groupOfIno_succ hoff
    have hindex := indexOfIno_succ hoff
    have hstep : s.step .ialloc = .ok ⟨s.fs.takeInode 0 off, (off + 1) :: s.owned⟩ := by
      unfold step
      dsimp only
      rw [hfound, ok_bind]
      exact congrArg Except.ok (by rw [if_neg (Nat.succ_ne_zero off)])
    have hdesc : s.fs.InodeDescribed (off + 1) := by
      refine ⟨Nat.le_add_left 1 off, ?_, ?_⟩
      · rw [hgroup]
        exact hpos
      · rw [hgroup, hindex]
        exact hoff
    have hnot : ¬s.fs.InodeMarked (off + 1) := by
      unfold InodeMarked
      rw [hgroup, hindex, hclear]
      exact Bool.false_ne_true
    refine ⟨_, hstep, Or.inr ⟨off + 1, rfl, ?_⟩, ?_, ?_, ?_, ?_⟩
    · unfold SetsInode
      rw [hgroup, hindex]
      exact hchange.blocks
    · have hbits := clearCount_setBit hoff hclear
      have hle : (s.fs.bgdTable 0).bgFreeInodesCount ≤ s.fs.sb.sFreeInodesCount :=
        hs.fs.tallied.count_le hpos
      have hold : (s.fs.bgdTable 0).bgFreeInodesCount = _ := hs.fs.tallied.count 0 hpos
      have hfield := hs.fs.fields 0 hpos
      exact hs.fs.changed hpos hchange (by omega) (by omega) (by omega)
    · refine List.nodup_cons.mpr ⟨?_, hs.nodup⟩
      intro hmem
      exact hnot (hs.marked _ hmem)
    · intro ino hino
      apply hchange.described
      rcases List.mem_cons.mp hino with rfl | hino
      · exact hdesc
      · exact hs.described ino hino
    · intro ino hino
      have hmark : ino = off + 1 ∨ s.fs.InodeMarked ino :=
        (List.mem_cons.mp hino).imp_right (hs.marked ino)
      have hd : s.fs.InodeDescribed ino := by
        rcases List.mem_cons.mp hino with rfl | hino
        · exact hdesc
        · exact hs.described ino hino
      unfold InodeMarked at hmark ⊢
      rw [hchange.groupOfIno, hchange.indexOfIno, hs.fs.inodeMap_changed hpos hchange hd.group]
      split
      next h0 =>
        rw [getBit_setBit]
        rcases hmark with rfl | hmark
        · rw [hindex, decide_eq_true rfl, Bool.true_or]
        · rw [h0] at hmark
          rw [hmark, Bool.or_true]
      next h0 =>
        rcases hmark with rfl | hmark
        · exact (h0 hgroup).elim
        · exact hmark

theorem Sound.ifree (hs : s.Sound) (hsafe : s.SafeStep (.ifree ino)) :
    ∃ s', s.step (.ifree ino) = .ok s' ∧ s.Exact s' (.ifree ino) ∧ s'.Sound := by
  obtain ⟨⟨hino, hreserved⟩, hle, hcount⟩ := hsafe
  have hdesc := hs.described ino hino
  have hmark := hs.marked ino hino
  have hpos := hdesc.pos
  have hgroup : s.fs.groupOfIno ino = 0 := Nat.div_eq_of_lt (by omega)
  have hindex : s.fs.indexOfIno ino = ino - 1 := Nat.mod_eq_of_lt (by omega)
  have hdecr : decr 32 ino = ino - 1 := decr_eq (by omega)
  have hnum : s.fs.inodeGroup ino = 0 := by
    unfold inodeGroup
    rw [hdecr]
    exact hgroup
  have hrange := hdesc.group
  have hoff := hdesc.index
  rw [hgroup] at hrange hoff
  rw [hindex] at hoff
  unfold InodeMarked at hmark
  rw [hgroup, hindex] at hmark
  have hfree : s.fs.ifree ino = .ok (s.fs.giveInode 0 (ino - 1)) := by
    unfold Fs.ifree
    rw [if_neg (by omega), hnum, hdecr, if_neg (by omega), if_neg, if_neg]
    · intro hclear
      unfold inodeMap at hmark
      rw [hclear] at hmark
      cases hmark
    · have hbits : ino - 1 < s.fs.bitsPerBlock :=
        lt_of_lt_of_le hoff ((min_le_right _ _).trans (min_le_left _ _))
      omega
  have hstep : s.step (.ifree ino) = .ok ⟨s.fs.giveInode 0 (ino - 1), s.owned.erase ino⟩ := by
    unfold step
    dsimp only
    rw [hfree, ok_bind]
  have htotal : s.fs.sb.sFreeInodesCount <
      ∑ g ∈ Finset.range s.fs.nrBlkGroup, s.fs.groupInodes g :=
    hs.fs.tallied.total_lt hrange hoff hmark
  have hsum := hs.fs.sum_groupInodes_lt
  have hfield := hs.fs.fields 0 hrange
  have hchange : InodeBitChanged s.fs (s.fs.giveInode 0 (ino - 1)) 0
      (clearBit (s.fs.inodeMap 0) (ino - 1)) ((s.fs.bgdTable 0).bgFreeInodesCount + 1)
      (s.fs.sb.sFreeInodesCount + 1) := by
    have hincr : incr 32 s.fs.sb.sFreeInodesCount = s.fs.sb.sFreeInodesCount + 1 :=
      incr_eq (by omega)
    have hincr' : incr 16 (s.fs.bgdTable 0).bgFreeInodesCount =
        (s.fs.bgdTable 0).bgFreeInodesCount + 1 := incr_eq (by omega)
    constructor
    · rw [← hincr]
      rfl
    · rfl
    · rw [← hincr']
      rfl
    · rfl
  refine ⟨_, hstep, ?_, ?_, hs.nodup.erase ino, ?_, ?_⟩
  · show s.fs.ClearsInode _ ino
    unfold ClearsInode
    rw [hgroup, hindex]
    exact hchange.blocks
  · have hbits := clearCount_clearBit hoff hmark
    have hold : (s.fs.bgdTable 0).bgFreeInodesCount = _ := hs.fs.tallied.count 0 hrange
    exact hs.fs.changed hrange hchange (by omega) (by omega) (by omega)
  · intro ino' hino'
    exact hchange.described (hs.described ino' (List.mem_of_mem_erase hino'))
  · intro ino' hino'
    obtain ⟨hne, hino'⟩ := (List.Nodup.mem_erase_iff hs.nodup).mp hino'
    have hdesc' := hs.described ino' hino'
    have hmark' := hs.marked ino' hino'
    unfold InodeMarked at hmark' ⊢
    rw [hchange.groupOfIno, hchange.indexOfIno,
      hs.fs.inodeMap_changed hrange hchange hdesc'.group]
    split
    next h0 =>
      have hindex' : s.fs.indexOfIno ino' ≠ ino - 1 := by
        intro heq
        have hsplit := Nat.mod_add_div (ino' - 1) s.fs.sb.sInodesPerGroup
        have hpos' := hdesc'.pos
        unfold indexOfIno at heq
        unfold groupOfIno at h0
        rw [heq, h0] at hsplit
        omega
      rw [h0] at hmark'
      rw [getBit_clearBit, decide_eq_true hindex', hmark', Bool.and_true]
    next => exact hmark'

/-- In every run of safe calls, the bitmaps and counters agree in every state, no
inode is handed out twice, and every call changes the bit of its inode. -/
theorem inode_keeps_of_safeRun (ops : List InodeOp) (hs : s.Sound) (hsafe : s.SafeRun ops) :
    s.Keeps ops := by
  induction ops generalizing s with
  | nil => exact ⟨hs.fs.tallied, hs.nodup⟩
  | cons op ops ih =>
      obtain ⟨hop, hrest⟩ := hsafe
      refine ⟨⟨hs.fs.tallied, hs.nodup⟩, ?_⟩
      have hnext : ∃ s', s.step op = .ok s' ∧ s.Exact s' op ∧ s'.Sound := by
        cases op with
        | ialloc => exact hs.ialloc hop
        | ifree ino => exact hs.ifree hop
      obtain ⟨s', hstep, hexact, hs'⟩ := hnext
      rw [hstep] at hrest
      exact ⟨s', hstep, hexact, ih hs' hrest⟩

/-! ## A small file system -/

/-- Two groups of eight inodes with their bitmaps in blocks 4 and 5.  The inodes
from 1 to 7 are in use. -/
def twoGroups : InodeUse where
  fs :=
    { sb :=
        { sInodesCount := 16, sBlocksCount := 16, sFreeBlocksCount := 0, sFreeInodesCount := 9,
          sFirstDataBlock := 1, sLogBlockSize := 0, sBlocksPerGroup := 8, sInodesPerGroup := 8,
          sMagic := Superblock.ext2Magic, sState := 1, sErrors := 1, sRevLevel := 1,
          sFirstIno := 3 }
      bgdTable := fun g =>
        { bgBlockBitmap := 2 + g, bgInodeBitmap := 4 + g, bgFreeBlocksCount := 0,
          bgFreeInodesCount := if g = 0 then 1 else 8 }
      nrBlkGroup := 2
      modified := false
      blocks := fun n i => if n = 4 ∧ i = 0 then 0x7F#8 else 0#8 }
  owned := [1, 2, 3, 4, 5, 6, 7]

theorem sound_twoGroups : twoGroups.Sound where
  fs :=
    { accepted := rfl
      count := by decide
      fields := by decide
      apart := by decide
      tallied := ⟨by decide, by decide⟩ }
  nodup := by decide
  described := by decide
  marked := by decide

theorem inode_keeps_of_safeRun_twoGroups : twoGroups.Keeps [.ialloc, .ifree 3, .ialloc] :=
  inode_keeps_of_safeRun _ sound_twoGroups (by decide +kernel)

/-- The inodes in use after a run. -/
def ownedAfter (s : InodeUse) : List InodeOp → List ℕ
  | [] => s.owned
  | op :: ops =>
      match s.step op with
      | .ok s' => s'.ownedAfter ops
      | .error _ => []

theorem Keeps.nodup_ownedAfter {ops : List InodeOp} (h : s.Keeps ops) :
    (s.ownedAfter ops).Nodup := by
  induction ops generalizing s with
  | nil => exact h.2
  | cons op ops ih =>
      obtain ⟨_, s', hstep, _, hrest⟩ := h
      rw [ownedAfter, hstep]
      exact ih hrest

/-- The second allocation comes from the second group and returns inode 1. -/
theorem not_keeps_second_group : twoGroups.Sound ∧
    twoGroups.ownedAfter [.ialloc, .ialloc] = [1, 8, 1, 2, 3, 4, 5, 6, 7] ∧
    ¬twoGroups.Keeps [.ialloc, .ialloc] := by
  have howned : twoGroups.ownedAfter [.ialloc, .ialloc] = [1, 8, 1, 2, 3, 4, 5, 6, 7] := by
    decide +kernel
  refine ⟨sound_twoGroups, howned, ?_⟩
  intro hkeeps
  have hnodup := hkeeps.nodup_ownedAfter
  rw [howned] at hnodup
  exact absurd hnodup (by decide)

end InodeUse

end Yak.Ext2
