import Yak.Exec

/-!
# Chunks of the address space of a user

`virt_map_chunk` fills the entries of the page tables one by one, and enters a table that is
new into the page directory only after it is filled.  Where no page of the chunk is mapped
before, the invariant of the page tables is kept, and with it the reference counts.
-/

namespace Yak.Paging

open PageFrames (noFreePage)
open Process (Slot)
open Exec (mapPages tableFor mapTables virtMapChunk)

/-- The flags of a chunk of the user. -/
def chunkFlags (writable : Bool) : BitVec 32 :=
  if writable then pageUser ||| pageWritable else pageUser

section Entry

variable {frame : BitVec 32} {writable : Bool}

theorem has_entry_present : Has (frame ||| pagePresent ||| chunkFlags writable) pagePresent :=
  has_or_left (has_or_right (by decide))

theorem has_entry_user : Has (frame ||| pagePresent ||| chunkFlags writable) pageUser := by
  apply has_or_right
  cases writable <;> decide

theorem frameNo_entry :
    frameNo (frame ||| pagePresent ||| chunkFlags writable) = frameNo frame := by
  have hflags : frameNo (chunkFlags writable) = 0#20 := by cases writable <;> decide
  rw [frameNo_or hflags, frameNo_or (by decide)]

end Entry

/-- `page_frame_alloc` returns only frames that are not in use and not counted. -/
def Fresh (alloc : Machine → BitVec 32) : Prop :=
  ∀ m : Machine, alloc m = BitVec.ofNat 32 noFreePage ∨
    alloc m &&& 0xFFF#32 = 0#32 ∧ ¬ m.InUse (frameNo (alloc m)) ∧
      m.counts (frameNo (alloc m)) = 0#8

/-- The entries that the inner loop of `virt_map_chunk` writes, and where `tmp` is then. -/
def chunkEntries (limit : BitVec 32) : List Index → BitVec 32 → List Index × BitVec 32
  | [], tmp => ([], tmp)
  | i :: is, tmp =>
      if tmp > limit then ([], tmp)
      else
        (i :: (chunkEntries limit is (tmp + 0x1000#32)).1,
          (chunkEntries limit is (tmp + 0x1000#32)).2)

/-- The entries of a page table from the one for this address on. -/
def entriesFrom (tmp : BitVec 32) : List Index := (List.finRange 1024).drop (pgTabIndex tmp)

namespace Machine

/-- No page that the loop over the tables comes to is mapped, and no table of the kernel. -/
def Unmapped (m : Machine) (p : Slot) (limit : BitVec 32) : (n j : ℕ) → BitVec 32 → Prop
  | 0, _, _ => True
  | n + 1, j, tmp =>
      (∀ h : pgDirIndex tmp + j < 1024, m.kernelTable p ⟨pgDirIndex tmp + j, h⟩ = none ∧
        ∀ l ∈ (chunkEntries limit (entriesFrom tmp) tmp).1,
          m.leaf p ⟨pgDirIndex tmp + j, h⟩ l = none) ∧
        m.Unmapped p limit n (j + 1) (chunkEntries limit (entriesFrom tmp) tmp).2

variable {m m' : Machine} {role : Frame → Role} {p q : Slot} {i j k l : Index} {d t f g : Frame}
  {e cr3 : BitVec 32}

/-! ## Pages that are added -/

/-- A page table of the user gets an entry for a frame that is not in use. -/
theorem Sound.addLeaf (h : m.Sound role) (hcr3 : m'.cr3 = m.cr3) (ht : m.userTable p i = some t)
    (hfree : m.leaf p i j = none) (hnew : ¬ m.InUse (frameNo e)) (he : Has e pagePresent)
    (hcounts : m'.counts = Function.update m.counts (frameNo e) 1#8)
    (hentry : m'.mem t = Function.update (m.mem t) j e)
    (hkeep : ∀ g, m.InUse g → g ≠ t → m'.mem g = m.mem g) :
    m'.Sound (Function.update role (frameNo e) .data) ∧ m'.dir = m.dir ∧
      m'.userTable = m.userTable ∧ m'.kernelTable = m.kernelTable ∧
      ∀ q k l, m'.leaf q k l = if q = p ∧ k = i ∧ l = j then some e else m.leaf q k l := by
  obtain ⟨hdir, huser, hkernel, hleaf⟩ := leaf_set h hcr3 ht he hentry hkeep
  refine ⟨?_, hdir, huser, hkernel, hleaf⟩
  have hframe := frameAt_set rfl hleaf
  have hnone : m.frameAt p i j = none := by
    rw [frameAt, hfree]
    rfl
  have hsharers : ∀ g, g ≠ frameNo e →
      m'.sharers (fun _ _ => True) g = m.sharers (fun _ _ => True) g := by
    intro g hg
    apply sharers_congr
    intro q k l
    rw [hframe]
    split
    next hq =>
      obtain ⟨rfl, rfl, rfl⟩ := hq
      rw [hnone, Option.some_inj]
      exact ⟨fun hh => absurd hh.1.symm hg, fun hh => by cases hh.1⟩
    next => exact Iff.rfl
  refine h.setFresh hnew rfl hdir huser hkernel hleaf ?_ ?_
  · rw [hcounts, Function.update_self]
  · intro q k l g hge hg
    rw [hcounts, Function.update_of_ne hge, hsharers g hge]
    exact h.count hg

theorem views_of_inUse (hcr3 : m'.cr3 = m.cr3) (hkeep : ∀ g, m.InUse g → m'.mem g = m.mem g) :
    m'.dir = m.dir ∧ m'.userTable = m.userTable ∧ m'.kernelTable = m.kernelTable ∧
      m'.leaf = m.leaf := by
  refine views_congr hcr3 (fun p d i hd => ?_) fun p i t ht => hkeep t (InUse.userTable ht)
  rw [hkeep d (InUse.dir hd)]
  exact ⟨Iff.rfl, Iff.rfl, rfl⟩

/-- The counts matter for the frames of the users. -/
theorem Sound.congr_counts (h : m.Sound role) (hdir : m'.dir = m.dir)
    (huser : m'.userTable = m.userTable) (hkernel : m'.kernelTable = m.kernelTable)
    (hleaf : m'.leaf = m.leaf)
    (hcounts : ∀ q k l g, m.frameAt q k l = some g → m'.counts g = m.counts g) :
    m'.Sound role := by
  have hsound : { m' with counts := m.counts }.Sound role :=
    h.congr hdir huser hkernel hleaf rfl
  have hframe : m'.frameAt = m.frameAt := by
    funext q k l
    rw [frameAt, frameAt, hleaf]
  refine ⟨hsound.dir_role, hsound.user_role, hsound.kernel_role, hsound.data_role,
    hsound.dir_inj, hsound.table_inj, hsound.once, ?_, hsound.alone, hsound.pid⟩
  intro q k l g hg
  have hcount := hsound.count hg
  rw [hframe] at hg
  rw [hcounts q k l g hg]
  exact hcount

theorem Sound.counts_ne_zero (h : m.Sound role) (hf : m.frameAt p i j = some f) :
    m.counts f ≠ 0#8 := by
  rw [h.count hf]
  have hmem : p ∈ m.sharers (fun _ _ => True) f := mem_sharers.mpr ⟨i, j, hf, trivial⟩
  have hpos := Finset.card_pos.mpr ⟨p, hmem⟩
  have hle := card_sharers_le m (fun _ _ => True) f
  intro hzero
  have hnat := congrArg BitVec.toNat hzero
  rw [BitVec.toNat_ofNat] at hnat
  change _ % 2 ^ 8 = 0 at hnat
  omega

/-! ## Page tables that are added -/

/-- An entry of a page directory is set. -/
def installed (m : Machine) (d : Frame) (i : Index) (e : BitVec 32) : Machine :=
  { m with mem := Function.update m.mem d (Function.update (m.mem d) i e) }

section Installed

variable (hd : m.dir p = some d) (hinj : ∀ q, m.dir q = some d → q = p)

theorem installed_dir : (m.installed d i e).dir = m.dir := rfl

include hd hinj in
theorem installed_entry {d' : Frame} (hq : m.dir q = some d') (k : Index) :
    (m.installed d i e).mem d' k = if q = p ∧ k = i then e else m.mem d' k := by
  change Function.update m.mem d _ d' k = _
  by_cases hdd : d' = d
  · subst hdd
    obtain rfl := hinj q hq
    rw [Function.update_self]
    by_cases hk : k = i
    · subst hk
      rw [Function.update_self, if_pos ⟨rfl, rfl⟩]
    · rw [Function.update_of_ne hk, if_neg fun hh => hk hh.2]
  · have hqp : q ≠ p := by
      rintro rfl
      exact hdd (Option.some.inj (hq.symm.trans hd))
    rw [Function.update_of_ne hdd, if_neg fun hh => hqp hh.1]

include hd hinj in
theorem installed_userTable (hpresent : Has e pagePresent) (huser : Has e pageUser) (q : Slot)
    (k : Index) : (m.installed d i e).userTable q k =
      if q = p ∧ k = i then some (frameNo e) else m.userTable q k := by
  unfold userTable
  rw [installed_dir]
  cases hq : m.dir q with
  | none =>
      rw [if_neg]
      · rfl
      · rintro ⟨rfl, -⟩
        rw [hd] at hq
        cases hq
  | some d' =>
      rw [Option.bind_some, Option.bind_some]
      simp only [OpenAt, installed_entry hd hinj hq]
      by_cases hqk : q = p ∧ k = i
      · simp only [if_pos hqk]
        rw [if_pos ⟨hpresent, huser⟩]
      · simp only [if_neg hqk]
        rfl

include hd hinj in
theorem installed_kernelTable (huser : Has e pageUser) (q : Slot) (k : Index) :
    (m.installed d i e).kernelTable q k =
      if q = p ∧ k = i then none else m.kernelTable q k := by
  unfold kernelTable
  rw [installed_dir]
  cases hq : m.dir q with
  | none => exact (ite_self none).symm
  | some d' =>
      rw [Option.bind_some, Option.bind_some, installed_entry hd hinj hq]
      by_cases hqk : q = p ∧ k = i
      · rw [if_pos hqk, if_pos hqk, if_neg fun hh => hh.2 huser]
      · rw [if_neg hqk, if_neg hqk]

end Installed

theorem Sound.addTable (h : m.Sound role) (hd : m.dir p = some d) (hpresent : Has e pagePresent)
    (huser : Has e pageUser) (habsent : m.userTable p i = none)
    (hempty : ∀ j, ¬ Has (m.mem (frameNo e) j) pagePresent) (hnew : ¬ m.InUse (frameNo e)) :
    (m.installed d i e).Sound (Function.update role (frameNo e) .userTable) ∧
      (m.installed d i e).leaf = m.leaf := by
  have hinj : ∀ q, m.dir q = some d → q = p := fun q hq => h.dir_inj hq hd
  have hne : frameNo e ≠ d := by
    rintro heq
    rw [heq] at hnew
    exact hnew (InUse.dir hd)
  have htable := installed_userTable (i := i) hd hinj hpresent huser
  have hkernel := installed_kernelTable (i := i) hd hinj huser
  have hleaf : (m.installed d i e).leaf = m.leaf := by
    funext q k l
    rw [leaf_eq, leaf_eq, htable]
    by_cases hqk : q = p ∧ k = i
    · rw [if_pos hqk, Option.bind_some, hqk.1, hqk.2, habsent, Option.bind_none]
      unfold installed
      simp only [Function.update_of_ne hne]
      exact if_neg (hempty l)
    · rw [if_neg hqk]
      cases ht : m.userTable q k with
      | none => rfl
      | some t =>
          have htd : t ≠ d := h.dir_ne_userTable hd ht
          rw [Option.bind_some, Option.bind_some]
          unfold installed
          simp only [Function.update_of_ne htd]
  have hframe : (m.installed d i e).frameAt = m.frameAt := by
    funext q k l
    rw [frameAt, frameAt, hleaf]
  refine ⟨⟨?_, ?_, ?_, ?_, h.dir_inj, ?_, ?_, ?_, ?_, h.pid⟩, hleaf⟩
  · intro q d' hq
    rw [update_of_inUse hnew (InUse.dir hq)]
    exact h.dir_role hq
  · intro q k t ht
    rw [htable] at ht
    split at ht
    next => rw [← Option.some.inj ht, Function.update_self]
    next =>
      rw [update_of_inUse hnew (InUse.userTable ht)]
      exact h.user_role ht
  · intro q k t ht
    rw [hkernel] at ht
    split at ht
    next => cases ht
    next =>
      rw [update_of_inUse hnew (InUse.kernelTable ht)]
      exact h.kernel_role ht
  · intro q k l f hf
    rw [hframe] at hf
    rw [update_of_inUse hnew (InUse.data hf)]
    exact h.data_role hf
  · intro q q' k k' t ht ht'
    rw [htable] at ht ht'
    split at ht
    next hq =>
      split at ht'
      next hq' => exact ⟨hq.2.trans hq'.2.symm, Or.inl (hq.1.trans hq'.1.symm)⟩
      next =>
        rw [← Option.some.inj ht] at ht'
        exact absurd (InUse.userTable ht') hnew
    next =>
      split at ht'
      next =>
        rw [← Option.some.inj ht'] at ht
        exact absurd (InUse.userTable ht) hnew
      next => exact h.table_inj ht ht'
  · rw [hframe]
    exact h.once
  · intro q k l f hf
    have hsame : (m.installed d i e).sharers (fun _ _ => True) f =
        m.sharers (fun _ _ => True) f := by
      apply sharers_congr
      intro q k l
      rw [hframe]
    rw [hframe] at hf
    rw [hsame]
    exact h.count hf
  · rw [hframe, hleaf]
    exact h.alone

theorem installed_again (h : m.Sound role) (hd : m.dir p = some d) (hpresent : Has e pagePresent)
    (huser : Has e pageUser) (ht : m.userTable p i = some (frameNo e)) :
    (m.installed d i e).Sound role ∧ (m.installed d i e).leaf = m.leaf := by
  have hinj : ∀ q, m.dir q = some d → q = p := fun q hq => h.dir_inj hq hd
  have hentries : ∀ q d' k, m.dir q = some d' →
      (Has ((m.installed d i e).mem d' k) pagePresent ↔ Has (m.mem d' k) pagePresent) ∧
      (Has ((m.installed d i e).mem d' k) pageUser ↔ Has (m.mem d' k) pageUser) ∧
      frameNo ((m.installed d i e).mem d' k) = frameNo (m.mem d' k) := by
    intro q d' k hq
    rw [installed_entry hd hinj hq]
    split
    next hqk =>
      obtain ⟨rfl, rfl⟩ := hqk
      obtain ⟨d'', hd'', hopen, hframe⟩ := userTable_eq_some.mp ht
      obtain rfl : d'' = d' := Option.some.inj (hd''.symm.trans hq)
      exact ⟨iff_of_true hpresent hopen.1, iff_of_true huser hopen.2, hframe.symm⟩
    next => exact ⟨Iff.rfl, Iff.rfl, rfl⟩
  have htables : ∀ q k t, m.userTable q k = some t → (m.installed d i e).mem t = m.mem t :=
    fun q k t htq => Function.update_of_ne (h.dir_ne_userTable hd htq) ..
  have hviews : (m.installed d i e).dir = m.dir ∧ (m.installed d i e).userTable = m.userTable ∧
      (m.installed d i e).kernelTable = m.kernelTable ∧ (m.installed d i e).leaf = m.leaf :=
    views_congr rfl hentries htables
  obtain ⟨hdir, hutable, hkernel, hleaf⟩ := hviews
  exact ⟨h.congr hdir hutable hkernel hleaf rfl, hleaf⟩

/-! ## The loop over the entries -/

section Loops

variable {alloc : Machine → BitVec 32} {start size pgDir old tmp : BitVec 32} {writable : Bool}
  {is rest : List Index} {m₀ : Machine}

/-- What each entry keeps, with the entries to come, holds where the loop ends. -/
theorem mapPages_induct {flags : BitVec 32} (I : List Index → Machine → Prop)
    (hstep : ∀ i is m, I (i :: is) m → alloc m ≠ BitVec.ofNat 32 noFreePage →
      I is ((m.setCount (alloc m) 1#8).setTmp i (alloc m ||| pagePresent ||| flags)))
    (h : I (chunkEntries (start + size) is tmp).1 m) :
    (∃ m', mapPages alloc (start + size) flags is tmp 0#32 m =
        (m', some ((chunkEntries (start + size) is tmp).2, 0#32)) ∧ I [] m') ∨
      ∃ m' rest, mapPages alloc (start + size) flags is tmp 0#32 m = (m', none) ∧ I rest m' := by
  induction is generalizing tmp m with
  | nil => exact Or.inl ⟨m, rfl, h⟩
  | cons i is ih =>
      unfold chunkEntries at h ⊢
      unfold mapPages
      by_cases hend : tmp > start + size
      · rw [if_pos hend] at h ⊢
        rw [if_pos hend]
        exact Or.inl ⟨m, rfl, h⟩
      · rw [if_neg hend] at h ⊢
        rw [if_neg hend, if_pos rfl]
        unfold pageFrameAlloc
        by_cases hno : alloc m = BitVec.ofNat 32 noFreePage
        · rw [if_pos hno]
          dsimp only
          rw [if_pos hno]
          exact Or.inr ⟨m, _, rfl, h⟩
        · rw [if_neg hno]
          dsimp only
          rw [if_neg hno]
          exact ih (hstep i _ m h hno)

/-- A table of the user is filled, with these entries to come. -/
structure Filling (m₀ m : Machine) (p : Slot) (i : Index) (t : Frame) (rest : List Index) :
    Prop where
  sound : ∃ role, m.Sound role
  cr3 : m.cr3 = m₀.cr3
  tmpPage : m.tmpPage = t
  table : m.userTable p i = some t
  free : ∀ l ∈ rest, m.leaf p i l = none
  nodup : rest.Nodup
  keeps : ∀ q k l e, m₀.leaf q k l = some e → m.leaf q k l = some e
  others : ∀ q k l, ¬ (q = p ∧ k = i) → m.leaf q k l = m₀.leaf q k l
  kernel : ∀ q k, ¬ (q = p ∧ k = i) → m.kernelTable q k = m₀.kernelTable q k

theorem Filling.add (h : Filling m₀ m p i t (j :: rest)) (he : Has e pagePresent)
    (hnew : ¬ m.InUse (frameNo e)) (hcr3 : m'.cr3 = m.cr3) (htmp : m'.tmpPage = m.tmpPage)
    (hcounts : m'.counts = Function.update m.counts (frameNo e) 1#8)
    (hentry : m'.mem t = Function.update (m.mem t) j e)
    (hkeep : ∀ g, g ≠ t → m'.mem g = m.mem g) : Filling m₀ m' p i t rest := by
  obtain ⟨role, hsound⟩ := h.sound
  obtain ⟨hj, hnodup⟩ := List.nodup_cons.mp h.nodup
  have hfree := h.free j List.mem_cons_self
  obtain ⟨hsound', -, huser, hkernel, hleaf⟩ := hsound.addLeaf hcr3 h.table hfree hnew he hcounts
    hentry fun g _ hg => hkeep g hg
  refine ⟨⟨_, hsound'⟩, hcr3.trans h.cr3, htmp.trans h.tmpPage, ?_, ?_, hnodup, ?_, ?_, ?_⟩
  · rw [huser]
    exact h.table
  · intro l hl
    rw [hleaf, if_neg]
    · exact h.free l (List.mem_cons_of_mem j hl)
    · rintro ⟨-, -, rfl⟩
      exact hj hl
  · intro q k l e' he'
    have hold := h.keeps q k l e' he'
    rw [hleaf, if_neg]
    · exact hold
    · rintro ⟨rfl, rfl, rfl⟩
      rw [hfree] at hold
      cases hold
  · intro q k l hqk
    rw [hleaf, if_neg fun hh => hqk ⟨hh.1, hh.2.1⟩]
    exact h.others q k l hqk
  · intro q k hqk
    rw [hkernel]
    exact h.kernel q k hqk

theorem inUse_congr (hdir : m'.dir = m.dir) (huser : m'.userTable = m.userTable)
    (hkernel : m'.kernelTable = m.kernelTable) (hleaf : m'.leaf = m.leaf) :
    m'.InUse f ↔ m.InUse f := by
  have hframe : m'.frameAt = m.frameAt := by
    funext q k l
    rw [frameAt, frameAt, hleaf]
  unfold InUse
  rw [hdir, huser, hkernel, hframe]

/-- With its entry a table is in use, and so are the frames in it; all these are counted. -/
theorem Sound.fresh_installed (h : (m.installed d i e).Sound role) (hd : m.dir p = some d)
    (hpresent : Has e pagePresent) (huser : Has e pageUser) (ht : m.counts (frameNo e) ≠ 0#8)
    (hnew : ¬ m.InUse f) (hf : m.counts f = 0#8) : ¬ (m.installed d i e).InUse f := by
  have hinj : ∀ q, m.dir q = some d → q = p := fun q hq => h.dir_inj hq hd
  rintro ⟨q, hq | ⟨k, hq | hq | ⟨l, hq⟩⟩⟩
  · exact hnew (InUse.dir hq)
  · rw [installed_userTable hd hinj hpresent huser] at hq
    split at hq
    next =>
      rw [Option.some.inj hq] at ht
      exact ht hf
    next => exact hnew (InUse.userTable hq)
  · rw [installed_kernelTable hd hinj huser] at hq
    split at hq
    next => cases hq
    next => exact hnew (InUse.kernelTable hq)
  · exact h.counts_ne_zero hq hf

/-- A table that is not yet entered is filled. -/
structure Pending (m₀ m : Machine) (p : Slot) (d : Frame) (i : Index) (e : BitVec 32)
    (rest : List Index) : Prop where
  filling : Filling m₀ (m.installed d i e) p i (frameNo e) rest
  sound : ∃ role, m.Sound role
  cr3 : m.cr3 = m₀.cr3
  dir : m.dir p = some d
  leaf : m.leaf = m₀.leaf
  counted : m.counts (frameNo e) ≠ 0#8
  unused : ¬ m.InUse (frameNo e)

theorem Pending.add (h : Pending m₀ m p d i e (j :: rest)) (e' : BitVec 32)
    (hpresent : Has e pagePresent) (huser : Has e pageUser) (he : Has e' pagePresent)
    (hnew : ¬ m.InUse (frameNo e')) (hzero : m.counts (frameNo e') = 0#8)
    (hcr3 : m'.cr3 = m.cr3) (htmp : m'.tmpPage = m.tmpPage)
    (hcounts : m'.counts = Function.update m.counts (frameNo e') 1#8)
    (hentry : m'.mem (frameNo e) = Function.update (m.mem (frameNo e)) j e')
    (hkeep : ∀ g, g ≠ frameNo e → m'.mem g = m.mem g) : Pending m₀ m' p d i e rest := by
  obtain ⟨role, hsound⟩ := h.filling.sound
  have htd : frameNo e ≠ d := by
    rintro heq
    exact h.unused (heq ▸ InUse.dir h.dir)
  have hne : frameNo e ≠ frameNo e' := by
    intro heq
    exact h.counted (heq ▸ hzero)
  have hunused := hsound.fresh_installed h.dir hpresent huser h.counted hnew hzero
  have hfilling : Filling m₀ (m'.installed d i e) p i (frameNo e) rest := by
    refine h.filling.add he hunused hcr3 htmp hcounts ?_ ?_
    · unfold installed
      simp only [Function.update_of_ne htd]
      exact hentry
    · intro g hg
      unfold installed
      by_cases hgd : g = d
      · subst hgd
        simp only [Function.update_self]
        rw [hkeep g hg]
      · simp only [Function.update_of_ne hgd]
        exact hkeep g hg
  obtain ⟨hdir, hutable, hkernel, hleaf⟩ := views_of_inUse hcr3 fun g hg =>
    hkeep g fun heq => h.unused (heq ▸ hg)
  obtain ⟨role', hplain⟩ := h.sound
  refine ⟨hfilling, ⟨role', hplain.congr_counts hdir hutable hkernel hleaf ?_⟩,
    hcr3.trans h.cr3, ?_, hleaf.trans h.leaf, ?_, ?_⟩
  · intro q k l g hg
    rw [hcounts]
    apply Function.update_of_ne
    rintro rfl
    exact hnew (InUse.data hg)
  · rw [hdir]
    exact h.dir
  · rw [hcounts, Function.update_of_ne hne]
    exact h.counted
  · rw [inUse_congr hdir hutable hkernel hleaf]
    exact h.unused

/-! ## The loop over the tables -/

/-- The users keep the pages which they have. -/
structure Extends (m₀ m : Machine) : Prop where
  sound : ∃ role, m.Sound role
  cr3 : m.cr3 = m₀.cr3
  keeps : ∀ q k l e, m₀.leaf q k l = some e → m.leaf q k l = some e

theorem Extends.trans (h : Extends m₀ m) (h' : Extends m m') : Extends m₀ m' :=
  ⟨h'.sound, h'.cr3.trans h.cr3, fun q k l e he => h'.keeps q k l e (h.keeps q k l e he)⟩

theorem extends_of_leaf (hsound : ∃ role, m'.Sound role)
    (hcr3 : m'.cr3 = m.cr3) (hleaf : m'.leaf = m.leaf) : Extends m m' :=
  ⟨hsound, hcr3, fun q k l e he => by rw [hleaf]; exact he⟩

theorem Filling.extends (h : Filling m₀ m p i t rest) : Extends m₀ m := ⟨h.sound, h.cr3, h.keeps⟩

/-- The temporary page does not matter. -/
theorem Extends.tmpPage (h : Extends m₀ m) (f : Frame) : Extends m₀ { m with tmpPage := f } := by
  obtain ⟨role, hsound⟩ := h.sound
  exact ⟨⟨role, hsound.congr rfl rfl rfl rfl rfl⟩, h.cr3, h.keeps⟩

theorem chunkEntries_initial (limit : BitVec 32) :
    (chunkEntries limit is tmp).1 <+: is := by
  induction is generalizing tmp with
  | nil => exact List.prefix_rfl
  | cons i is ih =>
      unfold chunkEntries
      split
      next => exact List.nil_prefix
      next => exact (List.prefix_cons_inj i).mpr ih

/-- One round of the loop over the tables, which other tables do not see. -/
structure Round (m₀ m : Machine) (p : Slot) (i : Index) : Prop where
  extend : Extends m₀ m
  others : ∀ q k l, ¬ (q = p ∧ k = i) → m.leaf q k l = m₀.leaf q k l
  kernel : ∀ q k, ¬ (q = p ∧ k = i) → m.kernelTable q k = m₀.kernelTable q k

/-- The table is there already. -/
theorem Sound.fill (h : m.Sound role) (writable : Bool) (hfresh : Fresh alloc)
    (hcr3 : m.cr3 p = some pgDir) (ht : m.userTable p i = some t) (htmp : m.tmpPage = t)
    (hnodup : is.Nodup)
    (hfree : ∀ l ∈ (chunkEntries (start + size) is tmp).1, m.leaf p i l = none) :
    (∃ m', mapPages alloc (start + size) (chunkFlags writable) is tmp 0#32 m =
        (m', some ((chunkEntries (start + size) is tmp).2, 0#32)) ∧
      ∀ e, Has e pagePresent → Has e pageUser → frameNo e = t →
        Round m (m'.installed (frameNo pgDir) i e) p i) ∨
      ∃ m', mapPages alloc (start + size) (chunkFlags writable) is tmp 0#32 m = (m', none) ∧
        Extends m m' := by
  have hstart : Filling m m p i t (chunkEntries (start + size) is tmp).1 :=
    ⟨⟨role, h⟩, rfl, htmp, ht, hfree, (chunkEntries_initial _).sublist.nodup hnodup,
      fun _ _ _ _ he => he, fun _ _ _ _ => rfl, fun _ _ _ => rfl⟩
  have hstep : ∀ j rest m', Filling m m' p i t (j :: rest) →
      alloc m' ≠ BitVec.ofNat 32 noFreePage →
      Filling m ((m'.setCount (alloc m') 1#8).setTmp j
        (alloc m' ||| pagePresent ||| chunkFlags writable)) p i t rest := by
    intro j rest m' hm' hno
    obtain ⟨-, hnew, -⟩ := (hfresh m').resolve_left hno
    have htmp' := hm'.tmpPage
    refine hm'.add (e := alloc m' ||| pagePresent ||| chunkFlags writable) has_entry_present ?_ rfl
      rfl ?_ ?_ ?_
    · rw [frameNo_entry]
      exact hnew
    · rw [frameNo_entry]
      rfl
    · rw [← htmp']
      exact Function.update_self ..
    · intro g hg
      rw [← htmp'] at hg
      exact Function.update_of_ne hg ..
  rcases mapPages_induct (fun rest m' => Filling m m' p i t rest) hstep hstart with
    ⟨m', hm', hend⟩ | ⟨m', rest, hm', hend⟩
  · refine Or.inl ⟨m', hm', fun e hpresent huser hframe => ?_⟩
    obtain ⟨role', hsound⟩ := hend.sound
    have hd : m'.dir p = some (frameNo pgDir) := by
      rw [dir, hend.cr3, hcr3]
      rfl
    have hinj : ∀ q, m'.dir q = some (frameNo pgDir) → q = p := fun q hq => hsound.dir_inj hq hd
    obtain ⟨hagain, hleaf⟩ := installed_again hsound hd hpresent huser
      (hframe ▸ hend.table)
    refine ⟨⟨⟨role', hagain⟩, hend.cr3, ?_⟩, ?_, ?_⟩
    · rw [hleaf]
      exact hend.keeps
    · rw [hleaf]
      exact hend.others
    · intro q k hqk
      rw [installed_kernelTable hd hinj huser, if_neg hqk]
      exact hend.kernel q k hqk
  · exact Or.inr ⟨m', hm', hend.extends⟩

/-- The table is new. -/
theorem Pending.fill {e : BitVec 32} (h : Pending m₀ m p (frameNo pgDir) i e
      (chunkEntries (start + size) is tmp).1) (writable : Bool) (hfresh : Fresh alloc)
    (htmp : m.tmpPage = frameNo e) (hpresent : Has e pagePresent) (huser : Has e pageUser) :
    (∃ m', mapPages alloc (start + size) (chunkFlags writable) is tmp 0#32 m =
        (m', some ((chunkEntries (start + size) is tmp).2, 0#32)) ∧
      Round m₀ (m'.installed (frameNo pgDir) i e) p i) ∨
      ∃ m', mapPages alloc (start + size) (chunkFlags writable) is tmp 0#32 m = (m', none) ∧
        Extends m₀ m' := by
  have hstep : ∀ j rest m', Pending m₀ m' p (frameNo pgDir) i e (j :: rest) ∧
        m'.tmpPage = frameNo e → alloc m' ≠ BitVec.ofNat 32 noFreePage →
      Pending m₀ ((m'.setCount (alloc m') 1#8).setTmp j
        (alloc m' ||| pagePresent ||| chunkFlags writable)) p (frameNo pgDir) i e rest ∧
        ((m'.setCount (alloc m') 1#8).setTmp j
          (alloc m' ||| pagePresent ||| chunkFlags writable)).tmpPage = frameNo e := by
    rintro j rest m' ⟨hm', htmp'⟩ hno
    obtain ⟨-, hnew, hzero⟩ := (hfresh m').resolve_left hno
    refine ⟨?_, htmp'⟩
    refine hm'.add (alloc m' ||| pagePresent ||| chunkFlags writable) hpresent huser
      has_entry_present ?_ ?_ rfl rfl ?_ ?_ ?_
    · rw [frameNo_entry]
      exact hnew
    · rw [frameNo_entry]
      exact hzero
    · rw [frameNo_entry]
      rfl
    · rw [← htmp']
      exact Function.update_self ..
    · intro g hg
      rw [← htmp'] at hg
      exact Function.update_of_ne hg ..
  rcases mapPages_induct (fun rest m' => Pending m₀ m' p (frameNo pgDir) i e rest ∧
    m'.tmpPage = frameNo e) hstep ⟨h, htmp⟩ with
    ⟨m', hm', hend, -⟩ | ⟨m', rest, hm', hend, -⟩
  · exact Or.inl ⟨m', hm', hend.filling.extends, hend.filling.others, hend.filling.kernel⟩
  · exact Or.inr ⟨m', hm', extends_of_leaf hend.sound hend.cr3 hend.leaf⟩

theorem Sound.pending (h : m.Sound role) {new e : BitVec 32} (hnew : ¬ m.InUse (frameNo new))
    (hd : m.dir p = some d) (ht : m.userTable p i = none)
    (hframe : frameNo e = frameNo new) (hpresent : Has e pagePresent) (huser : Has e pageUser)
    (hfree : ∀ l ∈ rest, m.leaf p i l = none) (hnodup : rest.Nodup) (hcr3 : m'.cr3 = m.cr3)
    (htmp : m'.tmpPage = frameNo new)
    (hmem : m'.mem = Function.update m.mem (frameNo new) fun _ => 0#32)
    (hcounts : m'.counts = Function.update m.counts (frameNo new) 1#8) :
    Pending m m' p d i e rest := by
  have hkeep : ∀ g, m.InUse g → m'.mem g = m.mem g := by
    intro g hg
    rw [hmem]
    apply Function.update_of_ne
    rintro rfl
    exact hnew hg
  obtain ⟨hdir, hutable, hkernel, hleaf⟩ := views_of_inUse hcr3 hkeep
  have hsound : m'.Sound role := by
    refine h.congr_counts hdir hutable hkernel hleaf fun q k l g hg => ?_
    rw [hcounts]
    apply Function.update_of_ne
    rintro rfl
    exact hnew (InUse.data hg)
  have hd' : m'.dir p = some d := by
    rw [hdir]
    exact hd
  have hinj : ∀ q, m'.dir q = some d → q = p := fun q hq => hsound.dir_inj hq hd'
  have hunused : ¬ m'.InUse (frameNo e) := by
    rw [inUse_congr hdir hutable hkernel hleaf, hframe]
    exact hnew
  have hempty : ∀ j, ¬ Has (m'.mem (frameNo e) j) pagePresent := by
    intro j
    rw [hframe, hmem, Function.update_self]
    decide
  have habsent : m'.userTable p i = none := by
    rw [hutable]
    exact ht
  obtain ⟨hfull, hleaf'⟩ := hsound.addTable hd' hpresent huser habsent hempty hunused
  refine ⟨⟨⟨_, hfull⟩, hcr3, htmp.trans hframe.symm, ?_, ?_, hnodup, ?_, ?_, ?_⟩,
    ⟨role, hsound⟩, hcr3, hd', hleaf, ?_, hunused⟩
  · rw [installed_userTable hd' hinj hpresent huser, if_pos ⟨rfl, rfl⟩]
  · intro l hl
    rw [hleaf', hleaf]
    exact hfree l hl
  · intro q k l e' he'
    rw [hleaf', hleaf]
    exact he'
  · intro q k l _
    rw [hleaf', hleaf]
  · intro q k hqk
    rw [installed_kernelTable hd' hinj huser, if_neg hqk, hkernel]
  · rw [hcounts, hframe, Function.update_self]
    decide

theorem chunkEntries_le {limit : BitVec 32} (hlimit : limit.toNat + 4096 < 2 ^ 32) :
    tmp.toNat ≤ (chunkEntries limit is tmp).2.toNat := by
  induction is generalizing tmp with
  | nil => exact le_rfl
  | cons i is ih =>
      unfold chunkEntries
      split
      next => exact le_rfl
      next hle =>
        have hnext : (tmp + 0x1000#32).toNat = tmp.toNat + 4096 := by
          have hlt : tmp.toNat ≤ limit.toNat := not_lt.mp hle
          rw [BitVec.toNat_add]
          exact Nat.mod_eq_of_lt (by change tmp.toNat + 4096 < 2 ^ 32; omega)
        have hle : tmp.toNat ≤ (tmp + 0x1000#32).toNat := by omega
        exact hle.trans ih

theorem Unmapped.congr {limit : BitVec 32} (hlimit : limit.toNat + 4096 < 2 ^ 32) {n j : ℕ}
    (h : m.Unmapped p limit n j tmp)
    (hkernel : ∀ k : Index, (pgDirIndex tmp : ℕ) + j ≤ k → m'.kernelTable p k = m.kernelTable p k)
    (hleaf : ∀ (k : Index) l, (pgDirIndex tmp : ℕ) + j ≤ k → m'.leaf p k l = m.leaf p k l) :
    m'.Unmapped p limit n j tmp := by
  induction n generalizing j tmp with
  | zero => trivial
  | succ n ih =>
      obtain ⟨hfirst, hrest⟩ := h
      have hle : (pgDirIndex tmp : ℕ) ≤
          pgDirIndex (chunkEntries limit (entriesFrom tmp) tmp).2 :=
        Nat.div_le_div_right (chunkEntries_le hlimit)
      refine ⟨fun hj => ?_, ih hrest (fun k hk => hkernel k (by omega))
        fun k l hk => hleaf k l (by omega)⟩
      obtain ⟨hnone, hentries⟩ := hfirst hj
      rw [hkernel _ le_rfl]
      refine ⟨hnone, fun l hl => ?_⟩
      rw [hleaf _ l le_rfl]
      exact hentries l hl

theorem Extends.base (h : Extends m₀ m) (hcr3 : m₀.cr3 = m'.cr3) (hleaf : m₀.leaf = m'.leaf) :
    Extends m' m := by
  refine ⟨h.sound, h.cr3.trans hcr3, fun q k l e he => h.keeps q k l e ?_⟩
  rw [hleaf]
  exact he

theorem Round.base (h : Round m₀ m p i) (hcr3 : m₀.cr3 = m'.cr3) (hleaf : m₀.leaf = m'.leaf)
    (hkernel : m₀.kernelTable = m'.kernelTable) : Round m' m p i :=
  ⟨h.extend.base hcr3 hleaf, hleaf ▸ h.others, hkernel ▸ h.kernel⟩

theorem Round.tmpPage (h : Round m₀ m p i) (f : Frame) :
    Round m₀ { m with tmpPage := f } p i :=
  ⟨h.extend.tmpPage f, h.others, h.kernel⟩

/-- One round of the loop over the tables, and what is left of the loop. -/
theorem Sound.round (h : m.Sound role) (hfresh : Fresh alloc) (hcr3 : m.cr3 p = some pgDir)
    {n j : ℕ} {b : Bool} (hunmapped : m.Unmapped p (start + size) (n + 1) j tmp)
    (hrun : mapTables alloc (start + size) pgDir (chunkFlags writable) old (n + 1) j tmp 0#32 m =
      .ok (m', b)) :
    Extends m m' ∨ ∃ (hj : pgDirIndex tmp + j < 1024) (m₁ : Machine),
      Round m m₁ p ⟨pgDirIndex tmp + j, hj⟩ ∧
        mapTables alloc (start + size) pgDir (chunkFlags writable) old n (j + 1)
          (chunkEntries (start + size) (entriesFrom tmp) tmp).2 0#32 m₁ = .ok (m', b) := by
  unfold mapTables at hrun
  dsimp only at hrun
  split at hrun
  next hj =>
    obtain ⟨hkernel, hfree⟩ := hunmapped.1 hj
    have hd := dir_of_cr3 hcr3
    have hnodup : (entriesFrom tmp).Nodup :=
      (List.nodup_finRange 1024).sublist (List.drop_sublist _ _)
    by_cases hpresent : Has ((m.tmpMapPage pgDir).tmp ⟨pgDirIndex tmp + j, hj⟩) pagePresent
    · have huser : Has ((m.tmpMapPage pgDir).tmp ⟨pgDirIndex tmp + j, hj⟩) pageUser := by
        by_contra hno
        have hthere := kernelTable_eq_some.mpr ⟨_, hd, ⟨hpresent, hno⟩, rfl⟩
        rw [hkernel] at hthere
        cases hthere
      have htable := userTable_eq_some.mpr ⟨_, hd, ⟨hpresent, huser⟩, rfl⟩
      have htmp : (((m.tmpMapPage pgDir).tmpMapPage ((m.tmpMapPage pgDir).tmp
          ⟨pgDirIndex tmp + j, hj⟩ &&& 0xFFFFF000#32)).tmpPage) =
          frameNo ((m.tmpMapPage pgDir).tmp ⟨pgDirIndex tmp + j, hj⟩) := frameNo_and_mask
      have hsound : ((m.tmpMapPage pgDir).tmpMapPage ((m.tmpMapPage pgDir).tmp
          ⟨pgDirIndex tmp + j, hj⟩ &&& 0xFFFFF000#32)).Sound role := h.congr rfl rfl rfl rfl rfl
      unfold tableFor at hrun
      rw [if_neg (not_not.mpr hpresent)] at hrun
      dsimp only at hrun
      rcases hsound.fill writable hfresh hcr3 htable htmp hnodup hfree with
        ⟨m₁, hm₁, hround⟩ | ⟨m₁, hm₁, hextends⟩
      · unfold entriesFrom at hm₁
        rw [hm₁] at hrun
        have hentry := hround (((m.tmpMapPage pgDir).tmp ⟨pgDirIndex tmp + j, hj⟩ &&&
          0xFFFFF000#32) ||| pagePresent ||| chunkFlags writable) has_entry_present has_entry_user
          (frameNo_entry.trans frameNo_and_mask)
        exact Or.inr ⟨hj, _, (hentry.tmpPage (frameNo pgDir)).base rfl rfl rfl, hrun⟩
      · unfold entriesFrom at hm₁
        rw [hm₁] at hrun
        obtain ⟨rfl, -⟩ := Prod.mk.inj (Except.ok.inj hrun)
        exact Or.inl (hextends.base rfl rfl)
    · have hnone : m.userTable p ⟨pgDirIndex tmp + j, hj⟩ = none := by
        rw [userTable, hd, Option.bind_some, if_neg fun hopen => hpresent hopen.1]
      unfold tableFor at hrun
      rw [if_pos hpresent] at hrun
      unfold pageFrameAlloc at hrun
      by_cases hno : alloc (m.tmpMapPage pgDir) = BitVec.ofNat 32 noFreePage
      · rw [if_pos hno] at hrun
        dsimp only at hrun
        rw [if_pos hno] at hrun
        obtain ⟨rfl, -⟩ := Prod.mk.inj (Except.ok.inj hrun)
        exact Or.inl ⟨⟨role, h.congr rfl rfl rfl rfl rfl⟩, rfl, fun _ _ _ _ he => he⟩
      · rw [if_neg hno] at hrun
        dsimp only at hrun
        rw [if_neg hno] at hrun
        dsimp only at hrun
        obtain ⟨-, hnew, -⟩ := (hfresh _).resolve_left hno
        have hpending : Pending m ((((m.tmpMapPage pgDir).setCount (alloc (m.tmpMapPage pgDir))
            1#8).tmpMapPage (alloc (m.tmpMapPage pgDir))).setTmpPage fun _ => 0#32) p
            (frameNo pgDir) ⟨pgDirIndex tmp + j, hj⟩
            (alloc (m.tmpMapPage pgDir) ||| pagePresent ||| chunkFlags writable)
            (chunkEntries (start + size) (entriesFrom tmp) tmp).1 :=
          h.pending hnew hd hnone frameNo_entry has_entry_present has_entry_user hfree
            ((chunkEntries_initial (start + size)).sublist.nodup hnodup) rfl rfl rfl rfl
        rcases hpending.fill writable hfresh frameNo_entry.symm has_entry_present
            has_entry_user with
          ⟨m₁, hm₁, hround⟩ | ⟨m₁, hm₁, hextends⟩
        · unfold entriesFrom at hm₁
          rw [hm₁] at hrun
          exact Or.inr ⟨hj, _, hround.tmpPage (frameNo pgDir), hrun⟩
        · unfold entriesFrom at hm₁
          rw [hm₁] at hrun
          obtain ⟨rfl, -⟩ := Prod.mk.inj (Except.ok.inj hrun)
          exact Or.inl hextends
  next => cases hrun

theorem Sound.mapTables (hfresh : Fresh alloc) (hlimit : (start + size).toNat + 4096 < 2 ^ 32)
    {n j : ℕ} {b : Bool} (h : m.Sound role) (hcr3 : m.cr3 p = some pgDir)
    (hunmapped : m.Unmapped p (start + size) n j tmp)
    (hrun : Exec.mapTables alloc (start + size) pgDir (chunkFlags writable) old n j tmp 0#32 m =
      .ok (m', b)) : Extends m m' := by
  induction n generalizing m role j tmp with
  | zero =>
      obtain ⟨rfl, -⟩ := Prod.mk.inj (Except.ok.inj hrun)
      exact ⟨⟨role, h⟩, rfl, fun _ _ _ _ he => he⟩
  | succ n ih =>
      rcases h.round hfresh hcr3 hunmapped hrun with hdone | ⟨hj, m₁, hround, hrest⟩
      · exact hdone
      · obtain ⟨role₁, hsound₁⟩ := hround.extend.sound
        have hle : (pgDirIndex tmp : ℕ) ≤
            pgDirIndex (chunkEntries (start + size) (entriesFrom tmp) tmp).2 :=
          Nat.div_le_div_right (chunkEntries_le hlimit)
        have hother : ∀ k : Index, (pgDirIndex (chunkEntries (start + size) (entriesFrom tmp)
            tmp).2 : ℕ) + (j + 1) ≤ k → ¬ (p = p ∧ k = ⟨pgDirIndex tmp + j, hj⟩) := by
          rintro k hk ⟨-, rfl⟩
          change _ ≤ (pgDirIndex tmp : ℕ) + j at hk
          omega
        have hcr3₁ : m₁.cr3 p = some pgDir := by
          rw [hround.extend.cr3]
          exact hcr3
        refine hround.extend.trans (ih hsound₁ hcr3₁ ?_ hrest)
        exact hunmapped.2.congr hlimit (fun k hk => hround.kernel p k (hother k hk))
          fun k l hk => hround.others p k l (hother k hk)

theorem Sound.virtMapChunk (h : m.Sound role) (hfresh : Fresh alloc)
    (hlimit : (start + size).toNat + 4096 < 2 ^ 32) (hcr3 : m.cr3 p = some pgDir)
    (hunmapped : m.Unmapped p (start + size) (size.toNat / 0x400000 + 1) 0
      (start &&& 0xFFFFF000#32)) {ret : BitVec 32}
    (hrun : Exec.virtMapChunk alloc start size pgDir (chunkFlags writable) m = .ok (m', ret)) :
    Extends m m' := by
  obtain ⟨⟨m₁, done⟩, hloop, hend⟩ := bind_eq_ok.mp hrun
  have hsound : (m.tmpMapPage pgDir).Sound role := h.congr rfl rfl rfl rfl rfl
  have hstart : (m.tmpMapPage pgDir).Unmapped p (start + size) (size.toNat / 0x400000 + 1) 0
      (start &&& 0xFFFFF000#32) :=
    hunmapped.congr hlimit (fun _ _ => rfl) fun _ _ _ => rfl
  have hextends := hsound.mapTables hfresh hlimit hcr3 hstart hloop
  have hbase : Extends m m₁ := hextends.base rfl rfl
  dsimp only at hend
  cases done with
  | false =>
      obtain ⟨rfl, -⟩ := Prod.mk.inj (Except.ok.inj hend)
      exact hbase
  | true =>
      obtain ⟨rfl, -⟩ := Prod.mk.inj (Except.ok.inj hend)
      exact hbase.tmpPage _

end Loops

end Machine

end Yak.Paging
