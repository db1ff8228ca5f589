import Yak.BoundedLoop
import Yak.DirEmpty

/-!
# Adding an entry to a directory

A transcription of `ext2_add_dir_entry`.  What the routine itself writes and marks `B_DWRITE` is
recorded.  The blocks which `ext2_create_block` allocates are marked there.
-/

namespace Yak.Ext2

open ByteBitmap WordMemory RecordChain

def enospc : ℤ := 51

def sIfsock : ℕ := 0xC000
def sIfreg : ℕ := 0x8000
def sIfifo : ℕ := 0x1000

/-- `dentry_file_type` -/
def dentryFileType (mode : ℕ) : ℕ :=
  if mode &&& sIfmt = sIfsock then 6
  else if mode &&& sIfmt = sIflnk then 7
  else if mode &&& sIfmt = sIfreg then 1
  else if mode &&& sIfmt = sIfdir then 2
  else if mode &&& sIfmt = sIfblk then 4
  else if mode &&& sIfmt = sIfchr then 3
  else if mode &&& sIfmt = sIfifo then 5
  else 0

/-- The length of the new record. -/
def newRecLen (len : ℕ) : ℕ := if (8 + len) % 4 ≠ 0 then 8 + len + (4 - len % 4) else 8 + len

/-- The length to which the last record is cut. -/
def cutRecLen (nameLen : ℕ) : ℕ :=
  if (nameLen + 8) % 4 ≠ 0 then nameLen + 8 + (4 - (nameLen + 8) % 4) else nameLen + 8

/-- The inode which gets the name. -/
structure Linked where
  iNum : ℕ
  iMode : ℕ

/-- The end of `ext2_add_dir_entry`: its code, the file system and the directory, and the blocks
which it wrote and which it marked. -/
structure Added where
  ret : ℤ
  fs : Fs
  dir : InodeM
  written : List ℕ
  marked : List ℕ

/-- The fields of the new record are set, and the name behind them. -/
def putRecord (blk : Bytes) (p recLen : ℕ) (ip : Linked) (name : Name) : Bytes :=
  let blk := setInode blk p ip.iNum
  let blk := setFileType blk p (dentryFileType ip.iMode)
  let blk := setNameLen blk p name.length
  let blk := setRecLen blk p recLen
  setName blk p name

/-- The whole block becomes one record. -/
def fillBlock (size : ℕ) (blk : Bytes) (ip : Linked) (name : Name) : Except Halt Bytes :=
  if size < headerSize + name.length then .error .outOfBounds
  else .ok (putRecord blk 0 size ip name)

/-- The record at `p` is cut, and the new one goes behind it. -/
def splitRecord (size : ℕ) (blk : Bytes) (p : ℕ) (ip : Linked) (name : Name) :
    Except Halt Bytes :=
  let blk := setRecLen blk p (cutRecLen (dNameLen blk p))
  let p := p + dRecLen blk p
  if size < p + headerSize + name.length then .error .outOfBounds
  else .ok (putRecord blk p (size - p) ip name)

/-- An unsigned offset as an argument of type `off_t`.  Below 0 it is divided as a signed number,
and the quotient is taken for an unsigned one. -/
def offT (size off : ℕ) : ℕ :=
  if off < 2 ^ 31 then off else (2 ^ 32 - (2 ^ 32 - off) / size) * size

/-- What the loop of `ext2_add_dir_entry` holds: the block in the buffer, the running offset in the
directory, and the offset of the record in the block. -/
structure AddState where
  fs : Fs
  dir : InodeM
  block : ℕ
  off : ℕ
  p : ℕ

/-- The body of the loop. -/
def addStep (ip : Linked) (name : Name) (s : AddState) : Except Halt (Added ⊕ AddState) := do
  let size := s.fs.sb.blocksize
  -- behind the end, the loop goes on in the block of the offset
  let s ←
    if size ≤ s.p then do
      let (block, fs, dir) ← s.fs.createBlock s.dir (offT size s.off)
      .ok (AddState.mk fs { dir with iSize := (dir.iSize + size) % 2 ^ 32, modified := true }
        block s.off 0)
    else .ok s
  let blk := s.fs.blocks s.block
  if size < s.p + headerSize then .error .outOfBounds
  else if size ≤ s.p + dRecLen blk s.p ∧ newRecLen name.length ≤ dRecLen blk s.p then do
    let blk ← splitRecord size blk s.p ip name
    .ok (.inl ⟨0, s.fs.setBlock s.block blk, s.dir, [s.block], [s.block]⟩)
  else if size ≤ s.p + dRecLen blk s.p then do
    let (block, fs, dir) ← s.fs.createBlock s.dir (offT size s.off)
    .ok (.inr ⟨fs, dir, block, s.off, 0⟩)
  else .ok (.inr { s with off := (s.off + dRecLen blk s.p) % 2 ^ 32, p := s.p + dRecLen blk s.p })

/-- `ext2_add_dir_entry` -/
def addDirEntry (fuel : ℕ) (fs : Fs) (dir : InodeM) (ip : Linked) (name : Name) :
    Except Halt Added :=
  if name = [] then .ok ⟨-einval, fs, dir, [], []⟩
  else do
    let name := name.take maxNameLen
    let (block, fs, dir) ← fs.createBlock dir 0
    if block = 0 then .ok ⟨-enospc, fs, dir, [], []⟩
    else
      let blk := fs.blocks block
      if fs.sb.blocksize < headerSize then .error .outOfBounds
      else if dInode blk 0 = 0 ∨ dir.iSize = 0 then do
        let blk ← fillBlock fs.sb.blocksize blk ip name
        -- the buffer is not marked
        .ok ⟨0, fs.setBlock block blk, dir, [block], []⟩
      else BoundedLoop.run .endless (addStep ip name) fuel ⟨fs, dir, block, 0, 0⟩

variable {fs : Fs} {dir : InodeM} {ip : Linked} {name : Name} {blk : Bytes} {size p q len : ℕ}
  {xs : List ℕ}

/-! ## Lengths -/

theorem newRecLen_bounds (len : ℕ) :
    newRecLen len % 4 = 0 ∧ 8 + len ≤ newRecLen len ∧ newRecLen len < 12 + len := by
  unfold newRecLen
  split <;> omega

theorem cutRecLen_bounds (len : ℕ) :
    cutRecLen len % 4 = 0 ∧ len + 8 ≤ cutRecLen len ∧ cutRecLen len < len + 12 := by
  unfold cutRecLen
  split <;> omega

/-! ## The new record -/

/-- The name which is added: of 1 to 255 bytes. -/
def NameOk (name : Name) : Prop := 1 ≤ name.length ∧ name.length ≤ maxNameLen

/-- The inode has a number. -/
def Linked.Numbered (ip : Linked) : Prop := 1 ≤ ip.iNum ∧ ip.iNum < 2 ^ 32

theorem NameOk.length_lt (h : NameOk name) : name.length < 2 ^ 8 := by
  have hle := h.2
  unfold maxNameLen at hle
  omega

theorem dentryFileType_lt (mode : ℕ) : dentryFileType mode < 2 ^ 8 := by
  unfold dentryFileType
  split_ifs <;> omega

/-- What is written at the place of the new record. -/
structure Placed (blk : Bytes) (p recLen : ℕ) (ip : Linked) (name : Name) : Prop where
  recLen : dRecLen blk p = recLen % 2 ^ 16
  nameLen : dNameLen blk p = name.length
  fileType : dFileType blk p = dentryFileType ip.iMode
  entry : entryAt blk p = some (name, ip.iNum)

theorem placed_putRecord (hname : NameOk name) (hip : ip.Numbered) (recLen : ℕ) :
    Placed (putRecord blk p recLen ip name) p recLen ip name := by
  have hlen := hname.length_lt
  have htype := dentryFileType_lt ip.iMode
  unfold putRecord
  refine ⟨by simp, by simpa using hlen, by simpa using htype, ?_⟩
  unfold entryAt
  rw [dName_setName (by simpa using hlen)]
  simp only [dInode_setName, dInode_setFileType, dInode_setRecLen, dInode_setNameLen,
    dInode_setInode hip.2]
  exact if_neg (Nat.one_le_iff_ne_zero.mp hip.1)

theorem putRecord_apply {recLen x : ℕ} (hx : x < p) : putRecord blk p recLen ip name x = blk x := by
  unfold putRecord
  rw [setName_apply (by omega), setRecLen_apply (by omega), setNameLen_apply (by omega),
    setFileType_apply (by omega), setInode_apply (by omega)]

theorem cut_length : dRecLen (setRecLen blk p (cutRecLen (dNameLen blk p))) p =
    cutRecLen (dNameLen blk p) := by
  have hlt : dNameLen blk p < 2 ^ 8 := dNameLen_lt
  have hcut := cutRecLen_bounds (dNameLen blk p)
  rw [dRecLen_setRecLen, Nat.mod_eq_of_lt (by omega)]

theorem splitRecord_outside
    (h : size < p + cutRecLen (dNameLen blk p) + headerSize + name.length) :
    splitRecord size blk p ip name = .error .outOfBounds := by
  unfold splitRecord
  dsimp only
  rw [cut_length, if_pos h]

/-- The two records in the place of one. -/
def splitBlock (size : ℕ) (blk : Bytes) (p : ℕ) (ip : Linked) (name : Name) : Bytes :=
  putRecord (setRecLen blk p (cutRecLen (dNameLen blk p))) (p + cutRecLen (dNameLen blk p))
    (size - (p + cutRecLen (dNameLen blk p))) ip name

theorem splitRecord_inside
    (h : p + cutRecLen (dNameLen blk p) + headerSize + name.length ≤ size) :
    splitRecord size blk p ip name = .ok (splitBlock size blk p ip name) := by
  unfold splitRecord
  dsimp only
  rw [cut_length, if_neg (Nat.not_lt.mpr h)]
  rfl

theorem splitBlock_apply {x : ℕ} (hx : x < p) : splitBlock size blk p ip name x = blk x := by
  unfold splitBlock
  rw [putRecord_apply (by omega), setRecLen_apply (by omega)]

theorem sameRecord_splitBlock (size : ℕ) (blk : Bytes) (p : ℕ) (ip : Linked) (name : Name) :
    SameRecord (setRecLen blk p (cutRecLen (dNameLen blk p))) (splitBlock size blk p ip name)
      p := by
  have hcut := cutRecLen_bounds (dNameLen blk p)
  intro x _ hhi
  rw [dNameLen_setRecLen] at hhi
  unfold headerSize at hhi
  exact putRecord_apply (by omega)

/-! ## The block afterwards -/

/-- The last record has room for the new one behind its name. -/
def HasRoom (blk : Bytes) (p len : ℕ) : Prop :=
  cutRecLen (dNameLen blk p) + newRecLen len ≤ dRecLen blk p

instance (blk : Bytes) (p len : ℕ) : Decidable (HasRoom blk p len) :=
  inferInstanceAs (Decidable (_ ≤ _))

/-- Without room, the new record does not lie in the block. -/
theorem splitRecord_no_room (h : Chain (dRecLen blk) size 0 (xs ++ [q])) (hok : RecordOk blk q)
    (hroom : ¬HasRoom blk q name.length) :
    splitRecord size blk q ip name = .error .outOfBounds := by
  have hend := h.split.2.eq_singleton.2
  have hcut := cutRecLen_bounds (dNameLen blk q)
  have hnew := newRecLen_bounds name.length
  unfold HasRoom at hroom
  unfold RecordOk at hok
  apply splitRecord_outside
  unfold headerSize
  omega

theorem splitRecord_room (h : Chain (dRecLen blk) size 0 (xs ++ [q]))
    (hroom : HasRoom blk q name.length) :
    splitRecord size blk q ip name = .ok (splitBlock size blk q ip name) := by
  have hend := h.split.2.eq_singleton.2
  have hnew := newRecLen_bounds name.length
  apply splitRecord_inside
  unfold HasRoom at hroom
  unfold headerSize
  omega

section Split

variable (h : Chain (dRecLen blk) size 0 (xs ++ [q])) (hok : ∀ x ∈ xs ++ [q], RecordOk blk x)
  (hname : NameOk name) (hip : ip.Numbered)

include h hok

theorem sameRecord_of_split {x : ℕ} (hx : x ∈ xs) :
    SameRecord blk (splitBlock size blk q ip name) x := by
  intro y _ hhi
  have hbounds := h.before hx
  have hxok := (hok x (List.mem_append_left _ hx)).2
  exact splitBlock_apply (by omega)

include hname hip

theorem chain_splitBlock (hroom : HasRoom blk q name.length) :
    Placed (splitBlock size blk q ip name) (q + cutRecLen (dNameLen blk q))
        (size - (q + cutRecLen (dNameLen blk q))) ip name ∧
      dRecLen (splitBlock size blk q ip name) (q + cutRecLen (dNameLen blk q)) =
        size - (q + cutRecLen (dNameLen blk q)) ∧
      Chain (dRecLen (splitBlock size blk q ip name)) size 0
        (xs ++ [q, q + cutRecLen (dNameLen blk q)]) := by
  have hend := h.split.2.eq_singleton.2
  have hcut := cutRecLen_bounds (dNameLen blk q)
  have hnew := newRecLen_bounds name.length
  have hqlt : dRecLen blk q < 2 ^ 16 := dRecLen_lt
  have hplaced : Placed (splitBlock size blk q ip name) (q + cutRecLen (dNameLen blk q))
      (size - (q + cutRecLen (dNameLen blk q))) ip name := placed_putRecord hname hip _
  have hqlen : dRecLen (splitBlock size blk q ip name) q = cutRecLen (dNameLen blk q) :=
    (sameRecord_splitBlock size blk q ip name).header.dRecLen.trans cut_length
  have hnewLen : dRecLen (splitBlock size blk q ip name) (q + cutRecLen (dNameLen blk q)) =
      size - (q + cutRecLen (dNameLen blk q)) := by
    rw [hplaced.recLen, Nat.mod_eq_of_lt (by omega)]
  unfold HasRoom at hroom
  have hchain : Chain (dRecLen (splitBlock size blk q ip name)) size 0
      (xs ++ [q, q + dRecLen (splitBlock size blk q ip name) q]) := by
    apply h.cut_last fun x hx => (sameRecord_of_split h hok hx).header.dRecLen
    · omega
    · rw [hqlen, hnewLen]
      omega
    · rw [hqlen, hnewLen]
      omega
  rw [hqlen] at hchain
  exact ⟨hplaced, hnewLen, hchain⟩

theorem splitBlock_room (hroom : HasRoom blk q name.length) :
    WellFormed size (splitBlock size blk q ip name) ∧
      entries size (splitBlock size blk q ip name) = entries size blk ++ [(name, ip.iNum)] := by
  obtain ⟨hplaced, hnewLen, hchain⟩ := chain_splitBlock h hok hname hip hroom
  have hend := h.split.2.eq_singleton.2
  have hcut := cutRecLen_bounds (dNameLen blk q)
  have hnew := newRecLen_bounds name.length
  have hqok := hok q (List.mem_append_right _ (List.mem_singleton_self q))
  have hcutOk := sameRecord_splitBlock size blk q ip name
  have hqlen := hcutOk.header.dRecLen.trans cut_length
  have hsame : ∀ x ∈ xs, SameRecord blk (splitBlock size blk q ip name) x :=
    fun x hx => sameRecord_of_split h hok hx
  unfold HasRoom at hroom
  constructor
  · apply wellFormed_of_chain hchain
    intro x hx
    have hcases : x ∈ xs ∨ x = q ∨ x = q + cutRecLen (dNameLen blk q) := by simpa using hx
    rcases hcases with hx | rfl | rfl
    · exact (hsame x hx).recordOk.mpr (hok x (List.mem_append_left _ hx))
    · unfold RecordOk headerSize
      rw [hqlen, hcutOk.header.dNameLen, dNameLen_setRecLen]
      omega
    · unfold RecordOk headerSize
      unfold RecordOk at hqok
      rw [hnewLen, hplaced.nameLen]
      omega
  · rw [entries_of_chain hchain, entries_of_chain h]
    have hq : entryAt (splitBlock size blk q ip name) q = entryAt blk q :=
      hcutOk.entryAt.trans entryAt_setRecLen
    have hrest : xs.filterMap (entryAt (splitBlock size blk q ip name)) =
        xs.filterMap (entryAt blk) := List.filterMap_congr fun x hx => (hsame x hx).entryAt
    rw [List.append_cons, List.filterMap_append, List.filterMap_append, List.filterMap_append,
      hrest,
      List.filterMap_cons_some hplaced.entry]
    simp [List.filterMap_cons, hq]

end Split

/-! ## A block which is one record -/

theorem fillBlock_eq (hname : NameOk name) (hsize : 1024 ≤ size) :
    fillBlock size blk ip name = .ok (putRecord blk 0 size ip name) := by
  have hmax := hname.2
  unfold maxNameLen at hmax
  unfold fillBlock headerSize
  rw [if_neg (by omega)]

theorem putRecord_filled (hname : NameOk name) (hip : ip.Numbered) (hfour : size % 4 = 0)
    (hsize : 1024 ≤ size) (hsmall : size < 2 ^ 16) :
    WellFormed size (putRecord blk 0 size ip name) ∧
      entries size (putRecord blk 0 size ip name) = [(name, ip.iNum)] := by
  have hmax := hname.2
  have hplaced : Placed (putRecord blk 0 size ip name) 0 size ip name :=
    placed_putRecord hname hip size
  have hlen : dRecLen (putRecord blk 0 size ip name) 0 = size := by
    rw [hplaced.recLen, Nat.mod_eq_of_lt hsmall]
  have hchain : Chain (dRecLen (putRecord blk 0 size ip name)) size 0 [0] :=
    chain_singleton (by omega) (by omega)
  constructor
  · apply wellFormed_of_chain hchain
    intro p hp
    obtain rfl := List.mem_singleton.mp hp
    unfold RecordOk headerSize
    unfold maxNameLen at hmax
    rw [hlen, hplaced.nameLen]
    omega
  · rw [entries_of_chain hchain]
    simp [hplaced.entry]

/-- The size of a block of 64 KiB does not fit into the length of a record. -/
theorem not_wellFormed_filled (hname : NameOk name) (hip : ip.Numbered) (hsize : 0 < size)
    (hmod : size % 2 ^ 16 = 0) : ¬WellFormed size (putRecord blk 0 size ip name) := by
  intro hwf
  have hlen : dRecLen (putRecord blk 0 size ip name) 0 = 0 := by
    rw [(placed_putRecord hname hip size).recLen, hmod]
  have hchain := hwf.1
  cases hlist : records size (putRecord blk 0 size ip name) with
  | nil =>
      rw [hlist] at hchain
      have hzero : 0 = size := hchain
      omega
  | cons q qs =>
      rw [hlist] at hchain
      have hpos := hchain.pos
      rw [hchain.head, hlen] at hpos
      cases hpos

end Yak.Ext2
