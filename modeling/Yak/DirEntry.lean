import Yak.Halt
import Yak.RecordChain
import Yak.WordMemory

/-!
# Directory blocks

A block of a directory is a chain of records: `struct ext2_dir_entry` with the name behind it.
A record with inode number 0 is not in use.
-/

namespace Yak.Ext2

open ByteBitmap WordMemory RecordChain

/-- The bytes of a name, without the zero at the end. -/
abbrev Name := List (BitVec 8)

/-! ## The fields of a record -/

section Fields

variable (blk : Bytes) (p v : ℕ)

def dInode : ℕ := load32 blk p
def dRecLen : ℕ := load16 blk (p + 4)
def dNameLen : ℕ := (blk (p + 6)).toNat
def dFileType : ℕ := (blk (p + 7)).toNat
def dName : Name := (List.range (dNameLen blk p)).map fun i => blk (p + 8 + i)

def setInode : Bytes := store32 blk p v
def setRecLen : Bytes := store16 blk (p + 4) v
def setNameLen : Bytes := Function.update blk (p + 6) (BitVec.ofNat 8 v)
def setFileType : Bytes := Function.update blk (p + 7) (BitVec.ofNat 8 v)
def setName (name : Name) : Bytes := storeBytes blk (p + 8) name

/-- `memset` of a record's header. -/
def clearHeader : Bytes := fun x => if p ≤ x ∧ x < p + 8 then 0#8 else blk x

end Fields

/-- `sizeof(struct ext2_dir_entry)` -/
def headerSize : ℕ := 8

/-- The largest name, `EXT2_MAX_NAME_LEN`. -/
def maxNameLen : ℕ := 255

variable {blk blk' : Bytes} {size p q v ino : ℕ} {name : Name}

theorem dRecLen_lt : dRecLen blk p < 2 ^ 16 := load16_lt _ _

theorem dNameLen_lt : dNameLen blk p < 2 ^ 8 := (blk (p + 6)).isLt

@[simp] theorem length_dName : (dName blk p).length = dNameLen blk p := by
  unfold dName
  rw [List.length_map, List.length_range]

/-- The blocks agree on a header. -/
def SameHeader (blk blk' : Bytes) (p : ℕ) : Prop := ∀ x, p ≤ x → x < p + 8 → blk' x = blk x

theorem SameHeader.dInode (h : SameHeader blk blk' p) : dInode blk' p = dInode blk p :=
  load32_congr fun x hlo hhi => h x hlo (by omega)

theorem SameHeader.dRecLen (h : SameHeader blk blk' p) : dRecLen blk' p = dRecLen blk p :=
  load16_congr fun x hlo hhi => h x (by omega) (by omega)

theorem SameHeader.dNameLen (h : SameHeader blk blk' p) : dNameLen blk' p = dNameLen blk p := by
  unfold Ext2.dNameLen
  rw [h (p + 6) (by omega) (by omega)]

/-! ## Well-formed blocks -/

/-- A record is aligned and has room for its name. -/
def RecordOk (blk : Bytes) (p : ℕ) : Prop :=
  dRecLen blk p % 4 = 0 ∧ headerSize + dNameLen blk p ≤ dRecLen blk p

instance (blk : Bytes) (p : ℕ) : Decidable (RecordOk blk p) := inferInstanceAs (Decidable (_ ∧ _))

/-- The records of a block. -/
def records (size : ℕ) (blk : Bytes) : List ℕ := offsets (dRecLen blk) size size 0

/-- The block is a chain of records. -/
def WellFormed (size : ℕ) (blk : Bytes) : Prop :=
  Chain (dRecLen blk) size 0 (records size blk) ∧ ∀ p ∈ records size blk, RecordOk blk p

instance (size : ℕ) (blk : Bytes) : Decidable (WellFormed size blk) :=
  inferInstanceAs (Decidable (_ ∧ _))

/-- The name and the inode number of a record which is in use. -/
def entryAt (blk : Bytes) (p : ℕ) : Option (Name × ℕ) :=
  if dInode blk p = 0 then none else some (dName blk p, dInode blk p)

/-- The live entries of a block. -/
def entries (size : ℕ) (blk : Bytes) : List (Name × ℕ) := (records size blk).filterMap (entryAt blk)

theorem records_eq {ps : List ℕ} (h : Chain (dRecLen blk) size 0 ps) : records size blk = ps :=
  h.offsets_eq h.length_le

theorem wellFormed_of_chain {ps : List ℕ} (h : Chain (dRecLen blk) size 0 ps)
    (hok : ∀ p ∈ ps, RecordOk blk p) : WellFormed size blk := by
  unfold WellFormed
  rw [records_eq h]
  exact ⟨h, hok⟩

theorem entries_of_chain {ps : List ℕ} (h : Chain (dRecLen blk) size 0 ps) :
    entries size blk = ps.filterMap (entryAt blk) := by
  rw [entries, records_eq h]

/-- The blocks agree on a whole record. -/
def SameRecord (blk blk' : Bytes) (p : ℕ) : Prop :=
  ∀ x, p ≤ x → x < p + (headerSize + dNameLen blk p) → blk' x = blk x

theorem SameRecord.header (h : SameRecord blk blk' p) : SameHeader blk blk' p := by
  intro x hlo hhi
  exact h x hlo (by unfold headerSize; omega)

theorem SameRecord.dName (h : SameRecord blk blk' p) : dName blk' p = dName blk p := by
  unfold Ext2.dName
  rw [h.header.dNameLen]
  apply List.map_congr_left
  intro i hi
  have hlt := List.mem_range.mp hi
  exact h _ (by omega) (by unfold headerSize; omega)

theorem SameRecord.entryAt (h : SameRecord blk blk' p) : entryAt blk' p = entryAt blk p := by
  unfold Ext2.entryAt
  rw [h.header.dInode, h.dName]

theorem SameRecord.recordOk (h : SameRecord blk blk' p) : RecordOk blk' p ↔ RecordOk blk p := by
  unfold RecordOk
  rw [h.header.dRecLen, h.header.dNameLen]

/-- The record is the entry which is looked for. -/
def Hit (blk : Bytes) (ino : ℕ) (name : Name) (p : ℕ) : Prop :=
  dInode blk p = ino ∧ dName blk p = name

instance (blk : Bytes) (ino : ℕ) (name : Name) (p : ℕ) : Decidable (Hit blk ino name p) :=
  inferInstanceAs (Decidable (_ ∧ _))

theorem entryAt_of_hit (hino : ino ≠ 0) (h : Hit blk ino name p) :
    entryAt blk p = some (name, ino) := by
  unfold entryAt
  rw [h.1, h.2, if_neg hino]

theorem mem_entries : (name, ino) ∈ entries size blk ↔
    ino ≠ 0 ∧ ∃ p ∈ records size blk, Hit blk ino name p := by
  unfold entries
  rw [List.mem_filterMap]
  constructor
  · rintro ⟨p, hp, hentry⟩
    unfold entryAt at hentry
    split at hentry
    next => cases hentry
    next hne =>
      obtain ⟨hname, hino⟩ := Prod.mk.inj (Option.some.inj hentry)
      exact ⟨hino ▸ hne, p, hp, hino, hname⟩
  · rintro ⟨hino, p, hp, hhit⟩
    exact ⟨p, hp, entryAt_of_hit hino hhit⟩

/-! ## Changing the fields of a record -/

theorem setInode_apply {x : ℕ} (h : x < p ∨ p + 4 ≤ x) : setInode blk p v x = blk x :=
  store32_apply h

theorem setRecLen_apply {x : ℕ} (h : x < p + 4 ∨ p + 6 ≤ x) : setRecLen blk p v x = blk x :=
  store16_apply (by omega)

theorem setNameLen_apply {x : ℕ} (h : x ≠ p + 6) : setNameLen blk p v x = blk x :=
  Function.update_of_ne h _ _

theorem setFileType_apply {x : ℕ} (h : x ≠ p + 7) : setFileType blk p v x = blk x :=
  Function.update_of_ne h _ _

theorem setName_apply {x : ℕ} (h : x < p + 8 ∨ p + 8 + name.length ≤ x) :
    setName blk p name x = blk x := storeBytes_apply h

section Read

theorem dInode_setInode (hv : v < 2 ^ 32) : dInode (setInode blk p v) p = v := load32_store32 hv

@[simp] theorem dInode_setRecLen : dInode (setRecLen blk p v) p = dInode blk p :=
  load32_congr fun _ _ _ => setRecLen_apply (by omega)

@[simp] theorem dInode_setNameLen : dInode (setNameLen blk p v) p = dInode blk p :=
  load32_congr fun _ _ _ => setNameLen_apply (by omega)

@[simp] theorem dInode_setFileType : dInode (setFileType blk p v) p = dInode blk p :=
  load32_congr fun _ _ _ => setFileType_apply (by omega)

@[simp] theorem dInode_setName : dInode (setName blk p name) p = dInode blk p :=
  load32_congr fun _ _ _ => setName_apply (by omega)

@[simp] theorem dRecLen_setRecLen : dRecLen (setRecLen blk p v) p = v % 2 ^ 16 := load16_store16

@[simp] theorem dRecLen_setName : dRecLen (setName blk p name) p = dRecLen blk p :=
  load16_congr fun _ _ _ => setName_apply (by omega)

@[simp] theorem dNameLen_setNameLen : dNameLen (setNameLen blk p v) p = v % 2 ^ 8 := by
  unfold dNameLen setNameLen
  rw [Function.update_self, BitVec.toNat_ofNat]

@[simp] theorem dNameLen_setRecLen : dNameLen (setRecLen blk p v) p = dNameLen blk p :=
  congrArg BitVec.toNat (setRecLen_apply (by omega))

@[simp] theorem dNameLen_setName : dNameLen (setName blk p name) p = dNameLen blk p :=
  congrArg BitVec.toNat (setName_apply (by omega))

@[simp] theorem dFileType_setFileType : dFileType (setFileType blk p v) p = v % 2 ^ 8 := by
  unfold dFileType setFileType
  rw [Function.update_self, BitVec.toNat_ofNat]

@[simp] theorem dFileType_setRecLen : dFileType (setRecLen blk p v) p = dFileType blk p :=
  congrArg BitVec.toNat (setRecLen_apply (by omega))

@[simp] theorem dFileType_setNameLen : dFileType (setNameLen blk p v) p = dFileType blk p :=
  congrArg BitVec.toNat (setNameLen_apply (by omega))

@[simp] theorem dFileType_setName : dFileType (setName blk p name) p = dFileType blk p :=
  congrArg BitVec.toNat (setName_apply (by omega))

@[simp] theorem dName_setRecLen : dName (setRecLen blk p v) p = dName blk p := by
  unfold dName
  rw [dNameLen_setRecLen]
  apply List.map_congr_left
  intro i _
  exact setRecLen_apply (by omega)

theorem dName_setName (h : dNameLen blk p = name.length) : dName (setName blk p name) p = name := by
  unfold dName
  rw [dNameLen_setName, h]
  apply List.ext_getElem
  · simp
  · intro i _ hi
    rw [List.getElem_map, List.getElem_range]
    exact storeBytes_getElem hi

@[simp] theorem entryAt_setRecLen : entryAt (setRecLen blk p v) p = entryAt blk p := by
  unfold entryAt
  rw [dInode_setRecLen, dName_setRecLen]

end Read

theorem sameRecord_setRecLen
    (h : q + (headerSize + dNameLen blk q) ≤ p ∨ p + headerSize ≤ q) :
    SameRecord blk (setRecLen blk p v) q := by
  intro x hlo hhi
  unfold headerSize at *
  exact setRecLen_apply (by omega)

/-! ## Comparing names -/

/-- The loop of `ext2_match`. -/
def matchBytes (size : ℕ) (blk : Bytes) : ℕ → Name → Except Halt ℤ
  | _, [] => .ok 0
  | a, c :: cs =>
      if size ≤ a then .error .outOfBounds
      else if blk a < c then .ok (-1)
      else if c < blk a then .ok 1
      else matchBytes size blk (a + 1) cs

/-- `ext2_match` -/
def ext2Match (size : ℕ) (blk : Bytes) (p : ℕ) (name : Name) : Except Halt ℤ :=
  if name.length ≠ dNameLen blk p then .ok (-1) else matchBytes size blk (p + 8) name

theorem matchBytes_ok (blk : Bytes) {a : ℕ} (h : a + name.length ≤ size) :
    ∃ r, matchBytes size blk a name = .ok r ∧
      (r = 0 ↔ (List.range name.length).map (fun i => blk (a + i)) = name) := by
  induction name generalizing a with
  | nil => exact ⟨0, rfl, by simp⟩
  | cons c cs ih =>
      rw [List.length_cons] at h ⊢
      have hrest : (List.range (cs.length + 1)).map (fun i => blk (a + i)) =
          blk a :: (List.range cs.length).map fun i => blk (a + 1 + i) := by
        rw [List.range_succ_eq_map, List.map_cons, List.map_map]
        congr 1
        apply List.map_congr_left
        intro i _
        rw [Function.comp_apply, Nat.succ_eq_add_one, Nat.add_right_comm, ← Nat.add_assoc]
      rw [hrest, List.cons.injEq, matchBytes, if_neg (by omega)]
      by_cases hlt : blk a < c
      · rw [if_pos hlt]
        refine ⟨-1, rfl, iff_of_false (by decide) ?_⟩
        rintro ⟨rfl, -⟩
        exact BitVec.lt_irrefl _ hlt
      · rw [if_neg hlt]
        by_cases hgt : c < blk a
        · rw [if_pos hgt]
          refine ⟨1, rfl, iff_of_false (by decide) ?_⟩
          rintro ⟨rfl, -⟩
          exact BitVec.lt_irrefl _ hgt
        · rw [if_neg hgt]
          have heq : blk a = c := BitVec.le_antisymm (BitVec.not_lt.mp hgt) (BitVec.not_lt.mp hlt)
          obtain ⟨r, hrun, hr⟩ := ih (a := a + 1) (by omega)
          refine ⟨r, hrun, ?_⟩
          rw [hr]
          exact ⟨fun htail => ⟨heq, htail⟩, fun hboth => hboth.2⟩

theorem ext2Match_ok (name : Name) (h : p + (headerSize + dNameLen blk p) ≤ size) :
    ∃ r, ext2Match size blk p name = .ok r ∧ (r = 0 ↔ dName blk p = name) := by
  unfold ext2Match
  by_cases hlen : name.length = dNameLen blk p
  · rw [if_neg (not_not.mpr hlen)]
    unfold headerSize at h
    have hbound : p + 8 + name.length ≤ size := by omega
    obtain ⟨r, hrun, hr⟩ := matchBytes_ok blk hbound
    refine ⟨r, hrun, ?_⟩
    rw [hr, dName, hlen]
  · rw [if_pos hlen]
    refine ⟨-1, rfl, iff_of_false (by decide) ?_⟩
    rintro rfl
    exact hlen length_dName

/-- `ext2_match` with a look at the header. -/
def matchAt (size : ℕ) (blk : Bytes) (p : ℕ) (name : Name) : Except Halt ℤ :=
  if size < p + headerSize then .error .outOfBounds else ext2Match size blk p name

/-- The record, with its name, lies in the block. -/
def Inside (size : ℕ) (blk : Bytes) (p : ℕ) : Prop := p + (headerSize + dNameLen blk p) ≤ size

theorem WellFormed.inside (h : WellFormed size blk) (hp : p ∈ records size blk) :
    Inside size blk p := by
  have hbounds := h.1.bounds hp
  have hroom := (h.2 p hp).2
  unfold Inside
  omega

theorem matchAt_ok (name : Name) (h : Inside size blk p) :
    ∃ r, matchAt size blk p name = .ok r ∧ (r = 0 ↔ dName blk p = name) := by
  unfold Inside at h
  obtain ⟨r, hrun, hr⟩ := ext2Match_ok name h
  refine ⟨r, ?_, hr⟩
  unfold matchAt
  rw [if_neg (by omega), hrun]

/-! ## Writing a block down -/

/-- The bytes of a record. -/
def recordBytes (inode recLen : ℕ) (fileType : BitVec 8) (name : Name) : List (BitVec 8) :=
  [BitVec.ofNat 8 inode, BitVec.ofNat 8 (inode / 2 ^ 8), 0#8, 0#8, BitVec.ofNat 8 recLen,
    BitVec.ofNat 8 (recLen / 2 ^ 8), BitVec.ofNat 8 name.length, fileType] ++ name

/-- Records from an offset on, each with its bytes. -/
def blockOf (recs : List (ℕ × List (BitVec 8))) : Bytes :=
  recs.foldl (fun blk rec => storeBytes blk rec.1 rec.2) fun _ => 0#8

def dot : Name := [0x2E#8]
def dotDot : Name := [0x2E#8, 0x2E#8]

end Yak.Ext2
