import Yak.FileBlocks

/-!
# The slots of logical blocks

`bmap_create` goes to the slot of a logical block by an entry of `i_block` and by one index
for each level of index blocks.  The second of the three indices of the triply indirect
range is not reduced, so only the first doubly indirect tree of this range is in bounds.
From blocks of 256 KiB on, the number of addresses below a doubly indirect block is 0 in 32
bits, and the division by it stops every block behind the indirect range.
-/

namespace Yak.Ext2.Fs

variable {fs : Fs} {ip : InodeM} {off lblk slot k : ℕ} {path ks : List ℕ}

/-! ## Paths -/

/-- The indices in `bmap_create_indirect`. -/
def indirectPath (lblk : ℕ) : List ℕ := [InodeM.indirectBlock, lblk - 12]

/-- The indices in `bmap_create_dindirect`. -/
def dindirectPath (fs : Fs) (lblk : ℕ) : List ℕ :=
  let l := lblk - (12 + fs.indirBlocks)
  [InodeM.dindirectBlock, l / fs.indirBlocks, l % fs.indirBlocks]

/-- The indices in `bmap_create_tindirect`. -/
def tindirectPath (fs : Fs) (lblk : ℕ) : Except Halt (List ℕ) :=
  let l := lblk - (12 + fs.indirBlocks + fs.dindirBlocks)
  if fs.dindirBlocks = 0 then .error .divideByZero
  else .ok [InodeM.tindirectBlock, l / fs.dindirBlocks, l / fs.indirBlocks, l % fs.indirBlocks]

/-- The entry of `i_block` and the indices in index blocks by which `bmap_create` goes to the
slot of a logical block. -/
def tablePath (fs : Fs) (lblk : ℕ) : Except Halt (List ℕ) :=
  if lblk ≤ 11 then .ok [lblk]
  else if lblk < fs.indirBlocks + 12 then .ok (indirectPath lblk)
  else if lblk < fs.dindirBlocks + fs.indirBlocks + 12 then .ok (fs.dindirectPath lblk)
  else fs.tindirectPath lblk

/-- The number of logical blocks which three levels of index blocks can reach. -/
def maxBlocks (fs : Fs) : ℕ :=
  12 + fs.indirBlocks + fs.indirBlocks ^ 2 + fs.indirBlocks ^ 3

/-- The logical block has a slot in bounds, which no other logical block has. -/
def OwnSlot (fs : Fs) (lblk : ℕ) : Prop :=
  ∃ path, fs.tablePath lblk = .ok path ∧ (∀ k ∈ path.tail, k < fs.indirBlocks) ∧
    ∀ lblk' < fs.maxBlocks, lblk' ≠ lblk → fs.tablePath lblk' ≠ .ok path

/-! ## The four ranges -/

theorem tablePath_direct (h : lblk ≤ 11) : fs.tablePath lblk = .ok [lblk] := if_pos h

theorem tablePath_indirect (h : 12 ≤ lblk) (hlt : lblk < fs.indirBlocks + 12) :
    fs.tablePath lblk = .ok (indirectPath lblk) := by
  unfold tablePath
  rw [if_neg (by omega), if_pos hlt]

theorem tablePath_dindirect (h : fs.indirBlocks + 12 ≤ lblk)
    (hlt : lblk < fs.dindirBlocks + fs.indirBlocks + 12) :
    fs.tablePath lblk = .ok (fs.dindirectPath lblk) := by
  unfold tablePath
  rw [if_neg (by omega), if_neg (by omega), if_pos hlt]

theorem tablePath_tindirect (h : fs.dindirBlocks + fs.indirBlocks + 12 ≤ lblk) :
    fs.tablePath lblk = fs.tindirectPath lblk := by
  unfold tablePath
  rw [if_neg (by omega), if_neg (by omega), if_neg (by omega)]

/-- Where a path leads to, by the range in which the logical block lies. -/
theorem tablePath_cases (h : fs.tablePath lblk = .ok path) :
    (lblk ≤ 11 ∧ path = [lblk]) ∨
    (12 ≤ lblk ∧ lblk < fs.indirBlocks + 12 ∧ path = indirectPath lblk) ∨
    (fs.indirBlocks + 12 ≤ lblk ∧ lblk < fs.dindirBlocks + fs.indirBlocks + 12 ∧
      path = fs.dindirectPath lblk) ∨
    (fs.dindirBlocks + fs.indirBlocks + 12 ≤ lblk ∧ fs.dindirBlocks ≠ 0 ∧
      fs.tindirectPath lblk = .ok path) := by
  by_cases hdirect : lblk ≤ 11
  · rw [tablePath_direct hdirect] at h
    exact Or.inl ⟨hdirect, (Except.ok.inj h).symm⟩
  · by_cases hindir : lblk < fs.indirBlocks + 12
    · rw [tablePath_indirect (by omega) hindir] at h
      exact Or.inr (Or.inl ⟨by omega, hindir, (Except.ok.inj h).symm⟩)
    · by_cases hdindir : lblk < fs.dindirBlocks + fs.indirBlocks + 12
      · rw [tablePath_dindirect (by omega) hdindir] at h
        exact Or.inr (Or.inr (Or.inl ⟨by omega, hdindir, (Except.ok.inj h).symm⟩))
      · rw [tablePath_tindirect (by omega)] at h
        refine Or.inr (Or.inr (Or.inr ⟨by omega, ?_, h⟩))
        intro hzero
        rw [tindirectPath, if_pos hzero] at h
        cases h

theorem tindirectPath_eq (h : fs.tindirectPath lblk = .ok path) :
    let l := lblk - (12 + fs.indirBlocks + fs.dindirBlocks)
    path = [InodeM.tindirectBlock, l / fs.dindirBlocks, l / fs.indirBlocks,
      l % fs.indirBlocks] := by
  unfold tindirectPath at h
  dsimp only at h ⊢
  split at h
  next => cases h
  next => exact (Except.ok.inj h).symm

/-! ## What `bmap_create` does along a path -/

theorem bmapCreate_of_tablePath {create : Bool}
    (h : fs.tablePath (off / fs.sb.blocksize) = .ok (slot :: ks))
    (hslot : slot ≠ InodeM.indirectBlock) :
    fs.bmapCreate ip off create = fs.bmapFrom ip create slot ks := by
  unfold bmapCreate
  dsimp only
  rcases tablePath_cases h with ⟨hle, hpath⟩ | ⟨-, -, hpath⟩ | ⟨hge, hlt, hpath⟩ | ⟨hge, hne, htin⟩
  · obtain ⟨rfl, rfl⟩ := List.cons.inj hpath
    exact if_pos hle
  · exact (hslot (List.cons.inj hpath).1).elim
  · obtain ⟨rfl, rfl⟩ := List.cons.inj hpath
    rw [if_neg (by omega), if_neg (by omega), if_pos hlt]
    rfl
  · obtain ⟨rfl, rfl⟩ := List.cons.inj (tindirectPath_eq htin)
    rw [if_neg (by omega), if_neg (by omega), if_neg (by omega)]
    exact if_neg hne

theorem bmapCreate_of_indirectPath {create : Bool}
    (h : fs.tablePath (off / fs.sb.blocksize) = .ok [InodeM.indirectBlock, k]) :
    fs.bmapCreate ip off create = fs.bmapCreateIndirect ip (k + 12) create := by
  unfold bmapCreate
  dsimp only
  rcases tablePath_cases h with ⟨-, hpath⟩ | ⟨hge, hlt, hpath⟩ | ⟨-, -, hpath⟩ | ⟨-, -, htin⟩
  · cases (List.cons.inj hpath).2
  · obtain rfl : k = _ := (List.cons.inj (List.cons.inj hpath).2).1
    rw [if_neg (by omega), if_pos hlt, Nat.sub_add_cancel hge]
  · cases (List.cons.inj hpath).1
  · cases (List.cons.inj (tindirectPath_eq htin)).1

/-- Where there is no path, `bmap_create` does not come to a block. -/
theorem bmapCreate_of_error {create : Bool} {e : Halt} {r : ℕ × Fs × InodeM}
    (h : fs.tablePath (off / fs.sb.blocksize) = .error e)
    (hrun : fs.bmapCreate ip off create = .ok r) : r.1 = 0 := by
  unfold tablePath at h
  unfold bmapCreate at hrun
  dsimp only at hrun
  split at h
  next => cases h
  next hdirect =>
    split at h
    next => cases h
    next hindir =>
      split at h
      next => cases h
      next hdindir =>
        unfold tindirectPath at h
        split at h
        next hzero =>
          rw [if_neg hdirect, if_neg hindir, if_neg hdindir, bmapCreateTindirect, if_pos hzero,
            bind_eq_ok] at hrun
          obtain ⟨⟨b, fs', ip'⟩, -, hb⟩ := hrun
          dsimp only at hb
          split at hb
          next => rw [← Except.ok.inj hb]
          next => cases hb
        next => cases h

/-! ## Bounds and distinctness -/

/-- The number of addresses below a doubly indirect block is the square, or 0 in 32 bits. -/
theorem dindirBlocks_eq : fs.dindirBlocks = 0 ∨ fs.dindirBlocks = fs.indirBlocks ^ 2 := by
  unfold dindirBlocks indirBlocks
  by_cases hs : fs.sb.sLogBlockSize < 22
  · unfold Superblock.blocksize
    rw [Nat.shiftLeft_eq]
    interval_cases fs.sb.sLogBlockSize <;> decide
  · rw [Superblock.blocksize_eq_zero (Nat.not_lt.mp hs)]
    exact Or.inl rfl

theorem tindirect_square (hne : fs.dindirBlocks ≠ 0) :
    fs.dindirBlocks = fs.indirBlocks * fs.indirBlocks ∧ 0 < fs.indirBlocks := by
  refine ⟨?_, indirBlocks_pos (Nat.pos_of_ne_zero hne)⟩
  rw [dindirBlocks_eq.resolve_left hne, sq]

theorem eq_of_div_mod {n a b : ℕ} (hdiv : a / n = b / n) (hmod : a % n = b % n) : a = b := by
  rw [← Nat.div_add_mod a n, ← Nat.div_add_mod b n, hdiv, hmod]

theorem tablePath_injective {lblk' : ℕ} (h : fs.tablePath lblk = .ok path)
    (h' : fs.tablePath lblk' = .ok path) : lblk = lblk' := by
  rcases tablePath_cases h with ⟨hle, rfl⟩ | ⟨hge, -, rfl⟩ | ⟨hge, -, rfl⟩ | ⟨hge, -, htin⟩
  · rcases tablePath_cases h' with ⟨-, hp⟩ | ⟨-, -, hp⟩ | ⟨-, -, hp⟩ | ⟨-, -, htin⟩
    · exact (List.cons.inj hp).1
    · cases (List.cons.inj hp).2
    · cases (List.cons.inj hp).2
    · cases (List.cons.inj (tindirectPath_eq htin)).2
  · rcases tablePath_cases h' with ⟨-, hp⟩ | ⟨hge', -, hp⟩ | ⟨-, -, hp⟩ | ⟨-, -, htin⟩
    · cases (List.cons.inj hp).2
    · have hsub := (List.cons.inj (List.cons.inj hp).2).1
      omega
    · cases (List.cons.inj hp).1
    · cases (List.cons.inj (tindirectPath_eq htin)).1
  · rcases tablePath_cases h' with ⟨-, hp⟩ | ⟨-, -, hp⟩ | ⟨hge', -, hp⟩ | ⟨-, -, htin⟩
    · cases (List.cons.inj hp).2
    · cases (List.cons.inj hp).1
    · have htail := List.cons.inj (List.cons.inj hp).2
      have hsub := eq_of_div_mod htail.1 (List.cons.inj htail.2).1
      omega
    · cases (List.cons.inj (tindirectPath_eq htin)).1
  · have hpath := tindirectPath_eq htin
    rcases tablePath_cases h' with ⟨-, hp⟩ | ⟨-, -, hp⟩ | ⟨-, -, hp⟩ | ⟨hge', -, htin'⟩
    · cases (List.cons.inj (hp.symm.trans hpath)).2
    · cases (List.cons.inj (hp.symm.trans hpath)).1
    · cases (List.cons.inj (hp.symm.trans hpath)).1
    · have hboth := hpath.symm.trans (tindirectPath_eq htin')
      have htail := List.cons.inj (List.cons.inj (List.cons.inj hboth).2).2
      have hsub := eq_of_div_mod htail.1 (List.cons.inj htail.2).1
      omega

/-- The indices of a path are in bounds up to the first doubly indirect tree of the triply
indirect range. -/
theorem inBounds_iff (h : fs.tablePath lblk = .ok path) :
    (∀ k ∈ path.tail, k < fs.indirBlocks) ↔
      lblk < 12 + fs.indirBlocks + 2 * fs.dindirBlocks := by
  rcases tablePath_cases h with ⟨hle, rfl⟩ | ⟨hge, hlt, rfl⟩ | ⟨hge, hlt, rfl⟩ | ⟨hge, hne, htin⟩
  · exact iff_of_true (fun k hk => (List.not_mem_nil hk).elim) (by omega)
  · refine iff_of_true (fun k hk => ?_) (by omega)
    rw [List.mem_singleton.mp hk]
    omega
  · have hne : fs.dindirBlocks ≠ 0 := by omega
    have hsquare := tindirect_square hne
    have hl : lblk - (12 + fs.indirBlocks) < fs.indirBlocks * fs.indirBlocks := by omega
    refine iff_of_true (fun k hk => ?_) (by omega)
    simp only [dindirectPath, List.tail_cons, List.mem_cons, List.not_mem_nil, or_false] at hk
    rcases hk with rfl | rfl
    · exact (Nat.div_lt_iff_lt_mul hsquare.2).mpr hl
    · exact Nat.mod_lt _ hsquare.2
  · obtain ⟨hsquare, hpos⟩ := tindirect_square hne
    rw [tindirectPath_eq htin]
    simp only [List.tail_cons, List.forall_mem_cons, List.not_mem_nil, false_imp_iff,
      implies_true, and_true]
    constructor
    · rintro ⟨-, hsecond, -⟩
      have hl := (Nat.div_lt_iff_lt_mul hpos).mp hsecond
      omega
    · intro hlt
      have hl : lblk - (12 + fs.indirBlocks + fs.dindirBlocks) < fs.dindirBlocks := by omega
      refine ⟨?_, (Nat.div_lt_iff_lt_mul hpos).mpr (by omega), Nat.mod_lt _ hpos⟩
      rw [Nat.div_eq_of_lt hl]
      exact hpos

theorem exists_tablePath (h : lblk < 12 + fs.indirBlocks + 2 * fs.dindirBlocks) :
    ∃ path, fs.tablePath lblk = .ok path := by
  by_cases hdirect : lblk ≤ 11
  · exact ⟨_, tablePath_direct hdirect⟩
  · by_cases hindir : lblk < fs.indirBlocks + 12
    · exact ⟨_, tablePath_indirect (by omega) hindir⟩
    · by_cases hdindir : lblk < fs.dindirBlocks + fs.indirBlocks + 12
      · exact ⟨_, tablePath_dindirect (by omega) hdindir⟩
      · rw [tablePath_tindirect (by omega)]
        exact ⟨_, if_neg (by omega)⟩

/-- Exactly the logical blocks up to the first doubly indirect tree of the triply indirect
range have slots of their own. -/
theorem ownSlot_iff (fs : Fs) (lblk : ℕ) :
    fs.OwnSlot lblk ↔ lblk < 12 + fs.indirBlocks + 2 * fs.dindirBlocks := by
  constructor
  · rintro ⟨path, hpath, hbounds, -⟩
    exact (inBounds_iff hpath).mp hbounds
  · intro hlt
    obtain ⟨path, hpath⟩ := exists_tablePath hlt
    refine ⟨path, hpath, (inBounds_iff hpath).mpr hlt, ?_⟩
    intro lblk' _ hne hpath'
    exact hne (tablePath_injective hpath' hpath)

/-- In blocks of 1 KiB, the second index of the first block behind this range is 256. -/
theorem not_ownSlot_second_tree :
    ¬∀ (fs : Fs) (lblk : ℕ), lblk < fs.maxBlocks → lblk < 2 ^ 32 → fs.OwnSlot lblk := by
  intro hall
  obtain ⟨path, hpath, hbounds, -⟩ := hall BlockUse.twoGroups.fs 131340 (by decide) (by decide)
  exact absurd ((inBounds_iff hpath).mp hbounds) (by decide)

end Yak.Ext2.Fs
