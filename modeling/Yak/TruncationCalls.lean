import Yak.BlockSearch
import Yak.Truncation

/-!
# The order in which a file is freed

What `ext2_itrunc` reads and frees, one action after the other, for given contents of the
index blocks.  Every block below `i_block` is freed once, and an index block only after
all its entries were read.
-/

namespace Yak.Ext2

open IndexTree

/-- What the routines which free trees do. -/
inductive Call where
  /-- `bread` of a block. -/
  | bread (block : ℕ)
  /-- An entry of an index block is read. -/
  | entry (block k : ℕ)
  /-- `ext2_bfree` is called. -/
  | bfree (block : ℕ)
  deriving DecidableEq

namespace Fs

variable {fs fs' : Fs} {ip : InodeM} {d b c k slot : ℕ}

/-- Freeing a tree, by the number of levels of index blocks. -/
def bfreeCalls (fs : Fs) : (levels : ℕ) → ℕ → List Call
  | 0, block => [.bfree block]
  | levels + 1, block =>
      if block = 0 then []
      else .bread block ::
        (List.range fs.indirBlocks).flatMap
          (fun k => .entry block k :: fs.bfreeCalls levels (fs.pointer block k)) ++ [.bfree block]

/-- `ext2_bfree_indirect` -/
def bfreeIndirect (fs : Fs) (block : ℕ) : List Call := fs.bfreeCalls 1 block

/-- `ext2_bfree_dindirect` -/
def bfreeDindirect (fs : Fs) (block : ℕ) : List Call := fs.bfreeCalls 2 block

/-- `ext2_bfree_tindirect` -/
def bfreeTindirect (fs : Fs) (block : ℕ) : List Call := fs.bfreeCalls 3 block

/-- One of the routines frees what is below an entry of `i_block`, and the entry is cleared. -/
def clearSlot (free : ℕ → List Call) (s : List Call × InodeM) (slot : ℕ) : List Call × InodeM :=
  (s.1 ++ free (s.2.iBlock slot), s.2.setBlock slot 0)

/-- `ext2_itrunc`, with the calls it makes. -/
def itruncCalls (fs : Fs) (ip : InodeM) : List Call × InodeM :=
  let s := (List.range 12).foldl (clearSlot fun block => [.bfree block]) ([], ip)
  let s := clearSlot fs.bfreeIndirect s InodeM.indirectBlock
  let s := clearSlot fs.bfreeDindirect s InodeM.dindirectBlock
  let s := clearSlot fs.bfreeTindirect s InodeM.tindirectBlock
  (s.1, { s.2 with iBlocks := 0, iSize := 0, modified := true })

/-! ## The blocks below an inode -/

/-- The way to a block of the file: an entry of `i_block` and indices below it. -/
def IsPlace (fs : Fs) (slot : ℕ) (ks : List ℕ) : Prop :=
  slot < 15 ∧ IsPath fs.indirBlocks (levelsOf slot) ks

/-- What is at a place. -/
def blockAtPlace (fs : Fs) (ip : InodeM) (slot : ℕ) (ks : List ℕ) : ℕ :=
  walk fs.pointer (ip.iBlock slot) ks

/-- The block is reachable from `i_block`. -/
def Reaches (fs : Fs) (ip : InodeM) (b : ℕ) : Prop :=
  b ≠ 0 ∧ ∃ slot ks, fs.IsPlace slot ks ∧ fs.blockAtPlace ip slot ks = b

/-- The block is reachable as an index block. -/
def ReachesIndex (fs : Fs) (ip : InodeM) (b : ℕ) : Prop :=
  b ≠ 0 ∧ ∃ slot ks, fs.IsPlace slot ks ∧ ks.length < levelsOf slot ∧
    fs.blockAtPlace ip slot ks = b

/-- No block is at two places. -/
def DistinctBlocks (fs : Fs) (ip : InodeM) : Prop :=
  ∀ slot ks slot' ks', fs.IsPlace slot ks → fs.IsPlace slot' ks' →
    fs.blockAtPlace ip slot ks ≠ 0 → fs.blockAtPlace ip slot ks = fs.blockAtPlace ip slot' ks' →
    slot = slot' ∧ ks = ks'

theorem mem_fileBlocks_iff : b ∈ fileBlocks fs ip ↔ fs.Reaches ip b := by
  unfold fileBlocks Reaches IsPlace blockAtPlace
  simp only [List.mem_flatMap, List.mem_range, mem_nodes_iff]
  constructor
  · rintro ⟨slot, hslot, hb, ks, hks, hwalk⟩
    exact ⟨hb, slot, ks, ⟨hslot, hks⟩, hwalk⟩
  · rintro ⟨hb, slot, ks, ⟨hslot, hks⟩, hwalk⟩
    exact ⟨slot, hslot, hb, ks, hks, hwalk⟩

theorem mem_fileIndex_iff : b ∈ fileIndex fs ip ↔ fs.ReachesIndex ip b := by
  unfold fileIndex ReachesIndex IsPlace blockAtPlace
  simp only [List.mem_flatMap, List.mem_range, mem_index_iff]
  constructor
  · rintro ⟨slot, hslot, hb, ks, hks, hlen, hwalk⟩
    exact ⟨hb, slot, ks, ⟨hslot, hks⟩, hlen, hwalk⟩
  · rintro ⟨hb, slot, ks, ⟨hslot, hks⟩, hlen, hwalk⟩
    exact ⟨slot, hslot, hb, ks, hks, hlen, hwalk⟩

theorem DistinctBlocks.nodup (h : fs.DistinctBlocks ip) : (fileBlocks fs ip).Nodup := by
  unfold fileBlocks
  rw [List.nodup_flatMap]
  constructor
  · intro slot hslot
    have hlt := List.mem_range.mp hslot
    apply nodup_nodes
    intro ks ks' hks hks' hne heq
    exact (h slot ks slot ks' ⟨hlt, hks⟩ ⟨hlt, hks'⟩ hne heq).2
  · apply List.nodup_range.imp_of_mem
    intro slot slot' hslot hslot' hne c hc hc'
    obtain ⟨hzero, ks, hks, hwalk⟩ := mem_nodes_iff.mp hc
    obtain ⟨_, ks', hks', hwalk'⟩ := mem_nodes_iff.mp hc'
    exact hne (h slot ks slot' ks' ⟨List.mem_range.mp hslot, hks⟩ ⟨List.mem_range.mp hslot', hks'⟩
      (by rw [blockAtPlace, hwalk]; exact hzero) (hwalk.trans hwalk'.symm)).1

/-! ## The calls for one tree -/

theorem bfreeCalls_zero : fs.bfreeCalls (d + 1) 0 = [] := if_pos rfl

theorem bfreeCalls_succ (hb : b ≠ 0) :
    fs.bfreeCalls (d + 1) b = .bread b ::
      (List.range fs.indirBlocks).flatMap
        (fun k => .entry b k :: fs.bfreeCalls d (fs.pointer b k)) ++ [.bfree b] := if_neg hb

theorem count_bfree (hc : c ≠ 0) : (fs.bfreeCalls d b).count (.bfree c) =
    (nodes fs.pointer fs.indirBlocks d b).count c := by
  induction d generalizing b with
  | zero =>
      rw [bfreeCalls, nodes]
      by_cases hb : b = 0
      · simp [hb, Ne.symm hc]
      · rw [if_neg hb]
        simp [List.count_singleton]
  | succ d ih =>
      by_cases hb : b = 0
      · rw [hb, bfreeCalls_zero, nodes_zero]
        rfl
      · rw [bfreeCalls_succ hb, nodes_succ hb]
        simp [List.count_append, List.count_cons, List.count_flatMap, Function.comp_def, ih]

/-- The entries of a block are read once for each time it occurs as an index block. -/
theorem count_entry (hk : k < fs.indirBlocks) : (fs.bfreeCalls d b).count (.entry c k) =
    (index fs.pointer fs.indirBlocks d b).count c := by
  induction d generalizing b with
  | zero => simp [bfreeCalls, index]
  | succ d ih =>
      by_cases hb : b = 0
      · rw [hb, bfreeCalls_zero, index_zero]
        rfl
      · have hentries : ((List.range fs.indirBlocks).map (Call.entry b)).count (.entry c k) =
            [b].count c := by
          by_cases hbc : b = c
          · subst hbc
            have hinj : Function.Injective (Call.entry b) := fun _ _ h => (Call.entry.inj h).2
            rw [List.count_map_of_injective _ _ hinj, List.count_singleton_self]
            exact List.count_eq_one_of_mem List.nodup_range (List.mem_range.mpr hk)
          · have hnot : Call.entry c k ∉ (List.range fs.indirBlocks).map (Call.entry b) := by
              simp [hbc]
            rw [List.count_eq_zero.mpr hnot]
            simp [hbc]
        have hperm := List.map_append_flatMap_perm (List.range fs.indirBlocks) (Call.entry b)
          fun k => fs.bfreeCalls d (fs.pointer b k)
        rw [bfreeCalls_succ hb, index_succ hb, List.count_append, List.count_append,
          List.count_cons_of_ne (by simp), ← hperm.count_eq, List.count_append, hentries]
        simp [List.count_flatMap, Function.comp_def, ih, Nat.add_comm]

/-- The block and its entries are read before it is freed, and not after. -/
def ReadBeforeFreed (n b : ℕ) (calls : List Call) : Prop :=
  ∃ before after, calls = before ++ .bfree b :: after ∧ .bread b ∈ before ∧
    (∀ k < n, .entry b k ∈ before) ∧ ∀ k < n, .entry b k ∉ after

/-- What is read before it is freed in a part of the calls. -/
theorem reads_in_part {n : ℕ} {calls : List Call} (lead rest : List Call)
    (h : ∃ before after, calls = before ++ .bfree b :: after ∧ .bread b ∈ before ∧
      ∀ k < n, .entry b k ∈ before) :
    ∃ before after, lead ++ calls ++ rest = before ++ .bfree b :: after ∧ .bread b ∈ before ∧
      ∀ k < n, .entry b k ∈ before := by
  obtain ⟨before, after, rfl, hbread, hentries⟩ := h
  refine ⟨lead ++ before, after ++ rest, by simp, List.mem_append_right _ hbread, ?_⟩
  intro k hk
  exact List.mem_append_right _ (hentries k hk)

theorem reads_of_mem_index (hc : c ∈ index fs.pointer fs.indirBlocks d b) :
    ∃ before after, fs.bfreeCalls d b = before ++ .bfree c :: after ∧ .bread c ∈ before ∧
      ∀ k < fs.indirBlocks, .entry c k ∈ before := by
  induction d generalizing b with
  | zero => cases hc
  | succ d ih =>
      have hb := ne_zero_of_mem_index hc
      rw [bfreeCalls_succ hb]
      rw [index_succ hb, List.mem_append, List.mem_flatMap] at hc
      rcases hc with ⟨k, hk, hc⟩ | hc
      · obtain ⟨front, back, hsplit⟩ := List.append_of_mem hk
        rw [hsplit, List.flatMap_append, List.flatMap_cons]
        have hpart := reads_in_part
          (.bread b :: front.flatMap
            (fun k => .entry b k :: fs.bfreeCalls d (fs.pointer b k)) ++ [.entry b k])
          (back.flatMap (fun k => .entry b k :: fs.bfreeCalls d (fs.pointer b k)) ++
            [.bfree b]) (ih hc)
        simpa using hpart
      · obtain rfl := List.mem_singleton.mp hc
        refine ⟨_, [], rfl, List.mem_cons_self, ?_⟩
        intro k hk
        apply List.mem_cons_of_mem
        exact List.mem_flatMap.mpr ⟨k, List.mem_range.mpr hk, List.mem_cons_self⟩

/-! ## The calls for a file -/

/-- The entries below an index are cleared. -/
def clearBelow (ip : InodeM) (n : ℕ) : InodeM :=
  { ip with iBlock := fun i => if i < n then 0 else ip.iBlock i }

theorem clearSlot_clearBelow (free : ℕ → List Call) (calls : List Call) (n : ℕ) :
    clearSlot free (calls, clearBelow ip n) n =
      (calls ++ free (ip.iBlock n), clearBelow ip (n + 1)) := by
  have hentry : (clearBelow ip n).iBlock n = ip.iBlock n := if_neg (lt_irrefl n)
  have hclear : (clearBelow ip n).setBlock n 0 = clearBelow ip (n + 1) := by
    unfold clearBelow InodeM.setBlock
    congr 1
    funext i
    by_cases hi : i = n
    · rw [hi, Function.update_self, if_pos (Nat.lt_succ_self n)]
    · have hlt : i < n + 1 ↔ i < n := by omega
      simp only [Function.update_of_ne hi, hlt]
  unfold clearSlot
  dsimp only
  rw [hentry, hclear]

theorem clearSlot_loop (free : ℕ → List Call) (n : ℕ) :
    (List.range n).foldl (clearSlot free) ([], ip) =
      ((List.range n).flatMap (fun i => free (ip.iBlock i)), clearBelow ip n) := by
  induction n with
  | zero => simp [clearBelow]
  | succ n ih =>
      rw [List.range_succ, List.foldl_append, ih, List.flatMap_append, List.foldl_cons,
        List.foldl_nil, clearSlot_clearBelow]
      simp

theorem itruncCalls_eq : fs.itruncCalls ip =
    ((List.range 15).flatMap (fun i => fs.bfreeCalls (levelsOf i) (ip.iBlock i)),
      { clearBelow ip 15 with iBlocks := 0, iSize := 0, modified := true }) := by
  have hrange : List.range 15 = List.range 12 ++ [12, 13, 14] := rfl
  have hdirect : (List.range 12).flatMap (fun i => [Call.bfree (ip.iBlock i)]) =
      (List.range 12).flatMap fun i => fs.bfreeCalls (levelsOf i) (ip.iBlock i) := by
    apply List.flatMap_congr
    intro i hi
    have hlevels : levelsOf i = 0 := by
      have := List.mem_range.mp hi
      unfold levelsOf
      omega
    rw [hlevels, bfreeCalls]
  unfold itruncCalls InodeM.indirectBlock InodeM.dindirectBlock InodeM.tindirectBlock
  dsimp only
  rw [clearSlot_loop, hdirect, clearSlot_clearBelow, clearSlot_clearBelow, clearSlot_clearBelow,
    hrange, List.flatMap_append]
  simp [List.flatMap_cons, levelsOf, bfreeIndirect, bfreeDindirect, bfreeTindirect]

theorem count_bfree_file (hc : c ≠ 0) :
    (fs.itruncCalls ip).1.count (.bfree c) = (fileBlocks fs ip).count c := by
  rw [itruncCalls_eq, fileBlocks, List.count_flatMap, List.count_flatMap]
  congr 1
  apply List.map_congr_left
  intro i _
  exact count_bfree hc

theorem count_entry_file (fs : Fs) (ip : InodeM) (c : ℕ) (hk : k < fs.indirBlocks) :
    (fs.itruncCalls ip).1.count (.entry c k) = (fileIndex fs ip).count c := by
  rw [itruncCalls_eq, fileIndex, List.count_flatMap, List.count_flatMap]
  congr 1
  apply List.map_congr_left
  intro i _
  exact count_entry hk

theorem readBeforeFreed (h : (fileIndex fs ip).count c = 1) :
    ReadBeforeFreed fs.indirBlocks c (fs.itruncCalls ip).1 := by
  have hmem : c ∈ fileIndex fs ip := List.count_pos_iff.mp (by omega)
  obtain ⟨slot, hslot, hc⟩ := List.mem_flatMap.mp hmem
  obtain ⟨front, back, hsplit⟩ := List.append_of_mem hslot
  have hpart := reads_in_part
    (front.flatMap fun i => fs.bfreeCalls (levelsOf i) (ip.iBlock i))
    (back.flatMap fun i => fs.bfreeCalls (levelsOf i) (ip.iBlock i)) (reads_of_mem_index hc)
  obtain ⟨before, after, hcalls, hbread, hentries⟩ := hpart
  have hall : (fs.itruncCalls ip).1 = before ++ .bfree c :: after := by
    rw [itruncCalls_eq, hsplit, ← hcalls]
    simp
  refine ⟨before, after, hall, hbread, hentries, ?_⟩
  intro k hk hafter
  have hcount := count_entry_file fs ip c hk
  have hbefore := List.count_pos_iff.mpr (hentries k hk)
  have hrest := List.count_pos_iff.mpr hafter
  rw [hall, h, List.count_append, List.count_cons] at hcount
  omega

theorem fileIndex_count (h : fs.DistinctBlocks ip) (hc : fs.ReachesIndex ip c) :
    (fileIndex fs ip).count c = 1 := by
  have hmem := List.count_pos_iff.mpr (mem_fileIndex_iff.mpr hc)
  have hle : (fileIndex fs ip).count c ≤ (fileBlocks fs ip).count c := by
    rw [fileIndex, fileBlocks, List.count_flatMap, List.count_flatMap]
    exact List.sum_le_sum fun i _ => count_index_le
  have hone := List.nodup_iff_count_le_one.mp h.nodup c
  omega

/-! ## The calls and the run -/

/-- The arguments of `ext2_bfree`. -/
def freed (calls : List Call) : List ℕ :=
  calls.filterMap fun
    | .bfree b => some b
    | _ => none

/-- A call with address 0 does nothing, so these are the blocks of the tree. -/
theorem foldlM_freed : (freed (fs.bfreeCalls d b)).foldlM Fs.bfree fs' =
    (nodes fs.pointer fs.indirBlocks d b).foldlM Fs.bfree fs' := by
  induction d generalizing b fs' with
  | zero =>
      by_cases hb : b = 0
      · subst hb
        rfl
      · rw [nodes, if_neg hb]
        rfl
  | succ d ih =>
      by_cases hb : b = 0
      · rw [hb, bfreeCalls_zero, nodes_zero]
        rfl
      · have hcalls : freed (fs.bfreeCalls (d + 1) b) =
            (List.range fs.indirBlocks).flatMap
              (fun k => freed (fs.bfreeCalls d (fs.pointer b k))) ++ [b] := by
          rw [bfreeCalls_succ hb]
          simp [freed, List.filterMap_flatMap]
        rw [hcalls, nodes_succ hb, List.foldlM_append, List.foldlM_append, foldlM_flatMap,
          foldlM_flatMap]
        simp only [ih]

/-- As long as freeing does not write to the index blocks, the run of `ext2_itrunc` is that of
its calls of `ext2_bfree`. -/
theorem itrunc_eq_calls (h : ∀ c ∈ fileIndex fs ip, ∀ g < fs.nrBlkGroup,
      (fs.bgdTable g).bgBlockBitmap ≠ c) :
    fs.itrunc ip = (do
      let fs' ← (freed (fs.itruncCalls ip).1).foldlM Fs.bfree fs
      .ok (fs', { ip with iBlock := fun _ => 0, iBlocks := 0, iSize := 0, modified := true })) := by
  have hcalls : freed (fs.itruncCalls ip).1 =
      (List.range 15).flatMap fun i => freed (fs.bfreeCalls (levelsOf i) (ip.iBlock i)) := by
    rw [itruncCalls_eq]
    exact List.filterMap_flatMap
  have hloop : (freed (fs.itruncCalls ip).1).foldlM Fs.bfree fs =
      (fileBlocks fs ip).foldlM Fs.bfree fs := by
    rw [hcalls, fileBlocks, foldlM_flatMap, foldlM_flatMap]
    simp only [foldlM_freed]
  unfold Fs.itrunc
  rw [itrunc_loop_eq h, hloop]

/-! ## Once each -/

/-- `ext2_itrunc` frees every block of the file once, and no other. -/
theorem itrunc_frees_once (h : fs.DistinctBlocks ip) :
    (∀ b, fs.Reaches ip b → (fs.itruncCalls ip).1.count (.bfree b) = 1) ∧
      (∀ b, b ≠ 0 → ¬fs.Reaches ip b → .bfree b ∉ (fs.itruncCalls ip).1) ∧
      (∀ b, fs.ReachesIndex ip b → ReadBeforeFreed fs.indirBlocks b (fs.itruncCalls ip).1) ∧
      (∀ slot < 15, (fs.itruncCalls ip).2.iBlock slot = 0) ∧
      (fs.itruncCalls ip).2.iSize = 0 ∧ (fs.itruncCalls ip).2.iBlocks = 0 := by
  have hnodup := h.nodup
  refine ⟨?_, ?_, fun b hb => readBeforeFreed (fileIndex_count h hb), ?_, ?_, ?_⟩
  · intro b hb
    rw [count_bfree_file hb.1]
    exact List.count_eq_one_of_mem hnodup (mem_fileBlocks_iff.mpr hb)
  · intro b hb hnot hmem
    have hcount := List.count_pos_iff.mpr hmem
    rw [count_bfree_file hb] at hcount
    exact hnot (mem_fileBlocks_iff.mp (List.count_pos_iff.mp hcount))
  · intro slot hslot
    rw [itruncCalls_eq]
    exact if_pos hslot
  · rw [itruncCalls_eq]
  · rw [itruncCalls_eq]

/-- A file with one direct block and one block behind an index block. -/
def indirectFile : InodeM :=
  { newFile 128 9 0x81A4 0 with iBlock := fun i => if i = 0 then 5 else if i = 12 then 6 else 0 }

/-- The device it is on, with the index block 6. -/
def indirectFs : Fs := (oneGroup 0xFF#8).setBlock 6 fun i => if i = 0 then 7#8 else 0#8

theorem pointer_indirectFs : indirectFs.pointer 6 k = if k = 0 then 7 else 0 := by
  unfold indirectFs pointer Fs.setBlock WordMemory.load32
  by_cases hk : k = 0
  · subst hk
    rfl
  · simp [hk]

/-- It has three blocks. -/
theorem indirectFile_places {ks : List ℕ} (h : indirectFs.IsPlace slot ks)
    (hne : indirectFs.blockAtPlace indirectFile slot ks ≠ 0) :
    (slot = 0 ∧ ks = [] ∨ slot = 12 ∧ ks = [] ∨ slot = 12 ∧ ks = [0]) ∧
      indirectFs.blockAtPlace indirectFile slot ks = (if slot = 0 then 5 else 6) + ks.length := by
  unfold blockAtPlace at hne ⊢
  have hslot : slot = 0 ∨ slot = 12 := by
    by_contra hnot
    rw [not_or] at hnot
    have hzero : indirectFile.iBlock slot = 0 := by
      unfold indirectFile
      dsimp only
      rw [if_neg hnot.1, if_neg hnot.2]
    rw [hzero] at hne
    exact hne walk_zero
  have hlen := h.2.1
  cases ks with
  | nil =>
      rcases hslot with rfl | rfl
      · exact ⟨Or.inl ⟨rfl, rfl⟩, rfl⟩
      · exact ⟨Or.inr (Or.inl ⟨rfl, rfl⟩), rfl⟩
  | cons k ks =>
      rcases hslot with rfl | rfl
      · exact absurd hlen (Nat.not_succ_le_zero _)
      · obtain rfl : ks = [] := List.length_eq_zero_iff.mp (Nat.le_zero.mp (Nat.le_of_succ_le_succ hlen))
        have hroot : indirectFile.iBlock 12 = 6 := rfl
        rw [hroot, walk_cons (by decide), walk, pointer_indirectFs] at hne
        have hk : k = 0 := by
          by_contra hk
          exact hne (if_neg hk)
        subst hk
        refine ⟨Or.inr (Or.inr ⟨rfl, rfl⟩), ?_⟩
        rw [hroot, walk_cons (by decide), walk, pointer_indirectFs]
        rfl

theorem distinctBlocks_indirectFile : indirectFs.DistinctBlocks indirectFile := by
  intro slot ks slot' ks' h h' hne heq
  obtain ⟨hplace, hblock⟩ := indirectFile_places h hne
  obtain ⟨hplace', hblock'⟩ := indirectFile_places h' (heq ▸ hne)
  rw [hblock, hblock'] at heq
  rcases hplace with ⟨rfl, rfl⟩ | ⟨rfl, rfl⟩ | ⟨rfl, rfl⟩ <;>
    rcases hplace' with ⟨rfl, rfl⟩ | ⟨rfl, rfl⟩ | ⟨rfl, rfl⟩ <;> simp_all

/-- Its index block is read before it is freed, and the block behind it is freed once. -/
theorem itrunc_indirectFile :
    indirectFs.DistinctBlocks indirectFile ∧
      (indirectFs.itruncCalls indirectFile).1.count (.bfree 7) = 1 ∧
      ReadBeforeFreed 256 6 (indirectFs.itruncCalls indirectFile).1 := by
  obtain ⟨honce, -, hread, -⟩ := itrunc_frees_once distinctBlocks_indirectFile
  have hpath : IsPath indirectFs.indirBlocks (levelsOf 12) [0] := ⟨by decide, by decide⟩
  have hseven : indirectFs.Reaches indirectFile 7 := by
    refine ⟨by decide, 12, [0], ⟨by decide, hpath⟩, ?_⟩
    have hroot : indirectFile.iBlock 12 = 6 := rfl
    rw [blockAtPlace, hroot, walk_cons (by decide), walk, pointer_indirectFs, if_pos rfl]
  have hsix : indirectFs.ReachesIndex indirectFile 6 :=
    ⟨by decide, 12, [], ⟨by decide, by decide, by decide⟩, by decide, rfl⟩
  exact ⟨distinctBlocks_indirectFile, honce 7 hseven, hread 6 hsix⟩

end Fs

end Yak.Ext2
