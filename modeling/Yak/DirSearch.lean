import Yak.DirBlocks

/-!
# Looking up a name in a directory

A transcription of `find_entry` and of the routines below it.  A search in a block ends at the
first later record which is not in use, and the others look behind the end of the block.
-/

namespace Yak.Ext2

open ByteBitmap WordMemory RecordChain IndexTree

/-- `FIND_NEXT_BLOCK` and `FIND_NONE` -/
inductive FindCode where
  | nextBlock
  | none
  deriving DecidableEq

/-- `EXT2_FT_UNKNOWN` -/
def ftUnknown : ℕ := 0

/-- The loop of `find_entry_in_block`.  The header of the next record is read before the end of
the block is noticed. -/
def findLoop (size : ℕ) (blk : Bytes) (name : Name) (res : FindCode) :
    (fuel : ℕ) → ℕ → Except Halt (Option ℕ × FindCode)
  | 0, _ => .error .endless
  | fuel + 1, p => do
      if (← matchAt size blk p name) = 0 then .ok (some (dInode blk p), res)
      else if size ≤ p then .ok (none, .nextBlock)
      else
        let p := p + dRecLen blk p
        if size < p + headerSize then .error .outOfBounds
        else if dInode blk p = 0 ∨ dFileType blk p = ftUnknown then .ok (none, .none)
        else findLoop size blk name res fuel p

/-- The loop over the entries of an index block. -/
def scanEntries (find : ℕ → FindCode → Except Halt (Option ℕ × FindCode)) :
    List ℕ → FindCode → Except Halt (Option ℕ × FindCode)
  | [], res => .ok (none, res)
  | b :: bs, res =>
      if b = 0 then .ok (none, res)
      else do
        let (ino, res) ← find b res
        if ino.isSome then .ok (ino, res) else scanEntries find bs res

namespace Fs

/-- `find_entry_in_block`, which gives the number for `ext2_iget`. -/
def findEntryInBlock (fs : Fs) (name : Name) (block : ℕ) (res : FindCode) :
    Except Halt (Option ℕ × FindCode) :=
  if block = 0 then .ok (none, res)
  else findLoop fs.sb.blocksize (fs.blocks block) name res (fs.sb.blocksize + 1) 0

/-- `find_entry_indirect`, `find_entry_dindirect` and `find_entry_tindirect`, by the number of
levels of index blocks. -/
def findEntryTree (fs : Fs) (name : Name) :
    (levels : ℕ) → ℕ → FindCode → Except Halt (Option ℕ × FindCode)
  | 0, block, res => fs.findEntryInBlock name block res
  | levels + 1, block, res =>
      if block = 0 then .ok (none, res)
      else scanEntries (fs.findEntryTree name levels)
        ((List.range fs.indirBlocks).map (fs.pointer block)) res

/-- The loop of `find_entry_direct`. -/
def findDirectLoop (fs : Fs) (name : Name) : List ℕ → FindCode → Except Halt (Option ℕ × FindCode)
  | [], _ => .ok (none, .nextBlock)
  | b :: bs, res =>
      if b = 0 then .ok (none, .none)
      else do
        let (ino, res) ← fs.findEntryInBlock name b res
        if ino.isSome then .ok (ino, res) else fs.findDirectLoop name bs res

/-- `find_entry_direct` -/
def findEntryDirect (fs : Fs) (dir : InodeM) (name : Name) : Except Halt (Option ℕ × FindCode) :=
  fs.findDirectLoop name ((List.range 12).map dir.iBlock) .nextBlock

/-- `find_entry` returns what it has found, or nothing behind `FIND_NONE`, or it goes on. -/
def nextStage (r : Option ℕ × FindCode) (rest : FindCode → Except Halt (Option ℕ)) :
    Except Halt (Option ℕ) :=
  if r.1.isSome ∨ r.2 = .none then .ok r.1 else rest r.2

/-- `find_entry` -/
def findEntry (fs : Fs) (dir : InodeM) (name : Name) : Except Halt (Option ℕ) := do
  let r ← fs.findEntryDirect dir name
  nextStage r fun res => do
    let r ← fs.findEntryTree name 1 (dir.iBlock InodeM.indirectBlock) res
    nextStage r fun res => do
      let r ← fs.findEntryTree name 2 (dir.iBlock InodeM.dindirectBlock) res
      nextStage r fun res => do
        let r ← fs.findEntryTree name 3 (dir.iBlock InodeM.tindirectBlock) res
        .ok r.1

end Fs

variable {size p fuel : ℕ} {blk : Bytes} {name : Name} {res : FindCode} {ps bs : List ℕ}

/-! ## One block -/

/-- The record is in use, as far as the search can tell. -/
def Used (blk : Bytes) (p : ℕ) : Prop := dInode blk p ≠ 0 ∧ dFileType blk p ≠ ftUnknown

instance (blk : Bytes) (p : ℕ) : Decidable (Used blk p) := inferInstanceAs (Decidable (_ ∧ _))

/-- The records which the search compares: up to the first later one which is not in use. -/
def seenFrom (blk : Bytes) : List ℕ → List ℕ
  | [] => []
  | p :: ps => p :: ps.takeWhile fun q => decide (Used blk q)

def seen (size : ℕ) (blk : Bytes) : List ℕ := seenFrom blk (records size blk)

/-- The record of the name which the search comes to. -/
def firstSeen (size : ℕ) (blk : Bytes) (name : Name) : Option ℕ :=
  (seen size blk).find? fun q => decide (dName blk q = name)

theorem seenFrom_cons_used {q : ℕ} {qs : List ℕ} (hused : Used blk q) :
    seenFrom blk (p :: q :: qs) = p :: seenFrom blk (q :: qs) := by
  simp [seenFrom, hused]

theorem seenFrom_cons_unused {q : ℕ} {qs : List ℕ} (hused : ¬Used blk q) :
    seenFrom blk (p :: q :: qs) = [p] := by
  simp [seenFrom, hused]

theorem findLoop_eq (h : Chain (dRecLen blk) size p ps) (hne : ps ≠ [])
    (hinside : ∀ q ∈ ps, Inside size blk q) (hfuel : ps.length ≤ fuel) :
    findLoop size blk name res fuel p =
      match (seenFrom blk ps).find? fun q => decide (dName blk q = name) with
      | some q => .ok (some (dInode blk q), res)
      | none => if seenFrom blk ps = ps then .error .outOfBounds else .ok (none, .none) := by
  induction ps generalizing p fuel with
  | nil => exact (hne rfl).elim
  | cons q qs ih =>
      obtain rfl := h.head
      cases fuel with
      | zero => cases hfuel
      | succ fuel =>
          obtain ⟨r, hrun, hr⟩ := matchAt_ok name (hinside q List.mem_cons_self)
          rw [findLoop, hrun, ok_bind]
          by_cases hmatch : dName blk q = name
          · rw [if_pos (hr.mpr hmatch)]
            simp [seenFrom, hmatch]
          · rw [if_neg (mt hr.mp hmatch), if_neg (Nat.not_le.mpr h.lt)]
            dsimp only
            have htail := h.tail
            cases qs with
            | nil =>
                have hend : q + dRecLen blk q = size := htail
                rw [hend, if_pos (by unfold headerSize; omega)]
                simp [seenFrom, hmatch]
            | cons q' qs =>
                obtain rfl := htail.head
                have hheader := hinside _ (List.mem_cons_of_mem q List.mem_cons_self)
                unfold Inside at hheader
                rw [if_neg (by omega)]
                by_cases hused : Used blk (q + dRecLen blk q)
                · have hboth : ¬(dInode blk (q + dRecLen blk q) = 0 ∨
                      dFileType blk (q + dRecLen blk q) = ftUnknown) := by
                    rintro (hzero | hzero)
                    · exact hused.1 hzero
                    · exact hused.2 hzero
                  rw [if_neg hboth, seenFrom_cons_used hused,
                    ih htail (List.cons_ne_nil _ _)
                      (fun x hx => hinside x (List.mem_cons_of_mem q hx))
                      (Nat.le_of_succ_le_succ hfuel)]
                  simp [hmatch]
                · have hboth : dInode blk (q + dRecLen blk q) = 0 ∨
                      dFileType blk (q + dRecLen blk q) = ftUnknown := by
                    by_contra hnot
                    rw [not_or] at hnot
                    exact hused hnot
                  rw [if_pos hboth, seenFrom_cons_unused hused]
                  simp [hmatch]

/-- What a search in a block comes to. -/
def blockOutcome (size : ℕ) (blk : Bytes) (name : Name) : Except Halt (Option ℕ) :=
  match firstSeen size blk name with
  | some q => .ok (some (dInode blk q))
  | none => if seen size blk = records size blk then .error .outOfBounds else .ok none

/-- The search in the block ends before the end of the block, without the name. -/
def Stops (size : ℕ) (blk : Bytes) (name : Name) : Prop :=
  firstSeen size blk name = none ∧ seen size blk ≠ records size blk

instance (size : ℕ) (blk : Bytes) (name : Name) : Decidable (Stops size blk name) :=
  inferInstanceAs (Decidable (_ ∧ _))

namespace Fs

variable {fs : Fs} {dir : InodeM} {b d : ℕ}

theorem findEntryInBlock_eq (hb : b ≠ 0) (hwf : WellFormed fs.sb.blocksize (fs.blocks b)) :
    fs.findEntryInBlock name b res =
      (blockOutcome fs.sb.blocksize (fs.blocks b) name).map
        fun ino => (ino, if ino.isSome then res else .none) := by
  have hchain := hwf.1
  have hlength := hchain.length_le
  unfold findEntryInBlock blockOutcome firstSeen seen
  rw [if_neg hb]
  cases hlist : records fs.sb.blocksize (fs.blocks b) with
  | nil =>
      rw [hlist] at hchain
      have hzero : 0 = fs.sb.blocksize := hchain
      rw [← hzero, findLoop]
      rfl
  | cons p ps =>
      have hinside : ∀ q ∈ p :: ps, Inside fs.sb.blocksize (fs.blocks b) q := by
        intro q hq
        exact hwf.inside (by rw [hlist]; exact hq)
      rw [hlist] at hchain hlength
      rw [findLoop_eq hchain (List.cons_ne_nil p ps) hinside (by omega)]
      split
      next => rfl
      next => split <;> rfl

/-! ## Many blocks -/

/-- The blocks, one after the other. -/
def scanBlocks (fs : Fs) (name : Name) : List ℕ → FindCode → Except Halt (Option ℕ × FindCode)
  | [], res => .ok (none, res)
  | b :: bs, res => do
      let (ino, res) ← fs.findEntryInBlock name b res
      if ino.isSome then .ok (ino, res) else fs.scanBlocks name bs res

/-- The blocks of the last level in the order of the search, which leaves an index block at its
first empty entry. -/
def reached (fs : Fs) : (levels : ℕ) → ℕ → List ℕ
  | 0, block => if block = 0 then [] else [block]
  | levels + 1, block =>
      if block = 0 then []
      else (((List.range fs.indirBlocks).map (fs.pointer block)).takeWhile (· ≠ 0)).flatMap
        (fs.reached levels)

theorem scanBlocks_append {bs' : List ℕ} : fs.scanBlocks name (bs ++ bs') res = (do
    let (ino, res) ← fs.scanBlocks name bs res
    if ino.isSome then .ok (ino, res) else fs.scanBlocks name bs' res) := by
  induction bs generalizing res with
  | nil => rfl
  | cons b bs ih =>
      rw [List.cons_append, scanBlocks, scanBlocks]
      cases fs.findEntryInBlock name b res with
      | error e => rfl
      | ok r =>
          simp only [ok_bind]
          split
          next hfound =>
            rw [ok_bind]
            exact (if_pos hfound).symm
          next => exact ih

theorem findEntryTree_eq :
    fs.findEntryTree name d b res = fs.scanBlocks name (fs.reached d b) res := by
  induction d generalizing b res with
  | zero =>
      rw [findEntryTree, reached]
      by_cases hb : b = 0
      · rw [if_pos hb, findEntryInBlock, if_pos hb]
        rfl
      · rw [if_neg hb, scanBlocks]
        cases fs.findEntryInBlock name b res with
        | error e => rfl
        | ok r =>
            obtain ⟨ino, code⟩ := r
            cases ino <;> rfl
  | succ d ih =>
      rw [findEntryTree, reached]
      by_cases hb : b = 0
      · rw [if_pos hb, if_pos hb]
        rfl
      · rw [if_neg hb, if_neg hb]
        generalize (List.range fs.indirBlocks).map (fs.pointer b) = bs
        induction bs generalizing res with
        | nil => rfl
        | cons c cs ihc =>
            rw [scanEntries]
            by_cases hc : c = 0
            · simp [hc, scanBlocks]
            · rw [if_neg hc, ih, List.takeWhile_cons, if_pos (by simpa using hc), List.flatMap_cons,
                scanBlocks_append]
              congr 1
              funext r
              obtain ⟨ino, code⟩ := r
              dsimp only
              rw [ihc]

/-- The code behind blocks without the name, and the number of the inode otherwise. -/
def firstFound (fs : Fs) (name : Name) : List ℕ → Except Halt (Option ℕ)
  | [] => .ok none
  | b :: bs => do
      let ino ← blockOutcome fs.sb.blocksize (fs.blocks b) name
      if ino.isSome then .ok ino else fs.firstFound name bs

/-- A list of chains of records is searched block by block. -/
theorem scanBlocks_eq (name : Name) (res : FindCode) (hne : ∀ b ∈ bs, b ≠ 0)
    (hwf : ∀ b ∈ bs, WellFormed fs.sb.blocksize (fs.blocks b)) :
    ∃ code, fs.scanBlocks name bs res = (fs.firstFound name bs).map (fun ino => (ino, code)) ∧
      (fs.firstFound name bs = .ok none → code = if bs = [] then res else .none) := by
  induction bs generalizing res with
  | nil => exact ⟨res, rfl, fun _ => rfl⟩
  | cons b bs ih =>
      rw [scanBlocks, firstFound, findEntryInBlock_eq (hne b List.mem_cons_self)
        (hwf b List.mem_cons_self)]
      cases blockOutcome fs.sb.blocksize (fs.blocks b) name with
      | error e => exact ⟨.none, rfl, fun h => by cases h⟩
      | ok ino =>
          cases ino with
          | some x => exact ⟨res, rfl, fun h => by cases h⟩
          | none =>
              obtain ⟨code, hrun, hcode⟩ := ih FindCode.none
                (fun c hc => hne c (List.mem_cons_of_mem b hc))
                fun c hc => hwf c (List.mem_cons_of_mem b hc)
              refine ⟨code, hrun, ?_⟩
              intro hnone
              rw [hcode hnone, if_neg (List.cons_ne_nil b bs)]
              split <;> rfl

/-- The direct blocks, up to the first one which is missing. -/
def directBlocks (dir : InodeM) : List ℕ := ((List.range 12).map dir.iBlock).takeWhile (· ≠ 0)

/-- The blocks which are searched.  Behind the direct blocks these are the ones of a single tree. -/
def searched (fs : Fs) (dir : InodeM) : List ℕ :=
  if (directBlocks dir).length < 12 then directBlocks dir
  else
    let indirect := fs.reached 1 (dir.iBlock InodeM.indirectBlock)
    let dindirect := fs.reached 2 (dir.iBlock InodeM.dindirectBlock)
    let tindirect := fs.reached 3 (dir.iBlock InodeM.tindirectBlock)
    directBlocks dir ++
      if indirect ≠ [] then indirect else if dindirect ≠ [] then dindirect else tindirect

theorem firstFound_append {bs' : List ℕ} : fs.firstFound name (bs ++ bs') = (do
    let ino ← fs.firstFound name bs
    if ino.isSome then .ok ino else fs.firstFound name bs') := by
  induction bs with
  | nil => rfl
  | cons b bs ih =>
      rw [List.cons_append, firstFound, firstFound]
      cases blockOutcome fs.sb.blocksize (fs.blocks b) name with
      | error e => rfl
      | ok ino =>
          cases ino with
          | some x => rfl
          | none => exact ih

theorem findDirectLoop_eq : fs.findDirectLoop name bs res = (do
    let (ino, code) ← fs.scanBlocks name (bs.takeWhile (· ≠ 0)) res
    .ok (ino, if ino.isSome then code else if 0 ∈ bs then .none else .nextBlock)) := by
  induction bs generalizing res with
  | nil => rfl
  | cons b bs ih =>
      rw [findDirectLoop]
      by_cases hb : b = 0
      · subst hb
        simp [scanBlocks]
      · have hmem : 0 ∈ b :: bs ↔ 0 ∈ bs := by simp [Ne.symm hb]
        rw [if_neg hb, List.takeWhile_cons, if_pos (by simpa using hb), scanBlocks]
        cases fs.findEntryInBlock name b res with
        | error e => rfl
        | ok r =>
            obtain ⟨ino, code⟩ := r
            cases ino with
            | some x => rfl
            | none =>
                simp only [ok_bind, hmem]
                exact ih

theorem length_takeWhile_lt (l : List ℕ) : (l.takeWhile (· ≠ 0)).length < l.length ↔ 0 ∈ l := by
  induction l with
  | nil => simp
  | cons a l ih =>
      by_cases ha : a = 0
      · simp [ha]
      · rw [List.takeWhile_cons, if_pos (by simpa using ha), List.length_cons, List.length_cons,
          Nat.add_lt_add_iff_right, ih, List.mem_cons]
        simp [Ne.symm ha]

/-- A stage of `find_entry` which has searched a block is the last. -/
theorem stage_eq (rest : FindCode → Except Halt (Option ℕ)) (hne : ∀ b ∈ bs, b ≠ 0)
    (hwf : ∀ b ∈ bs, WellFormed fs.sb.blocksize (fs.blocks b)) :
    (do
      let r ← fs.scanBlocks name bs .nextBlock
      nextStage r rest) =
      if bs = [] then rest .nextBlock else fs.firstFound name bs := by
  by_cases hbs : bs = []
  · rw [if_pos hbs, hbs]
    rfl
  · obtain ⟨code, hrun, hcode⟩ := scanBlocks_eq name .nextBlock hne hwf
    rw [if_neg hbs, hrun]
    cases hfound : fs.firstFound name bs with
    | error e => rfl
    | ok ino =>
        cases ino with
        | some x => rfl
        | none =>
            rw [hcode hfound, if_neg hbs]
            rfl

/-- Behind the direct blocks, `find_entry` goes through one tree. -/
theorem stages_eq {bs' bs'' : List ℕ} {last : List ℕ}
    (hlast : last = if bs ≠ [] then bs else if bs' ≠ [] then bs' else bs'')
    (hne : ∀ b ∈ last, b ≠ 0) (hwf : ∀ b ∈ last, WellFormed fs.sb.blocksize (fs.blocks b)) :
    (do
      let r ← fs.scanBlocks name bs .nextBlock
      nextStage r fun res => do
        let r ← fs.scanBlocks name bs' res
        nextStage r fun res => do
          let r ← fs.scanBlocks name bs'' res
          .ok r.1) = fs.firstFound name last := by
  by_cases hbs : bs = []
  · subst hbs
    rw [if_neg (not_not.mpr rfl)] at hlast
    by_cases hbs' : bs' = []
    · subst hbs'
      rw [if_neg (not_not.mpr rfl)] at hlast
      subst hlast
      obtain ⟨code, hrun, -⟩ := scanBlocks_eq name .nextBlock hne hwf
      simp only [scanBlocks, ok_bind, nextStage, Option.isSome_none, Bool.false_eq_true, false_or,
        reduceCtorEq, if_false, hrun]
      cases fs.firstFound name last <;> rfl
    · rw [if_pos hbs'] at hlast
      subst hlast
      exact (stage_eq _ hne hwf).trans (if_neg hbs')
  · rw [if_pos hbs] at hlast
    subst hlast
    exact (stage_eq _ hne hwf).trans (if_neg hbs)

theorem findEntry_eq (hne : ∀ b ∈ fs.searched dir, b ≠ 0)
    (hwf : ∀ b ∈ fs.searched dir, WellFormed fs.sb.blocksize (fs.blocks b)) :
    fs.findEntry dir name = fs.firstFound name (fs.searched dir) := by
  have hshort := length_takeWhile_lt ((List.range 12).map dir.iBlock)
  rw [List.length_map, List.length_range] at hshort
  unfold findEntry findEntryDirect
  rw [findDirectLoop_eq]
  unfold searched directBlocks at *
  generalize (List.range 12).map dir.iBlock = direct at *
  by_cases hzero : 0 ∈ direct
  · rw [if_pos (hshort.mpr hzero)] at hne hwf ⊢
    obtain ⟨code, hrun, -⟩ := scanBlocks_eq name .nextBlock hne hwf
    rw [hrun]
    cases fs.firstFound name (direct.takeWhile (· ≠ 0)) with
    | error e => rfl
    | ok ino => cases ino <;> simp [hzero, Except.map, nextStage]
  · rw [if_neg (mt hshort.mp hzero)] at hne hwf ⊢
    dsimp only at hne hwf ⊢
    rw [List.forall_mem_append] at hne hwf
    obtain ⟨code, hrun, -⟩ := scanBlocks_eq name .nextBlock hne.1 hwf.1
    rw [hrun, firstFound_append]
    cases fs.firstFound name (direct.takeWhile (· ≠ 0)) with
    | error e => rfl
    | ok ino =>
        cases ino with
        | some x => rfl
        | none =>
            rw [← stages_eq rfl hne.2 hwf.2]
            simp only [findEntryTree_eq, Except.map, ok_bind, hzero, nextStage, Option.isSome_none,
              if_false, Bool.false_eq_true, false_or, reduceCtorEq]

/-! ## The blocks which are searched -/

theorem reached_ne_zero : ∀ c ∈ fs.reached d b, c ≠ 0 := by
  intro c hc
  induction d generalizing b with
  | zero =>
      rw [reached] at hc
      split at hc
      next => cases hc
      next hb => exact List.mem_singleton.mp hc ▸ hb
  | succ d ih =>
      rw [reached] at hc
      split at hc
      next => cases hc
      next =>
        obtain ⟨x, _, hc⟩ := List.mem_flatMap.mp hc
        exact ih hc

theorem reached_subset : ∀ c ∈ fs.reached d b, c ∈ leaves fs.pointer fs.indirBlocks d b := by
  intro c hc
  induction d generalizing b with
  | zero => exact hc
  | succ d ih =>
      rw [reached] at hc
      rw [leaves]
      split at hc
      next => cases hc
      next hb =>
        obtain ⟨x, hx, hc⟩ := List.mem_flatMap.mp hc
        obtain ⟨k, hk, rfl⟩ := List.mem_map.mp ((List.takeWhile_sublist _).subset hx)
        rw [if_neg hb]
        exact List.mem_flatMap.mpr ⟨k, hk, ih hc⟩

theorem reached_mem_dataBlocks (slot : ℕ) (hslot : slot < 15)
    (hb : b ∈ fs.reached (levelsOf slot) (dir.iBlock slot)) : b ∈ fs.dataBlocks dir :=
  List.mem_flatMap.mpr ⟨slot, List.mem_range.mpr hslot, reached_subset b hb⟩

theorem searched_subset : ∀ b ∈ fs.searched dir, b ≠ 0 ∧ b ∈ fs.dataBlocks dir := by
  have hdirect : ∀ b ∈ directBlocks dir, b ≠ 0 ∧ b ∈ fs.dataBlocks dir := by
    intro b hb
    have hne : b ≠ 0 := by simpa using List.all_eq_true.mp List.all_takeWhile b hb
    obtain ⟨i, hi, rfl⟩ := List.mem_map.mp ((List.takeWhile_sublist _).subset hb)
    exact ⟨hne, direct_mem_dataBlocks (List.mem_range.mp hi) hne⟩
  intro b hb
  unfold searched at hb
  split at hb
  next => exact hdirect b hb
  next =>
    rcases List.mem_append.mp hb with hb | hb
    · exact hdirect b hb
    · split at hb
      next => exact ⟨reached_ne_zero b hb, reached_mem_dataBlocks 12 (by omega) hb⟩
      next =>
        split at hb
        next => exact ⟨reached_ne_zero b hb, reached_mem_dataBlocks 13 (by omega) hb⟩
        next => exact ⟨reached_ne_zero b hb, reached_mem_dataBlocks 14 (by omega) hb⟩

/-! ## Exactly when the search is right -/

/-- The search gives the inode number of a live entry of the name, or nothing when there is
none. -/
def FindsExactly (fs : Fs) (dir : InodeM) (name : Name) : Prop :=
  (∃ ino, fs.findEntry dir name = .ok (some ino) ∧ (name, ino) ∈ fs.dirEntries dir) ∨
    fs.findEntry dir name = .ok none ∧ ∀ ino, (name, ino) ∉ fs.dirEntries dir

/-- The search stops in some blocks and then comes to a live record of the name; or it stops in
all the blocks, and there is no live entry of the name. -/
def SearchAgrees (fs : Fs) (dir : InodeM) (name : Name) : Prop :=
  (∃ before b behind p, fs.searched dir = before ++ b :: behind ∧
      (∀ c ∈ before, Stops fs.sb.blocksize (fs.blocks c) name) ∧
      firstSeen fs.sb.blocksize (fs.blocks b) name = some p ∧ dInode (fs.blocks b) p ≠ 0) ∨
    (∀ c ∈ fs.searched dir, Stops fs.sb.blocksize (fs.blocks c) name) ∧
      ∀ ino, (name, ino) ∉ fs.dirEntries dir

theorem blockOutcome_stops (h : Stops size blk name) : blockOutcome size blk name = .ok none := by
  unfold blockOutcome
  rw [h.1]
  exact if_neg h.2

theorem blockOutcome_found (h : firstSeen size blk name = some p) :
    blockOutcome size blk name = .ok (some (dInode blk p)) := by
  unfold blockOutcome
  rw [h]

theorem blockOutcome_eq_none (h : blockOutcome size blk name = .ok none) :
    Stops size blk name := by
  unfold blockOutcome at h
  split at h
  next => cases h
  next hnone =>
    split at h
    next => cases h
    next hseen => exact ⟨hnone, hseen⟩

theorem blockOutcome_eq_some {ino : ℕ} (h : blockOutcome size blk name = .ok (some ino)) :
    ∃ p, firstSeen size blk name = some p ∧ dInode blk p = ino := by
  unfold blockOutcome at h
  split at h
  next q hq => exact ⟨q, hq, Option.some.inj (Except.ok.inj h)⟩
  next => split at h <;> cases h

theorem firstFound_stops (h : Stops fs.sb.blocksize (fs.blocks b) name) :
    fs.firstFound name (b :: bs) = fs.firstFound name bs := by
  rw [firstFound, blockOutcome_stops h]
  rfl

theorem firstFound_none : fs.firstFound name bs = .ok none ↔
    ∀ c ∈ bs, Stops fs.sb.blocksize (fs.blocks c) name := by
  induction bs with
  | nil => simp [firstFound]
  | cons b bs ih =>
      rw [List.forall_mem_cons]
      constructor
      · intro h
        rw [firstFound] at h
        obtain ⟨ino, hrun, hrest⟩ := bind_eq_ok.mp h
        cases ino with
        | some x => cases hrest
        | none => exact ⟨blockOutcome_eq_none hrun, ih.mp hrest⟩
      · rintro ⟨hb, hbs⟩
        rw [firstFound_stops hb]
        exact ih.mpr hbs

theorem firstFound_some {ino : ℕ} : fs.firstFound name bs = .ok (some ino) ↔
    ∃ before b behind p, bs = before ++ b :: behind ∧
      (∀ c ∈ before, Stops fs.sb.blocksize (fs.blocks c) name) ∧
      firstSeen fs.sb.blocksize (fs.blocks b) name = some p ∧ dInode (fs.blocks b) p = ino := by
  induction bs with
  | nil => simp [firstFound]
  | cons b bs ih =>
      constructor
      · intro h
        rw [firstFound] at h
        obtain ⟨found, hrun, hrest⟩ := bind_eq_ok.mp h
        cases found with
        | some x =>
            obtain rfl : x = ino := Option.some.inj (Except.ok.inj hrest)
            obtain ⟨p, hp, hino⟩ := blockOutcome_eq_some hrun
            exact ⟨[], b, bs, p, rfl, fun c hc => absurd hc List.not_mem_nil, hp, hino⟩
        | none =>
            obtain ⟨before, c, behind, p, rfl, hstops, hp⟩ := ih.mp hrest
            refine ⟨b :: before, c, behind, p, rfl, ?_, hp⟩
            exact List.forall_mem_cons.mpr ⟨blockOutcome_eq_none hrun, hstops⟩
      · rintro ⟨before, c, behind, p, hsplit, hstops, hp, rfl⟩
        cases before with
        | nil =>
            obtain ⟨rfl, rfl⟩ := List.cons.inj hsplit
            rw [firstFound, blockOutcome_found hp]
            rfl
        | cons a before =>
            obtain ⟨rfl, rfl⟩ := List.cons.inj hsplit
            rw [firstFound_stops (hstops b List.mem_cons_self)]
            exact ih.mpr ⟨before, c, behind, p, rfl,
              fun d hd => hstops d (List.mem_cons_of_mem b hd), hp, rfl⟩

theorem firstSeen_mem (h : firstSeen size blk name = some p) :
    p ∈ records size blk ∧ dName blk p = name := by
  unfold firstSeen seen at h
  have hmem := List.mem_of_find?_eq_some h
  have hname : dName blk p = name := by simpa using List.find?_some h
  refine ⟨?_, hname⟩
  cases hlist : records size blk with
  | nil =>
      rw [hlist] at hmem
      exact hmem
  | cons q qs =>
      rw [hlist] at hmem
      rcases List.mem_cons.mp hmem with rfl | hmem
      · exact List.mem_cons_self
      · exact List.mem_cons_of_mem q ((List.takeWhile_sublist _).subset hmem)

/-- `find_entry` is right about a name exactly under this condition. -/
theorem findsExactly_iff (hwf : fs.WellFormedDir dir) :
    fs.FindsExactly dir name ↔ fs.SearchAgrees dir name := by
  have heq : fs.findEntry dir name = fs.firstFound name (fs.searched dir) :=
    findEntry_eq (fun b hb => (searched_subset b hb).1)
      fun b hb => hwf b (searched_subset b hb).2
  unfold FindsExactly SearchAgrees
  rw [heq, firstFound_none]
  refine or_congr ?_ Iff.rfl
  constructor
  · rintro ⟨ino, hfound, hlive⟩
    obtain ⟨before, b, behind, p, hsplit, hstops, hp, rfl⟩ := firstFound_some.mp hfound
    obtain ⟨c, _, hentry⟩ := mem_dirEntries.mp hlive
    exact ⟨before, b, behind, p, hsplit, hstops, hp, (mem_entries.mp hentry).1⟩
  · rintro ⟨before, b, behind, p, hsplit, hstops, hp, hlive⟩
    refine ⟨_, firstFound_some.mpr ⟨before, b, behind, p, hsplit, hstops, hp, rfl⟩, ?_⟩
    obtain ⟨hmem, hname⟩ := firstSeen_mem hp
    have hb : b ∈ fs.searched dir := by
      rw [hsplit]
      exact List.mem_append_right _ List.mem_cons_self
    exact mem_dirEntries.mpr
      ⟨b, (searched_subset b hb).2, mem_entries.mpr ⟨hlive, p, hmem, rfl, hname⟩⟩

/-! ## A name behind a deleted one -/

/-- Behind the two entries of every directory there is a record which is not in use, and then
the name `b`. -/
def hiddenName : Bytes :=
  blockOf [(0, recordBytes 30 12 2#8 dot), (12, recordBytes 2 12 2#8 dotDot),
    (24, recordBytes 0 12 0#8 []), (36, recordBytes 21 988 1#8 [0x62#8])]

theorem wellFormedDir_hiddenName : (dirFs hiddenName dotsBlock).WellFormedDir oneBlockDir := by
  intro b hb
  rw [dataBlocks_oneBlockDir] at hb
  obtain rfl := List.mem_singleton.mp hb
  have hblock : WellFormed kibSb.blocksize hiddenName := by decide
  exact hblock

theorem searched_oneBlockDir : (dirFs hiddenName dotsBlock).searched oneBlockDir = [8] := rfl

/-- The name in front of it is found. -/
theorem findsExactly_dotDot : (dirFs hiddenName dotsBlock).FindsExactly oneBlockDir dotDot := by
  refine (findsExactly_iff wellFormedDir_hiddenName).mpr
    (Or.inl ⟨[], 8, [], 12, searched_oneBlockDir, fun c hc => absurd hc List.not_mem_nil, ?_, ?_⟩)
  · have hseen : firstSeen kibSb.blocksize hiddenName dotDot = some 12 := by decide +kernel
    exact hseen
  · have hlive : dInode hiddenName 12 ≠ 0 := by decide +kernel
    exact hlive

/-- The name behind it is not found. -/
theorem not_findsExactly_hiddenName :
    (dirFs hiddenName dotsBlock).WellFormedDir oneBlockDir ∧
      (∀ p ∈ records kibSb.blocksize hiddenName, dInode hiddenName p ≠ 0 →
        dFileType hiddenName p ≠ ftUnknown) ∧
      (([0x62#8] : Name), 21) ∈ (dirFs hiddenName dotsBlock).dirEntries oneBlockDir ∧
      (dirFs hiddenName dotsBlock).findEntry oneBlockDir [0x62#8] = .ok none ∧
      ¬(dirFs hiddenName dotsBlock).FindsExactly oneBlockDir [0x62#8] := by
  have hlive : (([0x62#8] : Name), 21) ∈ (dirFs hiddenName dotsBlock).dirEntries oneBlockDir := by
    have hmem : (([0x62#8] : Name), 21) ∈ entries kibSb.blocksize hiddenName := by decide +kernel
    exact mem_dirEntries.mpr ⟨8, List.mem_singleton_self 8, hmem⟩
  have hrun : (dirFs hiddenName dotsBlock).findEntry oneBlockDir [0x62#8] = .ok none := by
    rw [findEntry_eq, firstFound_none, searched_oneBlockDir]
    · intro c hc
      obtain rfl := List.mem_singleton.mp hc
      have hstops : Stops kibSb.blocksize hiddenName [0x62#8] := by decide +kernel
      exact hstops
    · exact fun b hb => (searched_subset b hb).1
    · exact fun b hb => wellFormedDir_hiddenName b (searched_subset b hb).2
  refine ⟨wellFormedDir_hiddenName, by decide +kernel, hlive, hrun, ?_⟩
  rintro (⟨ino, hfound, _⟩ | ⟨_, hnone⟩)
  · rw [hrun] at hfound
    cases hfound
  · exact hnone 21 hlive

end Fs

end Yak.Ext2
