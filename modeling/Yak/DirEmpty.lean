import Yak.DirBlocks
import Yak.DirRemove

/-!
# Is a directory empty?

A transcription of `empty_dir`, and of what `ext2_rmdir` and `ext2_rename` do with its answer.
It looks at the first block only, and at the records there whether they are in use or not.
-/

namespace Yak.Ext2

open ByteBitmap WordMemory RecordChain

def eacces : ℤ := 2
def ebusy : ℤ := 9
def eexist : ℤ := 19
def efault : ℤ := 20
def einval : ℤ := 27
def enotdir : ℤ := 56
def enotempty : ℤ := 57
def eperm : ℤ := 66

def sIfdir : ℕ := 0x4000

/-- `EXT2_S_ISDIR` -/
def isDir (mode : ℕ) : Prop := mode &&& sIfmt = sIfdir

instance (mode : ℕ) : Decidable (isDir mode) := inferInstanceAs (Decidable (_ = _))

namespace Fs

/-- `empty_dir`: whether the directory is not empty. -/
def emptyDir (fs : Fs) (dp : InodeM) : Except Halt Bool := do
  let size := fs.sb.blocksize
  let blk := fs.blocks (dp.iBlock 0)
  if (← matchAt size blk 0 dot) ≠ 0 then .ok true
  else
    let p := dRecLen blk 0
    if size ≤ p then .ok true
    else if (← matchAt size blk p dotDot) ≠ 0 then .ok true
    else .ok (decide (p + dRecLen blk p < size))

/-- What `ext2_rmdir` knows when `ext2_namei` has found the directory. -/
structure RmdirCall where
  /-- The path from its last component on. -/
  base : Name
  isRoot : Bool
  /-- `ext2_permission` allows to write to the parent. -/
  mayWrite : Bool
  /-- The sticky bit is set, and the caller owns neither of the directories. -/
  sticky : Bool
  /-- The block of the parent with the entry. -/
  parent : Bytes

/-- `ext2_rmdir` from there on: the code, the inode, and the block of the parent. -/
def rmdir (fs : Fs) (ip : InodeM) (call : RmdirCall) : Except Halt (ℤ × InodeM × Bytes) :=
  if call.base = dot then .ok (-einval, ip, call.parent)
  else if call.base.take 2 = dotDot then .ok (-enotempty, ip, call.parent)
  else do
    if ← fs.emptyDir ip then .ok (-enotempty, ip, call.parent)
    else if call.isRoot then .ok (-ebusy, ip, call.parent)
    else if ¬call.mayWrite then .ok (-eacces, ip, call.parent)
    else if ¬isDir ip.iMode then .ok (-enotdir, ip, call.parent)
    else if call.sticky then .ok (-eperm, ip, call.parent)
    else
      let e ← removeDirEntry fs.sb.blocksize call.parent ip.iNum call.base
      if e.ret < 0 then .ok (-enoent, ip, e.data)
      else
        .ok (0, { ip with
          iLinksCount := (ip.iLinksCount + (2 ^ 16 - 2)) % 2 ^ 16, modified := true }, e.data)

/-- What `ext2_rename` does about an inode at the new path: an error, or it goes on. -/
def renameTarget (fs : Fs) : Option InodeM → Except Halt (Option ℤ)
  | none => .ok none
  | some ip =>
      if ¬isDir ip.iMode then .ok (some (-eexist))
      else do
        if ← fs.emptyDir ip then .ok (some (-enotempty)) else .ok none

variable {fs : Fs} {dp : InodeM} {size p : ℕ} {blk : Bytes} {name : Name}

/-! ## Empty directories -/

/-- The block begins with the entries of the directory and of its parent. -/
def BeginsWithDots (size : ℕ) (blk : Bytes) : Prop :=
  ∃ q rest, records size blk = 0 :: q :: rest ∧ dName blk 0 = dot ∧ dName blk q = dotDot

/-- The name is one of the two which every directory has. -/
def IsDots (name : Name) : Prop := name = dot ∨ name = dotDot

instance (name : Name) : Decidable (IsDots name) := inferInstanceAs (Decidable (_ ∨ _))

/-- No live entry but these two. -/
def OnlyDots (fs : Fs) (dp : InodeM) : Prop := ∀ e ∈ fs.dirEntries dp, IsDots e.1

/-- `empty_dir` answers for the whole directory, and nobody discards one which has entries. -/
def JudgesEmpty (fs : Fs) (dp : InodeM) : Prop :=
  (fs.emptyDir dp = .ok false ↔ fs.OnlyDots dp) ∧
    (∀ call ip parent, fs.rmdir dp call = .ok (0, ip, parent) → fs.OnlyDots dp) ∧
    (fs.renameTarget (some dp) = .ok none → fs.OnlyDots dp)

/-! ## The answer -/

/-- It answers whether there is a record behind the two. -/
theorem emptyDir_eq (hwf : WellFormed fs.sb.blocksize (fs.blocks (dp.iBlock 0)))
    (hdots : BeginsWithDots fs.sb.blocksize (fs.blocks (dp.iBlock 0))) :
    fs.emptyDir dp =
      .ok (decide ((records fs.sb.blocksize (fs.blocks (dp.iBlock 0))).length ≠ 2)) := by
  obtain ⟨q, rest, hrecords, hdot, hdotDot⟩ := hdots
  have hchain := hwf.1
  have hzero : Inside fs.sb.blocksize (fs.blocks (dp.iBlock 0)) 0 :=
    hwf.inside (by rw [hrecords]; simp)
  have hq : Inside fs.sb.blocksize (fs.blocks (dp.iBlock 0)) q :=
    hwf.inside (by rw [hrecords]; simp)
  rw [hrecords] at hchain
  have htail := hchain.tail
  rw [Nat.zero_add] at htail
  obtain rfl := htail.head
  obtain ⟨r, hrun, hr⟩ := matchAt_ok dot hzero
  obtain ⟨r', hrun', hr'⟩ := matchAt_ok dotDot hq
  unfold emptyDir
  dsimp only
  rw [hrun, ok_bind, if_neg (not_not.mpr (hr.mpr hdot)), if_neg (Nat.not_le.mpr htail.lt), hrun',
    ok_bind, if_neg (not_not.mpr (hr'.mpr hdotDot)), hrecords]
  congr 1
  rw [decide_eq_decide]
  have hlast := htail.tail
  cases rest with
  | nil =>
      have hend : dRecLen (fs.blocks (dp.iBlock 0)) 0 +
        dRecLen (fs.blocks (dp.iBlock 0)) (dRecLen (fs.blocks (dp.iBlock 0)) 0) = _ := hlast
      rw [hend]
      simp
  | cons z zs => simp [hlast.lt]

theorem rmdir_discards {call : RmdirCall} {ip : InodeM} {parent : Bytes}
    (h : fs.rmdir dp call = .ok (0, ip, parent)) : fs.emptyDir dp = .ok false := by
  unfold rmdir at h
  split at h
  next => cases h
  next =>
    split at h
    next => cases h
    next =>
      obtain ⟨answer, hanswer, h⟩ := bind_eq_ok.mp h
      cases answer with
      | false => exact hanswer
      | true => cases h

theorem renameTarget_goesOn (h : fs.renameTarget (some dp) = .ok none) :
    fs.emptyDir dp = .ok false := by
  unfold renameTarget at h
  dsimp only at h
  split at h
  next => cases h
  next =>
    obtain ⟨answer, hanswer, h⟩ := bind_eq_ok.mp h
    cases answer with
    | false => exact hanswer
    | true => cases h

/-! ## Exactly when the answer is right -/

/-- The blocks behind the first one. -/
def laterBlocks (fs : Fs) (dp : InodeM) : List ℕ := (fs.dataBlocks dp).tail

theorem dataBlocks_eq (hb : dp.iBlock 0 ≠ 0) :
    fs.dataBlocks dp = dp.iBlock 0 :: fs.laterBlocks dp := by
  have hrange : List.range 15 = 0 :: (List.range 14).map Nat.succ := List.range_succ_eq_map
  have hfirst : IndexTree.leaves fs.pointer fs.indirBlocks (levelsOf 0) (dp.iBlock 0) =
      [dp.iBlock 0] := if_neg hb
  unfold laterBlocks dataBlocks
  rw [hrange, List.flatMap_cons, hfirst]
  rfl

/-- The entry of the parent ends the first block, and no later block has another live entry; or
it does not end the block, and there is another live entry. -/
def EmptyAgrees (fs : Fs) (dp : InodeM) : Prop :=
  if (records fs.sb.blocksize (fs.blocks (dp.iBlock 0))).length = 2 then
    ∀ b ∈ fs.laterBlocks dp, ∀ e ∈ entries fs.sb.blocksize (fs.blocks b), IsDots e.1
  else ∃ e ∈ fs.dirEntries dp, ¬IsDots e.1

/-- With two records only, the first block has no other entry. -/
theorem onlyDots_first (hdots : BeginsWithDots size blk) (hlen : (records size blk).length = 2) :
    ∀ e ∈ entries size blk, IsDots e.1 := by
  obtain ⟨q, rest, hrecords, hdot, hdotDot⟩ := hdots
  rw [hrecords] at hlen
  obtain rfl : rest = [] := List.length_eq_zero_iff.mp (by simpa using hlen)
  rintro ⟨name, ino⟩ he
  obtain ⟨_, p, hp, _, hname⟩ := mem_entries.mp he
  rw [hrecords] at hp
  have hcases : p = 0 ∨ p = q := by simpa using hp
  rcases hcases with rfl | rfl
  · exact Or.inl (hname.symm.trans hdot)
  · exact Or.inr (hname.symm.trans hdotDot)

/-- `ext2_empty_dir` is right about a directory exactly under this condition. -/
theorem judgesEmpty_iff (hb : dp.iBlock 0 ≠ 0) (hwf : fs.WellFormedDir dp)
    (hdots : BeginsWithDots fs.sb.blocksize (fs.blocks (dp.iBlock 0))) :
    fs.JudgesEmpty dp ↔ fs.EmptyAgrees dp := by
  have hanswer := emptyDir_eq (hwf _ (direct_mem_dataBlocks (by omega) hb)) hdots
  have hexact : fs.JudgesEmpty dp ↔ (fs.emptyDir dp = .ok false ↔ fs.OnlyDots dp) := by
    refine ⟨fun h => h.1, fun h => ⟨h, ?_, ?_⟩⟩
    · intro call ip parent hrun
      exact h.mp (rmdir_discards hrun)
    · intro hrun
      exact h.mp (renameTarget_goesOn hrun)
  rw [hexact, hanswer]
  unfold EmptyAgrees
  by_cases hlen : (records fs.sb.blocksize (fs.blocks (dp.iBlock 0))).length = 2
  · rw [if_pos hlen, decide_eq_false (not_not.mpr hlen)]
    have hfirst := onlyDots_first hdots hlen
    unfold OnlyDots
    simp only [mem_dirEntries, dataBlocks_eq hb]
    constructor
    · intro h b hlater e he
      exact h.mp trivial e ⟨b, List.mem_cons_of_mem _ hlater, he⟩
    · refine fun h => ⟨fun _ => ?_, fun _ => trivial⟩
      rintro e ⟨b, hmem, he⟩
      rcases List.mem_cons.mp hmem with rfl | hlater
      · exact hfirst e he
      · exact h b hlater e he
  · rw [if_neg hlen, decide_eq_true hlen]
    have hne : (Except.ok true : Except Halt Bool) ≠ .ok false := by simp
    unfold OnlyDots
    simp [hne]

/-! ## Two directories -/

/-- One entry. -/
def oneName : Bytes := blockOf [(0, recordBytes 21 1024 1#8 [0x62#8])]

theorem beginsWithDots_dotsBlock : BeginsWithDots kibSb.blocksize dotsBlock :=
  ⟨12, [], by decide, by decide, by decide⟩

theorem wellFormed_dotsBlock : WellFormed kibSb.blocksize dotsBlock := by decide

/-- Of an empty directory in one block it is right. -/
theorem judgesEmpty_oneBlockDir : (dirFs dotsBlock oneName).JudgesEmpty oneBlockDir := by
  refine (judgesEmpty_iff (by decide) ?_ beginsWithDots_dotsBlock).mpr ?_
  · intro b hb
    rw [dataBlocks_oneBlockDir] at hb
    rw [List.mem_singleton.mp hb]
    exact wellFormed_dotsBlock
  · unfold EmptyAgrees
    rw [if_pos (by decide +kernel)]
    intro b hb
    exact absurd hb List.not_mem_nil

/-- The second block of a directory is not looked at: `ext2_rmdir` discards it. -/
theorem not_judgesEmpty_twoBlockDir :
    (dirFs dotsBlock oneName).WellFormedDir twoBlockDir ∧
      BeginsWithDots kibSb.blocksize dotsBlock ∧
      ¬(dirFs dotsBlock oneName).JudgesEmpty twoBlockDir := by
  refine ⟨?_, beginsWithDots_dotsBlock, ?_⟩
  · intro b hb
    rw [dataBlocks_twoBlockDir] at hb
    have hcases : b = 8 ∨ b = 9 := by simpa using hb
    rcases hcases with rfl | rfl
    · exact wellFormed_dotsBlock
    · have hone : WellFormed kibSb.blocksize oneName := by decide +kernel
      exact hone
  · rintro ⟨hexact, -⟩
    have hanswer : (dirFs dotsBlock oneName).emptyDir twoBlockDir = .ok false := by
      rw [emptyDir_eq wellFormed_dotsBlock beginsWithDots_dotsBlock]
      have hlen : (records kibSb.blocksize dotsBlock).length = 2 := by decide +kernel
      exact congrArg Except.ok (decide_eq_false (not_not.mpr hlen))
    have hentry : (([0x62#8] : Name), 21) ∈ (dirFs dotsBlock oneName).dirEntries twoBlockDir := by
      have hmem : (([0x62#8] : Name), 21) ∈ entries kibSb.blocksize oneName := by decide +kernel
      refine mem_dirEntries.mpr ⟨9, ?_, hmem⟩
      rw [dataBlocks_twoBlockDir]
      decide
    exact absurd (hexact.mp hanswer _ hentry) (by decide)

end Fs

end Yak.Ext2
