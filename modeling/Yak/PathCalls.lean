import Yak.PathWalks
import Yak.SymlinkText

/-!
# Calls with a path

A transcription of `ext2_open`, `ext2_stat`, `ext2_chdir`, `ext2_chroot`, `ext2_unlink`,
`ext2_rmdir` and `ext2_rename`, each with what it does when `ext2_namei` has failed.  Times and the
counters of the groups are left out, and so are the calls of `ext2_iput` for an inode whose links the
call leaves alone.
-/

namespace Yak.Ext2

open ByteBitmap WordMemory InodeObject

def InodeObject.iUid (obj : Bytes) : ℕ := WordMemory.load16 obj 2

/-- `EXT2_S_ISVTX` -/
def sIsvtx : ℕ := 0x200

variable {name : Name} {res res' : FindCode} {bs : List ℕ}

/-! ## The buffer of a search -/

namespace Fs

/-- The search of the block finds the name. -/
def holds (fs : Fs) (name : Name) (b : ℕ) : Bool :=
  match fs.findEntryInBlock name b .nextBlock with
  | .ok r => r.1.isSome
  | .error _ => false

/-- The blocks of a directory in the order in which they are searched. -/
def searchOrder (fs : Fs) (dir : InodeM) : List ℕ :=
  directBlocks dir ++ (fs.reached 1 (dir.iBlock InodeM.indirectBlock) ++
    (fs.reached 2 (dir.iBlock InodeM.dindirectBlock) ++
      fs.reached 3 (dir.iBlock InodeM.tindirectBlock)))

/-- The block in which `find_entry` finds a name. -/
def foundIn (fs : Fs) (dir : InodeM) (name : Name) : Option ℕ :=
  (fs.searchOrder dir).find? (fs.holds name)

variable {fs : Fs} {dir : InodeM} {b : ℕ}

theorem findLoop_code {size fuel p : ℕ} {blk : Bytes} :
    (findLoop size blk name res fuel p).map Prod.fst =
      (findLoop size blk name res' fuel p).map Prod.fst := by
  induction fuel generalizing p with
  | zero => rfl
  | succ fuel ih =>
      rw [findLoop, findLoop]
      cases matchAt size blk p name with
      | error e => rfl
      | ok flag =>
          rw [ok_bind, ok_bind]
          split
          next => rfl
          next =>
            split
            next => rfl
            next =>
              dsimp only
              split
              next => rfl
              next =>
                split
                next => rfl
                next => exact ih

theorem findEntryInBlock_code (fs : Fs) (name : Name) (b : ℕ) (res res' : FindCode) :
    (fs.findEntryInBlock name b res).map Prod.fst =
      (fs.findEntryInBlock name b res').map Prod.fst := by
  unfold findEntryInBlock
  split
  next => rfl
  next => exact findLoop_code

theorem holds_iff (res : FindCode) : fs.holds name b = true ↔
    ∃ ino, (fs.findEntryInBlock name b res).map Prod.fst = .ok (some ino) := by
  rw [findEntryInBlock_code fs name b res .nextBlock]
  unfold holds
  cases fs.findEntryInBlock name b .nextBlock with
  | error e => simp [Except.map]
  | ok r => simp [Except.map, Option.isSome_iff_exists]

/-- What a search of the blocks has found is in the first of them which holds the name. -/
def FoundFirst (fs : Fs) (name : Name) (bs : List ℕ) : Option ℕ → Prop
  | none => bs.find? (fs.holds name) = none
  | some ino => ∃ b, bs.find? (fs.holds name) = some b ∧
      (fs.findEntryInBlock name b .nextBlock).map Prod.fst = .ok (some ino)

theorem foundFirst_of_scan {r : Option ℕ × FindCode} (h : fs.scanBlocks name bs res = .ok r) :
    fs.FoundFirst name bs r.1 := by
  induction bs generalizing res with
  | nil =>
      obtain rfl := Except.ok.inj h
      rfl
  | cons b bs ih =>
      rw [scanBlocks] at h
      obtain ⟨⟨found, next⟩, hblock, hrest⟩ := bind_eq_ok.mp h
      have hfst : (fs.findEntryInBlock name b res).map Prod.fst = .ok found := by
        rw [hblock]
        rfl
      cases found with
      | some ino =>
          obtain rfl := Except.ok.inj hrest
          have hholds : fs.holds name b = true := (holds_iff res).mpr ⟨ino, hfst⟩
          rw [findEntryInBlock_code fs name b res .nextBlock] at hfst
          exact ⟨b, List.find?_cons_of_pos hholds, hfst⟩
      | none =>
          have hnot : ¬fs.holds name b = true := by
            rw [holds_iff res, hfst]
            simp
          have hlater : fs.FoundFirst name bs r.1 := ih hrest
          unfold FoundFirst at hlater ⊢
          rw [List.find?_cons_of_neg hnot]
          exact hlater

theorem nextStage_some {r : Option ℕ × FindCode} {rest : FindCode → Except Halt (Option ℕ)}
    {ino : ℕ} (h : nextStage r rest = .ok (some ino)) :
    r.1 = some ino ∨ r.1 = none ∧ rest r.2 = .ok (some ino) := by
  unfold nextStage at h
  split at h
  next => exact Or.inl (Except.ok.inj h)
  next hnot =>
    rw [not_or] at hnot
    exact Or.inr ⟨by simpa using hnot.1, h⟩

/-- A name which is found is at this stage of `find_entry` or behind it. -/
theorem foundFirst_of_stage {r : Option ℕ × FindCode}
    {rest : FindCode → Except Halt (Option ℕ)} {ino : ℕ} {later : List ℕ}
    (hfirst : fs.FoundFirst name bs r.1) (h : nextStage r rest = .ok (some ino))
    (hrest : rest r.2 = .ok (some ino) → fs.FoundFirst name later (some ino)) :
    fs.FoundFirst name (bs ++ later) (some ino) := by
  unfold FoundFirst
  rw [List.find?_append]
  rcases nextStage_some h with hfound | ⟨hnone, h⟩
  · rw [hfound] at hfirst
    obtain ⟨b, hb, hin⟩ := hfirst
    exact ⟨b, by rw [hb, Option.some_or], hin⟩
  · rw [hnone] at hfirst
    have hnothing : bs.find? (fs.holds name) = none := hfirst
    rw [hnothing, Option.none_or]
    exact hrest h

theorem foundFirst_of_tree {d : ℕ} {r : Option ℕ × FindCode}
    (h : fs.findEntryTree name d b res = .ok r) : fs.FoundFirst name (fs.reached d b) r.1 :=
  foundFirst_of_scan (findEntryTree_eq.symm.trans h)

theorem foundFirst_of_direct {r : Option ℕ × FindCode}
    (h : fs.findEntryDirect dir name = .ok r) : fs.FoundFirst name (directBlocks dir) r.1 := by
  unfold findEntryDirect at h
  rw [findDirectLoop_eq] at h
  obtain ⟨x, hscan, hx⟩ := bind_eq_ok.mp h
  obtain rfl := Except.ok.inj hx
  have hfirst : fs.FoundFirst name (directBlocks dir) x.1 := foundFirst_of_scan hscan
  exact hfirst

/-- A name which is found is in the first block which holds it. -/
theorem foundIn_of_findEntry {ino : ℕ} (h : fs.findEntry dir name = .ok (some ino)) :
    ∃ b, fs.foundIn dir name = some b ∧
      (fs.findEntryInBlock name b .nextBlock).map Prod.fst = .ok (some ino) := by
  change fs.FoundFirst name (fs.searchOrder dir) (some ino)
  unfold findEntry at h
  obtain ⟨r, hdirect, h⟩ := bind_eq_ok.mp h
  refine foundFirst_of_stage (foundFirst_of_direct hdirect) h fun h => ?_
  obtain ⟨r, hindirect, h⟩ := bind_eq_ok.mp h
  refine foundFirst_of_stage (foundFirst_of_tree hindirect) h fun h => ?_
  obtain ⟨r, hdindirect, h⟩ := bind_eq_ok.mp h
  refine foundFirst_of_stage (foundFirst_of_tree hdindirect) h fun h => ?_
  obtain ⟨r, htindirect, h⟩ := bind_eq_ok.mp h
  have hfound : r.1 = some ino := Except.ok.inj h
  exact hfound ▸ foundFirst_of_tree htindirect

/-- `ext2_remove_dir_entry` with the name and the buffer which `ext2_namei` has left. -/
def removeAt (fs : Fs) (base : Option Name) (ino : ℕ) (bp : Bp) : Except Halt (ℤ × Fs) :=
  match bp, base with
  | .null, _ => .error .nullDeref
  -- a pointer was not set
  | .unset, _ => .error .outOfBounds
  | .block _, none => .error .outOfBounds
  | .block b, some name => do
      let e ← removeDirEntry fs.sb.blocksize (fs.blocks b) ino name
      .ok (e.ret, fs.setBlock b e.data)

end Fs

/-! ## The calls -/

namespace Volume

/-- The inodes with the searches of `find_entry`. -/
def searches (v : Volume) : Searches ℕ where
  toTree := v.tree
  ends num name := decide (v.fs.findEntry (v.inode num) name ≠ .error .endless)
  buffer num name bp :=
    if (v.tree.lookup num name).isSome then
      (v.fs.foundIn (v.inode num) name).elim .null .block
    else if (v.inode num).iBlock 0 = 0 then bp
    else .null

/-- `ext2_open` -/
def callOpen (fuel : ℕ) (v : Volume) (root cwd : ℕ) (path : Name) (flags mode : ℕ) :
    Except Halt Created := do
  let (w, _) ← v.searches.namei fuel root cwd true path .unset
  v.openAt fuel w flags mode

/-- `ext2_stat`: the inode which is described, or the code. -/
def callStat (fuel : ℕ) (v : Volume) (root cwd : ℕ) (path : Name) : Except Halt (Except ℤ ℕ) := do
  let (w, _) ← v.searches.namei fuel root cwd true path .unset
  match w.result with
  | .error err => .ok (.error err)
  | .ok num =>
      if isLnk (v.inode num).iMode then do
        let (target, _) ← v.searches.namei fuel root w.dir false (v.tree.text num) .unset
        match target.result with
        | .error err => if err = -eio then .ok (.error err) else .error .nullDeref
        | .ok num => .ok (.ok num)
      else .ok (.ok num)

/-- `ext2_chdir`: the code and the working directory.  The byte which ends the path is never a
slash. -/
def callChdir (fuel : ℕ) (v : Volume) (root cwd : ℕ) (path : Name) : Except Halt (ℤ × ℕ) := do
  let (w, _) ← v.searches.namei fuel root cwd true path .unset
  match w.result with
  | .error err => .ok (err, cwd)
  | .ok num => .ok (0, num)

/-- The end of `ext2_chroot`. -/
def enterRoot (v : Volume) (root num : ℕ) : ℤ × ℕ :=
  if isDir (v.inode num).iMode then (0, num) else (-enotdir, root)

/-- `ext2_chroot`: the code and the root directory. -/
def callChroot (fuel : ℕ) (v : Volume) (root cwd : ℕ) (path : Name) : Except Halt (ℤ × ℕ) := do
  let (w, _) ← v.searches.namei fuel root cwd true path .unset
  match w.result with
  | .error err =>
      if err ≠ enoent then .ok (err, root)
      else
        match w.base with
        | none => .error .outOfBounds
        | some [] => .ok (-enoent, root)
        | some (c :: rest) =>
            -- the loop moves `p` and tests `tmp`
            if c ≠ slash then .error .endless
            else if rest ≠ [] then .ok (-enoent, root)
            else .ok (v.enterRoot root w.dir)
  | .ok num => .ok (v.enterRoot root num)

/-- How often the walk holds an inode: it may be the last directory as well. -/
def held (num dir : ℕ) : ℕ := if num = dir then 2 else 1

/-- `ext2_iput` for an inode which has lost links, and which the walk holds. -/
def drop (v : Volume) (num refs lost : ℕ) : Except Halt Volume := do
  let ip := v.inode num
  let (fs, ip) ← v.fs.iput { ip with
    iLinksCount := (ip.iLinksCount + (2 ^ 16 - lost)) % 2 ^ 16
    iCount := ip.iCount + refs
    modified := true }
  .ok ({ v with fs }.putInode num ip)

/-- `ext2_unlink` -/
def callUnlink (fuel : ℕ) (v : Volume) (root cwd : ℕ) (path : Name) : Except Halt (ℤ × Volume) := do
  let (w, bp) ← v.searches.namei fuel root cwd true path .unset
  match w.result with
  | .error err => if bp = .unset then .error .outOfBounds else .ok (err, v)
  | .ok num =>
      if v.permission w.dir permWrite = false then .ok (-eacces, v)
      else if num = root then .ok (-ebusy, v)
      else do
        let (ret, fs) ← v.fs.removeAt w.base (v.inode num).iNum bp
        let v ← { v with fs }.drop num (held num w.dir) 1
        .ok (ret, v)

/-- What `ext2_rmdir` tests about the inode and its parent. -/
def rmdirCall (v : Volume) (root num dir : ℕ) (base : Name) (parent : Bytes) : Fs.RmdirCall where
  base
  isRoot := decide (num = root)
  mayWrite := v.permission dir permWrite
  sticky := decide ((v.inode num).iMode &&& sIsvtx ≠ 0 ∧
    v.euid ≠ iUid (v.object num) ∧ v.euid ≠ iUid (v.object dir))
  parent

/-- The end of `ext2_rmdir`, when the entry is gone. -/
def dropDirs (v : Volume) (num dir : ℕ) : Except Halt Volume := do
  let v ← v.drop num (held num dir) 2
  if num = dir then .ok v else v.drop dir 1 1

/-- `ext2_rmdir` -/
def callRmdir (fuel : ℕ) (v : Volume) (root cwd : ℕ) (path : Name) : Except Halt (ℤ × Volume) := do
  let (w, bp) ← v.searches.namei fuel root cwd true path .null
  match w.result with
  | .error err => .ok (err, v)
  | .ok num =>
      match w.base, bp with
      | some base, .block b => do
          -- the links of the inode are lowered in `dropDirs`
          let (ret, _, parent) ←
            v.fs.rmdir (v.inode num) (v.rmdirCall root num w.dir base (v.fs.blocks b))
          let removed := { v with fs := v.fs.setBlock b parent }
          if ret ≠ 0 then .ok (ret, removed)
          else do
            let v ← removed.dropDirs num w.dir
            .ok (0, v)
      -- the name was not set
      | _, _ => .error .outOfBounds

/-- `ext2_rename` from the second call of `ext2_namei` on, for the inode which it moves. -/
def renameTo (fuel : ℕ) (v : Volume) (root cwd : ℕ) (old : Name) (moved : ℕ) (bp : Bp)
    (new : Name) : Except Halt (ℤ × Volume) := do
  let (w, _) ← v.searches.namei fuel root cwd true new .unset
  match ← v.fs.renameTarget (w.result.toOption.map v.inode) with
  | some err => .ok (err, v)
  | none => do
      let ip := v.inode moved
      let (_, fs) ← v.fs.removeAt (some old) ip.iNum bp
      match w.base with
      | none => .error .outOfBounds
      | some name => do
          -- what the two calls return is not looked at
          let r ← addDirEntry fuel fs (v.inode w.dir) ⟨ip.iNum, ip.iMode⟩ name
          .ok (0, { v with fs := r.fs }.putInode w.dir r.dir)

/-- `ext2_rename` -/
def callRename (fuel : ℕ) (v : Volume) (root cwd : ℕ) (old new : Name) :
    Except Halt (ℤ × Volume) := do
  let (w, bp) ← v.searches.namei fuel root cwd true old .null
  match w.base with
  | none => .error .outOfBounds
  | some name =>
      if name = dotDot ∨ name = dot then .ok (-einval, v)
      else
        match w.result with
        | .ok num => v.renameTo fuel root cwd name num bp new
        | .error err =>
            if err ≠ -enoent then .ok (err, v)
            else if slash ∉ name then .ok (-enoent, v)
            -- a name which was not found, and a slash: the directory itself is moved
            else v.renameTo fuel root cwd name w.dir bp new

end Volume

/-- A call with its arguments. -/
inductive PathCall where
  | openFile (path : Name) (flags mode : ℕ)
  | stat (path : Name)
  | chdir (path : Name)
  | chroot (path : Name)
  | unlink (path : Name)
  | rmdir (path : Name)
  | rename (old new : Name)

/-- The call reaches a return, without a pointer which is NULL or was not set. -/
def PathCall.Returns (v : Volume) (root cwd : ℕ) : PathCall → Prop
  | .openFile path flags mode => ∃ fuel c, v.callOpen fuel root cwd path flags mode = .ok c
  | .stat path => ∃ fuel c, v.callStat fuel root cwd path = .ok c
  | .chdir path => ∃ fuel c, v.callChdir fuel root cwd path = .ok c
  | .chroot path => ∃ fuel c, v.callChroot fuel root cwd path = .ok c
  | .unlink path => ∃ fuel c, v.callUnlink fuel root cwd path = .ok c
  | .rmdir path => ∃ fuel c, v.callRmdir fuel root cwd path = .ok c
  | .rename old new => ∃ fuel c, v.callRename fuel root cwd old new = .ok c

namespace Volume

variable {v : Volume} {root cwd num fuel mode flags : ℕ} {path : Name} {e : WalkEnd ℕ}
  {looked : List (ℕ × Name)}

/-! ## Walks of the volume -/

/-- What a search of a directory leaves in `*last_dir_bp`. -/
theorem buffer_of_lookup {next : ℕ} (bp : Bp) (h : v.tree.lookup num name = some next) :
    ∃ b, v.searches.buffer num name bp = .block b ∧
      v.fs.foundIn (v.inode num) name = some b ∧
      (v.fs.findEntryInBlock name b .nextBlock).map Prod.fst = .ok (some next) := by
  have hfound : v.fs.findEntry (v.inode num) name = .ok (some next) := by
    have hlookup : (v.fs.findEntry (v.inode num) name).toOption.join = some next := h
    cases hsearch : v.fs.findEntry (v.inode num) name with
    | error e =>
        rw [hsearch] at hlookup
        cases hlookup
    | ok found =>
        rw [hsearch] at hlookup
        exact congrArg Except.ok hlookup
  obtain ⟨b, hb, hin⟩ := Fs.foundIn_of_findEntry hfound
  refine ⟨b, ?_, hb, hin⟩
  unfold searches
  dsimp only
  rw [h, hb]
  rfl

theorem bufferBehind_concat {r : Searches ℕ} {front : List (ℕ × Name)} {x : ℕ × Name} {bp : Bp} :
    r.bufferBehind (front ++ [x]) bp = r.buffer x.1 x.2 (r.bufferBehind front bp) := by
  unfold Searches.bufferBehind
  rw [List.foldl_append]
  rfl

/-! ## More fuel -/

theorem addDirEntry_mono {fs : Fs} {dir : InodeM} {ip : Linked} {r : Added} {fuel' : ℕ}
    (h : addDirEntry fuel fs dir ip name = .ok r) (hle : fuel ≤ fuel') :
    addDirEntry fuel' fs dir ip name = .ok r := by
  unfold addDirEntry at h ⊢
  split at h
  next hempty => rwa [if_pos hempty]
  next hempty =>
    rw [if_neg hempty]
    obtain ⟨⟨block, fs', dir'⟩, hcreate, h⟩ := bind_eq_ok.mp h
    rw [hcreate, ok_bind]
    dsimp only at h ⊢
    split at h
    next hblock => rwa [if_pos hblock]
    next hblock =>
      rw [if_neg hblock]
      split at h
      next => cases h
      next hsize =>
        rw [if_neg hsize]
        split at h
        next hfirst => rwa [if_pos hfirst]
        next hfirst =>
          rw [if_neg hfirst]
          exact BoundedLoop.run_mono h hle

theorem newFile_mono {dir dev fuel' : ℕ} {c : Created}
    (h : v.newFile fuel name dir mode dev = .ok c) (hle : fuel ≤ fuel') :
    v.newFile fuel' name dir mode dev = .ok c := by
  unfold newFile at h ⊢
  obtain ⟨⟨num, fs⟩, hialloc, h⟩ := bind_eq_ok.mp h
  rw [hialloc, ok_bind]
  dsimp only at h ⊢
  split at h
  next hnum => rwa [if_pos hnum]
  next hnum =>
    rw [if_neg hnum]
    split at h
    next hget => rwa [if_pos hget]
    next hget =>
      rw [if_neg hget]
      obtain ⟨r, hadd, h⟩ := bind_eq_ok.mp h
      rw [addDirEntry_mono hadd hle]
      exact h

/-- With enough fuel, the run comes back. -/
def ComesBack {α : Type} (run : ℕ → Except Halt α) : Prop :=
  ∃ least, ∀ fuel, least ≤ fuel → ∃ c, run fuel = .ok c

theorem ComesBack.returns {α : Type} {run : ℕ → Except Halt α} (h : ComesBack run) :
    ∃ fuel c, run fuel = .ok c := by
  obtain ⟨least, hrun⟩ := h
  exact ⟨least, hrun least le_rfl⟩

theorem comesBack_of_ok {α : Type} {x : Except Halt α} {c : α} (h : x = .ok c) :
    ComesBack fun _ => x := ⟨0, fun _ _ => ⟨c, h⟩⟩

section Walks

variable {α : Type} {lastDir : Bool} {bp : Bp}

theorem exists_walk_of_ok {rest : Outcome ℕ × Bp → Except Halt α} {c : α}
    (h : v.searches.namei fuel root cwd lastDir path bp >>= rest = .ok c) :
    ∃ w looked, Walk v.searches root .arrive lastDir (startOf root cwd path)
      (Place.begin (startOf root cwd path) path) looked (endOf w) ∧
      rest (w, v.searches.bufferBehind looked bp) = .ok c := by
  obtain ⟨⟨w, bp'⟩, hrun, hrest⟩ := bind_eq_ok.mp h
  obtain ⟨looked, hwalk, rfl⟩ := Searches.walk_of_namei hrun
  exact ⟨w, looked, hwalk, hrest⟩

theorem comesBack_of_walk {rest : ℕ → Outcome ℕ × Bp → Except Halt α}
    (h : Walk v.searches root .arrive lastDir (startOf root cwd path)
      (Place.begin (startOf root cwd path) path) looked e)
    (hrest : ∀ w, endOf w = e →
      ComesBack fun fuel => rest fuel (w, v.searches.bufferBehind looked bp)) :
    ComesBack fun fuel => v.searches.namei fuel root cwd lastDir path bp >>= rest fuel := by
  obtain ⟨least, w, hsame, hrun⟩ := Searches.namei_of_walk h
  obtain ⟨least', hback⟩ := hrest w hsame
  refine ⟨max least least', fun fuel hfuel => ?_⟩
  dsimp only
  rw [hrun bp fuel (le_of_max_le_left hfuel)]
  exact hback fuel (le_of_max_le_right hfuel)

end Walks

/-! ## When the calls return -/

/-- `ext2_open` with `O_TRUNC` comes to the truncation. -/
def Truncates (v : Volume) (num flags : ℕ) : Prop :=
  (flags &&& oAccmode ≠ oWronly → v.permission num permRead = true) ∧
    (flags &&& oAccmode ≠ oRdonly → v.permission num permWrite = true ∧
      ¬isDir (v.inode num).iMode) ∧
    flags &&& oTrunc ≠ 0 ∧ isReg (v.inode num).iMode

/-- The path leads to an inode, which can be truncated if it has to be; or the file is created: the
last directory is a directory, the rest of the path is a name, and the inode can be made. -/
def OpenSafe (v : Volume) (flags mode : ℕ) (e : WalkEnd ℕ) : Prop :=
  match e.result with
  | .ok num => v.Truncates num flags → ∃ x, v.fs.itrunc (v.inode num) = .ok x
  | .error _ => flags &&& oCreat ≠ 0 ∧ isDir (v.inode e.dir).iMode ∧
      ∃ name, e.base = some name ∧ slash ∉ name ∧
        ∃ fuel c num, v.newFile fuel name e.dir mode 0 = .ok c ∧ c.result = .ok num

/-- A link at the end of the path leads to an inode. -/
def StatSafe (v : Volume) (root : ℕ) (e : WalkEnd ℕ) : Prop :=
  ∀ num, e.result = .ok num → isLnk (v.inode num).iMode →
    ∃ looked target found, FollowsTo v.searches root e.dir (v.tree.text num) looked target ∧
      target.result = .ok found

/-- When the path leads nowhere, a block has been searched on the way.  When it leads to an inode
which may be removed, it has a last name, the removal stays in its block, and if the inode has lost
its last link and is put for the last time, its blocks and its number can be freed. -/
def UnlinkSafe (v : Volume) (root : ℕ) (bp : Bp) (e : WalkEnd ℕ) : Prop :=
  match e.result with
  | .error _ => bp ≠ .unset
  | .ok num => v.permission e.dir permWrite = true → num ≠ root →
      ∃ x y, v.fs.removeAt e.base (v.inode num).iNum bp = .ok x ∧
        { v with fs := x.2 }.drop num (held num e.dir) 1 = .ok y

/-- When the path leads to an inode, it has a last name, the rest of the call stays in its blocks,
and what the inode and its parent lose with their last link can be freed. -/
def RmdirSafe (v : Volume) (root : ℕ) (bp : Bp) (e : WalkEnd ℕ) : Prop :=
  ∀ num, e.result = .ok num → ∃ name b x, e.base = some name ∧ bp = .block b ∧
    v.fs.rmdir (v.inode num) (v.rmdirCall root num e.dir name (v.fs.blocks b)) = .ok x ∧
      (x.1 = 0 → ∃ y, { v with fs := v.fs.setBlock b x.2.2 }.dropDirs num e.dir = .ok y)

/-- The inode which `ext2_rename` moves: the last directory, when the name was not found. -/
def moved (e : WalkEnd ℕ) : ℕ :=
  match e.result with
  | .ok num => num
  | .error _ => e.dir

/-- `ext2_rename` goes on to the second path. -/
def GoesOn (name : Name) (e : WalkEnd ℕ) : Prop :=
  ¬(name = dotDot ∨ name = dot) ∧ ∀ err, e.result = .error err → err = -enoent ∧ slash ∈ name

/-- The second path leads to something which is not replaced; or it has a last name, the old name
is removed from the block in which it was found, and the new one is added. -/
def MoveSafe (v : Volume) (old : Name) (num : ℕ) (bp : Bp) (e : WalkEnd ℕ) : Prop :=
  ∃ answer, v.fs.renameTarget (e.result.toOption.map v.inode) = .ok answer ∧
    (answer = none → ∃ x name fuel r, v.fs.removeAt (some old) (v.inode num).iNum bp = .ok x ∧
      e.base = some name ∧
      addDirEntry fuel x.2 (v.inode e.dir) ⟨(v.inode num).iNum, (v.inode num).iMode⟩ name = .ok r)

/-- The first path has a last name.  When the call goes on, the second path has a walk. -/
def RenameSafe (v : Volume) (root cwd : ℕ) (new : Name) (bp : Bp) (e : WalkEnd ℕ) : Prop :=
  ∃ name, e.base = some name ∧ (GoesOn name e → ∃ looked e',
    WalksTo v.searches root cwd new looked e' ∧ v.MoveSafe name (moved e) bp e')

theorem openAt_returns {w : Outcome ℕ} {c : Created}
    (h : v.openAt fuel w flags mode = .ok c) : v.OpenSafe flags mode (endOf w) := by
  unfold openAt at h
  unfold OpenSafe endOf
  dsimp only
  split at h
  next hresult =>
    rw [hresult]
    dsimp only
    split at h
    next => cases h
    next hcreat =>
      split at h
      next => cases h
      next hdir =>
        split at h
        next => cases h
        next name hbase =>
          split at h
          next => cases h
          next hslash =>
            obtain ⟨c', hnew, hrest⟩ := bind_eq_ok.mp h
            split at hrest
            next => cases hrest
            next num hnum =>
              exact ⟨hcreat, not_not.mp hdir, name, hbase, hslash, fuel, c', num, hnew, hnum⟩
  next num hresult =>
    rw [hresult]
    rintro ⟨hread, hwrite, htrunc, hreg⟩
    rw [if_neg, if_neg, if_neg, if_pos ⟨htrunc, hreg⟩] at h
    · obtain ⟨x, hx, -⟩ := bind_eq_ok.mp h
      exact ⟨x, hx⟩
    · exact fun hall => (hwrite hall.1).2 hall.2
    · exact fun hall => by simp [(hwrite hall.1).1] at hall
    · exact fun hall => by simp [hread hall.1] at hall

theorem openAt_comesBack {w : Outcome ℕ} (h : v.OpenSafe flags mode (endOf w)) :
    ComesBack fun fuel => v.openAt fuel w flags mode := by
  unfold OpenSafe endOf at h
  dsimp only at h
  cases hresult : w.result with
  | error err =>
      rw [hresult] at h
      obtain ⟨hcreat, hdir, name, hbase, hslash, least, c, num, hnew, hnum⟩ := h
      refine ⟨least, fun fuel hfuel => ⟨c, ?_⟩⟩
      unfold openAt
      rw [hresult]
      dsimp only
      rw [if_neg hcreat, if_neg (not_not.mpr hdir), hbase]
      dsimp only
      rw [if_neg hslash, newFile_mono hnew hfuel, ok_bind, hnum]
  | ok num =>
      rw [hresult] at h
      refine ⟨0, fun fuel _ => ?_⟩
      unfold openAt
      rw [hresult]
      dsimp only
      split
      next => exact ⟨_, rfl⟩
      next hread =>
        split
        next => exact ⟨_, rfl⟩
        next hwrite =>
          split
          next => exact ⟨_, rfl⟩
          next hdir =>
            split
            next htrunc =>
              obtain ⟨x, hx⟩ := h ⟨fun hmode => by simpa [hmode] using hread,
                fun hmode => ⟨by simpa [hmode] using hwrite, fun hin => hdir ⟨hmode, hin⟩⟩, htrunc⟩
              rw [hx]
              exact ⟨_, rfl⟩
            next => exact ⟨_, rfl⟩

theorem callOpen_iff : (∃ fuel c, v.callOpen fuel root cwd path flags mode = .ok c) ↔
    ∃ looked e, WalksTo v.searches root cwd path looked e ∧ v.OpenSafe flags mode e := by
  constructor
  · rintro ⟨fuel, c, h⟩
    obtain ⟨w, looked, hwalk, hrest⟩ := exists_walk_of_ok h
    exact ⟨_, _, hwalk, openAt_returns hrest⟩
  · rintro ⟨looked, e, hwalk, hsafe⟩
    refine (comesBack_of_walk hwalk fun w hsame => ?_).returns
    exact openAt_comesBack (hsame ▸ hsafe)

theorem callChdir_iff : (∃ fuel c, v.callChdir fuel root cwd path = .ok c) ↔
    ∃ looked e, WalksTo v.searches root cwd path looked e := by
  constructor
  · rintro ⟨fuel, c, h⟩
    obtain ⟨w, looked, hwalk, -⟩ := exists_walk_of_ok h
    exact ⟨_, _, hwalk⟩
  · rintro ⟨looked, e, hwalk⟩
    refine (comesBack_of_walk hwalk fun w hsame => ⟨0, fun fuel _ => ?_⟩).returns
    cases hresult : w.result <;> simp [hresult]

/-- The error codes are negative, so that the loop is never reached. -/
theorem ne_enoent_of_walk {phase : Phase} {lastDir : Bool} {start : ℕ} {p : Place ℕ} {err : ℤ}
    (h : Walk v.searches root phase lastDir start p looked e) (hresult : e.result = .error err) :
    err ≠ enoent := by
  rcases h.error_cases hresult with rfl | rfl | rfl <;> decide

theorem callChroot_iff : (∃ fuel c, v.callChroot fuel root cwd path = .ok c) ↔
    ∃ looked e, WalksTo v.searches root cwd path looked e := by
  constructor
  · rintro ⟨fuel, c, h⟩
    obtain ⟨w, looked, hwalk, -⟩ := exists_walk_of_ok h
    exact ⟨_, _, hwalk⟩
  · rintro ⟨looked, e, hwalk⟩
    refine (comesBack_of_walk hwalk fun w hsame => ⟨0, fun fuel _ => ?_⟩).returns
    subst hsame
    dsimp only
    cases hresult : w.result with
    | ok num => exact ⟨_, rfl⟩
    | error err =>
        dsimp only
        rw [if_pos (ne_enoent_of_walk hwalk hresult)]
        exact ⟨_, rfl⟩

theorem callStat_iff : (∃ fuel c, v.callStat fuel root cwd path = .ok c) ↔
    ∃ looked e, WalksTo v.searches root cwd path looked e ∧ v.StatSafe root e := by
  constructor
  · rintro ⟨fuel, c, h⟩
    obtain ⟨w, looked, hwalk, hrest⟩ := exists_walk_of_ok h
    refine ⟨_, _, hwalk, fun num hnum hlink => ?_⟩
    have hresult : w.result = .ok num := hnum
    dsimp only at hrest
    rw [hresult] at hrest
    dsimp only at hrest
    rw [if_pos hlink] at hrest
    obtain ⟨target, inner, hfollow, hrest⟩ := exists_walk_of_ok hrest
    cases htarget : target.result with
    | ok found => exact ⟨_, _, found, hfollow, htarget⟩
    | error err =>
        dsimp only at hrest
        rw [htarget] at hrest
        dsimp only at hrest
        rw [if_neg] at hrest
        · cases hrest
        · rcases hfollow.error_cases htarget with rfl | rfl | rfl <;> decide
  · rintro ⟨looked, e, hwalk, hsafe⟩
    refine (comesBack_of_walk hwalk fun w hsame => ?_).returns
    subst hsame
    dsimp only
    cases hresult : w.result with
    | error err => exact comesBack_of_ok rfl
    | ok num =>
        dsimp only
        by_cases hlink : isLnk (v.inode num).iMode
        · obtain ⟨inner, target, found, hfollow, hfound⟩ := hsafe num hresult hlink
          simp only [if_pos hlink]
          refine comesBack_of_walk hfollow fun w' hsame' => ?_
          subst hsame'
          have hresult' : w'.result = .ok found := hfound
          dsimp only
          rw [hresult']
          exact comesBack_of_ok rfl
        · simp only [if_neg hlink]
          exact comesBack_of_ok rfl

theorem callUnlink_iff : (∃ fuel c, v.callUnlink fuel root cwd path = .ok c) ↔
    ∃ looked e, WalksTo v.searches root cwd path looked e ∧
      v.UnlinkSafe root (v.searches.bufferBehind looked .unset) e := by
  constructor
  · rintro ⟨fuel, c, h⟩
    obtain ⟨w, looked, hwalk, hrest⟩ := exists_walk_of_ok h
    refine ⟨_, _, hwalk, ?_⟩
    unfold UnlinkSafe endOf
    dsimp only at hrest ⊢
    cases hresult : w.result with
    | error err =>
        rw [hresult] at hrest
        intro hunset
        dsimp only at hrest
        rw [if_pos hunset] at hrest
        cases hrest
    | ok num =>
        rw [hresult] at hrest
        intro hwrite hroot
        dsimp only at hrest
        rw [if_neg (by simp [hwrite]), if_neg hroot] at hrest
        obtain ⟨x, hx, hrest⟩ := bind_eq_ok.mp hrest
        obtain ⟨y, hy, -⟩ := bind_eq_ok.mp hrest
        exact ⟨x, y, hx, hy⟩
  · rintro ⟨looked, e, hwalk, hsafe⟩
    refine (comesBack_of_walk hwalk fun w hsame => ⟨0, fun fuel _ => ?_⟩).returns
    subst hsame
    unfold UnlinkSafe endOf at hsafe
    dsimp only at hsafe ⊢
    cases hresult : w.result with
    | error err =>
        rw [hresult] at hsafe
        exact ⟨_, if_neg hsafe⟩
    | ok num =>
        rw [hresult] at hsafe
        dsimp only
        split
        next => exact ⟨_, rfl⟩
        next hwrite =>
          split
          next => exact ⟨_, rfl⟩
          next hroot =>
            obtain ⟨x, y, hx, hy⟩ := hsafe (by simpa using hwrite) hroot
            rw [hx, ok_bind, hy]
            exact ⟨_, rfl⟩

theorem callRmdir_iff : (∃ fuel c, v.callRmdir fuel root cwd path = .ok c) ↔
    ∃ looked e, WalksTo v.searches root cwd path looked e ∧
      v.RmdirSafe root (v.searches.bufferBehind looked .null) e := by
  constructor
  · rintro ⟨fuel, c, h⟩
    obtain ⟨w, looked, hwalk, hrest⟩ := exists_walk_of_ok h
    refine ⟨_, _, hwalk, fun num hnum => ?_⟩
    have hresult : w.result = .ok num := hnum
    dsimp only at hrest
    rw [hresult] at hrest
    dsimp only at hrest
    split at hrest
    next name b hbase hbp =>
      obtain ⟨x, hx, hrest⟩ := bind_eq_ok.mp hrest
      refine ⟨name, b, x, hbase, hbp, hx, fun hzero => ?_⟩
      rw [if_neg (not_not.mpr hzero)] at hrest
      obtain ⟨y, hy, -⟩ := bind_eq_ok.mp hrest
      exact ⟨y, hy⟩
    next => cases hrest
  · rintro ⟨looked, e, hwalk, hsafe⟩
    refine (comesBack_of_walk hwalk fun w hsame => ⟨0, fun fuel _ => ?_⟩).returns
    subst hsame
    dsimp only
    cases hresult : w.result with
    | error err => exact ⟨_, rfl⟩
    | ok num =>
        obtain ⟨name, b, x, hbase, hbp, hx, hdrop⟩ := hsafe num hresult
        have hname : w.base = some name := hbase
        unfold endOf at hx hdrop
        dsimp only at hx hdrop ⊢
        rw [hname, hbp]
        dsimp only
        rw [hx, ok_bind]
        by_cases hzero : x.1 = 0
        · obtain ⟨y, hy⟩ := hdrop hzero
          rw [if_neg (not_not.mpr hzero), hy]
          exact ⟨_, rfl⟩
        · exact ⟨_, if_pos hzero⟩

theorem renameTo_returns {old new : Name} {bp : Bp} {c : ℤ × Volume}
    (h : v.renameTo fuel root cwd old num bp new = .ok c) :
    ∃ looked e, WalksTo v.searches root cwd new looked e ∧ v.MoveSafe old num bp e := by
  obtain ⟨w, looked, hwalk, hrest⟩ := exists_walk_of_ok h
  obtain ⟨answer, hanswer, hrest⟩ := bind_eq_ok.mp hrest
  refine ⟨_, _, hwalk, answer, hanswer, ?_⟩
  rintro rfl
  obtain ⟨x, hx, hrest⟩ := bind_eq_ok.mp hrest
  dsimp only at hrest
  split at hrest
  next => cases hrest
  next name hbase =>
    obtain ⟨r, hr, -⟩ := bind_eq_ok.mp hrest
    exact ⟨x, name, fuel, r, hx, hbase, hr⟩

theorem renameTo_comesBack {old new : Name} {bp : Bp}
    (hwalk : WalksTo v.searches root cwd new looked e) (hsafe : v.MoveSafe old num bp e) :
    ComesBack fun fuel => v.renameTo fuel root cwd old num bp new := by
  refine comesBack_of_walk hwalk fun w hsame => ?_
  subst hsame
  obtain ⟨answer, hanswer, hmove⟩ := hsafe
  unfold endOf at hanswer hmove
  dsimp only at hanswer hmove ⊢
  rw [hanswer]
  cases answer with
  | some err => exact comesBack_of_ok rfl
  | none =>
      obtain ⟨x, name, least, r, hx, hbase, hr⟩ := hmove rfl
      refine ⟨least, fun fuel hfuel => ?_⟩
      simp only [ok_bind, hx, hbase, addDirEntry_mono hr hfuel]
      exact ⟨_, rfl⟩

theorem callRename_iff {old new : Name} :
    (∃ fuel c, v.callRename fuel root cwd old new = .ok c) ↔
      ∃ looked e, WalksTo v.searches root cwd old looked e ∧
        v.RenameSafe root cwd new (v.searches.bufferBehind looked .null) e := by
  constructor
  · rintro ⟨fuel, c, h⟩
    obtain ⟨w, looked, hwalk, hrest⟩ := exists_walk_of_ok h
    refine ⟨_, _, hwalk, ?_⟩
    dsimp only at hrest
    split at hrest
    next => cases hrest
    next name hbase =>
      refine ⟨name, hbase, fun hgoes => ?_⟩
      obtain ⟨hdots, herror⟩ := hgoes
      rw [if_neg hdots] at hrest
      unfold moved endOf
      unfold endOf at herror
      dsimp only at herror ⊢
      cases hresult : w.result with
      | ok num =>
          rw [hresult] at hrest
          exact renameTo_returns hrest
      | error err =>
          rw [hresult] at hrest
          obtain ⟨rfl, hslash⟩ := herror err hresult
          dsimp only at hrest
          rw [if_neg (not_not.mpr rfl), if_neg (not_not.mpr hslash)] at hrest
          exact renameTo_returns hrest
  · rintro ⟨looked, e, hwalk, name, hbase, hsafe⟩
    refine (comesBack_of_walk hwalk fun w hsame => ?_).returns
    subst hsame
    have hname : w.base = some name := hbase
    unfold GoesOn moved endOf at hsafe
    dsimp only at hsafe ⊢
    rw [hname]
    dsimp only
    by_cases hdots : name = dotDot ∨ name = dot
    · simp only [if_pos hdots]
      exact comesBack_of_ok rfl
    · simp only [if_neg hdots]
      cases hresult : w.result with
      | ok num =>
          rw [hresult] at hsafe
          obtain ⟨looked', e', hwalk', hmove⟩ := hsafe ⟨hdots, fun err herr => by cases herr⟩
          exact renameTo_comesBack hwalk' hmove
      | error err =>
          rw [hresult] at hsafe
          dsimp only
          by_cases herr : err = -enoent
          · by_cases hslash : slash ∈ name
            · obtain ⟨looked', e', hwalk', hmove⟩ := hsafe ⟨hdots, fun err' herr' =>
                ⟨(Except.error.inj herr').symm.trans herr, hslash⟩⟩
              simp only [if_neg (not_not.mpr herr), if_neg (not_not.mpr hslash)]
              exact renameTo_comesBack hwalk' hmove
            · simp only [if_neg (not_not.mpr herr), if_pos hslash]
              exact comesBack_of_ok rfl
          · simp only [if_pos herr]
            exact comesBack_of_ok rfl

end Volume

/-! ## Exactly when they return -/

/-- There is a walk along the path, and what it ends with suits the call. -/
def PathCall.Safe (v : Volume) (root cwd : ℕ) : PathCall → Prop
  | .openFile path flags mode =>
      ∃ looked e, WalksTo v.searches root cwd path looked e ∧ v.OpenSafe flags mode e
  | .stat path => ∃ looked e, WalksTo v.searches root cwd path looked e ∧ v.StatSafe root e
  | .chdir path => ∃ looked e, WalksTo v.searches root cwd path looked e
  | .chroot path => ∃ looked e, WalksTo v.searches root cwd path looked e
  | .unlink path => ∃ looked e, WalksTo v.searches root cwd path looked e ∧
      v.UnlinkSafe root (v.searches.bufferBehind looked .unset) e
  | .rmdir path => ∃ looked e, WalksTo v.searches root cwd path looked e ∧
      v.RmdirSafe root (v.searches.bufferBehind looked .null) e
  | .rename old new => ∃ looked e, WalksTo v.searches root cwd old looked e ∧
      v.RenameSafe root cwd new (v.searches.bufferBehind looked .null) e

/-- Without links and without endless searches, these three calls return. -/
theorem PathCall.returns_of_linkFree {v : Volume} {root cwd : ℕ} (hfree : LinkFree v.tree)
    (hends : ∀ num name, v.fs.findEntry (v.inode num) name ≠ .error .endless) (path : Name) :
    (PathCall.chdir path).Returns v root cwd ∧ (PathCall.chroot path).Returns v root cwd ∧
      (PathCall.stat path).Returns v root cwd := by
  obtain ⟨looked, e, hwalk⟩ : ∃ looked e, WalksTo v.searches root cwd path looked e :=
    exists_walk_of_linkFree (r := v.searches) hfree
      (fun num name => decide_eq_true (hends num name)) _
  refine ⟨Volume.callChdir_iff.mpr ⟨looked, e, hwalk⟩, Volume.callChroot_iff.mpr ⟨looked, e, hwalk⟩,
    Volume.callStat_iff.mpr ⟨looked, e, hwalk, fun num _ hlink => ?_⟩⟩
  have hkind : kindOf (v.inode num).iMode = .link := by
    unfold kindOf
    rw [if_neg, if_pos hlink]
    intro hdir
    unfold isLnk at hlink
    unfold isDir at hdir
    rw [hlink] at hdir
    exact absurd hdir (by decide)
  exact (hfree num hkind).elim

end Yak.Ext2
