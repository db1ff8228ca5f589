import Yak.DirSearch
import Yak.InodeObject
import Yak.Namei

/-!
# New files and symbolic links

A transcription of `ext2_open`, `ext2_new_file`, `ext2_symlink` and `ext2_follow_symlink`.  The
inodes of the cache are kept as the bytes of their objects, one for each number.  The counts which
`ext2_namei` and the final `ext2_iput` of a directory change, what a write of an inode does to the
inode table, the objects behind that of a new inode and the opening of devices are left out.
-/

namespace Yak.Ext2

open ByteBitmap WordMemory InodeObject

def eio : ℤ := 28
def eisdir : ℤ := 30
def enametoolong : ℤ := 36

/-- `O_ACCMODE`, `O_RDONLY`, `O_WRONLY`, `O_CREAT` and `O_TRUNC` -/
def oAccmode : ℕ := 0o3
def oRdonly : ℕ := 0o0
def oWronly : ℕ := 0o1
def oCreat : ℕ := 0o100
def oTrunc : ℕ := 0o1000

/-- `PERM_SRCH`, `PERM_WRITE` and `PERM_READ` -/
def permSrch : ℕ := 1
def permWrite : ℕ := 2
def permRead : ℕ := 4

/-- `EXT2_S_ISLNK` -/
def isLnk (mode : ℕ) : Prop := mode &&& sIfmt = sIflnk

/-- `EXT2_S_ISREG` -/
def isReg (mode : ℕ) : Prop := mode &&& sIfmt = sIfreg

instance (mode : ℕ) : Decidable (isLnk mode) := inferInstanceAs (Decidable (_ = _))

instance (mode : ℕ) : Decidable (isReg mode) := inferInstanceAs (Decidable (_ = _))

def kindOf (mode : ℕ) : Kind := if isDir mode then .dir else if isLnk mode then .link else .other

/-- The string which `ext2_follow_symlink` hands to `ext2_namei`, if the inode is a link. -/
def followText (fs : Fs) (ip : InodeM) : Except Halt (Option Name) :=
  if ¬isLnk ip.iMode then .ok none
  else
    let text :=
      if ip.iSize < fastSymlinkLen then stringAt ip.blockBytes 60 0
      else stringAt (fs.blocks (ip.iBlock 0)) fs.sb.blocksize 0
    text.elim (.error .outOfBounds) fun s => .ok (some s)

/-- The mounted file system with its inodes in memory, and the caller. -/
structure Volume where
  fs : Fs
  dev : ℕ
  sInodeSize : ℕ
  /-- The object of each inode, as `ext2_iget` finds it or reads it. -/
  object : ℕ → Bytes
  /-- Ghost: the blocks handed out for each inode. -/
  allocated : ℕ → List ℕ
  /-- `ext2_iget` has an object for the inode. -/
  obtainable : ℕ → Bool
  /-- `ext2_permission` -/
  permission : ℕ → ℕ → Bool
  euid : ℕ
  egid : ℕ
  now : ℕ

namespace Volume

/-- `EXT2_INODE_SIZE` -/
def inodeSize (v : Volume) : ℕ := if 1 ≤ v.fs.sb.sRevLevel then v.sInodeSize else 128

def inode (v : Volume) (num : ℕ) : InodeM := toInode (v.object num) (v.allocated num)

def setObject (v : Volume) (num : ℕ) (obj : Bytes) : Volume :=
  { v with object := Function.update v.object num obj }

/-- The inode is changed in its object. -/
def putInode (v : Volume) (num : ℕ) (ip : InodeM) : Volume :=
  { v.setObject num (InodeObject.putInode (v.object num) ip) with
    allocated := Function.update v.allocated num ip.allocated }

/-- The inodes as `ext2_namei` sees them.  A search which leaves its block has no result. -/
def tree (v : Volume) : Tree ℕ where
  kind num := kindOf (v.inode num).iMode
  mayEnter num := v.permission num permSrch
  lookup num name := (v.fs.findEntry (v.inode num) name).toOption.join
  text num := (followText v.fs (v.inode num)).toOption.join.getD []

/-- `ext2_iget` for an inode which it can get. -/
def iget (v : Volume) (num : ℕ) : Bytes :=
  let obj := v.object num
  setCount (setNum (setDev obj v.dev) num) (iCount obj + 1)

/-- `ext2_iput` -/
def iput (v : Volume) (num : ℕ) : Except Halt Volume := do
  let (fs, ip) ← v.fs.iput (v.inode num)
  .ok ({ v with fs }.putInode num ip)

/-! ## New files -/

/-- What `ext2_new_file` does to the object before it adds the name.  The first `memset` is as
long as an inode of the disk, and the second one has 15 bytes of the array. -/
def initObject (v : Volume) (obj : Bytes) (mode dev : ℕ) : Bytes :=
  let obj := clearBytes obj 0 v.inodeSize
  let obj := setMode obj mode
  let obj := setUid obj v.euid
  let obj := setGid obj v.egid
  let obj := setCtime obj v.now
  let obj := setMtime obj v.now
  let obj := setAtime obj v.now
  let obj := setDtime obj 0
  let obj := setLinksCount obj 1
  let obj := setBlocks obj 0
  let obj := clearBytes obj 40 15
  let obj := if isDevice mode then store32 obj 40 dev else obj
  setModified obj

/-- The volume with the new inode, whose number is marked in `fs`. -/
def withNew (v : Volume) (fs : Fs) (num mode dev : ℕ) : Volume :=
  { v.setObject num (v.initObject (v.iget num) mode dev) with
    fs
    allocated := Function.update v.allocated num [] }

/-- The new inode, or the error code. -/
structure Created where
  result : Except ℤ ℕ
  volume : Volume

/-- `ext2_new_file` -/
def newFile (fuel : ℕ) (v : Volume) (name : Name) (dir mode dev : ℕ) : Except Halt Created := do
  let (num, fs) ← v.fs.ialloc
  if num = 0 then .ok ⟨.error (-enospc), { v with fs }⟩
  else if v.obtainable num = false then .ok ⟨.error (-eio), { v with fs }⟩
  else do
    let v := v.withNew fs num mode dev
    let r ← addDirEntry fuel fs (v.inode dir) ⟨iNum (v.object num), iMode (v.object num)⟩ name
    let v := { v with fs := r.fs }.putInode dir r.dir
    if r.ret < 0 then do
      let v ← (v.setObject num (setLinksCount (v.object num) 0)).iput num
      .ok ⟨.error r.ret, v⟩
    else .ok ⟨.ok num, v⟩

/-- `ext2_open` when `ext2_namei` has returned.  At its end the mode of the inode is printed, also
when there is none. -/
def openAt (fuel : ℕ) (v : Volume) (w : Outcome ℕ) (flags mode : ℕ) : Except Halt Created :=
  match w.result with
  | .error _ =>
      if flags &&& oCreat = 0 then .error .nullDeref
      else if ¬isDir (v.inode w.dir).iMode then .error .nullDeref
      else
        match w.base with
        -- the pointer was not set
        | none => .error .outOfBounds
        | some name =>
            if slash ∈ name then .error .nullDeref
            else do
              let c ← v.newFile fuel name w.dir mode 0
              match c.result with
              | .error _ => .error .nullDeref
              | .ok _ => .ok c
  | .ok num =>
      if flags &&& oAccmode ≠ oWronly ∧ v.permission num permRead = false then
        .ok ⟨.error (-eacces), v⟩
      else if flags &&& oAccmode ≠ oRdonly ∧ v.permission num permWrite = false then
        .ok ⟨.error (-eacces), v⟩
      else if flags &&& oAccmode ≠ oRdonly ∧ isDir (v.inode num).iMode then
        .ok ⟨.error (-eisdir), v⟩
      else if flags &&& oTrunc ≠ 0 ∧ isReg (v.inode num).iMode then do
        let (fs, ip) ← v.fs.itrunc (v.inode num)
        .ok ⟨.ok num, { v with fs }.putInode num ip⟩
      else .ok ⟨.ok num, v⟩

/-- `ext2_open` -/
def openFile (fuel : ℕ) (v : Volume) (root cwd : ℕ) (path : Name) (flags mode : ℕ) :
    Except Halt Created := do
  let w ← namei fuel v.tree root cwd true path
  v.openAt fuel w flags mode

/-! ## Symbolic links -/

/-- The target is stored, in the inode or in the block which `ext2_bmap` gives. -/
def storeText (v : Volume) (num : ℕ) (text : Name) : Except Halt Volume :=
  if text.length < fastSymlinkLen then
    .ok (v.setObject num (storeBytes (v.object num) 40 text))
  else if iDev (v.object num) ≠ v.dev then
    .error (.panic "get_ext2_superblock: invalid device")
  else do
    let (b, fs, _) ← v.fs.bmap (v.inode num) 0
    .ok ({ v with fs := fs.setBlock b (storeBytes (fs.blocks b) 0 text) }.setObject num
      (setBlocks (v.object num) (fs.sb.blocksize / Fs.sectorSize)))

def linkMode : ℕ := 0o777 ||| sIflnk

/-- The code, and the link which was made. -/
structure Symlinked where
  ret : ℤ
  made : Option ℕ
  volume : Volume

/-- `ext2_symlink` when `ext2_namei` has returned. -/
def symlinkAt (fuel : ℕ) (v : Volume) (w : Outcome ℕ) (text : Name) : Except Halt Symlinked :=
  match w.result with
  | .ok _ => .ok ⟨-eexist, none, v⟩
  | .error err =>
      match w.base with
      -- the pointer was not set
      | none => .error .outOfBounds
      | some name =>
          if name = [] then .ok ⟨-enotdir, none, v⟩
          else if err ≠ -enoent then .ok ⟨err, none, v⟩
          else if v.fs.sb.blocksize < text.length then .ok ⟨-enametoolong, none, v⟩
          else do
            let c ← v.newFile fuel name w.dir linkMode 0
            match c.result with
            | .error err => .ok ⟨err, none, c.volume⟩
            | .ok num =>
                let v ← c.volume.storeText num text
                let obj := setMtime (setSize (v.object num) text.length) v.now
                let v ← (v.setObject num (setModified obj)).iput num
                .ok ⟨0, some num, v⟩

/-- `ext2_symlink` -/
def symlink (fuel : ℕ) (v : Volume) (root cwd : ℕ) (text path : Name) : Except Halt Symlinked := do
  let w ← namei fuel v.tree root cwd true path
  v.symlinkAt fuel w text

variable {v v' : Volume} {obj : Bytes} {name text : Name} {fuel num dir mode dev x : ℕ}
  {c : Created}

/-! ## The object of a new inode -/

theorem iget_apply (hx : x < 136) : v.iget num x = v.object num x := by
  unfold iget setCount setNum setDev
  rw [store32_apply (by omega), store32_apply (by omega), store32_apply (by omega)]

theorem iMode_initObject : iMode (v.initObject obj mode dev) = mode % 2 ^ 16 := by
  have hdevice : ∀ obj : Bytes, load16 (if isDevice mode then store32 obj 40 dev else obj) 0 =
      load16 obj 0 := by
    intro obj
    split
    next => exact load16_store32_of_ne (by omega)
    next => rfl
  unfold initObject iMode setModified setFlags
  dsimp only
  rw [load16_store32_of_ne (by omega), hdevice, load16_clearBytes_of_ne (by omega)]
  unfold setBlocks setLinksCount setDtime setAtime setMtime setCtime setGid setUid setMode
  simp (disch := omega) only [load16_store32_of_ne, load16_store16_of_ne, load16_store16]

theorem iLinksCount_initObject : iLinksCount (v.initObject obj mode dev) = 1 := by
  have hdevice : ∀ obj : Bytes, load16 (if isDevice mode then store32 obj 40 dev else obj) 26 =
      load16 obj 26 := by
    intro obj
    split
    next => exact load16_store32_of_ne (by omega)
    next => rfl
  unfold initObject iLinksCount setModified setFlags
  dsimp only
  rw [load16_store32_of_ne (by omega), hdevice, load16_clearBytes_of_ne (by omega)]
  unfold setBlocks setLinksCount
  rw [load16_store32_of_ne (by omega), load16_store16]
  rfl

/-- Behind the counters of the inode only zeros are written, if it is no device. -/
theorem initObject_apply (hmode : ¬isDevice mode) (hlo : 40 ≤ x) (hflags : x < 144 ∨ 148 ≤ x) :
    v.initObject obj mode dev x = if x < v.inodeSize ∨ x < 55 then 0#8 else obj x := by
  unfold initObject setModified setFlags
  rw [if_neg hmode, store32_apply (by omega)]
  by_cases hshort : x < 55
  · rw [clearBytes_inside hlo hshort, if_pos (Or.inr hshort)]
  · rw [clearBytes_apply (by omega)]
    unfold setBlocks setLinksCount setDtime setAtime setMtime setCtime setGid setUid setMode
    rw [store32_apply (by omega), store16_apply (by omega), store32_apply (by omega),
      store32_apply (by omega), store32_apply (by omega), store32_apply (by omega),
      store16_apply (by omega), store16_apply (by omega), store16_apply (by omega)]
    by_cases hsize : x < v.inodeSize
    · rw [clearBytes_inside (Nat.zero_le x) (by omega), if_pos (Or.inl hsize)]
    · rw [clearBytes_apply (by omega), if_neg (not_or.mpr ⟨hsize, hshort⟩)]

theorem iBlock_initObject (hmode : ¬isDevice mode) : iBlock (v.initObject obj mode dev) 0 = 0 := by
  apply load32_of_zero
  intro x hlo hhi
  rw [initObject_apply hmode (by omega) (by omega), if_pos (Or.inr (by omega))]

/-! ## The inodes of the volume -/

section Inodes

variable {fs : Fs} {ip : InodeM} {k : ℕ}

theorem inode_setObject : (v.setObject num obj).inode num = toInode obj (v.allocated num) := by
  unfold inode setObject
  dsimp only
  rw [Function.update_self]

theorem inode_setObject_of_ne (hk : k ≠ num) : (v.setObject num obj).inode k = v.inode k := by
  unfold inode setObject
  dsimp only
  rw [Function.update_of_ne hk]

theorem inode_withNew : (v.withNew fs num mode dev).inode num =
    toInode (v.initObject (v.iget num) mode dev) [] := by
  unfold inode withNew setObject
  dsimp only
  rw [Function.update_self, Function.update_self]

theorem inode_withNew_of_ne (hk : k ≠ num) :
    (v.withNew fs num mode dev).inode k = v.inode k := by
  unfold inode withNew setObject
  dsimp only
  rw [Function.update_of_ne hk, Function.update_of_ne hk]

theorem inode_putInode_eq :
    (v.putInode num ip).inode num = toInode (InodeObject.putInode (v.object num) ip) ip.allocated := by
  unfold inode putInode setObject
  dsimp only
  rw [Function.update_self, Function.update_self]

theorem inode_putInode (hfits : Fits ip) : (v.putInode num ip).inode num = ip :=
  inode_putInode_eq.trans (toInode_putInode hfits)

theorem inode_putInode_of_ne (hk : k ≠ num) : (v.putInode num ip).inode k = v.inode k := by
  unfold inode putInode setObject
  dsimp only
  rw [Function.update_of_ne hk, Function.update_of_ne hk]

end Inodes

/-! ## What the calls return -/

/-- `ext2_new_file` fails with a negative code, or it has added the name. -/
theorem newFile_cases (h : v.newFile fuel name dir mode dev = .ok c) :
    (∃ e < 0, c.result = .error e) ∨
    ∃ num fs r, c.result = .ok num ∧ v.fs.ialloc = .ok (num, fs) ∧
      addDirEntry fuel fs ((v.withNew fs num mode dev).inode dir)
        ⟨iNum ((v.withNew fs num mode dev).object num),
          iMode ((v.withNew fs num mode dev).object num)⟩ name = .ok r ∧
      0 ≤ r.ret ∧ c.volume = { v.withNew fs num mode dev with fs := r.fs }.putInode dir r.dir := by
  unfold newFile at h
  obtain ⟨⟨n, fs⟩, hialloc, hrest⟩ := bind_eq_ok.mp h
  dsimp only at hrest
  split at hrest
  next =>
    obtain rfl := Except.ok.inj hrest
    exact Or.inl ⟨-enospc, by decide, rfl⟩
  next =>
    split at hrest
    next =>
      obtain rfl := Except.ok.inj hrest
      exact Or.inl ⟨-eio, by decide, rfl⟩
    next =>
      obtain ⟨r, hadd, hrest⟩ := bind_eq_ok.mp hrest
      split at hrest
      next hret =>
        obtain ⟨v', -, hrest⟩ := bind_eq_ok.mp hrest
        obtain rfl := Except.ok.inj hrest
        exact Or.inl ⟨r.ret, hret, rfl⟩
      next hret =>
        obtain rfl := Except.ok.inj hrest
        exact Or.inr ⟨n, fs, r, rfl, hialloc, hadd, not_lt.mp hret, rfl⟩

theorem newFile_ok (h : v.newFile fuel name dir mode dev = .ok c) (hc : c.result = .ok num) :
    ∃ fs r, v.fs.ialloc = .ok (num, fs) ∧
      addDirEntry fuel fs ((v.withNew fs num mode dev).inode dir)
        ⟨iNum ((v.withNew fs num mode dev).object num),
          iMode ((v.withNew fs num mode dev).object num)⟩ name = .ok r ∧
      0 ≤ r.ret ∧ c.volume = { v.withNew fs num mode dev with fs := r.fs }.putInode dir r.dir := by
  obtain ⟨e, -, hfailed⟩ | ⟨n, fs, r, hmade, hrest⟩ := newFile_cases h
  · rw [hfailed] at hc
    cases hc
  · obtain rfl := Except.ok.inj (hmade.symm.trans hc)
    exact ⟨fs, r, hrest⟩

theorem newFile_error {e : ℤ} (h : v.newFile fuel name dir mode dev = .ok c)
    (hc : c.result = .error e) : e < 0 := by
  obtain ⟨e', hneg, hfailed⟩ | ⟨n, fs, r, hmade, -⟩ := newFile_cases h
  · obtain rfl := Except.error.inj (hfailed.symm.trans hc)
    exact hneg
  · rw [hmade] at hc
    cases hc

/-- `ext2_open` has returned an inode for a path which led to none. -/
theorem openAt_created {w : Outcome ℕ} {e : ℤ} {flags : ℕ} (hresult : w.result = .error e)
    (hrun : v.openAt fuel w flags mode = .ok c) :
    ∃ name, w.base = some name ∧ v.newFile fuel name w.dir mode 0 = .ok c := by
  unfold openAt at hrun
  rw [hresult] at hrun
  dsimp only at hrun
  split at hrun
  next => cases hrun
  next =>
    split at hrun
    next => cases hrun
    next =>
      split at hrun
      next => cases hrun
      next name hbase =>
        split at hrun
        next => cases hrun
        next =>
          obtain ⟨c', hnew, hrest⟩ := bind_eq_ok.mp hrun
          split at hrest
          next => cases hrest
          next =>
            obtain rfl := Except.ok.inj hrest
            exact ⟨name, hbase, hnew⟩

end Volume

end Yak.Ext2
