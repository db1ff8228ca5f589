import Yak.SymlinkText

/-!
# Files made by `ext2_open`

The mode of a new file is the argument of the call.  The mask of the process is applied to it only
when the file exists, and the type of a regular file is added to it nowhere.  So the record of the
name has an unknown type, and a search which comes to it behind another record stops there.
-/

namespace Yak.Ext2

open ByteBitmap WordMemory InodeObject

namespace Volume

variable {v : Volume} {w : Outcome ℕ} {name path : Name} {obj : Bytes} {c : Created}
  {fuel root cwd num dir flags mode dev : ℕ}

/-! ## The mode -/

theorem and_sIfmt_of_lt (hmode : mode < 0o10000) : mode &&& sIfmt = 0 := by
  apply Nat.eq_of_testBit_eq
  intro i
  rw [Nat.testBit_and, Nat.zero_testBit]
  by_cases hi : i < 12
  · have hlow : ∀ i < 12, sIfmt.testBit i = false := by decide
    rw [hlow i hi, Bool.and_false]
  · have hpow : 2 ^ 12 ≤ 2 ^ i := Nat.pow_le_pow_right Nat.two_pos (Nat.not_lt.mp hi)
    rw [Nat.testBit_lt_two_pow (lt_of_lt_of_le hmode hpow), Bool.false_and]

theorem iMode_of_newFile (hrun : v.newFile fuel name dir mode dev = .ok c)
    (hc : c.result = .ok num) : (c.volume.inode num).iMode = mode % 2 ^ 16 := by
  obtain ⟨fs, r, -, hadd, -, hvolume⟩ := newFile_ok hrun hc
  have hnew : ((v.withNew fs num mode dev).inode num).iMode = mode % 2 ^ 16 := by
    rw [inode_withNew]
    exact iMode_initObject
  rw [hvolume]
  by_cases hdir : num = dir
  · -- the directory is the inode which was given to the file
    subst hdir
    have hnone : 0 ∉ ((v.withNew fs num mode dev).inode num).allocated := by
      rw [inode_withNew]
      exact List.not_mem_nil
    have hkept : r.dir.iMode = mode % 2 ^ 16 := (plain_addDirEntry ⟨rfl, hnew, hnone⟩ r hadd).mode
    rw [inode_putInode_eq]
    refine iMode_putInode.trans ?_
    rw [hkept, Nat.mod_mod]
  · rw [inode_putInode_of_ne hdir]
    exact hnew

/-! ## What a new file should be -/

/-- The inode is a new regular file with the permission bits which the mask leaves, its path leads
to it, and the names of the directory lead to what they led to before. -/
structure CreatedWell (v : Volume) (root cwd : ℕ) (path : Name) (dir mode umask num : ℕ)
    (v' : Volume) : Prop where
  number : iNum (v'.object num) = num
  device : iDev (v'.object num) = v.dev
  count : iCount (v'.object num) = 1
  regular : isReg (v'.inode num).iMode
  permission : (v'.inode num).iMode &&& 0o7777 = mode.ldiff umask &&& 0o777
  found : ∃ fuel w, namei fuel v'.tree root cwd false path = .ok w ∧ w.result = .ok num
  others : ∀ name ino, v.fs.findEntry (v.inode dir) name = .ok (some ino) →
    v'.fs.findEntry (v'.inode dir) name = .ok (some ino)

/-- A file which is made with permission bits is never a regular one. -/
theorem not_createdWell {e : ℤ} {umask : ℕ} (hmode : mode < 0o10000)
    (hpath : namei fuel v.tree root cwd true path = .ok w) (habsent : w.result = .error e)
    (hrun : v.openFile fuel root cwd path flags mode = .ok c) (hc : c.result = .ok num) :
    ¬v.CreatedWell root cwd path w.dir mode umask num c.volume := by
  intro hwell
  unfold openFile at hrun
  rw [hpath, ok_bind] at hrun
  obtain ⟨name, -, hnew⟩ := openAt_created habsent hrun
  have hregular := hwell.regular
  unfold isReg at hregular
  rw [iMode_of_newFile hnew hc, Nat.mod_eq_of_lt (by omega), and_sIfmt_of_lt hmode] at hregular
  exact absurd hregular (by decide)

end Volume

/-- A file which anyone may read is made in a directory of one block. -/
theorem exists_opened_linkVolume : ∃ c, linkVolume.openFile 3 12 12 [0x61#8] oCreat 0o644 = .ok c ∧
    c.result = .ok 14 ∧
    ((namei 3 c.volume.tree 12 12 false [0x61#8]).map fun w =>
      decide (w.result = .error (-enoent))) = .ok true := by
  apply exists_of_map_decide
  decide +kernel

theorem not_createdWell_linkVolume : ∃ w c,
    namei 3 linkVolume.tree 12 12 true [0x61#8] = .ok w ∧ w.result = .error (-enoent) ∧
      linkVolume.openFile 3 12 12 [0x61#8] oCreat 0o644 = .ok c ∧ c.result = .ok 14 ∧
      ¬linkVolume.CreatedWell 12 12 [0x61#8] w.dir 0o644 0o022 14 c.volume := by
  obtain ⟨w, hpath, -, -, habsent⟩ := namei_linkVolume
  obtain ⟨c, hrun, hc, -⟩ := exists_opened_linkVolume
  exact ⟨w, c, hpath, habsent, hrun, hc,
    Volume.not_createdWell (by decide) hpath habsent hrun hc⟩

/-- And it is not found by its name. -/
theorem not_found_linkVolume : ∃ w c,
    namei 3 linkVolume.tree 12 12 true [0x61#8] = .ok w ∧ w.result = .error (-enoent) ∧
      linkVolume.openFile 3 12 12 [0x61#8] oCreat 0o644 = .ok c ∧ c.result = .ok 14 ∧
      (∃ w', namei 3 c.volume.tree 12 12 false [0x61#8] = .ok w' ∧ w'.result = .error (-enoent)) ∧
      ¬linkVolume.CreatedWell 12 12 [0x61#8] w.dir 0o644 0o022 14 c.volume := by
  obtain ⟨w, hpath, -, -, habsent⟩ := namei_linkVolume
  obtain ⟨c, hrun, hc, hsearch⟩ := exists_opened_linkVolume
  obtain ⟨w', hpath', hnone⟩ := exists_of_map_decide hsearch
  refine ⟨w, c, hpath, habsent, hrun, hc, ⟨w', hpath', hnone⟩, ?_⟩
  intro hwell
  obtain ⟨fuel, w'', hagain, hfound⟩ := hwell.found
  obtain rfl : w' = w'' := nameiLoop_unique hpath' hagain
  rw [hnone] at hfound
  cases hfound

end Yak.Ext2
