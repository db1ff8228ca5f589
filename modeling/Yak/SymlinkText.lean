import Yak.FileCreation
import Yak.NewEntry
import Yak.NewInode

/-!
# The targets of symbolic links

A target of less than 60 bytes goes to the array `i_block`.  For a longer one `ext2_symlink` asks
`ext2_bmap` for a block, which allocates none, so that the target goes to block 0 of the device.
`ext2_follow_symlink` reads it from there.
-/

namespace Yak.Ext2

open ByteBitmap WordMemory InodeObject

variable {fs fs' : Fs} {ip ip' : InodeM} {v v' : Volume} {w : Outcome ℕ} {obj : Bytes}
  {name text path : Name} {fuel num dir root cwd b : ℕ} {others : List ℕ} {s : Volume.Symlinked}

/-! ## Reading the target -/

theorem followText_inline (hmode : isLnk ip.iMode) (hsize : ip.iSize < fastSymlinkLen) :
    followText fs ip = .ok (some text) ↔ stringAt ip.blockBytes 60 0 = some text := by
  unfold followText
  rw [if_neg (not_not.mpr hmode), if_pos hsize]
  cases stringAt ip.blockBytes 60 0 <;> simp

theorem followText_block (hmode : isLnk ip.iMode) (hsize : fastSymlinkLen ≤ ip.iSize) :
    followText fs ip = .ok (some text) ↔
      stringAt (fs.blocks (ip.iBlock 0)) fs.sb.blocksize 0 = some text := by
  unfold followText
  rw [if_neg (not_not.mpr hmode), if_neg (Nat.not_lt.mpr hsize)]
  cases stringAt (fs.blocks (ip.iBlock 0)) fs.sb.blocksize 0 <;> simp

/-! ## The last steps of the call -/

/-- An inode with a name is only put back. -/
theorem Fs.iput_linked (hrun : fs.iput ip = .ok (fs', ip')) (hlinks : ip.iLinksCount ≠ 0) :
    fs' = fs ∧ ∃ n m, n ≤ ip.iCount ∧ ip' = { ip with iCount := n, modified := m } := by
  unfold Fs.iput at hrun
  rw [if_neg fun hboth : ip.iCount = 1 ∧ ip.iLinksCount = 0 => hlinks hboth.2] at hrun
  split at hrun
  next => cases hrun
  next =>
    split at hrun
    next =>
      obtain ⟨rfl, rfl⟩ := Prod.mk.inj (Except.ok.inj hrun)
      exact ⟨rfl, 0, false, Nat.zero_le _, rfl⟩
    next =>
      obtain ⟨rfl, rfl⟩ := Prod.mk.inj (Except.ok.inj hrun)
      exact ⟨rfl, ip.iCount - 1, ip.modified, Nat.sub_le _ _, rfl⟩

namespace Volume

theorem iput_linked (hrun : v.iput num = .ok v') (hlinks : iLinksCount (v.object num) ≠ 0) :
    v'.fs = v.fs ∧ (∃ n m, v'.inode num = { v.inode num with iCount := n, modified := m }) ∧
      ∀ k ≠ num, v'.inode k = v.inode k := by
  unfold iput at hrun
  obtain ⟨⟨fs', ip'⟩, hput, hrest⟩ := bind_eq_ok.mp hrun
  obtain ⟨rfl, n, m, hn, rfl⟩ := Fs.iput_linked hput hlinks
  obtain rfl := Except.ok.inj hrest
  have hold : Fits (v.inode num) := fits_toInode
  have hfits : Fits { v.inode num with iCount := n, modified := m } :=
    { hold with iCount := lt_of_le_of_lt hn hold.iCount }
  exact ⟨rfl, ⟨n, m, inode_putInode hfits⟩, fun k hk => inode_putInode_of_ne hk⟩

/-- What `ext2_symlink` has done when it returns 0. -/
theorem symlinkAt_ok (hrun : v.symlinkAt fuel w text = .ok s)
    (hcode : ∀ e, w.result = .error e → e < 0) (hret : s.ret = 0) :
    ∃ name num c v₁, (w.base = some name ∧ name ≠ []) ∧ text.length ≤ v.fs.sb.blocksize ∧
      s.made = some num ∧ v.newFile fuel name w.dir linkMode 0 = .ok c ∧ c.result = .ok num ∧
      c.volume.storeText num text = .ok v₁ ∧
      (v₁.setObject num (setModified
        (setMtime (setSize (v₁.object num) text.length) v₁.now))).iput num = .ok s.volume := by
  unfold symlinkAt at hrun
  split at hrun
  next =>
    obtain rfl := Except.ok.inj hrun
    exact absurd hret (show -eexist ≠ 0 by decide)
  next e hresult =>
    have hneg := hcode e hresult
    split at hrun
    next => cases hrun
    next name hbase =>
      split at hrun
      next =>
        obtain rfl := Except.ok.inj hrun
        exact absurd hret (show -enotdir ≠ 0 by decide)
      next hname =>
        split at hrun
        next =>
          obtain rfl := Except.ok.inj hrun
          exact absurd hret hneg.ne
        next =>
          split at hrun
          next =>
            obtain rfl := Except.ok.inj hrun
            exact absurd hret (show -enametoolong ≠ 0 by decide)
          next hlen =>
            obtain ⟨c, hnew, hrest⟩ := bind_eq_ok.mp hrun
            dsimp only at hrest
            split at hrest
            next e' hfailed =>
              obtain rfl := Except.ok.inj hrest
              exact absurd hret (newFile_error hnew hfailed).ne
            next num hmade =>
              obtain ⟨v₁, hstore, hrest⟩ := bind_eq_ok.mp hrest
              obtain ⟨v₂, hput, hrest⟩ := bind_eq_ok.mp hrest
              obtain rfl := Except.ok.inj hrest
              exact ⟨name, num, c, v₁, ⟨hbase, hname⟩, Nat.not_lt.mp hlen, rfl, hnew, hmade, hstore,
                hput⟩

/-- The size is set, and the link is put back. -/
structure Finished (v : Volume) (num len : ℕ) (v' : Volume) : Prop where
  fs : v'.fs = v.fs
  mode : isLnk (v'.inode num).iMode
  size : (v'.inode num).iSize = len
  allocated : (v'.inode num).allocated = v.allocated num
  first : (v'.inode num).iBlock 0 = iBlock (v.object num) 0
  bytes : ∀ x < 60, (v'.inode num).blockBytes x = v.object num (40 + x)
  rest : ∀ k ≠ num, v'.inode k = v.inode k

theorem finished_of_iput {len now : ℕ} (hmode : iMode (v.object num) = linkMode)
    (hlinks : iLinksCount (v.object num) = 1) (hlen : len < 2 ^ 32)
    (hput : (v.setObject num (setModified (setMtime (setSize (v.object num) len) now))).iput num =
      .ok v') : v.Finished num len v' := by
  generalize hobj : v.object num = obj at hmode hlinks hput
  have hset : (v.setObject num (setModified (setMtime (setSize obj len) now))).object num =
      setModified (setMtime (setSize obj len) now) := Function.update_self _ _ _
  have hlinks' : iLinksCount (setModified (setMtime (setSize obj len) now)) = 1 := by
    unfold iLinksCount at hlinks ⊢
    unfold setModified setFlags setMtime setSize
    simp (disch := omega) only [load16_store32_of_ne, hlinks]
  have hmode' : iMode (setModified (setMtime (setSize obj len) now)) = linkMode := by
    unfold iMode at hmode ⊢
    unfold setModified setFlags setMtime setSize
    simp (disch := omega) only [load16_store32_of_ne, hmode]
  have hsize : iSize (setModified (setMtime (setSize obj len) now)) = len := by
    unfold iSize setModified setFlags setMtime setSize
    simp (disch := omega) only [load32_store32_of_ne, load32_store32 hlen]
  have hbytes : ∀ x, 40 ≤ x → x < 100 →
      setModified (setMtime (setSize obj len) now) x = obj x := by
    intro x hlo hhi
    unfold setModified setFlags setMtime setSize
    rw [store32_apply (by omega), store32_apply (by omega), store32_apply (by omega)]
  obtain ⟨hfs, ⟨n, m, hinode⟩, hrest⟩ := iput_linked hput (by rw [hset, hlinks']; decide)
  have hafter : v'.inode num =
      { toInode (setModified (setMtime (setSize obj len) now)) (v.allocated num) with
        iCount := n, modified := m } := by
    rw [hinode, inode_setObject]
  have hblock : ∀ x < 60, (v'.inode num).blockBytes x = obj (40 + x) := by
    intro x hx
    have hword : (toInode (setModified (setMtime (setSize obj len) now))
        (v.allocated num)).blockBytes x = _ := blockBytes_toInode hx
    rw [hafter, ← hbytes (40 + x) (by omega) (by omega)]
    exact hword
  refine ⟨hfs, ?_, ?_, ?_, ?_, hobj ▸ hblock, ?_⟩
  · rw [hafter]
    unfold toInode
    dsimp only
    rw [hmode']
    decide
  · rw [hafter]
    exact hsize
  · rw [hafter]
    rfl
  · have hslot : (toInode (setModified (setMtime (setSize obj len) now))
        (v.allocated num)).iBlock 0 = _ := iBlock_toInode (by decide)
    rw [hafter, hobj]
    exact hslot.trans (load32_congr fun x hlo hhi => hbytes x (by omega) (by omega))
  · intro k hk
    rw [hrest k hk, inode_setObject_of_ne hk]

theorem bmap_missing {off : ℕ} (hoff : off / fs.sb.blocksize = 0) (hb : ip.iBlock 0 = 0) :
    fs.bmap ip off = .ok (0, fs, ip) := by
  unfold Fs.bmap Fs.bmapCreate
  dsimp only
  rw [hoff, if_pos (Nat.zero_le 11)]
  unfold Fs.bmapFrom
  rw [if_neg (by simp), hb]
  rfl

/-- The target is stored: in the object of the link, or in block 0. -/
structure TextStored (v : Volume) (num : ℕ) (text : Name) (v' : Volume) : Prop where
  mode : iMode (v'.object num) = iMode (v.object num)
  links : iLinksCount (v'.object num) = iLinksCount (v.object num)
  allocated : v'.allocated = v.allocated
  short : text.length < fastSymlinkLen →
    v'.fs = v.fs ∧ v'.object num = storeBytes (v.object num) 40 text
  long : fastSymlinkLen ≤ text.length →
    v'.fs = v.fs.setBlock 0 (storeBytes (v.fs.blocks 0) 0 text) ∧ iBlock (v'.object num) 0 = 0

theorem textStored_of_storeText (hrun : v.storeText num text = .ok v')
    (hfirst : iBlock (v.object num) 0 = 0) : v.TextStored num text v' := by
  unfold storeText at hrun
  split at hrun
  next hshort =>
    obtain rfl := Except.ok.inj hrun
    unfold fastSymlinkLen at hshort
    have hself : (v.setObject num (storeBytes (v.object num) 40 text)).object num =
        storeBytes (v.object num) 40 text := Function.update_self _ _ _
    refine ⟨?_, ?_, rfl, fun _ => ⟨rfl, hself⟩, fun hlong => ?_⟩
    · rw [hself]
      exact load16_storeBytes_of_ne (by omega)
    · rw [hself]
      exact load16_storeBytes_of_ne (by omega)
    · unfold fastSymlinkLen at hlong
      omega
  next hlong =>
    split at hrun
    next => cases hrun
    next =>
      have hzero : (v.inode num).iBlock 0 = 0 := (iBlock_toInode (by decide)).trans hfirst
      rw [bmap_missing (Nat.zero_div _) hzero, ok_bind] at hrun
      obtain rfl := Except.ok.inj hrun
      refine ⟨?_, ?_, rfl, fun hshort => (hlong hshort).elim, fun _ => ⟨rfl, ?_⟩⟩
      · exact (congrArg iMode (Function.update_self _ _ _)).trans (load16_store32_of_ne (by omega))
      · exact (congrArg iLinksCount (Function.update_self _ _ _)).trans
          (load16_store32_of_ne (by omega))
      · refine Eq.trans ?_ hfirst
        exact (congrArg (iBlock · 0) (Function.update_self _ _ _)).trans
          (load32_store32_of_ne (by omega))

/-- The link with the number `num`, whose name was added to the directory. -/
structure LinkMade (v : Volume) (dir : ℕ) (text : Name) (v' : Volume) (num fuel : ℕ)
    (name : Name) (fs : Fs) (linked : Linked) (r : Added) : Prop where
  named : name ≠ []
  room : text.length ≤ v.fs.sb.blocksize
  ialloc : v.fs.ialloc = .ok (num, fs)
  added : addDirEntry fuel fs (v.inode dir) linked name = .ok r
  ret : 0 ≤ r.ret
  mode : isLnk (v'.inode num).iMode
  size : (v'.inode num).iSize = text.length
  allocated : (v'.inode num).allocated = []
  directory : (v'.inode dir).allocated = r.dir.allocated
  short : text.length < fastSymlinkLen → v'.fs = r.fs ∧ ∀ x < 60, (v'.inode num).blockBytes x =
    storeBytes (v.initObject (v.iget num) linkMode 0) 40 text (40 + x)
  long : fastSymlinkLen ≤ text.length →
    v'.fs = r.fs.setBlock 0 (storeBytes (r.fs.blocks 0) 0 text) ∧ (v'.inode num).iBlock 0 = 0

theorem linkMade_of_symlinkAt (hrun : v.symlinkAt fuel w text = .ok s)
    (hcode : ∀ e, w.result = .error e → e < 0) (hret : s.ret = 0)
    (hother : v.fs.OtherInode w.dir) :
    ∃ num name fs linked r, s.made = some num ∧ w.base = some name ∧
      v.LinkMade w.dir text s.volume num fuel name fs linked r := by
  obtain ⟨name, num, c, v₁, ⟨hbase, hname⟩, hroom, hmade, hnew, hc, hstore, hput⟩ :=
    symlinkAt_ok hrun hcode hret
  obtain ⟨fs, r, hialloc, hadd, hadded, hvolume⟩ := newFile_ok hnew hc
  have hne : num ≠ w.dir := hother num fs hialloc
  rw [inode_withNew_of_ne hne.symm] at hadd
  obtain ⟨hobj, hblocks⟩ : c.volume.object num = v.initObject (v.iget num) linkMode 0 ∧
      c.volume.allocated num = [] := by
    rw [hvolume]
    unfold putInode withNew setObject
    dsimp only
    rw [Function.update_of_ne hne, Function.update_of_ne hne, Function.update_self,
      Function.update_self]
    exact ⟨rfl, rfl⟩
  obtain ⟨hfs, howned⟩ : c.volume.fs = r.fs ∧ c.volume.allocated w.dir = r.dir.allocated := by
    rw [hvolume]
    exact ⟨rfl, Function.update_self _ _ _⟩
  have hfirst : iBlock (c.volume.object num) 0 = 0 := by
    rw [hobj]
    exact iBlock_initObject (by decide)
  have htext := textStored_of_storeText hstore hfirst
  have hdone := finished_of_iput
    (by rw [htext.mode, hobj]; exact iMode_initObject)
    (by rw [htext.links, hobj]; exact iLinksCount_initObject)
    (hroom.trans_lt v.fs.sb.blocksize_lt) hput
  refine ⟨num, name, fs, _, r, hmade, hbase, hname, hroom, hialloc, hadd, hadded, hdone.mode,
    hdone.size, ?_, ?_, ?_, ?_⟩
  · rw [hdone.allocated, htext.allocated, hblocks]
  · rw [hdone.rest _ hne.symm, ← howned, ← htext.allocated]
    rfl
  · intro hshort
    obtain ⟨hsame, hbytes⟩ := htext.short hshort
    refine ⟨(hdone.fs.trans hsame).trans hfs, ?_⟩
    intro x hx
    rw [hdone.bytes x hx, hbytes, hobj]
  · intro hlong
    obtain ⟨hblock, hslot⟩ := htext.long hlong
    refine ⟨?_, hdone.first.trans hslot⟩
    rw [hdone.fs, hblock, hfs]

/-! ## What the link holds -/

/-- The link can be followed to its target, and the blocks which have changed are those of the link
and of the directory, and bitmaps. -/
structure LinkStored (v : Volume) (dir : ℕ) (text : Name) (v' : Volume) (num : ℕ) : Prop where
  read : followText v'.fs (v'.inode num) = .ok (some text)
  inside : ∀ b, v'.fs.blocks b ≠ v.fs.blocks b →
    b ∈ (v'.inode num).allocated ∨ b ∈ (v'.inode dir).allocated ∨
      ∃ g < v.fs.nrBlkGroup,
        b = (v.fs.bgdTable g).bgBlockBitmap ∨ b = (v.fs.bgdTable g).bgInodeBitmap

/-- A short target has a zero byte behind it, in the part which is cleared or in the old object of
the inode.  A long one is in block 0 already. -/
def TextKept (v : Volume) (text : Name) : Prop :=
  if text.length < fastSymlinkLen then
    ∀ num fs, v.fs.ialloc = .ok (num, fs) →
      40 + text.length < v.inodeSize ∨ 40 + text.length < 55 ∨
        v.object num (40 + text.length) = 0#8
  else stringAt (v.fs.blocks 0) v.fs.sb.blocksize 0 = some text

section Made

variable {linked : Linked} {r : Added}
  (hmade : v.LinkMade dir text v' num fuel name fs linked r)

include hmade

theorem followText_of_short (hzero : 0#8 ∉ text) (hshort : text.length < fastSymlinkLen) :
    followText v'.fs (v'.inode num) = .ok (some text) ↔
      40 + text.length < v.inodeSize ∨ 40 + text.length < 55 ∨
        v.object num (40 + text.length) = 0#8 := by
  obtain ⟨-, hbytes⟩ := hmade.short hshort
  have hlast : storeBytes (v.initObject (v.iget num) linkMode 0) 40 text (40 + text.length) =
      if 40 + text.length < v.inodeSize ∨ 40 + text.length < 55 then 0#8
      else v.object num (40 + text.length) := by
    unfold fastSymlinkLen at hshort
    rw [storeBytes_apply (by omega), initObject_apply (by decide) (by omega) (by omega),
      iget_apply (by omega)]
  rw [followText_inline hmade.mode (hmade.size.trans_lt hshort), stringAt_eq_some, Nat.zero_add,
    hbytes _ hshort, hlast, ← or_assoc]
  have hholds : HoldsAt (v'.inode num).blockBytes 0 text := by
    intro i hi
    rw [Nat.zero_add, hbytes i (hi.trans hshort)]
    exact holdsAt_storeBytes i hi
  constructor
  · rintro ⟨-, -, -, hend⟩
    by_cases hcleared : 40 + text.length < v.inodeSize ∨ 40 + text.length < 55
    · exact Or.inl hcleared
    · rw [if_neg hcleared] at hend
      exact Or.inr hend
  · intro hend
    refine ⟨hzero, hshort, hholds, ?_⟩
    split
    next => rfl
    next hcleared => exact hend.resolve_left hcleared

theorem followText_of_long (hlong : fastSymlinkLen ≤ text.length) :
    followText v'.fs (v'.inode num) = .ok (some text) ↔
      stringAt (v'.fs.blocks 0) v'.fs.sb.blocksize 0 = some text := by
  rw [followText_block hmade.mode (hmade.size.symm ▸ hlong), (hmade.long hlong).2]

section Directory

variable (hown : v.fs.Owns (v.inode dir) others) (hwf : v.fs.WellFormedDir (v.inode dir))
  (hapart : v.fs.InodeMapsApart (v.inode dir))

include hown hwf hapart

theorem plain_of_made : Plain v.fs.sb.blocksize (v.inode dir).iMode r.fs r.dir := by
  have hkept := Fs.kept_of_ialloc hown hwf hapart hmade.ialloc
  have hbefore : Plain v.fs.sb.blocksize (v.inode dir).iMode fs (v.inode dir) :=
    ⟨hkept.size, rfl, fun hin => hown.held.owned_ne_zero (List.mem_append_left _ hin) rfl⟩
  exact plain_addDirEntry hbefore r hmade.added

/-- Neither bitmaps nor blocks of the directory have the number 0. -/
theorem outside_of_zero :
    ¬(0 ∈ (v'.inode num).allocated ∨ 0 ∈ (v'.inode dir).allocated ∨
      ∃ g < v.fs.nrBlkGroup,
        0 = (v.fs.bgdTable g).bgBlockBitmap ∨ 0 = (v.fs.bgdTable g).bgInodeBitmap) := by
  rw [hmade.allocated, hmade.directory]
  rintro (hnil | hdir | ⟨g, hg, hblock | hinode⟩)
  · exact List.not_mem_nil hnil
  · exact (plain_of_made hmade hown hwf hapart).nonzero hdir
  · exact hown.held.use.fs.nonzero g hg hblock.symm
  · exact hapart.nonzero g hg hinode.symm

theorem changed_of_made
    (hleaves : ¬SearchLeaves v.fs (v.inode dir) (name.take maxNameLen).length)
    (hblank : FindsBlank v.fs (v.inode dir) (name.take maxNameLen).length)
    (hb : r.fs.blocks b ≠ v.fs.blocks b) :
    b ∈ (v'.inode num).allocated ∨ b ∈ (v'.inode dir).allocated ∨
      ∃ g < v.fs.nrBlkGroup,
        b = (v.fs.bgdTable g).bgBlockBitmap ∨ b = (v.fs.bgdTable g).bgInodeBitmap := by
  have hkept := Fs.kept_of_ialloc hown hwf hapart hmade.ialloc
  rw [hmade.directory]
  right
  by_cases hadded : r.fs.blocks b = fs.blocks b
  · obtain ⟨g, hg, hmap⟩ := hkept.changed b (hadded ▸ hb)
    exact Or.inr ⟨g, hg, Or.inr hmap⟩
  · have hmade' := addDirEntry_changed hkept.owns hkept.wellFormed hmade.named
      (fun h => hleaves ((hkept.leaves _).mp h)) (hkept.blank _ hblank) hmade.added hmade.ret hadded
    refine hmade'.imp_right ?_
    rintro ⟨g, hg, hmap⟩
    rw [hkept.bitmap] at hmap
    exact ⟨g, hkept.groups ▸ hg, Or.inl hmap⟩

theorem linkStored_of_textKept (hzero : 0#8 ∉ text)
    (hleaves : ¬SearchLeaves v.fs (v.inode dir) (name.take maxNameLen).length)
    (hblank : FindsBlank v.fs (v.inode dir) (name.take maxNameLen).length)
    (htext : v.TextKept text) : v.LinkStored dir text v' num := by
  unfold TextKept at htext
  by_cases hshort : text.length < fastSymlinkLen
  · rw [if_pos hshort] at htext
    obtain ⟨hfs, -⟩ := hmade.short hshort
    refine ⟨(followText_of_short hmade hzero hshort).mpr (htext num fs hmade.ialloc), ?_⟩
    intro b hb
    rw [hfs] at hb
    exact changed_of_made hmade hown hwf hapart hleaves hblank hb
  · rw [if_neg hshort] at htext
    have hlong := Nat.not_lt.mp hshort
    obtain ⟨hfs, -⟩ := hmade.long hlong
    -- the directory leaves block 0 alone, so the store changes nothing
    have hsame : r.fs.blocks 0 = v.fs.blocks 0 := by
      by_contra hne
      exact outside_of_zero hmade hown hwf hapart
        (changed_of_made hmade hown hwf hapart hleaves hblank hne)
    have hholds : HoldsAt (r.fs.blocks 0) 0 text := by
      rw [hsame]
      exact (stringAt_eq_some.mp htext).2.2.1
    have hblocks : v'.fs.blocks = r.fs.blocks := by
      rw [hfs, hholds.storeBytes_eq]
      exact Function.update_eq_self _ _
    have hsize : v'.fs.sb.blocksize = v.fs.sb.blocksize := by
      rw [hfs]
      exact (plain_of_made hmade hown hwf hapart).size
    refine ⟨(followText_of_long hmade hlong).mpr ?_, ?_⟩
    · rw [hblocks, hsame, hsize]
      exact htext
    · intro b hb
      rw [hblocks] at hb
      exact changed_of_made hmade hown hwf hapart hleaves hblank hb

theorem textKept_of_linkStored (hzero : 0#8 ∉ text) (hstored : v.LinkStored dir text v' num) :
    v.TextKept text := by
  unfold TextKept
  split
  next hshort =>
    intro num' fs' hialloc
    obtain ⟨rfl, rfl⟩ := Prod.mk.inj (Except.ok.inj (hialloc.symm.trans hmade.ialloc))
    exact (followText_of_short hmade hzero hshort).mp hstored.read
  next hshort =>
    have hlong := Nat.not_lt.mp hshort
    obtain ⟨hfs, -⟩ := hmade.long hlong
    have hsame : v'.fs.blocks 0 = v.fs.blocks 0 := by
      by_contra hne
      exact outside_of_zero hmade hown hwf hapart (hstored.inside 0 hne)
    have hsize : v'.fs.sb.blocksize = v.fs.sb.blocksize := by
      rw [hfs]
      exact (plain_of_made hmade hown hwf hapart).size
    have hread := (followText_of_long hmade hlong).mp hstored.read
    rw [hsame, hsize] at hread
    exact hread

end Directory

end Made

/-- A link with a number of its own is good exactly if its target is kept, unless the search for a
place leaves the direct blocks of the directory or comes to a new block with records. -/
theorem linkStored_iff (hown : v.fs.Owns (v.inode w.dir) others)
    (hwf : v.fs.WellFormedDir (v.inode w.dir)) (hapart : v.fs.InodeMapsApart (v.inode w.dir))
    (hzero : 0#8 ∉ text) (hpath : namei fuel v.tree root cwd true path = .ok w)
    (hbase : w.base = some name) (hrun : v.symlink fuel root cwd text path = .ok s)
    (hret : s.ret = 0) :
    (v.fs.OtherInode w.dir ∧
        ¬SearchLeaves v.fs (v.inode w.dir) (name.take maxNameLen).length ∧
        FindsBlank v.fs (v.inode w.dir) (name.take maxNameLen).length ∧ v.TextKept text →
      ∃ num, s.made = some num ∧ v.LinkStored w.dir text s.volume num) ∧
    (v.fs.OtherInode w.dir →
      (∃ num, s.made = some num ∧ v.LinkStored w.dir text s.volume num) → v.TextKept text) := by
  have hcode : ∀ e, w.result = .error e → e < 0 := fun e => nameiLoop_error hpath
  unfold symlink at hrun
  rw [hpath, ok_bind] at hrun
  constructor
  · rintro ⟨hother, hleaves, hblank, htext⟩
    obtain ⟨num, name', fs, linked, r, hnum, hname', hmade⟩ :=
      linkMade_of_symlinkAt hrun hcode hret hother
    obtain rfl : name' = name := Option.some.inj (hname'.symm.trans hbase)
    exact ⟨num, hnum, linkStored_of_textKept hmade hown hwf hapart hzero hleaves
      hblank htext⟩
  · rintro hother ⟨num, hnum, hstored⟩
    obtain ⟨num', name', fs, linked, r, hnum', -, hmade⟩ :=
      linkMade_of_symlinkAt hrun hcode hret hother
    obtain rfl : num' = num := Option.some.inj (hnum'.symm.trans hnum)
    exact textKept_of_linkStored hmade hown hwf hapart hzero hstored

end Volume

/-! ## A link in a directory of one block -/

/-- The directory has the number 12, and the inodes from 14 on are free. -/
def linkFs : Fs :=
  ((addFs dotsBlock).setBlock 4 fun x => if x = 0 then 0xFF#8 else 0x1F#8).recount 0 3 3

def linkVolume : Volume where
  fs := linkFs
  dev := 1
  sInodeSize := 128
  object num := if num = 12 then InodeObject.putInode (fun _ => 0#8) addDir else fun _ => 0#8
  allocated num := if num = 12 then [8] else []
  obtainable _ := true
  permission _ _ := true
  euid := 0
  egid := 0
  now := 0

theorem inode_linkVolume : linkVolume.inode 12 = addDir :=
  toInode_putInode
    { iNum := by decide
      iBlocks := by decide
      iMode := by decide
      iLinksCount := by decide
      iSize := by decide
      iBlock := by decide
      behind := fun i hi => if_neg (by omega)
      iCount := by decide }

theorem owns_linkVolume : linkVolume.fs.Owns (linkVolume.inode 12) [] := by
  rw [inode_linkVolume]
  have hown := (owns_addDir dotsBlock).setBlock (fun x => if x = 0 then 0xFF#8 else 0x1F#8)
    (show ∀ k < 1, 3 ≠ 4 by decide) (show 4 ∉ ([] : List ℕ) from List.not_mem_nil)
  exact hown.recount

theorem wellFormedDir_linkVolume : linkVolume.fs.WellFormedDir (linkVolume.inode 12) := by
  rw [inode_linkVolume]
  intro b hb
  have hblocks : linkVolume.fs.dataBlocks addDir = [8] := rfl
  rw [hblocks] at hb
  obtain rfl := List.mem_singleton.mp hb
  have hblock : WellFormed 1024 dotsBlock := by decide
  exact hblock

theorem inodeMapsApart_linkVolume : linkVolume.fs.InodeMapsApart (linkVolume.inode 12) := by
  rw [inode_linkVolume]
  exact ⟨by decide, by decide, by decide⟩

theorem namei_linkVolume : ∃ w, namei 3 linkVolume.tree 12 12 true [0x61#8] = .ok w ∧
    w.dir = 12 ∧ w.base = some [0x61#8] ∧ w.result = .error (-enoent) := by
  apply exists_of_map_decide
  decide

theorem otherInode_linkVolume : linkVolume.fs.OtherInode 12 := by
  have hsound : linkVolume.fs.SoundInodes :=
    { accepted := rfl
      count := by decide
      fields := by decide
      apart := by decide
      tallied := ⟨by decide, by decide⟩ }
  exact Fs.otherInode_of_first hsound (by decide) (by decide) (by decide)

/-- A target of one byte. -/
theorem linkStored_shortText : ∃ s num,
    linkVolume.symlink 3 12 12 [0x62#8] [0x61#8] = .ok s ∧ s.ret = 0 ∧ s.made = some num ∧
      linkVolume.LinkStored 12 [0x62#8] s.volume num := by
  obtain ⟨w, hpath, hdir, hbase, -⟩ := namei_linkVolume
  obtain ⟨s, hrun, hret⟩ :
      ∃ s, linkVolume.symlink 3 12 12 [0x62#8] [0x61#8] = .ok s ∧ s.ret = 0 := by
    apply exists_of_map_decide
    decide +kernel
  have hleaves : ¬SearchLeaves linkVolume.fs (linkVolume.inode 12) 1 := by
    intro h
    have hfull : ¬Full 1024 dotsBlock 1 := by decide +kernel
    have hfirst := (h 0 (by decide) (by decide)).2
    rw [inode_linkVolume] at hfirst
    exact hfull hfirst
  have hblank : FindsBlank linkVolume.fs (linkVolume.inode 12) 1 := fun _ => ⟨rfl, rfl⟩
  have htext : linkVolume.TextKept [0x62#8] := by
    unfold Volume.TextKept
    rw [if_pos (by decide)]
    exact fun _ _ _ => Or.inl (by decide)
  have hstored := Volume.linkStored_iff (hdir ▸ owns_linkVolume) (hdir ▸ wellFormedDir_linkVolume)
    (hdir ▸ inodeMapsApart_linkVolume) (by decide) hpath hbase hrun hret
  rw [hdir] at hstored
  obtain ⟨num, hnum, hlink⟩ := hstored.1 ⟨otherInode_linkVolume, hleaves, hblank, htext⟩
  exact ⟨s, num, hrun, hret, hnum, hlink⟩

/-- A target of 60 bytes is written to block 0. -/
theorem not_linkStored_longText :
    linkVolume.fs.Owns (linkVolume.inode 12) [] ∧
      linkVolume.fs.WellFormedDir (linkVolume.inode 12) ∧
      linkVolume.fs.InodeMapsApart (linkVolume.inode 12) ∧
      ∃ w s, namei 3 linkVolume.tree 12 12 true [0x61#8] = .ok w ∧ w.dir = 12 ∧
        linkVolume.symlink 3 12 12 (List.replicate 60 0x61#8) [0x61#8] = .ok s ∧ s.ret = 0 ∧
        ¬∃ num, s.made = some num ∧
          linkVolume.LinkStored w.dir (List.replicate 60 0x61#8) s.volume num := by
  obtain ⟨w, hpath, hdir, -⟩ := namei_linkVolume
  obtain ⟨s, hrun, hret, hmade, hchanged, hlink, hlist⟩ :
      ∃ s, linkVolume.symlink 3 12 12 (List.replicate 60 0x61#8) [0x61#8] = .ok s ∧ s.ret = 0 ∧
        s.made = some 14 ∧ s.volume.fs.blocks 0 0 ≠ linkVolume.fs.blocks 0 0 ∧
        s.volume.allocated 14 = [] ∧ s.volume.allocated 12 = [8] := by
    apply exists_of_map_decide
    decide +kernel
  refine ⟨owns_linkVolume, wellFormedDir_linkVolume, inodeMapsApart_linkVolume, w, s, hpath, hdir,
    hrun, hret, ?_⟩
  rintro ⟨num, hnum, hstored⟩
  obtain rfl : 14 = num := Option.some.inj (hmade.symm.trans hnum)
  rw [hdir] at hstored
  rcases hstored.inside 0 fun heq => hchanged (congrFun heq 0) with hmem | hmem | ⟨g, -, hmap⟩
  · rw [show (s.volume.inode 14).allocated = [] from hlink] at hmem
    exact List.not_mem_nil hmem
  · rw [show (s.volume.inode 12).allocated = [8] from hlist] at hmem
    exact absurd (List.mem_singleton.mp hmem) (by decide)
  · have hdesc : (linkVolume.fs.bgdTable g).bgBlockBitmap = 3 ∧
        (linkVolume.fs.bgdTable g).bgInodeBitmap = 4 :=
      ⟨(Fs.recount_desc g).1, (Fs.recount_desc g).2.1⟩
    rw [hdesc.1, hdesc.2] at hmap
    omega

end Yak.Ext2
