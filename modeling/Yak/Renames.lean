import Yak.DirLookups

/-!
# What a rename does to the tree

`ext2_rename` takes the old name out of the block in which `ext2_namei` has found it, and puts the
new one into what it takes for the last directory of the second path.
-/

namespace Yak.Ext2

open ByteBitmap WordMemory RecordChain BoundedLoop

/-! ## The record which goes -/

/-- The name stands in one record of the directory, which is not the first one of its block and
which the record in front of it can take in. -/
structure TakesOut (fs : Fs) (dir : InodeM) (b num : ℕ) (name : Name) : Prop where
  record : ∃ xs q r ys, records fs.sb.blocksize (fs.blocks b) = xs ++ q :: r :: ys ∧
    Hit (fs.blocks b) num name r ∧ dRecLen (fs.blocks b) q + dRecLen (fs.blocks b) r < 2 ^ 16 ∧
    ∀ p ∈ xs ++ q :: ys, dName (fs.blocks b) p ≠ name
  first : dInode (fs.blocks b) 0 ≠ num
  elsewhere : ∀ c ∈ fs.searched dir, c ≠ b → ∀ p ∈ records fs.sb.blocksize (fs.blocks c),
    dName (fs.blocks c) p ≠ name

section Removed

variable {size q r num : ℕ} {blk : Bytes} {name : Name} {xs ys : List ℕ}
  (hchain : Chain (dRecLen blk) size 0 (xs ++ q :: r :: ys))
  (hok : ∀ x ∈ xs ++ q :: r :: ys, RecordOk blk x)
  (hfit : dRecLen blk q + dRecLen blk r < 2 ^ 16)

include hchain hok hfit

theorem records_joined :
    records size (setRecLen blk q (dRecLen blk q + dRecLen blk r)) = xs ++ q :: ys ∧
      ∀ p ∈ xs ++ q :: ys, Alike blk (setRecLen blk q (dRecLen blk q + dRecLen blk r)) p := by
  have hqok := hok q (List.mem_append_right _ List.mem_cons_self)
  have hrest := hchain.split.2
  have htail := hrest.tail
  have hr := htail.head
  have hroom := hqok.2
  unfold headerSize at hroom
  obtain ⟨hfront, hsame⟩ := chain_setRecLen (v := dRecLen blk q + dRecLen blk r) hchain hok
  have hbeyond : ∀ y ∈ ys,
      SameRecord blk (setRecLen blk q (dRecLen blk q + dRecLen blk r)) y := by
    intro y hy
    have hbounds := htail.tail.bounds hy
    exact sameRecord_setRecLen (Or.inr (by unfold headerSize; omega))
  constructor
  · apply records_eq
    refine hfront.append (chain_cons hrest.lt ?_ ?_)
    · rw [dRecLen_setRecLen, Nat.mod_eq_of_lt hfit]
      omega
    · rw [dRecLen_setRecLen, Nat.mod_eq_of_lt hfit, ← Nat.add_assoc, ← hr]
      exact htail.tail.congr fun y hy => (hbeyond y hy).header.dRecLen
  · intro p hp
    rcases List.mem_append.mp hp with hp | hp
    · exact (hsame p hp).alike
    · rcases List.mem_cons.mp hp with rfl | hp
      · exact ⟨dInode_setRecLen, dFileType_setRecLen, dName_setRecLen⟩
      · exact (hbeyond p hp).alike

end Removed

/-! ## The record which comes -/

/-- The search for a place ends in a direct block, and a search for the name comes to this block
and to its end. -/
structure PutsIn (fs : Fs) (dir : InodeM) (name : Name) : Prop where
  searched : Searched fs dir
  place : ∃ i, StopsAt fs dir name.length i ∧ dir.iBlock i ≠ 0 ∧
    (∀ j < i, Stops fs.sb.blocksize (fs.blocks (dir.iBlock j)) name) ∧
    seen fs.sb.blocksize (fs.blocks (dir.iBlock i)) =
      records fs.sb.blocksize (fs.blocks (dir.iBlock i))

theorem Alike.symm {blk blk' : Bytes} {p : ℕ} (h : Alike blk blk' p) : Alike blk' blk p :=
  ⟨h.dInode.symm, h.dFileType.symm, h.dName.symm⟩

section Placed

variable {size num mode : ℕ} {blk : Bytes} {name : Name}

/-- The new record is the last one, and the others are what they were. -/
theorem records_placed {ip : Linked} (hwf : WellFormed size blk) (hsize : 0 < size)
    (hname : NameOk name) (hip : ip.Numbered) (hroom : Roomy size blk name.length) :
    ∃ n, records size (placedBlock size blk ip name) = records size blk ++ [n] ∧
      (∀ p ∈ records size blk, Alike blk (placedBlock size blk ip name) p) ∧
      entryAt (placedBlock size blk ip name) n = some (name, ip.iNum) ∧
      dFileType (placedBlock size blk ip name) n = dentryFileType ip.iMode := by
  obtain ⟨xs, hxs⟩ := hwf.last hsize
  have hchain := hwf.1
  have hok := hwf.2
  rw [hxs] at hchain hok
  obtain ⟨hplaced, -, hafter⟩ := chain_splitBlock hchain hok hname hip hroom
  have hcut := sameRecord_splitBlock size blk (lastRecord size blk) ip name
  refine ⟨_, ?_, ?_, hplaced.entry, hplaced.fileType⟩
  · rw [hxs, List.append_assoc]
    exact records_eq hafter
  · intro p hp
    rw [hxs] at hp
    rcases List.mem_append.mp hp with hp | hp
    · exact (sameRecord_of_split hchain hok hp).alike
    · obtain rfl := List.mem_singleton.mp hp
      have halike := hcut.alike
      exact ⟨halike.dInode.trans dInode_setRecLen, halike.dFileType.trans dFileType_setRecLen,
        halike.dName.trans dName_setRecLen⟩

end Placed

namespace Fs

variable {fs : Fs} {dir : InodeM} {name : Name} {b ino : ℕ}

theorem searchOrder_subset (hb : b ∈ fs.searchOrder dir) : b ≠ 0 ∧ b ∈ fs.dataBlocks dir := by
  unfold searchOrder at hb
  simp only [List.mem_append] at hb
  rcases hb with hb | hb | hb | hb
  · have hne : b ≠ 0 := by simpa using List.all_eq_true.mp List.all_takeWhile b hb
    obtain ⟨i, hi, rfl⟩ := List.mem_map.mp ((List.takeWhile_sublist _).subset hb)
    exact ⟨hne, direct_mem_dataBlocks (List.mem_range.mp hi) hne⟩
  · exact ⟨reached_ne_zero b hb, reached_mem_dataBlocks 12 (by omega) hb⟩
  · exact ⟨reached_ne_zero b hb, reached_mem_dataBlocks 13 (by omega) hb⟩
  · exact ⟨reached_ne_zero b hb, reached_mem_dataBlocks 14 (by omega) hb⟩

/-- What is found in a block is a record which is seen. -/
theorem seen_of_found (hb : b ≠ 0) (hwf : WellFormed fs.sb.blocksize (fs.blocks b))
    (h : (fs.findEntryInBlock name b .nextBlock).map Prod.fst = .ok (some ino)) :
    ∃ p ∈ seen fs.sb.blocksize (fs.blocks b), Hit (fs.blocks b) ino name p := by
  rw [findEntryInBlock_eq hb hwf] at h
  cases houtcome : blockOutcome fs.sb.blocksize (fs.blocks b) name with
  | error e =>
      rw [houtcome] at h
      cases h
  | ok found =>
      rw [houtcome] at h
      obtain rfl : found = some ino := Except.ok.inj h
      obtain ⟨p, hp, rfl⟩ := blockOutcome_eq_some houtcome
      exact ⟨p, List.mem_of_find?_eq_some hp, rfl, (firstSeen_mem hp).2⟩

end Fs

namespace Volume

variable {v v' : Volume} {others : ℕ → List ℕ} {root cwd fuel num b mode : ℕ} {old new name : Name}
  {xo xn : ℕ × Name}

/-! ## The two changes -/

/-- The record of the name can be taken out, and then there is a place for the new one. -/
structure EntryMoves (v : Volume) (xo xn : ℕ × Name) (num b : ℕ) : Prop where
  removable : TakesOut v.fs (v.inode xo.1) b num xo.2
  place : ∀ e, removeDirEntry v.fs.sb.blocksize (v.fs.blocks b) num xo.2 = .ok e →
    PutsIn (v.fs.setBlock b e.data) (v.inode xn.1) xn.2

/-- Two volumes with the same blocks, inodes and permissions are searched alike. -/
theorem searches_congr (hfs : v'.fs = v.fs) (hinode : v'.inode = v.inode)
    (hpermission : v'.permission = v.permission) : v'.searches = v.searches := by
  unfold searches tree
  rw [hfs, hinode, hpermission]

theorem InOrder.removed {d : ℕ} {e : BlockEdit} (h : v.InOrder others)
    (hdir : isDir (v.inode d).iMode) (hb : b ∈ v.fs.dataBlocks (v.inode d)) (hnum : num ≠ 0)
    (hseen : ∃ p ∈ seen v.fs.sb.blocksize (v.fs.blocks b), Hit (v.fs.blocks b) num name p)
    (hout : TakesOut v.fs (v.inode d) b num name)
    (hrun : removeDirEntry v.fs.sb.blocksize (v.fs.blocks b) num name = .ok e) :
    WellFormed v.fs.sb.blocksize e.data ∧ ∀ k, isDir (v.inode k).iMode → ∀ name',
      (v.setBlock b e.data).tree.lookup k name' =
        if (k, name') = (d, name) then none else v.tree.lookup k name' := by
  obtain ⟨xs, q, r, ys, hrecords, hhit, hfit, honly⟩ := hout.record
  have hwf := h.wellFormed d hdir b hb
  have hmiss : ∀ x ∈ xs ++ [q], ¬Hit (v.fs.blocks b) num name x := by
    intro x hx hagain
    have hmem : x ∈ xs ++ q :: ys := by
      rw [List.append_cons]
      exact List.mem_append_left _ hx
    exact honly x hmem hagain.2
  rw [removeDirEntry_behind hwf hout.first hrecords hmiss hhit] at hrun
  obtain rfl := Except.ok.inj hrun
  dsimp only
  have hchain := hwf.1
  have hok := hwf.2
  rw [hrecords] at hchain hok
  have hwf' := (joined_of_rejoins hchain hok (entryAt_of_hit hnum hhit)
    (rejoins_of_lt hchain (fun x hx => hok x (List.mem_append_right _ hx)) hfit)).1
  obtain ⟨hrecords', halike⟩ := records_joined hchain hok hfit
  -- the record was seen, so that it is in use
  have hused : Used (v.fs.blocks b) r := by
    obtain ⟨p, hp, hagain⟩ := hseen
    obtain ⟨x, zs, hzs⟩ := List.exists_cons_of_ne_nil
      (List.append_ne_nil_of_right_ne_nil xs (List.cons_ne_nil q (r :: ys)))
    unfold seen at hp
    rw [hrecords] at hp
    have hmem := seenFrom_subset hp
    obtain rfl : p = r := by
      by_contra hne
      refine honly p ?_ hagain.2
      simp only [List.mem_append, List.mem_cons] at hmem ⊢
      tauto
    rw [hzs] at hp hchain
    obtain rfl : x = 0 := hchain.head
    exact used_of_seen hp fun heq => hout.first (heq ▸ hagain.1)
  refine ⟨hwf', fun k hdir' name' => ?_⟩
  by_cases hname : (k, name') = (d, name)
  · obtain ⟨rfl, rfl⟩ := Prod.mk.inj hname
    rw [if_pos rfl, lookup_setBlock_dir h hdir hb hwf' hdir]
    apply Fs.firstFound_absent
    intro c hc p hp
    unfold Fs.setBlock at hp ⊢
    dsimp only at hp ⊢
    by_cases hcb : c = b
    · rw [hcb, Function.update_self] at hp ⊢
      rw [hrecords'] at hp
      rw [(halike p hp).dName]
      exact honly p hp
    · rw [Function.update_of_ne hcb] at hp ⊢
      exact hout.elsewhere c hc hcb p hp
  · rw [if_neg hname]
    refine lookup_setBlock h hdir hb hwf' hdir' fun hk => ?_
    have hother : name ≠ name' := fun heq => hname (Prod.ext hk heq.symm)
    rw [List.append_cons] at hrecords hrecords' halike
    exact blockOutcome_insert hrecords' hrecords (by simp) halike hused (hhit.2 ▸ hother)

theorem InOrder.added {d : ℕ} {r : Added} (h : v.InOrder others)
    (hdir : isDir (v.inode d).iMode) (hname : NameOk name) (hnum : 1 ≤ num ∧ num < 2 ^ 32)
    (htype : dentryFileType mode ≠ ftUnknown) (hnew : v.tree.lookup d name = none)
    (hputs : PutsIn v.fs (v.inode d) name)
    (hrun : addDirEntry fuel v.fs (v.inode d) ⟨num, mode⟩ name = .ok r) :
    r.dir = v.inode d ∧ ∃ c blk, r.fs = v.fs.setBlock c blk ∧ c ∈ v.fs.dataBlocks (v.inode d) ∧
      WellFormed v.fs.sb.blocksize blk ∧ ∀ k, isDir (v.inode k).iMode → ∀ name',
        (v.setBlock c blk).tree.lookup k name' =
          if (k, name') = (d, name) then some num else v.tree.lookup k name' := by
  obtain ⟨i, hstop, hi, hbefore, hall⟩ := hputs.place
  have hown := h.owns d hdir
  have hwfd := h.wellFormed d hdir
  have hip : Linked.Numbered ⟨num, mode⟩ := hnum
  rw [addDirEntry_of_present hname hown (h.first d hdir), if_pos hputs.searched] at hrun
  have hroom : Roomy v.fs.sb.blocksize (v.fs.blocks ((v.inode d).iBlock i)) name.length := by
    by_contra hroom
    cases ((settles_present hown hwfd hname hstop hi).2 hroom).eq_of_run hrun
  obtain rfl :=
    Except.ok.inj (((settles_present hown hwfd hname hstop hi).1 hroom).eq_of_run hrun)
  have hmem : (v.inode d).iBlock i ∈ v.fs.dataBlocks (v.inode d) :=
    Fs.direct_mem_dataBlocks hstop.direct hi
  have hwf := hwfd _ hmem
  have hsize := hown.blocksize_ge (hstop.direct.trans (by decide)) hi
  generalize hc : (v.inode d).iBlock i = c at hmem hwf hall hroom
  obtain ⟨xs, hxs⟩ := hwf.last (by omega)
  have hchain := hwf.1
  have hok := hwf.2
  rw [hxs] at hchain hok
  have hwf' : WellFormed v.fs.sb.blocksize
      (placedBlock v.fs.sb.blocksize (v.fs.blocks c) ⟨num, mode⟩ name) :=
    (splitBlock_room hchain hok hname hip hroom).1
  obtain ⟨n, hrecords, halike, hentry, hfileType⟩ :=
    records_placed hwf (by omega) hname hip hroom
  generalize placedBlock v.fs.sb.blocksize (v.fs.blocks c) ⟨num, mode⟩ name = blk
    at hwf' hrecords halike hentry hfileType
  have hne : records v.fs.sb.blocksize (v.fs.blocks c) ≠ [] := by
    rw [hxs]
    simp
  have hnumbered : num ≠ 0 := Nat.one_le_iff_ne_zero.mp hnum.1
  obtain ⟨hnot, hpair⟩ : dInode blk n ≠ 0 ∧ (dName blk n, dInode blk n) = (name, num) := by
    unfold entryAt at hentry
    split at hentry
    next => cases hentry
    next hnot => exact ⟨hnot, Option.some.inj hentry⟩
  obtain ⟨hdName, hdInode⟩ := Prod.mk.inj hpair
  have hused : Used blk n := ⟨hnot, hfileType ▸ htype⟩
  refine ⟨rfl, c, blk, rfl, hmem, hwf', fun k hdir' name' => ?_⟩
  by_cases hsame : (k, name') = (d, name)
  · obtain ⟨rfl, rfl⟩ := Prod.mk.inj hsame
    have hblocks : ∀ j ≤ i, (v.inode k).iBlock j ≠ 0 := by
      intro j hj
      rcases Nat.lt_or_eq_of_le hj with hlt | rfl
      · exact (hstop.full j hlt).1
      · exact hi
    obtain ⟨rest, hsplit⟩ : ∃ rest, v.fs.searched (v.inode k) =
        (List.range i).map (v.inode k).iBlock ++ (v.inode k).iBlock i :: rest :=
      Fs.searched_split hstop.direct hblocks
    rw [hc] at hsplit
    have hstops : ∀ a ∈ (List.range i).map (v.inode k).iBlock,
        Stops v.fs.sb.blocksize (v.fs.blocks a) name' := by
      intro a ha
      obtain ⟨j, hj, rfl⟩ := List.mem_map.mp ha
      exact hbefore j (List.mem_range.mp hj)
    -- no record of the block has the name
    have hnone : ∀ p ∈ records v.fs.sb.blocksize (v.fs.blocks c),
        dName (v.fs.blocks c) p ≠ name' := by
      intro p hp heq
      cases hfirst : firstSeen v.fs.sb.blocksize (v.fs.blocks c) name' with
      | some p' =>
          have hfound := Fs.firstFound_some.mpr ⟨_, c, rest, p', hsplit, hstops, hfirst, rfl⟩
          rw [lookup_dir h hdir, hfound] at hnew
          cases hnew
      | none =>
          have hmissed := List.find?_eq_none.mp hfirst p (hall ▸ hp)
          simp [heq] at hmissed
    have hlast : firstSeen v.fs.sb.blocksize blk name' = some n := by
      have hseen : seen v.fs.sb.blocksize blk =
          records v.fs.sb.blocksize (v.fs.blocks c) ++ n :: [] := by
        unfold seen
        rw [hrecords]
        have hkept := (seenFrom_congr halike).trans hall
        refine (seenFrom_insert_iff hused hne).mpr ?_
        rwa [List.append_nil]
      unfold firstSeen
      rw [hseen, List.find?_append, List.find?_eq_none.mpr]
      · simp [hdName]
      · intro p hp
        rw [(halike p hp).dName]
        simpa using hnone p hp
    rw [if_pos rfl, lookup_setBlock_dir h hdir hmem hwf' hdir]
    have hfound : (v.fs.setBlock c blk).firstFound name' (v.fs.searched (v.inode k)) =
        .ok (some num) := by
      have hself : (v.fs.setBlock c blk).blocks c = blk := Function.update_self _ _ _
      refine Fs.firstFound_some.mpr ⟨_, c, rest, n, hsplit, ?_, ?_, ?_⟩
      · intro a ha
        have hother : a ≠ c := fun heq => (hstops a ha).2 (heq ▸ hall)
        have hkept : (v.fs.setBlock c blk).blocks a = v.fs.blocks a :=
          Function.update_of_ne hother _ _
        rw [hkept]
        exact hstops a ha
      · rw [hself]
        exact hlast
      · rw [hself]
        exact hdInode
    rw [hfound]
    rfl
  · rw [if_neg hsame]
    refine lookup_setBlock h hdir hmem hwf' hdir' fun hk => ?_
    have hother : name ≠ name' := fun heq => hsame (Prod.ext hk heq.symm)
    refine (blockOutcome_insert (List.append_nil _).symm hrecords hne ?_ hused
      (hdName ▸ hother)).symm
    intro p hp
    rw [List.append_nil] at hp
    exact (halike p hp).symm

/-- The two changes move the name. -/
theorem movesName_of_changes {e : BlockEdit} {r : Added} (h : v.InOrder others)
    (hold : v.tree.lookup xo.1 xo.2 = some num) (hnew : v.tree.lookup xn.1 xn.2 = none)
    (hdirOld : isDir (v.inode xo.1).iMode) (hdir : isDir (v.inode xn.1).iMode)
    (hname : NameOk xn.2) (hnum : 1 ≤ num ∧ num < 2 ^ 32)
    (htype : dentryFileType (v.inode num).iMode ≠ ftUnknown)
    (hb : b ∈ v.fs.dataBlocks (v.inode xo.1))
    (hseen : ∃ p ∈ seen v.fs.sb.blocksize (v.fs.blocks b), Hit (v.fs.blocks b) num xo.2 p)
    (hmoves : v.EntryMoves xo xn num b)
    (hremove : removeDirEntry v.fs.sb.blocksize (v.fs.blocks b) num xo.2 = .ok e)
    (hadd : addDirEntry fuel (v.fs.setBlock b e.data) (v.inode xn.1)
      ⟨num, (v.inode num).iMode⟩ xn.2 = .ok r) :
    r.dir = v.inode xn.1 ∧
      MovesName v.searches ({ v with fs := r.fs } : Volume).searches xo xn num := by
  obtain ⟨hwf, hgone⟩ := h.removed hdirOld hb (Nat.one_le_iff_ne_zero.mp hnum.1) hseen
    hmoves.removable hremove
  have hinOrder : (v.setBlock b e.data).InOrder others := h.setBlock hdirOld hb hwf
  have hsame := sameInodes_setBlock e.data h hdirOld hb
  have hfree : (v.setBlock b e.data).tree.lookup xn.1 xn.2 = none := by
    rw [hgone _ hdir, hnew, ite_self]
  obtain ⟨hrdir, c, blk, hfs, hc, hwf', hthere⟩ :=
    hinOrder.added hdir hname hnum htype hfree (hmoves.place e hremove) hadd
  have hinOrder' := hinOrder.setBlock hdir hc hwf'
  have hsame' := sameInodes_setBlock blk hinOrder hdir hc
  refine ⟨hrdir, ?_⟩
  have hsearches : ({ v with fs := r.fs } : Volume).searches =
      ((v.setBlock b e.data).setBlock c blk).searches := searches_congr hfs rfl rfl
  rw [hsearches]
  exact
    { kind := hsame'.kind.trans hsame.kind
      mayEnter := hsame'.mayEnter.trans hsame.mayEnter
      text := hsame'.text.trans hsame.text
      oldDir := kind_dir_iff.mpr hdirOld
      newDir := kind_dir_iff.mpr hdir
      old := hold
      new := hnew
      lookup := by
        intro k hk name'
        have hdir' := kind_dir_iff.mp hk
        refine (hthere k hdir' name').trans ?_
        rw [hgone k hdir']
        rfl
      ends := fun k hk _ => ends_dir h (kind_dir_iff.mp hk)
      ends' := fun k hk _ => ends_dir hinOrder' (kind_dir_iff.mp hk) }

theorem inode_putInode_same {ip : InodeM} {d : ℕ} (h : ip = v.inode d) :
    (v.putInode d ip).inode = v.inode := by
  subst h
  funext k
  by_cases hk : k = d
  · subst hk
    exact inode_putInode InodeObject.fits_toInode
  · exact inode_putInode_of_ne hk

/-! ## The call -/

/-- A call which returns 0 for a name that is not there has gone through the two changes. -/
theorem changes_of_callRename {front looked : List (ℕ × Name)} {e e' : WalkEnd ℕ}
    (hold : WalksTo v.searches root cwd old (front ++ [xo]) e) (hresult : e.result = .ok num)
    (hbase : e.base = some xo.2) (hnew : WalksTo v.searches root cwd new looked e')
    (hresult' : e'.result = .error (-enoent)) (hbase' : e'.base = some xn.2)
    (hdir' : e'.dir = xn.1) (hrun : v.callRename fuel root cwd old new = .ok (0, v')) :
    ¬(xo.2 = dotDot ∨ xo.2 = dot) ∧ ∃ b edit r,
      v.fs.foundIn (v.inode xo.1) xo.2 = some b ∧
      (v.fs.findEntryInBlock xo.2 b .nextBlock).map Prod.fst = .ok (some num) ∧
      removeDirEntry v.fs.sb.blocksize (v.fs.blocks b) (v.inode num).iNum xo.2 = .ok edit ∧
      addDirEntry fuel (v.fs.setBlock b edit.data) (v.inode xn.1)
        ⟨(v.inode num).iNum, (v.inode num).iMode⟩ xn.2 = .ok r ∧
      v' = ({ v with fs := r.fs } : Volume).putInode xn.1 r.dir := by
  obtain ⟨b, hbuffer, hfound, hin⟩ := buffer_of_lookup
    (v.searches.bufferBehind front .null) (hold.last_found hresult)
  obtain ⟨w, looked', hwalk, hrest⟩ := exists_walk_of_ok hrun
  obtain ⟨rfl, rfl⟩ := hold.unique hwalk
  rw [bufferBehind_concat, hbuffer] at hrest
  have hname : w.base = some xo.2 := hbase
  have hnum : w.result = .ok num := hresult
  dsimp only at hrest
  rw [hname, hnum] at hrest
  dsimp only at hrest
  split at hrest
  next => exact absurd (Prod.mk.inj (Except.ok.inj hrest)).1 (by decide)
  next hdots =>
    refine ⟨hdots, b, ?_⟩
    unfold renameTo at hrest
    obtain ⟨w', looked', hwalk', hrest⟩ := exists_walk_of_ok hrest
    obtain ⟨rfl, rfl⟩ := hnew.unique hwalk'
    have hname' : w'.base = some xn.2 := hbase'
    have hfailed : w'.result = .error (-enoent) := hresult'
    have hlast : w'.dir = xn.1 := hdir'
    dsimp only at hrest
    rw [hfailed, hname', hlast] at hrest
    obtain ⟨answer, hanswer, hrest⟩ := bind_eq_ok.mp hrest
    obtain rfl : none = answer := Except.ok.inj hanswer
    obtain ⟨⟨ret, fs⟩, hremove, hrest⟩ := bind_eq_ok.mp hrest
    obtain ⟨edit, hedit, hset⟩ := bind_eq_ok.mp hremove
    obtain ⟨-, rfl⟩ := Prod.mk.inj (Except.ok.inj hset)
    obtain ⟨r, hadd, hrest⟩ := bind_eq_ok.mp hrest
    obtain ⟨-, rfl⟩ := Prod.mk.inj (Except.ok.inj hrest)
    exact ⟨edit, r, hfound, hin, hedit, hadd, rfl⟩

/-- The call can move the name.  Both paths search directories only.  The old path ends with the
old name, without a slash, and leads to an inode of a known type.  Of the new path only the last
name is missing, in the last directory of the walk.  The entry can be moved. -/
structure CanMove (v : Volume) (root cwd : ℕ) (old new : Name) (xo xn : ℕ × Name) (num : ℕ) :
    Prop where
  old : ∃ front e, WalksTo v.searches.inDirs root cwd old (front ++ [xo]) e ∧
    e.result = .ok num ∧ e.base = some xo.2
  new : ∃ front e, WalksTo v.searches.inDirs root cwd new (front ++ [xn]) e ∧
    e.result = .error (-enoent) ∧ e.base = some xn.2 ∧ e.dir = xn.1
  dirs : isDir (v.inode xo.1).iMode ∧ isDir (v.inode xn.1).iMode
  name : NameOk xn.2
  number : num ≠ 0
  typed : dentryFileType (v.inode num).iMode ≠ ftUnknown
  moves : ∀ b, v.fs.foundIn (v.inode xo.1) xo.2 = some b → v.EntryMoves xo xn num b

/-- The new path does not pass through the old name, and a directory stays below its parent. -/
def KeepsPlaces (v : Volume) (root cwd : ℕ) (new : Name) (xo xn : ℕ × Name) (num : ℕ) : Prop :=
  (∃ looked e, WalksTo (v.searches.inDirs.without [xo]) root cwd new looked e) ∧
    (isDir (v.inode num).iMode → xo.1 = xn.1)

end Volume

/-! ## A directory with one file -/

/-- The two entries and the name `f`. -/
def fileBlock : Bytes :=
  blockOf [(0, recordBytes 12 12 2#8 dot), (12, recordBytes 12 12 2#8 dotDot),
    (24, recordBytes 14 1000 1#8 [0x66#8])]

/-- The root directory has the number 12, and the file has the number 14. -/
def renameVolume : Volume :=
  { linkVolume with
    fs := addFs fileBlock
    object := fun num =>
      if num = 12 then InodeObject.putInode (fun _ => 0#8) addDir
      else if num = 14 then InodeObject.putInode (fun _ => 0#8) (newFile 128 14 0x81A4 0)
      else fun _ => 0#8 }

theorem inode_renameVolume : renameVolume.inode 12 = addDir := inode_linkVolume

theorem mode_renameVolume (num : ℕ) : (renameVolume.inode num).iMode =
    if num = 12 then 0x41ED else if num = 14 then 0x81A4 else 0 := by
  split
  next hd =>
    subst hd
    decide
  next hd =>
    split
    next hf =>
      subst hf
      decide
    next hf =>
      have hobject : renameVolume.object num = fun _ => 0#8 := (if_neg hd).trans (if_neg hf)
      unfold Volume.inode
      rw [hobject]
      rfl

theorem isDir_renameVolume {num : ℕ} (h : isDir (renameVolume.inode num).iMode) : num = 12 := by
  rw [mode_renameVolume] at h
  split at h
  next hd => exact hd
  next => split at h <;> exact absurd h (by decide)

theorem not_isLnk_renameVolume {num : ℕ} : ¬isLnk (renameVolume.inode num).iMode := by
  rw [mode_renameVolume]
  split
  next => decide
  next => split <;> decide

theorem inOrder_renameVolume : renameVolume.InOrder fun _ => [] where
  owns d hdir := by
    obtain rfl := isDir_renameVolume hdir
    rw [inode_renameVolume]
    exact owns_addDir fileBlock
  apart d hdir k hk := by
    obtain rfl := isDir_renameVolume hdir
    have hnone : renameVolume.allocated k = [] := if_neg hk
    rw [hnone]
    exact List.nil_subset _
  first d hdir := by
    obtain rfl := isDir_renameVolume hdir
    rw [inode_renameVolume]
    decide
  wellFormed d hdir := by
    obtain rfl := isDir_renameVolume hdir
    rw [inode_renameVolume]
    exact wellFormedDir_addDir (by decide)
  texts l hlink := (not_isLnk_renameVolume hlink).elim

theorem records_fileBlock : records 1024 fileBlock = [0, 12, 24] := by decide

theorem searched_renameVolume : renameVolume.fs.searched (renameVolume.inode 12) = [8] := by
  rw [inode_renameVolume]
  rfl

theorem lookup_renameVolume {name : Name} {num : ℕ}
    (h : renameVolume.tree.lookup 12 name = some num) :
    (name = dot ∨ name = dotDot) ∧ num = 12 ∨ name = [0x66#8] ∧ num = 14 := by
  rw [Volume.lookup_dir inOrder_renameVolume (by decide), searched_renameVolume] at h
  cases hfound : renameVolume.fs.firstFound name [8] with
  | error e =>
      rw [hfound] at h
      cases h
  | ok found =>
      rw [hfound] at h
      obtain rfl : found = some num := h
      obtain ⟨before, b, behind, p, hsplit, -, hp, rfl⟩ := Fs.firstFound_some.mp hfound
      obtain rfl : b = 8 := by
        have hmem : b ∈ [8] := hsplit ▸ List.mem_append_right _ List.mem_cons_self
        exact List.mem_singleton.mp hmem
      obtain ⟨hmem, rfl⟩ := Fs.firstSeen_mem hp
      have hcases : p ∈ [0, 12, 24] := records_fileBlock ▸ hmem
      simp only [List.mem_cons, List.not_mem_nil, or_false] at hcases
      rcases hcases with rfl | rfl | rfl <;> decide

theorem isTree_renameVolume : renameVolume.IsTree fun _ => [] where
  toInOrder := inOrder_renameVolume
  numbers d name num hdir h _ := by
    obtain rfl := isDir_renameVolume hdir
    rcases lookup_renameVolume h with ⟨-, rfl⟩ | ⟨-, rfl⟩
    · decide
    · decide
  parents d name num hdir h hdir' hdot hdotDot := by
    obtain rfl := isDir_renameVolume hdir
    rcases lookup_renameVolume h with ⟨hname, -⟩ | ⟨-, rfl⟩
    · exact (hname.elim hdot hdotDot).elim
    · exact absurd (isDir_renameVolume hdir') (by decide)

theorem entryMoves_renameVolume :
    renameVolume.EntryMoves (12, [0x66#8]) (12, [0x67#8]) 14 8 where
  removable :=
    { record := ⟨[0], 12, 24, [], by decide, by decide, by decide, by decide⟩
      first := by decide
      elsewhere := by
        dsimp only
        rw [searched_renameVolume]
        exact fun c hc hne => (hne (List.mem_singleton.mp hc)).elim }
  place e hremove := by
    obtain ⟨e', hrun, hfirst, hroom, hseen⟩ :
        ∃ e, removeDirEntry 1024 fileBlock 14 [0x66#8] = .ok e ∧
          dInode e.data 0 ≠ 0 ∧ ¬Full 1024 e.data 1 ∧ seen 1024 e.data = records 1024 e.data := by
      apply exists_of_map_decide
      decide
    obtain rfl : e' = e := Except.ok.inj (hrun.symm.trans hremove)
    dsimp only
    rw [inode_renameVolume]
    refine ⟨⟨hfirst, by decide⟩, 0, ⟨by decide, ?_, ?_, Or.inr hroom⟩, by decide, ?_, hseen⟩
    · exact show (0 + 1) * 1024 ≤ 2 ^ 31 by decide
    · exact fun j hj => (Nat.not_lt_zero j hj).elim
    · exact fun j hj => (Nat.not_lt_zero j hj).elim

theorem canMove_renameVolume : renameVolume.CanMove 12 12 [0x66#8] [0x67#8] (12, [0x66#8])
    (12, [0x67#8]) 14 where
  old := by
    refine ⟨[], _, .dir ⟨by decide, by decide⟩ (by decide) (.found rfl ?_ ?_ ?_
      (.done (Or.inl rfl))), rfl, rfl⟩
    · exact fun hne => (hne rfl).elim
    · decide
    · decide
  new := by
    refine ⟨[], _, .dir ⟨by decide, by decide⟩ (by decide) (.absent rfl ?_ ?_ ?_),
      rfl, rfl, rfl⟩
    · exact fun hne => (hne rfl).elim
    · decide
    · decide
  dirs := by decide
  name := ⟨by decide, by decide⟩
  number := by decide
  typed := by decide
  moves b hfound := by
    have hblock : renameVolume.fs.foundIn (renameVolume.inode 12) [0x66#8] = some 8 := by
      decide
    obtain rfl := Option.some.inj (hblock.symm.trans hfound)
    exact entryMoves_renameVolume

end Yak.Ext2
