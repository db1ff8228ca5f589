import Yak.NameMoves
import Yak.PathCalls

/-!
# What a change of a block does to the searches

When a record comes into a block of a directory or leaves it, searches for other names find what
they found, in this directory and in all others.
-/

namespace Yak.Ext2

open ByteBitmap WordMemory RecordChain IndexTree InodeObject

variable {size r num : ℕ} {blk blk' : Bytes} {name : Name} {front back : List ℕ}

/-! ## One block -/

/-- A search reads the same in the record. -/
structure Alike (blk blk' : Bytes) (p : ℕ) : Prop where
  dInode : dInode blk' p = dInode blk p
  dFileType : dFileType blk' p = dFileType blk p
  dName : dName blk' p = dName blk p

theorem SameRecord.alike {p : ℕ} (h : SameRecord blk blk' p) : Alike blk blk' p where
  dInode := h.header.dInode
  dFileType := congrArg BitVec.toNat (h (p + 7) (by omega) (by unfold headerSize; omega))
  dName := h.dName

theorem Alike.used {p : ℕ} (h : Alike blk blk' p) : Used blk' p ↔ Used blk p := by
  unfold Used
  rw [h.dInode, h.dFileType]

theorem seenFrom_subset {ps : List ℕ} : seenFrom blk ps ⊆ ps := by
  cases ps with
  | nil => exact List.Subset.refl _
  | cons p ps => exact List.cons_subset_cons p (List.takeWhile_sublist _).subset

theorem seenFrom_congr {ps : List ℕ} (h : ∀ p ∈ ps, Alike blk blk' p) :
    seenFrom blk' ps = seenFrom blk ps := by
  cases ps with
  | nil => rfl
  | cons p ps =>
      obtain ⟨-, hps⟩ := List.forall_mem_cons.mp h
      unfold seenFrom
      rw [List.cons.injEq]
      refine ⟨rfl, ?_⟩
      induction ps with
      | nil => rfl
      | cons q qs ih =>
          obtain ⟨hq, hqs⟩ := List.forall_mem_cons.mp hps
          have hrest := ih (List.forall_mem_cons.mpr ⟨h p List.mem_cons_self, hqs⟩) hqs
          simp only [List.takeWhile_cons, decide_eq_true_eq, hq.used, hrest]

/-- All records are seen exactly if those behind the first one are in use. -/
theorem seenFrom_eq_self {p : ℕ} {ps : List ℕ} :
    seenFrom blk (p :: ps) = p :: ps ↔ ∀ q ∈ ps, Used blk q := by
  unfold seenFrom
  rw [List.cons.injEq, List.takeWhile_eq_self_iff]
  simp

section Insert

variable (hused : Used blk r) (hname : dName blk r ≠ name)

include hused hname

/-- A record in use with another name is passed by. -/
theorem find_seenFrom_insert (hne : front ≠ []) :
    (seenFrom blk (front ++ r :: back)).find? (fun q => decide (dName blk q = name)) =
      (seenFrom blk (front ++ back)).find? fun q => decide (dName blk q = name) := by
  obtain ⟨p, ps, rfl⟩ := List.exists_cons_of_ne_nil hne
  unfold seenFrom
  simp only [List.cons_append, List.find?_cons]
  congr 1
  induction ps with
  | nil => simp [hused, hname]
  | cons q qs ih =>
      have hrest := ih (List.cons_ne_nil p qs)
      by_cases hq : Used blk q
      · simp only [List.cons_append, List.takeWhile_cons, hq, decide_true, if_true,
          List.find?_cons, hrest]
      · simp [hq]

omit hname in
theorem seenFrom_insert_iff (hne : front ≠ []) :
    seenFrom blk (front ++ r :: back) = front ++ r :: back ↔
      seenFrom blk (front ++ back) = front ++ back := by
  obtain ⟨p, ps, rfl⟩ := List.exists_cons_of_ne_nil hne
  rw [List.cons_append, List.cons_append, seenFrom_eq_self, seenFrom_eq_self]
  simp only [List.mem_append, List.mem_cons]
  constructor
  · exact fun h q hq => h q (hq.imp_right Or.inr)
  · rintro h q (hq | rfl | hq)
    · exact h q (Or.inl hq)
    · exact hused
    · exact h q (Or.inr hq)

end Insert

/-- One record more, which is in use and has another name, makes no difference. -/
theorem blockOutcome_insert (hrecords : records size blk = front ++ back)
    (hrecords' : records size blk' = front ++ r :: back) (hne : front ≠ [])
    (halike : ∀ p ∈ front ++ back, Alike blk' blk p) (hused : Used blk' r)
    (hname : dName blk' r ≠ name) : blockOutcome size blk name = blockOutcome size blk' name := by
  have hseen := seenFrom_congr halike
  have hfind : (seenFrom blk (front ++ back)).find? (fun q => decide (dName blk q = name)) =
      (seenFrom blk' (front ++ r :: back)).find? fun q => decide (dName blk' q = name) := by
    rw [find_seenFrom_insert hused hname hne, hseen]
    apply List.find?_congr
    intro q hq
    rw [(halike q (seenFrom_subset hq)).dName]
  unfold blockOutcome firstSeen seen
  rw [hrecords, hrecords', hfind]
  cases hcase : (seenFrom blk' (front ++ r :: back)).find? fun q => decide (dName blk' q = name) with
  | some q =>
      rw [hcase] at hfind
      have hmem := seenFrom_subset (List.mem_of_find?_eq_some hfind)
      dsimp only
      rw [(halike q hmem).dInode]
  | none =>
      dsimp only
      rw [hseen]
      simp only [seenFrom_insert_iff hused hne]

/-- A record which is seen and is not the first one is in use. -/
theorem used_of_seen {p q : ℕ} {ps : List ℕ} (hq : q ∈ seenFrom blk (p :: ps)) (hne : q ≠ p) :
    Used blk q := by
  have htail := (List.mem_cons.mp hq).resolve_left hne
  simpa using List.mem_takeWhile_imp htail

namespace Fs

variable {fs fs' : Fs} {dir : InodeM} {b i : ℕ} {bs : List ℕ}

/-! ## The blocks of a directory -/

theorem firstFound_congr (hsize : fs'.sb.blocksize = fs.sb.blocksize)
    (h : ∀ c ∈ bs, blockOutcome fs.sb.blocksize (fs'.blocks c) name =
      blockOutcome fs.sb.blocksize (fs.blocks c) name) :
    fs'.firstFound name bs = fs.firstFound name bs := by
  induction bs with
  | nil => rfl
  | cons c cs ih =>
      obtain ⟨hc, hcs⟩ := List.forall_mem_cons.mp h
      rw [firstFound, firstFound, hsize, hc, ih hcs]

theorem firstFound_absent (h : ∀ c ∈ bs, ∀ p ∈ records fs.sb.blocksize (fs.blocks c),
    dName (fs.blocks c) p ≠ name) : (fs.firstFound name bs).toOption.join = none := by
  cases hfound : fs.firstFound name bs with
  | error e => rfl
  | ok found =>
      cases found with
      | none => rfl
      | some ino =>
          obtain ⟨before, b, behind, p, rfl, -, hp, -⟩ := firstFound_some.mp hfound
          obtain ⟨hmem, hname⟩ := firstSeen_mem hp
          exact (h b (List.mem_append_right _ List.mem_cons_self) p hmem hname).elim

theorem reached_congr {d : ℕ} (hindir : fs'.indirBlocks = fs.indirBlocks)
    (h : ∀ c ∈ index fs.pointer fs.indirBlocks d b, fs'.blocks c = fs.blocks c) :
    fs'.reached d b = fs.reached d b := by
  induction d generalizing b with
  | zero => rfl
  | succ d ih =>
      rw [reached, reached]
      by_cases hb : b = 0
      · rw [if_pos hb, if_pos hb]
      · have hself : fs'.pointer b = fs.pointer b := by
          funext k
          unfold pointer
          rw [h b (self_mem_index hb)]
        rw [if_neg hb, if_neg hb, hindir, hself]
        apply List.flatMap_congr
        intro c hc
        obtain ⟨k, hk, rfl⟩ := List.mem_map.mp ((List.takeWhile_sublist _).subset hc)
        exact ih fun c' hc' => h c' (child_mem_index hb (List.mem_range.mp hk) hc')

theorem searched_setBlock (hb : b ∉ fs.fileIndex dir) :
    (fs.setBlock b blk).searched dir = fs.searched dir := by
  have hreached : ∀ i < 15, (fs.setBlock b blk).reached (levelsOf i) (dir.iBlock i) =
      fs.reached (levelsOf i) (dir.iBlock i) := by
    intro i hi
    apply reached_congr (SameGeometry.setBlock fs b blk).indirBlocks
    intro c hc
    have hne : c ≠ b := by
      rintro rfl
      exact hb (List.mem_flatMap.mpr ⟨i, List.mem_range.mpr hi, hc⟩)
    exact Function.update_of_ne hne _ _
  have hindirect := hreached 12 (by omega)
  have hdindirect := hreached 13 (by omega)
  have htindirect := hreached 14 (by omega)
  unfold searched
  dsimp only [levelsOf, InodeM.indirectBlock, InodeM.dindirectBlock, InodeM.tindirectBlock] at *
  rw [hindirect, hdindirect, htindirect]

/-- The search comes to a direct block by way of those in front of it. -/
theorem searched_split (hi : i < 12) (h : ∀ j ≤ i, dir.iBlock j ≠ 0) :
    ∃ rest, fs.searched dir = (List.range i).map dir.iBlock ++ dir.iBlock i :: rest := by
  have hdirect : ∃ rest, directBlocks dir =
      (List.range i).map dir.iBlock ++ dir.iBlock i :: rest := by
    have hrange : List.range 12 = List.range i ++ i :: (List.range (11 - i)).map (i + 1 + ·) := by
      have hsum : 12 = i + 1 + (11 - i) := by omega
      conv_lhs => rw [hsum, List.range_add, List.range_succ]
      simp
    refine ⟨(((List.range (11 - i)).map (i + 1 + ·)).map dir.iBlock).takeWhile (· ≠ 0), ?_⟩
    unfold directBlocks
    rw [hrange, List.map_append, List.takeWhile_append_of_pos, List.map_cons,
      List.takeWhile_cons_of_pos]
    · simpa using h i le_rfl
    · intro c hc
      obtain ⟨j, hj, rfl⟩ := List.mem_map.mp hc
      simpa using h j (List.mem_range.mp hj).le
  obtain ⟨rest, hrest⟩ := hdirect
  unfold searched
  split
  · exact ⟨rest, hrest⟩
  · dsimp only
    rw [hrest, List.append_assoc, List.cons_append]
    exact ⟨_, rfl⟩

end Fs

namespace Volume

variable {v : Volume} {others : ℕ → List ℕ} {d k b : ℕ}

/-! ## Volumes in order -/

/-- The blocks of the directories and of the long links are theirs alone, and every directory has a
first block and is a chain of records in every block. -/
structure InOrder (v : Volume) (others : ℕ → List ℕ) : Prop where
  owns : ∀ d, isDir (v.inode d).iMode → v.fs.Owns (v.inode d) (others d)
  apart : ∀ d, isDir (v.inode d).iMode → ∀ k ≠ d, v.allocated k ⊆ others d
  first : ∀ d, isDir (v.inode d).iMode → (v.inode d).iBlock 0 ≠ 0
  wellFormed : ∀ d, isDir (v.inode d).iMode → v.fs.WellFormedDir (v.inode d)
  texts : ∀ l, isLnk (v.inode l).iMode → fastSymlinkLen ≤ (v.inode l).iSize →
    (v.inode l).iBlock 0 ∈ v.allocated l

/-- What is found in a directory has its own number, and `..` is the way back. -/
structure IsTree (v : Volume) (others : ℕ → List ℕ) : Prop extends InOrder v others where
  numbers : ∀ d name num, isDir (v.inode d).iMode → v.tree.lookup d name = some num →
    num ≠ 0 → (v.inode num).iNum = num
  parents : ∀ d name num, isDir (v.inode d).iMode → v.tree.lookup d name = some num →
    isDir (v.inode num).iMode → name ≠ dot → name ≠ dotDot → v.tree.lookup num dotDot = some d

theorem kind_dir_iff : v.searches.kind d = .dir ↔ isDir (v.inode d).iMode := by
  change kindOf (v.inode d).iMode = .dir ↔ _
  unfold kindOf
  split
  next hdir => simp [hdir]
  next hdir => split <;> simp [hdir]

section InOrder

variable (h : v.InOrder others) (hdir : isDir (v.inode d).iMode)

include h hdir

theorem findEntry_dir : v.fs.findEntry (v.inode d) name =
    v.fs.firstFound name (v.fs.searched (v.inode d)) :=
  Fs.findEntry_eq (fun b hb => (Fs.searched_subset b hb).1)
    fun b hb => h.wellFormed d hdir b (Fs.searched_subset b hb).2

theorem lookup_dir : v.tree.lookup d name =
    (v.fs.firstFound name (v.fs.searched (v.inode d))).toOption.join := by
  rw [← findEntry_dir h hdir]
  rfl

theorem ends_dir : v.searches.ends d name = true := by
  change decide (v.fs.findEntry (v.inode d) name ≠ .error .endless) = true
  rw [findEntry_dir h hdir, decide_eq_true_iff]
  generalize v.fs.searched (v.inode d) = bs
  induction bs with
  | nil => exact fun hend => by cases hend
  | cons b bs ih =>
      rw [Fs.firstFound]
      unfold blockOutcome
      cases firstSeen v.fs.sb.blocksize (v.fs.blocks b) name with
      | some p => exact fun hend => by cases hend
      | none =>
          dsimp only
          split
          next => exact fun hend => by cases hend
          next => exact ih

end InOrder

/-! ## A block of a directory is changed -/

def setBlock (v : Volume) (b : ℕ) (blk : Bytes) : Volume := { v with fs := v.fs.setBlock b blk }

theorem not_isDir_of_isLnk {mode : ℕ} (h : isLnk mode) : ¬isDir mode := by
  intro hdir
  unfold isLnk at h
  unfold isDir at hdir
  rw [h] at hdir
  exact absurd hdir (by decide)

section SetBlock

variable (h : v.InOrder others) (hdir : isDir (v.inode d).iMode)
  (hb : b ∈ v.fs.dataBlocks (v.inode d))

include h hdir hb

theorem not_mem_allocated (hk : k ≠ d) : b ∉ v.allocated k := by
  intro hin
  have hown := h.owns d hdir
  exact hown.not_mem_others (hown.dataBlocks_allocated hb) (h.apart d hdir k hk hin)

/-- No directory hangs on the block. -/
theorem not_mem_index (hdir' : isDir (v.inode k).iMode) : b ∉ v.fs.fileIndex (v.inode k) := by
  by_cases hk : k = d
  · subst hk
    exact data_not_mem_index (h.owns k hdir) hb
  · intro hin
    exact not_mem_allocated h hdir hb hk ((h.owns k hdir').fileIndex_allocated hin)

theorem text_setBlock : (v.setBlock b blk).searches.text = v.searches.text := by
  funext l
  change (followText (v.fs.setBlock b blk) (v.inode l)).toOption.join.getD [] =
    (followText v.fs (v.inode l)).toOption.join.getD []
  unfold followText
  by_cases hlink : isLnk (v.inode l).iMode
  · by_cases hshort : (v.inode l).iSize < fastSymlinkLen
    · rw [if_pos hshort, if_pos hshort]
    · have hne : (v.inode l).iBlock 0 ≠ b := by
        intro heq
        have hl : l ≠ d := by
          rintro rfl
          exact not_isDir_of_isLnk hlink hdir
        exact not_mem_allocated h hdir hb hl (heq ▸ h.texts l hlink (Nat.not_lt.mp hshort))
      rw [if_neg hshort, if_neg hshort]
      have hsame : (v.fs.setBlock b blk).blocks ((v.inode l).iBlock 0) =
          v.fs.blocks ((v.inode l).iBlock 0) := Function.update_of_ne hne _ _
      rw [hsame]
      rfl
  · rw [if_pos hlink, if_pos hlink]

variable (blk) in
theorem sameInodes_setBlock : SameInodes v.searches (v.setBlock b blk).searches where
  kind := funext fun _ => rfl
  mayEnter := funext fun _ => rfl
  text := text_setBlock h hdir hb

theorem InOrder.setBlock (hblk : WellFormed v.fs.sb.blocksize blk) :
    (v.setBlock b blk).InOrder others where
  owns k hdir' := (h.owns k hdir').setBlock blk
    (fun g hg => (h.owns d hdir).held.owned_ne_bitmap
      (List.mem_append_left _ ((h.owns d hdir).dataBlocks_allocated hb)) hg)
    (not_mem_index h hdir hb hdir')
  apart := h.apart
  first := h.first
  wellFormed k hdir' := by
    intro c hc
    have hdata : (v.fs.setBlock b blk).dataBlocks (v.inode k) = v.fs.dataBlocks (v.inode k) := by
      apply Fs.dataBlocks_congr (Fs.SameGeometry.setBlock _ _ _) rfl
      intro c hc
      have hne : c ≠ b := fun heq => not_mem_index h hdir hb hdir' (heq ▸ hc)
      exact Function.update_of_ne hne _ _
    have hmem : c ∈ v.fs.dataBlocks (v.inode k) := hdata ▸ hc
    change WellFormed v.fs.sb.blocksize (Function.update v.fs.blocks b blk c)
    by_cases hcb : c = b
    · rw [hcb, Function.update_self]
      exact hblk
    · rw [Function.update_of_ne hcb]
      exact h.wellFormed k hdir' c hmem
  texts := h.texts

variable (hblk : WellFormed v.fs.sb.blocksize blk)

include hblk

theorem lookup_setBlock_dir (hdir' : isDir (v.inode k).iMode) :
    (v.setBlock b blk).tree.lookup k name =
      ((v.fs.setBlock b blk).firstFound name (v.fs.searched (v.inode k))).toOption.join := by
  have hinOrder : (v.setBlock b blk).InOrder others := h.setBlock hdir hb hblk
  rw [lookup_dir hinOrder hdir']
  exact congrArg (fun bs => ((v.fs.setBlock b blk).firstFound name bs).toOption.join)
    (Fs.searched_setBlock (not_mem_index h hdir hb hdir'))

/-- Where the search in the block comes to the same, the directories hold the same. -/
theorem lookup_setBlock (hdir' : isDir (v.inode k).iMode)
    (hsame : k = d → blockOutcome v.fs.sb.blocksize blk name =
      blockOutcome v.fs.sb.blocksize (v.fs.blocks b) name) :
    (v.setBlock b blk).tree.lookup k name = v.tree.lookup k name := by
  rw [lookup_setBlock_dir h hdir hb hblk hdir', lookup_dir h hdir']
  congr 2
  refine Fs.firstFound_congr (congrArg Superblock.blocksize (Fs.setBlock_sb v.fs b blk)) ?_
  intro c hc
  unfold Fs.setBlock
  dsimp only
  by_cases hcb : c = b
  · subst hcb
    rw [Function.update_self]
    by_cases hk : k = d
    · exact hsame hk
    · have hmem := (Fs.searched_subset c hc).2
      exact (not_mem_allocated h hdir hb hk ((h.owns k hdir').dataBlocks_allocated hmem)).elim
  · rw [Function.update_of_ne hcb]

end SetBlock

end Volume

end Yak.Ext2
