import Yak.AddressSpace

/-!
# The loops over page tables

What `pg_table_cow`, `copy_page_table` and the two loops of `copy_address_space`
do to the frames, each as one equation.
-/

namespace Yak.Paging

open PageFrames (noFreePage)
open Process (Slot)

/-! ## Entries -/

variable {a e : BitVec 32}

/-- The entry without the permission to write. -/
def readOnly (e : BitVec 32) : BitVec 32 := e &&& ~~~pageWritable

/-- The entry with this frame and the flags of the other entry. -/
def redirect (a e : BitVec 32) : BitVec 32 := a ||| (e &&& 0xFFF#32)

theorem and_not_writable (e : BitVec 32) : e &&& ~~~pageWritable = readOnly e := rfl

theorem or_and_flags (a e : BitVec 32) : a ||| (e &&& 0xFFF#32) = redirect a e := rfl

theorem has_and {e mask flag : BitVec 32} (h : mask &&& flag = flag) :
    Has (e &&& mask) flag ↔ Has e flag := by
  unfold Has
  rw [BitVec.and_assoc, h]

@[simp] theorem has_readOnly_present : Has (readOnly e) pagePresent ↔ Has e pagePresent :=
  has_and (by decide)

@[simp] theorem has_readOnly_user : Has (readOnly e) pageUser ↔ Has e pageUser :=
  has_and (by decide)

@[simp] theorem not_has_readOnly_writable : ¬ Has (readOnly e) pageWritable := by
  unfold Has readOnly
  rw [BitVec.and_assoc, show ~~~pageWritable &&& pageWritable = 0#32 by decide, BitVec.and_zero]
  exact fun h => h rfl

theorem frameNo_and {mask : BitVec 32} (h : frameNo mask = 0xFFFFF#20) :
    frameNo (e &&& mask) = frameNo e := by
  unfold frameNo at *
  rw [BitVec.extractLsb'_and, h]
  exact BitVec.and_allOnes

@[simp] theorem frameNo_readOnly : frameNo (readOnly e) = frameNo e := frameNo_and (by decide)

@[simp] theorem frameNo_and_mask : frameNo (e &&& 0xFFFFF000#32) = frameNo e :=
  frameNo_and (by decide)

theorem frameNo_or {b : BitVec 32} (h : frameNo b = 0#20) : frameNo (e ||| b) = frameNo e := by
  unfold frameNo at *
  rw [BitVec.extractLsb'_or, h, BitVec.or_zero]

@[simp] theorem frameNo_redirect : frameNo (redirect a e) = frameNo a := by
  apply frameNo_or
  unfold frameNo
  rw [BitVec.extractLsb'_and, show BitVec.extractLsb' 12 20 0xFFF#32 = 0#20 by decide,
    BitVec.and_zero]

@[simp] theorem frameNo_or_writable : frameNo (e ||| pageWritable) = frameNo e :=
  frameNo_or (by decide)

theorem has_or {b flag : BitVec 32} (h : b &&& flag = 0#32) : Has (e ||| b) flag ↔ Has e flag := by
  unfold Has
  rw [BitVec.and_or_distrib_right, h, BitVec.or_zero]

theorem has_or_right {a b flag : BitVec 32} (h : Has b flag) : Has (a ||| b) flag := by
  unfold Has at *
  rw [BitVec.and_or_distrib_right]
  exact fun hzero => h (BitVec.or_eq_zero_iff.mp hzero).2

theorem has_or_left {a b flag : BitVec 32} (h : Has a flag) : Has (a ||| b) flag := by
  rw [BitVec.or_comm]
  exact has_or_right h

@[simp] theorem has_or_writable_present : Has (e ||| pageWritable) pagePresent ↔
    Has e pagePresent := has_or (by decide)

@[simp] theorem has_or_writable_user : Has (e ||| pageWritable) pageUser ↔ Has e pageUser :=
  has_or (by decide)

theorem has_redirect {flag : BitVec 32} (ha : a &&& 0xFFF#32 = 0#32)
    (hflag : 0xFFF#32 &&& flag = flag) : Has (redirect a e) flag ↔ Has e flag := by
  have hzero : a &&& flag = 0#32 := by
    rw [← hflag, ← BitVec.and_assoc, ha, BitVec.zero_and]
  unfold Has redirect
  rw [BitVec.and_or_distrib_right, hzero, BitVec.zero_or, BitVec.and_assoc, hflag]

theorem frameNo_shiftLeft (f : Frame) : frameNo (f.setWidth 32 <<< 12) = f := by
  unfold frameNo
  ext i hi
  have h32 : 12 + i < 32 := by omega
  have hle : ¬ 12 + i < 12 := by omega
  simp [h32, hle, BitVec.getLsbD_eq_getElem hi]

/-! ## One page table -/

/-- The entry after `pg_table_cow`. -/
def cowEntry (e : BitVec 32) : BitVec 32 := if Has e pagePresent then readOnly e else e

@[simp] theorem has_cowEntry_present : Has (cowEntry e) pagePresent ↔ Has e pagePresent := by
  unfold cowEntry
  split <;> simp

theorem readOnly_readOnly : readOnly (readOnly e) = readOnly e := by
  unfold readOnly
  rw [BitVec.and_assoc, BitVec.and_self]

@[simp] theorem cowEntry_cowEntry : cowEntry (cowEntry e) = cowEntry e := by
  unfold cowEntry
  by_cases h : Has e pagePresent
  · rw [if_pos h, if_pos (has_readOnly_present.mpr h), readOnly_readOnly]
  · rw [if_neg h, if_neg h]

def cowPage (page : Page) : Page := fun j => cowEntry (page j)

/-- The number of entries of the page which lead to the frame. -/
def refs (page : Page) (l : List Index) (f : Frame) : ℕ :=
  l.countP fun j => Has (page j) pagePresent ∧ frameNo (page j) = f

theorem refs_cons (page : Page) (i : Index) (l : List Index) (f : Frame) :
    refs page (i :: l) f =
      refs page l f + if Has (page i) pagePresent ∧ frameNo (page i) = f then 1 else 0 := by
  unfold refs
  rw [List.countP_cons]
  congr 1
  by_cases h : Has (page i) pagePresent ∧ frameNo (page i) = f <;> simp [h]

theorem refs_congr {page page' : Page} {l : List Index} (h : ∀ j ∈ l, page' j = page j)
    (f : Frame) : refs page' l f = refs page l f := by
  apply List.countP_congr
  intro j hj
  rw [h j hj]

/-- An entry which the page has only once is counted once. -/
theorem refs_eq_one {page : Page} {f : Frame} {j : Index} (hj : Has (page j) pagePresent)
    (hf : frameNo (page j) = f)
    (honce : ∀ k, Has (page k) pagePresent → frameNo (page k) = f → k = j) :
    refs page (List.finRange 1024) f = 1 := by
  have hcount : refs page (List.finRange 1024) f = (List.finRange 1024).count j := by
    unfold refs List.count
    apply List.countP_congr
    intro k _
    simp only [decide_eq_true_eq, beq_iff_eq]
    constructor
    · exact fun h => honce k h.1 h.2
    · rintro rfl
      exact ⟨hj, hf⟩
  rw [hcount]
  exact List.count_eq_one_of_mem (List.nodup_finRange 1024) (List.mem_finRange j)

theorem refs_eq_zero {page : Page} {f : Frame}
    (h : ∀ k, Has (page k) pagePresent → frameNo (page k) ≠ f) (l : List Index) :
    refs page l f = 0 := by
  unfold refs
  rw [List.countP_eq_zero]
  intro k _
  simp only [decide_eq_true_eq, not_and]
  exact h k

namespace Machine

variable {m m' : Machine} {i j : Index} {f : Frame}

theorem getTmpPage_frameNo (m : Machine) : frameNo m.getTmpPage = m.tmpPage :=
  frameNo_shiftLeft m.tmpPage

/-- The loop of `pg_table_cow` over some of the entries. -/
theorem foldl_pgTableCowEntry (incRef : Bool) (l : List Index) (hl : l.Nodup) :
    ∀ m : Machine, l.foldl (pgTableCowEntry incRef) m =
      { m with
        mem := Function.update m.mem m.tmpPage fun j =>
          if j ∈ l then cowEntry (m.mem m.tmpPage j) else m.mem m.tmpPage j
        counts := fun f =>
          m.counts f +
            BitVec.ofNat 8 (if incRef then refs (m.mem m.tmpPage) l f else 0) } := by
  induction l with
  | nil =>
      intro m
      simp [refs]
  | cons i l ih =>
      intro m
      obtain ⟨hi, hl⟩ := List.nodup_cons.mp hl
      rw [List.foldl_cons, ih hl]
      have hstay : ∀ page : Page, ∀ e, ∀ j ∈ l, Function.update page i e j = page j := by
        intro page e j hj
        apply Function.update_of_ne
        rintro rfl
        exact hi hj
      by_cases hp : Has (m.mem m.tmpPage i) pagePresent
      · have hentry : pgTableCowEntry incRef m i =
            { m with
              mem := Function.update m.mem m.tmpPage
                (Function.update (m.mem m.tmpPage) i (readOnly (m.mem m.tmpPage i)))
              counts := if incRef then Function.update m.counts (frameNo (m.mem m.tmpPage i))
                (m.counts (frameNo (m.mem m.tmpPage i)) + 1#8) else m.counts } := by
          unfold pgTableCowEntry tmp
          rw [if_pos hp]
          cases incRef with
          | false => rfl
          | true =>
              simp only [if_true, pageIncreaseCount, setCount, setTmp, setTmpPage,
                Function.update_self, frameNo_and_mask, and_not_writable, frameNo_readOnly]
        rw [hentry]
        ext1
        · simp only [Function.update_self, Function.update_idem]
          congr 1
          funext j
          by_cases hj : j = i
          · subst hj
            simp [hi, cowEntry, hp]
          · simp [hj]
        · funext f
          simp only [Function.update_self]
          rw [refs_congr (hstay _ _), refs_cons]
          cases incRef with
          | false => simp
          | true =>
              by_cases hf : frameNo (m.mem m.tmpPage i) = f
              · subst hf
                simp only [if_true, Function.update_self, hp, and_self]
                rw [BitVec.ofNat_add, BitVec.add_assoc, BitVec.add_comm 1#8]
              · simp only [if_true, hf, and_false, if_false, Nat.add_zero]
                rw [Function.update_of_ne (Ne.symm hf)]
        · rfl
        · rfl
      · have hentry : pgTableCowEntry incRef m i = m := by
          unfold pgTableCowEntry tmp
          rw [if_neg hp]
        rw [hentry]
        ext1
        · simp only
          congr 1
          funext j
          by_cases hj : j = i
          · subst hj
            simp [hi, cowEntry, hp]
          · simp [hj]
        · funext f
          simp only
          rw [refs_cons]
          simp only [hp, false_and, if_false, Nat.add_zero]
        · rfl
        · rfl

theorem pgTableCow_eq (m : Machine) (t : BitVec 32) (incRef : Bool) :
    m.pgTableCow t incRef =
      { m with
        mem := Function.update m.mem (frameNo t) (cowPage (m.mem (frameNo t)))
        counts := fun f =>
          m.counts f + BitVec.ofNat 8
            (if incRef then refs (m.mem (frameNo t)) (List.finRange 1024) f else 0) } := by
  unfold pgTableCow
  simp only
  rw [foldl_pgTableCowEntry incRef _ (List.nodup_finRange 1024)]
  simp only [tmpMapPage, frameNo_and_mask, getTmpPage_frameNo, List.mem_finRange, if_true]
  rfl

theorem copyPageTable_eq (m : Machine) (dst src : BitVec 32) :
    m.copyPageTable dst src =
      { m with mem := Function.update m.mem (frameNo dst) (m.mem (frameNo src)) } := by
  unfold copyPageTable
  simp only [tmpMapPage, setTmpPage, getTmpPage_frameNo]

/-! ## The loops of `copy_address_space` -/

/-- The page directory has a page table of the user at this index. -/
def OpenAt (page : Page) (i : Index) : Prop :=
  Has (page i) pagePresent ∧ Has (page i) pageUser

instance (page : Page) (i : Index) : Decidable (OpenAt page i) :=
  inferInstanceAs (Decidable (_ ∧ _))

/-- The frame is a page table of the user for one of the indices. -/
def TableAt (page : Page) (l : List Index) (f : Frame) : Prop :=
  ∃ i ∈ l, OpenAt page i ∧ frameNo (page i) = f

instance (page : Page) (l : List Index) (f : Frame) : Decidable (TableAt page l f) :=
  inferInstanceAs (Decidable (∃ i ∈ l, _))

/-- The page directory after the first loop. -/
def cowDir (page : Page) (l : List Index) : Page := fun i =>
  if i ∈ l ∧ OpenAt page i then readOnly (page i) else page i

theorem foldl_cowDirEntry (l : List Index) (hl : l.Nodup) :
    ∀ m : Machine, (∀ i, OpenAt (m.mem m.tmpPage) i → frameNo (m.mem m.tmpPage i) ≠ m.tmpPage) →
      l.foldl cowDirEntry m =
        { m with
          mem := fun f =>
            if f = m.tmpPage then cowDir (m.mem m.tmpPage) l
            else if TableAt (m.mem m.tmpPage) l f then cowPage (m.mem f) else m.mem f } := by
  induction l with
  | nil =>
      intro m _
      ext1
      · funext f
        by_cases hf : f = m.tmpPage
        · subst hf
          funext j
          simp [cowDir]
        · simp [TableAt, hf]
      · rfl
      · rfl
      · rfl
  | cons i l ih =>
      intro m hapart
      obtain ⟨hi, hl⟩ := List.nodup_cons.mp hl
      rw [List.foldl_cons]
      by_cases ho : OpenAt (m.mem m.tmpPage) i
      · have hne := hapart i ho
        have hentry : cowDirEntry m i =
            { m with
              mem := Function.update
                (Function.update m.mem (frameNo (m.mem m.tmpPage i))
                  (cowPage (m.mem (frameNo (m.mem m.tmpPage i)))))
                m.tmpPage
                (Function.update (m.mem m.tmpPage) i (readOnly (m.mem m.tmpPage i))) } := by
          have hboth : Has (m.tmp i) pagePresent ∧ Has (m.tmp i) pageUser := ho
          unfold cowDirEntry
          rw [if_pos hboth, pgTableCow_eq]
          unfold tmp
          ext1
          · simp only [setTmp, setTmpPage]
            rw [Function.update_of_ne (Ne.symm hne)]
            rfl
          · simp [setTmp, setTmpPage]
          · rfl
          · rfl
        have hdir : (cowDirEntry m i).mem m.tmpPage =
            Function.update (m.mem m.tmpPage) i (readOnly (m.mem m.tmpPage i)) := by
          rw [hentry]
          exact Function.update_self ..
        have htmp : (cowDirEntry m i).tmpPage = m.tmpPage := by rw [hentry]
        have hopen : ∀ k, OpenAt ((cowDirEntry m i).mem m.tmpPage) k ↔
            OpenAt (m.mem m.tmpPage) k := by
          intro k
          rw [hdir]
          unfold OpenAt
          by_cases hk : k = i
          · subst hk
            simp
          · rw [Function.update_of_ne hk]
        have hframe : ∀ k, frameNo ((cowDirEntry m i).mem m.tmpPage k) =
            frameNo (m.mem m.tmpPage k) := by
          intro k
          rw [hdir]
          by_cases hk : k = i
          · subst hk
            simp
          · rw [Function.update_of_ne hk]
        have htable : ∀ f, TableAt ((cowDirEntry m i).mem m.tmpPage) l f ↔
            TableAt (m.mem m.tmpPage) l f := by
          intro f
          unfold TableAt
          simp only [hopen, hframe]
        rw [ih hl]
        · rw [htmp]
          ext1
          · funext f j
            simp only
            by_cases hf : f = m.tmpPage
            · subst hf
              rw [if_pos rfl, if_pos rfl]
              unfold cowDir
              simp only [hopen, List.mem_cons]
              rw [hdir]
              by_cases hj : j = i
              · subst hj
                rw [Function.update_self, if_neg (fun h => hi h.1), if_pos ⟨Or.inl rfl, ho⟩]
              · rw [Function.update_of_ne hj]
                simp only [hj, false_or]
            · rw [if_neg hf, if_neg hf]
              simp only [htable]
              have hcons : TableAt (m.mem m.tmpPage) (i :: l) f ↔
                  frameNo (m.mem m.tmpPage i) = f ∨ TableAt (m.mem m.tmpPage) l f := by
                unfold TableAt
                simp [ho]
              have hmem : (cowDirEntry m i).mem f =
                  Function.update m.mem (frameNo (m.mem m.tmpPage i))
                    (cowPage (m.mem (frameNo (m.mem m.tmpPage i)))) f := by
                rw [hentry]
                exact Function.update_of_ne hf ..
              rw [hmem]
              simp only [hcons]
              by_cases ht : f = frameNo (m.mem m.tmpPage i)
              · subst ht
                simp only [Function.update_self, true_or, if_true]
                split
                · exact cowEntry_cowEntry
                · rfl
              · rw [Function.update_of_ne ht]
                simp only [Ne.symm ht, false_or]
          · rw [hentry]
          · rfl
          · rw [hentry]
        · intro k hk
          rw [htmp] at hk ⊢
          rw [hframe]
          exact hapart k ((hopen k).mp hk)
      · have hentry : cowDirEntry m i = m := by
          have hboth : ¬ (Has (m.tmp i) pagePresent ∧ Has (m.tmp i) pageUser) := ho
          unfold cowDirEntry
          rw [if_neg hboth]
        rw [hentry, ih hl m hapart]
        have hcons : ∀ f, TableAt (m.mem m.tmpPage) (i :: l) f ↔
            TableAt (m.mem m.tmpPage) l f := by
          intro f
          unfold TableAt
          simp [ho]
        ext1
        · funext f
          simp only [hcons]
          have hsame : cowDir (m.mem m.tmpPage) (i :: l) = cowDir (m.mem m.tmpPage) l := by
            funext k
            unfold cowDir
            by_cases hk : k = i
            · subst hk
              simp [ho]
            · simp [hk]
          rw [hsame]
        · rfl
        · rfl
        · rfl

theorem splitTable_eq (m : Machine) (i : Index) (new : BitVec 32)
    (hdir : frameNo new ≠ m.tmpPage) :
    m.splitTable i new =
      { m with
        mem := Function.update
          (Function.update m.mem (frameNo new) (cowPage (m.mem (frameNo (m.mem m.tmpPage i)))))
          m.tmpPage
          (Function.update (m.mem m.tmpPage) i (readOnly (redirect new (m.mem m.tmpPage i))))
        counts := fun f =>
          m.counts f + BitVec.ofNat 8
            (refs (m.mem (frameNo (m.mem m.tmpPage i))) (List.finRange 1024) f) } := by
  unfold splitTable
  simp only [copyPageTable_eq, pgTableCow_eq]
  ext1
  · simp only [tmp, setTmp, setTmpPage, frameNo_and_mask, Function.update_self,
      Function.update_of_ne (Ne.symm hdir), Function.update_idem, or_and_flags, and_not_writable]
  · simp only [tmp, setTmp, setTmpPage, frameNo_and_mask, Function.update_self, if_true]
  · rfl
  · rfl

/-- The second loop of `copy_address_space` at an index with a page table: the
table is copied into a new frame, and the entry leads there. -/
theorem splitDirEntry_open {alloc : Machine → BitVec 32}
    (ho : OpenAt (m.mem m.tmpPage) i) (h : splitDirEntry alloc m i = .ok m') :
    alloc m ≠ BitVec.ofNat 32 noFreePage ∧
      m' = (m.setCount (alloc m) 1#8).splitTable i (alloc m) := by
  have hboth : Has (m.tmp i) pagePresent ∧ Has (m.tmp i) pageUser := ho
  unfold splitDirEntry at h
  rw [if_pos hboth] at h
  by_cases hno : alloc m = BitVec.ofNat 32 noFreePage
  · simp [pageFrameAlloc, hno] at h
  · simp only [pageFrameAlloc, hno, if_false, Except.ok.injEq] at h
    exact ⟨hno, h.symm⟩

theorem splitDirEntry_closed {alloc : Machine → BitVec 32}
    (ho : ¬ OpenAt (m.mem m.tmpPage) i) : splitDirEntry alloc m i = .ok m := by
  have hboth : ¬ (Has (m.tmp i) pagePresent ∧ Has (m.tmp i) pageUser) := ho
  unfold splitDirEntry
  rw [if_neg hboth]

end Machine

end Yak.Paging
