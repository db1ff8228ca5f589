import Yak.Exec

/-!
# Address spaces that are torn down

`free_address_space` walks over page tables, once for each segment, and takes a reference from
every frame of the user in them.  Where each page is met once and has another process, the
counts are right for those who are left.
-/

namespace Yak.Paging

open Process (Slot)
open Exec (Stop)

namespace Machine

variable {m m' : Machine} {role : Frame → Role} {p q : Slot} {i j k l : Index} {t f : Frame}
  {cr3 : BitVec 32}

/-! ## Page tables that are freed -/

/-- The entry is one that `free_page_table` looks at. -/
def UserEntry (e : BitVec 32) : Prop := Has e pagePresent ∧ Has e pageUser

instance (e : BitVec 32) : Decidable (UserEntry e) := inferInstanceAs (Decidable (_ ∧ _))

/-- One of these entries of the page leads to the frame. -/
def LeadsTo (page : Page) (is : List Index) (f : Frame) : Prop :=
  ∃ j ∈ is, UserEntry (page j) ∧ frameNo (page j) = f

instance (page : Page) (is : List Index) (f : Frame) : Decidable (LeadsTo page is f) :=
  inferInstanceAs (Decidable (∃ j ∈ is, _))

/-- An entry whose frame keeps a count takes one reference from it. -/
theorem freeEntry_of_user (hentry : UserEntry (m.mem m.tmpPage i))
    (hone : m.counts (frameNo (m.mem m.tmpPage i)) ≠ 1#8) :
    Exec.freeEntry Exec.pageFrameFree m i = .ok { m with
      counts := Function.update m.counts (frameNo (m.mem m.tmpPage i))
        (m.counts (frameNo (m.mem m.tmpPage i)) - 1#8) } := by
  unfold Exec.freeEntry
  rw [if_pos (show Has (m.tmp i) pagePresent ∧ Has (m.tmp i) pageUser from hentry)]
  unfold pageGetCount pageDecreaseCount setCount
  simp only [frameNo_and_mask]
  rw [Function.update_self, if_neg]
  · rfl
  · intro hzero
    have hsub : m.counts (frameNo (m.tmp i)) - 1#8 = 0#8 :=
      BitVec.toInt_inj.mp (hzero.trans BitVec.toInt_zero.symm)
    exact hone (BitVec.sub_eq_iff_eq_add.mp hsub)

theorem not_leadsTo_nil (page : Page) (f : Frame) : ¬ LeadsTo page [] f := by
  rintro ⟨j, hj, -⟩
  cases hj

theorem leadsTo_cons {page : Page} {is : List Index} :
    LeadsTo page (i :: is) f ↔ UserEntry (page i) ∧ frameNo (page i) = f ∨ LeadsTo page is f := by
  unfold LeadsTo
  rw [List.exists_mem_cons_iff]

theorem foldlM_freeEntry {is : List Index} (hnodup : is.Nodup)
    (hinj : ∀ j j', UserEntry (m.mem m.tmpPage j) → UserEntry (m.mem m.tmpPage j') →
      frameNo (m.mem m.tmpPage j) = frameNo (m.mem m.tmpPage j') → j = j')
    (hcount : ∀ j ∈ is, UserEntry (m.mem m.tmpPage j) →
      m.counts (frameNo (m.mem m.tmpPage j)) ≠ 1#8) :
    is.foldlM (Exec.freeEntry Exec.pageFrameFree) m = .ok { m with
      counts := fun f =>
        if LeadsTo (m.mem m.tmpPage) is f then m.counts f - 1#8 else m.counts f } := by
  induction is generalizing m with
  | nil =>
      simp only [if_neg (not_leadsTo_nil _ _)]
      rfl
  | cons i is ih =>
      obtain ⟨hi, hnodup⟩ := List.nodup_cons.mp hnodup
      rw [List.foldlM_cons]
      by_cases hentry : UserEntry (m.mem m.tmpPage i)
      · have hone := hcount i List.mem_cons_self hentry
        have hother : ∀ j ∈ is, UserEntry (m.mem m.tmpPage j) →
            frameNo (m.mem m.tmpPage j) ≠ frameNo (m.mem m.tmpPage i) :=
          fun j hj huser hsame => hi (hinj j i huser hentry hsame ▸ hj)
        rw [freeEntry_of_user hentry hone, ok_bind, ih hnodup]
        · refine congrArg Except.ok (Machine.ext rfl (funext fun f => ?_) rfl rfl)
          dsimp only
          by_cases hf : f = frameNo (m.mem m.tmpPage i)
          · subst hf
            have hnot : ¬ LeadsTo (m.mem m.tmpPage) is (frameNo (m.mem m.tmpPage i)) := by
              rintro ⟨j, hj, huser, hsame⟩
              exact hother j hj huser hsame
            rw [if_neg hnot, if_pos (leadsTo_cons.mpr (Or.inl ⟨hentry, rfl⟩)),
              Function.update_self]
          · have hiff : LeadsTo (m.mem m.tmpPage) (i :: is) f ↔ LeadsTo (m.mem m.tmpPage) is f :=
              leadsTo_cons.trans (or_iff_right fun hh => hf hh.2.symm)
            rw [Function.update_of_ne hf]
            simp only [hiff]
        · exact hinj
        · intro j hj huser
          dsimp only
          rw [Function.update_of_ne (hother j hj huser)]
          exact hcount j (List.mem_cons_of_mem i hj) huser
      · have hskip : Exec.freeEntry Exec.pageFrameFree m i = .ok m := by
          unfold Exec.freeEntry
          exact if_neg hentry
        rw [hskip, ok_bind, ih hnodup hinj fun j hj => hcount j (List.mem_cons_of_mem i hj)]
        have hiff : ∀ f, LeadsTo (m.mem m.tmpPage) (i :: is) f ↔ LeadsTo (m.mem m.tmpPage) is f :=
          fun f => leadsTo_cons.trans (or_iff_right fun hh => hentry hh.1)
        simp only [hiff]

theorem freePageTable_eq {pgTable : BitVec 32}
    (hinj : ∀ j l, UserEntry (m.mem (frameNo pgTable) j) → UserEntry (m.mem (frameNo pgTable) l) →
      frameNo (m.mem (frameNo pgTable) j) = frameNo (m.mem (frameNo pgTable) l) → j = l)
    (hcount : ∀ j, UserEntry (m.mem (frameNo pgTable) j) →
      m.counts (frameNo (m.mem (frameNo pgTable) j)) ≠ 1#8) :
    Exec.freePageTable Exec.pageFrameFree pgTable m = .ok { m with
      counts := fun f =>
        if LeadsTo (m.mem (frameNo pgTable)) (List.finRange 1024) f then m.counts f - 1#8
        else m.counts f } := by
  have hloop := foldlM_freeEntry (m := m.tmpMapPage pgTable) (List.nodup_finRange 1024) hinj
    fun j _ => hcount j
  unfold Exec.freePageTable
  rw [hloop, ok_bind]
  change Except.ok _ = _
  unfold tmpMapPage
  rw [getTmpPage_frameNo]

/-- `page_frame_free` changes the count of its frame and nothing else. -/
theorem pageFrameFree_frame {page : BitVec 32} (h : Exec.pageFrameFree page m = .ok m') :
    m'.mem = m.mem ∧ m'.cr3 = m.cr3 ∧ m'.tmpPage = m.tmpPage ∧
      ∀ f, f ≠ frameNo page → m'.counts f = m.counts f := by
  have hother : ∀ (c : BitVec 8) (f : Frame), f ≠ frameNo page →
      Function.update m.counts (frameNo page) c f = m.counts f :=
    fun c f hf => Function.update_of_ne hf ..
  unfold Exec.pageFrameFree at h
  dsimp only at h
  split at h
  next =>
    obtain rfl := Except.ok.inj h
    exact ⟨rfl, rfl, rfl, hother _⟩
  next =>
    split at h
    next => cases h
    next =>
      obtain rfl := Except.ok.inj h
      refine ⟨rfl, rfl, rfl, fun f hf => ?_⟩
      exact (Function.update_of_ne hf ..).trans (hother _ f hf)

/-- The process has the frame in one of these page tables. -/
def HasIn (m : Machine) (p : Slot) (tables : List ℕ) (f : Frame) : Prop :=
  ∃ i j, m.frameAt p i j = some f ∧ i.val ∈ tables

/-- The condition for a walk over these page tables: each page of the process is in one of
them, and another process has it as well. -/
structure SafeWalk (m : Machine) (p : Slot) (tables : List ℕ) : Prop where
  user : ∀ i j e, m.leaf p i j = some e → Has e pageUser
  single : ∀ i j e, m.leaf p i j = some e → tables.count i.val = 1
  shared : ∀ i j e, m.leaf p i j = some e →
    ∃ q k l, q ≠ p ∧ m.frameAt q k l = some (frameNo e)
  kernel : ∀ (i : Index) t j, i.val ∈ tables → m.kernelTable p i = some t →
    ¬ UserEntry (m.mem t j)

/-- A walk that has gone over these tables. -/
structure Walked (m₀ m : Machine) (p : Slot) (tables : List ℕ) : Prop where
  mem : m.mem = m₀.mem
  cr3 : m.cr3 = m₀.cr3
  fewer : ∀ f, m₀.HasIn p tables f → m.counts f = m₀.counts f - 1#8
  same : ∀ f, m₀.Mapped f → ¬ m₀.HasIn p tables f → m.counts f = m₀.counts f

section Walk

variable {m₀ : Machine} {tables rest : List ℕ}

theorem HasIn.mapped (h : m.HasIn p tables f) : m.Mapped f := by
  obtain ⟨i, j, hf, -⟩ := h
  exact ⟨p, i, j, hf⟩

theorem hasIn_append {n : ℕ} : m.HasIn p (tables ++ [n]) f ↔
    m.HasIn p tables f ∨ ∃ i j, m.frameAt p i j = some f ∧ i.val = n := by
  constructor
  · rintro ⟨i, j, hf, hi⟩
    rcases List.mem_append.mp hi with hi | hi
    · exact Or.inl ⟨i, j, hf, hi⟩
    · exact Or.inr ⟨i, j, hf, List.mem_singleton.mp hi⟩
  · rintro (⟨i, j, hf, hi⟩ | ⟨i, j, hf, hi⟩)
    · exact ⟨i, j, hf, List.mem_append_left _ hi⟩
    · exact ⟨i, j, hf, List.mem_append_right _ (List.mem_singleton.mpr hi)⟩

/-- A page that two processes have is counted more than once. -/
theorem Sound.counts_ne_one (h : m.Sound role) (hf : m.frameAt p i j = some f)
    (hq : m.frameAt q k l = some f) (hne : q ≠ p) : m.counts f ≠ 1#8 := by
  rw [h.count hf]
  have hp : p ∈ m.sharers (fun _ _ => True) f := mem_sharers.mpr ⟨i, j, hf, trivial⟩
  have hq : q ∈ m.sharers (fun _ _ => True) f := mem_sharers.mpr ⟨k, l, hq, trivial⟩
  have hmany : 1 < (m.sharers (fun _ _ => True) f).card :=
    Finset.one_lt_card.mpr ⟨q, hq, p, hp, hne⟩
  have hle := card_sharers_le m (fun _ _ => True) f
  intro hone
  have hnat := congrArg BitVec.toNat hone
  rw [BitVec.toNat_ofNat] at hnat
  change _ % 2 ^ 8 = 1 at hnat
  omega

/-- The entries of a page table of the process lead to the frames which it has there. -/
theorem SafeWalk.leadsTo (hsafe : m.SafeWalk p tables) (ht : m.userTable p i = some t) :
    LeadsTo (m.mem t) (List.finRange 1024) f ↔ ∃ j, m.frameAt p i j = some f := by
  constructor
  · rintro ⟨j, -, huser, hframe⟩
    exact ⟨j, frameAt_eq_some.mpr ⟨_, leaf_eq_some.mpr ⟨t, ht, huser.1, rfl⟩, hframe⟩⟩
  · rintro ⟨j, hf⟩
    obtain ⟨e, he, hframe⟩ := frameAt_eq_some.mp hf
    obtain ⟨t', ht', hpresent, rfl⟩ := leaf_eq_some.mp he
    obtain rfl := Option.some.inj (ht.symm.trans ht')
    exact ⟨j, List.mem_finRange j, ⟨hpresent, hsafe.user i j _ he⟩, hframe⟩

/-- A table that the walk still comes to was not gone over before. -/
theorem SafeWalk.not_hasIn (hsafe : m.SafeWalk p (tables ++ i.val :: rest)) (h : m.Sound role)
    (hf : m.frameAt p i j = some f) : ¬ m.HasIn p tables f := by
  rintro ⟨k, l, hk, hmem⟩
  obtain ⟨rfl, -⟩ := h.once hf hk
  obtain ⟨e, he, -⟩ := frameAt_eq_some.mp hf
  have hsingle := hsafe.single i j e he
  rw [List.count_append, List.count_cons_self] at hsingle
  have hpos := List.count_pos_iff.mpr hmem
  omega

/-- A table that is not there, or of the kernel, is no table with pages of the process. -/
theorem Walked.skip (h : Walked m₀ m p tables) (hmem : m'.mem = m.mem) (hcr3 : m'.cr3 = m.cr3)
    (hcounts : ∀ f, m₀.Mapped f → m'.counts f = m.counts f)
    (hnone : m₀.userTable p i = none) : Walked m₀ m' p (tables ++ [i.val]) := by
  have hiff : ∀ f, m₀.HasIn p (tables ++ [i.val]) f ↔ m₀.HasIn p tables f := by
    intro f
    rw [hasIn_append]
    apply or_iff_left
    rintro ⟨k, j, hf, hk⟩
    obtain rfl := Fin.ext hk
    rw [frameAt, leaf_eq, hnone] at hf
    cases hf
  refine ⟨hmem.trans h.mem, hcr3.trans h.cr3, fun f hf => ?_, fun f hf hnot => ?_⟩
  · rw [hcounts f hf.mapped]
    exact h.fewer f ((hiff f).mp hf)
  · rw [hcounts f hf]
    exact h.same f hf fun hh => hnot ((hiff f).mpr hh)

/-- The pages in one more table of the user are counted once less. -/
theorem Walked.count (hsound : m₀.Sound role) (hsafe : m₀.SafeWalk p (tables ++ i.val :: rest))
    (h : Walked m₀ m p tables) (ht : m₀.userTable p i = some t) (hmem : m'.mem = m.mem)
    (hcr3 : m'.cr3 = m.cr3)
    (hcounts : ∀ f, m₀.Mapped f → m'.counts f =
      if LeadsTo (m.mem t) (List.finRange 1024) f then m.counts f - 1#8 else m.counts f) :
    Walked m₀ m' p (tables ++ [i.val]) := by
  have hleads : ∀ f, LeadsTo (m.mem t) (List.finRange 1024) f ↔
      ∃ j, m₀.frameAt p i j = some f := by
    intro f
    rw [h.mem]
    exact hsafe.leadsTo ht
  have hfirst : ∀ j f, m₀.frameAt p i j = some f → ¬ m₀.HasIn p tables f :=
    fun j f hf => hsafe.not_hasIn hsound hf
  refine ⟨hmem.trans h.mem, hcr3.trans h.cr3, fun f hf => ?_, fun f hf hnot => ?_⟩
  · rw [hcounts f hf.mapped]
    rcases hasIn_append.mp hf with hold | ⟨k, j, hk, hki⟩
    · rw [if_neg]
      · exact h.fewer f hold
      · rw [hleads]
        rintro ⟨j, hj⟩
        exact hfirst j f hj hold
    · obtain rfl := Fin.ext hki
      rw [if_pos ((hleads f).mpr ⟨j, hk⟩), h.same f ⟨p, k, j, hk⟩ (hfirst j f hk)]
  · rw [hcounts f hf, if_neg]
    · exact h.same f hf fun hh => hnot (hasIn_append.mpr (Or.inl hh))
    · rw [hleads]
      rintro ⟨j, hj⟩
      exact hnot (hasIn_append.mpr (Or.inr ⟨i, j, hj, rfl⟩))

theorem userTable_of_kernelTable (h : m.kernelTable p i = some t) : m.userTable p i = none := by
  obtain ⟨d, hd, hentry, -⟩ := kernelTable_eq_some.mp h
  rw [userTable, hd, Option.bind_some, if_neg fun hopen => hentry.2 hopen.2]

/-- A table of the walk, without a count that comes to 0. -/
theorem Walked.freed (hsound : m₀.Sound role)
    (hsafe : m₀.SafeWalk p (tables ++ i.val :: rest)) (h : Walked m₀ m p tables)
    (ht : m₀.userTable p i = some t ∨ m₀.kernelTable p i = some t) {pgTable : BitVec 32}
    (hframe : frameNo pgTable = t)
    (hrun : Exec.freePageTable Exec.pageFrameFree pgTable m = .ok m') :
    m'.mem = m.mem ∧ m'.cr3 = m.cr3 ∧ m'.tmpPage = m.tmpPage ∧
      ∀ f, m'.counts f =
        if LeadsTo (m.mem t) (List.finRange 1024) f then m.counts f - 1#8 else m.counts f := by
  have hframes : ∀ j, UserEntry (m.mem t j) → m₀.leaf p i j = some (m.mem t j) := by
    intro j huser
    rw [h.mem] at huser ⊢
    rcases ht with ht | ht
    · exact leaf_eq_some.mpr ⟨t, ht, huser.1, rfl⟩
    · have hmem : i.val ∈ tables ++ i.val :: rest :=
        List.mem_append_right _ List.mem_cons_self
      exact absurd huser (hsafe.kernel i t j hmem ht)
  have hinj : ∀ j l, UserEntry (m.mem t j) → UserEntry (m.mem t l) →
      frameNo (m.mem t j) = frameNo (m.mem t l) → j = l := by
    intro j l hj hl hsame
    have hfj := frameAt_of_leaf (hframes j hj)
    have hfl := frameAt_of_leaf (hframes l hl)
    rw [← hsame] at hfl
    exact (hsound.once hfj hfl).2
  have hcount : ∀ j, UserEntry (m.mem t j) → m.counts (frameNo (m.mem t j)) ≠ 1#8 := by
    intro j hj
    have hf := frameAt_of_leaf (hframes j hj)
    obtain ⟨q, k, l, hqp, hq⟩ := hsafe.shared i j _ (hframes j hj)
    rw [h.same _ ⟨p, i, j, hf⟩ (hsafe.not_hasIn hsound hf)]
    exact hsound.counts_ne_one hf hq hqp
  rw [← hframe] at hinj hcount ⊢
  rw [freePageTable_eq hinj hcount] at hrun
  rw [← Except.ok.inj hrun]
  refine ⟨rfl, rfl, rfl, fun f => ?_⟩
  dsimp only

/-- The loop of `virt_free_chunk` goes over one entry of the page directory. -/
theorem Walked.round (hsound : m₀.Sound role) {n : ℕ}
    (hsafe : m₀.SafeWalk p (tables ++ i.val :: rest)) (h : Walked m₀ m p tables)
    (hdir : m₀.dir p = some m.tmpPage)
    (hrun : Exec.freeTables Exec.pageFrameFree (n + 1) i.val m = .ok m') :
    ∃ m₁, Walked m₀ m₁ p (tables ++ [i.val]) ∧ m₁.tmpPage = m.tmpPage ∧
      Exec.freeTables Exec.pageFrameFree n (i.val + 1) m₁ = .ok m' := by
  have hentry : m.tmp i = m₀.mem m.tmpPage i := by
    unfold tmp
    rw [h.mem]
  unfold Exec.freeTables at hrun
  rw [dif_pos i.isLt] at hrun
  change (if Has (m.tmp i) pagePresent then _ else _) = _ at hrun
  split at hrun
  next hpresent =>
    rw [hentry] at hpresent
    have hframe : frameNo (m.tmp i &&& 0xFFFFF000#32) = frameNo (m₀.mem m.tmpPage i) := by
      rw [frameNo_and_mask, hentry]
    have ht : m₀.userTable p i = some (frameNo (m₀.mem m.tmpPage i)) ∨
        m₀.kernelTable p i = some (frameNo (m₀.mem m.tmpPage i)) := by
      by_cases huser : Has (m₀.mem m.tmpPage i) pageUser
      · exact Or.inl (userTable_eq_some.mpr ⟨_, hdir, ⟨hpresent, huser⟩, rfl⟩)
      · exact Or.inr (kernelTable_eq_some.mpr ⟨_, hdir, ⟨hpresent, huser⟩, rfl⟩)
    have hdata : ∀ f, m₀.Mapped f → f ≠ frameNo (m.tmp i &&& 0xFFFFF000#32) := by
      rintro f ⟨q, k, l, hf⟩ rfl
      rw [hframe] at hf
      have hrole := hsound.data_role hf
      rcases ht with ht | ht
      · rw [hsound.user_role ht] at hrole
        cases hrole
      · rw [hsound.kernel_role ht] at hrole
        cases hrole
    obtain ⟨m₁, hm₁, hrest⟩ := bind_eq_ok.mp hrun
    obtain ⟨hmem₁, hcr3₁, htmp₁, hcounts₁⟩ := h.freed hsound hsafe ht hframe hm₁
    have hfinish : ∀ m₂ : Machine, m₂.mem = m₁.mem → m₂.cr3 = m₁.cr3 →
        (∀ f, f ≠ frameNo (m.tmp i &&& 0xFFFFF000#32) → m₂.counts f = m₁.counts f) →
        Walked m₀ m₂ p (tables ++ [i.val]) := by
      intro m₂ hmem hcr3 hcounts
      rcases ht with ht | ht
      · refine h.count hsound hsafe ht (hmem.trans hmem₁) (hcr3.trans hcr3₁) fun f hf => ?_
        rw [hcounts f (hdata f hf), hcounts₁]
      · refine h.skip (hmem.trans hmem₁) (hcr3.trans hcr3₁) (fun f hf => ?_)
          (userTable_of_kernelTable ht)
        rw [hcounts f (hdata f hf), hcounts₁, if_neg]
        rintro ⟨j, -, huser, -⟩
        rw [h.mem] at huser
        exact hsafe.kernel i _ j (List.mem_append_right _ List.mem_cons_self) ht huser
    have hdecreased : ∀ f, f ≠ frameNo (m.tmp i &&& 0xFFFFF000#32) →
        (m₁.pageDecreaseCount (m.tmp i &&& 0xFFFFF000#32)).counts f = m₁.counts f :=
      fun f hf => Function.update_of_ne hf ..
    change (if _ = 0 then _ else _) = _ at hrest
    split at hrest
    next =>
      obtain ⟨m₂, hfree, hrest⟩ := bind_eq_ok.mp hrest
      obtain ⟨hmem, hcr3, htmp, hcounts⟩ := pageFrameFree_frame hfree
      refine ⟨m₂, hfinish m₂ hmem hcr3 fun f hf => ?_, htmp.trans htmp₁, hrest⟩
      exact (hcounts f hf).trans (hdecreased f hf)
    next =>
      exact ⟨m₁.pageDecreaseCount (m.tmp i &&& 0xFFFFF000#32), hfinish _ rfl rfl hdecreased,
        htmp₁, hrest⟩
  next hpresent =>
    rw [hentry] at hpresent
    have hnone : m₀.userTable p i = none := by
      rw [userTable, hdir, Option.bind_some, if_neg fun hopen => hpresent hopen.1]
    exact ⟨m, h.skip rfl rfl (fun _ _ => rfl) hnone, rfl, hrun⟩

theorem Walked.freeTables (hsound : m₀.Sound role) {n a : ℕ}
    (hsafe : m₀.SafeWalk p (tables ++ (List.range' a n ++ rest))) (h : Walked m₀ m p tables)
    (hdir : m₀.dir p = some m.tmpPage)
    (hrun : Exec.freeTables Exec.pageFrameFree n a m = .ok m') :
    Walked m₀ m' p (tables ++ List.range' a n) := by
  induction n generalizing m a tables with
  | zero =>
      obtain rfl := Except.ok.inj hrun
      rw [List.range'_zero, List.append_nil]
      exact h
  | succ n ih =>
      rw [List.range'_succ, List.cons_append] at hsafe
      by_cases ha : a < 1024
      · obtain ⟨m₁, hwalked, htmp, hrest⟩ := h.round (i := ⟨a, ha⟩) hsound hsafe hdir hrun
        have hsplit : ∀ l : List ℕ, tables ++ a :: l = tables ++ [a] ++ l := by
          intro l
          rw [List.append_assoc, List.singleton_append]
        rw [hsplit] at hsafe
        rw [List.range'_succ, hsplit]
        refine ih hsafe hwalked ?_ hrest
        rw [htmp]
        exact hdir
      · unfold Exec.freeTables at hrun
        rw [dif_neg ha] at hrun
        cases hrun

end Walk

end Machine

/-! ## Address spaces that are freed -/

/-- The entries of the page directory which `free_address_space` goes over for a segment. -/
def segmentTables (vaddr size : BitVec 32) : List ℕ :=
  if size > 0#32 then List.range' (pgDirIndex vaddr) (size.toNat / 0x400000 + 1) else []

/-- The entries of the page directory which `free_address_space` goes over. -/
def imageTables (image : Exec.ExecImage) : List ℕ :=
  segmentTables image.dataVaddr image.dataSize ++
    (segmentTables image.rodataVaddr image.rodataSize ++
      (segmentTables image.textVaddr image.textSize ++ []))

namespace Machine

variable {m m' m₀ : Machine} {role : Frame → Role} {p q : Slot} {i j k l : Index} {f : Frame}
  {cr3 : BitVec 32} {tables rest : List ℕ} {image : Exec.ExecImage}

theorem Walked.tmpPage (h : Walked m₀ m p tables) (g : Frame) :
    Walked m₀ { m with tmpPage := g } p tables :=
  ⟨h.mem, h.cr3, h.fewer, h.same⟩

theorem Walked.freeSegment (hsound : m₀.Sound role) {vaddr size : BitVec 32}
    (hsafe : m₀.SafeWalk p (tables ++ (segmentTables vaddr size ++ rest)))
    (h : Walked m₀ m p tables) (hcr3 : m₀.cr3 p = some cr3)
    (hrun : Exec.freeSegment Exec.pageFrameFree vaddr size cr3 m = .ok m') :
    Walked m₀ m' p (tables ++ segmentTables vaddr size) := by
  unfold segmentTables at hsafe ⊢
  unfold Exec.freeSegment at hrun
  by_cases hsize : size > 0#32
  · rw [if_pos hsize] at hsafe hrun ⊢
    unfold Exec.virtFreeChunk at hrun
    split at hrun
    next => cases hrun
    next =>
      split at hrun
      next => cases hrun
      next =>
        obtain ⟨m₁, hloop, hend⟩ := bind_eq_ok.mp hrun
        rw [← Except.ok.inj hend]
        have hstart : Walked m₀ (m.tmpMapPage cr3) p tables := h.tmpPage _
        exact (hstart.freeTables hsound hsafe (dir_of_cr3 hcr3) hloop).tmpPage _
  · rw [if_neg hsize] at hrun ⊢
    rw [← Except.ok.inj hrun, List.append_nil]
    exact h

/-- `free_address_space`, as a walk over the page tables of all segments. -/
theorem Sound.freeAddressSpace (h : m.Sound role) (hsafe : m.SafeWalk p (imageTables image))
    (hcr3 : m.cr3 p = some cr3)
    (hrun : Exec.freeAddressSpace Exec.pageFrameFree image cr3 m = .ok m') :
    Walked m m' p (imageTables image) := by
  have hnone : ∀ f, ¬ m.HasIn p [] f := by
    rintro f ⟨i, j, -, hi⟩
    cases hi
  have hstart : Walked m m p [] :=
    ⟨rfl, rfl, fun f hf => absurd hf (hnone f), fun _ _ _ => rfl⟩
  obtain ⟨m₁, hdata, hrest⟩ := bind_eq_ok.mp hrun
  obtain ⟨m₂, hrodata, htext⟩ := bind_eq_ok.mp hrest
  have hfirst : m.SafeWalk p ([] ++ imageTables image) := hsafe
  have hwalk₁ : Walked m m₁ p (segmentTables image.dataVaddr image.dataSize) :=
    hstart.freeSegment h hfirst hcr3 hdata
  unfold imageTables at hsafe ⊢
  have hwalk₂ := hwalk₁.freeSegment h hsafe hcr3 hrodata
  rw [← List.append_assoc] at hsafe ⊢
  have hwalk₃ := hwalk₂.freeSegment h hsafe hcr3 htext
  rw [List.append_nil]
  exact hwalk₃

/-- The process is gone. -/
def left (m : Machine) (p : Slot) : Machine := { m with cr3 := Function.update m.cr3 p none }

section Left

variable (hmem : m'.mem = m.mem) (hcr3 : m'.cr3 = m.cr3)

include hcr3 in
theorem left_dir (q : Slot) : (m'.left p).dir q = if q = p then none else m.dir q := by
  unfold dir left
  dsimp only
  rw [hcr3]
  by_cases hq : q = p
  · rw [if_pos hq, hq, Function.update_self, Option.map_none]
  · rw [if_neg hq, Function.update_of_ne hq]

include hmem hcr3 in
theorem left_userTable (q : Slot) (i : Index) :
    (m'.left p).userTable q i = if q = p then none else m.userTable q i := by
  unfold userTable
  rw [left_dir hcr3]
  by_cases hq : q = p
  · rw [if_pos hq, if_pos hq, Option.bind_none]
  · rw [if_neg hq, if_neg hq]
    exact congrArg (fun mem : Frame → Page => (m.dir q).bind fun d =>
      if OpenAt (mem d) i then some (frameNo (mem d i)) else none) hmem

include hmem hcr3 in
theorem left_kernelTable (q : Slot) (i : Index) :
    (m'.left p).kernelTable q i = if q = p then none else m.kernelTable q i := by
  unfold kernelTable
  rw [left_dir hcr3]
  by_cases hq : q = p
  · rw [if_pos hq, if_pos hq, Option.bind_none]
  · rw [if_neg hq, if_neg hq]
    exact congrArg (fun mem : Frame → Page => (m.dir q).bind fun d =>
      if Has (mem d i) pagePresent ∧ ¬ Has (mem d i) pageUser then some (frameNo (mem d i))
      else none) hmem

include hmem hcr3 in
theorem left_leaf (q : Slot) (i j : Index) :
    (m'.left p).leaf q i j = if q = p then none else m.leaf q i j := by
  rw [leaf_eq, leaf_eq, left_userTable hmem hcr3]
  by_cases hq : q = p
  · rw [if_pos hq, if_pos hq, Option.bind_none]
  · rw [if_neg hq, if_neg hq]
    exact congrArg (fun mem : Frame → Page => (m.userTable q i).bind fun t =>
      if Has (mem t j) pagePresent then some (mem t j) else none) hmem

include hmem hcr3 in
theorem left_frameAt (q : Slot) (i j : Index) :
    (m'.left p).frameAt q i j = if q = p then none else m.frameAt q i j := by
  rw [frameAt, left_leaf hmem hcr3]
  by_cases hq : q = p
  · rw [if_pos hq, if_pos hq, Option.map_none]
  · rw [if_neg hq, if_neg hq]
    rfl

end Left

/-- After the walk the counts are right without the process, and its frames stay mapped. -/
theorem Walked.left (h : m.Sound role) (hsafe : m.SafeWalk p tables) (hw : Walked m m' p tables) :
    (m'.left p).Sound role ∧ ∀ f, m.Mapped f → (m'.left p).Mapped f := by
  have hdir := left_dir (p := p) hw.cr3
  have huser := left_userTable (p := p) hw.mem hw.cr3
  have hkernel := left_kernelTable (p := p) hw.mem hw.cr3
  have hleaf := left_leaf (p := p) hw.mem hw.cr3
  have hframe := left_frameAt (p := p) hw.mem hw.cr3
  have hsharers : ∀ f, (m'.left p).sharers (fun _ _ => True) f =
      (m.sharers (fun _ _ => True) f).erase p := by
    intro f
    ext q
    rw [Finset.mem_erase, mem_sharers, mem_sharers]
    simp only [hframe]
    constructor
    · rintro ⟨i, j, hf, -⟩
      split at hf
      next => cases hf
      next hq => exact ⟨hq, i, j, hf, trivial⟩
    · rintro ⟨hq, i, j, hf, -⟩
      exact ⟨i, j, by rw [if_neg hq]; exact hf, trivial⟩
  have hin : ∀ i j f, m.frameAt p i j = some f → m.HasIn p tables f := by
    intro i j f hf
    obtain ⟨e, he, -⟩ := frameAt_eq_some.mp hf
    have hsingle := hsafe.single i j e he
    exact ⟨i, j, hf, List.count_pos_iff.mp (by omega)⟩
  refine ⟨⟨?_, ?_, ?_, ?_, ?_, ?_, ?_, ?_, ?_, ?_⟩, ?_⟩
  · intro q d hd
    rw [hdir] at hd
    split at hd
    next => cases hd
    next => exact h.dir_role hd
  · intro q i t ht
    rw [huser] at ht
    split at ht
    next => cases ht
    next => exact h.user_role ht
  · intro q i t ht
    rw [hkernel] at ht
    split at ht
    next => cases ht
    next => exact h.kernel_role ht
  · intro q i j f hf
    rw [hframe] at hf
    split at hf
    next => cases hf
    next => exact h.data_role hf
  · intro q q' d hd hd'
    rw [hdir] at hd hd'
    split at hd
    next => cases hd
    next =>
      split at hd'
      next => cases hd'
      next => exact h.dir_inj hd hd'
  · intro q q' i k t ht ht'
    rw [huser] at ht ht'
    split at ht
    next => cases ht
    next =>
      split at ht'
      next => cases ht'
      next => exact h.table_inj ht ht'
  · intro q i j k l f hf hf'
    rw [hframe] at hf hf'
    split at hf
    next => cases hf
    next hq =>
      rw [if_neg hq] at hf'
      exact h.once hf hf'
  · intro q i j f hf
    rw [hframe] at hf
    split at hf
    next => cases hf
    next hq =>
      rw [hsharers]
      change m'.counts f = _
      by_cases hp : p ∈ m.sharers (fun _ _ => True) f
      · obtain ⟨k, l, hf', -⟩ := mem_sharers.mp hp
        have hpos := Finset.card_pos.mpr ⟨p, hp⟩
        rw [hw.fewer f (hin k l f hf'), h.count hf, Finset.card_erase_of_mem hp]
        exact (BitVec.ofNat_sub_ofNat_of_le _ _ (by decide) hpos)
      · have hnot : ¬ m.HasIn p tables f := by
          rintro ⟨k, l, hf', -⟩
          exact hp (mem_sharers.mpr ⟨k, l, hf', trivial⟩)
        rw [hw.same f ⟨q, i, j, hf⟩ hnot, h.count hf, Finset.erase_eq_of_notMem hp]
  · intro q q' i j k l e he hwrite hf
    rw [hleaf] at he
    rw [hframe] at hf
    split at he
    next => cases he
    next =>
      split at hf
      next => cases hf
      next => exact h.alone he hwrite hf
  · intro q d hd
    rw [hdir] at hd
    split at hd
    next => cases hd
    next => exact h.pid hd
  · rintro f ⟨q, i, j, hf⟩
    by_cases hq : q = p
    · subst hq
      obtain ⟨e, he, rfl⟩ := frameAt_eq_some.mp hf
      obtain ⟨q', k, l, hne, hf'⟩ := hsafe.shared i j e he
      exact ⟨q', k, l, by rw [hframe, if_neg hne]; exact hf'⟩
    · exact ⟨q, i, j, by rw [hframe, if_neg hq]; exact hf⟩

end Machine

/-! ## Frames that are given back -/

/-- What frees frames, with the frames that `page_frame_alloc` may hand out again. -/
abbrev Freeing := StateT (List Frame) (Except Stop)

namespace Freeing

/-- `page_frame_free`; the bit of the frame is cleared if the count is 0 in the end. -/
def pageFrameFree (page : BitVec 32) (m : Machine) : Freeing Machine := do
  let m ← liftM (Exec.pageFrameFree page m)
  if m.pageGetCount page = 0 then
    modify (frameNo page :: ·)
  pure m

variable {m m' : Machine} {page : BitVec 32}

/-- After the second decrement the count is negative, where the first did not leave it
positive. -/
theorem pageGetCount_ne_zero (h : Exec.pageFrameFree page m = .ok m') :
    m'.pageGetCount page ≠ 0 := by
  unfold Exec.pageFrameFree at h
  dsimp only at h
  split at h
  next hpos =>
    obtain rfl := Except.ok.inj h
    exact hpos.ne'
  next hnot =>
    split at h
    next => cases h
    next =>
      obtain rfl := Except.ok.inj h
      intro hzero
      have hlast : ((m.pageDecreaseCount page).pageDecreaseCount page).counts (frameNo page) =
          (m.pageDecreaseCount page).counts (frameNo page) - 1#8 := Function.update_self ..
      have hone : (m.pageDecreaseCount page).counts (frameNo page) = 1#8 := by
        have hsub := BitVec.toInt_inj.mp (hzero.trans BitVec.toInt_zero.symm)
        exact BitVec.sub_eq_iff_eq_add.mp (hlast.symm.trans hsub)
      apply hnot
      unfold Machine.pageGetCount
      rw [hone]
      decide

theorem pageFrameFree_eq (page : BitVec 32) (m : Machine) :
    pageFrameFree page m = liftM (Exec.pageFrameFree page m) := by
  funext free
  unfold pageFrameFree
  cases h : Exec.pageFrameFree page m with
  | error e => rfl
  | ok m' =>
      change (if m'.pageGetCount page = 0 then _ else _ : Freeing Machine) free = _
      rw [if_neg (pageGetCount_ne_zero h)]
      rfl

theorem freeEntry_eq (m : Machine) (i : Index) :
    Exec.freeEntry pageFrameFree m i = liftM (Exec.freeEntry Exec.pageFrameFree m i) := by
  unfold Exec.freeEntry
  split
  next =>
    dsimp only
    split
    next => exact pageFrameFree_eq _ _
    next => rfl
  next => rfl

theorem foldlM_freeEntry_eq (is : List Index) (m : Machine) :
    is.foldlM (Exec.freeEntry pageFrameFree) m =
      liftM (is.foldlM (Exec.freeEntry Exec.pageFrameFree) m) := by
  induction is generalizing m with
  | nil => rfl
  | cons i is ih =>
      rw [List.foldlM_cons, List.foldlM_cons, liftM_bind, freeEntry_eq]
      exact bind_congr ih

theorem freePageTable_eq (pgTable : BitVec 32) (m : Machine) :
    Exec.freePageTable pageFrameFree pgTable m =
      liftM (Exec.freePageTable Exec.pageFrameFree pgTable m) := by
  unfold Exec.freePageTable
  rw [liftM_bind, foldlM_freeEntry_eq]
  rfl

theorem freeTables_eq (n i : ℕ) (m : Machine) :
    Exec.freeTables pageFrameFree n i m = liftM (Exec.freeTables Exec.pageFrameFree n i m) := by
  induction n generalizing i m with
  | zero => rfl
  | succ n ih =>
      unfold Exec.freeTables
      split
      next hi =>
        split
        next =>
          dsimp only
          rw [liftM_bind, freePageTable_eq]
          refine bind_congr fun m₁ => ?_
          split
          next =>
            rw [liftM_bind, pageFrameFree_eq]
            exact bind_congr fun m₂ => ih _ m₂
          next => exact ih _ _
        next => exact ih _ _
      next => rfl

theorem virtFreeChunk_eq (start len pgDir : BitVec 32) (m : Machine) :
    Exec.virtFreeChunk pageFrameFree start len pgDir m =
      liftM (Exec.virtFreeChunk Exec.pageFrameFree start len pgDir m) := by
  unfold Exec.virtFreeChunk
  split
  next => rfl
  next =>
    split
    next => rfl
    next =>
      rw [liftM_bind, freeTables_eq]
      rfl

theorem freeSegment_eq (vaddr size cr3 : BitVec 32) (m : Machine) :
    Exec.freeSegment pageFrameFree vaddr size cr3 m =
      liftM (Exec.freeSegment Exec.pageFrameFree vaddr size cr3 m) := by
  unfold Exec.freeSegment
  split
  next => exact virtFreeChunk_eq _ _ _ _
  next => rfl

theorem freeAddressSpace_eq (image : Exec.ExecImage) (cr3 : BitVec 32) (m : Machine) :
    Exec.freeAddressSpace pageFrameFree image cr3 m =
      liftM (Exec.freeAddressSpace Exec.pageFrameFree image cr3 m) := by
  unfold Exec.freeAddressSpace
  rw [liftM_bind, freeSegment_eq]
  refine bind_congr fun m₁ => ?_
  rw [liftM_bind, freeSegment_eq]
  exact bind_congr fun m₂ => freeSegment_eq _ _ _ m₂

end Freeing

end Yak.Paging
