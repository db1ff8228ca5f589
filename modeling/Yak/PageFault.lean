import Yak.CopyOnWrite

/-!
# Write faults and writes

`page_set_writable` gives the process a frame of its own, or the permission to write to
the frame which it has alone.  A fault is not seen by any process, and a write only by
the process which makes it.
-/

namespace Yak.Paging

open PageFrames (noFreePage)
open Process (Slot)

/-- `page_frame_alloc` during one system call or fault, by what it returns in each
state.  A frame that it returns is not in use. -/
structure Allocator where
  alloc : Machine → BitVec 32
  fresh : ∀ m : Machine, alloc m = BitVec.ofNat 32 noFreePage ∨
    alloc m &&& 0xFFF#32 = 0#32 ∧ ¬ m.InUse (frameNo (alloc m))

namespace Machine

variable {m m' : Machine} {role : Frame → Role} {p q : Slot} {i j k l : Index} {d t f : Frame}
  {e cr3 new va : BitVec 32}

/-! ## Write faults -/

/-- The page tables do not change when those that are in use stay as they are, and the entries
of the page directories lead to the same. -/
theorem views_congr (hcr3 : m'.cr3 = m.cr3)
    (hdirs : ∀ p d i, m.dir p = some d →
      (Has (m'.mem d i) pagePresent ↔ Has (m.mem d i) pagePresent) ∧
      (Has (m'.mem d i) pageUser ↔ Has (m.mem d i) pageUser) ∧
      frameNo (m'.mem d i) = frameNo (m.mem d i))
    (htables : ∀ p i t, m.userTable p i = some t → m'.mem t = m.mem t) :
    m'.dir = m.dir ∧ m'.userTable = m.userTable ∧ m'.kernelTable = m.kernelTable ∧
      m'.leaf = m.leaf := by
  have hdir : m'.dir = m.dir := by
    funext p
    rw [dir, dir, hcr3]
  have huser : m'.userTable = m.userTable := by
    funext p i
    unfold userTable
    rw [hdir]
    cases hd : m.dir p with
    | none => rfl
    | some d =>
        obtain ⟨hpresent, huser, hframe⟩ := hdirs p d i hd
        have hopen : OpenAt (m'.mem d) i ↔ OpenAt (m.mem d) i := and_congr hpresent huser
        rw [Option.bind_some, Option.bind_some]
        simp only [hopen, hframe]
  refine ⟨hdir, huser, ?_, ?_⟩
  · funext p i
    unfold kernelTable
    rw [hdir]
    cases hd : m.dir p with
    | none => rfl
    | some d =>
        obtain ⟨hpresent, huser, hframe⟩ := hdirs p d i hd
        rw [Option.bind_some, Option.bind_some]
        simp only [hpresent, huser, hframe]
  · funext p i j
    rw [leaf_eq, leaf_eq, huser]
    cases ht : m.userTable p i with
    | none => rfl
    | some t => rw [Option.bind_some, Option.bind_some, htables p i t ht]

/-- The page tables do not change when an entry of a page directory becomes writable
and the pages of the tables stay as they are. -/
theorem tables_congr (hcr3 : m'.cr3 = m.cr3)
    (hdirs : ∀ p d i, m.dir p = some d →
      m'.mem d i = m.mem d i ∨ m'.mem d i = m.mem d i ||| pageWritable)
    (htables : ∀ p i t, m.userTable p i = some t → m'.mem t = m.mem t) :
    m'.dir = m.dir ∧ m'.userTable = m.userTable ∧ m'.kernelTable = m.kernelTable ∧
      m'.leaf = m.leaf := by
  refine views_congr hcr3 (fun p d i hd => ?_) htables
  rcases hdirs p d i hd with h | h
  · rw [h]
    exact ⟨Iff.rfl, Iff.rfl, rfl⟩
  · rw [h]
    exact ⟨has_or_writable_present, has_or_writable_user, frameNo_or_writable⟩

theorem Sound.dir_ne_userTable (h : m.Sound role) (hd : m.dir p = some d)
    (ht : m.userTable q i = some t) : t ≠ d := by
  rintro rfl
  have h1 := h.user_role ht
  rw [h.dir_role hd] at h1
  cases h1

theorem Sound.dir_ne_data (h : m.Sound role) (hd : m.dir p = some d)
    (hf : m.frameAt q i j = some f) : f ≠ d := by
  rintro rfl
  have h1 := h.data_role hf
  rw [h.dir_role hd] at h1
  cases h1

theorem Sound.userTable_ne_data (h : m.Sound role) (ht : m.userTable p i = some t)
    (hf : m.frameAt q k j = some f) : f ≠ t := by
  rintro rfl
  have h1 := h.data_role hf
  rw [h.user_role ht] at h1
  cases h1

/-- The machine in which `page_set_writable` looks for the entry of the page table. -/
def opened (m : Machine) (cr3 : BitVec 32) (i : Index) : Machine where
  mem := Function.update m.mem (frameNo cr3)
    (Function.update (m.mem (frameNo cr3)) i (m.mem (frameNo cr3) i ||| pageWritable))
  counts := m.counts
  tmpPage := frameNo (m.mem (frameNo cr3) i)
  cr3 := m.cr3

theorem opened_mem (hne : f ≠ frameNo cr3) : (m.opened cr3 i).mem f = m.mem f :=
  Function.update_of_ne hne ..

theorem Sound.opened (h : m.Sound role) (hcr3 : m.cr3 p = some cr3) :
    (m.opened cr3 i).dir = m.dir ∧ (m.opened cr3 i).userTable = m.userTable ∧
      (m.opened cr3 i).kernelTable = m.kernelTable ∧ (m.opened cr3 i).leaf = m.leaf := by
  have hsame : (m.opened cr3 i).cr3 = m.cr3 := rfl
  apply tables_congr hsame
  · intro q d k _
    by_cases hd : d = frameNo cr3
    · subst hd
      unfold Machine.opened
      simp only
      rw [Function.update_self]
      by_cases hk : k = i
      · subst hk
        rw [Function.update_self]
        exact Or.inr rfl
      · rw [Function.update_of_ne hk]
        exact Or.inl rfl
    · rw [opened_mem hd]
      exact Or.inl rfl
  · intro q k t ht
    exact opened_mem (h.dir_ne_userTable (dir_of_cr3 hcr3) ht)

theorem Sound.opened_sound (h : m.Sound role) (hcr3 : m.cr3 p = some cr3) :
    (m.opened cr3 i).Sound role := by
  obtain ⟨hdir, huser, hkernel, hleaf⟩ := h.opened (i := i) hcr3
  exact h.congr hdir huser hkernel hleaf rfl

theorem Sound.opened_read (h : m.Sound role) (hcr3 : m.cr3 p = some cr3) (q : Slot)
    (va : BitVec 32) : (m.opened cr3 i).read q va = m.read q va := by
  obtain ⟨-, -, -, hleaf⟩ := h.opened (i := i) hcr3
  apply read_congr_self hleaf
  intro k j f hf
  exact opened_mem (h.dir_ne_data (dir_of_cr3 hcr3) hf)

/-- An entry of a page table of the user is replaced; a frame that is not in use may be
filled as well. -/
theorem leaf_set (h : m.Sound role) (hcr3 : m'.cr3 = m.cr3) (ht : m.userTable p i = some t)
    (he : Has e pagePresent) (hentry : m'.mem t = Function.update (m.mem t) j e)
    (hkeep : ∀ f, m.InUse f → f ≠ t → m'.mem f = m.mem f) :
    m'.dir = m.dir ∧ m'.userTable = m.userTable ∧ m'.kernelTable = m.kernelTable ∧
      ∀ q k l, m'.leaf q k l = if q = p ∧ k = i ∧ l = j then some e else m.leaf q k l := by
  have hdir : m'.dir = m.dir := by
    funext q
    rw [dir, dir, hcr3]
  have hdirs : ∀ q d, m.dir q = some d → m'.mem d = m.mem d := by
    intro q d hd
    exact hkeep d (InUse.dir hd) (Ne.symm (h.dir_ne_userTable hd ht))
  have huser : m'.userTable = m.userTable := by
    funext q k
    unfold userTable
    rw [hdir]
    cases hd : m.dir q with
    | none => rfl
    | some d => rw [Option.bind_some, Option.bind_some, hdirs q d hd]
  refine ⟨hdir, huser, ?_, ?_⟩
  · funext q k
    unfold kernelTable
    rw [hdir]
    cases hd : m.dir q with
    | none => rfl
    | some d => rw [Option.bind_some, Option.bind_some, hdirs q d hd]
  · intro q k l
    rw [leaf_eq, leaf_eq, huser]
    cases htq : m.userTable q k with
    | none =>
        rw [if_neg]
        · rfl
        · rintro ⟨rfl, rfl, -⟩
          rw [ht] at htq
          cases htq
    | some t' =>
        rw [Option.bind_some, Option.bind_some]
        by_cases htt : t' = t
        · subst htt
          obtain ⟨rfl, hqp⟩ := h.table_inj htq ht
          have hqp := hqp.resolve_right id
          rw [hentry]
          by_cases hl : l = j
          · rw [hl, Function.update_self, if_pos he, if_pos ⟨hqp, rfl, rfl⟩]
          · have hno : ¬ (q = p ∧ k = k ∧ l = j) := fun hh => hl hh.2.2
            rw [Function.update_of_ne hl, if_neg hno]
        · have hno : ¬ (q = p ∧ k = i ∧ l = j) := by
            rintro ⟨rfl, rfl, -⟩
            rw [ht, Option.some_inj] at htq
            exact htt htq.symm
          rw [hkeep t' (InUse.userTable htq) htt, if_neg hno]

theorem toInt_ofNat_of_le {n : ℕ} (h : n ≤ 64) : (BitVec.ofNat 8 n).toInt = n := by
  have hn : (BitVec.ofNat 8 n).toNat = n := by
    rw [BitVec.toNat_ofNat]
    omega
  rw [BitVec.toInt_eq_toNat_of_lt (by omega), hn]

/-- The count of a frame of the user, as the kernel reads it. -/
theorem Sound.pageGetCount_eq (h : m.Sound role) (hf : m.frameAt p i j = some (frameNo e)) :
    m.pageGetCount e = (m.sharers (fun _ _ => True) (frameNo e)).card := by
  unfold pageGetCount
  rw [h.count hf]
  exact toInt_ofNat_of_le (card_sharers_le m _ _)

/-- A frame with one reference is made writable where it is. -/
theorem Sound.own (h : m.Sound role) (hcr3 : m'.cr3 = m.cr3) (hcounts : m'.counts = m.counts)
    (ht : m.userTable p i = some t) (he : Has (m.mem t j) pagePresent)
    (hentry : m'.mem t = Function.update (m.mem t) j (m.mem t j ||| pageWritable))
    (hkeep : ∀ f, f ≠ t → m'.mem f = m.mem f) (hcount : m.pageGetCount (m.mem t j) ≤ 1) :
    m'.Sound role ∧ (∀ q va, m'.read q va = m.read q va) ∧ m'.frameAt = m.frameAt := by
  have hold : m.leaf p i j = some (m.mem t j) := leaf_eq_some.mpr ⟨t, ht, he, rfl⟩
  obtain ⟨hdir, huser, hkernel, hleaf⟩ := leaf_set h hcr3 ht (has_or_writable_present.mpr he) hentry
    fun f _ hf => hkeep f hf
  have hframe : m'.frameAt = m.frameAt := by
    funext q k l
    unfold frameAt
    rw [hleaf]
    split
    · rename_i hq
      obtain ⟨rfl, rfl, rfl⟩ := hq
      rw [hold, Option.map_some, Option.map_some, frameNo_or_writable]
    · rfl
  have hsharers : ∀ f, m'.sharers (fun _ _ => True) f = m.sharers (fun _ _ => True) f := by
    intro f
    apply sharers_congr
    intro q k l
    rw [hframe]
  have hdata := frameAt_of_leaf hold
  rw [h.pageGetCount_eq hdata] at hcount
  -- with one reference the process is alone
  have hsole : ∀ q k l, m.frameAt q k l = some (frameNo (m.mem t j)) → q = p := by
    intro q k l hq
    have hcard : (m.sharers (fun _ _ => True) (frameNo (m.mem t j))).card ≤ 1 := by
      exact_mod_cast hcount
    exact Finset.card_le_one.mp hcard q (mem_sharers.mpr ⟨k, l, hq, trivial⟩) p
      (mem_sharers.mpr ⟨i, j, hdata, trivial⟩)
  refine ⟨⟨?_, ?_, ?_, ?_, ?_, ?_, ?_, ?_, ?_, ?_⟩, ?_, hframe⟩
  · rw [hdir]
    exact h.dir_role
  · rw [huser]
    exact h.user_role
  · rw [hkernel]
    exact h.kernel_role
  · rw [hframe]
    exact h.data_role
  · rw [hdir]
    exact h.dir_inj
  · rw [huser]
    exact h.table_inj
  · rw [hframe]
    exact h.once
  · intro q k l f hf
    rw [hframe] at hf
    rw [hcounts, hsharers]
    exact h.count hf
  · intro q q' k l k' l' e' he' hw hf
    rw [hframe] at hf
    rw [hleaf] at he'
    split at he'
    · rename_i hq
      rw [Option.some_inj] at he'
      rw [← he', frameNo_or_writable] at hf
      rw [hq.1]
      exact hsole q' k' l' hf
    · exact h.alone he' hw hf
  · rw [hdir]
    exact h.pid
  · intro q va
    apply read_congr
    · intro k l
      rw [hleaf]
      split
      · rename_i hq
        obtain ⟨rfl, rfl, rfl⟩ := hq
        refine ⟨fun e => e ||| pageWritable, fun _ => frameNo_or_writable,
          fun _ => has_or_writable_user, ?_⟩
        rw [hold, Option.map_some]
      · exact ⟨id, fun _ => rfl, fun _ => Iff.rfl, by rw [Option.map_id, id]⟩
    · intro k l f hf
      exact hkeep f (h.userTable_ne_data ht hf)

section FreshLeaf

variable {g : Frame} (hnew : ¬ m.InUse g)

theorem frameAt_set (hg : frameNo e = g)
    (hleaf : ∀ q k l, m'.leaf q k l = if q = p ∧ k = i ∧ l = j then some e else m.leaf q k l)
    (q : Slot) (k l : Index) : m'.frameAt q k l =
      if q = p ∧ k = i ∧ l = j then some g else m.frameAt q k l := by
  unfold frameAt
  rw [hleaf]
  split
  · rw [Option.map_some, hg]
  · rfl

include hnew in
theorem frameAt_ne_fresh (q : Slot) (k l : Index) : m.frameAt q k l ≠ some g :=
  fun hq => hnew (InUse.data hq)

include hnew in
theorem sharers_fresh (hframe : ∀ q k l, m'.frameAt q k l =
      if q = p ∧ k = i ∧ l = j then some g else m.frameAt q k l) :
    m'.sharers (fun _ _ => True) g = {p} := by
  ext q
  rw [mem_sharers, Finset.mem_singleton]
  constructor
  · rintro ⟨k, l, hq, -⟩
    rw [hframe] at hq
    split at hq
    · rename_i hh
      exact hh.1
    · exact absurd hq (frameAt_ne_fresh hnew q k l)
  · rintro rfl
    exact ⟨i, j, by rw [hframe, if_pos ⟨rfl, rfl, rfl⟩], trivial⟩

include hnew in
/-- An entry of a page table comes to lead to a frame that was not in use.  The counts of the
other frames are left to show. -/
theorem Sound.setFresh (h : m.Sound role) (hg : frameNo e = g) (hdir : m'.dir = m.dir)
    (huser : m'.userTable = m.userTable) (hkernel : m'.kernelTable = m.kernelTable)
    (hleaf : ∀ q k l, m'.leaf q k l = if q = p ∧ k = i ∧ l = j then some e else m.leaf q k l)
    (hone : m'.counts g = 1#8)
    (hcount : ∀ q k l f, f ≠ g → m.frameAt q k l = some f →
      m'.counts f = BitVec.ofNat 8 (m'.sharers (fun _ _ => True) f).card) :
    m'.Sound (Function.update role g .data) := by
  have hframe := frameAt_set hg hleaf
  have hunused := frameAt_ne_fresh hnew
  refine ⟨?_, ?_, ?_, ?_, ?_, ?_, ?_, ?_, ?_, ?_⟩
  · intro q d hd
    rw [hdir] at hd
    rw [update_of_inUse hnew (InUse.dir hd)]
    exact h.dir_role hd
  · intro q k t' ht'
    rw [huser] at ht'
    rw [update_of_inUse hnew (InUse.userTable ht')]
    exact h.user_role ht'
  · intro q k t' ht'
    rw [hkernel] at ht'
    rw [update_of_inUse hnew (InUse.kernelTable ht')]
    exact h.kernel_role ht'
  · intro q k l f hf
    rw [hframe] at hf
    split at hf
    · rw [Option.some_inj] at hf
      rw [← hf, Function.update_self]
    · rw [update_of_inUse hnew (InUse.data hf)]
      exact h.data_role hf
  · rw [hdir]
    exact h.dir_inj
  · rw [huser]
    exact h.table_inj
  · intro q k l k' l' f hf hf'
    rw [hframe] at hf hf'
    split at hf
    · rename_i h1
      split at hf'
      · rename_i h2
        exact ⟨by rw [h1.2.1, h2.2.1], by rw [h1.2.2, h2.2.2]⟩
      · rw [← hf] at hf'
        exact absurd hf' (hunused _ _ _)
    · split at hf'
      · rw [← hf'] at hf
        exact absurd hf (hunused _ _ _)
      · exact h.once hf hf'
  · intro q k l f hf
    by_cases hfg : f = g
    · rw [hfg, hone, sharers_fresh hnew hframe, Finset.card_singleton]
    · rw [hframe] at hf
      split at hf
      · exact absurd (Option.some.inj hf).symm hfg
      · exact hcount q k l f hfg hf
  · intro q q' k l k' l' e' he' hw hf
    rw [hleaf] at he'
    rw [hframe] at hf
    split at he'
    · rename_i hq
      obtain rfl := Option.some.inj he'
      split at hf
      · rename_i hq'
        rw [hq.1, hq'.1]
      · rw [hg] at hf
        exact absurd hf (hunused _ _ _)
    · split at hf
      · have hsame := frameAt_of_leaf he'
        rw [← Option.some.inj hf] at hsame
        exact absurd hsame (hunused _ _ _)
      · exact h.alone he' hw hf
  · rw [hdir]
    exact h.pid

end FreshLeaf

/-- A frame with more references is copied. -/
theorem Sound.copy (h : m.Sound role) (hcr3 : m'.cr3 = m.cr3) (ht : m.userTable p i = some t)
    (he : Has (m.mem t j) pagePresent) (hnew : ¬ m.InUse (frameNo new))
    (halign : new &&& 0xFFF#32 = 0#32)
    (hcounts : m'.counts = Function.update (Function.update m.counts (frameNo new) 1#8)
      (frameNo (m.mem t j)) (m.counts (frameNo (m.mem t j)) - 1#8))
    (hentry : m'.mem t = Function.update (m.mem t) j (redirect new (m.mem t j) ||| pageWritable))
    (hfill : m'.mem (frameNo new) = m.mem (frameNo (m.mem t j)))
    (hkeep : ∀ f, m.InUse f → f ≠ t → m'.mem f = m.mem f) :
    m'.Sound (Function.update role (frameNo new) .data) ∧
      (∀ q va, m'.read q va = m.read q va) ∧ ∀ q k l, m'.frameAt q k l =
        if q = p ∧ k = i ∧ l = j then some (frameNo new) else m.frameAt q k l := by
  have hold : m.leaf p i j = some (m.mem t j) := leaf_eq_some.mpr ⟨t, ht, he, rfl⟩
  have hdata := frameAt_of_leaf hold
  have hpresent : Has (redirect new (m.mem t j) ||| pageWritable) pagePresent :=
    has_or_writable_present.mpr ((has_redirect halign (by decide)).mpr he)
  obtain ⟨hdir, huser, hkernel, hleaf⟩ := leaf_set h hcr3 ht hpresent hentry hkeep
  have hg : frameNo (redirect new (m.mem t j) ||| pageWritable) = frameNo new := by
    rw [frameNo_or_writable, frameNo_redirect]
  have hframe := frameAt_set hg hleaf
  have hne : frameNo new ≠ frameNo (m.mem t j) := by
    intro heq
    exact frameAt_ne_fresh hnew p i j (by rw [heq]; exact hdata)
  -- only the frame that was copied loses a reference, and it had one of this process
  have hsharers : ∀ f, f ≠ frameNo new → m'.sharers (fun _ _ => True) f =
      if f = frameNo (m.mem t j) then (m.sharers (fun _ _ => True) f).erase p
      else m.sharers (fun _ _ => True) f := by
    intro f hf
    split
    · rename_i hfe
      ext q
      rw [Finset.mem_erase, mem_sharers, mem_sharers]
      constructor
      · rintro ⟨k, l, hq, -⟩
        rw [hframe] at hq
        split at hq
        · rw [Option.some_inj] at hq
          exact absurd hq.symm hf
        · rename_i hno
          refine ⟨?_, k, l, hq, trivial⟩
          rintro rfl
          rw [hfe] at hq
          obtain ⟨rfl, rfl⟩ := h.once hq hdata
          exact hno ⟨rfl, rfl, rfl⟩
      · rintro ⟨hqp, k, l, hq, -⟩
        refine ⟨k, l, ?_, trivial⟩
        rw [hframe, if_neg (fun hh => hqp hh.1)]
        exact hq
    · rename_i hfe
      apply sharers_congr
      intro q k l
      rw [hframe]
      split
      · rename_i hq
        obtain ⟨rfl, rfl, rfl⟩ := hq
        rw [hdata, Option.some_inj, Option.some_inj]
        constructor
        · exact fun hh => absurd hh.1.symm hf
        · exact fun hh => absurd hh.1.symm hfe
      · exact Iff.rfl
  have hmem : p ∈ m.sharers (fun _ _ => True) (frameNo (m.mem t j)) :=
    mem_sharers.mpr ⟨i, j, hdata, trivial⟩
  refine ⟨h.setFresh hnew hg hdir huser hkernel hleaf ?_ ?_, ?_, hframe⟩
  · rw [hcounts, Function.update_of_ne hne, Function.update_self]
  · intro q k l f hfn hf
    rw [hcounts, hsharers f hfn]
    by_cases hfe : f = frameNo (m.mem t j)
    · subst hfe
      obtain ⟨n, hn⟩ := Nat.exists_eq_succ_of_ne_zero (Finset.card_ne_zero_of_mem hmem)
      rw [if_pos rfl, Function.update_self, h.count hf, Finset.card_erase_of_mem hmem, hn,
        Nat.succ_eq_add_one, BitVec.ofNat_add, Nat.add_sub_cancel, BitVec.add_sub_cancel]
    · rw [if_neg hfe, Function.update_of_ne hfe, Function.update_of_ne hfn, h.count hf]
  · intro q va
    by_cases hq : q = p ∧ pgDirIndex va = i ∧ pgTabIndex va = j
    · obtain ⟨rfl, rfl, rfl⟩ := hq
      unfold read
      rw [hleaf, if_pos ⟨rfl, rfl, rfl⟩, hold]
      simp only [has_or_writable_user, has_redirect halign (by decide : 0xFFF#32 &&& pageUser = pageUser),
        frameNo_or_writable, frameNo_redirect, hfill]
    · unfold read
      rw [hleaf, if_neg hq]
      cases hl : m.leaf q (pgDirIndex va) (pgTabIndex va) with
      | none => rfl
      | some e' =>
          have hf := frameAt_of_leaf hl
          simp only
          rw [hkeep _ (InUse.data hf) (h.userTable_ne_data ht hf)]

theorem makeWritable_cases {alloc : Machine → BitVec 32} (h : m.makeWritable j alloc = ⟨m', .returned⟩) :
    (m.pageGetCount (m.tmp j) ≤ 1 ∧ m' = m.setTmp j (m.tmp j ||| pageWritable)) ∨
    (1 < m.pageGetCount (m.tmp j) ∧ alloc m ≠ BitVec.ofNat 32 noFreePage ∧
      m'.cr3 = m.cr3 ∧
      m'.counts = Function.update (Function.update m.counts (frameNo (alloc m)) 1#8)
        (frameNo (m.tmp j))
        (Function.update m.counts (frameNo (alloc m)) 1#8 (frameNo (m.tmp j)) - 1#8) ∧
      m'.mem = Function.update
        (Function.update m.mem m.tmpPage (Function.update (m.mem m.tmpPage) j
          (redirect (alloc m) (m.tmp j) ||| pageWritable)))
        (frameNo (alloc m))
        (Function.update m.mem m.tmpPage (Function.update (m.mem m.tmpPage) j
          (redirect (alloc m) (m.tmp j) ||| pageWritable)) (frameNo (m.tmp j)))) := by
  have hcount : m.pageGetCount (m.tmp j &&& 0xFFFFF000#32) = m.pageGetCount (m.tmp j) := by
    unfold pageGetCount
    rw [frameNo_and_mask]
  unfold makeWritable at h
  simp only [hcount] at h
  by_cases hc : m.pageGetCount (m.tmp j) > 1
  · rw [if_pos hc] at h
    by_cases hno : alloc m = BitVec.ofNat 32 noFreePage
    · simp [pageFrameAlloc, hno] at h
    · simp only [pageFrameAlloc, hno, if_false] at h
      split at h
      · cases h
      · obtain ⟨h, -⟩ := Handled.mk.inj h
        refine Or.inr ⟨hc, hno, ?_, ?_, ?_⟩
        · rw [← h]
          rfl
        · rw [← h]
          simp only [setTmpPage, tmpMapPage, pageDecreaseCount, setCount, setTmp, frameNo_and_mask]
        · rw [← h]
          simp only [setTmpPage, tmpMapPage, pageDecreaseCount, setCount, setTmp, frameNo_and_mask,
            or_and_flags]
  · rw [if_neg hc] at h
    exact Or.inl ⟨not_lt.mp hc, (Handled.mk.inj h).1.symm⟩

/-- The entry for the address is one of the user, or the frame that it leads to has
not more than one reference. -/
def SafeFault (m : Machine) (p : Slot) (va : BitVec 32) : Prop :=
  Has (m.dirEntry p va) pageUser ∨
    m.pageGetCount (m.mem (frameNo (m.dirEntry p va)) (pgTabIndex va)) ≤ 1

instance (m : Machine) (p : Slot) (va : BitVec 32) : Decidable (m.SafeFault p va) :=
  inferInstanceAs (Decidable (_ ∨ _))

/-- `page_set_writable` up to the entry of the page table. -/
theorem pageSetWritable_resolved {alloc : Machine → BitVec 32}
    (h : m.pageSetWritable cr3 va alloc = ⟨m', .returned⟩) :
    Has (m.mem (frameNo cr3) (pgDirIndex va)) pagePresent ∧
      Has ((m.opened cr3 (pgDirIndex va)).tmp (pgTabIndex va)) pagePresent ∧
      ∃ m1, (m.opened cr3 (pgDirIndex va)).makeWritable (pgTabIndex va) alloc = ⟨m1, .returned⟩ ∧
        m' = m1.tmpMapPage m.getTmpPage := by
  unfold pageSetWritable at h
  simp only at h
  split at h
  · cases h
  · rename_i hpresent
    rw [not_not] at hpresent
    have hopened : (((m.tmpMapPage cr3).setTmp (pgDirIndex va)
        ((m.tmpMapPage cr3).tmp (pgDirIndex va) ||| pageWritable)).tmpMapPage
          ((m.tmpMapPage cr3).tmp (pgDirIndex va) &&& 0xFFFFF000#32)) =
        m.opened cr3 (pgDirIndex va) := by
      unfold opened tmpMapPage setTmp setTmpPage tmp
      simp only [frameNo_and_mask]
    rw [hopened] at h
    split at h
    · cases h
    · rename_i hentry
      rw [not_not] at hentry
      generalize (m.opened cr3 (pgDirIndex va)).makeWritable (pgTabIndex va) alloc = r at h ⊢
      obtain ⟨m1, ending⟩ := r
      cases ending with
      | returned => exact ⟨hpresent, hentry, m1, rfl, (Handled.mk.inj h).1.symm⟩
      | terminated => cases h
      | halted e => cases h

theorem mapped_congr (hleaf : m'.leaf = m.leaf) (f : Frame) : m'.Mapped f ↔ m.Mapped f := by
  unfold Mapped frameAt
  rw [hleaf]

theorem Sound.makeWritable_user {A : Allocator} (h : m.Sound role)
    (ht : m.userTable p i = some m.tmpPage) (he : Has (m.tmp j) pagePresent)
    (hmake : m.makeWritable j A.alloc = ⟨m', .returned⟩) :
    ∃ role', m'.Sound role' ∧ (∀ q va, m'.read q va = m.read q va) ∧
      ∀ f, m.Mapped f → m'.Mapped f := by
  rcases makeWritable_cases hmake with ⟨hcount, hm'⟩ | ⟨hmany, hno, hcr3, hcounts, hmem⟩
  · have hcr3 : m'.cr3 = m.cr3 := by
      rw [hm']
      rfl
    have hcounts : m'.counts = m.counts := by
      rw [hm']
      rfl
    have hmem : m'.mem = Function.update m.mem m.tmpPage
        (Function.update (m.mem m.tmpPage) j (m.tmp j ||| pageWritable)) := by
      rw [hm']
      rfl
    obtain ⟨hsound, hread, hframe⟩ := h.own hcr3 hcounts ht he
      (by rw [hmem, Function.update_self]; rfl)
      (fun f hf => by rw [hmem, Function.update_of_ne hf]) hcount
    refine ⟨role, hsound, hread, fun f hf => ?_⟩
    unfold Mapped
    rw [hframe]
    exact hf
  · obtain ⟨halign, hnew⟩ := (A.fresh m).resolve_left hno
    have hold : m.frameAt p i j = some (frameNo (m.tmp j)) :=
      frameAt_of_leaf (leaf_eq_some.mpr ⟨_, ht, he, rfl⟩)
    have hne : m.tmpPage ≠ frameNo (A.alloc m) := by
      intro heq
      rw [← heq] at hnew
      exact hnew (InUse.userTable ht)
    obtain ⟨hsound, hread, hframe⟩ := h.copy hcr3 ht he hnew halign
      (by rw [hcounts, update_of_inUse hnew (InUse.data hold)]; rfl)
      (by rw [hmem, Function.update_of_ne hne, Function.update_self]; rfl)
      (by rw [hmem, Function.update_self, Function.update_of_ne (h.userTable_ne_data ht hold)]; rfl)
      (fun f hf hft => by rw [hmem, update_of_inUse hnew hf, Function.update_of_ne hft])
    refine ⟨_, hsound, hread, ?_⟩
    rintro f ⟨q, k, l, hf⟩
    by_cases hq : q = p
    · by_cases hfe : f = frameNo (m.tmp j)
      · -- the old frame has another process
        rw [h.pageGetCount_eq hold] at hmany
        obtain ⟨q', hq', hne'⟩ := Finset.exists_mem_ne (by exact_mod_cast hmany) p
        obtain ⟨k', l', hf', -⟩ := mem_sharers.mp hq'
        exact ⟨q', k', l', by rw [hframe, if_neg fun hh => hne' hh.1, hf', hfe]⟩
      · refine ⟨q, k, l, ?_⟩
        rw [hframe, if_neg]
        · exact hf
        · rintro ⟨rfl, rfl, rfl⟩
          exact hfe (Option.some.inj (hf.symm.trans hold))
    · exact ⟨q, k, l, by rw [hframe, if_neg fun hh => hq hh.1, hf]⟩

/-- An entry of the kernel whose frame is not shared, by its count. -/
theorem Sound.makeWritable_kernel {alloc : Machine → BitVec 32} (h : m.Sound role)
    (ht : m.kernelTable p i = some m.tmpPage) (hcount : m.pageGetCount (m.tmp j) ≤ 1)
    (hmake : m.makeWritable j alloc = ⟨m', .returned⟩) :
    m'.Sound role ∧ (∀ q va, m'.read q va = m.read q va) ∧ m'.leaf = m.leaf := by
  rcases makeWritable_cases hmake with ⟨-, hm'⟩ | ⟨hgt, -⟩
  · have hkeep : ∀ f, role f ≠ .kernelTable → m'.mem f = m.mem f := by
      intro f hf
      rw [hm']
      apply Function.update_of_ne
      rintro rfl
      exact hf (h.kernel_role ht)
    have hcr3 : m'.cr3 = m.cr3 := by
      rw [hm']
      rfl
    have hcounts : m'.counts = m.counts := by
      rw [hm']
      rfl
    obtain ⟨hdir, huser, hkernel, hleaf⟩ := tables_congr hcr3
      (fun q d i hd => Or.inl (by rw [hkeep d (by rw [h.dir_role hd]; decide)]))
      (fun q i t ht => hkeep t (by rw [h.user_role ht]; decide))
    refine ⟨h.congr hdir huser hkernel hleaf hcounts, ?_, hleaf⟩
    intro q va
    apply read_congr_self hleaf
    intro k l f hf
    exact hkeep f (by rw [h.data_role hf]; decide)
  · omega

/-- A write fault changes nothing that a process reads, and no page comes to be without a
process. -/
theorem Sound.pageSetWritable {A : Allocator} (h : m.Sound role) (hcr3 : m.cr3 p = some cr3)
    (hsafe : m.SafeFault p va)
    (hfault : m.pageSetWritable cr3 va A.alloc = ⟨m', .returned⟩) :
    ∃ role', m'.Sound role' ∧ (∀ q va', m'.read q va' = m.read q va') ∧
      ∀ f, m.Mapped f → m'.Mapped f := by
  obtain ⟨hpresent, hentry, m1, hmake, rfl⟩ := pageSetWritable_resolved hfault
  have hdirp := dir_of_cr3 hcr3
  have hs := h.opened_sound (i := pgDirIndex va) hcr3
  have hread := h.opened_read (i := pgDirIndex va) hcr3
  obtain ⟨-, huser, hkernel, hleaf⟩ := h.opened (i := pgDirIndex va) hcr3
  have hmapped := mapped_congr hleaf
  have htmp : (m.opened cr3 (pgDirIndex va)).tmpPage =
      frameNo (m.mem (frameNo cr3) (pgDirIndex va)) := rfl
  -- the last change of the temporary page has no effect
  suffices hgoal : ∃ role', m1.Sound role' ∧
      (∀ q va', m1.read q va' = (m.opened cr3 (pgDirIndex va)).read q va') ∧
      ∀ f, (m.opened cr3 (pgDirIndex va)).Mapped f → m1.Mapped f by
    obtain ⟨role', hsound, hsame, hkept⟩ := hgoal
    exact ⟨role', hsound.congr rfl rfl rfl rfl rfl, fun q va' => (hsame q va').trans (hread q va'),
      fun f hf => hkept f ((hmapped f).mpr hf)⟩
  by_cases ho : Has (m.mem (frameNo cr3) (pgDirIndex va)) pageUser
  · have ht : (m.opened cr3 (pgDirIndex va)).userTable p (pgDirIndex va) =
        some (m.opened cr3 (pgDirIndex va)).tmpPage := by
      rw [huser, htmp]
      exact userTable_eq_some.mpr ⟨_, hdirp, ⟨hpresent, ho⟩, rfl⟩
    exact hs.makeWritable_user ht hentry hmake
  · have hk : m.kernelTable p (pgDirIndex va) =
        some (frameNo (m.mem (frameNo cr3) (pgDirIndex va))) :=
      kernelTable_eq_some.mpr ⟨_, hdirp, ⟨hpresent, ho⟩, rfl⟩
    have hne : frameNo (m.mem (frameNo cr3) (pgDirIndex va)) ≠ frameNo cr3 := by
      intro heq
      have h1 := h.kernel_role hk
      rw [heq, h.dir_role hdirp] at h1
      cases h1
    have hcount : (m.opened cr3 (pgDirIndex va)).pageGetCount
        ((m.opened cr3 (pgDirIndex va)).tmp (pgTabIndex va)) ≤ 1 := by
      unfold SafeFault at hsafe
      rw [dirEntry, hdirp] at hsafe
      unfold tmp
      rw [htmp, opened_mem hne]
      exact hsafe.resolve_left ho
    rw [← htmp, ← hkernel] at hk
    obtain ⟨hsound, hsame, hleaf'⟩ := hs.makeWritable_kernel hk hcount hmake
    exact ⟨role, hsound, hsame, fun f hf => (mapped_congr hleaf' f).mpr hf⟩

/-! ## Writes -/

theorem getByte_setByte (w : BitVec 32) (b : BitVec 8) {x y : ℕ} (hx : x < 4) (hy : y < 4) :
    getByte (setByte w x b) y = if y = x then b else getByte w y := by
  unfold getByte setByte
  apply BitVec.eq_of_getLsbD_eq
  intro n hn
  have h32 : 8 * y + n < 32 := by omega
  simp only [BitVec.getLsbD_extractLsb', hn, decide_true, Bool.true_and, BitVec.getLsbD_or,
    BitVec.getLsbD_and, BitVec.getLsbD_not, BitVec.getLsbD_shiftLeft, BitVec.getLsbD_setWidth,
    BitVec.getLsbD_allOnes, h32]
  rcases lt_trichotomy y x with h | h | h
  · have hlt : 8 * y + n < 8 * x := by omega
    rw [if_neg (by omega)]
    simp [hlt, hn]
  · subst h
    simp [hn, show n < 32 by omega]
  · have hlt : ¬ 8 * y + n < 8 * x := by omega
    have hge : ¬ 8 * y + n - 8 * x < 8 := by omega
    have hb : b.getLsbD (8 * y + n - 8 * x) = false := BitVec.getLsbD_of_ge _ _ (by omega)
    rw [if_neg (by omega)]
    simp [hlt, hge, hn, hb]

theorem address_ext {va va' : BitVec 32} (hd : pgDirIndex va' = pgDirIndex va)
    (ht : pgTabIndex va' = pgTabIndex va) (hw : wordIndex va' = wordIndex va)
    (hb : va'.toNat % 4 = va.toNat % 4) : va' = va := by
  unfold pgDirIndex pgTabIndex wordIndex at *
  rw [Fin.mk.injEq] at hd ht hw
  apply BitVec.eq_of_toNat_eq
  omega

/-- A write is seen at its address by the process which makes it, and nowhere else. -/
theorem Sound.write {b : BitVec 8} (h : m.Sound role) (hwrite : m.write p va b = some m') :
    m'.Sound role ∧
      ∀ q va', m'.read q va' = if q = p ∧ va' = va then some b else m.read q va' := by
  unfold Machine.write at hwrite
  cases hl : m.leaf p (pgDirIndex va) (pgTabIndex va) with
  | none =>
      rw [hl] at hwrite
      cases hwrite
  | some e =>
      rw [hl] at hwrite
      simp only at hwrite
      split at hwrite
      · rename_i hflags
        rw [Option.some_inj] at hwrite
        have hdata := frameAt_of_leaf hl
        have hmem : m'.mem = Function.update m.mem (frameNo e)
            (Function.update (m.mem (frameNo e)) (wordIndex va)
              (setByte (m.mem (frameNo e) (wordIndex va)) (va.toNat % 4) b)) := by
          rw [← hwrite]
        have hcr3 : m'.cr3 = m.cr3 := by rw [← hwrite]
        have hcounts : m'.counts = m.counts := by rw [← hwrite]
        have hkeep : ∀ f, f ≠ frameNo e → m'.mem f = m.mem f := by
          intro f hf
          rw [hmem, Function.update_of_ne hf]
        obtain ⟨hdir, huser, hkernel, hleaf⟩ := tables_congr hcr3
          (fun q d i hd => Or.inl (by rw [hkeep d (Ne.symm (h.dir_ne_data hd hdata))]))
          (fun q i t ht => hkeep t (Ne.symm (h.userTable_ne_data ht hdata)))
        refine ⟨h.congr hdir huser hkernel hleaf hcounts, ?_⟩
        intro q va'
        unfold read
        rw [hleaf]
        by_cases hsame : m.frameAt q (pgDirIndex va') (pgTabIndex va') = some (frameNo e)
        · -- only the writer has the frame, and only once
          have hq : q = p := h.alone hl hflags.2.1 hsame
          subst hq
          obtain ⟨hi, hj⟩ := h.once hsame hdata
          rw [hi, hj, hl]
          simp only [hflags.1, if_true, true_and]
          rw [hmem, Function.update_self]
          by_cases hword : wordIndex va' = wordIndex va
          · rw [hword, Function.update_self,
              getByte_setByte _ _ (Nat.mod_lt _ (by decide)) (Nat.mod_lt _ (by decide))]
            by_cases hbyte : va'.toNat % 4 = va.toNat % 4
            · rw [if_pos hbyte, if_pos (address_ext hi hj hword hbyte)]
            · have hne : va' ≠ va := by
                rintro rfl
                exact hbyte rfl
              rw [if_neg hbyte, if_neg hne]
          · have hne : va' ≠ va := by
              rintro rfl
              exact hword rfl
            rw [Function.update_of_ne hword, if_neg hne]
        · have hne : ¬ (q = p ∧ va' = va) := by
            rintro ⟨rfl, rfl⟩
            exact hsame hdata
          rw [if_neg hne]
          cases hl' : m.leaf q (pgDirIndex va') (pgTabIndex va') with
          | none => rfl
          | some e' =>
              have hf : frameNo e' ≠ frameNo e := by
                intro heq
                rw [← heq] at hsame
                exact hsame (frameAt_of_leaf hl')
              simp only
              rw [hkeep _ hf]
      · cases hwrite

end Machine

end Yak.Paging
