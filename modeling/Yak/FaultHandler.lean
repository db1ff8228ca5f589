import Yak.PageFault

/-!
# The page fault handler

`handle_page_fault` with the machine it leaves behind in each of its ends, also where the
process is terminated or the kernel stops, and the entries of the page tables which it
changes on the way.
-/

namespace Yak.Paging

open PageFrames (noFreePage)
open Process (Slot)

def pfProtection : BitVec 32 := 1#32
def pfWrite : BitVec 32 := 2#32
def pfUser : BitVec 32 := 4#32

def kernelVirtBase : BitVec 32 := 0xC0000000#32

/-- `struct exec_image`, as far as it is used here. -/
structure ExecImage where
  textVaddr : BitVec 32
  textSize : BitVec 32
  rodataVaddr : BitVec 32
  rodataSize : BitVec 32

namespace Machine

/-- `handle_page_fault`.  A segment that wraps around has its end below its start. -/
def handlePageFault (m : Machine) (image : ExecImage) (cr3 error addr : BitVec 32)
    (alloc : Machine → BitVec 32) : Handled :=
  if ¬ Has error pfProtection then ⟨m, .terminated⟩
  else if ¬ Has error pfWrite then ⟨m, .terminated⟩
  else if image.textVaddr ≤ addr ∧ addr < image.textVaddr + image.textSize then ⟨m, .terminated⟩
  else if 0 < image.rodataSize ∧ image.rodataVaddr ≤ addr ∧
      addr < image.rodataVaddr + image.rodataSize then ⟨m, .terminated⟩
  else m.pageSetWritable cr3 addr alloc

/-! ## What the handler must not do -/

/-- The frame holds a page directory, or a page table that is present in one. -/
def HoldsEntries (m : Machine) (f : Frame) : Prop :=
  ∃ p d, m.dir p = some d ∧ (f = d ∨ ∃ i, Has (m.mem d i) pagePresent ∧ frameNo (m.mem d i) = f)

/-- Only entries of the user have changed. -/
def OnlyUser (m m' : Machine) : Prop :=
  ∀ f k, m.HoldsEntries f → m'.mem f k ≠ m.mem f k → Has (m.mem f k) pageUser

/-- No entry of the supervisor is writable now which was not, or the other way round. -/
def KeepsSupervisor (m m' : Machine) : Prop :=
  ∀ f k, m.HoldsEntries f → ¬ Has (m.mem f k) pageUser →
    (Has (m'.mem f k) pageWritable ↔ Has (m.mem f k) pageWritable)

/-- A write in user mode to an address of the kernel. -/
def UserToKernel (error addr : BitVec 32) : Prop :=
  Has error pfUser ∧ Has error pfWrite ∧ kernelVirtBase ≤ addr

instance (error addr : BitVec 32) : Decidable (UserToKernel error addr) :=
  inferInstanceAs (Decidable (_ ∧ _ ∧ _))

/-- The process is terminated or only entries of the user have changed; after a write in
user mode to the kernel, it is terminated and no entry of the supervisor has become
writable. -/
def KernelSafe (m : Machine) (error addr : BitVec 32) (r : Handled) : Prop :=
  (r.ending = .terminated ∨ m.OnlyUser r.machine) ∧
    (UserToKernel error addr → r.ending = .terminated ∧ m.KeepsSupervisor r.machine)

/-- The handler ends before it looks at the page tables. -/
def Filtered (image : ExecImage) (error addr : BitVec 32) : Prop :=
  ¬ Has error pfProtection ∨ ¬ Has error pfWrite ∨
    (image.textVaddr ≤ addr ∧ addr < image.textVaddr + image.textSize) ∨
    (0 < image.rodataSize ∧ image.rodataVaddr ≤ addr ∧
      addr < image.rodataVaddr + image.rodataSize)

/-- The entry of the page directory for an address. -/
def pgTable (m : Machine) (cr3 addr : BitVec 32) : BitVec 32 :=
  m.mem (frameNo cr3) (pgDirIndex addr)

/-- The entry of the page table for an address. -/
def pgFrame (m : Machine) (cr3 addr : BitVec 32) : BitVec 32 :=
  m.mem (frameNo (m.pgTable cr3 addr)) (pgTabIndex addr)

/-- The entry of the page table has a frame of its own and is writable, or there is no
frame for a copy, or the same. -/
def Untouched (m : Machine) (cr3 addr new : BitVec 32) : Prop :=
  if m.pageGetCount (m.pgFrame cr3 addr) > 1 then
    new = BitVec.ofNat 32 noFreePage ∨
      (frameNo new = frameNo (m.pgFrame cr3 addr) ∧ Has (m.pgFrame cr3 addr) pageWritable)
  else Has (m.pgFrame cr3 addr) pageWritable

variable {m m' : Machine} {p : Slot} {i j : Index} {f t : Frame} {cr3 error addr a e : BitVec 32}
  {image : ExecImage} {A : Allocator}

/-! ## Entries -/

theorem getLsbD_pageWritable {n : ℕ} (hn : n < 32) : pageWritable.getLsbD n = decide (n = 1) := by
  have hall : ∀ n < 32, pageWritable.getLsbD n = decide (n = 1) := by decide
  exact hall n hn

theorem getLsbD_flags {n : ℕ} (hn : n < 32) : (0xFFF#32).getLsbD n = decide (n < 12) := by
  have hall : ∀ n < 32, (0xFFF#32).getLsbD n = decide (n < 12) := by decide
  exact hall n hn

theorem has_writable_iff : Has e pageWritable ↔ e.getLsbD 1 = true := by
  unfold Has
  constructor
  · intro h
    by_contra hbit
    refine h (BitVec.eq_of_getLsbD_eq fun n hn => ?_)
    rw [BitVec.getLsbD_and, getLsbD_pageWritable hn, BitVec.getLsbD_zero]
    by_cases h1 : n = 1
    · subst h1
      simpa using hbit
    · simp [h1]
  · intro hbit hzero
    have h1 := congrArg (·.getLsbD 1) hzero
    rw [BitVec.getLsbD_and, hbit, getLsbD_pageWritable (by decide)] at h1
    simp at h1

theorem or_writable_eq_iff : e ||| pageWritable = e ↔ Has e pageWritable := by
  rw [has_writable_iff]
  constructor
  · intro h
    rw [← h, BitVec.getLsbD_or, getLsbD_pageWritable (by decide)]
    simp
  · intro hbit
    refine BitVec.eq_of_getLsbD_eq fun n hn => ?_
    rw [BitVec.getLsbD_or, getLsbD_pageWritable hn]
    by_cases h1 : n = 1
    · subst h1
      simp [hbit]
    · simp [h1]

/-- An entry with the frame of another is that entry exactly if it has the frame already. -/
theorem redirect_eq_iff (ha : a &&& 0xFFF#32 = 0#32) : redirect a e = e ↔ frameNo a = frameNo e := by
  constructor
  · intro h
    rw [← h, frameNo_redirect]
  · intro h
    unfold redirect
    refine BitVec.eq_of_getLsbD_eq fun n hn => ?_
    rw [BitVec.getLsbD_or, BitVec.getLsbD_and, getLsbD_flags hn]
    by_cases hlow : n < 12
    · have hbit := congrArg (·.getLsbD n) ha
      rw [BitVec.getLsbD_and, getLsbD_flags hn, BitVec.getLsbD_zero] at hbit
      simp only [hlow, decide_true, Bool.and_true] at hbit ⊢
      simp [hbit]
    · have hbit := congrArg (·.getLsbD (n - 12)) h
      unfold frameNo at hbit
      rw [BitVec.getLsbD_extractLsb', BitVec.getLsbD_extractLsb'] at hbit
      have hsmall : n - 12 < 20 := by omega
      have hn : 12 + (n - 12) = n := by omega
      simp only [hsmall, hn, decide_true, Bool.true_and] at hbit
      simp [hlow, hbit]

/-- The entry of a copy with permission to write is the old one exactly if it was writable
and has the same frame. -/
theorem redirect_or_writable_eq_iff (ha : a &&& 0xFFF#32 = 0#32) :
    redirect a e ||| pageWritable = e ↔ frameNo a = frameNo e ∧ Has e pageWritable := by
  constructor
  · intro h
    constructor
    · rw [← h, frameNo_or_writable, frameNo_redirect]
    · rw [← or_writable_eq_iff]
      nth_rewrite 1 [← h]
      rw [BitVec.or_assoc, BitVec.or_self]
      exact h
  · rintro ⟨hframe, hwritable⟩
    rw [(redirect_eq_iff ha).mpr hframe]
    exact or_writable_eq_iff.mpr hwritable

/-! ## The entry of the page table -/

/-- What becomes of the entry of the page table. -/
def written (e new : BitVec 32) (shared : Bool) : BitVec 32 :=
  if shared then
    if new = BitVec.ofNat 32 noFreePage then e else redirect new e ||| pageWritable
  else e ||| pageWritable

/-- The frame of the entry has more than one reference. -/
def shared (m : Machine) (e : BitVec 32) : Bool := m.pageGetCount e > 1

theorem written_eq_iff {new : BitVec 32} {shared : Bool}
    (hnew : new = BitVec.ofNat 32 noFreePage ∨ new &&& 0xFFF#32 = 0#32) :
    written e new shared = e ↔
      if shared then new = BitVec.ofNat 32 noFreePage ∨
        (frameNo new = frameNo e ∧ Has e pageWritable)
      else Has e pageWritable := by
  unfold written
  split
  · split
    next hnone => simp [hnone]
    next hsome =>
      rw [redirect_or_writable_eq_iff (hnew.resolve_left hsome)]
      simp [hsome]
  · exact or_writable_eq_iff

theorem written_or_writable_ne (new : BitVec 32) (shared : Bool) (he : ¬ Has e pageWritable) :
    written (e ||| pageWritable) new shared ≠ e := by
  have hset : ∀ b : BitVec 32, b ||| pageWritable ≠ e := by
    intro b hb
    refine he (or_writable_eq_iff.mp ?_)
    rw [← hb, BitVec.or_assoc, BitVec.or_self]
  unfold written
  split
  · split
    · exact hset _
    · exact hset _
  · exact hset _

theorem pageGetCount_and_mask (m : Machine) (e : BitVec 32) :
    m.pageGetCount (e &&& 0xFFFFF000#32) = m.pageGetCount e := by
  unfold pageGetCount
  rw [frameNo_and_mask]

theorem makeWritable_ending (m : Machine) (j : Index) (alloc : Machine → BitVec 32) :
    (m.makeWritable j alloc).ending ≠ .terminated := by
  unfold makeWritable
  dsimp only
  split
  · split
    · exact Ending.noConfusion
    · split <;> exact Ending.noConfusion
  · exact Ending.noConfusion

/-- One entry is written, and the frame for a copy, which holds no entries. -/
theorem makeWritable_mem (j : Index) (hf : m.InUse f) (k : Index) :
    (m.makeWritable j A.alloc).machine.mem f k =
      if f = m.tmpPage ∧ k = j then written (m.tmp j) (A.alloc m) (m.shared (m.tmp j))
      else m.mem f k := by
  have hset : ∀ (m' : Machine) (e : BitVec 32), m'.mem = m.mem → m'.tmpPage = m.tmpPage →
      (m'.setTmp j e).mem f k = if f = m.tmpPage ∧ k = j then e else m.mem f k := by
    intro m' e hmem htmp
    unfold setTmp setTmpPage
    dsimp only
    rw [hmem, htmp]
    by_cases hft : f = m.tmpPage
    · subst hft
      rw [Function.update_self]
      by_cases hkj : k = j
      · simp [hkj]
      · simp [hkj]
    · rw [Function.update_of_ne hft]
      simp [hft]
  unfold makeWritable written shared
  dsimp only
  rw [pageGetCount_and_mask]
  by_cases hshared : m.pageGetCount (m.tmp j) > 1
  · rw [if_pos hshared]
    simp only [hshared, decide_true, if_true]
    unfold pageFrameAlloc
    by_cases hnone : A.alloc m = BitVec.ofNat 32 noFreePage
    · rw [if_pos hnone]
      dsimp only
      rw [if_pos hnone, if_pos hnone]
      split
      next hentry =>
        rw [hentry.1, hentry.2]
        rfl
      next => rfl
    · rw [if_neg hnone]
      dsimp only
      rw [if_neg hnone, if_neg hnone]
      have hfresh := ((A.fresh m).resolve_left hnone).2
      have hne : f ≠ frameNo (A.alloc m) := fun heq => hfresh (heq ▸ hf)
      have hwritten := hset (m.setCount (A.alloc m) 1#8)
        (redirect (A.alloc m) (m.tmp j) ||| pageWritable) rfl rfl
      rw [← hwritten]
      split <;> exact congrFun (Function.update_of_ne hne _ _) k
  · rw [if_neg hshared]
    simp only [hshared, decide_false]
    exact hset m _ rfl rfl

/-! ## The entry of the page directory -/

theorem opened_mem_apply (f : Frame) (k : Index) : (m.opened cr3 i).mem f k =
    if f = frameNo cr3 ∧ k = i then m.mem f k ||| pageWritable else m.mem f k := by
  unfold opened
  dsimp only
  by_cases hf : f = frameNo cr3
  · subst hf
    rw [Function.update_self]
    by_cases hk : k = i
    · simp [hk]
    · simp [hk]
  · rw [Function.update_of_ne hf]
    simp [hf]

theorem opened_entry (m : Machine) (cr3 : BitVec 32) (i : Index) (f : Frame) (k : Index) :
    (Has ((m.opened cr3 i).mem f k) pagePresent ↔ Has (m.mem f k) pagePresent) ∧
      (Has ((m.opened cr3 i).mem f k) pageUser ↔ Has (m.mem f k) pageUser) ∧
      frameNo ((m.opened cr3 i).mem f k) = frameNo (m.mem f k) := by
  rw [opened_mem_apply]
  split
  · exact ⟨has_or_writable_present, has_or_writable_user, frameNo_or_writable⟩
  · exact ⟨Iff.rfl, Iff.rfl, rfl⟩

theorem HoldsEntries.inUse_opened (h : m.HoldsEntries f) : (m.opened cr3 i).InUse f := by
  obtain ⟨p, d, hd, rfl | ⟨k, hpresent, rfl⟩⟩ := h
  · exact InUse.dir hd
  · obtain ⟨hp, hu, hframe⟩ := opened_entry m cr3 i d k
    have hdir : (m.opened cr3 i).dir p = some d := hd
    rw [← hframe]
    by_cases huser : Has (m.mem d k) pageUser
    · exact InUse.userTable (userTable_eq_some.mpr
        ⟨d, hdir, ⟨hp.mpr hpresent, hu.mpr huser⟩, rfl⟩)
    · exact InUse.kernelTable (kernelTable_eq_some.mpr
        ⟨d, hdir, ⟨hp.mpr hpresent, fun h => huser (hu.mp h)⟩, rfl⟩)

/-- The entry of the page table as it is read, which may be that of the directory itself. -/
theorem opened_tmp (m : Machine) (cr3 addr : BitVec 32) :
    (m.opened cr3 (pgDirIndex addr)).tmp (pgTabIndex addr) =
    if frameNo (m.pgTable cr3 addr) = frameNo cr3 ∧ pgTabIndex addr = pgDirIndex addr then
      m.pgFrame cr3 addr ||| pageWritable
    else m.pgFrame cr3 addr := opened_mem_apply _ _

theorem pageSetWritable_eq (m : Machine) (cr3 addr : BitVec 32)
    (alloc : Machine → BitVec 32) :
    m.pageSetWritable cr3 addr alloc =
      if ¬ Has (m.pgTable cr3 addr) pagePresent then ⟨m.tmpMapPage cr3, .terminated⟩
      else if ¬ Has ((m.opened cr3 (pgDirIndex addr)).tmp (pgTabIndex addr)) pagePresent then
        ⟨m.opened cr3 (pgDirIndex addr), .terminated⟩
      else
        let r := (m.opened cr3 (pgDirIndex addr)).makeWritable (pgTabIndex addr) alloc
        match r.ending with
        | .returned => ⟨r.machine.tmpMapPage m.getTmpPage, .returned⟩
        | _ => r := by
  have hopened : ((m.tmpMapPage cr3).setTmp (pgDirIndex addr)
      ((m.tmpMapPage cr3).tmp (pgDirIndex addr) ||| pageWritable)).tmpMapPage
        ((m.tmpMapPage cr3).tmp (pgDirIndex addr) &&& 0xFFFFF000#32) =
      m.opened cr3 (pgDirIndex addr) := by
    unfold tmpMapPage opened
    rw [frameNo_and_mask]
    rfl
  unfold pageSetWritable
  dsimp only
  rw [hopened]
  rfl

/-- The faults after which the process is terminated, or nothing but entries of the user has
changed. -/
def Harmless (m : Machine) (image : ExecImage) (cr3 error addr new : BitVec 32) : Prop :=
  Filtered image error addr ∨ ¬ Has (m.pgTable cr3 addr) pagePresent ∨
    (¬ Has (m.pgFrame cr3 addr) pagePresent ∧
      (UserToKernel error addr → Has (m.pgTable cr3 addr) pageWritable ∨
        Has (m.pgTable cr3 addr) pageUser)) ∨
    (Has (m.pgFrame cr3 addr) pagePresent ∧ ¬ UserToKernel error addr ∧
      (Has (m.pgTable cr3 addr) pageWritable ∨ Has (m.pgTable cr3 addr) pageUser) ∧
      (m.Untouched cr3 addr new ∨ Has (m.pgFrame cr3 addr) pageUser))

theorem KeepsSupervisor.of_mem (h : m'.mem = m.mem) : m.KeepsSupervisor m' := by
  intro f k _ _
  rw [h]

/-- The permission which is given in the page directory before the page table is looked at. -/
theorem keepsSupervisor_opened_iff (hcr3 : m.cr3 p = some cr3) (addr : BitVec 32) :
    m.KeepsSupervisor (m.opened cr3 (pgDirIndex addr)) ↔
      Has (m.pgTable cr3 addr) pageWritable ∨ Has (m.pgTable cr3 addr) pageUser := by
  constructor
  · intro hkeeps
    by_contra hnone
    rw [not_or] at hnone
    have hentry := hkeeps (frameNo cr3) (pgDirIndex addr)
      ⟨p, _, dir_of_cr3 hcr3, Or.inl rfl⟩ hnone.2
    rw [opened_mem_apply, if_pos ⟨rfl, rfl⟩] at hentry
    refine hnone.1 (hentry.mp ?_)
    rw [has_writable_iff, BitVec.getLsbD_or, getLsbD_pageWritable (by decide)]
    simp
  · intro heither f k _ huser
    rw [opened_mem_apply]
    split
    next hentry =>
      obtain ⟨rfl, rfl⟩ := hentry
      have hwritable := heither.resolve_right huser
      have hsame := or_writable_eq_iff.mpr hwritable
      unfold pgTable at hsame
      rw [hsame]
    next => exact Iff.rfl

theorem untouched_iff (m : Machine) (cr3 addr : BitVec 32) (m' : Machine) :
    written (m.pgFrame cr3 addr) (A.alloc m') (m.shared (m.pgFrame cr3 addr)) =
        m.pgFrame cr3 addr ↔ m.Untouched cr3 addr (A.alloc m') := by
  have halign := (A.fresh m').imp id And.left
  rw [written_eq_iff halign]
  unfold Untouched shared
  simp only [decide_eq_true_eq]

/-- A page directory or page table after `page_set_writable`. -/
theorem makeWritable_opened (hf : m.HoldsEntries f) (k : Index) :
    ((m.opened cr3 (pgDirIndex addr)).makeWritable (pgTabIndex addr)
        A.alloc).machine.mem f k =
      if f = frameNo (m.pgTable cr3 addr) ∧ k = pgTabIndex addr then
        written ((m.opened cr3 (pgDirIndex addr)).tmp (pgTabIndex addr))
          (A.alloc (m.opened cr3 (pgDirIndex addr))) (m.shared (m.pgFrame cr3 addr))
      else if f = frameNo cr3 ∧ k = pgDirIndex addr then m.mem f k ||| pageWritable
      else m.mem f k := by
  have hshared : (m.opened cr3 (pgDirIndex addr)).shared
      ((m.opened cr3 (pgDirIndex addr)).tmp (pgTabIndex addr)) =
        m.shared (m.pgFrame cr3 addr) := by
    have hframe : frameNo ((m.opened cr3 (pgDirIndex addr)).tmp (pgTabIndex addr)) =
        frameNo (m.pgFrame cr3 addr) := (opened_entry _ _ _ _ _).2.2
    unfold shared pageGetCount
    rw [hframe]
    rfl
  rw [makeWritable_mem _ hf.inUse_opened, hshared, opened_mem_apply]
  rfl

/-- Which of the two entries on the way to the address are changed. -/
theorem onlyUser_iff (hcr3 : m.cr3 p = some cr3)
    (hpresent : Has (m.pgTable cr3 addr) pagePresent) :
    m.OnlyUser ((m.opened cr3 (pgDirIndex addr)).makeWritable (pgTabIndex addr)
        A.alloc).machine ↔
      (Has (m.pgTable cr3 addr) pageWritable ∨ Has (m.pgTable cr3 addr) pageUser) ∧
        (m.Untouched cr3 addr (A.alloc (m.opened cr3 (pgDirIndex addr))) ∨
          Has (m.pgFrame cr3 addr) pageUser) := by
  have hdir : m.HoldsEntries (frameNo cr3) := ⟨p, _, dir_of_cr3 hcr3, Or.inl rfl⟩
  have htable : m.HoldsEntries (frameNo (m.pgTable cr3 addr)) :=
    ⟨p, _, dir_of_cr3 hcr3, Or.inr ⟨_, hpresent, rfl⟩⟩
  have huntouched := untouched_iff (A := A) m cr3 addr (m.opened cr3 (pgDirIndex addr))
  have htmp := opened_tmp m cr3 addr
  unfold OnlyUser
  by_cases halias : frameNo (m.pgTable cr3 addr) = frameNo cr3 ∧ pgTabIndex addr = pgDirIndex addr
  · -- the two entries are one
    rw [if_pos halias] at htmp
    have hone : m.pgFrame cr3 addr = m.pgTable cr3 addr := by
      unfold pgFrame
      rw [halias.1, halias.2]
      rfl
    rw [hone] at htmp huntouched
    have hchanged : (∀ f k, m.HoldsEntries f →
        ((m.opened cr3 (pgDirIndex addr)).makeWritable (pgTabIndex addr)
          A.alloc).machine.mem f k ≠ m.mem f k → Has (m.mem f k) pageUser) ↔
        (written (m.pgTable cr3 addr ||| pageWritable)
          (A.alloc (m.opened cr3 (pgDirIndex addr))) (m.shared (m.pgTable cr3 addr)) ≠
            m.pgTable cr3 addr → Has (m.pgTable cr3 addr) pageUser) := by
      constructor
      · intro hall hne
        refine hall (frameNo cr3) (pgDirIndex addr) hdir ?_
        rw [makeWritable_opened hdir, if_pos ⟨halias.1.symm, halias.2.symm⟩, htmp, hone]
        exact hne
      · intro hentry f k hf hne
        rw [makeWritable_opened hf, htmp, hone, halias.1, halias.2] at hne
        by_cases hfk : f = frameNo cr3 ∧ k = pgDirIndex addr
        · rw [if_pos hfk, hfk.1, hfk.2] at hne
          rw [hfk.1, hfk.2]
          exact hentry hne
        · rw [if_neg hfk, if_neg hfk] at hne
          exact absurd rfl hne
    rw [hchanged, hone]
    by_cases hwritable : Has (m.pgTable cr3 addr) pageWritable
    · rw [or_writable_eq_iff.mpr hwritable, ne_eq, huntouched]
      tauto
    · have hne := written_or_writable_ne (A.alloc (m.opened cr3 (pgDirIndex addr)))
        (m.shared (m.pgTable cr3 addr)) hwritable
      constructor
      · intro h
        exact ⟨Or.inr (h hne), Or.inr (h hne)⟩
      · rintro ⟨hopen, _⟩ _
        exact hopen.resolve_left hwritable
  · rw [if_neg halias] at htmp
    have hchanged : (∀ f k, m.HoldsEntries f →
        ((m.opened cr3 (pgDirIndex addr)).makeWritable (pgTabIndex addr)
          A.alloc).machine.mem f k ≠ m.mem f k → Has (m.mem f k) pageUser) ↔
        (m.pgTable cr3 addr ||| pageWritable ≠ m.pgTable cr3 addr →
          Has (m.pgTable cr3 addr) pageUser) ∧
        (written (m.pgFrame cr3 addr) (A.alloc (m.opened cr3 (pgDirIndex addr)))
          (m.shared (m.pgFrame cr3 addr)) ≠ m.pgFrame cr3 addr →
            Has (m.pgFrame cr3 addr) pageUser) := by
      constructor
      · intro hall
        constructor
        · intro hne
          refine hall (frameNo cr3) (pgDirIndex addr) hdir ?_
          have hother : ¬ (frameNo cr3 = frameNo (m.pgTable cr3 addr) ∧
              pgDirIndex addr = pgTabIndex addr) := fun h => halias ⟨h.1.symm, h.2.symm⟩
          rw [makeWritable_opened hdir, if_neg hother, if_pos ⟨rfl, rfl⟩]
          exact hne
        · intro hne
          refine hall _ (pgTabIndex addr) htable ?_
          rw [makeWritable_opened htable, if_pos ⟨rfl, rfl⟩, htmp]
          exact hne
      · rintro ⟨hentry, hframe⟩ f k hf hne
        rw [makeWritable_opened hf, htmp] at hne
        by_cases hfk : f = frameNo (m.pgTable cr3 addr) ∧ k = pgTabIndex addr
        · rw [if_pos hfk, hfk.1, hfk.2] at hne
          rw [hfk.1, hfk.2]
          exact hframe hne
        · rw [if_neg hfk] at hne
          by_cases hdk : f = frameNo cr3 ∧ k = pgDirIndex addr
          · rw [if_pos hdk, hdk.1, hdk.2] at hne
            rw [hdk.1, hdk.2]
            exact hentry hne
          · rw [if_neg hdk] at hne
            exact absurd rfl hne
    rw [hchanged, ne_eq, ne_eq, or_writable_eq_iff, huntouched]
    exact and_congr or_iff_not_imp_left.symm or_iff_not_imp_left.symm

/-- The handler terminates the process or changes only entries of the user, and terminates
it after a write of the user to the kernel without a trace in the entries of the
supervisor, if and only if the fault is harmless. -/
theorem kernelSafe_iff (hcr3 : m.cr3 p = some cr3) (A : Allocator) (image : ExecImage)
    (error addr : BitVec 32) :
    m.KernelSafe error addr (m.handlePageFault image cr3 error addr A.alloc) ↔
      m.Harmless image cr3 error addr (A.alloc (m.opened cr3 (pgDirIndex addr))) := by
  have hterminated : ∀ m' : Machine, m'.mem = m.mem → m.KernelSafe error addr ⟨m', .terminated⟩ :=
    fun m' hmem => ⟨Or.inl rfl, fun _ => ⟨rfl, KeepsSupervisor.of_mem hmem⟩⟩
  by_cases hfiltered : Filtered image error addr
  · have hhandled : m.handlePageFault image cr3 error addr A.alloc = ⟨m, .terminated⟩ := by
      unfold Filtered at hfiltered
      unfold handlePageFault
      split_ifs <;> first | rfl | tauto
    rw [hhandled]
    exact iff_of_true (hterminated m rfl) (Or.inl hfiltered)
  · have hhandled : m.handlePageFault image cr3 error addr A.alloc =
        m.pageSetWritable cr3 addr A.alloc := by
      unfold Filtered at hfiltered
      unfold handlePageFault
      split_ifs <;> first | rfl | tauto
    rw [hhandled, pageSetWritable_eq]
    have hframe : Has ((m.opened cr3 (pgDirIndex addr)).tmp (pgTabIndex addr)) pagePresent ↔
        Has (m.pgFrame cr3 addr) pagePresent := (opened_entry _ _ _ _ _).1
    unfold Harmless
    by_cases htable : Has (m.pgTable cr3 addr) pagePresent
    · rw [if_neg (not_not_intro htable)]
      by_cases hpage : Has (m.pgFrame cr3 addr) pagePresent
      · rw [if_neg (not_not_intro (hframe.mpr hpage))]
        have honly := onlyUser_iff (A := A) hcr3 htable
        have hending := makeWritable_ending (m.opened cr3 (pgDirIndex addr))
          (pgTabIndex addr) A.alloc
        generalize (m.opened cr3 (pgDirIndex addr)).makeWritable (pgTabIndex addr)
          A.alloc = r at honly hending
        have hsafe : m.KernelSafe error addr
            (match r.ending with
            | .returned => ⟨r.machine.tmpMapPage m.getTmpPage, .returned⟩
            | _ => r) ↔ m.OnlyUser r.machine ∧ ¬ UserToKernel error addr := by
          unfold KernelSafe
          cases hr : r.ending with
          | returned =>
              have hsame : m.OnlyUser (r.machine.tmpMapPage m.getTmpPage) ↔ m.OnlyUser r.machine :=
                Iff.rfl
              simp [hsame]
          | terminated => exact absurd hr hending
          | halted h => simp [hr]
        dsimp only
        rw [hsafe, honly]
        constructor
        · rintro ⟨⟨hopen, hkept⟩, huser⟩
          exact Or.inr (Or.inr (Or.inr ⟨hpage, huser, hopen, hkept⟩))
        · rintro (hbefore | habsent | ⟨hnone, _⟩ | ⟨_, huser, hopen, hkept⟩)
          · exact absurd hbefore hfiltered
          · exact absurd htable habsent
          · exact absurd hpage hnone
          · exact ⟨⟨hopen, hkept⟩, huser⟩
      · rw [if_pos fun h => hpage (hframe.mp h)]
        have hkeeps := keepsSupervisor_opened_iff hcr3 addr
        constructor
        · rintro ⟨_, hkernel⟩
          exact Or.inr (Or.inr (Or.inl ⟨hpage, fun h => hkeeps.mp (hkernel h).2⟩))
        · rintro (hbefore | habsent | ⟨_, hopen⟩ | ⟨hsome, _⟩)
          · exact absurd hbefore hfiltered
          · exact absurd htable habsent
          · exact ⟨Or.inl rfl, fun h => ⟨rfl, hkeeps.mpr (hopen h)⟩⟩
          · exact absurd hsome hpage
    · rw [if_pos htable]
      exact iff_of_true (hterminated _ rfl) (Or.inr (Or.inl htable))

/-- Some process has a page of its own at address 0, and the kernel one at `0xC0005000`. -/
def twoPages : Machine where
  mem f i :=
    if f = 1#20 then (if i = 0 then 0x2007#32 else if i = 768 then 0x4003#32 else 0#32)
    else if f = 2#20 then (if i = 0 then 0x3007#32 else 0#32)
    else if f = 4#20 then (if i = 5 then 0x5003#32 else 0#32)
    else 0#32
  counts f := if f = 3#20 then 1#8 else 0#8
  tmpPage := 0#20
  cr3 p := if p.val = 0 then some 0x1000#32 else none

def noImage : ExecImage := ⟨0#32, 0#32, 0#32, 0#32⟩

def noFrames : Allocator where
  alloc _ := BitVec.ofNat 32 noFreePage
  fresh _ := Or.inl rfl

theorem kernelSafe_twoPages : twoPages.KernelSafe 7#32 0#32
    (twoPages.handlePageFault noImage 0x1000#32 7#32 0#32 noFrames.alloc) := by
  refine (kernelSafe_iff (p := ⟨0, by decide⟩) rfl noFrames noImage 7#32 0#32).mpr ?_
  refine Or.inr (Or.inr (Or.inr ⟨by decide +kernel, by decide +kernel, Or.inl ?_, Or.inr ?_⟩))
  · decide +kernel
  · decide +kernel

/-- A write in user mode to a page of the kernel is let through, and is made again. -/
theorem not_kernelSafe_twoPages : ¬ ∀ (m : Machine) (p : Slot) (cr3 : BitVec 32)
    (A : Allocator) (image : ExecImage) (error addr : BitVec 32), m.cr3 p = some cr3 →
      m.KernelSafe error addr (m.handlePageFault image cr3 error addr A.alloc) := by
  intro hall
  have hsafe := hall twoPages ⟨0, by decide⟩ 0x1000#32 noFrames noImage 7#32 0xC0005000#32 rfl
  have hreturned : (twoPages.handlePageFault noImage 0x1000#32 7#32 0xC0005000#32
      noFrames.alloc).ending = .returned := by decide +kernel
  have huser : UserToKernel 7#32 0xC0005000#32 := by decide
  have hterminated := (hsafe.2 huser).1
  rw [hreturned] at hterminated
  cases hterminated

end Machine

end Yak.Paging
