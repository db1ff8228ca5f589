import Yak.PageFault

/-!
# Isolation of processes that share frames

In every run of forks, writes and write faults, each process reads what it would read
if a fork had copied the memory of the parent.
-/

namespace Yak.Paging

open PageFrames (noFreePage)
open Process (Slot)

namespace Machine

variable {m m' : Machine} {role : Frame → Role} {p q a c : Slot} {i j k l : Index} {d t f : Frame}
  {e cr3 new va : BitVec 32}

/-! ## Fork -/

theorem Spaces.imp {joint joint' : Slot → Slot → Index → Prop}
    {counted counted' : Slot → Index → Prop} (h : m.Spaces role joint counted)
    (hjoint : ∀ p q i, joint p q i → joint' p q i) (hcounted : ∀ q i, counted' q i ↔ counted q i) :
    m.Spaces role joint' counted' := by
  refine ⟨h.dir_role, h.user_role, h.kernel_role, h.data_role, h.dir_inj, ?_, h.once, ?_, h.alone,
    h.pid⟩
  · intro p q i k t hp hq
    obtain ⟨hik, hpq⟩ := h.table_inj hp hq
    exact ⟨hik, hpq.imp_right (hjoint p q i)⟩
  · intro p i j f hf
    have hsame : m.sharers counted' f = m.sharers counted f := by
      apply sharers_congr
      intro q k l
      rw [hcounted]
    rw [hsame]
    exact h.count hf

/-- The second loop of `copy_address_space` takes apart all that was in common. -/
theorem Forking.run (A : Allocator) : ∀ (todo : List Index) (m : Machine) (role : Frame → Role),
    m.Forking role a c cr3 todo → todo.Nodup →
    todo.foldlM (splitDirEntry A.alloc) m = .ok m' →
    ∃ role', m'.Forking role' a c cr3 [] ∧ m'.leaf = m.leaf ∧
      ∀ q i j f, m.frameAt q i j = some f → m'.mem f = m.mem f := by
  intro todo
  induction todo with
  | nil =>
      intro m role h _ hrun
      cases hrun
      exact ⟨role, h, rfl, fun _ _ _ _ _ => rfl⟩
  | cons i todo ih =>
      intro m role h hnodup hrun
      rw [List.foldlM_cons, bind_eq_ok] at hrun
      obtain ⟨m1, hstep, hrest⟩ := hrun
      have htail := (List.nodup_cons.mp hnodup).2
      by_cases ho : OpenAt (m.mem (frameNo cr3)) i
      · have ho' := ho
        rw [← h.tmpPage_eq] at ho'
        obtain ⟨hno, hm1⟩ := splitDirEntry_open ho' hstep
        obtain ⟨halign, hnew⟩ := (A.fresh m).resolve_left hno
        obtain ⟨role', hfork, hleaf, hmem⟩ :=
          ih m1 _ (h.split ho hnew halign hm1 hnodup) htail hrest
        have hleaf1 := h.split_leaf ho hnew halign hm1
        refine ⟨role', hfork, hleaf.trans hleaf1, ?_⟩
        intro q k j f hf
        have hf1 : m1.frameAt q k j = some f := by rw [frameAt, hleaf1]; exact hf
        have hne : f ≠ frameNo cr3 := by
          rintro rfl
          have h1 := h.spaces.data_role hf
          rw [h.spaces.dir_role h.dir_eq] at h1
          cases h1
        rw [hmem q k j f hf1, h.split_mem hnew hm1 (InUse.data hf) hne]
      · have ho' := ho
        rw [← h.tmpPage_eq] at ho'
        rw [splitDirEntry_closed ho', Except.ok.injEq] at hstep
        subst hstep
        have hnone : m.userTable a i = none := by
          rw [userTable, h.dir_eq, Option.bind_some, if_neg ho]
        exact ih m role (h.skip hnone) htail hrest

/-- The first half of `copy_address_space`. -/
theorem joined_eq (hcr3 : m.cr3 a = some cr3) (hnew : ¬ m.InUse (frameNo new)) :
    ((List.finRange 1024).foldl cowDirEntry
      (((({ m.setCount new 1#8 with cr3 := Function.update m.cr3 c (some new) }).tmpMapPage
        cr3).tmpMapPage new).setTmpPage (m.mem (frameNo cr3)))).tmpMapPage cr3 =
      m.joined c cr3 new := by
  have hmem : ((((({ m.setCount new 1#8 with
      cr3 := Function.update m.cr3 c (some new) }).tmpMapPage cr3).tmpMapPage new).setTmpPage
        (m.mem (frameNo cr3)))).mem =
      Function.update m.mem (frameNo new) (m.mem (frameNo cr3)) := rfl
  have htmp : ((((({ m.setCount new 1#8 with
      cr3 := Function.update m.cr3 c (some new) }).tmpMapPage cr3).tmpMapPage new).setTmpPage
        (m.mem (frameNo cr3)))).tmpPage = frameNo new := rfl
  rw [foldl_cowDirEntry _ (List.nodup_finRange 1024)]
  · rw [hmem, htmp, Function.update_self]
    unfold joined tmpMapPage
    ext1
    · funext f
      simp only
      by_cases hf : f = frameNo new
      · rw [if_pos hf, if_pos hf]
      · rw [if_neg hf, if_neg hf, Function.update_of_ne hf]
    · rfl
    · rfl
    · rfl
  · rw [hmem, htmp, Function.update_self]
    intro i ho heq
    apply hnew
    rw [← heq]
    exact InUse.userTable (userTable_eq_some.mpr ⟨_, dir_of_cr3 hcr3, ho, rfl⟩)

/-- `arch_fork`: the child reads what its parent reads, and nobody else sees anything. -/
theorem Sound.archFork {A : Allocator} (h : m.Sound role) (hcr3 : m.cr3 a = some cr3)
    (hc : m.cr3 c = none) (hzero : c.val ≠ 0)
    (hfork : m.archFork a c cr3 A.alloc = .ok (some m')) :
    ∃ role', m'.Sound role' ∧
      (∀ q va, m'.read q va = if q = c then m.read a va else m.read q va) ∧
      ∀ q i j, m'.leaf q i j =
        if q = c ∨ q = a then (m.leaf a i j).map readOnly else m.leaf q i j := by
  have hdir := dir_of_cr3 hcr3
  unfold Machine.archFork at hfork
  by_cases hno : A.alloc m = BitVec.ofNat 32 noFreePage
  · simp [pageFrameAlloc, hno] at hfork
  · obtain ⟨halign, hnew⟩ := (A.fresh m).resolve_left hno
    simp only [pageFrameAlloc, hno, if_false] at hfork
    obtain ⟨m2, hcopy, hm2⟩ := bind_eq_ok.mp hfork
    simp only [Except.ok.injEq, Option.some.injEq] at hm2
    subst hm2
    unfold copyAddressSpace at hcopy
    simp only [h.pid hdir, if_false] at hcopy
    obtain ⟨m3, hloop, hm3⟩ := bind_eq_ok.mp hcopy
    have hstart := joined_eq (c := c) hcr3 hnew
    have hjoined := h.joined hcr3 hc hzero hnew
    have hloop' : (List.finRange 1024).foldlM (splitDirEntry A.alloc)
        (m.joined c cr3 (A.alloc m)) = .ok m3 := by
      rw [← hstart]
      exact hloop
    obtain ⟨role', hdone, hleaf, hmem⟩ :=
      Forking.run A _ _ _ hjoined (List.nodup_finRange 1024) hloop'
    rw [Except.ok.injEq] at hm3
    have hleaf' : m2.leaf = (m.joined c cr3 (A.alloc m)).leaf := by
      rw [← hm3, ← hleaf]
      rfl
    have hframe : ∀ q i j, m2.frameAt q i j =
        if q = c then m.frameAt a i j else m.frameAt q i j := by
      intro q i j
      rw [← joined_frameAt h hcr3 hnew, frameAt, frameAt, hleaf']
    have hmem' : ∀ q i j f, m.frameAt q i j = some f → m2.mem f = m.mem f := by
      intro q i j f hf
      have hqc : q ≠ c := by
        rintro rfl
        rw [frameAt, leaf_eq, userTable, dir, hc] at hf
        cases hf
      have hf1 : (m.joined c cr3 (A.alloc m)).frameAt q i j = some f := by
        rw [joined_frameAt h hcr3 hnew, if_neg hqc]
        exact hf
      rw [← joined_mem_data (c := c) h hcr3 hnew hf, ← hmem q i j f hf1, ← hm3]
      rfl
    refine ⟨role', ?_, ?_, ?_⟩
    · have hspaces : m3.Sound role' :=
        hdone.spaces.imp (fun p q i hj => by cases hj.1) (fun q i => by simp [CountedFor])
      rw [← hm3]
      exact hspaces.congr rfl rfl rfl rfl rfl
    · intro q va
      by_cases hq : q = c
      · rw [if_pos hq]
        apply read_congr _ (hmem' a)
        intro i j
        refine ⟨readOnly, fun _ => frameNo_readOnly, fun _ => has_readOnly_user, ?_⟩
        rw [hleaf', joined_leaf h hcr3 hnew, if_pos (Or.inl hq)]
      · rw [if_neg hq]
        apply read_congr _ (hmem' q)
        intro i j
        rw [hleaf', joined_leaf h hcr3 hnew]
        by_cases hqa : q = a
        · refine ⟨readOnly, fun _ => frameNo_readOnly, fun _ => has_readOnly_user, ?_⟩
          rw [if_pos (Or.inr hqa), hqa]
        · refine ⟨id, fun _ => rfl, fun _ => Iff.rfl, ?_⟩
          rw [if_neg (not_or.mpr ⟨hq, hqa⟩), Option.map_id, id]
    · intro q i j
      rw [hleaf', joined_leaf h hcr3 hnew]

end Machine

/-! ## Runs -/

/-- What may happen: a fork, a write of the user which the page tables allow, or a write
fault which `page_set_writable` resolves. -/
inductive Op where
  | fork (p child : Slot) (A : Allocator)
  | write (p : Slot) (va : BitVec 32) (b : BitVec 8)
  | fault (p : Slot) (va : BitVec 32) (A : Allocator)

namespace Machine

variable {m m' : Machine} {p : Slot}

/-- The next state.  Slot 0 belongs to the idle process and is never free for a child. -/
def step (m : Machine) : Op → Option Machine
  | .fork p child A =>
      match m.cr3 p with
      | none => none
      | some cr3 =>
          if child.val = 0 ∨ (m.cr3 child).isSome then none
          else
            match m.archFork p child cr3 A.alloc with
            | .ok (some m') => some m'
            | _ => none
  | .write p va b => m.write p va b
  | .fault p va A =>
      match m.cr3 p with
      | none => none
      | some cr3 =>
          match m.pageSetWritable cr3 va A.alloc with
          | ⟨m', .returned⟩ => some m'
          | _ => none

def run (m : Machine) (ops : List Op) : Option Machine := ops.foldlM step m

/-- What each process reads at each address. -/
abbrev View := Slot → BitVec 32 → Option (BitVec 8)

/-- The memory of processes which share nothing: a fork copies it, a write changes it
for the writer alone, and a fault does nothing. -/
def viewAfter (view : View) : Op → View
  | .fork p child _ => Function.update view child (view p)
  | .write p va b => Function.update view p (Function.update (view p) va (some b))
  | .fault _ _ _ => view

/-- One process, not the idle one, whose frames are mapped once and counted once. -/
structure Start (m : Machine) (p : Slot) : Prop where
  pid : p.val ≠ 0
  only : ∀ q, (m.cr3 q).isSome ↔ q = p
  apart : ∃ role : Frame → Role, (∀ d, m.dir p = some d → role d = .dir) ∧
    (∀ i t, m.userTable p i = some t → role t = .userTable) ∧
    (∀ i t, m.kernelTable p i = some t → role t = .kernelTable) ∧
    ∀ i j f, m.frameAt p i j = some f → role f = .data
  table_once : ∀ i k t, m.userTable p i = some t → m.userTable p k = some t → i = k
  mapped_once : ∀ i j k l f, m.frameAt p i j = some f → m.frameAt p k l = some f → i = k ∧ j = l
  count_one : ∀ i j f, m.frameAt p i j = some f → m.counts f = 1#8

/-- A write fault in the kernel half only where the frame has one reference. -/
def SafeStep (m : Machine) : Op → Prop
  | .fault p va _ => m.SafeFault p va
  | _ => True

/-- All steps of the run are safe where they are made. -/
def SafeRun (m : Machine) : List Op → Prop
  | [] => True
  | op :: ops => m.SafeStep op ∧ ∀ m', m.step op = some m' → m'.SafeRun ops

theorem Start.sound (h : m.Start p) : ∃ role, m.Sound role := by
  obtain ⟨role, hdir, huser, hkernel, hdata⟩ := h.apart
  have honly : ∀ q d, m.dir q = some d → q = p := by
    intro q d hd
    apply (h.only q).mp
    unfold dir at hd
    cases hq : m.cr3 q with
    | none =>
        rw [hq] at hd
        cases hd
    | some x => rfl
  have htable : ∀ q i t, m.userTable q i = some t → q = p := by
    intro q i t ht
    obtain ⟨d, hd, -⟩ := userTable_eq_some.mp ht
    exact honly q d hd
  have hkern : ∀ q i t, m.kernelTable q i = some t → q = p := by
    intro q i t ht
    obtain ⟨d, hd, -⟩ := kernelTable_eq_some.mp ht
    exact honly q d hd
  have hleaf : ∀ q i j f, m.frameAt q i j = some f → q = p := by
    intro q i j f hf
    obtain ⟨e, he, -⟩ := frameAt_eq_some.mp hf
    obtain ⟨t, ht, -⟩ := leaf_eq_some.mp he
    exact htable q i t ht
  refine ⟨role, ⟨?_, ?_, ?_, ?_, ?_, ?_, ?_, ?_, ?_, ?_⟩⟩
  · intro q d hd
    obtain rfl := honly q d hd
    exact hdir d hd
  · intro q i t ht
    obtain rfl := htable q i t ht
    exact huser i t ht
  · intro q i t ht
    obtain rfl := hkern q i t ht
    exact hkernel i t ht
  · intro q i j f hf
    obtain rfl := hleaf q i j f hf
    exact hdata i j f hf
  · intro q q' d hq hq'
    rw [honly q d hq, honly q' d hq']
  · intro q q' i k t hq hq'
    obtain rfl := htable q i t hq
    obtain rfl := htable q' k t hq'
    exact ⟨h.table_once i k t hq hq', Or.inl rfl⟩
  · intro q i j k l f hf hf'
    obtain rfl := hleaf q i j f hf
    exact h.mapped_once i j k l f hf hf'
  · intro q i j f hf
    obtain rfl := hleaf q i j f hf
    have hone : m.sharers (fun _ _ => True) f = {q} := by
      ext q'
      rw [mem_sharers, Finset.mem_singleton]
      constructor
      · rintro ⟨k, l, hf', -⟩
        exact hleaf q' k l f hf'
      · rintro rfl
        exact ⟨i, j, hf, trivial⟩
    rw [hone, Finset.card_singleton]
    exact h.count_one i j f hf
  · intro q q' i j k l e he _ hf
    rw [hleaf q' k l _ hf, hleaf q i j _ (frameAt_of_leaf he)]
  · intro q d hd
    obtain rfl := honly q d hd
    exact h.pid

/-- One step, against the processes which share nothing. -/
theorem Sound.step {role : Frame → Role} {op : Op} (h : m.Sound role) (hsafe : m.SafeStep op)
    (hstep : m.step op = some m') :
    (∃ role', m'.Sound role') ∧ m'.read = viewAfter m.read op := by
  cases op with
  | fork p child A =>
      unfold Machine.step at hstep
      cases hcr3 : m.cr3 p with
      | none => simp [hcr3] at hstep
      | some cr3 =>
          simp only [hcr3] at hstep
          split at hstep
          · cases hstep
          · rename_i hfree
            rw [not_or] at hfree
            have hc : m.cr3 child = none := by
              cases hc : m.cr3 child with
              | none => rfl
              | some x => simp [hc] at hfree
            cases hfork : m.archFork p child cr3 A.alloc with
            | error e => simp [hfork] at hstep
            | ok r =>
                cases r with
                | none => simp [hfork] at hstep
                | some m1 =>
                    simp only [hfork, Option.some_inj] at hstep
                    subst hstep
                    obtain ⟨role', hsound, hread, -⟩ := h.archFork hcr3 hc hfree.1 hfork
                    refine ⟨⟨role', hsound⟩, ?_⟩
                    funext q va
                    rw [hread]
                    simp only [viewAfter]
                    by_cases hq : q = child
                    · subst hq
                      rw [if_pos rfl, Function.update_self]
                    · rw [if_neg hq, Function.update_of_ne hq]
  | write p va b =>
      obtain ⟨hsound, hread⟩ := h.write hstep
      refine ⟨⟨role, hsound⟩, ?_⟩
      funext q va'
      rw [hread]
      simp only [viewAfter]
      by_cases hq : q = p
      · subst hq
        rw [Function.update_self]
        by_cases hva : va' = va
        · subst hva
          rw [if_pos ⟨rfl, rfl⟩, Function.update_self]
        · rw [if_neg (fun hh => hva hh.2), Function.update_of_ne hva]
      · rw [if_neg (fun hh => hq hh.1), Function.update_of_ne hq]
  | fault p va A =>
      unfold Machine.step at hstep
      cases hcr3 : m.cr3 p with
      | none => simp [hcr3] at hstep
      | some cr3 =>
          simp only [hcr3] at hstep
          split at hstep
          next m₁ hfault =>
            obtain rfl := Option.some.inj hstep
            obtain ⟨role', hsound, hread, -⟩ := h.pageSetWritable hcr3 hsafe hfault
            exact ⟨⟨role', hsound⟩, funext fun q => funext fun va' => hread q va'⟩
          next => cases hstep

theorem Sound.run {role : Frame → Role} (h : m.Sound role) :
    ∀ {ops : List Op}, m.SafeRun ops → m.run ops = some m' → m'.read = ops.foldl viewAfter m.read := by
  intro ops
  induction ops generalizing m role with
  | nil =>
      intro _ hrun
      cases hrun
      rfl
  | cons op ops ih =>
      intro hsafe hrun
      unfold Machine.run at hrun
      rw [List.foldlM_cons] at hrun
      obtain ⟨m1, hstep, hrest⟩ := Option.bind_eq_some_iff.mp hrun
      obtain ⟨⟨role', hsound⟩, hread⟩ := h.step hsafe.1 hstep
      rw [List.foldl_cons, ← hread]
      exact ih hsound (hsafe.2 m1 hstep) hrest

/-- Copy on write is not visible: in every state of a run each process reads what it
last wrote, or what its parent had at the fork. -/
theorem isolated_of_safeRun {ops : List Op} (h : m.Start p) (hsafe : m.SafeRun ops)
    (hrun : m.run ops = some m') (q : Slot) (va : BitVec 32) :
    m'.read q va = ops.foldl viewAfter m.read q va := by
  obtain ⟨role, hsound⟩ := h.sound
  rw [hsound.run hsafe hrun]

/-! ## A machine with one process -/

/-- `InUse`, as a search of the page tables. -/
def inUse (m : Machine) (f : Frame) : Bool :=
  (List.finRange Process.nrProc).any fun p =>
    match m.dir p with
    | none => false
    | some d => d == f || (List.finRange 1024).any fun i =>
        decide (Has (m.mem d i) pagePresent) && (frameNo (m.mem d i) == f ||
          decide (Has (m.mem d i) pageUser) && (List.finRange 1024).any fun j =>
            decide (Has (m.mem (frameNo (m.mem d i)) j) pagePresent) &&
              frameNo (m.mem (frameNo (m.mem d i)) j) == f)

theorem inUse_of_InUse {f : Frame} (h : m.InUse f) : m.inUse f = true := by
  obtain ⟨p, h⟩ := h
  have hd : ∃ d, m.dir p = some d := by
    rcases h with h | ⟨i, h | h | ⟨j, h⟩⟩
    · exact ⟨f, h⟩
    · obtain ⟨d, hd, -⟩ := userTable_eq_some.mp h
      exact ⟨d, hd⟩
    · obtain ⟨d, hd, -⟩ := kernelTable_eq_some.mp h
      exact ⟨d, hd⟩
    · obtain ⟨e, he, -⟩ := frameAt_eq_some.mp h
      obtain ⟨t, ht, -⟩ := leaf_eq_some.mp he
      obtain ⟨d, hd, -⟩ := userTable_eq_some.mp ht
      exact ⟨d, hd⟩
  obtain ⟨d, hd⟩ := hd
  unfold inUse
  rw [List.any_eq_true]
  refine ⟨p, List.mem_finRange p, ?_⟩
  simp only [hd, Bool.or_eq_true, beq_iff_eq, List.any_eq_true, Bool.and_eq_true,
    decide_eq_true_eq]
  rcases h with h | ⟨i, h | h | ⟨j, h⟩⟩
  · rw [hd, Option.some_inj] at h
    exact Or.inl h
  · obtain ⟨d', hd', ho, hf⟩ := userTable_eq_some.mp h
    rw [hd, Option.some_inj] at hd'
    subst hd'
    exact Or.inr ⟨i, List.mem_finRange i, ho.1, Or.inl hf⟩
  · obtain ⟨d', hd', ho, hf⟩ := kernelTable_eq_some.mp h
    rw [hd, Option.some_inj] at hd'
    subst hd'
    exact Or.inr ⟨i, List.mem_finRange i, ho.1, Or.inl hf⟩
  · obtain ⟨e, he, hf⟩ := frameAt_eq_some.mp h
    obtain ⟨t, ht, hp, hte⟩ := leaf_eq_some.mp he
    obtain ⟨d', hd', ho, ht'⟩ := userTable_eq_some.mp ht
    rw [hd, Option.some_inj] at hd'
    subst hd'
    refine Or.inr ⟨i, List.mem_finRange i, ho.1, Or.inr ⟨ho.2, j, List.mem_finRange j, ?_, ?_⟩⟩
    · rw [ht']
      exact hp
    · rw [ht', hte]
      exact hf

end Machine

/-- Returns the first of the frames that is not in use. -/
def firstOf (frames : List (BitVec 32)) : Allocator where
  alloc m := (frames.find? fun a => a &&& 0xFFF#32 == 0#32 && !m.inUse (frameNo a)).getD
    (BitVec.ofNat 32 noFreePage)
  fresh m := by
    cases h : frames.find? fun a => a &&& 0xFFF#32 == 0#32 && !m.inUse (frameNo a) with
    | none => exact Or.inl rfl
    | some a =>
        have ha := List.find?_some h
        rw [Bool.and_eq_true, beq_iff_eq, Bool.not_eq_true'] at ha
        refine Or.inr ⟨ha.1, fun huse => ?_⟩
        have := Machine.inUse_of_InUse huse
        rw [Option.getD_some, ha.2] at this
        cases this

namespace Machine

def one : Slot := ⟨1, Process.one_lt_nrProc⟩
def two : Slot := ⟨2, Process.two_lt_nrProc⟩
def three : Slot := ⟨3, Process.three_lt_nrProc⟩

/-- Process 1 has one page, at address 0.  The kernel has mapped the frame 5, which is
not in use. -/
def onePage : Machine where
  mem f i :=
    if f = 1#20 then (if i = 0 then 0x2007#32 else if i = 768 then 0x4003#32 else 0#32)
    else if f = 2#20 then (if i = 0 then 0x3007#32 else 0#32)
    else if f = 4#20 then (if i = 5 then 0x5003#32 else 0#32)
    else 0#32
  counts f := if f = 3#20 then 1#8 else 0#8
  tmpPage := 0#20
  cr3 p := if p = one then some 0x1000#32 else none

theorem userTable_onePage (i : Index) :
    onePage.userTable one i = if i = 0 then some 2#20 else none := by
  have hdir : onePage.dir one = some 1#20 := by decide
  rw [userTable, hdir, Option.bind_some]
  by_cases h0 : i = 0
  · subst h0
    decide
  · by_cases hkernel : i = 768
    · subst hkernel
      decide
    · have hempty : onePage.mem 1#20 i = 0#32 := by simp [onePage, h0, hkernel]
      simp [OpenAt, hempty, h0, Has, pagePresent]

theorem leaf_onePage {i j : Index} {e : BitVec 32} (he : onePage.leaf one i j = some e) :
    i = 0 ∧ j = 0 ∧ e = 0x3007#32 := by
  have hentry : ∀ j, Has (onePage.mem 2#20 j) pagePresent → j = 0 := by
    intro j hj
    by_contra hne
    simp [onePage, hne, Has, pagePresent] at hj
  obtain ⟨t, ht, hp, rfl⟩ := leaf_eq_some.mp he
  rw [userTable_onePage] at ht
  split at ht
  next hi =>
    rw [Option.some_inj] at ht
    subst ht
    obtain rfl := hentry j hp
    exact ⟨hi, rfl, by decide⟩
  next => cases ht

theorem start_onePage : onePage.Start one := by
  have hdir : onePage.dir one = some 1#20 := by decide
  have huser := userTable_onePage
  have hkernel : ∀ i, onePage.kernelTable one i = if i = 768 then some 4#20 else none := by
    intro i
    rw [kernelTable, hdir, Option.bind_some]
    by_cases h768 : i = 768
    · subst h768
      decide
    · by_cases h0 : i = 0
      · subst h0
        decide
      · have hempty : onePage.mem 1#20 i = 0#32 := by simp [onePage, h0, h768]
        simp [hempty, h768, Has, pagePresent]
  have hframe : ∀ i j f, onePage.frameAt one i j = some f → i = 0 ∧ j = 0 ∧ f = 3#20 := by
    intro i j f hf
    obtain ⟨e, he, rfl⟩ := frameAt_eq_some.mp hf
    obtain ⟨rfl, rfl, rfl⟩ := leaf_onePage he
    exact ⟨rfl, rfl, by decide⟩
  refine ⟨by decide, ?_, ⟨fun f => if f = 1#20 then .dir else if f = 2#20 then .userTable
    else if f = 4#20 then .kernelTable else .data, ?_, ?_, ?_, ?_⟩, ?_, ?_, ?_⟩
  · decide
  · intro d hd
    rw [hdir, Option.some_inj] at hd
    subst hd
    rfl
  · intro i t ht
    rw [huser] at ht
    split at ht
    · rw [Option.some_inj] at ht
      subst ht
      rfl
    · cases ht
  · intro i t ht
    rw [hkernel] at ht
    split at ht
    · rw [Option.some_inj] at ht
      subst ht
      rfl
    · cases ht
  · intro i j f hf
    obtain ⟨-, -, rfl⟩ := hframe i j f hf
    rfl
  · intro i k t hi hk
    rw [huser] at hi hk
    split at hi
    · rename_i h0
      split at hk
      · rename_i h1
        rw [h0, h1]
      · cases hk
    · cases hi
  · intro i j k l f hf hf'
    obtain ⟨h1, h2, -⟩ := hframe i j f hf
    obtain ⟨h3, h4, -⟩ := hframe k l f hf'
    exact ⟨by rw [h1, h3], by rw [h2, h4]⟩
  · intro i j f hf
    obtain ⟨-, -, rfl⟩ := hframe i j f hf
    rfl

def writeAndFork : List Op :=
  [.write one 0#32 0x41#8, .fork one two (firstOf [0x6000#32, 0x7000#32])]

/-- After the fork the child writes to the page, which gives it its own copy. -/
def childWrites : List Op :=
  writeAndFork ++ [.fault two 0#32 (firstOf [0x8000#32]), .write two 0#32 0x42#8]

set_option maxRecDepth 10000 in
theorem safeRun_childWrites : onePage.SafeRun childWrites := by
  have hfault : (onePage.run writeAndFork).map (fun m => decide (m.SafeFault two 0#32)) =
      some true := by decide +kernel
  refine ⟨trivial, fun m₁ h₁ => ⟨trivial, fun m₂ h₂ => ⟨?_, fun m₃ _ => ⟨trivial, fun _ _ =>
    trivial⟩⟩⟩⟩
  have hrun : onePage.run writeAndFork = some m₂ := by
    simp [run, writeAndFork, h₁, h₂]
  rw [hrun, Option.map_some, Option.some_inj, decide_eq_true_eq] at hfault
  exact hfault

set_option maxRecDepth 10000 in
theorem isolated_of_safeRun_onePage :
    ∃ m', onePage.run childWrites = some m' ∧ m'.read one 0#32 = some 0x41#8 ∧
      m'.read two 0#32 = some 0x42#8 := by
  have hsome : (onePage.run childWrites).isSome = true := by decide +kernel
  obtain ⟨m', hm'⟩ := Option.isSome_iff_exists.mp hsome
  refine ⟨m', hm', ?_⟩
  rw [isolated_of_safeRun start_onePage safeRun_childWrites hm',
    isolated_of_safeRun start_onePage safeRun_childWrites hm']
  decide

/-- After a fork process 1 gets its own copy, in the frame which the kernel has mapped
as well, and forks again.  Then it writes to the address of the kernel: the fault takes
a reference from the frame, which process 3 still has. -/
def kernelFault : List Op :=
  [.fork one two (firstOf [0x6000#32, 0x7000#32]), .fault one 0#32 (firstOf [0x5000#32]),
    .fork one three (firstOf [0x8000#32, 0x9000#32]),
    .fault one 0xC0005000#32 (firstOf [0xA000#32]), .fault one 0#32 (firstOf []),
    .write one 0#32 0x55#8]

set_option maxRecDepth 10000 in
theorem not_isolated_kernelFault :
    ¬ ∀ (m : Machine) (p : Slot) (ops : List Op) (m' : Machine), m.Start p →
      m.run ops = some m' → ∀ q va, m'.read q va = ops.foldl viewAfter m.read q va := by
  intro hall
  have hseen : (onePage.run kernelFault).map (fun m => m.read three 0#32) =
      some (some 0x55#8) := by decide +kernel
  obtain ⟨m', hm', hread⟩ := Option.map_eq_some_iff.mp hseen
  have hexpected := hall onePage one kernelFault m' start_onePage hm' three 0#32
  rw [hread] at hexpected
  exact absurd hexpected (by decide)

end Machine

end Yak.Paging
