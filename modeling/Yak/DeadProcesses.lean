import Yak.DeadSteps
import Mathlib.Tactic

/-!
# Dead processes stay dead

The stages of `kernel_fork`, `kernel_exit` and the stop signals keep the
invariant of the machine, and so does every run which avoids the defects.
-/

namespace Yak.Process

open LinkedRing

namespace Machine

open Kernel

variable {m m' : Machine} {s : Step} {rings : ℕ → List Slot} {loose : Slot → Prop}
variable {k k' : Kernel}

/-! ## Stages of the system calls -/

/-- The current process goes on to a point outside `adjust_proc_queues`. -/
theorem inv_goto {x : Pc} (h : Base k (Function.update m.pc k.currentProcess x) rings loose)
    (hx : x.isLinking = false) (hlive : x.live = true → k.current.state.queued = true) :
    Inv (m.goto k x) := by
  have hhere : (m.goto k x).here = x := Function.update_self _ _ _
  refine ⟨rings, loose, ?_, ?_⟩
  · rw [done_eq (by rw [hhere]; exact hx)]
    exact h
  · intro hl
    rw [hhere] at hl
    exact hlive hl

theorem staysDead_quiet (hs : m.schedules s = false)
    (hkeeps : KeepsDead m.kernel m'.kernel) : StaysDead m s m' := by
  apply staysDead_of_keepsDead hkeeps
  intro hsched
  rw [hs] at hsched
  simp at hsched

/-- Writing the slot which the current process has picked. -/
theorem staysDead_fill (h : Base m.kernel m.pc rings loose) {c : Slot}
    (hpc : m.here = .forkPicked c) (hs : (∃ x, s = .copyPart x) ∨ s = .copy)
    (hother : ∀ r ≠ c, m'.kernel.processTable r = m.kernel.processTable r) :
    StaysDead m s m' := by
  have hstate := h.claim_state m.kernel.currentProcess c (by
    unfold here at hpc
    rw [hpc]
    rfl)
  constructor
  · intro p hp
    by_cases hpc' : p = c
    · rw [← hpc', hp] at hstate
      simp [ProcState.queued] at hstate
    · left
      rw [hother p hpc', hp]
  · intro p hp
    by_cases hpc' : p = c
    · right
      rw [hpc']
      exact ⟨hpc, hs⟩
    · left
      rw [hother p hpc', hp]
  · intro hsched
    rcases hs with ⟨x, hx⟩ | hx
    · rw [hx] at hsched
      simp [schedules] at hsched
    · rw [hx] at hsched
      simp [schedules] at hsched

/-- Writing the slot which the current process has copied. -/
theorem keepsDead_fill (h : Base k m.pc rings loose) {c : Slot}
    (hpc : m.pc k.currentProcess = .forkCopied c)
    (hother : ∀ r ≠ c, k'.processTable r = k.processTable r) : KeepsDead k k' := by
  intro r hr
  by_cases hrc : r = c
  · subst r
    rcases h.claim_state _ c (by rw [hpc]; rfl) with ⟨hpicked, _⟩ | hqueued
    · rw [hpc] at hpicked
      simp at hpicked
    · rw [not_dead_of_queued hqueued] at hr
      simp at hr
  · rw [hother r hrc]

/-- The process which has picked the slot `c` is in its queue, and is another. -/
theorem Inv.claiming (h : Inv m) {c : Slot} (hpc : m.here = .forkPicked c ∨ m.here = .forkCopied c) :
    ∃ rings loose, Base m.kernel m.pc rings loose ∧ m.kernel.current.state.queued = true ∧
      (m.pc m.kernel.currentProcess).claims = some c ∧ m.kernel.currentProcess ≠ c := by
  obtain ⟨rings, loose, hbase, hlive⟩ := h
  have hlink : m.here.isLinking = false := by rcases hpc with hpc | hpc <;> rw [hpc] <;> rfl
  have hclaim : m.here.claims = some c := by rcases hpc with hpc | hpc <;> rw [hpc] <;> rfl
  rw [done_eq hlink] at hbase
  refine ⟨rings, loose, hbase, hlive ?_, hclaim, fun heq => ?_⟩
  · rcases hpc with hpc | hpc <;> rw [hpc] <;> rfl
  · exact hbase.current_free (heq ▸ hbase.claim_loose _ c hclaim)

theorem Inv.pick (h : Inv m) (hsafe : m.Safe .pick) (hrun : m.exec .pick = .ok m') :
    Inv m' ∧ StaysDead m .pick m' := by
  by_cases huser : m.here = .user
  · have hm := h
    obtain ⟨rings, loose, hbase, hlive⟩ := h
    obtain ⟨_, hfree⟩ := hsafe
    rw [done_eq (by rw [huser]; rfl)] at hbase
    have hqueued : m.kernel.current.state.queued = true := hlive (by rw [huser]; rfl)
    unfold exec at hrun
    rw [huser] at hrun
    simp only [Except.ok.injEq] at hrun
    rw [← hrun]
    unfold Machine.pick
    cases hget : m.kernel.getFreeProc with
    | none => exact inv_staysDead_self hm rfl
    | some found =>
        obtain ⟨c, k⟩ := found
        obtain ⟨hexited, rfl⟩ := getFreeProc_eq hget
        rw [hget] at hfree
        have hbase' := hbase.pick (n := c.val) huser hqueued hexited
          (hfree c (by simp))
        constructor
        · exact inv_goto hbase' rfl fun _ => hqueued
        · exact staysDead_quiet rfl fun _ _ => rfl
  · have hself : m' = m := by
      unfold exec at hrun
      cases hpc : m.here <;> simp_all
    rw [hself]
    exact inv_staysDead_self h rfl

theorem Inv.copyPart (h : Inv m) {x : Proc} (hrun : m.exec (.copyPart x) = .ok m') :
    Inv m' ∧ StaysDead m (.copyPart x) m' := by
  by_cases hpicked : ∃ c, m.here = .forkPicked c
  · obtain ⟨c, hpc⟩ := hpicked
    obtain ⟨rings, loose, hbase, hqueued, hclaim, hcur⟩ := h.claiming (Or.inl hpc)
    have hlink : m.here.isLinking = false := by rw [hpc]; rfl
    unfold exec at hrun
    rw [hpc] at hrun
    dsimp only at hrun
    split at hrun
    next hstate =>
      simp only [Except.ok.injEq] at hrun
      rw [← hrun]
      have hfill : Base (m.kernel.modify c fun _ => x) m.pc rings loose := by
        apply hbase.fill hclaim
        · unfold here at hpc
          rw [hpc]
          simp
        · rcases hstate with heq | heq
          · rw [heq]
            exact hbase.claim_state _ c hclaim
          · rw [heq]
            exact Or.inr hqueued
      constructor
      · refine ⟨rings, loose, ?_, fun _ => ?_⟩
        · rw [done_eq (m := { m with kernel := m.kernel.modify c fun _ => x }) hlink]
          exact hfill
        · unfold current at hqueued ⊢
          rw [modify_currentProcess, modify_processTable, if_neg hcur]
          exact hqueued
      · apply staysDead_fill hbase hpc (Or.inl ⟨x, rfl⟩)
        intro r hr
        rw [modify_processTable, if_neg hr]
    next =>
      simp only [Except.ok.injEq] at hrun
      rw [← hrun]
      exact inv_staysDead_self h rfl
  · have hself : m' = m := by
      unfold exec at hrun
      cases hpc : m.here <;> simp_all
    rw [hself]
    exact inv_staysDead_self h rfl

theorem Inv.copy (h : Inv m) (hrun : m.exec .copy = .ok m') :
    Inv m' ∧ StaysDead m .copy m' := by
  by_cases hpicked : ∃ c, m.here = .forkPicked c
  · obtain ⟨c, hpc⟩ := hpicked
    obtain ⟨rings, loose, hbase, hqueued, hclaim, hcur⟩ := h.claiming (Or.inl hpc)
    have hhere : m.pc m.kernel.currentProcess = .forkPicked c := hpc
    unfold exec at hrun
    rw [hpc] at hrun
    simp only [Except.ok.injEq] at hrun
    rw [← hrun]
    have hfill : Base (m.kernel.forkCopy c) m.pc rings loose :=
      hbase.fill hclaim (by rw [hhere]; simp) (Or.inr hqueued)
    have hqueued' : (m.kernel.forkCopy c).current.state.queued = true := by
      unfold forkCopy current at *
      rw [modify_currentProcess, modify_processTable, if_neg hcur]
      exact hqueued
    constructor
    · refine inv_goto (hfill.goto ?_ ?_ ?_ ?_ ?_) rfl fun _ => hqueued'
      · exact hclaim.symm
      · intro hdead
        rw [not_dead_of_queued hqueued'] at hdead
        simp at hdead
      · simp
      · intro c' hc'
        simp only [Pc.claims, Option.some.injEq] at hc'
        rw [← hc']
        unfold forkCopy
        rw [modify_processTable, if_pos rfl]
        exact hqueued
      · simp
    · apply staysDead_fill hbase hpc (Or.inr rfl)
      intro r hr
      show (m.kernel.forkCopy c).processTable r = m.kernel.processTable r
      unfold forkCopy
      rw [modify_processTable, if_neg hr]
  · have hself : m' = m := by
      unfold exec at hrun
      cases hpc : m.here <;> simp_all
    rw [hself]
    exact inv_staysDead_self h rfl

theorem Inv.archFail (h : Inv m) (hrun : m.exec .archFail = .ok m') :
    Inv m' ∧ StaysDead m .archFail m' := by
  by_cases hcopied : ∃ c, m.here = .forkCopied c
  · obtain ⟨c, hpc⟩ := hcopied
    obtain ⟨rings, loose, hbase, hqueued, hclaim, hcur⟩ := h.claiming (Or.inr hpc)
    have hhere : m.pc m.kernel.currentProcess = .forkCopied c := hpc
    unfold exec at hrun
    rw [hpc] at hrun
    simp only [Except.ok.injEq] at hrun
    rw [← hrun]
    -- seen as a slot that is picked again, then written, then given up
    have hback : Base m.kernel (Function.update m.pc m.kernel.currentProcess (.forkPicked c))
        rings loose := by
      apply hbase.goto
      · exact hclaim.symm
      · intro hdead
        rw [not_dead_of_queued hqueued] at hdead
        simp at hdead
      · simp
      · intro c' hc'
        simp only [Pc.claims, Option.some.injEq] at hc'
        rcases hbase.claim_state _ c hclaim with ⟨hpicked, _⟩ | hstate
        · rw [hhere] at hpicked
          simp at hpicked
        · rw [← hc']
          exact hstate
      · simp
    have hfill : Base (m.kernel.forkFail c)
        (Function.update m.pc m.kernel.currentProcess (.forkPicked c)) rings loose := by
      unfold forkFail setState
      apply hback.fill
      · rw [Function.update_self]
        rfl
      · rw [Function.update_self]
        simp
      · rw [Function.update_self]
        exact Or.inl ⟨rfl, rfl⟩
    have hrelease := hfill.release (c := c)
      (by
        show (Function.update m.pc m.kernel.currentProcess (.forkPicked c)
          m.kernel.currentProcess).claims = some c
        rw [Function.update_self]
        rfl)
      (by
        unfold forkFail setState
        rw [modify_processTable, if_pos rfl])
    have hqueued' : (m.kernel.forkFail c).current.state.queued = true := by
      unfold forkFail setState current at *
      rw [modify_currentProcess, modify_processTable, if_neg hcur]
      exact hqueued
    have hcurrent : (m.kernel.forkFail c).currentProcess = m.kernel.currentProcess := rfl
    rw [hcurrent, Function.update_idem, ← hcurrent] at hrelease
    constructor
    · exact inv_goto hrelease rfl fun _ => hqueued'
    · apply staysDead_quiet rfl
      apply keepsDead_fill hbase hhere
      intro r hr
      simp [goto, forkFail, setState, modify_processTable, hr]
  · have hself : m' = m := by
      unfold exec at hrun
      cases hpc : m.here <;> simp_all
    rw [hself]
    exact inv_staysDead_self h rfl

theorem Inv.buildPart (h : Inv m) {x : Proc} (hrun : m.exec (.buildPart x) = .ok m') :
    Inv m' ∧ StaysDead m (.buildPart x) m' := by
  by_cases hcopied : ∃ c, m.here = .forkCopied c
  · obtain ⟨c, hpc⟩ := hcopied
    obtain ⟨rings, loose, hbase, hqueued, hclaim, hcur⟩ := h.claiming (Or.inr hpc)
    have hlink : m.here.isLinking = false := by rw [hpc]; rfl
    have hhere : m.pc m.kernel.currentProcess = .forkCopied c := hpc
    unfold exec at hrun
    rw [hpc] at hrun
    dsimp only at hrun
    split at hrun
    next hstate =>
      simp only [Except.ok.injEq] at hrun
      rw [← hrun]
      have hfill : Base (m.kernel.modify c fun _ => x) m.pc rings loose := by
        apply hbase.fill hclaim
        · rw [hhere]
          simp
        · rcases hstate with heq | heq
          · rw [heq]
            exact hbase.claim_state _ c hclaim
          · rw [heq]
            exact Or.inr rfl
      constructor
      · refine ⟨rings, loose, ?_, fun _ => ?_⟩
        · rw [done_eq (m := { m with kernel := m.kernel.modify c fun _ => x }) hlink]
          exact hfill
        · unfold current at hqueued ⊢
          rw [modify_currentProcess, modify_processTable, if_neg hcur]
          exact hqueued
      · apply staysDead_quiet rfl
        apply keepsDead_fill hbase hhere
        intro r hr
        simp [modify_processTable, hr]
    next =>
      simp only [Except.ok.injEq] at hrun
      rw [← hrun]
      exact inv_staysDead_self h rfl
  · have hself : m' = m := by
      unfold exec at hrun
      cases hpc : m.here <;> simp_all
    rw [hself]
    exact inv_staysDead_self h rfl

theorem Inv.build (h : Inv m) (hrun : m.exec .build = .ok m') :
    Inv m' ∧ StaysDead m .build m' := by
  by_cases hcopied : ∃ c, m.here = .forkCopied c
  · obtain ⟨c, hpc⟩ := hcopied
    obtain ⟨rings, loose, hbase, hqueued, hclaim, hcur⟩ := h.claiming (Or.inr hpc)
    have hhere : m.pc m.kernel.currentProcess = .forkCopied c := hpc
    unfold exec at hrun
    rw [hpc] at hrun
    simp only [Except.ok.injEq] at hrun
    rw [← hrun]
    have hfill : Base (m.kernel.forkBuild c) m.pc rings loose :=
      hbase.fill hclaim (by rw [hhere]; simp) (Or.inr rfl)
    have hqueued' : (m.kernel.forkBuild c).current.state.queued = true := by
      unfold forkBuild current at *
      rw [modify_currentProcess, modify_processTable, if_neg hcur]
      exact hqueued
    constructor
    · refine inv_goto (hfill.goto ?_ ?_ ?_ ?_ ?_) rfl fun _ => hqueued'
      · exact hclaim.symm
      · intro hdead
        rw [not_dead_of_queued hqueued'] at hdead
        simp at hdead
      · simp
      · intro c' hc'
        simp only [Pc.claims, Option.some.injEq] at hc'
        rw [← hc']
        unfold forkBuild
        rw [modify_processTable, if_pos rfl]
        rfl
      · intro c' hc'
        simp only [Pc.forkBuilt.injEq] at hc'
        rw [← hc']
        simp [Unlinked, forkBuild, modify_processTable]
    · apply staysDead_quiet rfl
      apply keepsDead_fill hbase hhere
      intro r hr
      simp [goto, forkBuild, modify_processTable, hr]
  · have hself : m' = m := by
      unfold exec at hrun
      cases hpc : m.here <;> simp_all
    rw [hself]
    exact inv_staysDead_self h rfl

/-- The current process writes a dead or stopped state into its own slot. -/
theorem Inv.mark (h : Inv m) (huser : m.here = .user) {x : Pc} {k : Kernel}
    (hs : m.schedules s = false) (ht : Touches (· = m.kernel.currentProcess) m.kernel k)
    (hx : x = .exiting ∧ k.current.state.dead = true ∨
      x = .stopping ∧ k.current.state.dead = false) :
    Inv (m.goto k x) ∧ StaysDead m s (m.goto k x) := by
  obtain ⟨rings, loose, hbase, hlive⟩ := h
  rw [done_eq (by rw [huser]; rfl)] at hbase
  have hqueued : m.kernel.current.state.queued = true := hlive (by rw [huser]; rfl)
  have hhere : m.pc m.kernel.currentProcess = .user := huser
  have hcur := ht.currentProcess
  have hclaims : x.claims = none := by
    rcases hx with ⟨rfl, _⟩ | ⟨rfl, _⟩ <;> rfl
  have hall : ∀ r, (Function.update m.pc k.currentProcess x r).claims = (m.pc r).claims := by
    intro r
    by_cases hr : r = k.currentProcess
    · subst r
      rw [Function.update_self, hclaims, hcur, hhere]
      rfl
    · rw [Function.update_of_ne hr]
  have hloose : ∀ r, loose r → (k.processTable r).state = (m.kernel.processTable r).state := by
    intro r hr
    apply ht.state
    intro heq
    exact hbase.current_free (heq ▸ hr)
  have hne : ∀ r, (m.pc r).claims ≠ none → r ≠ k.currentProcess := by
    intro r hr heq
    rw [heq, hcur, hhere] at hr
    exact hr rfl
  have hbase' : Base k (Function.update m.pc k.currentProcess x) rings loose := by
    constructor
    · exact ht.linked hbase.linked
    · intro r hr hon
      by_cases hrc : r = m.kernel.currentProcess
      · rw [hcur]
        refine ⟨hrc, ?_⟩
        rw [hrc, ← hcur, Function.update_self]
        rcases hx with ⟨hx, _⟩ | ⟨_, halive⟩
        · exact hx
        · unfold current at halive
          rw [hcur, ← hrc, hr] at halive
          simp at halive
      · rw [ht.state r hrc] at hr
        exact (hrc (hbase.dead_off r hr hon).1).elim
    · intro r hr
      rw [hall]
      by_cases hrc : r = m.kernel.currentProcess
      · rw [hrc, hhere]
        rfl
      · rw [ht.state r hrc] at hr
        exact hbase.dead_idle r hr
    · intro r c hc
      rw [hall] at hc
      exact hbase.claim_loose r c hc
    · intro r c hc
      rw [hall] at hc
      rw [Function.update_of_ne (hne r (by simp [hc])), hloose c (hbase.claim_loose r c hc)]
      exact hbase.claim_state r c hc
    · intro r c hc
      rw [hall] at hc ⊢
      exact hbase.claim_idle r c hc
    · intro r r' c hc hc'
      rw [hall] at hc hc'
      exact hbase.claim_inj r r' c hc hc'
    · intro r c hc
      have hr : r ≠ k.currentProcess := by
        intro heq
        rw [heq, Function.update_self] at hc
        rw [hc] at hclaims
        simp [Pc.claims] at hclaims
      rw [Function.update_of_ne hr] at hc
      have hun := hbase.built r c hc
      have hnext : k.links.next c = m.kernel.links.next c := by rw [ht.links]
      have hprev : k.links.prev c = m.kernel.links.prev c := by rw [ht.links]
      exact ⟨hnext.trans hun.1, hprev.trans hun.2⟩
    · intro r hr
      rw [hloose r hr]
      rcases hbase.loose_cases r hr with ⟨r', hr'⟩ | hexited
      · exact Or.inl ⟨r', by rw [hall]; exact hr'⟩
      · exact Or.inr hexited
    · rw [hcur]
      exact hbase.current_free
    · intro hpc
      rw [Function.update_self] at hpc
      rcases hx with ⟨_, hdead⟩ | ⟨hx, _⟩
      · exact hdead
      · rw [hx] at hpc
        simp at hpc
    · intro r hr
      rw [Function.update_of_ne hr]
      rw [hcur] at hr
      exact hbase.parked r hr
  constructor
  · apply inv_goto hbase'
    · rcases hx with ⟨rfl, _⟩ | ⟨rfl, _⟩ <;> rfl
    · intro hl
      rcases hx with ⟨rfl, _⟩ | ⟨rfl, _⟩ <;> simp [Pc.live, Pc.claims] at hl
  · apply staysDead_quiet hs
    intro r hr
    apply ht.state
    intro heq
    rw [heq] at hr
    have halive := not_dead_of_queued hqueued
    unfold current at halive
    rw [halive] at hr
    simp at hr

theorem Inv.exit (h : Inv m) {status : ℕ} (hrun : m.exec (.exit status) = .ok m') :
    Inv m' ∧ StaysDead m (.exit status) m' := by
  by_cases huser : m.here = .user
  · unfold exec at hrun
    rw [huser] at hrun
    simp only [Except.ok.injEq] at hrun
    rw [← hrun]
    apply h.mark huser rfl
    · exact touches_modify m.kernel ⟨rfl, rfl, rfl⟩
    · left
      refine ⟨rfl, ?_⟩
      simp only [exitState, current, modify_currentProcess, modify_processTable, if_true]
      split <;> rfl
  · have hself : m' = m := by
      unfold exec at hrun
      cases hpc : m.here <;> simp_all
    rw [hself]
    exact inv_staysDead_self h rfl

theorem Inv.stop (h : Inv m) (hrun : m.exec .stop = .ok m') :
    Inv m' ∧ StaysDead m .stop m' := by
  by_cases huser : m.here = .user
  · unfold exec at hrun
    rw [huser] at hrun
    simp only [Except.ok.injEq] at hrun
    rw [← hrun]
    apply h.mark huser rfl
    · exact touches_setState m.kernel .stopped
    · right
      refine ⟨rfl, ?_⟩
      simp [setState, current, modify_processTable, ProcState.dead]
  · have hself : m' = m := by
      unfold exec at hrun
      cases hpc : m.here <;> simp_all
    rw [hself]
    exact inv_staysDead_self h rfl

theorem Inv.cont (h : Inv m) (hrun : m.exec .cont = .ok m') :
    Inv m' ∧ StaysDead m .cont m' := by
  have hself : m' = m := by
    unfold exec at hrun
    cases hpc : m.here with
    | user =>
        rw [hpc] at hrun
        dsimp only at hrun
        -- the current process runs, so it is not stopped
        obtain ⟨_, _, _, hlive⟩ := h
        have hqueued := hlive (by rw [hpc]; rfl)
        split at hrun
        next hstopped =>
          rw [hstopped] at hqueued
          simp [ProcState.queued] at hqueued
        next => simpa using hrun.symm
    | forkPicked | forkCopied | forkBuilt | exiting | stopping | linking | leaving =>
        simp_all
  rw [hself]
  exact inv_staysDead_self h rfl

theorem Inv.notify (h : Inv m) (hrun : m.exec .notify = .ok m') :
    Inv m' ∧ StaysDead m .notify m' := by
  have hkill : m.here.isLinking = false →
      (m.kernel.kernelKill m.kernel.current.ppid sigchld >>= fun r =>
        Except.ok { m with kernel := r.1 }) = .ok m' → Inv m' ∧ StaysDead m .notify m' := by
    intro hlink hrun
    obtain ⟨rings, loose, hbase, hlive⟩ := h
    rw [done_eq hlink] at hbase
    rw [bind_eq_ok] at hrun
    obtain ⟨r, hkill, hrun⟩ := hrun
    simp only [Except.ok.injEq] at hrun
    rw [← hrun]
    exact inv_staysDead_touches hbase hlive hlink rfl (kernelKill_touches hkill)
  unfold exec at hrun
  cases hpc : m.here with
  | exiting =>
      rw [hpc] at hrun
      exact hkill (by rw [hpc]; rfl) hrun
  | stopping =>
      rw [hpc] at hrun
      exact hkill (by rw [hpc]; rfl) hrun
  | user | forkPicked | forkCopied | forkBuilt | linking | leaving =>
      have hself : m' = m := by simp_all
      rw [hself]
      exact inv_staysDead_self h rfl

/-- The current process enters `adjust_proc_queues`. -/
theorem inv_staysDead_linking {ws : List LinkStore}
    (h : Base (m.kernel.storeAll ws)
      (Function.update m.pc m.kernel.currentProcess (.linking ws true)) rings loose)
    (hs : m.schedules s = false) :
    Inv (m.goto m.kernel (.linking ws true)) ∧
      StaysDead m s (m.goto m.kernel (.linking ws true)) := by
  have hhere : (m.goto m.kernel (.linking ws true)).here = .linking ws true :=
    Function.update_self _ _ _
  constructor
  · refine ⟨rings, loose, ?_, ?_⟩
    · unfold done
      rw [hhere]
      exact h
    · intro hl
      rw [hhere] at hl
      simp [Pc.live] at hl
  · exact staysDead_quiet hs fun _ _ => rfl

/-- An exiting or stopping process enters `adjust_proc_queues` for itself. -/
theorem Inv.relinkSelf (h : Inv m) (hpc : m.here = .exiting ∨ m.here = .stopping)
    {ws : List LinkStore}
    (hws : m.kernel.adjustStores m.kernel.currentProcess = .ok ws) :
    Inv (m.goto m.kernel (.linking ws true)) ∧
      StaysDead m .relink (m.goto m.kernel (.linking ws true)) := by
  obtain ⟨rings, loose, hbase, _⟩ := h
  rw [done_eq (by rcases hpc with hpc | hpc <;> rw [hpc] <;> rfl)] at hbase
  have hclaims : (m.pc m.kernel.currentProcess).claims = none := by
    unfold here at hpc
    rcases hpc with hpc | hpc <;> rw [hpc] <;> rfl
  obtain ⟨k', rings', hadj, hbase', hcore, hon⟩ :=
    hbase.adjust (Touches.refl _ m.kernel) hbase.current_free
      (fun _ => hclaims) (fun _ hexit => hbase.exiting_dead hexit)
  rw [adjustStores_eq hws, Except.ok.injEq] at hadj
  subst hadj
  have hcur := hcore.currentProcess
  have hgoto := hbase'.goto (x := .linking ws true)
    (by rw [hcur, hclaims]; rfl)
    (by
      intro hdead honring
      rw [hcur, hon] at honring
      unfold current at hdead
      rw [hcur, hcore.state, not_dead_of_queued honring] at hdead
      simp at hdead)
    (by simp) (by simp [Pc.claims]) (by simp)
  rw [hcur] at hgoto
  exact inv_staysDead_linking hgoto rfl

theorem Inv.relink (h : Inv m) (hrun : m.exec .relink = .ok m') :
    Inv m' ∧ StaysDead m .relink m' := by
  unfold exec at hrun
  cases hpc : m.here with
  | forkBuilt c =>
      rw [hpc] at hrun
      dsimp only at hrun
      rw [bind_eq_ok] at hrun
      obtain ⟨ws, hws, hrun⟩ := hrun
      simp only [Except.ok.injEq] at hrun
      rw [← hrun]
      obtain ⟨rings, loose, hbase, _⟩ := h
      rw [done_eq (by rw [hpc]; rfl)] at hbase
      obtain ⟨rings', hbase'⟩ := hbase.enqueue hpc ws (adjustStores_eq hws)
      exact inv_staysDead_linking hbase' rfl
  | exiting =>
      rw [hpc] at hrun
      dsimp only at hrun
      rw [bind_eq_ok] at hrun
      obtain ⟨ws, hws, hrun⟩ := hrun
      simp only [Except.ok.injEq] at hrun
      rw [← hrun]
      exact h.relinkSelf (Or.inl hpc) hws
  | stopping =>
      rw [hpc] at hrun
      dsimp only at hrun
      rw [bind_eq_ok] at hrun
      obtain ⟨ws, hws, hrun⟩ := hrun
      simp only [Except.ok.injEq] at hrun
      rw [← hrun]
      exact h.relinkSelf (Or.inr hpc) hws
  | user | forkPicked | forkCopied | linking | leaving =>
      have hself : m' = m := by simp_all
      rw [hself]
      exact inv_staysDead_self h rfl

theorem Inv.store (h : Inv m) (hrun : m.exec .store = .ok m') :
    Inv m' ∧ StaysDead m .store m' := by
  unfold exec at hrun
  cases hpc : m.here with
  | linking ws resched =>
      have hhere : m.pc m.kernel.currentProcess = .linking ws resched := hpc
      obtain ⟨rings, loose, hbase, hlive⟩ := h
      have hdone : m.done = m.kernel.storeAll ws := by
        unfold done
        rw [hpc]
      rw [hdone] at hbase
      have hcur : (m.kernel.storeAll ws).currentProcess = m.kernel.currentProcess :=
        (storeAll_sameCore m.kernel ws).currentProcess
      have hgoto : ∀ x : Pc, x.claims = none → x ≠ .exiting →
          Base (m.kernel.storeAll ws) (Function.update m.pc m.kernel.currentProcess x)
            rings loose := by
        intro x hx hexit
        have := hbase.goto (x := x) (by rw [hcur, hhere, hx]; rfl)
          (by
            intro hdead hon
            have hpc' := (hbase.dead_off _ hdead hon).2
            rw [hcur, hhere] at hpc'
            simp at hpc')
          (fun heq => (hexit heq).elim)
          (by intro c hc; rw [hx] at hc; simp at hc)
          (by intro c hc; rw [hc] at hx; simp [Pc.claims] at hx)
        rw [hcur] at this
        exact this
      rw [hpc] at hrun
      cases ws with
      | nil =>
          simp only [Except.ok.injEq] at hrun
          rw [← hrun]
          have hbase' : Base m.kernel (Function.update m.pc m.kernel.currentProcess
              (if resched then .leaving else .user)) rings loose := by
            apply hgoto
            · split <;> rfl
            · split <;> simp
          constructor
          · apply inv_goto hbase'
            · split <;> rfl
            · intro hl
              apply hlive
              rw [hpc]
              cases resched with
              | true => simp [Pc.live, Pc.claims] at hl
              | false => rfl
          · exact staysDead_quiet rfl fun _ _ => rfl
      | cons w ws =>
          simp only [Except.ok.injEq] at hrun
          rw [← hrun]
          have hcore := store_sameCore m.kernel w
          have hhere' : (m.goto (m.kernel.store w) (.linking ws resched)).here =
              .linking ws resched := Function.update_self _ _ _
          constructor
          · refine ⟨rings, loose, ?_, ?_⟩
            · unfold done
              rw [hhere']
              have hbase' := hgoto (.linking ws resched) rfl (by simp)
              unfold goto
              rw [hcore.currentProcess]
              exact hbase'
            · intro hl
              rw [hhere'] at hl
              have hqueued := hlive (by rw [hpc]; exact hl)
              unfold current at hqueued ⊢
              show ((m.kernel.store w).processTable (m.kernel.store w).currentProcess).state.queued
                = true
              rw [hcore.currentProcess, hcore.state]
              exact hqueued
          · exact staysDead_quiet rfl hcore.keepsDead
  | user | forkPicked | forkCopied | forkBuilt | exiting | stopping | leaving =>
      have hself : m' = m := by simp_all
      rw [hself]
      exact inv_staysDead_self h rfl

theorem Inv.leave (h : Inv m) (hsafe : m.Safe .leave) (hrun : m.exec .leave = .ok m') :
    Inv m' ∧ StaysDead m .leave m' := by
  by_cases hpc : m.here = .leaving
  · obtain ⟨rings, loose, hbase, _⟩ := h
    obtain ⟨hlate, _⟩ := hsafe
    rw [done_eq (by rw [hpc]; rfl)] at hbase
    have hhere : m.pc m.kernel.currentProcess = .leaving := hpc
    unfold exec at hrun
    rw [hpc] at hrun
    dsimp only at hrun
    rw [bind_eq_ok] at hrun
    obtain ⟨k', hsched, hrun⟩ := hrun
    simp only [Except.ok.injEq] at hrun
    rw [← hrun]
    have hgoto := hbase.goto (x := .user) (by rw [hhere]; rfl)
      (by
        intro hdead hon
        have hexit := (hbase.dead_off _ hdead hon).2
        rw [hhere] at hexit
        simp at hexit)
      (by simp) (by simp [Pc.claims]) (by simp)
    have hself : Function.update m.pc m.kernel.currentProcess .user m.kernel.currentProcess =
        .user := Function.update_self _ _ _
    have hlate' : NoLateTimer m.kernel
        (Function.update m.pc m.kernel.currentProcess .user) := by
      intro r hr
      apply hlate (by simp [schedules, hpc])
      rcases hr with hr | ⟨r', hr'⟩
      · exact Or.inl hr
      · by_cases heq : r' = m.kernel.currentProcess
        · rw [heq, hself] at hr'
          simp [Pc.claims] at hr'
        · rw [Function.update_of_ne heq] at hr'
          exact Or.inr ⟨r', hr'⟩
    obtain ⟨rings', hbase', hkeeps, hqueued, hoff⟩ := hgoto.schedule hlate'
      (by rw [hself]; simp) (by rw [hself]; rfl) hsched
    exact inv_staysDead_schedule hbase'
      (fun r => (hgoto.all_parked (by rw [hself]; simp) (by rw [hself]; rfl) r).2)
      hkeeps hqueued hoff
  · have hself : m' = m := by
      unfold exec at hrun
      cases hpc' : m.here <;> simp_all
    rw [hself]
    apply inv_staysDead_self h
    unfold schedules
    cases hpc' : m.here <;> simp_all

/-! ## Runs -/

theorem Inv.step (h : Inv m) (hsafe : m.Safe s) (hrun : m.exec s = .ok m') :
    Inv m' ∧ StaysDead m s m' := by
  cases s with
  | tick => exact h.tick hsafe hrun
  | wakeup addr switch => exact h.wakeup hsafe hrun
  | call c => exact h.call hsafe hrun
  | pick => exact h.pick hsafe hrun
  | copyPart x => exact h.copyPart hrun
  | copy => exact h.copy hrun
  | archFail => exact h.archFail hrun
  | buildPart x => exact h.buildPart hrun
  | build => exact h.build hrun
  | exit status => exact h.exit hrun
  | stop => exact h.stop hrun
  | cont => exact h.cont hrun
  | notify => exact h.notify hrun
  | relink => exact h.relink hrun
  | store => exact h.store hrun
  | leave => exact h.leave hsafe hrun

/-- Every step of the run avoids the defects. -/
def SafeRun (m : Machine) : List Step → Prop
  | [] => True
  | s :: steps =>
      m.Safe s ∧
        match m.exec s with
        | .ok m' => SafeRun m' steps
        | .error _ => True

/-- Dead slots change only as they should in every step of the run. -/
def StaysDeadRun (m : Machine) : List Step → Prop
  | [] => True
  | s :: steps =>
      match m.exec s with
      | .ok m' => StaysDead m s m' ∧ StaysDeadRun m' steps
      | .error _ => True

theorem Inv.run (h : Inv m) (steps : List Step) (hsafe : m.SafeRun steps) :
    m.StaysDeadRun steps := by
  induction steps generalizing m with
  | nil => trivial
  | cons s steps ih =>
      rw [SafeRun] at hsafe
      rw [StaysDeadRun]
      cases hstep : m.exec s with
      | error e => trivial
      | ok m' =>
          rw [hstep] at hsafe
          obtain ⟨hinv, hstays⟩ := h.step hsafe.1 hstep
          exact ⟨hstays, ih hinv hsafe.2⟩

theorem init_inv : Inv init := by
  have hnone : ∀ r, ((init.pc r).claims) = none := fun _ => rfl
  refine ⟨initRings, fun _ => False, ?_, fun _ => by decide⟩
  rw [done_eq rfl]
  constructor
  · exact processesInit_linked
  · intro r hr hon
    rw [onRing_initRings] at hon
    have hlive : ∀ r, r.val = 0 → (init.kernel.processTable r).state.dead = false := by decide
    rw [hlive r hon] at hr
    simp at hr
  · exact fun r _ => hnone r
  · intro r c hc
    simp [hnone] at hc
  · intro r c hc
    simp [hnone] at hc
  · exact fun r c _ => hnone c
  · intro r r' c hc
    simp [hnone] at hc
  · intro r c hc
    simp [init] at hc
  · exact fun r hr => hr.elim
  · exact not_false
  · intro hpc
    simp [init] at hpc
  · exact fun r _ => ⟨by simp [init], rfl⟩

/-- Along every run which avoids the defects, zombies are only reaped by their
parents and exited slots are only taken by forks. -/
theorem staysDead_of_safeRun (steps : List Step) (hsafe : init.SafeRun steps) :
    init.StaysDeadRun steps :=
  init_inv.run steps hsafe

instance (k : Kernel) (pc : Slot → Pc) : Decidable (NoLateTimer k pc) :=
  inferInstanceAs (Decidable (∀ _, _ → _))

instance (m : Machine) : (s : Step) → Decidable (m.Safe s)
  | .tick => inferInstanceAs (Decidable (_ ∧ _ ∧ _))
  | .wakeup _ _ => inferInstanceAs (Decidable (_ ∧ _ ∧ _))
  | .pick => inferInstanceAs (Decidable (_ ∧ ∀ c ∈ _, ∀ _, _))
  | .call _ | .copyPart _ | .copy | .archFail | .buildPart _ | .build | .exit _ | .stop
  | .cont | .notify | .relink | .store | .leave => inferInstanceAs (Decidable (_ ∧ True))

def decidableSafeRun : (steps : List Step) → (m : Machine) → Decidable (m.SafeRun steps)
  | [], _ => .isTrue trivial
  | s :: steps, m =>
      match h : m.exec s with
      | .ok m' =>
          let _ := decidableSafeRun steps m'
          decidable_of_iff (m.Safe s ∧ m'.SafeRun steps) (by rw [SafeRun, h])
      | .error _ => decidable_of_iff (m.Safe s) (by rw [SafeRun, h]; simp)

instance (m : Machine) (steps : List Step) : Decidable (m.SafeRun steps) :=
  decidableSafeRun steps m

/-- The steps of an uninterrupted fork, with `n` stores to the queue. -/
def forkSteps (n : ℕ) : List Step :=
  [.pick, .copy, .build, .relink] ++ List.replicate (n + 1) .store ++ [.leave]

/-- The steps of an uninterrupted exit, with `n` stores to the queue. -/
def exitSteps (n : ℕ) : List Step :=
  [.exit 0, .notify, .relink] ++ List.replicate (n + 1) .store ++ [.leave]

/-- Process 1 forks process 2 and pauses; process 2 runs. -/
def twoChildren : List Step := forkSteps 3 ++ forkSteps 4 ++ [.call .pause]

/-- An undisturbed fork, exit and wait. -/
theorem staysDead_of_safeRun_wait :
    init.SafeRun (twoChildren ++ exitSteps 3 ++ [.tick, .call (.reap (-1) ⟨2, by decide⟩)]) ∧
      init.StaysDeadRun
        (twoChildren ++ exitSteps 3 ++ [.tick, .call (.reap (-1) ⟨2, by decide⟩)]) :=
  ⟨by decide +kernel, staysDead_of_safeRun _ (by decide +kernel)⟩

theorem staysDead_of_run {steps : List Step} (h : m.StaysDeadRun (steps ++ [s]))
    {m₁ m₂ : Machine} (hrun : m.run steps = .ok m₁) (hstep : m₁.exec s = .ok m₂) :
    StaysDead m₁ s m₂ := by
  unfold run at hrun
  induction steps generalizing m with
  | nil =>
      simp only [List.foldlM_nil, pure, Except.pure, Except.ok.injEq] at hrun
      subst hrun
      rw [List.nil_append, StaysDeadRun, hstep] at h
      exact h.1
  | cons s' steps ih =>
      rw [List.foldlM_cons, bind_eq_ok] at hrun
      obtain ⟨m', hfirst, hrun⟩ := hrun
      rw [List.cons_append, StaysDeadRun, hfirst] at h
      exact ih h.2 hrun

/-- Process 2 sets a terminal timer and exits with it; eleven ticks later it is
runnable, though nobody has waited for it. -/
def lateTimer : List Step :=
  twoChildren ++ [.call (.ttySetTimer 1)] ++ exitSteps 3 ++ List.replicate 10 .tick

theorem not_staysDead_lateTimer : ¬ init.StaysDeadRun (lateTimer ++ [.tick]) := by
  intro h
  have hbefore : (init.run lateTimer).map
      (fun m => (m.kernel.processTable ⟨2, by decide⟩).state) = .ok .zombie := by
    decide +kernel
  have hafter : (init.run lateTimer >>= fun m => m.exec .tick).map
      (fun m => (m.kernel.processTable ⟨2, by decide⟩).state) = .ok .runnable := by
    decide +kernel
  cases hrun : init.run lateTimer with
  | error e => simp [hrun, Except.map] at hbefore
  | ok m₁ =>
      rw [hrun] at hbefore hafter
      simp only [Except.map, Except.ok.injEq, bind, Except.bind] at hbefore hafter
      cases hstep : m₁.exec .tick with
      | error e => simp [hstep] at hafter
      | ok m₂ =>
          simp only [hstep, Except.ok.injEq] at hafter
          have hstays := (staysDead_of_run h hrun hstep).zombie _ hbefore
          rw [hafter] at hstays
          simp at hstays

end Machine

end Yak.Process
