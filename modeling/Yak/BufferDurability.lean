import Yak.BufferTransparency

/-!
# What a crash leaves on the disk

The buffer cache delays writes, so the disk lags behind the device which the
process means to use.  `Saves` is what every call may do to the disk: a block
keeps its contents or gets those of a dirty buffer with its key.  In a safe run
this makes the disk, block by block, an earlier version of the device, no older
than the last `buffer_sync`, and the versions never go back.
-/

namespace Yak.BufferCache

open Yak.Cache LinkedRing

variable {α : Type}

/-! ## Calls which only save dirty buffers -/

namespace Cache

/-- A dirty buffer holds `data` for this block. -/
def Pending (c : Cache α) (dev blknr : ℕ) (data : α) : Prop :=
  ∃ x, (c.buf x).dwrite = true ∧ (c.buf x).bDev = dev ∧ (c.buf x).bBlknr = blknr ∧
    (c.buf x).bData = some data

structure Saves (c c' : Cache α) : Prop where
  disk : ∀ dev n, c'.disk dev n = c.disk dev n ∨ c.Pending dev n (c'.disk dev n)
  pending : ∀ dev n data, c'.Pending dev n data →
    c.Pending dev n data ∨ data = c.disk dev n
  dirty : ∀ x, (c'.buf x).dwrite = true → (c.buf x).dwrite = true

variable {env : Env α} {c c' c'' : Cache α} {x : Node} {current dev n : ℕ}

theorem Saves.refl (c : Cache α) : c.Saves c where
  disk _ _ := Or.inl rfl
  pending _ _ _ h := Or.inl h
  dirty _ h := h

theorem Saves.trans (h : c.Saves c') (h' : c'.Saves c'') : c.Saves c'' where
  disk dev n := by
    rcases h'.disk dev n with hsame | hsaved
    · rw [hsame]
      exact h.disk dev n
    · rcases h.pending dev n _ hsaved with hpending | hold
      · exact Or.inr hpending
      · exact Or.inl hold
  pending dev n data hdata := by
    rcases h'.pending dev n data hdata with hdata' | hold
    · exact h.pending dev n data hdata'
    · subst hold
      rcases h.disk dev n with hsame | hsaved
      · exact Or.inr hsame
      · exact Or.inl hsaved
  dirty x hx := h.dirty x (h'.dirty x hx)

/-- If the new buffer is dirty, then the old one was, with the same key and data. -/
def Inherits (b b' : Buffer α) : Prop :=
  b'.dwrite = true → b.dwrite = true ∧ b.bDev = b'.bDev ∧ b.bBlknr = b'.bBlknr ∧
    b.bData = b'.bData

theorem Inherits.refl (b : Buffer α) : Inherits b b :=
  fun hdirty => ⟨hdirty, rfl, rfl, rfl⟩

theorem Saves.of_inherits (hdisk : c'.disk = c.disk)
    (hbuf : ∀ y, Inherits (c.buf y) (c'.buf y)) : c.Saves c' where
  disk dev n := Or.inl (by rw [hdisk])
  pending dev n data := by
    rintro ⟨y, hdirty, hdev, hblknr, hdata⟩
    have hold := hbuf y hdirty
    exact Or.inl ⟨y, hold.1, hold.2.1.trans hdev, hold.2.2.1.trans hblknr,
      hold.2.2.2.trans hdata⟩
  dirty y hy := (hbuf y hy).1

theorem Saves.modify (c : Cache α) (x : Node) (f : Buffer α → Buffer α)
    (hf : Inherits (c.buf x) (f (c.buf x))) : c.Saves (c.modify x f) := by
  have hbuf : ∀ y, Inherits (c.buf y) ((c.modify x f).buf y) := by
    intro y
    by_cases hy : y = x
    · simpa [hy] using hf
    · simpa [Cache.modify, hy] using Inherits.refl (c.buf y)
  exact Saves.of_inherits rfl hbuf

/-- The clock is of no account. -/
theorem Saves.tick (h : c.Saves c') : c.Saves c'.tick :=
  ⟨h.disk, h.pending, h.dirty⟩

theorem Saves.read (c : Cache α) (x : Node) (data : α) : c.Saves (c.transfer x data .read) where
  disk dev n := Or.inl rfl
  pending dev n data' := by
    rintro ⟨y, hdirty, hdev, hblknr, hdata⟩
    by_cases hy : y = x
    · subst hy
      simp only [transfer, modify_buf_self, Option.some.injEq] at hdev hblknr hdata
      right
      rw [← hdev, ← hblknr, hdata]
    · left
      simp only [transfer, modify_buf_of_ne _ _ hy] at hdirty hdev hblknr hdata
      exact ⟨y, hdirty, hdev, hblknr, hdata⟩
  dirty y hdirty := by
    by_cases hy : y = x
    · simpa [transfer, hy] using hdirty
    · simpa [transfer, Cache.modify, hy] using hdirty

theorem Saves.write {data : α} (hdirty : (c.buf x).dwrite = true)
    (hdata : (c.buf x).bData = some data) :
    c.Saves ((c.modify x fun b => { b with dwrite := false }).transfer x data .write) := by
  constructor
  · intro dev n
    by_cases hdev : dev = (c.buf x).bDev
    · by_cases hn : n = (c.buf x).bBlknr
      · right
        refine ⟨x, hdirty, hdev.symm, hn.symm, ?_⟩
        simp [transfer, hdev, hn, hdata]
      · left
        simp [transfer, hdev, hn]
    · left
      simp [transfer, hdev]
  · intro dev n data'
    rintro ⟨y, hy, hrest⟩
    by_cases hyx : y = x
    · subst hyx
      simp [transfer] at hy
    · left
      simp only [transfer, modify_buf_of_ne _ _ hyx] at hy hrest
      exact ⟨y, hy, hrest⟩
  · intro y hy
    by_cases hyx : y = x
    · rw [hyx]
      exact hdirty
    · simpa [transfer, Cache.modify, hyx] using hy

/-! ## What the calls do -/

/-- If the drive fails then the delayed write is lost. -/
theorem Saves.writeOut {ok : Bool} (hdirty : (c.buf x).dwrite = true)
    (hrun : (c.modify x fun b => { b with dwrite := false }).blkDevio env x .write =
      .ok (c', ok)) : c.Saves c' := by
  have hflags : ∀ done error : Buffer α → Bool,
      c.Saves ((c.modify x fun b => { b with dwrite := false }).modify x fun b =>
        { b with done := done b, error := error b }) := by
    intro done error
    have hclear : c.Saves (c.modify x fun b => { b with dwrite := false }) :=
      Saves.modify c x _ (by simp [Inherits])
    exact hclear.trans (Saves.modify _ x _ (Inherits.refl _))
  unfold blkDevio hddevPhysio at hrun
  split_ifs at hrun
  · cases hrun
    exact (hflags Buffer.done fun _ => true).tick
  · cases hrun
    exact (hflags (fun _ => true) Buffer.error).tick
  · cases hdata : (c.buf x).bData with
    | none => simp [hdata] at hrun
    | some data =>
        simp only [modify_buf_self, hdata, Except.ok.injEq, Prod.mk.injEq] at hrun
        rw [← hrun.1]
        exact (Saves.write hdirty hdata).tick
  · cases hrun
    exact hflags Buffer.done fun _ => true

theorem saves_blkDevio_read (c : Cache α) (x : Node) :
    Yields (fun r => c.Saves r.1) (c.blkDevio env x .read) := by
  have hflags : ∀ done error : Buffer α → Bool,
      c.Saves (c.modify x fun b => { b with done := done b, error := error b }) :=
    fun _ _ => Saves.modify c x _ (Inherits.refl _)
  intro r hrun
  unfold blkDevio hddevPhysio at hrun
  split_ifs at hrun
  · cases hrun
    exact (hflags Buffer.done fun _ => true).tick
  · cases hrun
    exact (hflags (fun _ => true) Buffer.error).tick
  · cases hdata : (c.buf x).bData with
    | none => simp [hdata] at hrun
    | some data =>
        simp only [hdata, Except.ok.injEq] at hrun
        rw [← hrun]
        exact (Saves.read c x data).tick
  · cases hrun
    exact hflags Buffer.done fun _ => true

theorem saves_relink {ptrs : Except Halt Pointers} :
    Yields c.Saves (ptrs >>= fun p => .ok { c with ptrs := p }) := by
  refine Yields.of_forall fun p => ?_
  exact Yields.ok (Saves.of_inherits rfl fun y => Inherits.refl _)

theorem saves_brelse (c : Cache α) (x : Node) : Yields c.Saves (c.brelse x) := by
  unfold brelse
  split
  · exact Yields.ok (Saves.refl c)
  · have hput : Yields c.Saves (c.putIntoFreeList x) := by
      unfold putIntoFreeList
      split <;> exact saves_relink
    refine Yields.bind hput fun c₁ h₁ => ?_
    exact Yields.ok (h₁.trans (Saves.modify c₁ x _ (Inherits.refl _)))

theorem saves_bwrite (hdirty : (c.buf x).dwrite = true) :
    Yields c.Saves ((c.modify x fun b => { b with dwrite := false }).bwrite env x) := by
  have hout : Yields (fun r => c.Saves r.1)
      ((c.modify x fun b => { b with dwrite := false }).blkDevio env x .write) :=
    fun r hrun => Saves.writeOut hdirty hrun
  refine Yields.bind hout fun r h₁ => ?_
  exact (saves_brelse r.1 x).imp fun c₂ h₂ => h₁.trans h₂

theorem saves_lockFound (c : Cache α) (x : Node) :
    Yields (fun r => c.Saves r.2) (c.lockFound current x) := by
  unfold lockFound
  split
  · exact Yields.error _
  · refine Yields.of_forall fun m => ?_
    have hlock : c.Saves (c.modify x fun b => { b with bMutex := m }) :=
      Saves.modify c x _ (Inherits.refl _)
    refine Yields.bind saves_relink fun c₁ h₁ => ?_
    exact Yields.ok (hlock.trans h₁)

theorem saves_recycle (c : Cache α) (x : Node) :
    Yields (fun r => c.Saves r.2) (c.recycle env current dev n x) := by
  unfold recycle
  split
  · exact Yields.error _
  · refine Yields.of_forall fun m => ?_
    have hrekey : c.Saves (c.rekey env m dev n x) :=
      (Saves.modify c x _ (by simp [Inherits])).tick
    refine Yields.bind saves_relink fun c₁ h₁ => ?_
    refine Yields.bind saves_relink fun c₂ h₂ => ?_
    exact Yields.ok ((hrekey.trans h₁).trans h₂)

theorem saves_getblkLoop (fuel : ℕ) : ∀ c : Cache α,
    Yields (fun r => c.Saves r.2) (getblkLoop env current dev n fuel c) := by
  induction fuel with
  | zero => exact fun c => Yields.error _
  | succ fuel ih =>
      intro c
      unfold getblkLoop
      refine Yields.of_forall fun found => ?_
      cases found with
      | some x => exact saves_lockFound c x
      | none =>
          cases hnext : c.ptrs.free.next .freeList with
          | none => exact Yields.error _
          | some x =>
              refine Yields.bind saves_relink fun c₁ h₁ => ?_
              by_cases hdirty : (c₁.buf x).dwrite = true
              · simp only [hdirty, if_true]
                refine Yields.bind (saves_bwrite hdirty) fun c₂ h₂ => ?_
                exact (ih c₂).imp fun r h₃ => (h₁.trans h₂).trans h₃
              · simp only [hdirty]
                exact (saves_recycle c₁ x).imp fun r h₂ => h₁.trans h₂

theorem saves_bread (c : Cache α) :
    Yields (fun r => c.Saves r.2) (c.bread env current dev n) := by
  unfold bread
  refine Yields.bind (saves_getblkLoop _ c) fun r h₁ => ?_
  rcases r with ⟨x, c₁⟩
  dsimp only
  split
  · exact Yields.ok h₁
  · refine Yields.bind (saves_blkDevio_read c₁ x) fun r' h₂ => ?_
    exact Yields.ok (h₁.trans h₂)

theorem saves_syncSlot (c : Cache α) (i : Fin nrEntries) :
    Yields c.Saves (c.syncSlot env current i) := by
  unfold syncSlot
  split
  next hdirty => exact saves_bwrite hdirty.1
  next => exact Yields.ok (Saves.refl c)

theorem saves_bufferSync (c : Cache α) : Yields c.Saves (c.bufferSync env current) := by
  intro c' hrun
  apply foldlM_invariant c.Saves _ (Saves.refl c) hrun
  intro c₁ i c₂ _ h₁ hslot
  exact h₁.trans (saves_syncSlot c₁ i c₂ hslot)

end Cache

/-! ## Versions of the device -/

/-- A value `d` that only ever catches up with `v` is some earlier value of `v`, and
never falls behind what it had. -/
theorem exists_lag {β : Type} {d v : ℕ → β} (hzero : d 0 = v 0)
    (hstep : ∀ i, d (i + 1) = d i ∨ d (i + 1) = v (i + 1)) :
    ∃ k : ℕ → ℕ, Monotone k ∧ (∀ i, k i ≤ i) ∧ (∀ i, d i = v (k i)) ∧
      ∀ i, d i = v i → k i = i := by
  classical
  let k : ℕ → ℕ := fun i => Nat.findGreatest (fun j => d i = v j) i
  have hcaught : ∀ i, d i = v i → k i = i := fun i hi => Nat.findGreatest_eq hi
  refine ⟨k, ?_, fun i => Nat.findGreatest_le i, ?_, hcaught⟩
  · apply monotone_nat_of_le_succ
    intro i
    rcases hstep i with hsame | hnew
    · simp only [k, hsame]
      exact Nat.findGreatest_mono_right _ (Nat.le_succ i)
    · rw [hcaught (i + 1) hnew]
      exact (Nat.findGreatest_le i).trans (Nat.le_succ i)
  · intro i
    have hsome : ∃ j ≤ i, d i = v j := by
      induction i with
      | zero => exact ⟨0, le_rfl, hzero⟩
      | succ i ih =>
          rcases hstep i with hsame | hnew
          · obtain ⟨j, hj, hij⟩ := ih
            exact ⟨j, hj.trans (Nat.le_succ i), hsame.trans hij⟩
          · exact ⟨i + 1, le_rfl, hnew⟩
    obtain ⟨j, hj, hij⟩ := hsome
    exact Nat.findGreatest_spec (P := fun j => d i = v j) hj hij

namespace Device

/-- The contents of the device after these requests. -/
def version (content : ℕ → α) (rs : List (Request α)) : ℕ → α := rs.foldl next content

theorem version_take_succ (content : ℕ → α) {rs : List (Request α)} {i : ℕ}
    {r : Request α} (hr : rs[i]? = some r) :
    version content (rs.take (i + 1)) = next (version content (rs.take i)) r := by
  simp [version, List.take_add_one, hr]

end Device

namespace Client

open Cache

variable {env : Env α} {u : User} {s s' : Client α} {content : ℕ → α} {x : Node} {n : ℕ}

/-- Neither the dummy nor the head of a hash queue is ever dirty. -/
def DirtyEntries (s : Client α) : Prop :=
  ∀ x, (s.cache.buf x).dwrite = true → ∃ i, x = .entry i

/-- What a dirty buffer holds is the contents of its block. -/
theorem Refines.pending (h : s.Refines env u content) (hentries : s.DirtyEntries) {data : α}
    (hdata : s.cache.Pending u.dev n data) : data = content n := by
  obtain ⟨l, rings, h, _⟩ := h
  obtain ⟨x, hdirty, _, hblknr, hbuf⟩ := hdata
  obtain ⟨i, rfl⟩ := hentries x hdirty
  obtain ⟨q, hq⟩ : ∃ q, Node.entry i ∈ rings q := by
    by_contra hoff
    push Not at hoff
    simp [h.clean i hoff] at hdirty
  have hvalid := (h.lines q _ hq).valid (Or.inr hdirty)
  rw [hvalid, hblknr] at hbuf
  exact (Option.some.inj hbuf).symm

/-- Only a modification of a block can do more than saving. -/
theorem step_saves {r : Request α} {out : List (Option α)} (hr : ∀ n data, r ≠ .modify n data)
    (hstep : s.step env u r = .ok (s', out)) : s.cache.Saves s'.cache := by
  cases r with
  | getblk n =>
      obtain ⟨⟨x, c⟩, hget, hrest⟩ := bind_eq_ok.mp hstep
      cases hrest
      exact saves_getblkLoop _ _ _ hget
  | bread n =>
      obtain ⟨⟨x, c⟩, hread, hrest⟩ := bind_eq_ok.mp hstep
      cases hrest
      exact saves_bread _ _ hread
  | modify n data => exact (hr n data rfl).elim
  | brelse n =>
      cases hx : s.handle n with
      | none => simp [step, hx] at hstep
      | some x =>
          simp only [step, hx] at hstep
          obtain ⟨c, hrel, hrest⟩ := bind_eq_ok.mp hstep
          cases hrest
          exact saves_brelse _ _ _ hrel
  | bufferSync =>
      obtain ⟨c, hsync, hrest⟩ := bind_eq_ok.mp hstep
      cases hrest
      exact saves_bufferSync _ _ hsync

/-- A block of the disk keeps its contents or gets those of the device. -/
theorem Refines.disk_step (h : s.Refines env u content) (hentries : s.DirtyEntries)
    {r : Request α} {out : List (Option α)} (hstep : s.step env u r = .ok (s', out)) :
    (s'.cache.disk u.dev n = s.cache.disk u.dev n ∨
      s'.cache.disk u.dev n = Device.next content r n) ∧ s'.DirtyEntries := by
  by_cases hr : ∃ n data, r = .modify n data
  · obtain ⟨m, data, rfl⟩ := hr
    cases hx : s.handle m with
    | none => simp [Client.step, hx] at hstep
    | some x =>
        simp only [Client.step, hx, Except.ok.injEq, Prod.mk.injEq] at hstep
        rw [← hstep.1]
        refine ⟨Or.inl rfl, ?_⟩
        intro y hy
        by_cases hyx : y = x
        · obtain ⟨l, rings, hc, hhandle⟩ := h
          obtain ⟨q, hq⟩ := hhandle m x hx
          rw [hyx]
          exact hc.linked.hash.entries q x hq
        · apply hentries
          simpa [Cache.modify, hyx] using hy
  · have hsaves : s.cache.Saves s'.cache :=
      step_saves (fun n data heq => hr ⟨n, data, heq⟩) hstep
    have hnext : Device.next content r = content := by
      cases r with
      | modify m data => exact (hr ⟨m, data, rfl⟩).elim
      | getblk m => rfl
      | bread m => rfl
      | brelse m => rfl
      | bufferSync => rfl
    constructor
    · rw [hnext]
      rcases hsaves.disk u.dev n with hsame | hsaved
      · exact Or.inl hsame
      · exact Or.inr (h.pending hentries hsaved)
    · intro y hy
      exact hentries y (hsaves.dirty y hy)

/-! ## `buffer_sync` -/

/-- The process owns every lock, so the buffer is written if it is dirty. -/
theorem clean_of_syncSlot {c c' : Cache α} {l : List Node} {rings : ℕ → List Node}
    (h : Coherent env u content c l rings) (hm : Mounted env u.dev) (hsafe : SyncSafe c)
    {i : Fin nrEntries} (hrun : c.syncSlot env u.current i = .ok c') :
    (c'.buf (.entry i)).dwrite = false := by
  by_cases hdirty : (c.buf (.entry i)).dwrite = true
  · obtain ⟨q, hq⟩ : ∃ q, Node.entry i ∈ rings q := by
      by_contra hoff
      push Not at hoff
      simp [h.clean i hoff] at hdirty
    have husable : mutexLocked (c.buf (.entry i)).bMutex u.current = false :=
      mutexLocked_eq_false.mpr fun hlock => ((h.lines q _ hq).mutex hlock).1
    obtain ⟨c₁, l₁, hwrite, _, _, hclean, _⟩ :=
      h.bwrite hm hq hdirty fun hlock => hsafe ⟨i, hdirty, hlock⟩
    rw [syncSlot, if_pos ⟨hdirty, husable⟩, hwrite] at hrun
    rw [← Except.ok.inj hrun]
    exact hclean
  · rw [syncSlot, if_neg fun hand => hdirty hand.1] at hrun
    rw [← Except.ok.inj hrun]
    simpa using hdirty

theorem clean_of_syncLoop {rings : ℕ → List Node} (hm : Mounted env u.dev)
    (slots : List (Fin nrEntries)) : ∀ {c c' : Cache α} {l : List Node},
      Coherent env u content c l rings → SyncSafe c →
      slots.foldlM (syncSlot env u.current) c = .ok c' →
      (∀ x, (c'.buf x).dwrite = true → (c.buf x).dwrite = true) ∧
        ∀ i ∈ slots, (c'.buf (.entry i)).dwrite = false := by
  induction slots with
  | nil =>
      intro c c' l _ _ hrun
      cases hrun
      simp
  | cons i slots ih =>
      intro c c' l h hsafe hrun
      obtain ⟨c₁, l₁, hslot, h₁, hsafe₁⟩ := h.syncSlot hm hsafe i
      rw [List.foldlM_cons, hslot] at hrun
      have hrest := ih h₁ hsafe₁ hrun
      have hsaves : c.Saves c₁ := saves_syncSlot c i c₁ hslot
      have hclean := clean_of_syncSlot h hm hsafe hslot
      constructor
      · intro x hx
        exact hsaves.dirty x (hrest.1 x hx)
      · intro j hj
        rcases List.mem_cons.mp hj with rfl | hj
        · by_contra hdirty
          have := hrest.1 (.entry j) (by simpa using hdirty)
          simp [hclean] at this
        · exact hrest.2 j hj

theorem Refines.disk_of_bufferSync (h : s.Refines env u content) (hm : Mounted env u.dev)
    (hsafe : SafeStep env u s .bufferSync) {out : List (Option α)}
    (hstep : s.step env u .bufferSync = .ok (s', out)) : s'.cache.disk u.dev n = content n := by
  obtain ⟨l, rings, hc, _⟩ := h
  obtain ⟨c', l', hsync, h'⟩ := Coherent.syncLoop hm (List.finRange nrEntries) hc hsafe
  have hclean := (clean_of_syncLoop hm _ hc hsafe hsync).2
  have hs : s' = { s with cache := c' } := by
    simp only [Client.step, Cache.bufferSync, hsync, ok_bind, Except.ok.injEq,
      Prod.mk.injEq] at hstep
    exact hstep.1.symm
  rw [hs]
  apply h'.disk
  intro q x hx _
  obtain ⟨i, rfl⟩ := h'.linked.hash.entries q x hx
  exact hclean i (List.mem_finRange i)

/-! ## Runs -/

/-- What the disk holds after the first `i` requests. -/
def diskAfter (env : Env α) (u : User) (s : Client α) (rs : List (Request α)) (i : ℕ) : ℕ → α :=
  match s.run env u (rs.take i) with
  | .ok (s', _) => s'.cache.disk u.dev
  | .error _ => s.cache.disk u.dev

theorem run_append (rs rs' : List (Request α)) : ∀ s : Client α,
    s.run env u (rs ++ rs') = (do
      let (s, out) ← s.run env u rs
      let (s, outs) ← s.run env u rs'
      .ok (s, out ++ outs)) := by
  induction rs with
  | nil =>
      intro s
      cases hrun : s.run env u rs' with
      | error e => simp [run, hrun]
      | ok r => simp [run, hrun]
  | cons r rs ih =>
      intro s
      cases hstep : s.step env u r with
      | error e => simp [run, hstep]
      | ok r₁ =>
          simp only [List.cons_append, run, hstep, ok_bind, ih]
          cases hrun : r₁.1.run env u rs with
          | error e => simp
          | ok r₂ =>
              cases hrest : r₂.1.run env u rs' with
              | error e => simp [hrest]
              | ok r₃ => simp [hrest]

/-- The states of a safe run, and the call which comes next. -/
theorem Refines.prefix_run (hm : Mounted env u.dev) (i : ℕ) :
    ∀ {rs : List (Request α)} {s : Client α} {content : ℕ → α}, s.Refines env u content →
      s.DirtyEntries → SafeRun env u s rs →
      ∃ s' outs, s.run env u (rs.take i) = .ok (s', outs) ∧
        s'.Refines env u (Device.version content (rs.take i)) ∧ s'.DirtyEntries ∧
        ∀ r, rs[i]? = some r → SafeStep env u s' r := by
  induction i with
  | zero =>
      intro rs s content h hentries hsafe
      refine ⟨s, [], by simp [Client.run], h, hentries, ?_⟩
      intro r hr
      cases rs with
      | nil => simp at hr
      | cons r' rs =>
          simp only [List.getElem?_cons_zero, Option.some.injEq] at hr
          exact hr ▸ hsafe.1
  | succ i ih =>
      intro rs s content h hentries hsafe
      cases rs with
      | nil => exact ⟨s, [], by simp [Client.run], h, hentries, by simp⟩
      | cons r rs =>
          obtain ⟨s₁, hstep, h₁⟩ := h.step hm hsafe.1
          have hentries₁ := (h.disk_step (n := 0) hentries hstep).2
          rw [SafeRun, hstep] at hsafe
          obtain ⟨s', outs, hrun, h', hentries', hnext⟩ := ih h₁ hentries₁ hsafe.2
          refine ⟨s', Device.shows content r ++ outs, ?_, h', hentries', ?_⟩
          · simp [Client.run, hstep, hrun]
          · simpa using hnext

/-- The next request of a safe run, and what it does to a block of the disk. -/
theorem Refines.diskAfter_succ (h : s.Refines env u content) (hm : Mounted env u.dev)
    (hentries : s.DirtyEntries) {rs : List (Request α)} (hsafe : SafeRun env u s rs) {i : ℕ}
    {r : Request α} (hr : rs[i]? = some r) :
    (diskAfter env u s rs (i + 1) n = diskAfter env u s rs i n ∨
      diskAfter env u s rs (i + 1) n = Device.version content (rs.take (i + 1)) n) ∧
      (r = .bufferSync →
        diskAfter env u s rs (i + 1) n = Device.version content (rs.take (i + 1)) n) := by
  obtain ⟨s₁, outs, hrun, h₁, hentries₁, hnext⟩ := h.prefix_run hm i hentries hsafe
  obtain ⟨s₂, hstep, _⟩ := h₁.step hm (hnext r hr)
  have hrun₂ : s.run env u (rs.take (i + 1)) =
      .ok (s₂, outs ++ Device.shows (Device.version content (rs.take i)) r) := by
    simp [List.take_add_one, hr, run_append, hrun, Client.run, hstep]
  have hdisk := (h₁.disk_step (n := n) hentries₁ hstep).1
  simp only [diskAfter, hrun, hrun₂, Device.version_take_succ content hr]
  constructor
  · exact hdisk
  · rintro rfl
    exact h₁.disk_of_bufferSync hm (hnext _ hr) hstep

/-- If the machine stops after `i` requests of a safe run then a block of the disk has the contents
which it had for the process after some `k i` of them.  These versions never go back, and a
`buffer_sync` brings the block up to date. -/
theorem durable_of_safeRun (env : Env α) (u : User) (heap : Fin nrEntries → Buffer α)
    (disk : ℕ → ℕ → α) (rs : List (Request α)) (n : ℕ) (hm : Mounted env u.dev)
    (hsafe : SafeRun env u (init heap disk) rs) :
    ∃ k : ℕ → ℕ, Monotone k ∧ (∀ i, k i ≤ i) ∧
      (∀ i, rs[i]? = some .bufferSync → k (i + 1) = i + 1) ∧
      ∀ i, ∃ s out, (init heap disk).run env u (rs.take i) = .ok (s, out) ∧
        s.cache.disk u.dev n = Device.version (disk u.dev) (rs.take (k i)) n := by
  have hinit := init_refines env u heap disk
  have hentries : (init heap disk).DirtyEntries := by
    intro x hx
    cases x with
    | entry i => exact ⟨i, rfl⟩
    | _ => simp [init, bufferInit, zeroBuffer] at hx
  have hstep : ∀ i,
      diskAfter env u (init heap disk) rs (i + 1) n = diskAfter env u (init heap disk) rs i n ∨
        diskAfter env u (init heap disk) rs (i + 1) n =
          Device.version (disk u.dev) (rs.take (i + 1)) n := by
    intro i
    cases hr : rs[i]? with
    | some r => exact (hinit.diskAfter_succ hm hentries hsafe hr).1
    | none =>
        left
        simp [diskAfter, List.take_add_one, hr]
  obtain ⟨k, hmono, hle, hversion, hcaught⟩ :=
    exists_lag (d := fun i => diskAfter env u (init heap disk) rs i n)
      (v := fun i => Device.version (disk u.dev) (rs.take i) n) rfl hstep
  refine ⟨k, hmono, hle, ?_, ?_⟩
  · intro i hr
    exact hcaught (i + 1) ((hinit.diskAfter_succ hm hentries hsafe hr).2 rfl)
  · intro i
    obtain ⟨s, out, hrun, _⟩ := hinit.prefix_run hm i hentries hsafe
    refine ⟨s, out, hrun, ?_⟩
    have hi := hversion i
    simp only [diskAfter, hrun] at hi
    exact hi

/-- Block 5 is changed, flushed and changed again. -/
def flushTwice : List (Request ℕ) :=
  [.bread 5, .modify 5 7, .brelse 5, .bufferSync, .bread 5, .modify 5 8]

theorem durable_of_safeRun_flush :
    ∃ k : ℕ → ℕ, Monotone k ∧ (∀ i, k i ≤ i) ∧
      (∀ i, flushTwice[i]? = some .bufferSync → k (i + 1) = i + 1) ∧
      ∀ i, ∃ s out, (init (fun _ => zeroBuffer) fun _ n => n).run
        ⟨fun _ => 1024, fun _ => true, fun _ => 0⟩ ⟨1, 0x300⟩
        (flushTwice.take i) = .ok (s, out) ∧
          s.cache.disk 0x300 5 = Device.version (fun n => n) (flushTwice.take (k i)) 5 :=
  durable_of_safeRun ⟨fun _ => 1024, fun _ => true, fun _ => 0⟩ ⟨1, 0x300⟩
    (fun _ => zeroBuffer) (fun _ n => n) flushTwice 5
    ⟨by decide, by decide, fun _ => rfl⟩ (by decide +kernel)

end Client

end Yak.BufferCache
