import Yak.BufferLists

/-!
# The representation invariant of the buffer cache

Clients of the cache hold the buffers which `getblk` and `bread` returned to
them, until `brelse` or `bwrite`.  `buffer_init` leaves the `b_prev_free` of the
dummy behind the array, so the invariant fails from the first state on.  Up to
that pointer it is kept by every run in which no step reaches one of the other
defects of the cache: taking the dummy itself when the free list is empty,
dropping a dirty buffer from the free list, giving a new key to the head of a
hash queue, losing a buffer after a failed read, and releasing a held buffer in
`buffer_sync`.
-/

namespace Yak.BufferCache

open Yak.Cache LinkedRing

variable {α : Type}

/-- The cache, and the buffers which its clients hold. -/
structure Session (α : Type) where
  cache : Cache α
  held : Finset Node

/-- The calls of the clients, with the process which makes them.  `modify` is a
client which changes the data of a buffer and sets `B_DWRITE`. -/
inductive Op (α : Type) where
  | getblk (current dev blknr : ℕ)
  | bread (current dev blknr : ℕ)
  | modify (x : Node) (data : α)
  | brelse (x : Node)
  | bwrite (x : Node)
  | bufferSync (current : ℕ)

namespace Session

def step (env : Env α) (s : Session α) : Op α → Except Halt (Session α)
  | .getblk current dev blknr => do
      let (bp, c) ← s.cache.getblk env current dev blknr
      .ok ⟨c, insert bp s.held⟩
  | .bread current dev blknr => do
      let (r, c) ← s.cache.bread env current dev blknr
      .ok ⟨c, match r with
        | some bp => insert bp s.held
        | none => s.held⟩
  | .modify x data =>
      .ok { s with
        cache := s.cache.modify x fun b => { b with bData := some data, dwrite := true } }
  | .brelse x => do
      let c ← s.cache.brelse x
      .ok ⟨c, s.held.erase x⟩
  | .bwrite x => do
      let c ← s.cache.bwrite env x
      .ok ⟨c, s.held.erase x⟩
  | .bufferSync current => do
      let c ← s.cache.bufferSync env current
      .ok { s with cache := c }

def run (env : Env α) (s : Session α) (ops : List (Op α)) : Except Halt (Session α) :=
  ops.foldlM (step env) s

def init (heap : Fin nrEntries → Buffer α) (disk : ℕ → ℕ → α) : Session α :=
  ⟨Cache.bufferInit heap disk, ∅⟩

/-! ## The invariant -/

/-- Every buffer with a device is on the ring of its key and on no other, and
no two of them have the same key. -/
structure Hashed (s : Session α) : Prop where
  rings : ∃ rings, Family s.cache.ptrs.hash s.cache.ptrs.queues rings ∧
    ∀ i, (s.cache.buf (.entry i)).bDev ≠ nodev → ∀ q, Node.entry i ∈ rings q ↔
      q = bufHash (s.cache.buf (.entry i)).bDev (s.cache.buf (.entry i)).bBlknr
  distinct : ∀ i j, (s.cache.buf (.entry i)).bDev ≠ nodev →
    (s.cache.buf (.entry i)).bDev = (s.cache.buf (.entry j)).bDev →
    (s.cache.buf (.entry i)).bBlknr = (s.cache.buf (.entry j)).bBlknr → i = j

/-- The list enumerates the buffers which nobody holds. -/
def NotHeld (s : Session α) (l : List Node) : Prop :=
  ∀ x, x ∈ l ↔ (∃ i, x = Node.entry i) ∧ x ∉ s.held

structure RepInvariant (s : Session α) : Prop where
  free : ∃ l, s.cache.ptrs.free.IsRing (.freeList :: l) ∧ s.NotHeld l
  hashed : s.Hashed

/-- The invariant without the `b_prev_free` of the dummy. -/
structure RepInvariantBut (s : Session α) : Prop where
  free : ∃ l, FreeRing s.cache.ptrs.free l ∧ s.NotHeld l
  hashed : s.Hashed

/-! ## When a step reaches no other defect -/

/-- The block is in the cache, or the first buffer of the free list is a clean
one which can get a new key. -/
def Fetchable (c : Cache α) (dev blknr : ℕ) : Prop :=
  c.inHashQueue dev blknr = .ok none →
    ∃ i, c.ptrs.free.next .freeList = some (.entry i) ∧ (c.buf (.entry i)).dwrite = false ∧
      c.Recyclable dev blknr (.entry i)

/-- The read of the block is not needed or does not fail. -/
def Readable (env : Env α) (c : Cache α) (dev blknr : ℕ) : Prop :=
  match c.inHashQueue dev blknr with
  | .ok (some x) =>
      (c.buf x).done = true ∨ (devMajor dev = hdDev ∧ env.driveRw c.clock = true)
  | _ => devMajor dev = hdDev ∧ env.driveRw (c.clock + 1) = true

def SafeStep (env : Env α) (s : Session α) : Op α → Prop
  | .getblk _ dev blknr => Fetchable s.cache dev blknr
  | .bread _ dev blknr => Fetchable s.cache dev blknr ∧ Readable env s.cache dev blknr
  | .modify x _ => x ∈ s.held
  | .brelse x | .bwrite x => x ∈ s.held ∨ (s.cache.buf x).bMutex.lock = false
  | .bufferSync current => ∀ x ∈ s.held,
      (s.cache.buf x).dwrite = false ∨ mutexLocked (s.cache.buf x).bMutex current = true

/-- All steps are safe, up to the first which does not return. -/
def SafeRun (env : Env α) (s : Session α) : List (Op α) → Prop
  | [] => True
  | op :: ops =>
      SafeStep env s op ∧
        match s.step env op with
        | .ok s' => SafeRun env s' ops
        | .error _ => True

instance (c : Cache α) (dev blknr : ℕ) : Decidable (Fetchable c dev blknr) :=
  inferInstanceAs (Decidable (_ → _))

instance (env : Env α) (c : Cache α) (dev blknr : ℕ) : Decidable (Readable env c dev blknr) := by
  unfold Readable
  split <;> infer_instance

instance (env : Env α) (s : Session α) : (op : Op α) → Decidable (SafeStep env s op)
  | .getblk _ dev blknr => inferInstanceAs (Decidable (Fetchable s.cache dev blknr))
  | .bread _ dev blknr =>
      inferInstanceAs (Decidable (Fetchable s.cache dev blknr ∧ Readable env s.cache dev blknr))
  | .modify x _ => inferInstanceAs (Decidable (x ∈ s.held))
  | .brelse x | .bwrite x => inferInstanceAs (Decidable (x ∈ s.held ∨ _ = false))
  | .bufferSync current => inferInstanceAs (Decidable (∀ x ∈ s.held,
      (s.cache.buf x).dwrite = false ∨ mutexLocked (s.cache.buf x).bMutex current = true))

def decidableSafeRun (env : Env α) : (ops : List (Op α)) → (s : Session α) →
    Decidable (SafeRun env s ops)
  | [], _ => .isTrue trivial
  | op :: ops, s =>
      match h : s.step env op with
      | .ok s' =>
          have := decidableSafeRun env ops s'
          decidable_of_iff (SafeStep env s op ∧ SafeRun env s' ops) (by rw [SafeRun, h])
      | .error _ => decidable_of_iff (SafeStep env s op) (by rw [SafeRun, h]; simp)

instance (env : Env α) (s : Session α) (ops : List (Op α)) : Decidable (SafeRun env s ops) :=
  decidableSafeRun env ops s

end Session

/-! ## The invariant with the mutexes -/

/-- The lists, the set of held buffers and the mutexes fit together. -/
structure Tracked (c : Cache α) (H : Finset Node) (l : List Node) (rings : ℕ → List Node) :
    Prop where
  linked : c.Linked l rings
  free : ∀ x, x ∈ l ↔ (∃ i, x = Node.entry i) ∧ x ∉ H
  held : ∀ x ∈ H, (∃ q, x ∈ rings q) ∧ (c.buf x).bMutex.lock = true
  locked : ∀ q, ∀ x ∈ rings q, (c.buf x).bMutex.lock = true → x ∈ H
  dirty : ∀ i, (c.buf (.entry i)).dwrite = true → ∃ q, Node.entry i ∈ rings q

variable {c c' : Cache α} {H : Finset Node} {l : List Node} {rings : ℕ → List Node}
variable {x : Node} {env : Env α} {current dev blknr : ℕ}

theorem Tracked.requested (h : Tracked c H l rings) (hr : Cache.Requested c c') :
    Tracked c' H l rings where
  linked := hr.linked h.linked
  free := h.free
  held y hy := by
    rw [hr.mutex]
    exact h.held y hy
  locked q y hy := by
    rw [hr.mutex]
    exact h.locked q y hy
  dirty i := by
    rw [hr.dwrite]
    exact h.dirty i

theorem Tracked.entry_of_held (h : Tracked c H l rings) (hx : x ∈ H) :
    ∃ i, x = Node.entry i := by
  obtain ⟨⟨q, hq⟩, _⟩ := h.held x hx
  exact h.linked.hash.entries q x hq

theorem Tracked.brelse (h : Tracked c H l rings)
    (hx : x ∈ H ∨ (c.buf x).bMutex.lock = false) (hrun : c.brelse x = .ok c') :
    ∃ l', Tracked c' (H.erase x) l' rings := by
  unfold Cache.brelse at hrun
  by_cases hlock : (c.buf x).bMutex.lock = false
  · rw [if_pos hlock] at hrun
    obtain rfl := Except.ok.inj hrun
    have hnot : x ∉ H := by
      intro hmem
      rw [(h.held x hmem).2] at hlock
      cases hlock
    rw [Finset.erase_eq_of_notMem hnot]
    exact ⟨l, h⟩
  · rw [if_neg hlock] at hrun
    have hmem : x ∈ H := hx.resolve_right hlock
    have hxl : x ∉ l := fun hxl => ((h.free x).mp hxl).2 hmem
    obtain ⟨c₁, hput, hunlock⟩ := bind_eq_ok.mp hrun
    obtain rfl := Except.ok.inj hunlock
    rcases h.linked.putIntoFreeList hxl (h.entry_of_held hmem) with
      ⟨herror, _⟩ | ⟨c₂, l', hput', hlinked, hsame, hmem', _⟩
    · rw [herror] at hput
      cases hput
    · rw [hput] at hput'
      obtain rfl := Except.ok.inj hput'
      have hother : ∀ {y}, y ≠ x →
          ((c₁.modify x fun b => { b with bMutex := mutexUnlock }).buf y) = c.buf y := by
        intro y hy
        rw [Cache.modify_buf_of_ne c₁ _ hy, hsame.buf]
      refine ⟨l', hlinked.modify rfl rfl, ?_, ?_, ?_, ?_⟩
      · intro y
        rw [hmem' y, h.free y, Finset.mem_erase]
        by_cases hyx : y = x
        · rw [hyx]
          simp [h.entry_of_held hmem]
        · simp [hyx]
      · intro y hy
        rw [Finset.mem_erase] at hy
        rw [hother hy.1]
        exact h.held y hy.2
      · intro q y hy hylock
        by_cases hyx : y = x
        · rw [hyx, Cache.modify_buf_self] at hylock
          cases hylock
        · rw [hother hyx] at hylock
          exact Finset.mem_erase.mpr ⟨hyx, h.locked q y hy hylock⟩
      · intro i hi
        apply h.dirty i
        by_cases hix : Node.entry i = x
        · rw [hix, Cache.modify_buf_self, hsame.buf] at hi
          rw [hix]
          exact hi
        · rw [hother hix] at hi
          exact hi

theorem Tracked.bwrite (h : Tracked c H l rings)
    (hx : x ∈ H ∨ (c.buf x).bMutex.lock = false) (hrun : c.bwrite env x = .ok c') :
    ∃ l', Tracked c' (H.erase x) l' rings := by
  obtain ⟨r, hio, hrel⟩ := bind_eq_ok.mp hrun
  have hr := Cache.blkDevio_requested hio
  have hx' : x ∈ H ∨ (r.1.buf x).bMutex.lock = false := by
    rw [hr.mutex]
    exact hx
  exact (h.requested hr).brelse hx' hrel

/-! ## Fetching a buffer -/

theorem Tracked.lockFound (h : Tracked c H l rings) {q : ℕ} (hx : x ∈ rings q)
    {r : Node × Cache α} (hrun : c.lockFound current x = .ok r) :
    r.1 = x ∧ r.2.clock = c.clock ∧ (r.2.buf x).done = (c.buf x).done ∧
      (∀ y, (r.2.buf y).bDev = (c.buf y).bDev) ∧
      Tracked r.2 (insert x H) (l.erase x) rings := by
  obtain ⟨i, hi⟩ := h.linked.hash.entries q x hx
  have hne : x ≠ .freeList := by
    simp [hi]
  by_cases husable : Usable (c.buf x).bMutex current
  · obtain ⟨c₁, hrun', hlinked, hsame, _⟩ := h.linked.lockFound hne husable
    rw [hrun'] at hrun
    obtain rfl := Except.ok.inj hrun
    have hself : c₁.buf x = { c.buf x with bMutex := taken current } := by
      rw [hsame.buf, Cache.modify_buf_self]
    have hother : ∀ {y}, y ≠ x → c₁.buf y = c.buf y := by
      intro y hy
      rw [hsame.buf, Cache.modify_buf_of_ne c _ hy]
    have hall : ∀ y, (c₁.buf y).bDev = (c.buf y).bDev ∧
        (c₁.buf y).dwrite = (c.buf y).dwrite := by
      intro y
      by_cases hy : y = x
      · rw [hy, hself]
        exact ⟨rfl, rfl⟩
      · rw [hother hy]
        exact ⟨rfl, rfl⟩
    refine ⟨rfl, hsame.clock, ?_, fun y => (hall y).1, hlinked, ?_, ?_, ?_, ?_⟩
    · rw [hself]
    · intro y
      rw [h.linked.free.nodup.mem_erase_iff, h.free y, Finset.mem_insert]
      tauto
    · intro y hy
      by_cases hyx : y = x
      · rw [hyx, hself]
        exact ⟨⟨q, hx⟩, rfl⟩
      · rw [hother hyx]
        exact h.held y ((Finset.mem_insert.mp hy).resolve_left hyx)
    · intro q' y hy hlock
      by_cases hyx : y = x
      · exact Finset.mem_insert.mpr (Or.inl hyx)
      · rw [hother hyx] at hlock
        exact Finset.mem_insert_of_mem (h.locked q' y hy hlock)
    · intro j hj
      rw [(hall _).2] at hj
      exact h.dirty j hj
  · rw [Cache.lockFound_of_not_usable husable] at hrun
    cases hrun

/-- The first buffer of the free list gets the key. -/
theorem Tracked.takeFirst (h : Tracked c H l rings) {i : Fin nrEntries} {fuel : ℕ}
    (hmiss : c.inHashQueue dev blknr = .ok none)
    (hnext : c.ptrs.free.next .freeList = some (.entry i))
    (hclean : (c.buf (.entry i)).dwrite = false)
    (hre : c.Recyclable dev blknr (.entry i)) {r : Node × Cache α}
    (hrun : Cache.getblkLoop env current dev blknr (fuel + 1) c = .ok r) :
    r.1 = .entry i ∧ r.2.clock = c.clock + 1 ∧ (r.2.buf (.entry i)).bDev = dev ∧
      ∃ l' rings', Tracked r.2 (insert (.entry i) H) l' rings' := by
  have hnone : ∀ q, ∀ y ∈ rings q, ¬ c.Carries y dev blknr := by
    rcases h.linked.inHashQueue dev blknr with ⟨_, hnone⟩ | ⟨y, _, hfound, _⟩
    · exact hnone
    · rw [hmiss] at hfound
      cases hfound
  have hmem : Node.entry i ∈ l := by
    rw [h.linked.free.next_freeList, Option.some.injEq] at hnext
    cases l with
    | nil => cases hnext
    | cons a l =>
        rw [List.headD_cons] at hnext
        rw [hnext]
        exact List.mem_cons_self
  obtain ⟨c₁, hremove, hlinked₁, hsame₁, _⟩ :=
    h.linked.removeFromFreeList (x := .entry i) (by simp)
  rw [Cache.getblkLoop_of_miss fuel hmiss hnext hremove, hsame₁.buf, hclean] at hrun
  simp only [Bool.false_eq_true, if_false] at hrun
  have hre₁ : c₁.Recyclable dev blknr (.entry i) := by
    unfold Cache.Recyclable
    rw [hsame₁.buf, hsame₁.hash, hsame₁.queues]
    exact hre
  have hnone₁ : ∀ q, ∀ y ∈ rings q, ¬ c₁.Carries y dev blknr := by
    unfold Cache.Carries
    rw [hsame₁.buf]
    exact hnone
  by_cases husable : Usable (c₁.buf (.entry i)).bMutex current
  · obtain ⟨c₂, rings', hrun', hlinked₂, hsame₂, _, hrings'⟩ :=
      hlinked₁.recycled env ⟨i, rfl⟩ husable hre₁ hnone₁
    rw [hrun'] at hrun
    obtain rfl := Except.ok.inj hrun
    have hother : ∀ {y}, y ≠ .entry i → c₂.buf y = c.buf y := by
      intro y hy
      rw [hsame₂.buf, Cache.rekey_buf_of_ne c₁ env _ dev blknr hy, hsame₁.buf]
    have hmoved : ∀ {q y}, y ∈ rings q → y ≠ .entry i → y ∈ rings' q := by
      intro q y hy hyi
      exact (hrings' q y).mpr (Or.inl ⟨hyi, hy⟩)
    have hself : Node.entry i ∈ rings' (bufHash dev blknr) :=
      (hrings' _ _).mpr (Or.inr ⟨rfl, rfl⟩)
    refine ⟨rfl, ?_, ?_, _, rings', hlinked₂, ?_, ?_, ?_, ?_⟩
    · rw [hsame₂.clock]
      simp [Cache.rekey, Cache.tick, hsame₁.clock]
    · rw [hsame₂.buf]
      exact (c₁.rekey_carries env _ dev blknr _).1
    · intro y
      rw [h.linked.free.nodup.mem_erase_iff, h.free y, Finset.mem_insert]
      tauto
    · intro y hy
      by_cases hyi : y = .entry i
      · rw [hyi, hsame₂.buf]
        refine ⟨⟨_, hself⟩, ?_⟩
        simp [Cache.rekey, Cache.tick, taken]
      · rw [hother hyi]
        obtain ⟨⟨q, hq⟩, hlock⟩ := h.held y ((Finset.mem_insert.mp hy).resolve_left hyi)
        exact ⟨⟨q, hmoved hq hyi⟩, hlock⟩
    · intro q y hy hlock
      rcases (hrings' q y).mp hy with ⟨hyi, hyq⟩ | ⟨hyi, _⟩
      · rw [hother hyi] at hlock
        exact Finset.mem_insert_of_mem (h.locked q y hyq hlock)
      · exact Finset.mem_insert.mpr (Or.inl hyi)
    · intro j hj
      by_cases hji : Node.entry j = .entry i
      · rw [hji]
        exact ⟨_, hself⟩
      · rw [hother hji] at hj
        obtain ⟨q, hq⟩ := h.dirty j hj
        exact ⟨q, hmoved hq hji⟩
  · rw [Cache.recycle_of_not_usable husable] at hrun
    cases hrun

theorem Tracked.getblk (h : Tracked c H l rings) (hfetch : Session.Fetchable c dev blknr)
    {r : Node × Cache α} (hrun : c.getblk env current dev blknr = .ok r) :
    (∃ l' rings', Tracked r.2 (insert r.1 H) l' rings') ∧ (r.2.buf r.1).bDev = dev ∧
      (c.inHashQueue dev blknr = .ok none ∧ r.2.clock = c.clock + 1 ∨
        c.inHashQueue dev blknr = .ok (some r.1) ∧ r.2.clock = c.clock ∧
          (r.2.buf r.1).done = (c.buf r.1).done) := by
  unfold Cache.getblk at hrun
  rcases h.linked.inHashQueue dev blknr with ⟨hmiss, _⟩ | ⟨x, hx, hhit, hcarries⟩
  · obtain ⟨i, hnext, hclean, hre⟩ := hfetch hmiss
    obtain ⟨hr, hclock, hdev, htracked⟩ := h.takeFirst hmiss hnext hclean hre hrun
    rw [hr]
    exact ⟨htracked, hdev, Or.inl ⟨hmiss, hclock⟩⟩
  · rw [Cache.getblkLoop_of_hit _ hhit] at hrun
    obtain ⟨hr, hclock, hdone, hdev, htracked⟩ := h.lockFound hx hrun
    rw [hr]
    refine ⟨⟨_, _, htracked⟩, ?_, Or.inr ⟨hhit, hclock, hdone⟩⟩
    rw [hdev]
    exact hcarries.1

theorem Tracked.bread (h : Tracked c H l rings) (hfetch : Session.Fetchable c dev blknr)
    (hread : Session.Readable env c dev blknr) {r : Option Node × Cache α}
    (hrun : c.bread env current dev blknr = .ok r) :
    ∃ x, r.1 = some x ∧ ∃ l' rings', Tracked r.2 (insert x H) l' rings' := by
  obtain ⟨⟨x, c₁⟩, hget, hrest⟩ := bind_eq_ok.mp hrun
  obtain ⟨⟨l', rings', htracked⟩, hdev, hkind⟩ := h.getblk hfetch hget
  dsimp only at htracked hdev hkind hrest
  by_cases hdone : (c₁.buf x).done = true
  · rw [if_pos hdone] at hrest
    obtain rfl := Except.ok.inj hrest
    exact ⟨x, rfl, l', rings', htracked⟩
  · rw [if_neg hdone] at hrest
    obtain ⟨⟨c₂, ok⟩, hio, hret⟩ := bind_eq_ok.mp hrest
    obtain rfl := Except.ok.inj hret
    -- the request of this read is the one of which `Readable` speaks
    have hdrive : devMajor dev = hdDev ∧ env.driveRw c₁.clock = true := by
      unfold Session.Readable at hread
      rcases hkind with ⟨hmiss, hclock⟩ | ⟨hhit, hclock, hsame⟩
      · rw [hmiss] at hread
        rw [hclock]
        exact hread
      · rw [hhit] at hread
        rw [hclock]
        apply hread.resolve_left
        rw [← hsame]
        exact hdone
    have hok : ok = true :=
      Cache.blkDevio_succeeds hio (by rw [hdev]; exact hdrive.1) hdrive.2
    refine ⟨x, by simp [hok], l', rings', ?_⟩
    exact htracked.requested (Cache.blkDevio_requested hio)

/-! ## `buffer_sync` -/

/-- `current` holds no buffer whose write is delayed. -/
def NoneDelayed (c : Cache α) (H : Finset Node) (current : ℕ) : Prop :=
  ∀ x ∈ H, (c.buf x).dwrite = false ∨ mutexLocked (c.buf x).bMutex current = true

theorem Tracked.syncSlot (h : Tracked c H l rings) (hnone : NoneDelayed c H current)
    {i : Fin nrEntries} (hrun : c.syncSlot env current i = .ok c') :
    (∃ l', Tracked c' H l' rings) ∧ NoneDelayed c' H current := by
  unfold Cache.syncSlot at hrun
  by_cases hwrite : (c.buf (.entry i)).dwrite = true ∧
      mutexLocked (c.buf (.entry i)).bMutex current = false
  · rw [if_pos hwrite] at hrun
    have hfree : Node.entry i ∉ H := by
      intro hmem
      rcases hnone _ hmem with hclean | hlocked
      · rw [hclean] at hwrite
        cases hwrite.1
      · rw [hlocked] at hwrite
        cases hwrite.2
    have hlock : (c.buf (.entry i)).bMutex.lock = false := by
      obtain ⟨q, hq⟩ := h.dirty i hwrite.1
      by_contra hlock
      exact hfree (h.locked q _ hq (by simpa using hlock))
    have hother : ∀ {y}, y ≠ .entry i →
        (c.modify (.entry i) fun b => { b with dwrite := false }).buf y = c.buf y :=
      fun hy => Cache.modify_buf_of_ne c _ hy
    have hmutex : ∀ y, ((c.modify (.entry i) fun b => { b with dwrite := false }).buf y).bMutex =
        (c.buf y).bMutex := by
      intro y
      by_cases hy : y = .entry i
      · rw [hy, Cache.modify_buf_self]
      · rw [hother hy]
    have htracked : Tracked (c.modify (.entry i) fun b => { b with dwrite := false }) H l rings := by
      refine ⟨h.linked.modify rfl rfl, h.free, ?_, ?_, ?_⟩
      · intro y
        rw [hmutex]
        exact h.held y
      · intro q y
        rw [hmutex]
        exact h.locked q y
      · intro j hj
        by_cases hji : Node.entry j = .entry i
        · rw [hji, Cache.modify_buf_self] at hj
          cases hj
        · rw [hother hji] at hj
          exact h.dirty j hj
    obtain ⟨⟨c₁, ok⟩, hio, hrel⟩ := bind_eq_ok.mp hrun
    have hr := Cache.blkDevio_requested hio
    -- the buffer is not locked, so `brelse` leaves it alone
    have hunlocked : (c₁.buf (.entry i)).bMutex.lock = false := by
      rw [hr.mutex, hmutex]
      exact hlock
    dsimp only at hrel
    unfold Cache.brelse at hrel
    rw [if_pos hunlocked] at hrel
    obtain rfl := Except.ok.inj hrel
    refine ⟨⟨l, htracked.requested hr⟩, ?_⟩
    intro y hy
    have hyi : y ≠ .entry i := fun heq => hfree (heq ▸ hy)
    rw [hr.dwrite, hr.mutex, hother hyi]
    exact hnone y hy
  · rw [if_neg hwrite] at hrun
    obtain rfl := Except.ok.inj hrun
    exact ⟨⟨l, h⟩, hnone⟩

theorem Tracked.syncLoop (h : Tracked c H l rings) (hnone : NoneDelayed c H current)
    (slots : List (Fin nrEntries)) (hrun : slots.foldlM (Cache.syncSlot env current) c = .ok c') :
    ∃ l', Tracked c' H l' rings := by
  have hlast : (∃ l', Tracked c' H l' rings) ∧ NoneDelayed c' H current := by
    refine foldlM_invariant
      (fun c => (∃ l', Tracked c H l' rings) ∧ NoneDelayed c H current) ?_ ⟨⟨l, h⟩, hnone⟩ hrun
    intro c₁ i c₂ _ hinv hslot
    obtain ⟨⟨l₁, h₁⟩, hnone₁⟩ := hinv
    exact h₁.syncSlot hnone₁ hslot
  exact hlast.1

/-! ## Runs -/

namespace Session

/-- There are lists with which the session is tracked. -/
def Intact (s : Session α) : Prop := ∃ l rings, Tracked s.cache s.held l rings

theorem Intact.step {s s' : Session α} {op : Op α} (h : s.Intact) (hsafe : SafeStep env s op)
    (hrun : s.step env op = .ok s') : s'.Intact := by
  obtain ⟨l, rings, h⟩ := h
  cases op with
  | getblk current dev blknr =>
      obtain ⟨r, hget, hret⟩ := bind_eq_ok.mp hrun
      obtain rfl := Except.ok.inj hret
      exact (h.getblk hsafe hget).1
  | bread current dev blknr =>
      obtain ⟨⟨r, c⟩, hread, hret⟩ := bind_eq_ok.mp hrun
      obtain ⟨x, hx, htracked⟩ := h.bread hsafe.1 hsafe.2 hread
      dsimp only at hx hret
      rw [hx] at hret
      obtain rfl := Except.ok.inj hret
      exact htracked
  | modify x data =>
      obtain rfl := Except.ok.inj hrun
      have hmutex : ∀ y, ((s.cache.modify x fun b =>
          { b with bData := some data, dwrite := true }).buf y).bMutex =
            (s.cache.buf y).bMutex := by
        intro y
        by_cases hy : y = x
        · rw [hy, Cache.modify_buf_self]
        · rw [Cache.modify_buf_of_ne s.cache _ hy]
      have hlinked : (s.cache.modify x fun b =>
          { b with bData := some data, dwrite := true }).Linked l rings :=
        h.linked.modify rfl rfl
      refine ⟨l, rings, hlinked, h.free, ?_, ?_, ?_⟩
      · intro y
        rw [hmutex]
        exact h.held y
      · intro q y
        rw [hmutex]
        exact h.locked q y
      · intro i hi
        by_cases hix : Node.entry i = x
        · rw [hix]
          exact (h.held x hsafe).1
        · rw [Cache.modify_buf_of_ne s.cache _ hix] at hi
          exact h.dirty i hi
  | brelse x =>
      obtain ⟨c, hrel, hret⟩ := bind_eq_ok.mp hrun
      obtain rfl := Except.ok.inj hret
      obtain ⟨l', h'⟩ := h.brelse hsafe hrel
      exact ⟨l', rings, h'⟩
  | bwrite x =>
      obtain ⟨c, hwrite, hret⟩ := bind_eq_ok.mp hrun
      obtain rfl := Except.ok.inj hret
      obtain ⟨l', h'⟩ := h.bwrite hsafe hwrite
      exact ⟨l', rings, h'⟩
  | bufferSync current =>
      obtain ⟨c, hsync, hret⟩ := bind_eq_ok.mp hrun
      obtain rfl := Except.ok.inj hret
      obtain ⟨l', h'⟩ := h.syncLoop hsafe _ hsync
      exact ⟨l', rings, h'⟩

theorem Intact.run {s' : Session α} {ops : List (Op α)} :
    ∀ {s : Session α}, s.Intact → SafeRun env s ops → s.run env ops = .ok s' → s'.Intact := by
  induction ops with
  | nil =>
      intro s h _ hrun
      obtain rfl := Except.ok.inj hrun
      exact h
  | cons op ops ih =>
      intro s h hsafe hrun
      unfold Session.run at hrun
      rw [List.foldlM_cons] at hrun
      obtain ⟨s₁, hstep, hrest⟩ := bind_eq_ok.mp hrun
      rw [SafeRun, hstep] at hsafe
      exact ih (h.step hsafe.1 hstep) hsafe.2 hrest

theorem init_intact (heap : Fin nrEntries → Buffer α) (disk : ℕ → ℕ → α) :
    (init heap disk).Intact := by
  refine ⟨_, _, Cache.bufferInit_linked heap disk, ?_, ?_, ?_, ?_⟩
  · intro x
    rw [mem_allEntries]
    simp [init]
  · intro x hx
    exact (Finset.notMem_empty x hx).elim
  · intro q x hx
    exact (List.not_mem_nil hx).elim
  · intro i hi
    cases hi

theorem Intact.hashed {s : Session α} (h : s.Intact) : s.Hashed := by
  obtain ⟨l, rings, h⟩ := h
  exact ⟨⟨rings, h.linked.hash.family, fun _ hi => h.linked.mem_iff hi⟩,
    fun _ _ hi => h.linked.eq_of_key hi⟩

theorem Intact.repInvariantBut {s : Session α} (h : s.Intact) : s.RepInvariantBut := by
  obtain ⟨l, rings, htracked⟩ := h
  exact ⟨⟨l, htracked.linked.free, htracked.free⟩, Intact.hashed ⟨l, rings, htracked⟩⟩

/-- The `b_prev_free` of the dummy decides about the whole invariant. -/
theorem Intact.repInvariant_iff {s : Session α} (h : s.Intact) :
    s.RepInvariant ↔ s.cache.ptrs.free.prev .freeList ≠ some .past := by
  constructor
  · intro hinv heq
    obtain ⟨l, hring, hmem⟩ := hinv.free
    obtain ⟨_, p, _, hp, _, hpm⟩ := hring.links_of_mem List.mem_cons_self
    rw [heq, Option.some.injEq] at hp
    rw [← hp, List.mem_cons, hmem] at hpm
    simp at hpm
  · intro hne
    refine ⟨?_, h.hashed⟩
    obtain ⟨l, rings, h⟩ := h
    exact ⟨l, h.linked.free.isRing (h.linked.sound_iff.mpr hne), h.free⟩

/-- No run keeps the representation invariant, since `buffer_init` itself does
not establish it.  In a run which reaches none of the other defects everything
but the `b_prev_free` of the dummy is as it should be. -/
theorem repInvariant_fails_and_rest_of_safeRun (env : Env α) (heap : Fin nrEntries → Buffer α)
    (disk : ℕ → ℕ → α) (ops : List (Op α)) :
    (¬ ∀ done s, done <+: ops → (init heap disk).run env done = .ok s → s.RepInvariant) ∧
      (SafeRun env (init heap disk) ops → ∀ s, (init heap disk).run env ops = .ok s →
        s.RepInvariantBut ∧
          (s.RepInvariant ↔ s.cache.ptrs.free.prev .freeList ≠ some .past)) := by
  constructor
  · intro hall
    have hinit := hall [] (init heap disk) List.nil_prefix rfl
    rw [(init_intact heap disk).repInvariant_iff] at hinit
    exact hinit rfl
  · intro hsafe s hrun
    have hintact := (init_intact heap disk).run hsafe hrun
    exact ⟨hintact.repInvariantBut, hintact.repInvariant_iff⟩

/-- A block is fetched, changed and released, and read again. -/
theorem repInvariant_fails_and_rest_of_safeRun_reread :
    ∃ s, (init (fun _ => Cache.zeroBuffer) fun _ n => n).run
        ⟨fun _ => 1024, fun _ => true, fun _ => 0⟩
        [.bread 1 0x300 5, .modify (.entry ⟨0, by decide⟩) 7, .brelse (.entry ⟨0, by decide⟩),
          .bread 1 0x300 5, .bufferSync 2] = .ok s ∧
      s.RepInvariantBut ∧ ¬ s.RepInvariant := by
  have hpast : ((init (fun _ => Cache.zeroBuffer) fun _ n => n).run
      ⟨fun _ => 1024, fun _ => true, fun _ => 0⟩
      [.bread 1 0x300 5, .modify (.entry ⟨0, by decide⟩) 7, .brelse (.entry ⟨0, by decide⟩),
        .bread 1 0x300 5, .bufferSync 2]).map
      (fun s => s.cache.ptrs.free.prev .freeList) = .ok (some .past) := by
    decide +kernel
  have hsafe : SafeRun ⟨fun _ => 1024, fun _ => true, fun _ => 0⟩
      (init (fun _ => Cache.zeroBuffer) fun _ n => n)
      [.bread 1 0x300 5, .modify (.entry ⟨0, by decide⟩) 7, .brelse (.entry ⟨0, by decide⟩),
        .bread 1 0x300 5, .bufferSync 2] := by
    decide +kernel
  cases hrun : (init (fun _ => Cache.zeroBuffer) fun _ n => n).run
      ⟨fun _ => 1024, fun _ => true, fun _ => 0⟩
      [.bread 1 0x300 5, .modify (.entry ⟨0, by decide⟩) 7, .brelse (.entry ⟨0, by decide⟩),
        .bread 1 0x300 5, .bufferSync 2] with
  | error e => simp [hrun, Except.map] at hpast
  | ok s =>
      rw [hrun] at hpast
      simp only [Except.map, Except.ok.injEq] at hpast
      obtain ⟨hbut, hiff⟩ :=
        (repInvariant_fails_and_rest_of_safeRun _ _ _ _).2 hsafe s hrun
      exact ⟨s, rfl, hbut, fun hinv => hiff.mp hinv hpast⟩

/-- The state which `buffer_init` leaves violates the invariant. -/
theorem not_repInvariant_init :
    ¬ (init (fun _ => Cache.zeroBuffer) fun _ n => n : Session ℕ).RepInvariant := by
  rw [(init_intact _ _).repInvariant_iff]
  exact fun hne => hne rfl

end Session

end Yak.BufferCache
