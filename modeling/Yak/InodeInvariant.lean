import Yak.Inode

/-!
# The representation invariant of the inode cache

As in the buffer cache, the initialisation leaves the `i_prev_free` of the
dummy behind the array, so that the invariant fails from the first state on.
Up to that pointer every run keeps it which does not reach one of two other
defects.  `ext2_iget` unlinks an inode which is already referenced once more,
through links which were left over when it was taken off the free list; and it
takes the dummy or the head of a longer hash queue without moving the queue.
-/

namespace Yak.InodeCache

open Yak.Cache LinkedRing

/-- The calls of the rest of the file system.  `touch` is the holder of a
reference who changes the link count and sets `I_MODIFIED`. -/
inductive Op where
  | iget (current dev num : ℕ)
  | iput (current : ℕ) (ip : Node)
  | inodeSync (current : ℕ)
  | touch (ip : Node) (links : ℕ)

namespace ICache

def step (env : Env) (c : ICache) : Op → Except Halt ICache
  | .iget current dev num => do
      let (_, c) ← c.iget env current dev num
      .ok c
  | .iput current ip => c.iput env current ip
  | .inodeSync current => c.inodeSync env current
  | .touch ip links => .ok (c.modify ip fun i => { i with iLinksCount := links, modified := true })

def run (env : Env) (c : ICache) (ops : List Op) : Except Halt ICache := ops.foldlM (step env) c

/-! ## The invariant -/

structure InQueues (c : ICache) : Prop where
  rings : ∃ rings, Family c.ptrs.hash c.ptrs.queues rings ∧
    ∀ i, (c.ino (.entry i)).iDev ≠ 0 → ∀ q, Node.entry i ∈ rings q ↔
      q = bufHash (c.ino (.entry i)).iDev (c.ino (.entry i)).iNum
  distinct : ∀ i j, (c.ino (.entry i)).iDev ≠ 0 →
    (c.ino (.entry i)).iDev = (c.ino (.entry j)).iDev →
    (c.ino (.entry i)).iNum = (c.ino (.entry j)).iNum → i = j

/-- The list enumerates the inodes without references. -/
def Unreferenced (c : ICache) (l : List Node) : Prop :=
  ∀ x, x ∈ l ↔ (∃ i, x = Node.entry i) ∧ (c.ino x).iCount = 0

structure RepInvariant (c : ICache) : Prop where
  free : ∃ l, c.ptrs.free.IsRing (.freeList :: l) ∧ c.Unreferenced l
  queues : c.InQueues

/-- The invariant without the `i_prev_free` of the dummy. -/
structure RepInvariantBut (c : ICache) : Prop where
  free : ∃ l, FreeRing c.ptrs.free l ∧ c.Unreferenced l
  queues : c.InQueues

/-! ## When a step reaches no other defect -/

/-- Unlinking the inode writes nothing new into the links of an inode on the
free list. -/
def LeftoverHarmless (c : ICache) (x : Node) : Prop :=
  ∀ a b, c.ptrs.free.prev x = some a → c.ptrs.free.next x = some b →
    ((c.ino a).iCount ≠ 0 ∨ c.ptrs.free.next a = some b) ∧
      ((c.ino b).iCount ≠ 0 ∨ c.ptrs.free.prev b = some a)

/-- The inode can leave its hash queue: it is not the head, or it is alone. -/
def Removable (c : ICache) (x : Node) : Prop :=
  c.ptrs.queues (bufHash (c.ino x).iDev (c.ino x).iNum) ≠ some x ∨ c.ptrs.hash.next x = some x

/-- `ext2_iget` finds the inode in the cache, unreferenced or with harmless
leftover links, or it takes an inode from the free list which can be moved. -/
def Gettable (c : ICache) (dev num : ℕ) : Prop :=
  match c.inHashQueue dev num with
  | .ok (some x) => (c.ino x).iCount = 0 ∨ c.LeftoverHarmless x
  | .ok none => ∃ i, c.ptrs.free.next .freeList = some (.entry i) ∧ c.Removable (.entry i)
  | .error _ => True

def SafeStep (c : ICache) : Op → Prop
  | .iget _ dev num => c.Gettable dev num
  | .iput _ _ | .inodeSync _ => True
  | .touch ip _ => (c.ino ip).iCount ≠ 0

/-- All steps are safe, up to the first which does not return. -/
def SafeRun (env : Env) (c : ICache) : List Op → Prop
  | [] => True
  | op :: ops =>
      c.SafeStep op ∧
        match c.step env op with
        | .ok c' => SafeRun env c' ops
        | .error _ => True

/-! These conditions can be evaluated. -/

instance (c : ICache) (x : Node) : Decidable (c.LeftoverHarmless x) :=
  decidable_of_iff (∀ a ∈ c.ptrs.free.prev x, ∀ b ∈ c.ptrs.free.next x,
      ((c.ino a).iCount ≠ 0 ∨ c.ptrs.free.next a = some b) ∧
        ((c.ino b).iCount ≠ 0 ∨ c.ptrs.free.prev b = some a))
    ⟨fun h a b ha hb => h a ha b hb, fun h a ha b hb => h a b ha hb⟩

instance (c : ICache) (x : Node) : Decidable (c.Removable x) :=
  inferInstanceAs (Decidable (_ ∨ _))

instance (c : ICache) (dev num : ℕ) : Decidable (c.Gettable dev num) := by
  unfold Gettable
  split <;> infer_instance

instance (c : ICache) : (op : Op) → Decidable (c.SafeStep op)
  | .iget _ dev num => inferInstanceAs (Decidable (c.Gettable dev num))
  | .iput _ _ | .inodeSync _ => .isTrue trivial
  | .touch ip _ => inferInstanceAs (Decidable ((c.ino ip).iCount ≠ 0))

def decidableSafeRun (env : Env) : (ops : List Op) → (c : ICache) → Decidable (SafeRun env c ops)
  | [], _ => .isTrue trivial
  | op :: ops, c =>
      match h : c.step env op with
      | .ok c' =>
          have := decidableSafeRun env ops c'
          decidable_of_iff (c.SafeStep op ∧ SafeRun env c' ops) (by rw [SafeRun, h])
      | .error _ => decidable_of_iff (c.SafeStep op) (by rw [SafeRun, h]; simp)

instance (env : Env) (c : ICache) (ops : List Op) : Decidable (SafeRun env c ops) :=
  decidableSafeRun env ops c

/-! ## Lists and reference counts -/

structure Linked (c : ICache) (l : List Node) (rings : ℕ → List Node) : Prop extends
    c.ptrs.Hashed (fun x => (c.ino x).iDev) (fun x => (c.ino x).iNum) rings where
  free : FreeRing c.ptrs.free l
  count : c.Unreferenced l
  outside : ∀ x, (∀ i, x ≠ Node.entry i) → (c.ino x).iCount = 0
  idle : ∀ i, (c.ino (.entry i)).modified = true → (c.ino (.entry i)).iCount ≠ 0

variable {c c' : ICache} {l l' : List Node} {rings : ℕ → List Node} {x : Node}
variable {env : Env} {current dev num : ℕ}

theorem modify_ino_self (c : ICache) (x : Node) (f : Inode → Inode) :
    (c.modify x f).ino x = f (c.ino x) := by
  simp [modify]

theorem modify_ino_of_ne (c : ICache) {x y : Node} (f : Inode → Inode) (hy : y ≠ x) :
    (c.modify x f).ino y = c.ino y := by
  simp [modify, hy]

theorem Linked.update (h : c.Linked l rings) {i : Inode} (hx : ∃ j, x = Node.entry j)
    (hino : c'.ino = Function.update c.ino x i)
    (hkey : i.iDev = (c.ino x).iDev ∧ i.iNum = (c.ino x).iNum)
    (hidle : i.modified = true → i.iCount ≠ 0)
    (hhash : c'.ptrs.hash = c.ptrs.hash) (hqueues : c'.ptrs.queues = c.ptrs.queues)
    (hfree : FreeRing c'.ptrs.free l') (hcount : c'.Unreferenced l') : c'.Linked l' rings := by
  have hother : ∀ {y}, y ≠ x → c'.ino y = c.ino y := by
    intro y hy
    rw [hino, Function.update_of_ne hy]
  have hself : c'.ino x = i := by
    rw [hino, Function.update_self]
  refine ⟨h.toHashed.congr hhash hqueues ?_, hfree, hcount, ?_, ?_⟩
  · intro y
    by_cases hy : y = x
    · rw [hy, hself]
      exact hkey
    · rw [hother hy]
      exact ⟨rfl, rfl⟩
  · intro y hy
    obtain ⟨j, rfl⟩ := hx
    rw [hother (hy j)]
    exact h.outside y hy
  · intro j
    by_cases hj : Node.entry j = x
    · rw [hj, hself]
      exact hidle
    · rw [hother hj]
      exact h.idle j

/-- A change which also keeps the links, and the reference count apart from
zero or not. -/
theorem Linked.modify (h : c.Linked l rings) {f : Inode → Inode} (hx : ∃ j, x = Node.entry j)
    (hkey : (f (c.ino x)).iDev = (c.ino x).iDev ∧ (f (c.ino x)).iNum = (c.ino x).iNum)
    (hcount : (f (c.ino x)).iCount = 0 ↔ (c.ino x).iCount = 0)
    (hidle : (f (c.ino x)).modified = true → (f (c.ino x)).iCount ≠ 0) :
    (c.modify x f).Linked l rings := by
  refine h.update (i := f (c.ino x)) hx rfl hkey hidle rfl rfl h.free ?_
  intro y
  by_cases hy : y = x
  · rw [hy, modify_ino_self, hcount]
    exact h.count x
  · rw [modify_ino_of_ne c f hy]
    exact h.count y

theorem Linked.sound_iff (h : c.Linked l rings) :
    Sound c.ptrs.free l ↔ c.ptrs.free.prev .freeList ≠ some .past := by
  constructor
  · intro hs heq
    rw [hs, Option.some.injEq] at heq
    exact h.free.lastFree_ne_past heq
  · exact h.free.tail.resolve_right ∘ fun hne heq => hne heq.1

/-! ## `ext2_iget` -/

/-- Taking an inode off the free list, or unlinking it once more where that is
harmless. -/
theorem Linked.removeFromFreeList (h : c.Linked l rings)
    (hx : x ∈ l ∨ x ∉ l ∧ c.LeftoverHarmless x) (hrun : c.removeFromFreeList x = .ok c') :
    FreeRing c'.ptrs.free (l.erase x) ∧ c'.ptrs.hash = c.ptrs.hash ∧
      c'.ptrs.queues = c.ptrs.queues ∧ c'.ino = c.ino := by
  obtain ⟨P, hremove, hret⟩ := bind_eq_ok.mp hrun
  obtain rfl := Except.ok.inj hret
  rcases hx with hmem | ⟨hoff, hharmless⟩
  · obtain ⟨P', hremove', hring, _, honly, _⟩ := Pointers.removeFromFreeList_of_mem h.free hmem
      false "remove_from_free_list: inode free list has been corrupted"
    rw [hremove'] at hremove
    obtain rfl := Except.ok.inj hremove
    exact ⟨hring, honly.hash, honly.queues, rfl⟩
  · rw [List.erase_of_not_mem hoff]
    unfold Pointers.removeFromFreeList at hremove
    cases hprev : c.ptrs.free.prev x with
    | none =>
        cases hnext : c.ptrs.free.next x with
        | none =>
            simp only [hprev, hnext, Except.ok.injEq] at hremove
            rw [← hremove]
            exact ⟨h.free, rfl, rfl, rfl⟩
        | some b => simp [hprev, hnext] at hremove
    | some a =>
        cases hnext : c.ptrs.free.next x with
        | none => simp [hprev, hnext] at hremove
        | some b =>
            obtain ⟨ha, hb⟩ := hharmless a b hprev hnext
            simp only [hprev, hnext] at hremove
            split at hremove
            next => cases hremove
            next =>
              obtain rfl := Except.ok.inj hremove
              -- members of the free list have no references, so their links stay
              have hzero : ∀ y ∈ Node.freeList :: l, (c.ino y).iCount = 0 := by
                intro y hy
                rcases List.mem_cons.mp hy with rfl | hy
                · exact h.outside _ (by simp)
                · exact ((h.count y).mp hy).2
              refine ⟨h.free.congr ?_ ?_, rfl, rfl, rfl⟩
              · intro y hy
                by_cases hya : y = a
                · subst hya
                  have hsame := ha.resolve_left fun hne => hne (hzero y hy)
                  simp [Links.join, hsame]
                · simp [Links.join, hya]
              · intro y hy
                by_cases hyb : y = b
                · subst hyb
                  have hsame := hb.resolve_left fun hne => hne (hzero y hy)
                  simp [Links.join, hsame]
                · simp [Links.join, hyb]

theorem Linked.lockFound (h : c.Linked l rings) {q : ℕ} (hx : x ∈ rings q)
    (hharmless : (c.ino x).iCount = 0 ∨ c.LeftoverHarmless x) {r : Option Node × ICache}
    (hrun : c.lockFound current x = .ok r) : r.2.Linked (l.erase x) rings := by
  unfold ICache.lockFound at hrun
  split at hrun
  next => cases hrun
  next =>
    obtain ⟨m, _, hrest⟩ := bind_eq_ok.mp hrun
    obtain ⟨c₁, hremove, hret⟩ := bind_eq_ok.mp hrest
    obtain rfl := Except.ok.inj hret
    have hentry := h.hash.entries q x hx
    have hlocked : (c.modify x fun i => { i with iMutex := m }).Linked l rings := by
      apply h.modify hentry ⟨rfl, rfl⟩ Iff.rfl
      obtain ⟨i, rfl⟩ := hentry
      exact h.idle i
    have hcases : x ∈ l ∨ x ∉ l ∧ (c.modify x fun i => { i with iMutex := m }).LeftoverHarmless x := by
      by_cases hmem : x ∈ l
      · exact Or.inl hmem
      · right
        refine ⟨hmem, ?_⟩
        have hold := hharmless.resolve_left fun hzero => hmem ((h.count x).mpr ⟨hentry, hzero⟩)
        have hsame : ∀ y, ((c.modify x fun i => { i with iMutex := m }).ino y).iCount =
            (c.ino y).iCount := by
          intro y
          by_cases hy : y = x
          · rw [hy, modify_ino_self]
          · rw [modify_ino_of_ne c _ hy]
        intro a b hprev hnext
        rw [hsame, hsame]
        exact hold a b hprev hnext
    obtain ⟨hring, hhash, hqueues, hino⟩ := hlocked.removeFromFreeList hcases hremove
    have hino₂ : (c₁.modify x fun i => { i with iCount := i.iCount + 1 }).ino =
        Function.update c.ino x { c.ino x with iMutex := m, iCount := (c.ino x).iCount + 1 } := by
      unfold ICache.modify
      rw [hino]
      simp [ICache.modify]
    refine h.update hentry hino₂ ⟨rfl, rfl⟩ ?_ hhash hqueues hring ?_
    · intro _
      exact Nat.succ_ne_zero _
    · intro y
      rw [h.free.nodup.mem_erase_iff, h.count y, hino₂]
      by_cases hy : y = x
      · simp [hy]
      · simp [hy]

theorem Linked.removable_cases (h : c.Linked l rings) (hre : c.Removable x) :
    (∀ q, x ∉ rings q) ∨ (∃ q, x ∈ rings q ∧ c.ptrs.queues q ≠ some x) ∨
      rings (bufHash (c.ino x).iDev (c.ino x).iNum) = [x] := by
  by_cases hoff : ∀ q, x ∉ rings q
  · exact Or.inl hoff
  · right
    push Not at hoff
    obtain ⟨q, hx⟩ := hoff
    rw [h.keyed q x hx] at hx
    rcases hre with hhead | hself
    · exact Or.inl ⟨_, hx, hhead⟩
    · by_cases hhead : c.ptrs.queues (bufHash (c.ino x).iDev (c.ino x).iNum) = some x
      · right
        obtain ⟨l', hl'⟩ := h.hash.family.eq_cons hhead
        have hring := h.hash.family.isRing_of_mem hx
        rw [hl'] at hring ⊢
        rw [hring.next_eq_self_iff.mp hself]
      · exact Or.inl ⟨_, hx, hhead⟩

/-- The links of a ring are both set or both null. -/
theorem removeFromHashQueue_eq (h : c.ptrs.HashRings rings) (x : Node) :
    c.removeFromHashQueue x = (do
      let ptrs ← c.ptrs.removeFromHashQueue "remove_from_hash_queue: inode hash queue corrupted"
        (bufHash (c.ino x).iDev (c.ino x).iNum) x
      .ok { c with ptrs := ptrs }) := by
  unfold ICache.removeFromHashQueue
  by_cases hoff : ∀ q, x ∉ rings q
  · obtain ⟨hnext, hprev⟩ := h.off x hoff
    rw [hnext, hprev]
  · push Not at hoff
    obtain ⟨q, hx⟩ := hoff
    obtain ⟨n, p, hn, hp, _⟩ := (h.family.isRing_of_mem hx).links_of_mem hx
    rw [hn, hp]

theorem Linked.load (h : c.Linked l rings) {i : Fin nrEntries}
    (hmiss : ∀ q, ∀ y ∈ rings q, ¬ ((c.ino y).iDev = dev ∧ (c.ino y).iNum = num))
    (hmem : Node.entry i ∈ l) (hre : c.Removable (.entry i)) {r : Option Node × ICache}
    (hrun : c.load env current dev num (.entry i) = .ok r) :
    ∃ l' rings', r.2.Linked l' rings' := by
  obtain ⟨m, _, hrun₁⟩ := bind_eq_ok.mp hrun
  obtain ⟨c₁, hremove, hrun₂⟩ := bind_eq_ok.mp hrun₁
  obtain ⟨c₂, hunhash, hrun₃⟩ := bind_eq_ok.mp hrun₂
  obtain ⟨c₃, hput, hrun₄⟩ := bind_eq_ok.mp hrun₃
  obtain ⟨c₄, hread, hret⟩ := bind_eq_ok.mp hrun₄
  obtain rfl := Except.ok.inj hret
  have hlocked : (c.modify (.entry i) fun i => { i with iMutex := m }).Linked l rings :=
    h.modify ⟨i, rfl⟩ ⟨rfl, rfl⟩ Iff.rfl (h.idle i)
  obtain ⟨hring, hhash, hqueues, hino⟩ := hlocked.removeFromFreeList (Or.inl hmem) hremove
  have hino₁ : c₁.ino = Function.update c.ino (.entry i) { c.ino (.entry i) with iMutex := m } := hino
  have hkey₁ : ∀ y, (c₁.ino y).iDev = (c.ino y).iDev ∧ (c₁.ino y).iNum = (c.ino y).iNum := by
    intro y
    rw [hino₁]
    by_cases hy : y = .entry i
    · rw [hy, Function.update_self]
      exact ⟨rfl, rfl⟩
    · rw [Function.update_of_ne hy]
      exact ⟨rfl, rfl⟩
  have hhashed₁ : c₁.ptrs.Hashed (fun x => (c₁.ino x).iDev) (fun x => (c₁.ino x).iNum) rings :=
    h.toHashed.congr hhash hqueues hkey₁
  have hcase : (∀ q, Node.entry i ∉ rings q) ∨
      (∃ q, Node.entry i ∈ rings q ∧ c₁.ptrs.queues q ≠ some (.entry i)) ∨
        rings (bufHash (c₁.ino (.entry i)).iDev (c₁.ino (.entry i)).iNum) = [.entry i] := by
    rw [hqueues, (hkey₁ _).1, (hkey₁ _).2]
    exact h.removable_cases hre
  -- the inode as `put_into_hash_queue` sees it
  obtain ⟨b, hb⟩ : ∃ b, b = { c₁.ino (.entry i) with iDev := dev, iNum := num } := ⟨_, rfl⟩
  have hmiss₁ : ∀ q, ∀ y ∈ rings q, ¬ ((c₁.ino y).iDev = dev ∧ (c₁.ino y).iNum = num) := by
    intro q y hy
    rw [(hkey₁ y).1, (hkey₁ y).2]
    exact hmiss q y hy
  have hself : (Function.update c₁.ino (.entry i) b (.entry i)).iDev = dev ∧
      (Function.update c₁.ino (.entry i) b (.entry i)).iNum = num := by
    rw [Function.update_self, hb]
    exact ⟨rfl, rfl⟩
  have hother : ∀ y, y ≠ .entry i → (Function.update c₁.ino (.entry i) b y).iDev = (c₁.ino y).iDev ∧
      (Function.update c₁.ino (.entry i) b y).iNum = (c₁.ino y).iNum := by
    intro y hy
    rw [Function.update_of_ne hy]
    exact ⟨rfl, rfl⟩
  obtain ⟨P₁, P₂, rings', hrun₁', hrun₂', _, hfree₂, hhashed₂, _⟩ :=
    hhashed₁.rekey "remove_from_hash_queue: inode hash queue corrupted"
      (fun y => (Function.update c₁.ino (.entry i) b y).iDev)
      (fun y => (Function.update c₁.ino (.entry i) b y).iNum) ⟨i, rfl⟩ hcase hmiss₁ hself hother
  rw [removeFromHashQueue_eq hhashed₁.hash, hrun₁'] at hunhash
  obtain rfl := Except.ok.inj hunhash
  have hputrun : (ICache.modify { c₁ with ptrs := P₁ } (.entry i) fun i =>
      { i with iDev := dev, iNum := num }).putIntoHashQueue (.entry i) =
        .ok { ptrs := P₂, ino := Function.update c₁.ino (.entry i) b, disk := c₁.disk } := by
    unfold ICache.putIntoHashQueue
    rw [modify_ino_self]
    have hptrs : (ICache.modify { c₁ with ptrs := P₁ } (.entry i) fun i =>
        { i with iDev := dev, iNum := num }).ptrs = P₁ := rfl
    rw [hptrs, hrun₂', hb]
    rfl
  rw [hputrun] at hput
  obtain rfl := Except.ok.inj hput
  obtain ⟨_, _, hc₄⟩ := bind_eq_ok.mp hread
  obtain rfl := Except.ok.inj hc₄
  obtain ⟨b', hb', hino'⟩ : ∃ b' : Inode, (b'.iDev = dev ∧ b'.iNum = num ∧ b'.iCount = 1) ∧
      ((ICache.modify { ptrs := P₂, ino := Function.update c₁.ino (.entry i) b, disk := c₁.disk }
        (.entry i) fun i => { i with iLinksCount := c₁.disk i.iDev i.iNum }).modify (.entry i)
          fun i => { i with iCount := 1 }).ino = Function.update c.ino (.entry i) b' := by
    refine ⟨{ b with iLinksCount := c₁.disk b.iDev b.iNum, iCount := 1 },
      ⟨by rw [hb], by rw [hb], rfl⟩, ?_⟩
    rw [hino₁]
    simp [ICache.modify]
  refine ⟨l.erase (.entry i), rings', ?_, ?_, ?_, ?_, ?_⟩
  · apply hhashed₂.congr rfl rfl
    intro y
    dsimp only
    rw [hino']
    by_cases hy : y = .entry i
    · rw [hy, Function.update_self, Function.update_self, hb]
      exact ⟨hb'.1, hb'.2.1⟩
    · rw [Function.update_of_ne hy, Function.update_of_ne hy, hino₁, Function.update_of_ne hy]
      exact ⟨rfl, rfl⟩
  · dsimp only [ICache.modify]
    rw [hfree₂]
    exact hring
  · intro y
    rw [h.free.nodup.mem_erase_iff, h.count y]
    dsimp only
    rw [hino']
    by_cases hy : y = .entry i
    · simp [hy, hb'.2.2]
    · simp [hy]
  · intro y hy
    dsimp only
    rw [hino', Function.update_of_ne (hy i)]
    exact h.outside y hy
  · intro j
    dsimp only
    rw [hino']
    by_cases hj : Node.entry j = .entry i
    · rw [hj, Function.update_self, hb'.2.2]
      exact fun _ => Nat.one_ne_zero
    · rw [Function.update_of_ne hj]
      exact h.idle j

theorem Linked.iget (h : c.Linked l rings) (hsafe : c.Gettable dev num)
    {r : Option Node × ICache} (hrun : c.iget env current dev num = .ok r) :
    ∃ l' rings', r.2.Linked l' rings' := by
  obtain ⟨found, hsearch, hrest⟩ := bind_eq_ok.mp hrun
  unfold Gettable at hsafe
  have hlookup : (c.inHashQueue dev num = .ok none ∧
        ∀ q, ∀ y ∈ rings q, ¬ ((c.ino y).iDev = dev ∧ (c.ino y).iNum = num)) ∨
      ∃ y ∈ rings (bufHash dev num), c.inHashQueue dev num = .ok (some y) ∧
        (c.ino y).iDev = dev ∧ (c.ino y).iNum = num := h.toHashed.inHashQueue dev num
  rcases hlookup with ⟨hnone, hmiss⟩ | ⟨y, hy, hfound, _⟩
  · rw [hnone] at hsearch hsafe
    obtain rfl := Except.ok.inj hsearch
    obtain ⟨i, hnext, hre⟩ := hsafe
    rw [hnext] at hrest
    have hmem : Node.entry i ∈ l := by
      rw [h.free.next_freeList, Option.some.injEq] at hnext
      cases l with
      | nil => cases hnext
      | cons a l =>
          rw [List.headD_cons] at hnext
          rw [hnext]
          exact List.mem_cons_self
    exact h.load hmiss hmem hre hrest
  · rw [hfound] at hsearch hsafe
    obtain rfl := Except.ok.inj hsearch
    exact ⟨_, _, h.lockFound hy hsafe hrest⟩

/-! ## `ext2_iput` and `ext2_inode_sync` -/

/-- Only the inode itself differs, and its key and count are the same. -/
structure Rewritten (c c' : ICache) (x : Node) : Prop where
  ptrs : c'.ptrs = c.ptrs
  other : ∀ y, y ≠ x → c'.ino y = c.ino y
  key : (c'.ino x).iDev = (c.ino x).iDev ∧ (c'.ino x).iNum = (c.ino x).iNum
  count : (c'.ino x).iCount = (c.ino x).iCount

theorem writeInode_rewritten (hrun : c.writeInode env x = .ok c') :
    Rewritten c c' x ∧ (c'.ino x).modified = false := by
  obtain ⟨_, _, hret⟩ := bind_eq_ok.mp hrun
  obtain rfl := Except.ok.inj hret
  refine ⟨⟨rfl, ?_, ?_, ?_⟩, ?_⟩
  · intro y hy
    dsimp only
    rw [modify_ino_of_ne c _ hy]
  · dsimp only
    rw [modify_ino_self]
    exact ⟨rfl, rfl⟩
  · dsimp only
    rw [modify_ino_self]
  · dsimp only
    rw [modify_ino_self]

theorem Rewritten.trans {c₁ c₂ c₃ : ICache} (h : Rewritten c₁ c₂ x) (h' : Rewritten c₂ c₃ x) :
    Rewritten c₁ c₃ x where
  ptrs := h'.ptrs.trans h.ptrs
  other y hy := (h'.other y hy).trans (h.other y hy)
  key := ⟨h'.key.1.trans h.key.1, h'.key.2.trans h.key.2⟩
  count := h'.count.trans h.count

/-- An inode without references is clean afterwards and goes to the end of the
free list. -/
theorem retire_of_zero (hzero : (c.ino x).iCount = 0) (hrun : c.retire env x = .ok c') :
    ∃ c₁ P, Rewritten c c₁ x ∧ (c₁.ino x).modified = false ∧ c.ptrs.putLast x = .ok P ∧
      c' = { c₁ with ptrs := P } := by
  unfold ICache.retire at hrun
  rw [if_pos hzero] at hrun
  obtain ⟨c₁, hwrite, hput⟩ := bind_eq_ok.mp hrun
  have hmarked : Rewritten c (c.discard x) x := by
    unfold discard
    split
    next =>
      refine ⟨rfl, fun y hy => modify_ino_of_ne c _ hy, ?_, ?_⟩
      · rw [modify_ino_self]
        exact ⟨rfl, rfl⟩
      · rw [modify_ino_self]
    next => exact ⟨rfl, fun _ _ => rfl, ⟨rfl, rfl⟩, rfl⟩
  have hclean : Rewritten (c.discard x) c₁ x ∧ (c₁.ino x).modified = false := by
    unfold writeModified at hwrite
    split at hwrite
    next => exact writeInode_rewritten hwrite
    next hmod =>
      obtain rfl := Except.ok.inj hwrite
      exact ⟨⟨rfl, fun _ _ => rfl, ⟨rfl, rfl⟩, rfl⟩, by simpa using hmod⟩
  have hall := hmarked.trans hclean.1
  unfold ICache.putIntoFreeList at hput
  split at hput
  next => cases hput
  next =>
    obtain ⟨P, hlast, hret⟩ := bind_eq_ok.mp hput
    obtain rfl := Except.ok.inj hret
    rw [hall.ptrs] at hlast
    exact ⟨c₁, P, hall, hclean.2, hlast, rfl⟩

theorem Linked.iput (h : c.Linked l rings) (hrun : c.iput env current x = .ok c') :
    (∃ l', c'.Linked l' rings) := by
  unfold ICache.iput at hrun
  obtain ⟨m, _, hrest⟩ := bind_eq_ok.mp hrun
  split at hrest
  next => cases hrest
  next hcount =>
    obtain ⟨c₁, hretire, hret⟩ := bind_eq_ok.mp hrest
    obtain rfl := Except.ok.inj hret
    have hentry : ∃ i, x = Node.entry i := by
      by_contra hno
      push Not at hno
      exact hcount (h.outside x hno)
    have hoff : x ∉ l := fun hx => hcount ((h.count x).mp hx).2
    have hout : x ∉ Node.freeList :: l := by
      obtain ⟨i, rfl⟩ := hentry
      simp [hoff]
    obtain ⟨c₀, hc₀⟩ : ∃ c₀, c₀ = c.modify x fun i =>
        { i with iMutex := m, iCount := i.iCount - 1 } := ⟨_, rfl⟩
    rw [← hc₀] at hretire
    have hself : c₀.ino x = { c.ino x with iMutex := m, iCount := (c.ino x).iCount - 1 } := by
      rw [hc₀, modify_ino_self]
    have hptrs : c₀.ptrs = c.ptrs := by
      rw [hc₀]
      rfl
    by_cases hlast : (c₀.ino x).iCount = 0
    · obtain ⟨c₂, P, hre, hclean, hput, rfl⟩ := retire_of_zero hlast hretire
      rw [hptrs] at hput
      rcases h.free.tail with hs | ⟨hpast, _⟩
      · obtain ⟨P', hput', hring, _, honly⟩ := Pointers.putLast_of_sound h.free hs hout hentry
        rw [hput'] at hput
        obtain rfl := Except.ok.inj hput
        have hino : (ICache.modify { c₂ with ptrs := P' } x fun i =>
            { i with iMutex := mutexUnlock }).ino =
              Function.update c.ino x { c₂.ino x with iMutex := mutexUnlock } := by
          funext y
          by_cases hy : y = x
          · rw [hy, modify_ino_self, Function.update_self]
          · rw [modify_ino_of_ne _ _ hy, Function.update_of_ne hy]
            dsimp only
            rw [hre.other y hy, hc₀, modify_ino_of_ne c _ hy]
        have hzero : (c₂.ino x).iCount = 0 := by
          rw [hre.count]
          exact hlast
        refine ⟨l ++ [x], h.update hentry hino ?_ ?_ honly.hash honly.queues hring ?_⟩
        · dsimp only
          rw [hre.key.1, hre.key.2, hself]
          exact ⟨rfl, rfl⟩
        · dsimp only
          rw [hclean]
          intro hfalse
          cases hfalse
        · intro y
          rw [hino]
          by_cases hy : y = x
          · rw [hy, Function.update_self]
            simp [hzero, hentry]
          · rw [Function.update_of_ne hy, ← h.count y]
            simp [hy]
      · rw [Pointers.putLast_of_past hpast fun heq => hout (heq ▸ List.mem_cons_self)] at hput
        cases hput
    · unfold ICache.retire at hretire
      rw [if_neg hlast] at hretire
      obtain rfl := Except.ok.inj hretire
      rw [hself] at hlast
      have hino : (c₀.modify x fun i => { i with iMutex := mutexUnlock }).ino =
          Function.update c.ino x { c.ino x with
            iMutex := mutexUnlock, iCount := (c.ino x).iCount - 1 } := by
        rw [hc₀]
        simp [ICache.modify]
      refine ⟨l, h.update hentry hino ⟨rfl, rfl⟩ (fun _ => hlast) ?_ ?_ ?_ ?_⟩
      · rw [hc₀]
        rfl
      · rw [hc₀]
        rfl
      · rw [hc₀]
        exact h.free
      · intro y
        rw [hino]
        by_cases hy : y = x
        · rw [hy, Function.update_self]
          simp [hoff, hlast]
        · rw [Function.update_of_ne hy]
          exact h.count y

theorem Linked.syncSlot (h : c.Linked l rings) {i : Fin nrEntries}
    (hrun : c.syncSlot env current i = .ok c') : ∃ l', c'.Linked l' rings := by
  unfold ICache.syncSlot at hrun
  split at hrun
  next hmod =>
    -- a modified inode is referenced, so the extra reference is not the last one
    have hcount : (c.ino (.entry i)).iCount ≠ 0 := h.idle i hmod.2
    obtain ⟨m, _, hrun₁⟩ := bind_eq_ok.mp hrun
    obtain ⟨c₂, hwrite, hrun₂⟩ := bind_eq_ok.mp hrun₁
    obtain ⟨c₃, hiput, hret⟩ := bind_eq_ok.mp hrun₂
    obtain rfl := Except.ok.inj hret
    have h₁ : (c.modify (.entry i) fun i =>
        { i with iMutex := m, iCount := i.iCount + 1 }).Linked l rings := by
      apply h.modify ⟨i, rfl⟩ ⟨rfl, rfl⟩
      · simp [hcount]
      · intro _
        exact Nat.succ_ne_zero _
    obtain ⟨hre, hclean⟩ := writeInode_rewritten hwrite
    have h₂ : c₂.Linked l rings := by
      have hino : c₂.ino = Function.update (c.modify (.entry i) fun i =>
          { i with iMutex := m, iCount := i.iCount + 1 }).ino (.entry i) (c₂.ino (.entry i)) := by
        funext y
        by_cases hy : y = .entry i
        · rw [hy, Function.update_self]
        · rw [Function.update_of_ne hy]
          exact hre.other y hy
      refine h₁.update ⟨i, rfl⟩ hino hre.key ?_ (by rw [hre.ptrs]) (by rw [hre.ptrs])
        (by rw [hre.ptrs]; exact h₁.free) ?_
      · rw [hclean]
        intro hfalse
        cases hfalse
      · intro y
        rw [h₁.count y]
        by_cases hy : y = .entry i
        · rw [hy, hre.count]
        · rw [hre.other y hy]
    obtain ⟨l', h₃⟩ := h₂.iput hiput
    exact ⟨l', h₃.modify ⟨i, rfl⟩ ⟨rfl, rfl⟩ Iff.rfl (h₃.idle i)⟩
  next =>
    obtain rfl := Except.ok.inj hrun
    exact ⟨l, h⟩

theorem Linked.syncLoop (h : c.Linked l rings) (slots : List (Fin nrEntries))
    (hrun : slots.foldlM (ICache.syncSlot env current) c = .ok c') : ∃ l', c'.Linked l' rings := by
  refine foldlM_invariant (fun c : ICache => ∃ l', c.Linked l' rings) ?_ ⟨l, h⟩ hrun
  rintro c₁ i c₂ _ ⟨l₁, h₁⟩ hslot
  exact h₁.syncSlot hslot

/-! ## Runs -/

/-- There are lists which the cache realises. -/
def Intact (c : ICache) : Prop := ∃ l rings, c.Linked l rings

theorem Intact.step {op : Op} (h : c.Intact) (hsafe : c.SafeStep op)
    (hrun : c.step env op = .ok c') : c'.Intact := by
  obtain ⟨l, rings, h⟩ := h
  cases op with
  | iget current dev num =>
      obtain ⟨r, hget, hret⟩ := bind_eq_ok.mp hrun
      obtain rfl := Except.ok.inj hret
      exact h.iget hsafe hget
  | iput current ip =>
      obtain ⟨l', h'⟩ := h.iput hrun
      exact ⟨l', rings, h'⟩
  | inodeSync current =>
      obtain ⟨l', h'⟩ := h.syncLoop _ hrun
      exact ⟨l', rings, h'⟩
  | touch ip links =>
      obtain rfl := Except.ok.inj hrun
      have hentry : ∃ i, ip = Node.entry i := by
        by_contra hno
        push Not at hno
        exact hsafe (h.outside ip hno)
      exact ⟨l, rings, h.modify hentry ⟨rfl, rfl⟩ Iff.rfl fun _ => hsafe⟩

theorem Intact.run {ops : List Op} :
    ∀ {c : ICache}, c.Intact → c.SafeRun env ops → c.run env ops = .ok c' → c'.Intact := by
  induction ops with
  | nil =>
      intro c h _ hrun
      obtain rfl := Except.ok.inj hrun
      exact h
  | cons op ops ih =>
      intro c h hsafe hrun
      unfold ICache.run at hrun
      rw [List.foldlM_cons] at hrun
      obtain ⟨c₁, hstep, hrest⟩ := bind_eq_ok.mp hrun
      rw [SafeRun, hstep] at hsafe
      exact ih (h.step hsafe.1 hstep) hsafe.2 hrest

theorem inodesInit_intact (heap : Fin nrEntries → Inode) (disk : ℕ → ℕ → ℕ) :
    (inodesInit heap disk).Intact := by
  refine ⟨allEntries, fun _ => [], Pointers.init_hashed fun _ => rfl, Pointers.init_freeRing,
    ?_, ?_, ?_⟩
  · intro x
    rw [mem_allEntries]
    constructor
    · rintro ⟨i, rfl⟩
      exact ⟨⟨i, rfl⟩, rfl⟩
    · exact And.left
  · intro x hx
    cases x with
    | freeList | past => rfl
    | entry i => exact (hx i rfl).elim
  · intro i hi
    cases hi

theorem Intact.inQueues (h : c.Intact) : c.InQueues := by
  obtain ⟨l, rings, h⟩ := h
  exact ⟨⟨rings, h.hash.family, fun _ hi => h.mem_iff hi⟩, fun _ _ hi => h.eq_of_key hi⟩

theorem Intact.repInvariantBut (h : c.Intact) : c.RepInvariantBut := by
  obtain ⟨l, rings, hlinked⟩ := h
  exact ⟨⟨l, hlinked.free, hlinked.count⟩, Intact.inQueues ⟨l, rings, hlinked⟩⟩

/-- The `i_prev_free` of the dummy decides about the whole invariant. -/
theorem Intact.repInvariant_iff (h : c.Intact) :
    c.RepInvariant ↔ c.ptrs.free.prev .freeList ≠ some .past := by
  constructor
  · intro hinv heq
    obtain ⟨l, hring, hmem⟩ := hinv.free
    obtain ⟨_, p, _, hp, _, hpm⟩ := hring.links_of_mem List.mem_cons_self
    rw [heq, Option.some.injEq] at hp
    rw [← hp, List.mem_cons, hmem] at hpm
    simp at hpm
  · intro hne
    refine ⟨?_, h.inQueues⟩
    obtain ⟨l, rings, h⟩ := h
    exact ⟨l, h.free.isRing (h.sound_iff.mpr hne), h.count⟩

/-- No run keeps the representation invariant, since `ext2_inodes_init` itself
does not establish it.  In a run which reaches none of the other defects
everything but the `i_prev_free` of the dummy is as it should be. -/
theorem repInvariant_fails_and_rest_of_safeIget (env : Env) (heap : Fin nrEntries → Inode)
    (disk : ℕ → ℕ → ℕ) (ops : List Op) :
    (¬ ∀ done c, done <+: ops → (inodesInit heap disk).run env done = .ok c → c.RepInvariant) ∧
      (SafeRun env (inodesInit heap disk) ops → ∀ c, (inodesInit heap disk).run env ops = .ok c →
        c.RepInvariantBut ∧ (c.RepInvariant ↔ c.ptrs.free.prev .freeList ≠ some .past)) := by
  constructor
  · intro hall
    have hinit := hall [] (inodesInit heap disk) List.nil_prefix rfl
    rw [(inodesInit_intact heap disk).repInvariant_iff] at hinit
    exact hinit rfl
  · intro hsafe c hrun
    have hintact := (inodesInit_intact heap disk).run hsafe hrun
    exact ⟨hintact.repInvariantBut, hintact.repInvariant_iff⟩

/-- Two references to one inode, one to another, and a sync of the modified
one. -/
theorem repInvariant_fails_and_rest_of_safeIget_sync :
    ∃ c, (inodesInit (fun _ => zeroInode) fun _ _ => 1).run ⟨fun _ => true, fun _ _ => true⟩
        [.iget 1 0x300 2, .iget 1 0x300 2, .iget 1 0x300 102,
          .touch (.entry ⟨0, by decide⟩) 2, .inodeSync 1, .iput 1 (.entry ⟨0, by decide⟩)] = .ok c ∧
      c.RepInvariantBut ∧ ¬ c.RepInvariant := by
  have hpast : ((inodesInit (fun _ => zeroInode) fun _ _ => 1).run
      ⟨fun _ => true, fun _ _ => true⟩
      [.iget 1 0x300 2, .iget 1 0x300 2, .iget 1 0x300 102,
        .touch (.entry ⟨0, by decide⟩) 2, .inodeSync 1, .iput 1 (.entry ⟨0, by decide⟩)]).map
      (fun c => c.ptrs.free.prev .freeList) = .ok (some .past) := by
    decide +kernel
  have hsafe : SafeRun ⟨fun _ => true, fun _ _ => true⟩
      (inodesInit (fun _ => zeroInode) fun _ _ => 1)
      [.iget 1 0x300 2, .iget 1 0x300 2, .iget 1 0x300 102,
        .touch (.entry ⟨0, by decide⟩) 2, .inodeSync 1, .iput 1 (.entry ⟨0, by decide⟩)] := by
    decide +kernel
  cases hrun : (inodesInit (fun _ => zeroInode) fun _ _ => 1).run
      ⟨fun _ => true, fun _ _ => true⟩
      [.iget 1 0x300 2, .iget 1 0x300 2, .iget 1 0x300 102,
        .touch (.entry ⟨0, by decide⟩) 2, .inodeSync 1, .iput 1 (.entry ⟨0, by decide⟩)] with
  | error e => simp [hrun, Except.map] at hpast
  | ok c =>
      rw [hrun] at hpast
      simp only [Except.map, Except.ok.injEq] at hpast
      obtain ⟨hbut, hiff⟩ := (repInvariant_fails_and_rest_of_safeIget _ _ _ _).2 hsafe c hrun
      exact ⟨c, rfl, hbut, fun hinv => hiff.mp hinv hpast⟩

/-- The state which `ext2_inodes_init` leaves violates the invariant. -/
theorem not_repInvariant_inodesInit :
    ¬ (inodesInit (fun _ => zeroInode) fun _ _ => 1).RepInvariant := by
  rw [(inodesInit_intact _ _).repInvariant_iff]
  exact fun hne => hne rfl

end ICache

end Yak.InodeCache
