import Yak.Buffer

/-!
# The lists of the buffer cache

`Linked c l rings` says that the free list of `c` holds the buffers of `l`, up
to the `b_prev_free` of the dummy, and that the hash queues are the disjoint
rings `rings`, each buffer on the ring of its key.  Every operation of the
cache is described by what it does to `l` and to `rings`.
-/

namespace Yak.BufferCache

open Yak.Cache LinkedRing

variable {α : Type}

namespace Cache

@[simp] theorem modify_ptrs (c : Cache α) (x : Node) (f : Buffer α → Buffer α) :
    (c.modify x f).ptrs = c.ptrs := rfl

@[simp] theorem modify_disk (c : Cache α) (x : Node) (f : Buffer α → Buffer α) :
    (c.modify x f).disk = c.disk := rfl

@[simp] theorem modify_clock (c : Cache α) (x : Node) (f : Buffer α → Buffer α) :
    (c.modify x f).clock = c.clock := rfl

@[simp] theorem modify_buf_self (c : Cache α) (x : Node) (f : Buffer α → Buffer α) :
    (c.modify x f).buf x = f (c.buf x) := by
  simp [modify]

theorem modify_buf_of_ne (c : Cache α) {x y : Node} (f : Buffer α → Buffer α) (hy : y ≠ x) :
    (c.modify x f).buf y = c.buf y := by
  simp [modify, hy]

/-- The buffer carries this device and block number. -/
def Carries (c : Cache α) (x : Node) (dev blknr : ℕ) : Prop :=
  (c.buf x).bDev = dev ∧ (c.buf x).bBlknr = blknr

/-- Nothing but the links can differ. -/
structure SameBuffers (c c' : Cache α) : Prop where
  buf : c'.buf = c.buf
  disk : c'.disk = c.disk
  clock : c'.clock = c.clock

/-- Nothing but the links of the free list can differ. -/
structure Relisted (c c' : Cache α) : Prop extends SameBuffers c c' where
  hash : c'.ptrs.hash = c.ptrs.hash
  queues : c'.ptrs.queues = c.ptrs.queues

/-- The free list holds the buffers of `l`, and all others have null links. -/
structure Listed (c : Cache α) (l : List Node) : Prop where
  free : FreeRing c.ptrs.free l
  off : ∀ x, x ∉ Node.freeList :: l → c.ptrs.free.next x = none ∧ c.ptrs.free.prev x = none

structure Linked (c : Cache α) (l : List Node) (rings : ℕ → List Node) : Prop extends
    c.ptrs.Hashed (fun x => (c.buf x).bDev) (fun x => (c.buf x).bBlknr) rings where
  free : FreeRing c.ptrs.free l
  off : ∀ x, x ∉ Node.freeList :: l → c.ptrs.free.next x = none ∧ c.ptrs.free.prev x = none

variable {c c' : Cache α} {l : List Node} {rings : ℕ → List Node} {x : Node}
variable {env : Env α} {current dev blknr : ℕ}

theorem Linked.congr (h : c.Linked l rings) (hptrs : c'.ptrs = c.ptrs)
    (hkey : ∀ y, (c'.buf y).bDev = (c.buf y).bDev ∧ (c'.buf y).bBlknr = (c.buf y).bBlknr) :
    c'.Linked l rings := by
  refine ⟨h.toHashed.congr (by rw [hptrs]) (by rw [hptrs]) hkey, ?_, ?_⟩
  · rw [hptrs]
    exact h.free
  · rw [hptrs]
    exact h.off

theorem Linked.modify (h : c.Linked l rings) {f : Buffer α → Buffer α}
    (hdev : (f (c.buf x)).bDev = (c.buf x).bDev)
    (hblknr : (f (c.buf x)).bBlknr = (c.buf x).bBlknr) : (c.modify x f).Linked l rings := by
  apply h.congr (c.modify_ptrs x f)
  intro y
  by_cases hy : y = x
  · subst hy
    rw [modify_buf_self]
    exact ⟨hdev, hblknr⟩
  · rw [modify_buf_of_ne c f hy]
    exact ⟨rfl, rfl⟩

theorem Linked.listed (h : c.Linked l rings) : c.Listed l := ⟨h.free, h.off⟩

theorem Linked.relisted {l' : List Node} (h : c.Linked l rings) (hsame : Relisted c c')
    (hlisted : c'.Listed l') : c'.Linked l' rings := by
  refine ⟨h.toHashed.congr hsame.hash hsame.queues ?_, hlisted.free, hlisted.off⟩
  intro y
  rw [hsame.buf]
  exact ⟨rfl, rfl⟩

theorem Listed.congr (h : c.Listed l) (hfree : c'.ptrs.free = c.ptrs.free) : c'.Listed l := by
  constructor
  · rw [hfree]
    exact h.free
  · rw [hfree]
    exact h.off

theorem Listed.sound_or_past (h : c.Listed l) :
    Sound c.ptrs.free l ∨ c.ptrs.free.prev .freeList = some .past :=
  h.free.tail.imp_right And.left

/-- The dummy's `b_prev_free` is either right or behind the array. -/
theorem Linked.sound_iff (h : c.Linked l rings) :
    Sound c.ptrs.free l ↔ c.ptrs.free.prev .freeList ≠ some .past := by
  constructor
  · intro hs heq
    rw [hs, Option.some.injEq] at heq
    exact h.free.lastFree_ne_past heq
  · exact h.listed.sound_or_past.resolve_right

/-! ## Searching -/

theorem Linked.inHashQueue (h : c.Linked l rings) (dev blknr : ℕ) :
    c.inHashQueue dev blknr = .ok none ∧
        (∀ q, ∀ y ∈ rings q, ¬ c.Carries y dev blknr) ∨
      ∃ y ∈ rings (bufHash dev blknr),
        c.inHashQueue dev blknr = .ok (some y) ∧ c.Carries y dev blknr :=
  h.toHashed.inHashQueue dev blknr

/-! ## The free list -/

theorem Listed.removeFromFreeList (h : c.Listed l) (hx : x ≠ .freeList) :
    ∃ c', c.removeFromFreeList x = .ok c' ∧ c'.Listed (l.erase x) ∧ Relisted c c' ∧
      (Sound c.ptrs.free l → Sound c'.ptrs.free (l.erase x)) := by
  unfold Cache.removeFromFreeList
  by_cases hmem : x ∈ l
  · obtain ⟨P', hrun, hring, hsound, honly, hcleared⟩ :=
      Pointers.removeFromFreeList_of_mem h.free hmem true
        "remove_from_free_list: free list has been corrupted"
    rw [hrun]
    refine ⟨{ c with ptrs := P' }, rfl, ⟨hring, ?_⟩,
      ⟨⟨rfl, rfl, rfl⟩, honly.hash, honly.queues⟩, hsound⟩
    intro y hy
    by_cases hyx : y = x
    · rw [hyx]
      exact hcleared rfl
    · have hyl : y ∉ Node.freeList :: l := by
        intro hyl
        apply hy
        rw [List.mem_cons] at hyl ⊢
        exact hyl.imp_right (List.mem_erase_of_ne hyx).mpr
      rw [(honly.frame y hyl).1, (honly.frame y hyl).2]
      exact h.off y hyl
  · have hnull := h.off x (by simp [hx, hmem])
    rw [Pointers.removeFromFreeList_of_off true _ hnull.1 hnull.2, List.erase_of_not_mem hmem]
    exact ⟨c, rfl, h, ⟨⟨rfl, rfl, rfl⟩, rfl, rfl⟩, id⟩

theorem Linked.removeFromFreeList (h : c.Linked l rings) (hx : x ≠ .freeList) :
    ∃ c', c.removeFromFreeList x = .ok c' ∧ c'.Linked (l.erase x) rings ∧ Relisted c c' ∧
      (Sound c.ptrs.free l → Sound c'.ptrs.free (l.erase x)) := by
  obtain ⟨c', hrun, hlisted, hsame, hsound⟩ := h.listed.removeFromFreeList hx
  exact ⟨c', hrun, h.relisted hsame hlisted, hsame, hsound⟩

/-- A clean buffer goes to the end of the free list, any other to its start.
The end can only be reached through a correct `b_prev_free` of the dummy. -/
theorem Listed.putIntoFreeList (h : c.Listed l) (hx : x ∉ l) (hentry : ∃ i, x = Node.entry i) :
    c.putIntoFreeList x = .error .outOfBounds ∧ c.ptrs.free.prev .freeList = some .past ∧
        (c.buf x).dwrite = false ∧ (c.buf x).error = false ∨
      ∃ c' l', c.putIntoFreeList x = .ok c' ∧ c'.Listed l' ∧ Relisted c c' ∧
        (∀ y, y ∈ l' ↔ y = x ∨ y ∈ l) ∧ (Sound c.ptrs.free l → Sound c'.ptrs.free l') := by
  have hne : x ≠ .freeList := by
    obtain ⟨i, rfl⟩ := hentry
    simp
  have hout : x ∉ Node.freeList :: l := by
    simp [hne, hx]
  have hoff : ∀ {P' : Pointers} {l' : List Node}, Pointers.FreeOnly c.ptrs P' (x :: l) →
      (∀ y, y ∈ l' ↔ y = x ∨ y ∈ l) → ∀ y, y ∉ Node.freeList :: l' →
      P'.free.next y = none ∧ P'.free.prev y = none := by
    intro P' l' honly hmem y hy
    have hyl : y ∉ Node.freeList :: x :: l := by
      simp only [List.mem_cons, not_or] at hy ⊢
      rw [hmem y] at hy
      tauto
    have hold : y ∉ Node.freeList :: l := by
      simp only [List.mem_cons, not_or] at hyl ⊢
      exact ⟨hyl.1, hyl.2.2⟩
    rw [(honly.frame y hyl).1, (honly.frame y hyl).2]
    exact h.off y hold
  unfold Cache.putIntoFreeList
  by_cases hclean : (c.buf x).dwrite = false ∧ (c.buf x).error = false
  · rw [if_pos hclean]
    rcases h.sound_or_past with hs | hpast
    · right
      obtain ⟨P', hrun, hring, hsound, honly⟩ :=
        Pointers.putLast_of_sound h.free hs hout hentry
      rw [hrun]
      have hmem : ∀ y, y ∈ l ++ [x] ↔ y = x ∨ y ∈ l := by
        intro y
        rw [List.mem_append, List.mem_singleton, or_comm]
      exact ⟨_, l ++ [x], rfl, ⟨hring, hoff honly hmem⟩,
        ⟨⟨rfl, rfl, rfl⟩, honly.hash, honly.queues⟩, hmem, fun _ => hsound⟩
    · left
      rw [Pointers.putLast_of_past hpast hne]
      exact ⟨rfl, hpast, hclean⟩
  · rw [if_neg hclean]
    right
    obtain ⟨P', hrun, hring, hsound, honly⟩ := Pointers.putFirst_of_off h.free hout hentry
    rw [hrun]
    have hmem : ∀ y, y ∈ x :: l ↔ y = x ∨ y ∈ l := by
      intro y
      exact List.mem_cons
    exact ⟨_, x :: l, rfl, ⟨hring, hoff honly hmem⟩,
      ⟨⟨rfl, rfl, rfl⟩, honly.hash, honly.queues⟩, hmem, hsound⟩

theorem Linked.putIntoFreeList (h : c.Linked l rings) (hx : x ∉ l)
    (hentry : ∃ i, x = Node.entry i) :
    c.putIntoFreeList x = .error .outOfBounds ∧ ¬ Sound c.ptrs.free l ∧
        (c.buf x).dwrite = false ∧ (c.buf x).error = false ∨
      ∃ c' l', c.putIntoFreeList x = .ok c' ∧ c'.Linked l' rings ∧ SameBuffers c c' ∧
        (∀ y, y ∈ l' ↔ y = x ∨ y ∈ l) ∧ (Sound c.ptrs.free l → Sound c'.ptrs.free l') := by
  rcases h.listed.putIntoFreeList hx hentry with
    ⟨hrun, hpast, hclean⟩ | ⟨c', l', hrun, hlisted, hsame, hmem, hsound⟩
  · left
    refine ⟨hrun, ?_, hclean⟩
    rw [h.sound_iff]
    exact fun hnot => hnot hpast
  · right
    exact ⟨c', l', hrun, h.relisted hsame hlisted, hsame.toSameBuffers, hmem, hsound⟩

/-! ## Changing the key of a buffer -/

/-- Giving the buffer a new key leaves the rings intact: it is not the head of
the ring of its old key, or it is alone there and the new key selects the same
ring. -/
def Recyclable (c : Cache α) (dev blknr : ℕ) (x : Node) : Prop :=
  c.ptrs.queues (bufHash (c.buf x).bDev (c.buf x).bBlknr) ≠ some x ∨
    (c.ptrs.hash.next x = some x ∧
      bufHash (c.buf x).bDev (c.buf x).bBlknr = bufHash dev blknr)

instance (c : Cache α) (dev blknr : ℕ) (x : Node) : Decidable (c.Recyclable dev blknr x) :=
  inferInstanceAs (Decidable (_ ∨ _))

theorem Linked.recyclable_cases (h : c.Linked l rings) (hre : c.Recyclable dev blknr x) :
    (∀ q, x ∉ rings q) ∨ (∃ q, x ∈ rings q ∧ c.ptrs.queues q ≠ some x) ∨
      rings (bufHash dev blknr) = [x] := by
  by_cases hoff : ∀ q, x ∉ rings q
  · exact Or.inl hoff
  · right
    push Not at hoff
    obtain ⟨q, hx⟩ := hoff
    have hq := h.keyed q x hx
    rcases hre with hhead | ⟨hself, hsame⟩
    · left
      rw [← hq] at hhead
      exact ⟨q, hx, hhead⟩
    · by_cases hhead : c.ptrs.queues q = some x
      · right
        rw [← hsame, ← hq]
        obtain ⟨l', hl'⟩ := h.hash.family.eq_cons hhead
        have hring := h.hash.family.isRing_of_mem hx
        rw [hl'] at hring ⊢
        rw [hring.next_eq_self_iff.mp hself]
      · exact Or.inl ⟨q, hx, hhead⟩

theorem rekey_ptrs (c : Cache α) (env : Env α) (m : Mutex) (dev blknr : ℕ) (x : Node) :
    (c.rekey env m dev blknr x).ptrs = c.ptrs := rfl

theorem rekey_buf_of_ne (c : Cache α) (env : Env α) (m : Mutex) (dev blknr : ℕ) {x y : Node}
    (hy : y ≠ x) : (c.rekey env m dev blknr x).buf y = c.buf y := by
  simp [rekey, tick, modify_buf_of_ne c _ hy]

theorem rekey_carries (c : Cache α) (env : Env α) (m : Mutex) (dev blknr : ℕ) (x : Node) :
    (c.rekey env m dev blknr x).Carries x dev blknr := by
  simp [Carries, rekey, tick]

theorem Linked.recycle (h : c.Linked l rings) (env : Env α) (m : Mutex)
    (hentry : ∃ i, x = Node.entry i) (hre : c.Recyclable dev blknr x)
    (hmiss : ∀ q, ∀ y ∈ rings q, ¬ c.Carries y dev blknr) :
    ∃ c' rings', ((c.rekey env m dev blknr x).removeFromHashQueue x >>=
        fun c => c.putIntoHashQueue x) = .ok c' ∧
      c'.Linked l rings' ∧ SameBuffers (c.rekey env m dev blknr x) c' ∧
      c'.ptrs.free = c.ptrs.free ∧
      (∀ q y, y ∈ rings' q ↔ y ≠ x ∧ y ∈ rings q ∨ y = x ∧ q = bufHash dev blknr) := by
  have hkey := c.rekey_carries env m dev blknr x
  have hother : ∀ y, y ≠ x →
      ((c.rekey env m dev blknr x).buf y).bDev = (c.buf y).bDev ∧
        ((c.rekey env m dev blknr x).buf y).bBlknr = (c.buf y).bBlknr := by
    intro y hy
    rw [c.rekey_buf_of_ne env m dev blknr hy]
    exact ⟨rfl, rfl⟩
  obtain ⟨P₁, P₂, rings', hrun₁, hrun₂, _, hfree, hhashed, hmem⟩ :=
    h.toHashed.rekey
      "remove_from_hash_queue: bp is not on a hash queue or queue has been corrupted!"
      (fun y => ((c.rekey env m dev blknr x).buf y).bDev)
      (fun y => ((c.rekey env m dev blknr x).buf y).bBlknr)
      hentry (h.recyclable_cases hre) hmiss hkey hother
  have hrun : ((c.rekey env m dev blknr x).removeFromHashQueue x >>=
      fun c => c.putIntoHashQueue x) =
        .ok { c.rekey env m dev blknr x with ptrs := P₂ } := by
    unfold Cache.removeFromHashQueue
    rw [hkey.1, hkey.2, rekey_ptrs, hrun₁]
    simp only [bind, Except.bind]
    unfold Cache.putIntoHashQueue
    dsimp only
    rw [hkey.1, hkey.2, hrun₂]
    rfl
  refine ⟨_, rings', hrun, ⟨hhashed, ?_, ?_⟩, ⟨rfl, rfl, rfl⟩, hfree, hmem⟩
  · dsimp only
    rw [hfree]
    exact h.free
  · dsimp only
    rw [hfree]
    exact h.off

/-! ## The turns of `getblk` -/

theorem Linked.lockFound (h : c.Linked l rings) (hx : x ≠ .freeList)
    (husable : Usable (c.buf x).bMutex current) :
    ∃ c', c.lockFound current x = .ok (x, c') ∧ c'.Linked (l.erase x) rings ∧
      SameBuffers (c.modify x fun b => { b with bMutex := taken current }) c' ∧
      (Sound c.ptrs.free l → Sound c'.ptrs.free (l.erase x)) := by
  have hlinked : (c.modify x fun b => { b with bMutex := taken current }).Linked l rings :=
    h.modify rfl rfl
  obtain ⟨c', hrun, hlinked', hsame, hsound⟩ := hlinked.removeFromFreeList hx
  refine ⟨c', ?_, hlinked', hsame.toSameBuffers, hsound⟩
  unfold Cache.lockFound
  rw [mutexLocked_eq_false.mpr husable, mutexLock_of_usable husable]
  simp only [Bool.false_eq_true, if_false, bind, Except.bind]
  rw [show (⟨true, some current⟩ : Mutex) = taken current from rfl, hrun]

theorem lockFound_of_not_usable (hbusy : ¬ Usable (c.buf x).bMutex current) :
    c.lockFound current x = .error .asleep := by
  unfold Cache.lockFound
  rw [if_pos]
  rw [← mutexLocked_eq_false, Bool.not_eq_false] at hbusy
  exact hbusy

theorem Linked.recycled (h : c.Linked l rings) (env : Env α) (hentry : ∃ i, x = Node.entry i)
    (husable : Usable (c.buf x).bMutex current) (hre : c.Recyclable dev blknr x)
    (hmiss : ∀ q, ∀ y ∈ rings q, ¬ c.Carries y dev blknr) :
    ∃ c' rings', c.recycle env current dev blknr x = .ok (x, c') ∧ c'.Linked l rings' ∧
      SameBuffers (c.rekey env (taken current) dev blknr x) c' ∧
      c'.ptrs.free = c.ptrs.free ∧
      (∀ q y, y ∈ rings' q ↔ y ≠ x ∧ y ∈ rings q ∨ y = x ∧ q = bufHash dev blknr) := by
  obtain ⟨c', rings', hrun, hlinked, hsame, hfree, hmem⟩ :=
    h.recycle env (taken current) hentry hre hmiss
  refine ⟨c', rings', ?_, hlinked, hsame, hfree, hmem⟩
  obtain ⟨c₁, hrun₁, hrun₂⟩ := bind_eq_ok.mp hrun
  unfold Cache.recycle
  rw [mutexLocked_eq_false.mpr husable, mutexLock_of_usable husable]
  simp only [Bool.false_eq_true, if_false, bind, Except.bind]
  rw [show (⟨true, some current⟩ : Mutex) = taken current from rfl, hrun₁]
  dsimp only
  rw [hrun₂]

theorem recycle_of_not_usable (hbusy : ¬ Usable (c.buf x).bMutex current) :
    c.recycle env current dev blknr x = .error (.panic "buffer on free list is locked\r\n") := by
  unfold Cache.recycle
  rw [if_pos]
  rw [← mutexLocked_eq_false, Bool.not_eq_false] at hbusy
  exact hbusy

theorem getblkLoop_of_hit (fuel : ℕ) (hhit : c.inHashQueue dev blknr = .ok (some x)) :
    getblkLoop env current dev blknr (fuel + 1) c = c.lockFound current x := by
  rw [getblkLoop, hhit]
  rfl

theorem getblkLoop_of_miss (fuel : ℕ) (hmiss : c.inHashQueue dev blknr = .ok none)
    (hnext : c.ptrs.free.next .freeList = some x) (hrun : c.removeFromFreeList x = .ok c') :
    getblkLoop env current dev blknr (fuel + 1) c =
      if (c'.buf x).dwrite then
        (c'.modify x fun b => { b with dwrite := false }).bwrite env x >>=
          getblkLoop env current dev blknr fuel
      else c'.recycle env current dev blknr x := by
  rw [getblkLoop, hmiss]
  simp only [bind, Except.bind, hnext, hrun]

/-! ## Drive requests -/

/-- A drive request changes neither the links nor the key, the mutex and the
delayed-write flag of any buffer. -/
structure Requested (c c' : Cache α) : Prop where
  ptrs : c'.ptrs = c.ptrs
  key : ∀ y, (c'.buf y).bDev = (c.buf y).bDev ∧ (c'.buf y).bBlknr = (c.buf y).bBlknr
  mutex : ∀ y, (c'.buf y).bMutex = (c.buf y).bMutex
  dwrite : ∀ y, (c'.buf y).dwrite = (c.buf y).dwrite

theorem Requested.linked (hr : Requested c c') (h : c.Linked l rings) : c'.Linked l rings :=
  h.congr hr.ptrs hr.key

theorem requested_of_update {b : Buffer α} (hptrs : c'.ptrs = c.ptrs)
    (hbuf : c'.buf = Function.update c.buf x b)
    (hdev : b.bDev = (c.buf x).bDev) (hblknr : b.bBlknr = (c.buf x).bBlknr)
    (hmutex : b.bMutex = (c.buf x).bMutex) (hdwrite : b.dwrite = (c.buf x).dwrite) :
    Requested c c' := by
  have hall : ∀ y, (c'.buf y).bDev = (c.buf y).bDev ∧ (c'.buf y).bBlknr = (c.buf y).bBlknr ∧
      (c'.buf y).bMutex = (c.buf y).bMutex ∧ (c'.buf y).dwrite = (c.buf y).dwrite := by
    intro y
    rw [hbuf]
    by_cases hy : y = x
    · rw [hy, Function.update_self]
      exact ⟨hdev, hblknr, hmutex, hdwrite⟩
    · rw [Function.update_of_ne hy]
      exact ⟨rfl, rfl, rfl, rfl⟩
  exact ⟨hptrs, fun y => ⟨(hall y).1, (hall y).2.1⟩, fun y => (hall y).2.2.1,
    fun y => (hall y).2.2.2⟩

theorem blkDevio_requested {rw : Rw} {r : Cache α × Bool}
    (h : c.blkDevio env x rw = .ok r) : Requested c r.1 := by
  unfold blkDevio at h
  split at h
  next =>
    unfold hddevPhysio at h
    split at h
    next =>
      obtain rfl := Except.ok.inj h
      exact requested_of_update (x := x) rfl rfl rfl rfl rfl rfl
    next =>
      split at h
      next =>
        obtain rfl := Except.ok.inj h
        exact requested_of_update (x := x) rfl rfl rfl rfl rfl rfl
      next =>
        split at h
        next => cases h
        next data hdata =>
          obtain rfl := Except.ok.inj h
          cases rw with
          | read => exact requested_of_update (x := x) rfl rfl rfl rfl rfl rfl
          | write => exact requested_of_update (x := x) rfl rfl rfl rfl rfl rfl
  next =>
    split at h
    next =>
      obtain rfl := Except.ok.inj h
      exact requested_of_update (x := x) rfl rfl rfl rfl rfl rfl
    next => cases h

/-- A request for a disk block succeeds when the drive does. -/
theorem blkDevio_succeeds {rw : Rw} {r : Cache α × Bool}
    (h : c.blkDevio env x rw = .ok r) (hmajor : devMajor (c.buf x).bDev = hdDev)
    (hdrive : env.driveRw c.clock = true) : r.2 = true := by
  unfold blkDevio at h
  rw [if_pos hmajor] at h
  unfold hddevPhysio at h
  rw [if_neg (by simp [hdrive])] at h
  split at h
  next =>
    obtain rfl := Except.ok.inj h
    rfl
  next =>
    split at h
    next => cases h
    next =>
      obtain rfl := Except.ok.inj h
      rfl

/-! ## The initial lists -/

theorem bufferInit_linked (heap : Fin nrEntries → Buffer α) (disk : ℕ → ℕ → α) :
    (bufferInit heap disk).Linked allEntries (fun _ => []) where
  toHashed := Pointers.init_hashed fun _ => rfl
  free := Pointers.init_freeRing
  off := Pointers.init_off

end Cache

end Yak.BufferCache
