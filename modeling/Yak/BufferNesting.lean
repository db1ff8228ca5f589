import Yak.BufferInvariant

/-!
# Nested acquisitions of buffers

One process gets and releases buffers, the last one first.  `mutex_lock` lets the owner of a
buffer in again but keeps no count, and `brelse` frees the buffer whatever the number of
acquisitions was.
-/

namespace Yak.BufferCache

open Yak.Cache LinkedRing

variable {α : Type}

/-- A buffer which `getblk` has returned, and the block it was asked for. -/
structure Hold where
  bp : Node
  dev : ℕ
  blknr : ℕ

/-- The cache and what process `current` holds, the last acquisition first. -/
structure Nest (α : Type) where
  cache : Cache α
  holds : List Hold

/-- The calls of the process.  `modify` changes the data of a buffer which it holds. -/
inductive NestOp (α : Type) where
  | getblk (dev blknr : ℕ)
  | bread (dev blknr : ℕ)
  | modify (x : Node) (data : α)
  | brelse

namespace Nest

def step (env : Env α) (current : ℕ) (s : Nest α) : NestOp α → Except Halt (Nest α)
  | .getblk dev blknr => do
      let (bp, c) ← s.cache.getblk env current dev blknr
      .ok ⟨c, ⟨bp, dev, blknr⟩ :: s.holds⟩
  | .bread dev blknr => do
      let (r, c) ← s.cache.bread env current dev blknr
      .ok ⟨c, match r with
        | some bp => ⟨bp, dev, blknr⟩ :: s.holds
        | none => s.holds⟩
  | .modify x data =>
      .ok { s with
        cache := s.cache.modify x fun b => { b with bData := some data, dwrite := true } }
  | .brelse =>
      match s.holds with
      | [] => .ok s
      | h :: hs => do
          let c ← s.cache.brelse h.bp
          .ok ⟨c, hs⟩

/-- The walk from the dummy along `b_next_free` comes by. -/
def OnFreeList (c : Cache α) (x : Node) : Prop :=
  Relation.TransGen (fun a b => c.ptrs.free.next a = some b) .freeList x

/-- The buffer is off the free list, locked by the process, and holds its block. -/
def IsHeld (current : ℕ) (c : Cache α) (h : Hold) : Prop :=
  ¬OnFreeList c h.bp ∧ (c.buf h.bp).bMutex = taken current ∧ c.Carries h.bp h.dev h.blknr

/-- Every buffer which has been got and not yet released is held. -/
def AllHeld (current : ℕ) (s : Nest α) : Prop := ∀ h ∈ s.holds, IsHeld current s.cache h

/-- So it is all along the run, as far as it goes. -/
def HeldRun (env : Env α) (current : ℕ) (s : Nest α) : List (NestOp α) → Prop
  | [] => s.AllHeld current
  | op :: ops => s.AllHeld current ∧
      ∀ s', s.step env current op = .ok s' → s'.HeldRun env current ops

/-- The buffer to be released has not been got a second time. -/
def SafeStep (s : Nest α) : NestOp α → Prop
  | .brelse => ∀ h hs, s.holds = h :: hs → ∀ h' ∈ hs, h'.bp ≠ h.bp
  | _ => True

/-- Each step which comes back has met its condition. -/
def SafeRun (env : Env α) (current : ℕ) (s : Nest α) : List (NestOp α) → Prop
  | [] => True
  | op :: ops => ∀ s', s.step env current op = .ok s' →
      s.SafeStep op ∧ s'.SafeRun env current ops

end Nest

/-! ## The free list by itself -/

namespace Cache

/-- The free list has been taken apart: the dummy itself was handed out. -/
def Emptied (c : Cache α) : Prop := ∀ x, c.ptrs.free.next x = none ∧ c.ptrs.free.prev x = none

/-- The pointers of the hash queues are at buffers of the array. -/
structure InArray (P : Pointers) : Prop where
  queues : ∀ q x, P.queues q = some x → ∃ i, x = Node.entry i
  next : ∀ y x, P.hash.next y = some x → ∃ i, x = Node.entry i

variable {c c' : Cache α} {l : List Node} {x y : Node} {env : Env α} {current dev blknr : ℕ}

theorem Listed.onFreeList (h : c.Listed l) (hx : Nest.OnFreeList c x) : x ∈ Node.freeList :: l := by
  have hsucc : ∀ a ∈ Node.freeList :: l, ∀ b, c.ptrs.free.next a = some b →
      b ∈ Node.freeList :: l := by
    intro a ha b hb
    rcases List.mem_cons.mp ha with rfl | ha
    · rw [h.free.next_freeList, Option.some.injEq] at hb
      rw [← hb]
      cases l with
      | nil => exact List.mem_cons_self
      | cons a l => exact List.mem_cons_of_mem _ List.mem_cons_self
    · obtain ⟨_, b', _, hb', _, hmem⟩ := h.free.links_of_mem ha
      rw [hb', Option.some.injEq] at hb
      exact hb ▸ hmem
  induction hx with
  | single hb => exact hsucc _ List.mem_cons_self _ hb
  | tail _ hb ih => exact hsucc _ ih _ hb

theorem Emptied.not_onFreeList (h : c.Emptied) : ¬Nest.OnFreeList c x := by
  intro hx
  obtain ⟨y, -, hy⟩ := Relation.TransGen.tail'_iff.mp hx
  rw [(h y).1] at hy
  cases hy

theorem Listed.of_removeFromFreeList (h : c.Listed l) (hx : x ≠ .freeList)
    (hrun : c.removeFromFreeList x = .ok c') : c'.Listed (l.erase x) ∧ Relisted c c' := by
  obtain ⟨c₁, hrun₁, hlisted, hsame, -⟩ := h.removeFromFreeList hx
  rw [hrun₁] at hrun
  obtain rfl := Except.ok.inj hrun
  exact ⟨hlisted, hsame⟩

theorem Emptied.removeFromFreeList (h : c.Emptied) (hrun : c.removeFromFreeList x = .ok c') :
    c' = c := by
  unfold Cache.removeFromFreeList at hrun
  rw [Pointers.removeFromFreeList_of_off true _ (h x).1 (h x).2, ok_bind] at hrun
  exact (Except.ok.inj hrun).symm

/-- With an empty free list `getblk` takes the dummy. -/
theorem Listed.removeDummy (h : c.Listed []) (hrun : c.removeFromFreeList .freeList = .ok c') :
    c'.Emptied ∧ Relisted c c' := by
  have hnext : c.ptrs.free.next .freeList = some .freeList := h.free.next_freeList
  have hprev : c.ptrs.free.prev .freeList = some .freeList := by
    rcases h.free.tail with hs | ⟨-, hne⟩
    · exact hs
    · exact (hne rfl).elim
  unfold Cache.removeFromFreeList Pointers.removeFromFreeList at hrun
  rw [hprev, hnext] at hrun
  dsimp only at hrun
  rw [if_neg (by simp), if_pos rfl, ok_bind] at hrun
  obtain rfl := Except.ok.inj hrun
  refine ⟨?_, ⟨rfl, rfl, rfl⟩, rfl, rfl⟩
  intro y
  by_cases hy : y = .freeList
  · simp [hy, Links.clear]
  · have hoff := h.off y (by simp [hy])
    simp [Links.clear, Links.join, hy, hoff.1, hoff.2]

theorem Listed.of_putIntoFreeList (h : c.Listed l) (hx : x ∉ l) (hentry : ∃ i, x = Node.entry i)
    (hrun : c.putIntoFreeList x = .ok c') :
    ∃ l', c'.Listed l' ∧ Relisted c c' ∧ ∀ y, y ∈ l' ↔ y = x ∨ y ∈ l := by
  rcases h.putIntoFreeList hx hentry with ⟨hrun₁, -⟩ | ⟨c₁, l', hrun₁, hlisted, hsame, hmem, -⟩
  · rw [hrun₁] at hrun
    cases hrun
  · rw [hrun₁] at hrun
    obtain rfl := Except.ok.inj hrun
    exact ⟨l', hlisted, hsame, hmem⟩

/-- Nothing can be put back on a list which is no more. -/
theorem Emptied.putIntoFreeList (h : c.Emptied) : c.putIntoFreeList x ≠ .ok c' := by
  unfold Cache.putIntoFreeList
  split
  next =>
    have hnull : c.ptrs.putLast x = .error .nullDeref := by
      unfold Pointers.putLast
      dsimp only
      rw [Links.setNext_prev, Links.setPrev_prev, (h .freeList).2, ite_self]
    rw [hnull]
    nofun
  next =>
    have hnull : c.ptrs.putFirst x = .error .nullDeref := by
      unfold Pointers.putFirst
      dsimp only
      rw [Links.setNext_next, Links.setPrev_next, (h .freeList).1, ite_self]
    rw [hnull]
    nofun

/-! ## The hash queues by themselves -/

theorem InArray.congr {P P' : Pointers} (h : InArray P) (hhash : P'.hash = P.hash)
    (hqueues : P'.queues = P.queues) : InArray P' := by
  constructor
  · rw [hqueues]
    exact h.queues
  · rw [hhash]
    exact h.next

/-- A buffer which is found carries the block, and is one of the array. -/
theorem inHashQueue_spec (hrun : c.inHashQueue dev blknr = .ok (some x)) :
    c.Carries x dev blknr ∧ (InArray c.ptrs → ∃ i, x = Node.entry i) := by
  unfold Cache.inHashQueue Pointers.inHashQueue at hrun
  split at hrun
  next => cases hrun
  next q hq =>
    split at hrun
    next => cases hrun
    next r hsearch =>
      obtain rfl := Except.ok.inj hrun
      obtain ⟨hfound, hx⟩ := Links.search_spec hsearch
      rw [Bool.and_eq_true, decide_eq_true_iff, decide_eq_true_iff] at hfound
      refine ⟨hfound, fun h => ?_⟩
      rcases hx with rfl | ⟨y, hy⟩
      · exact h.queues _ x hq
      · exact h.next y x hy

theorem removeFromHashQueue_spec {P P' : Pointers} {message : String} {q : ℕ}
    (hrun : P.removeFromHashQueue message q x = .ok P') :
    P'.free = P.free ∧ (InArray P → InArray P') := by
  unfold Pointers.removeFromHashQueue at hrun
  split at hrun
  next =>
    obtain rfl := Except.ok.inj hrun
    exact ⟨rfl, id⟩
  next a b _ hb =>
    obtain rfl := Except.ok.inj hrun
    refine ⟨by dsimp only; split <;> rfl, fun h => ?_⟩
    constructor
    · intro q' y hy
      dsimp only at hy
      split at hy
      next =>
        dsimp only at hy
        rw [Function.update_apply] at hy
        split at hy
        next => cases hy
        next => exact h.queues q' y hy
      next => exact h.queues q' y hy
    · intro y z hz
      dsimp only at hz
      rw [Links.clear, Links.setPrev_next, Links.setNext_next] at hz
      split at hz
      next => cases hz
      next =>
        split at hz
        next => exact h.next y z hz
        next =>
          rw [Links.join, Links.setPrev_next, Links.setNext_next] at hz
          split at hz
          next => exact h.next x z (hb.trans hz)
          next => exact h.next y z hz
  next => cases hrun

theorem putIntoHashQueue_spec {P P' : Pointers} {q : ℕ} (hrun : P.putIntoHashQueue q x = .ok P') :
    P'.free = P.free ∧ ((∃ i, x = Node.entry i) → InArray P → InArray P') := by
  unfold Pointers.putIntoHashQueue at hrun
  split at hrun
  next =>
    obtain rfl := Except.ok.inj hrun
    refine ⟨rfl, fun hx h => ⟨?_, ?_⟩⟩
    · intro q' y hy
      dsimp only at hy
      rw [Function.update_apply] at hy
      split at hy
      next => exact Option.some.inj hy ▸ hx
      next => exact h.queues q' y hy
    · intro y z hz
      dsimp only at hz
      rw [Links.single, Links.setPrev_next, Links.setNext_next] at hz
      split at hz
      next => exact Option.some.inj hz ▸ hx
      next => exact h.next y z hz
  next a ha =>
    split at hrun
    next => cases hrun
    next t _ =>
      obtain rfl := Except.ok.inj hrun
      refine ⟨rfl, fun hx h => ⟨h.queues, ?_⟩⟩
      intro y z hz
      dsimp only at hz
      rw [Links.insert, Links.setPrev_next, Links.setNext_next, Links.setPrev_next,
        Links.setNext_next] at hz
      split at hz
      next => exact h.queues q z (ha.trans hz)
      next =>
        split at hz
        next => exact Option.some.inj hz ▸ hx
        next => exact h.next y z hz

/-- What moving a buffer to another queue leaves of the cache. -/
theorem rehash_spec {c₁ : Cache α} (hremove : c.removeFromHashQueue x = .ok c₁)
    (hput : c₁.putIntoHashQueue x = .ok c') :
    c'.buf = c.buf ∧ c'.ptrs.free = c.ptrs.free ∧
      ((∃ i, x = Node.entry i) → InArray c.ptrs → InArray c'.ptrs) := by
  obtain ⟨P, hP, hc₁⟩ := bind_eq_ok.mp hremove
  obtain ⟨P', hP', hc'⟩ := bind_eq_ok.mp hput
  obtain rfl := Except.ok.inj hc₁
  obtain rfl := Except.ok.inj hc'
  obtain ⟨hfree, harray⟩ := removeFromHashQueue_spec hP
  obtain ⟨hfree', harray'⟩ := putIntoHashQueue_spec hP'
  exact ⟨rfl, hfree'.trans hfree, fun hx h => harray' hx (harray h)⟩

end Cache

/-! ## What holds of a nest -/

open Cache

variable {c c' : Cache α} {l : List Node} {x y : Node} {env : Env α} {current dev blknr : ℕ}
variable {hs : List Hold}

/-- The holds as to mutexes and keys. -/
def Locked (current : ℕ) (c : Cache α) (hs : List Hold) : Prop :=
  ∀ h ∈ hs, (c.buf h.bp).bMutex = taken current ∧ c.Carries h.bp h.dev h.blknr

/-- The free list is whole and the holds are off it. -/
structure Intact (current : ℕ) (c : Cache α) (l : List Node) (hs : List Hold) : Prop where
  listed : c.Listed l
  array : InArray c.ptrs
  locked : Locked current c hs
  off : ∀ h ∈ hs, (∃ i, h.bp = Node.entry i) ∧ h.bp ∉ l

/-- The free list is whole, or there is none any more. -/
inductive Kept (current : ℕ) (c : Cache α) (hs : List Hold) : Prop where
  | intact (l : List Node) (h : Intact current c l hs)
  | emptied (hlinks : c.Emptied) (hlocked : Locked current c hs)

theorem Kept.locked (h : Kept current c hs) : Locked current c hs := by
  cases h with
  | intact l h => exact h.locked
  | emptied _ hlocked => exact hlocked

theorem Kept.allHeld (h : Kept current c hs) : Nest.AllHeld current ⟨c, hs⟩ := by
  intro k hk
  refine ⟨?_, h.locked k hk⟩
  cases h with
  | intact l h =>
      intro hon
      obtain ⟨⟨i, hi⟩, hoff⟩ := h.off k hk
      rcases List.mem_cons.mp (h.listed.onFreeList hon) with heq | hmem
      · rw [hi] at heq
        cases heq
      · exact hoff hmem
  | emptied hlinks _ => exact hlinks.not_onFreeList

/-- Buffers may change, but neither the links nor a mutex or key which counts. -/
theorem Locked.congr (h : Locked current c hs)
    (hmutex : ∀ y, (c'.buf y).bMutex = (c.buf y).bMutex)
    (hkey : ∀ y, (c'.buf y).bDev = (c.buf y).bDev ∧ (c'.buf y).bBlknr = (c.buf y).bBlknr) :
    Locked current c' hs := by
  intro k hk
  obtain ⟨hk₁, hk₂, hk₃⟩ := h k hk
  exact ⟨(hmutex _).trans hk₁, (hkey _).1.trans hk₂, (hkey _).2.trans hk₃⟩

theorem Intact.congr (h : Intact current c l hs) (hptrs : c'.ptrs = c.ptrs)
    (hmutex : ∀ y, (c'.buf y).bMutex = (c.buf y).bMutex)
    (hkey : ∀ y, (c'.buf y).bDev = (c.buf y).bDev ∧ (c'.buf y).bBlknr = (c.buf y).bBlknr) :
    Intact current c' l hs where
  listed := h.listed.congr (by rw [hptrs])
  array := by
    rw [hptrs]
    exact h.array
  locked := h.locked.congr hmutex hkey
  off := h.off

theorem Kept.congr (h : Kept current c hs) (hptrs : c'.ptrs = c.ptrs)
    (hmutex : ∀ y, (c'.buf y).bMutex = (c.buf y).bMutex)
    (hkey : ∀ y, (c'.buf y).bDev = (c.buf y).bDev ∧ (c'.buf y).bBlknr = (c.buf y).bBlknr) :
    Kept current c' hs := by
  cases h with
  | intact l h => exact .intact l (h.congr hptrs hmutex hkey)
  | emptied hlinks hlocked =>
      refine .emptied ?_ (hlocked.congr hmutex hkey)
      unfold Emptied
      rw [hptrs]
      exact hlinks

theorem Kept.requested (h : Kept current c hs) (hr : Requested c c') : Kept current c' hs :=
  h.congr hr.ptrs hr.mutex hr.key

theorem Kept.dirty (h : Kept current c hs) (x : Node) (data : α) :
    Kept current (c.modify x fun b => { b with bData := some data, dwrite := true }) hs := by
  have hall : ∀ y, ((c.modify x fun b => { b with bData := some data, dwrite := true }).buf y).bMutex =
        (c.buf y).bMutex ∧
      ((c.modify x fun b => { b with bData := some data, dwrite := true }).buf y).bDev =
        (c.buf y).bDev ∧
      ((c.modify x fun b => { b with bData := some data, dwrite := true }).buf y).bBlknr =
        (c.buf y).bBlknr := by
    intro y
    by_cases hy : y = x
    · rw [hy, modify_buf_self]
      exact ⟨rfl, rfl, rfl⟩
    · rw [modify_buf_of_ne c _ hy]
      exact ⟨rfl, rfl, rfl⟩
  exact h.congr rfl (fun y => (hall y).1) fun y => (hall y).2

/-! ## Releasing -/

theorem Locked.unlock (h : Locked current c hs) (hx : ∀ k ∈ hs, k.bp ≠ x) (hbuf : c'.buf = c.buf) :
    Locked current (c'.modify x fun b => { b with bMutex := mutexUnlock }) hs := by
  intro k hk
  unfold Carries
  rw [modify_buf_of_ne c' _ (hx k hk), hbuf]
  exact h k hk

theorem Intact.brelse (h : Intact current c l hs) (hx : x ∉ l) (hentry : ∃ i, x = Node.entry i)
    (hfree : ∀ k ∈ hs, k.bp ≠ x) (hrun : c.brelse x = .ok c') :
    ∃ l', Intact current c' l' hs := by
  unfold Cache.brelse at hrun
  split at hrun
  next => exact ⟨l, Except.ok.inj hrun ▸ h⟩
  next =>
    obtain ⟨c₁, hput, hunlock⟩ := bind_eq_ok.mp hrun
    obtain rfl := Except.ok.inj hunlock
    obtain ⟨l', hlisted, hsame, hmem⟩ := h.listed.of_putIntoFreeList hx hentry hput
    refine ⟨l', hlisted.congr rfl, h.array.congr hsame.hash hsame.queues,
      h.locked.unlock hfree hsame.buf, fun k hk => ⟨(h.off k hk).1, ?_⟩⟩
    rw [hmem]
    exact not_or.mpr ⟨hfree k hk, (h.off k hk).2⟩

/-- A release of a buffer which is locked does not come back without a free list. -/
theorem brelse_emptied (hlinks : c.Emptied) (hlock : (c.buf x).bMutex.lock = true) :
    c.brelse x ≠ .ok c' := by
  unfold Cache.brelse
  rw [if_neg (by rw [hlock]; nofun)]
  intro hrun
  obtain ⟨c₁, hput, -⟩ := bind_eq_ok.mp hrun
  exact hlinks.putIntoFreeList hput

/-- A release of a hold whose buffer is not held otherwise. -/
theorem Kept.brelse {k : Hold} (h : Kept current c (k :: hs)) (hfree : ∀ k' ∈ hs, k'.bp ≠ k.bp)
    (hrun : c.brelse k.bp = .ok c') : Kept current c' hs := by
  have hlocked := (h.locked k List.mem_cons_self).1
  cases h with
  | intact l h =>
      obtain ⟨hentry, hoff⟩ := h.off k List.mem_cons_self
      have htail : Intact current c l hs :=
        ⟨h.listed, h.array, fun k' hk' => h.locked k' (List.mem_cons_of_mem _ hk'),
          fun k' hk' => h.off k' (List.mem_cons_of_mem _ hk')⟩
      obtain ⟨l', h'⟩ := htail.brelse hoff hentry hfree hrun
      exact .intact l' h'
  | emptied hlinks _ =>
      refine (brelse_emptied hlinks ?_ hrun).elim
      rw [hlocked]
      rfl

/-- A release frees the buffer, whoever else holds it. -/
theorem brelse_unlocks (hlock : (c.buf x).bMutex.lock = true) (hrun : c.brelse x = .ok c') :
    (c'.buf x).bMutex = mutexUnlock := by
  unfold Cache.brelse at hrun
  rw [if_neg (by rw [hlock]; nofun)] at hrun
  obtain ⟨c₁, -, hunlock⟩ := bind_eq_ok.mp hrun
  obtain rfl := Except.ok.inj hunlock
  rw [modify_buf_self]

/-! ## Getting -/

/-- The buffer is locked and carries the block, so that it can be held. -/
theorem Locked.push (h : Locked current c hs) (hmutex : (c.buf x).bMutex = taken current)
    (hkey : c.Carries x dev blknr) : Locked current c (⟨x, dev, blknr⟩ :: hs) := by
  intro k hk
  rcases List.mem_cons.mp hk with rfl | hk
  · exact ⟨hmutex, hkey⟩
  · exact h k hk

theorem Locked.lock (h : Locked current c hs) (hbuf :
    c'.buf = (c.modify x fun b => { b with bMutex := taken current }).buf)
    (hkey : c.Carries x dev blknr) : Locked current c' (⟨x, dev, blknr⟩ :: hs) := by
  have hother : ∀ y, (c'.buf y).bDev = (c.buf y).bDev ∧ (c'.buf y).bBlknr = (c.buf y).bBlknr := by
    intro y
    rw [hbuf]
    by_cases hy : y = x
    · rw [hy, modify_buf_self]
      exact ⟨rfl, rfl⟩
    · rw [modify_buf_of_ne c _ hy]
      exact ⟨rfl, rfl⟩
  have hself : (c'.buf x).bMutex = taken current := by rw [hbuf, modify_buf_self]
  have hkeep : Locked current c' hs := by
    intro k hk
    obtain ⟨hmutex, hdev, hblknr⟩ := h k hk
    refine ⟨?_, (hother _).1.trans hdev, (hother _).2.trans hblknr⟩
    by_cases hkx : k.bp = x
    · rw [hkx]
      exact hself
    · rw [hbuf, modify_buf_of_ne c _ hkx]
      exact hmutex
  exact hkeep.push hself ⟨(hother x).1.trans hkey.1, (hother x).2.trans hkey.2⟩

theorem lockFound_ok {r : Node × Cache α} (hrun : c.lockFound current x = .ok r) :
    r.1 = x ∧ (c.modify x fun b => { b with bMutex := taken current }).removeFromFreeList x =
      .ok r.2 := by
  unfold Cache.lockFound at hrun
  split at hrun
  next => cases hrun
  next husable =>
    rw [Bool.not_eq_true] at husable
    rw [mutexLock_of_usable (mutexLocked_eq_false.mp husable), ok_bind] at hrun
    obtain ⟨c₁, hremove, hr⟩ := bind_eq_ok.mp hrun
    obtain rfl := Except.ok.inj hr
    exact ⟨rfl, hremove⟩

theorem Kept.lockFound {r : Node × Cache α} (h : Kept current c hs)
    (hfound : c.inHashQueue dev blknr = .ok (some x)) (hrun : c.lockFound current x = .ok r) :
    Kept current r.2 (⟨r.1, dev, blknr⟩ :: hs) := by
  obtain ⟨hkey, hentry⟩ := inHashQueue_spec hfound
  obtain ⟨hr, hremove⟩ := lockFound_ok hrun
  rw [hr]
  cases h with
  | intact l h =>
      obtain ⟨i, rfl⟩ := hentry h.array
      have hlisted : (c.modify (.entry i) fun b => { b with bMutex := taken current }).Listed l :=
        h.listed.congr rfl
      obtain ⟨hlisted', hsame⟩ := hlisted.of_removeFromFreeList (x := .entry i) nofun hremove
      refine .intact (l.erase (.entry i)) ⟨hlisted', h.array.congr hsame.hash hsame.queues,
        h.locked.lock hsame.buf hkey, fun k hk => ?_⟩
      rcases List.mem_cons.mp hk with rfl | hk
      · exact ⟨⟨i, rfl⟩, h.listed.free.nodup.not_mem_erase⟩
      · exact ⟨(h.off k hk).1, fun hmem => (h.off k hk).2 (List.mem_of_mem_erase hmem)⟩
  | emptied hlinks hlocked =>
      have hlinks' : (c.modify x fun b => { b with bMutex := taken current }).Emptied := hlinks
      have heq := hlinks'.removeFromFreeList hremove
      refine .emptied (heq ▸ hlinks') (hlocked.lock ?_ hkey)
      rw [heq]

theorem Locked.rekey (h : Locked current c hs) (hx : ∀ k ∈ hs, k.bp ≠ x)
    (hbuf : c'.buf = (c.rekey env (taken current) dev blknr x).buf) :
    Locked current c' (⟨x, dev, blknr⟩ :: hs) := by
  have hkeep : Locked current c' hs := by
    intro k hk
    unfold Carries
    rw [hbuf, rekey_buf_of_ne c env _ dev blknr (hx k hk)]
    exact h k hk
  have hcarries := c.rekey_carries env (taken current) dev blknr x
  refine hkeep.push ?_ ?_
  · rw [hbuf]
    simp [Cache.rekey, Cache.tick]
  · unfold Carries
    rw [hbuf]
    exact hcarries

theorem recycle_ok {r : Node × Cache α} (hrun : c.recycle env current dev blknr x = .ok r) :
    r.1 = x ∧ r.2.buf = (c.rekey env (taken current) dev blknr x).buf ∧
      r.2.ptrs.free = c.ptrs.free ∧
      ((∃ i, x = Node.entry i) → InArray c.ptrs → InArray r.2.ptrs) := by
  unfold Cache.recycle at hrun
  split at hrun
  next => cases hrun
  next husable =>
    rw [Bool.not_eq_true] at husable
    rw [mutexLock_of_usable (mutexLocked_eq_false.mp husable), ok_bind] at hrun
    obtain ⟨c₁, hremove, hrun⟩ := bind_eq_ok.mp hrun
    obtain ⟨c₂, hput, hr⟩ := bind_eq_ok.mp hrun
    obtain rfl := Except.ok.inj hr
    obtain ⟨hbuf, hfree, harray⟩ := rehash_spec hremove hput
    refine ⟨rfl, hbuf, ?_, ?_⟩
    · rw [hfree, rekey_ptrs]
    · intro hx h
      refine harray hx ?_
      rw [rekey_ptrs]
      exact h

/-- A buffer which is neither held nor on the free list gets a new key. -/
theorem Intact.recycle {r : Node × Cache α} (h : Intact current c l hs) (hx : x ∉ l)
    (hentry : ∃ i, x = Node.entry i) (hfree : ∀ k ∈ hs, k.bp ≠ x)
    (hrun : c.recycle env current dev blknr x = .ok r) :
    Kept current r.2 (⟨r.1, dev, blknr⟩ :: hs) := by
  obtain ⟨hr, hbuf, hlinks, harray⟩ := recycle_ok hrun
  rw [hr]
  refine .intact l ⟨h.listed.congr hlinks, harray hentry h.array, h.locked.rekey hfree hbuf, ?_⟩
  intro k hk
  rcases List.mem_cons.mp hk with rfl | hk
  · exact ⟨hentry, hx⟩
  · exact h.off k hk

/-- So does the dummy. -/
theorem recycle_emptied {r : Node × Cache α} (hlinks : c.Emptied) (hlocked : Locked current c hs)
    (hfree : ∀ k ∈ hs, k.bp ≠ x) (hrun : c.recycle env current dev blknr x = .ok r) :
    Kept current r.2 (⟨r.1, dev, blknr⟩ :: hs) := by
  obtain ⟨hr, hbuf, hsame, -⟩ := recycle_ok hrun
  rw [hr]
  refine .emptied ?_ (hlocked.rekey hfree hbuf)
  unfold Emptied
  rw [hsame]
  exact hlinks

theorem Intact.bwrite (h : Intact current c l hs) (hx : x ∉ l) (hentry : ∃ i, x = Node.entry i)
    (hfree : ∀ k ∈ hs, k.bp ≠ x) (hrun : c.bwrite env x = .ok c') :
    ∃ l', Intact current c' l' hs := by
  obtain ⟨r, hio, hrel⟩ := bind_eq_ok.mp hrun
  have hr := blkDevio_requested hio
  exact (h.congr hr.ptrs hr.mutex hr.key).brelse hx hentry hfree hrel

theorem clean_same (c : Cache α) (x y : Node) :
    ((c.modify x fun b => { b with dwrite := false }).buf y).bMutex = (c.buf y).bMutex ∧
      ((c.modify x fun b => { b with dwrite := false }).buf y).bDev = (c.buf y).bDev ∧
      ((c.modify x fun b => { b with dwrite := false }).buf y).bBlknr = (c.buf y).bBlknr := by
  by_cases hy : y = x
  · rw [hy, modify_buf_self]
    exact ⟨rfl, rfl, rfl⟩
  · rw [modify_buf_of_ne c _ hy]
    exact ⟨rfl, rfl, rfl⟩

/-- Without a free list `getblk` returns cached buffers only. -/
theorem getblkLoop_emptied {fuel : ℕ} {r : Node × Cache α} (hlinks : c.Emptied)
    (hlocked : Locked current c hs)
    (hrun : Cache.getblkLoop env current dev blknr fuel c = .ok r) :
    Kept current r.2 (⟨r.1, dev, blknr⟩ :: hs) := by
  cases fuel with
  | zero => cases hrun
  | succ fuel =>
      unfold Cache.getblkLoop at hrun
      obtain ⟨v, hfound, hrun⟩ := bind_eq_ok.mp hrun
      cases v with
      | some x => exact Kept.lockFound (.emptied hlinks hlocked) hfound hrun
      | none =>
          dsimp only at hrun
          rw [(hlinks .freeList).1] at hrun
          cases hrun

theorem Intact.getblkLoop {fuel : ℕ} {r : Node × Cache α} (h : Intact current c l hs)
    (hrun : Cache.getblkLoop env current dev blknr fuel c = .ok r) :
    Kept current r.2 (⟨r.1, dev, blknr⟩ :: hs) := by
  induction fuel generalizing c l with
  | zero => cases hrun
  | succ fuel ih =>
      unfold Cache.getblkLoop at hrun
      obtain ⟨v, hfound, hrun⟩ := bind_eq_ok.mp hrun
      cases v with
      | some x => exact Kept.lockFound (.intact l h) hfound hrun
      | none =>
          dsimp only at hrun
          rw [h.listed.free.next_freeList] at hrun
          dsimp only at hrun
          obtain ⟨c₁, hremove, hrun⟩ := bind_eq_ok.mp hrun
          cases l with
          | nil =>
              -- the dummy itself is taken
              rw [List.headD_nil] at hremove hrun
              obtain ⟨hlinks, hsame⟩ := h.listed.removeDummy hremove
              have hfree : ∀ k ∈ hs, k.bp ≠ Node.freeList := by
                intro k hk heq
                obtain ⟨⟨i, hi⟩, -⟩ := h.off k hk
                cases hi.symm.trans heq
              have hlocked : Locked current c₁ hs :=
                h.locked.congr (fun y => by rw [hsame.buf]) fun y => by rw [hsame.buf]; exact ⟨rfl, rfl⟩
              split at hrun
              next =>
                obtain ⟨c₂, hwrite, hrun⟩ := bind_eq_ok.mp hrun
                obtain ⟨r₁, hio, hrel⟩ := bind_eq_ok.mp hwrite
                have hr := blkDevio_requested hio
                have hlinks₁ : r₁.1.Emptied := by
                  unfold Emptied
                  rw [hr.ptrs]
                  exact hlinks
                have hlocked₁ : Locked current r₁.1 hs :=
                  (hlocked.congr (fun y => (clean_same c₁ _ y).1)
                    fun y => (clean_same c₁ _ y).2).congr hr.mutex hr.key
                cases hlock : (r₁.1.buf .freeList).bMutex.lock with
                | true => exact (brelse_emptied hlinks₁ hlock hrel).elim
                | false =>
                    unfold Cache.brelse at hrel
                    rw [if_pos hlock] at hrel
                    obtain rfl := Except.ok.inj hrel
                    exact getblkLoop_emptied hlinks₁ hlocked₁ hrun
              next => exact recycle_emptied hlinks hlocked hfree hrun
          | cons x l =>
              rw [List.headD_cons] at hremove hrun
              have hentry := h.listed.free.entries x List.mem_cons_self
              have hne : x ≠ .freeList := by
                obtain ⟨i, rfl⟩ := hentry
                exact Node.noConfusion
              have hfree : ∀ k ∈ hs, k.bp ≠ x := by
                intro k hk heq
                exact (h.off k hk).2 (heq ▸ List.mem_cons_self)
              have hnodup := h.listed.free.nodup
              obtain ⟨hlisted, hsame⟩ := h.listed.of_removeFromFreeList hne hremove
              rw [List.erase_cons_head] at hlisted
              have h₁ : Intact current c₁ l hs := by
                refine ⟨hlisted, h.array.congr hsame.hash hsame.queues, ?_, fun k hk => ?_⟩
                · exact h.locked.congr (fun y => by rw [hsame.buf])
                    fun y => by rw [hsame.buf]; exact ⟨rfl, rfl⟩
                · exact ⟨(h.off k hk).1, fun hmem => (h.off k hk).2 (List.mem_cons_of_mem _ hmem)⟩
              have hx : x ∉ l := (List.nodup_cons.mp hnodup).1
              split at hrun
              next =>
                obtain ⟨c₂, hwrite, hrun⟩ := bind_eq_ok.mp hrun
                have h₂ : Intact current (c₁.modify x fun b => { b with dwrite := false }) l hs :=
                  h₁.congr rfl (fun y => (clean_same c₁ x y).1) fun y => (clean_same c₁ x y).2
                obtain ⟨l', h₃⟩ := h₂.bwrite hx hentry hfree hwrite
                exact ih h₃ hrun
              next => exact h₁.recycle hx hentry hfree hrun

theorem Kept.getblk {r : Node × Cache α} (h : Kept current c hs)
    (hrun : c.getblk env current dev blknr = .ok r) :
    Kept current r.2 (⟨r.1, dev, blknr⟩ :: hs) := by
  cases h with
  | intact l h => exact h.getblkLoop hrun
  | emptied hlinks hlocked => exact getblkLoop_emptied hlinks hlocked hrun

theorem Kept.tail {k : Hold} (h : Kept current c (k :: hs)) : Kept current c hs := by
  cases h with
  | intact l h =>
      exact .intact l ⟨h.listed, h.array, fun k' hk' => h.locked k' (List.mem_cons_of_mem _ hk'),
        fun k' hk' => h.off k' (List.mem_cons_of_mem _ hk')⟩
  | emptied hlinks hlocked =>
      exact .emptied hlinks fun k' hk' => hlocked k' (List.mem_cons_of_mem _ hk')

/-! ## Runs -/

namespace Nest

variable {s s' : Nest α} {op : NestOp α} {ops : List (NestOp α)}

theorem step_kept (h : Kept current s.cache s.holds) (hsafe : s.SafeStep op)
    (hstep : s.step env current op = .ok s') : Kept current s'.cache s'.holds := by
  unfold step at hstep
  cases op with
  | getblk dev blknr =>
      obtain ⟨r, hget, hs'⟩ := bind_eq_ok.mp hstep
      obtain rfl := Except.ok.inj hs'
      exact h.getblk hget
  | bread dev blknr =>
      obtain ⟨r, hread, hs'⟩ := bind_eq_ok.mp hstep
      obtain rfl := Except.ok.inj hs'
      obtain ⟨r₁, hget, hread⟩ := bind_eq_ok.mp hread
      have h₁ := h.getblk hget
      dsimp only at hread
      split at hread
      next =>
        obtain rfl := Except.ok.inj hread
        exact h₁
      next =>
        obtain ⟨r₂, hio, hread⟩ := bind_eq_ok.mp hread
        obtain rfl := Except.ok.inj hread
        have h₂ := h₁.requested (blkDevio_requested hio)
        dsimp only
        cases r₂.2 with
        | true => exact h₂
        | false => exact h₂.tail
  | modify x data =>
      obtain rfl := Except.ok.inj hstep
      exact h.dirty x data
  | brelse =>
      dsimp only at hstep
      split at hstep
      next hnil =>
        obtain rfl := Except.ok.inj hstep
        exact h
      next k hs hholds =>
        obtain ⟨c, hrel, hs'⟩ := bind_eq_ok.mp hstep
        obtain rfl := Except.ok.inj hs'
        rw [hholds] at h
        exact h.brelse (hsafe k hs hholds) hrel

/-- After the release of a buffer which has been got twice it is not held any more. -/
theorem safeStep_of_allHeld (h : s.AllHeld current) (hstep : s.step env current op = .ok s')
    (hafter : s'.AllHeld current) : s.SafeStep op := by
  cases op with
  | brelse =>
      intro k hs hholds k' hk' heq
      unfold step at hstep
      dsimp only at hstep
      rw [hholds] at hstep
      obtain ⟨c, hrel, hs'⟩ := bind_eq_ok.mp hstep
      obtain rfl := Except.ok.inj hs'
      have hlocked := (h k (hholds ▸ List.mem_cons_self)).2.1
      have hfreed := brelse_unlocks (by rw [hlocked]; rfl) hrel
      have hstill := (hafter k' hk').2.1
      rw [heq] at hstill
      cases hstill.symm.trans hfreed
  | _ => trivial

theorem HeldRun.allHeld (h : s.HeldRun env current ops) : s.AllHeld current := by
  cases ops with
  | nil => exact h
  | cons op ops => exact h.1

theorem heldRun_iff_of_kept (h : Kept current s.cache s.holds) :
    s.HeldRun env current ops ↔ s.SafeRun env current ops := by
  induction ops generalizing s with
  | nil => exact iff_of_true h.allHeld trivial
  | cons op ops ih =>
      constructor
      · rintro ⟨hheld, hrun⟩ s' hstep
        have hrest := hrun s' hstep
        have hsafe := safeStep_of_allHeld hheld hstep hrest.allHeld
        exact ⟨hsafe, (ih (step_kept h hsafe hstep)).mp hrest⟩
      · intro hsafe
        refine ⟨h.allHeld, fun s' hstep => ?_⟩
        obtain ⟨hsafe₁, hrest⟩ := hsafe s' hstep
        exact (ih (step_kept h hsafe₁ hstep)).mpr hrest

/-- From a cache whose free list is whole, every buffer stays held until its own release exactly
if no release is of a buffer which has been got a second time. -/
theorem heldRun_iff (env : Env α) (current : ℕ) (c : Cache α) (l : List Node)
    (ops : List (NestOp α)) (hlisted : c.Listed l) (harray : InArray c.ptrs) :
    (⟨c, []⟩ : Nest α).HeldRun env current ops ↔ (⟨c, []⟩ : Nest α).SafeRun env current ops :=
  heldRun_iff_of_kept (.intact l ⟨hlisted, harray, nofun, nofun⟩)

theorem bufferInit_inArray (heap : Fin nrEntries → Buffer α) (disk : ℕ → ℕ → α) :
    InArray (Cache.bufferInit heap disk).ptrs := ⟨nofun, nofun⟩

/-- A block is got and changed, and released before it is got again. -/
theorem heldRun_iff_once :
    (⟨Cache.bufferInit (fun _ => Cache.zeroBuffer) fun _ n => n, []⟩ : Nest ℕ).HeldRun
      ⟨fun _ => 1024, fun _ => true, fun _ => 0⟩ 1
      [.getblk 0x300 5, .modify (.entry ⟨0, by decide⟩) 7, .brelse, .getblk 0x300 5] := by
  refine (heldRun_iff _ 1 _ allEntries _ (Cache.bufferInit_linked _ _).listed
    (bufferInit_inArray _ _)).mpr ?_
  intro s₁ h₁
  obtain ⟨r, -, hr⟩ := bind_eq_ok.mp h₁
  obtain rfl := Except.ok.inj hr
  refine ⟨trivial, fun s₂ h₂ => ⟨trivial, fun s₃ h₃ => ⟨?_, fun s₄ h₄ => ⟨trivial, trivial⟩⟩⟩⟩
  obtain rfl := Except.ok.inj h₂
  intro k hs hholds k' hk'
  cases hholds
  cases hk'

theorem HeldRun.last (h : s.HeldRun env current ops)
    (hrun : ops.foldlM (step env current) s = .ok s') : s'.AllHeld current := by
  induction ops generalizing s with
  | nil => exact Except.ok.inj hrun ▸ h
  | cons op ops ih =>
      rw [List.foldlM_cons] at hrun
      obtain ⟨s₁, hstep, hrest⟩ := bind_eq_ok.mp hrun
      exact ih (h.2 s₁ hstep) hrest

/-- Process 1 gets a block twice and releases it once: its first hold is unlocked. -/
theorem not_heldRun_twice :
    ¬∀ (env : Env ℕ) (current : ℕ) (c : Cache ℕ) (l : List Node) (ops : List (NestOp ℕ)),
      c.Listed l → InArray c.ptrs → (⟨c, []⟩ : Nest ℕ).HeldRun env current ops := by
  intro h
  have hheld := h ⟨fun _ => 1024, fun _ => true, fun _ => 0⟩ 1
    (Cache.bufferInit (fun _ => Cache.zeroBuffer) fun _ n => n) allEntries
    [.getblk 0x300 5, .modify (.entry ⟨0, by decide⟩) 7, .getblk 0x300 5, .brelse]
    (Cache.bufferInit_linked _ _).listed (bufferInit_inArray _ _)
  have hfreed : (([.getblk 0x300 5, .modify (.entry ⟨0, by decide⟩) 7, .getblk 0x300 5, .brelse] :
      List (NestOp ℕ)).foldlM (step ⟨fun _ => 1024, fun _ => true, fun _ => 0⟩ 1)
      ⟨Cache.bufferInit (fun _ => Cache.zeroBuffer) fun _ n => n, []⟩).map
        (fun s => s.holds.map fun k => (s.cache.buf k.bp).bMutex) = .ok [mutexUnlock] := by
    decide +kernel
  cases hrun : ([.getblk 0x300 5, .modify (.entry ⟨0, by decide⟩) 7, .getblk 0x300 5, .brelse] :
      List (NestOp ℕ)).foldlM (step ⟨fun _ => 1024, fun _ => true, fun _ => 0⟩ 1)
      ⟨Cache.bufferInit (fun _ => Cache.zeroBuffer) fun _ n => n, []⟩ with
  | error e =>
      rw [hrun] at hfreed
      cases hfreed
  | ok s =>
      rw [hrun] at hfreed
      have hmutex := Except.ok.inj hfreed
      have hlast := hheld.last hrun
      obtain ⟨c, holds⟩ := s
      cases holds with
      | nil => cases hmutex
      | cons k ks =>
          have htaken := (hlast k List.mem_cons_self).2.1
          cases htaken.symm.trans (List.cons.inj hmutex).1

end Nest

end Yak.BufferCache
