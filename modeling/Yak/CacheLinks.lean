import Yak.Halt
import Yak.LinkedRing
import Mathlib.Tactic

/-!
# The pointers of the two caches

The buffer cache and the inode cache thread the same two intrusive lists
through an array of `NR_BUF_BUFFERS` objects: a free list entered through a
dummy object, and one ring for each hash value.  This file has the pointer
operations which both caches use, and what they do to well-formed lists.

Both initialisation loops leave the dummy's `prev_free` one past the end of the
array.  The free list is therefore described by `FreeRing`, which tolerates
that one pointer; `Sound` says that it has been repaired.
-/

namespace Yak.Cache

open LinkedRing

/-- `NR_BUF_BUFFERS`, which is `NR_INODE_CACHE` too. -/
def nrEntries : ℕ := 128

/-- `NR_BUF_HASH`, which is `NR_INODE_HASH` too. -/
def nrHash : ℕ := 100

/-- `BUF_HASH`, which is `INODE_HASH` too. -/
def bufHash (dev num : ℕ) : ℕ := (dev ^^^ num) % nrHash

/-- What a pointer into a cache can point at: the dummy, an object of the
array, or the address behind the array. -/
inductive Node where
  | freeList
  | entry (i : Fin nrEntries)
  | past
  deriving DecidableEq, Repr

/-- The link fields of all objects, and the table of hash queues. -/
structure Pointers where
  free : Links Node
  hash : Links Node
  queues : ℕ → Option Node

namespace Pointers

/-- `remove_from_free_list`.  The buffer cache nulls the links of the object,
the inode cache does not. -/
def removeFromFreeList (clear : Bool) (message : String) (P : Pointers) (x : Node) :
    Except Halt Pointers :=
  match P.free.prev x, P.free.next x with
  | none, none => .ok P
  | some a, some b =>
      if a = .past ∨ b = .past then .error .outOfBounds
      else
        let F := P.free.join a b
        .ok { P with free := if clear then F.clear x else F }
  | _, _ => .error (.panic message)

/-- Putting an object at the end of the free list. -/
def putLast (P : Pointers) (x : Node) : Except Halt Pointers :=
  let F := (P.free.setPrev x (P.free.prev .freeList)).setNext x (some .freeList)
  match F.prev .freeList with
  | none => .error .nullDeref
  | some .past => .error .outOfBounds
  | some t =>
      .ok { P with free := (F.setNext t (some x)).setPrev .freeList (some x) }

/-- Putting an object at the start of the free list. -/
def putFirst (P : Pointers) (x : Node) : Except Halt Pointers :=
  let F := (P.free.setPrev x (some .freeList)).setNext x (P.free.next .freeList)
  match F.next .freeList with
  | none => .error .nullDeref
  | some .past => .error .outOfBounds
  | some h =>
      .ok { P with free := (F.setPrev h (some x)).setNext .freeList (some x) }

/-- `in_hash_queue` on queue `q`, where `found` compares device and number. -/
def inHashQueue (P : Pointers) (q : ℕ) (found : Node → Bool) : Except Halt (Option Node) :=
  match P.queues q with
  | none => .ok none
  | some h =>
      match P.hash.search found h (nrEntries + 1) h with
      | none => .error .badWalk
      | some r => .ok r

/-- `remove_from_hash_queue`, where `q` is the hash of the key which the object
carries at the time of the call. -/
def removeFromHashQueue (message : String) (P : Pointers) (q : ℕ) (x : Node) :
    Except Halt Pointers :=
  match P.hash.prev x, P.hash.next x with
  | none, none => .ok P
  | some a, some b =>
      let P' :=
        if a = x ∧ b = x then { P with queues := Function.update P.queues q none }
        else { P with hash := P.hash.join a b }
      .ok { P' with hash := P'.hash.clear x }
  | _, _ => .error (.panic message)

/-- `put_into_hash_queue`. -/
def putIntoHashQueue (P : Pointers) (q : ℕ) (x : Node) : Except Halt Pointers :=
  match P.queues q with
  | none =>
      .ok { P with queues := Function.update P.queues q (some x), hash := P.hash.single x }
  | some h =>
      match P.hash.walkLast h (nrEntries + 1) h with
      | none => .error .badWalk
      | some t => .ok { P with hash := P.hash.insert t h x }

/-- The pointers after the initialisation loop. -/
def init : Pointers where
  free :=
    { next := fun x =>
        match x with
        | .freeList => some (.entry ⟨0, by decide⟩)
        | .entry i =>
            if h : i.val + 1 < nrEntries then some (.entry ⟨i.val + 1, h⟩) else some .freeList
        | .past => none
      prev := fun x =>
        match x with
        | .freeList => some .past
        | .entry i =>
            if h : 0 < i.val then some (.entry ⟨i.val - 1, by omega⟩) else some .freeList
        | .past => none }
  hash := { next := fun _ => none, prev := fun _ => none }
  queues := fun _ => none

end Pointers

/-! ## The free list -/

/-- The last node of the free list, which is the dummy if it is empty. -/
def lastFree (l : List Node) : Node := (Node.freeList :: l).getLast (List.cons_ne_nil _ _)

/-- The free list holds the objects of `l`, up to the dummy's `prev_free`. -/
structure FreeRing (F : Links Node) (l : List Node) : Prop where
  ring : (F.setPrev .freeList (some (lastFree l))).IsRing (.freeList :: l)
  tail : F.prev .freeList = some (lastFree l) ∨
    (F.prev .freeList = some .past ∧ l ≠ [])
  entries : ∀ x ∈ l, ∃ i, x = .entry i

/-- The dummy's `prev_free` is the inverse of `next_free`. -/
def Sound (F : Links Node) (l : List Node) : Prop := F.prev .freeList = some (lastFree l)

variable {F F' : Links Node} {l l₁ l₂ : List Node} {x : Node}

theorem FreeRing.isRing (h : FreeRing F l) (hs : Sound F l) : F.IsRing (.freeList :: l) := by
  apply h.ring.congr
  · intro a _
    rfl
  · intro a _
    rw [Links.setPrev_prev]
    split
    next ha =>
      rw [ha]
      exact hs
    next => rfl

theorem FreeRing.not_mem (h : FreeRing F l) : Node.freeList ∉ l ∧ Node.past ∉ l := by
  constructor
  · exact (List.nodup_cons.mp h.ring.nodup).1
  · intro hmem
    obtain ⟨i, hi⟩ := h.entries _ hmem
    simp at hi

theorem FreeRing.nodup (h : FreeRing F l) : l.Nodup := (List.nodup_cons.mp h.ring.nodup).2

/-- At most as many distinct objects as the array has. -/
theorem length_le_nrEntries (hnodup : l.Nodup) (hentries : ∀ x ∈ l, ∃ i, x = Node.entry i) :
    l.length ≤ nrEntries := by
  have hsub : l ⊆ (List.finRange nrEntries).map Node.entry := by
    intro x hx
    obtain ⟨i, rfl⟩ := hentries x hx
    simp
  have hle := (hnodup.subperm hsub).length_le
  simpa using hle

theorem FreeRing.congr (h : FreeRing F l)
    (hnext : ∀ a ∈ Node.freeList :: l, F'.next a = F.next a)
    (hprev : ∀ a ∈ Node.freeList :: l, F'.prev a = F.prev a) : FreeRing F' l := by
  constructor
  · apply h.ring.congr
    · intro a ha
      exact hnext a ha
    · intro a ha
      rw [Links.setPrev_prev, Links.setPrev_prev]
      split
      · rfl
      · exact hprev a ha
  · rw [hprev _ List.mem_cons_self]
    exact h.tail
  · exact h.entries

theorem Sound.congr (h : Sound F l) (hprev : F'.prev .freeList = F.prev .freeList) :
    Sound F' l := hprev.trans h

theorem FreeRing.lastFree_mem (l : List Node) : lastFree l ∈ Node.freeList :: l :=
  List.getLast_mem _

theorem FreeRing.lastFree_ne_past (h : FreeRing F l) : lastFree l ≠ .past := by
  intro heq
  have hmem := FreeRing.lastFree_mem l
  rw [heq, List.mem_cons] at hmem
  rcases hmem with hmem | hmem
  · simp at hmem
  · exact h.not_mem.2 hmem

/-- The head of the free list is its first object, or the dummy itself. -/
theorem FreeRing.next_freeList (h : FreeRing F l) :
    F.next .freeList = some (l.headD .freeList) := by
  have hring := h.ring
  cases l with
  | nil => exact (Links.isRing_single.mp hring).1
  | cons a l => exact (Links.isRing_two_cons hring).1

theorem FreeRing.links_of_mem (h : FreeRing F l) (hx : x ∈ l) :
    ∃ a b, F.prev x = some a ∧ F.next x = some b ∧ a ∈ Node.freeList :: l ∧
      b ∈ Node.freeList :: l := by
  obtain ⟨b, a, hb, ha, hbm, ham⟩ := h.ring.links_of_mem (List.mem_cons_of_mem _ hx)
  have hxne : x ≠ .freeList := fun heq => h.not_mem.1 (heq ▸ hx)
  rw [Links.setPrev_prev, if_neg hxne] at ha
  exact ⟨a, b, ha, hb, ham, hbm⟩

theorem FreeRing.join (h : FreeRing F (l₁ ++ x :: l₂)) {a b : Node}
    (ha : F.prev x = some a) (hb : F.next x = some b) :
    FreeRing (F.join a b) (l₁ ++ l₂) ∧
      (Sound F (l₁ ++ x :: l₂) → Sound (F.join a b) (l₁ ++ l₂)) := by
  have hx : x ∈ l₁ ++ x :: l₂ := by simp
  have hxne : x ≠ .freeList := fun heq => h.not_mem.1 (heq ▸ hx)
  have hring := h.ring
  have hfront : (F.setPrev .freeList (some (lastFree (l₁ ++ x :: l₂)))).IsRing
      (x :: (l₂ ++ .freeList :: l₁)) := by
    apply Links.IsRing.toFront
    simpa using hring
  have hpatched : (F.setPrev .freeList (some (lastFree (l₁ ++ x :: l₂)))).prev x = some a := by
    rw [Links.setPrev_prev, if_neg hxne]
    exact ha
  have hjoin := hfront.join (by simp) hb hpatched
  have hrot : ((F.setPrev .freeList (some (lastFree (l₁ ++ x :: l₂)))).join a b).IsRing
      (.freeList :: (l₁ ++ l₂)) := by
    simpa using hjoin.rotate
  -- the dummy's own `prev_free` in the patched ring is the last object
  have hlast := hrot.next_getLast.2
  have hprev : ((F.setPrev .freeList (some (lastFree (l₁ ++ x :: l₂)))).join a b).prev
      .freeList = some (lastFree (l₁ ++ l₂)) := hlast
  have hcase : b = .freeList ∧ a = lastFree (l₁ ++ l₂) ∨
      b ≠ .freeList ∧ lastFree (l₁ ++ x :: l₂) = lastFree (l₁ ++ l₂) := by
    unfold Links.join at hprev
    rw [Links.setPrev_prev] at hprev
    by_cases hbf : b = .freeList
    · rw [if_pos hbf.symm, Option.some.injEq] at hprev
      exact Or.inl ⟨hbf, hprev⟩
    · rw [if_neg fun heq => hbf heq.symm, Links.setNext_prev, Links.setPrev_prev, if_pos rfl,
        Option.some.injEq] at hprev
      exact Or.inr ⟨hbf, hprev⟩
  refine ⟨⟨?_, ?_, ?_⟩, ?_⟩
  · apply hrot.congr
    · intro y _
      rfl
    · intro y _
      rw [Links.setPrev_prev]
      split
      next hy =>
        rw [hy]
        exact hprev.symm
      next hy =>
        unfold Links.join
        rw [Links.setPrev_prev, Links.setPrev_prev, Links.setNext_prev, Links.setNext_prev,
          Links.setPrev_prev, if_neg hy]
  · unfold Links.join
    rw [Links.setPrev_prev]
    rcases hcase with ⟨hbf, hal⟩ | ⟨hbf, hsame⟩
    · rw [if_pos hbf.symm, hal]
      exact Or.inl rfl
    · rw [if_neg fun heq => hbf heq.symm, Links.setNext_prev]
      rcases h.tail with htail | ⟨htail, _⟩
      · rw [htail, hsame]
        exact Or.inl rfl
      · right
        refine ⟨htail, ?_⟩
        intro hnil
        have hboth : l₁ = [] ∧ l₂ = [] := List.append_eq_nil_iff.mp hnil
        rw [hboth.1, hboth.2] at hsame
        exact hxne hsame
  · intro y hy
    apply h.entries
    simp only [List.mem_append, List.mem_cons] at hy ⊢
    tauto
  · intro hs
    unfold Sound at hs ⊢
    unfold Links.join
    rw [Links.setPrev_prev]
    rcases hcase with ⟨hbf, hal⟩ | ⟨hbf, hsame⟩
    · rw [if_pos hbf.symm, hal]
    · rw [if_neg fun heq => hbf heq.symm, Links.setNext_prev, hs, hsame]

theorem FreeRing.clear (h : FreeRing F l) (hx : x ∉ Node.freeList :: l) :
    FreeRing (F.clear x) l ∧ (Sound F l → Sound (F.clear x) l) := by
  have hne : ∀ a ∈ Node.freeList :: l, a ≠ x := fun a ha heq => hx (heq ▸ ha)
  constructor
  · apply h.congr
    · intro a ha
      simp [Links.clear, hne a ha]
    · intro a ha
      simp [Links.clear, hne a ha]
  · intro hs
    apply hs.congr
    simp [Links.clear, hne _ List.mem_cons_self]

theorem FreeRing.insertLast (h : FreeRing F l) (hs : Sound F l)
    (hx : x ∉ Node.freeList :: l) (hentry : ∃ i, x = Node.entry i) :
    FreeRing (F.insert (lastFree l) .freeList x) (l ++ [x]) ∧
      Sound (F.insert (lastFree l) .freeList x) (l ++ [x]) := by
  have hlast : lastFree (l ++ [x]) = x := by
    unfold lastFree
    rw [List.getLast_cons (by simp)]
    simp
  have hring : (F.insert (lastFree l) .freeList x).IsRing (.freeList :: (l ++ [x])) :=
    (h.isRing hs).insert rfl hx
  have hsound : Sound (F.insert (lastFree l) .freeList x) (l ++ [x]) := by
    unfold Sound
    rw [hlast]
    simp [Links.insert]
  refine ⟨⟨?_, Or.inl hsound, ?_⟩, hsound⟩
  · apply hring.congr
    · intro a _
      rfl
    · intro a _
      rw [Links.setPrev_prev]
      split
      next ha =>
        rw [ha]
        exact hsound.symm
      next => rfl
  · intro y hy
    simp only [List.mem_append, List.mem_cons, List.not_mem_nil, or_false] at hy
    rcases hy with hy | rfl
    · exact h.entries y hy
    · exact hentry

theorem FreeRing.insertFirst (h : FreeRing F l) (hx : x ∉ Node.freeList :: l)
    (hentry : ∃ i, x = Node.entry i) :
    FreeRing (F.insert .freeList (l.headD .freeList) x) (x :: l) ∧
      (Sound F l → Sound (F.insert .freeList (l.headD .freeList) x) (x :: l)) := by
  have hxne : x ≠ .freeList := fun heq => hx (heq ▸ List.mem_cons_self)
  have hentries : ∀ y ∈ x :: l, ∃ i, y = Node.entry i := by
    intro y hy
    rcases List.mem_cons.mp hy with rfl | hy
    · exact hentry
    · exact h.entries y hy
  cases l with
  | nil =>
      have hsound : Sound F [] := by
        rcases h.tail with htail | ⟨_, hne⟩
        · exact htail
        · exact (hne rfl).elim
      obtain ⟨hring, hs⟩ := h.insertLast hsound hx hentry
      exact ⟨hring, fun _ => hs⟩
  | cons b l =>
      have hlast : lastFree (x :: b :: l) = lastFree (b :: l) := by
        unfold lastFree
        simp
      have hbne : b ≠ .freeList := fun heq => h.not_mem.1 (heq ▸ List.mem_cons_self)
      have hprev : (F.insert .freeList b x).prev .freeList = F.prev .freeList := by
        simp [Links.insert, hbne.symm, hxne.symm]
      -- turned so that the first object comes first, the dummy is the last node
      have hturn : (F.setPrev .freeList (some (lastFree (b :: l)))).IsRing
          (b :: (l ++ [.freeList])) := by
        have happend : (F.setPrev .freeList (some (lastFree (b :: l)))).IsRing
            ([.freeList] ++ b :: l) := h.ring
        simpa using happend.rotate
      have hins := hturn.insert (t := .freeList) (x := x) (by simp) (by
        simp only [List.mem_cons, List.mem_append, List.not_mem_nil, or_false] at hx ⊢
        tauto)
      have hback : ((F.setPrev .freeList (some (lastFree (b :: l)))).insert .freeList b x).IsRing
          (.freeList :: (x :: b :: l)) := by
        have happend : ((F.setPrev .freeList (some (lastFree (b :: l)))).insert
            .freeList b x).IsRing ((b :: l) ++ [.freeList, x]) := by
          simpa using hins
        simpa using happend.rotate
      refine ⟨⟨?_, ?_, hentries⟩, ?_⟩
      · apply hback.congr
        · intro a _
          rfl
        · intro a _
          rw [hlast]
          by_cases ha : a = .freeList
          · subst ha
            simp [Links.insert, hbne.symm, hxne.symm]
          · simp [Links.insert, ha]
      · rw [List.headD_cons, hprev, hlast]
        rcases h.tail with htail | ⟨htail, _⟩
        · exact Or.inl htail
        · exact Or.inr ⟨htail, by simp⟩
      · intro hs
        unfold Sound at hs ⊢
        rw [List.headD_cons, hprev, hlast]
        exact hs

/-! ## Operations on the free list -/

namespace Pointers

variable {P P' : Pointers}

/-- The operation writes no hash link and no free link outside `l`. -/
structure FreeOnly (P P' : Pointers) (l : List Node) : Prop where
  hash : P'.hash = P.hash
  queues : P'.queues = P.queues
  frame : ∀ y, y ∉ Node.freeList :: l →
    P'.free.next y = P.free.next y ∧ P'.free.prev y = P.free.prev y

theorem removeFromFreeList_of_mem (h : FreeRing P.free l) (hx : x ∈ l) (clear : Bool)
    (message : String) :
    ∃ P', P.removeFromFreeList clear message x = .ok P' ∧
      FreeRing P'.free (l.erase x) ∧ (Sound P.free l → Sound P'.free (l.erase x)) ∧
      FreeOnly P P' l ∧
      (clear = true → P'.free.next x = none ∧ P'.free.prev x = none) := by
  obtain ⟨a, b, ha, hb, ham, hbm⟩ := h.links_of_mem hx
  have hpast : ∀ y ∈ Node.freeList :: l, y ≠ Node.past := by
    intro y hy heq
    rw [heq, List.mem_cons] at hy
    rcases hy with hy | hy
    · simp at hy
    · exact h.not_mem.2 hy
  obtain ⟨l₁, l₂, hl⟩ := List.append_of_mem hx
  have hnodup := h.nodup
  have hxl₁ : x ∉ l₁ := by
    rw [hl] at hnodup
    intro hmem
    exact (List.nodup_append.mp hnodup).2.2 x hmem x List.mem_cons_self rfl
  have herase : l.erase x = l₁ ++ l₂ := by
    rw [hl, List.erase_append_right _ hxl₁, List.erase_cons_head]
  have hring : FreeRing P.free (l₁ ++ x :: l₂) := hl ▸ h
  obtain ⟨hjoin, hsound⟩ := hring.join ha hb
  have hxoff : x ∉ Node.freeList :: (l₁ ++ l₂) := by
    rw [← herase, List.mem_cons, not_or]
    exact ⟨fun heq => h.not_mem.1 (heq ▸ hx), hnodup.not_mem_erase⟩
  obtain ⟨hclear, hsound'⟩ := hjoin.clear hxoff
  have hrun : P.removeFromFreeList clear message x =
      .ok { P with free := if clear then (P.free.join a b).clear x else P.free.join a b } := by
    unfold removeFromFreeList
    rw [ha, hb]
    simp [hpast a ham, hpast b hbm]
  refine ⟨_, hrun, ?_, ?_, ⟨rfl, rfl, ?_⟩, ?_⟩
  · rw [herase]
    cases clear with
    | true => exact hclear
    | false => exact hjoin
  · intro hs
    rw [hl] at hs
    rw [herase]
    cases clear with
    | true => exact hsound' (hsound hs)
    | false => exact hsound hs
  · intro y hy
    have hya : y ≠ a := fun heq => hy (heq ▸ ham)
    have hyb : y ≠ b := fun heq => hy (heq ▸ hbm)
    have hyx : y ≠ x := fun heq => hy (heq ▸ List.mem_cons_of_mem _ hx)
    cases clear with
    | true => simp [Links.clear, Links.join, hya, hyb, hyx]
    | false => simp [Links.join, hya, hyb]
  · intro hc
    simp [hc, Links.clear]

theorem removeFromFreeList_of_off (clear : Bool) (message : String)
    (hnext : P.free.next x = none) (hprev : P.free.prev x = none) :
    P.removeFromFreeList clear message x = .ok P := by
  unfold removeFromFreeList
  rw [hnext, hprev]

theorem putLast_of_sound (h : FreeRing P.free l) (hs : Sound P.free l)
    (hx : x ∉ Node.freeList :: l) (hentry : ∃ i, x = Node.entry i) :
    ∃ P', P.putLast x = .ok P' ∧ FreeRing P'.free (l ++ [x]) ∧ Sound P'.free (l ++ [x]) ∧
      FreeOnly P P' (x :: l) := by
  have hxne : x ≠ .freeList := fun heq => hx (heq ▸ List.mem_cons_self)
  have hlx : lastFree l ≠ x := fun heq => hx (heq ▸ FreeRing.lastFree_mem l)
  have hpast := h.lastFree_ne_past
  obtain ⟨hring, hsound⟩ := h.insertLast hs hx hentry
  have hrun : P.putLast x =
      .ok { P with free := P.free.insert (lastFree l) .freeList x } := by
    unfold putLast
    dsimp only
    rw [Links.setNext_prev, Links.setPrev_prev, if_neg hxne.symm, hs]
    cases ht : lastFree l with
    | past => exact (hpast ht).elim
    | freeList | entry =>
        simp only [Except.ok.injEq]
        congr 1
        rw [ht] at hlx
        unfold Links.insert Links.setNext Links.setPrev
        simp only [Links.mk.injEq]
        constructor
        · funext y
          simp only [Function.update_apply]
          split <;> split <;> simp_all
        · trivial
  refine ⟨_, hrun, hring, hsound, rfl, rfl, ?_⟩
  intro y hy
  simp only [List.mem_cons, not_or] at hy
  have hyt : y ≠ lastFree l := by
    intro heq
    have hmem := FreeRing.lastFree_mem l
    rw [← heq, List.mem_cons] at hmem
    tauto
  simp [Links.insert, hy.1, hy.2.1, hyt]

/-- With the dummy's `prev_free` behind the array, the store through it is
outside the cache. -/
theorem putLast_of_past (hs : P.free.prev .freeList = some .past) (hxne : x ≠ .freeList) :
    P.putLast x = .error .outOfBounds := by
  unfold putLast
  dsimp only
  rw [Links.setNext_prev, Links.setPrev_prev, if_neg hxne.symm, hs]

theorem putFirst_of_off (h : FreeRing P.free l) (hx : x ∉ Node.freeList :: l)
    (hentry : ∃ i, x = Node.entry i) :
    ∃ P', P.putFirst x = .ok P' ∧ FreeRing P'.free (x :: l) ∧
      (Sound P.free l → Sound P'.free (x :: l)) ∧ FreeOnly P P' (x :: l) := by
  have hxne : x ≠ .freeList := fun heq => hx (heq ▸ List.mem_cons_self)
  obtain ⟨hring, hsound⟩ := h.insertFirst hx hentry
  have hhead := h.next_freeList
  have hmem : l.headD .freeList ∈ Node.freeList :: l := by
    cases l with
    | nil => simp
    | cons a l => simp
  have hhx : l.headD .freeList ≠ x := fun heq => hx (heq ▸ hmem)
  have hpast : l.headD .freeList ≠ .past := by
    intro heq
    rw [heq, List.mem_cons] at hmem
    rcases hmem with hmem | hmem
    · simp at hmem
    · exact h.not_mem.2 hmem
  have hrun : P.putFirst x =
      .ok { P with free := P.free.insert .freeList (l.headD .freeList) x } := by
    unfold putFirst
    dsimp only
    rw [Links.setNext_next, if_neg hxne.symm, Links.setPrev_next, hhead]
    cases ht : l.headD .freeList with
    | past => exact (hpast ht).elim
    | freeList | entry =>
        simp only [Except.ok.injEq]
        congr 1
        rw [ht] at hhx
        unfold Links.insert Links.setNext Links.setPrev
        simp only [Links.mk.injEq]
        constructor
        · funext y
          simp only [Function.update_apply]
          split <;> split <;> simp_all
        · trivial
  refine ⟨_, hrun, hring, hsound, rfl, rfl, ?_⟩
  intro y hy
  simp only [List.mem_cons, not_or] at hy
  have hyh : y ≠ l.headD .freeList := by
    intro heq
    rw [← heq, List.mem_cons] at hmem
    tauto
  rw [List.headD_eq_head?_getD] at hyh
  simp [Links.insert, hy.1, hy.2.1, hyh]

/-! ## Operations on the hash rings -/

/-- The hash links form disjoint rings of objects, one for each queue, and all
other objects have null hash links. -/
structure HashRings (P : Pointers) (rings : ℕ → List Node) : Prop where
  family : Family P.hash P.queues rings
  entries : ∀ q, ∀ x ∈ rings q, ∃ i, x = Node.entry i
  off : ∀ x, (∀ q, x ∉ rings q) → P.hash.next x = none ∧ P.hash.prev x = none

variable {rings : ℕ → List Node} {q q' : ℕ}

theorem HashRings.congr (h : HashRings P rings) (hhash : P'.hash = P.hash)
    (hqueues : P'.queues = P.queues) : HashRings P' rings := by
  constructor
  · rw [hhash, hqueues]
    exact h.family
  · exact h.entries
  · rw [hhash]
    exact h.off

theorem HashRings.length_le (h : HashRings P rings) (q : ℕ) :
    (rings q).length ≤ nrEntries := by
  by_cases hq : rings q = []
  · simp [hq]
  · exact length_le_nrEntries (h.family.isRing q hq).nodup (h.entries q)

theorem HashRings.inHashQueue (h : HashRings P rings) (q : ℕ) (found : Node → Bool) :
    P.inHashQueue q found = .ok ((rings q).find? found) := by
  unfold Pointers.inHashQueue
  cases hq : P.queues q with
  | none =>
      rw [(h.family.eq_nil_iff q).mp hq]
      rfl
  | some a =>
      obtain ⟨l, hl⟩ := h.family.eq_cons hq
      have hring : P.hash.IsRing (a :: l) := by
        rw [← hl]
        exact h.family.isRing q (by simp [hl])
      have hlen := h.length_le q
      rw [hl, List.length_cons] at hlen
      dsimp only
      rw [hring.search (by omega), hl]

theorem HashRings.putIntoHashQueue (h : HashRings P rings) (q : ℕ)
    (hx : ∀ q', x ∉ rings q') (hentry : ∃ i, x = Node.entry i) :
    ∃ P', P.putIntoHashQueue q x = .ok P' ∧
      HashRings P' (Function.update rings q (rings q ++ [x])) ∧ P'.free = P.free := by
  have hentries : ∀ q', ∀ y ∈ Function.update rings q (rings q ++ [x]) q',
      ∃ i, y = Node.entry i := by
    intro q' y hy
    by_cases hqq : q' = q
    · subst q'
      rw [Function.update_self, List.mem_append, List.mem_singleton] at hy
      rcases hy with hy | rfl
      · exact h.entries q y hy
      · exact hentry
    · rw [Function.update_of_ne hqq] at hy
      exact h.entries q' y hy
  have hold : ∀ y, (∀ q', y ∉ Function.update rings q (rings q ++ [x]) q') →
      y ≠ x ∧ ∀ q', y ∉ rings q' := by
    intro y hy
    constructor
    · intro heq
      apply hy q
      simp [heq]
    · intro q' hyq
      apply hy q'
      by_cases hqq : q' = q
      · subst q'
        simp [hyq]
      · rw [Function.update_of_ne hqq]
        exact hyq
  unfold Pointers.putIntoHashQueue
  cases hq : P.queues q with
  | none =>
      have hnil := (h.family.eq_nil_iff q).mp hq
      refine ⟨_, rfl, ⟨?_, hentries, ?_⟩, rfl⟩
      · rw [hnil]
        exact h.family.addFirst hx
      · intro y hy
        obtain ⟨hyx, hyoff⟩ := hold y hy
        have hnone := h.off y hyoff
        simpa [Links.single, hyx] using hnone
  | some a =>
      obtain ⟨l, hl⟩ := h.family.eq_cons hq
      have hring : P.hash.IsRing (a :: l) := by
        rw [← hl]
        exact h.family.isRing q (by simp [hl])
      have hlen := h.length_le q
      rw [hl, List.length_cons] at hlen
      obtain ⟨t, ht⟩ : ∃ t, (a :: l).getLast (List.cons_ne_nil a l) = t := ⟨_, rfl⟩
      have hwalk : P.hash.walkLast a (nrEntries + 1) a = some t := by
        rw [hring.walkLast (by omega), ht]
      dsimp only
      rw [hwalk]
      refine ⟨_, rfl, ⟨?_, hentries, ?_⟩, rfl⟩
      · rw [hl]
        exact h.family.addLast hl ht hx
      · intro y hy
        obtain ⟨hyx, hyoff⟩ := hold y hy
        have hyt : y ≠ t := by
          intro heq
          apply hyoff q
          rw [hl, heq, ← ht]
          exact List.getLast_mem _
        have hya : y ≠ a := by
          intro heq
          apply hyoff q
          rw [hl, heq]
          exact List.mem_cons_self
        have hnone := h.off y hyoff
        simpa [Links.insert, hyx, hyt, hya] using hnone

theorem HashRings.removeFromHashQueue_of_off (h : HashRings P rings) (message : String) (q : ℕ)
    (hx : ∀ q', x ∉ rings q') : P.removeFromHashQueue message q x = .ok P := by
  obtain ⟨hnext, hprev⟩ := h.off x hx
  unfold Pointers.removeFromHashQueue
  rw [hnext, hprev]

/-- Removing an object which is not the head of its ring; the key is not used. -/
theorem HashRings.removeFromHashQueue_of_inner (h : HashRings P rings) (message : String)
    (q' : ℕ) (hx : x ∈ rings q) (hhead : P.queues q ≠ some x) :
    ∃ P', P.removeFromHashQueue message q' x = .ok P' ∧
      HashRings P' (Function.update rings q ((rings q).erase x)) ∧ P'.free = P.free := by
  have hring := h.family.isRing_of_mem hx
  obtain ⟨n, p, hn, hp, hnm, hpm⟩ := hring.links_of_mem hx
  cases hq : rings q with
  | nil => simp [hq] at hx
  | cons a l =>
      rw [hq] at hring hnm hpm
      have hax : a ≠ x := by
        intro heq
        apply hhead
        rw [h.family.head_eq q, hq, heq]
        rfl
      have hxl : x ∈ l := by
        rw [hq] at hx
        exact (List.mem_cons.mp hx).resolve_left fun heq => hax heq.symm
      obtain ⟨l₁, l₂, hl⟩ := List.append_of_mem hxl
      have hxl₁ : x ∉ l₁ := by
        have hnodup := (List.nodup_cons.mp hring.nodup).2
        rw [hl] at hnodup
        intro hmem
        exact (List.nodup_append.mp hnodup).2.2 x hmem x List.mem_cons_self rfl
      have herase : (a :: l).erase x = a :: (l₁ ++ l₂) := by
        rw [List.erase_cons_tail (by simpa using hax), hl, List.erase_append_right _ hxl₁,
          List.erase_cons_head]
      have hfront : P.hash.IsRing (x :: (l₂ ++ a :: l₁)) := by
        apply Links.IsRing.toFront
        simpa [hl] using hring
      have hnx : n ≠ x := by
        intro heq
        rw [heq] at hn
        have hnil := hfront.next_eq_self_iff.mp hn
        simp at hnil
      have hrun : P.removeFromHashQueue message q' x =
          .ok { P with hash := (P.hash.join p n).clear x } := by
        unfold Pointers.removeFromHashQueue
        rw [hp, hn]
        simp [hnx]
      refine ⟨_, hrun, ⟨?_, ?_, ?_⟩, rfl⟩
      · rw [herase]
        exact h.family.removeInner (by rw [hq, hl]) hn hp
      · intro q₁ y hy
        apply h.entries q₁ y
        by_cases hqq : q₁ = q
        · subst q₁
          rw [Function.update_self] at hy
          rw [hq]
          exact List.mem_of_mem_erase hy
        · rw [Function.update_of_ne hqq] at hy
          exact hy
      · intro y hy
        by_cases hyx : y = x
        · simp [hyx, Links.clear]
        · have hyold : ∀ q₁, y ∉ rings q₁ := by
            intro q₁ hmem
            apply hy q₁
            by_cases hqq : q₁ = q
            · subst q₁
              rw [Function.update_self]
              rw [hq] at hmem
              exact (List.mem_erase_of_ne hyx).mpr hmem
            · rw [Function.update_of_ne hqq]
              exact hmem
          have hyn : y ≠ n := by
            intro heq
            apply hyold q
            rw [hq, heq]
            exact hnm
          have hyp : y ≠ p := by
            intro heq
            apply hyold q
            rw [hq, heq]
            exact hpm
          have hnone := h.off y hyold
          simpa [Links.clear, Links.join, hyx, hyn, hyp] using hnone

theorem HashRings.removeFromHashQueue_of_sole (h : HashRings P rings) (message : String)
    (hq : rings q = [x]) :
    ∃ P', P.removeFromHashQueue message q x = .ok P' ∧
      HashRings P' (Function.update rings q []) ∧ P'.free = P.free := by
  have hx : x ∈ rings q := by
    simp [hq]
  have hself : P.hash.next x = some x ∧ P.hash.prev x = some x := by
    have hring := h.family.isRing_of_mem hx
    rw [hq] at hring
    exact Links.isRing_single.mp hring
  have hrun : P.removeFromHashQueue message q x =
      .ok { P with queues := Function.update P.queues q none, hash := P.hash.clear x } := by
    unfold Pointers.removeFromHashQueue
    rw [hself.1, hself.2]
    simp
  refine ⟨_, hrun, ⟨h.family.removeSole hq, ?_, ?_⟩, rfl⟩
  · intro q₁ y hy
    by_cases hqq : q₁ = q
    · subst q₁
      simp at hy
    · rw [Function.update_of_ne hqq] at hy
      exact h.entries q₁ y hy
  · intro y hy
    by_cases hyx : y = x
    · simp [hyx, Links.clear]
    · have hyold : ∀ q₁, y ∉ rings q₁ := by
        intro q₁ hmem
        by_cases hqq : q₁ = q
        · subst q₁
          rw [hq, List.mem_singleton] at hmem
          exact hyx hmem
        · apply hy q₁
          rw [Function.update_of_ne hqq]
          exact hmem
      have hnone := h.off y hyold
      simpa [Links.clear, hyx] using hnone

/-- The cases in which `remove_from_hash_queue` leaves well-formed rings: the
object is on no ring, it is not the head of its ring, or it is alone on the
very ring which the key selects. -/
theorem HashRings.removeFromHashQueue (h : HashRings P rings) (message : String)
    (hcase : (∀ q, x ∉ rings q) ∨ (∃ q, x ∈ rings q ∧ P.queues q ≠ some x) ∨ rings q = [x]) :
    ∃ P' rings', P.removeFromHashQueue message q x = .ok P' ∧ HashRings P' rings' ∧
      P'.free = P.free ∧ ∀ q y, y ∈ rings' q ↔ y ≠ x ∧ y ∈ rings q := by
  rcases hcase with hoff | ⟨q₁, hx, hhead⟩ | hsole
  · refine ⟨P, rings, h.removeFromHashQueue_of_off message q hoff, h, rfl, ?_⟩
    intro q₁ y
    constructor
    · intro hy
      exact ⟨fun heq => hoff q₁ (heq ▸ hy), hy⟩
    · exact And.right
  · obtain ⟨P', hrun, hrings, hfree⟩ := h.removeFromHashQueue_of_inner message q hx hhead
    refine ⟨P', _, hrun, hrings, hfree, ?_⟩
    intro q₂ y
    by_cases hqq : q₂ = q₁
    · subst q₂
      rw [Function.update_self]
      exact (h.family.isRing_of_mem hx).nodup.mem_erase_iff
    · rw [Function.update_of_ne hqq]
      constructor
      · intro hy
        exact ⟨fun heq => hqq (h.family.disjoint q₂ q₁ x (heq ▸ hy) hx), hy⟩
      · exact And.right
  · obtain ⟨P', hrun, hrings, hfree⟩ := h.removeFromHashQueue_of_sole message hsole
    refine ⟨P', _, hrun, hrings, hfree, ?_⟩
    intro q₂ y
    by_cases hqq : q₂ = q
    · subst q₂
      rw [Function.update_self, hsole]
      simp
    · rw [Function.update_of_ne hqq]
      constructor
      · intro hy
        refine ⟨fun heq => hqq (h.family.disjoint q₂ q x (heq ▸ hy) ?_), hy⟩
        simp [hsole]
      · exact And.right

/-! ## Keys -/

/-- The hash rings, and the device and number of every object: an object is on
the ring of its key, no two objects have the same key, and an object on no ring
has no device. -/
structure Hashed (P : Pointers) (dev num : Node → ℕ) (rings : ℕ → List Node) : Prop where
  hash : P.HashRings rings
  keyed : ∀ q, ∀ x ∈ rings q, q = bufHash (dev x) (num x)
  distinct : ∀ q x y, x ∈ rings q → y ∈ rings q → dev x = dev y → num x = num y → x = y
  unkeyed : ∀ i, (∀ q, Node.entry i ∉ rings q) → dev (.entry i) = 0

variable {dev num dev' num' : Node → ℕ} {d n : ℕ}

theorem Hashed.congr (h : P.Hashed dev num rings) (hhash : P'.hash = P.hash)
    (hqueues : P'.queues = P.queues) (hkey : ∀ y, dev' y = dev y ∧ num' y = num y) :
    P'.Hashed dev' num' rings := by
  obtain rfl : dev' = dev := funext fun y => (hkey y).1
  obtain rfl : num' = num := funext fun y => (hkey y).2
  exact ⟨h.hash.congr hhash hqueues, h.keyed, h.distinct, h.unkeyed⟩

theorem Hashed.inHashQueue (h : P.Hashed dev num rings) (d n : ℕ) :
    P.inHashQueue (bufHash d n) (fun y => decide (dev y = d) && decide (num y = n)) = .ok none ∧
        (∀ q, ∀ y ∈ rings q, ¬ (dev y = d ∧ num y = n)) ∨
      ∃ y ∈ rings (bufHash d n),
        P.inHashQueue (bufHash d n) (fun y => decide (dev y = d) && decide (num y = n)) =
          .ok (some y) ∧ dev y = d ∧ num y = n := by
  rw [h.hash.inHashQueue]
  cases hfind : (rings (bufHash d n)).find? fun y =>
      decide (dev y = d) && decide (num y = n) with
  | none =>
      left
      refine ⟨rfl, ?_⟩
      rintro q y hy ⟨hdev, hnum⟩
      have hq := h.keyed q y hy
      rw [hdev, hnum] at hq
      have hnone := List.find?_eq_none.mp hfind y (hq ▸ hy)
      simp [hdev, hnum] at hnone
  | some y =>
      right
      have hfound := List.find?_some hfind
      simp only [Bool.and_eq_true, decide_eq_true_eq] at hfound
      exact ⟨y, List.mem_of_find?_eq_some hfind, rfl, hfound⟩

/-- An object is taken off its ring and put on the ring of a new key, which no
object has yet. -/
theorem Hashed.rekey (h : P.Hashed dev num rings) (message : String) (dev' num' : Node → ℕ)
    (hentry : ∃ i, x = Node.entry i)
    (hcase : (∀ q, x ∉ rings q) ∨ (∃ q, x ∈ rings q ∧ P.queues q ≠ some x) ∨ rings q = [x])
    (hmiss : ∀ q, ∀ y ∈ rings q, ¬ (dev y = d ∧ num y = n))
    (hself : dev' x = d ∧ num' x = n)
    (hother : ∀ y, y ≠ x → dev' y = dev y ∧ num' y = num y) :
    ∃ P₁ P₂ rings', P.removeFromHashQueue message q x = .ok P₁ ∧
      P₁.putIntoHashQueue (bufHash d n) x = .ok P₂ ∧ P₁.free = P.free ∧ P₂.free = P.free ∧
      P₂.Hashed dev' num' rings' ∧
      ∀ q y, y ∈ rings' q ↔ y ≠ x ∧ y ∈ rings q ∨ y = x ∧ q = bufHash d n := by
  obtain ⟨P₁, rings₁, hrun₁, hrings₁, hfree₁, hmem₁⟩ := h.hash.removeFromHashQueue message hcase
  have hxoff : ∀ q, x ∉ rings₁ q := by
    intro q hx
    exact ((hmem₁ q x).mp hx).1 rfl
  obtain ⟨P₂, hrun₂, hrings₂, hfree₂⟩ := hrings₁.putIntoHashQueue (bufHash d n) hxoff hentry
  have hmem : ∀ q y, y ∈ Function.update rings₁ (bufHash d n) (rings₁ (bufHash d n) ++ [x]) q ↔
      y ≠ x ∧ y ∈ rings q ∨ y = x ∧ q = bufHash d n := by
    intro q y
    by_cases hq : q = bufHash d n
    · rw [hq, Function.update_self, List.mem_append, List.mem_singleton, hmem₁]
      simp
    · rw [Function.update_of_ne hq, hmem₁]
      simp [hq]
  refine ⟨P₁, P₂, _, hrun₁, hrun₂, hfree₁, hfree₂.trans hfree₁, ⟨hrings₂, ?_, ?_, ?_⟩, hmem⟩
  · intro q y hy
    rcases (hmem q y).mp hy with ⟨hyx, hyq⟩ | ⟨rfl, hq⟩
    · rw [(hother y hyx).1, (hother y hyx).2]
      exact h.keyed q y hyq
    · rw [hself.1, hself.2]
      exact hq
  · intro q y z hy hz hdev hnum
    rcases (hmem q y).mp hy with ⟨hyx, hyq⟩ | ⟨rfl, hyq⟩
    · rw [(hother y hyx).1] at hdev
      rw [(hother y hyx).2] at hnum
      rcases (hmem q z).mp hz with ⟨hzx, hzq⟩ | ⟨rfl, hzq⟩
      · rw [(hother z hzx).1] at hdev
        rw [(hother z hzx).2] at hnum
        exact h.distinct q y z hyq hzq hdev hnum
      · rw [hself.1] at hdev
        rw [hself.2] at hnum
        exact (hmiss q y hyq ⟨hdev, hnum⟩).elim
    · rcases (hmem q z).mp hz with ⟨hzx, hzq⟩ | ⟨rfl, hzq⟩
      · rw [hself.1, (hother z hzx).1] at hdev
        rw [hself.2, (hother z hzx).2] at hnum
        exact (hmiss q z hzq ⟨hdev.symm, hnum.symm⟩).elim
      · rfl
  · intro i hi
    have hix : Node.entry i ≠ x := by
      intro heq
      exact hi (bufHash d n) ((hmem _ _).mpr (Or.inr ⟨heq, rfl⟩))
    rw [(hother _ hix).1]
    apply h.unkeyed
    intro q hq
    exact hi q ((hmem q _).mpr (Or.inl ⟨hix, hq⟩))

/-- Every object with a device is on the ring of its key and on no other. -/
theorem Hashed.mem_iff (h : P.Hashed dev num rings) {i : Fin nrEntries}
    (hi : dev (.entry i) ≠ 0) (q : ℕ) :
    Node.entry i ∈ rings q ↔ q = bufHash (dev (.entry i)) (num (.entry i)) := by
  constructor
  · exact h.keyed q _
  · intro hq
    by_contra hoff
    apply hi
    apply h.unkeyed
    intro q' hq'
    rw [hq, ← h.keyed q' _ hq'] at hoff
    exact hoff hq'

theorem Hashed.eq_of_key (h : P.Hashed dev num rings) {i j : Fin nrEntries}
    (hi : dev (.entry i) ≠ 0) (hdev : dev (.entry i) = dev (.entry j))
    (hnum : num (.entry i) = num (.entry j)) : i = j := by
  have hj : dev (.entry j) ≠ 0 := hdev ▸ hi
  have heq : Node.entry i = Node.entry j := by
    apply h.distinct _ _ _ ((h.mem_iff hi _).mpr rfl) _ hdev hnum
    rw [h.mem_iff hj, hdev, hnum]
  simpa using heq

/-! ## The initial lists -/

end Pointers

/-- All objects, in the order of the array. -/
def allEntries : List Node := (List.finRange nrEntries).map Node.entry

theorem mem_allEntries : x ∈ allEntries ↔ ∃ i, x = Node.entry i := by
  simp [allEntries, eq_comm]

theorem lastFree_allEntries : lastFree allEntries = .entry ⟨127, by decide⟩ := by
  decide

theorem allEntries_nodup : (Node.freeList :: allEntries).Nodup := by
  rw [List.nodup_cons]
  constructor
  · simp [allEntries]
  · apply (List.nodup_finRange nrEntries).map
    intro i j hij
    simpa using hij

namespace Pointers

/-- The array is linked up in order, but for the `prev_free` of the dummy. -/
theorem init_freeRing : FreeRing init.free allEntries := by
  refine ⟨?_, Or.inr ⟨rfl, by decide⟩, fun x hx => mem_allEntries.mp hx⟩
  rw [lastFree_allEntries]
  apply Links.isRing_of_chain allEntries_nodup
  · rw [List.isChain_iff_getElem]
    intro i hi
    have hlen : i < nrEntries := by
      simpa [allEntries] using hi
    cases i with
    | zero => simp [allEntries, Links.Succ, init]
    | succ i =>
        simp [allEntries, Links.Succ, init, hlen]
  · have hlast : (Node.freeList :: allEntries).getLast (List.cons_ne_nil _ _) =
        .entry ⟨127, by decide⟩ := lastFree_allEntries
    rw [hlast]
    simp [Links.Succ, init, nrEntries]

theorem init_off : ∀ x, x ∉ Node.freeList :: allEntries →
    init.free.next x = none ∧ init.free.prev x = none := by
  intro x hx
  cases x with
  | freeList => simp at hx
  | entry i => simp [mem_allEntries] at hx
  | past => exact ⟨rfl, rfl⟩

theorem init_hashRings : init.HashRings fun _ => [] where
  family :=
    { head_eq := fun _ => rfl
      isRing := fun _ hne => (hne rfl).elim
      disjoint := fun _ _ _ hx => (List.not_mem_nil hx).elim }
  entries _ _ hx := (List.not_mem_nil hx).elim
  off _ _ := ⟨rfl, rfl⟩

theorem init_hashed (hdev : ∀ i, dev (.entry i) = 0) : init.Hashed dev num fun _ => [] where
  hash := init_hashRings
  keyed _ _ hx := (List.not_mem_nil hx).elim
  distinct _ _ _ hx := (List.not_mem_nil hx).elim
  unkeyed i _ := hdev i

end Pointers

end Yak.Cache
