import Yak.BufferNesting

/-!
# The dummy of the free list

`getblk` takes the free list for empty if `b_next_free` of the dummy is NULL.  An empty list is
closed at the dummy, and so the dummy itself is taken off it and gets the key of the block.
-/

namespace Yak.BufferCache

open Yak.Cache LinkedRing

variable {α : Type}

/-! ## The reference -/

/-- The loop of `getblk` comes to give the buffer a new key, which it then puts into a hash
queue. -/
inductive Rekeys (env : Env α) (current dev blknr : ℕ) : Cache α → Node → Prop where
  | take {c c₁ : Cache α} {x : Node} (hmiss : c.inHashQueue dev blknr = .ok none)
      (hfirst : c.ptrs.free.next .freeList = some x) (hremove : c.removeFromFreeList x = .ok c₁)
      (hclean : (c₁.buf x).dwrite = false)
      (hlock : mutexLocked (c₁.buf x).bMutex current = false) :
      Rekeys env current dev blknr c x
  | write {c c₁ c₂ : Cache α} {x y : Node} (hmiss : c.inHashQueue dev blknr = .ok none)
      (hfirst : c.ptrs.free.next .freeList = some x) (hremove : c.removeFromFreeList x = .ok c₁)
      (hdirty : (c₁.buf x).dwrite = true)
      (hwrite : (c₁.modify x fun b => { b with dwrite := false }).bwrite env x = .ok c₂)
      (hrest : Rekeys env current dev blknr c₂ y) : Rekeys env current dev blknr c y

namespace Cache

/-- All buffers are locked and off the free list. -/
def AllTaken (c : Cache α) : Prop :=
  ∀ i, (c.buf (.entry i)).bMutex.lock = true ∧ c.ptrs.free.next (.entry i) = none

/-- The loop of `getblk` does not go on behind this buffer: it is clean, or its device is behind
the table of drivers. -/
def Last (c : Cache α) (x : Node) : Prop :=
  (c.buf x).dwrite = false ∨ hdDev < devMajor (c.buf x).bDev

/-- If the block is not cached, there is such a buffer on the free list. -/
def Stocked (c : Cache α) (dev blknr : ℕ) : Prop :=
  c.inHashQueue dev blknr = .ok none →
    ∃ i, c.ptrs.free.next (.entry i) ≠ none ∧ c.Last (.entry i)

/-- With all buffers taken `getblk` sleeps, unless the block is
cached, and the dummy never gets a key. -/
structure SparesDummy (env : Env α) (c : Cache α) (current dev blknr : ℕ) : Prop where
  sleeps : c.AllTaken → c.inHashQueue dev blknr = .ok none →
    c.getblk env current dev blknr = .error .asleep
  unused : ¬Rekeys env current dev blknr c .freeList

end Cache

namespace Session

/-- The call of `getblk` which an operation makes. -/
def request : Op α → Option (ℕ × ℕ × ℕ)
  | .getblk current dev blknr | .bread current dev blknr => some (current, dev, blknr)
  | _ => none

/-- What holds of every call of `getblk` in a run. -/
def Calls (env : Env α) (P : Cache α → ℕ → ℕ → ℕ → Prop) (s : Session α) : List (Op α) → Prop
  | [] => True
  | op :: ops =>
      (∀ current dev blknr, request op = some (current, dev, blknr) →
        P s.cache current dev blknr) ∧
        ∀ s', s.step env op = .ok s' → s'.Calls env P ops

/-- The clients use the buffers which they hold. -/
def Proper (s : Session α) : Op α → Prop
  | .modify x _ => x ∈ s.held
  | .brelse x | .bwrite x => x ∈ s.held ∨ (s.cache.buf x).bMutex.lock = false
  | _ => True

def ProperRun (env : Env α) (s : Session α) : List (Op α) → Prop
  | [] => True
  | op :: ops => s.Proper op ∧ ∀ s', s.step env op = .ok s' → s'.ProperRun env ops

end Session

/-! ## What holds of the cache -/

namespace Cache

variable {c c' c₁ : Cache α} {H : Finset Node} {l : List Node} {x y : Node} {env : Env α}
  {current dev blknr : ℕ}

/-- The free list is whole, and the dummy is not in use.  A buffer which is on the list, and which
a client knows or has changed, is not locked. -/
structure Whole (c : Cache α) (H : Finset Node) (l : List Node) : Prop where
  listed : c.Listed l
  array : InArray c.ptrs
  dummy : (c.buf .freeList).dwrite = false ∧ (c.buf .freeList).bMutex.lock = false
  held : ∀ x ∈ H, ∃ i, x = Node.entry i
  unlocked : ∀ x ∈ l, x ∈ H ∨ (c.buf x).dwrite = true → (c.buf x).bMutex.lock = false
  data : ∀ x, (c.buf x).dwrite = true → (c.buf x).bData ≠ none

theorem Listed.mem_iff (h : c.Listed l) (i : Fin nrEntries) :
    Node.entry i ∈ l ↔ c.ptrs.free.next (.entry i) ≠ none := by
  constructor
  · intro hmem
    obtain ⟨a, b, -, hb, -⟩ := h.free.links_of_mem hmem
    rw [hb]
    nofun
  · intro hne
    by_contra hnot
    exact hne (h.off (.entry i) (by simp [hnot])).1

theorem Whole.stocked_iff (h : c.Whole H l) :
    c.Stocked dev blknr ↔ (c.inHashQueue dev blknr = .ok none → ∃ x ∈ l, c.Last x) := by
  unfold Stocked
  simp only [← h.listed.mem_iff]
  refine imp_congr_right fun _ => ⟨?_, ?_⟩
  · rintro ⟨i, hmem, hlast⟩
    exact ⟨_, hmem, hlast⟩
  · rintro ⟨x, hmem, hlast⟩
    obtain ⟨i, rfl⟩ := h.listed.free.entries x hmem
    exact ⟨i, hmem, hlast⟩

theorem Whole.congr (h : c.Whole H l) (hfree : c'.ptrs.free = c.ptrs.free)
    (harray : InArray c'.ptrs) (hbuf : c'.buf = c.buf) : c'.Whole H l where
  listed := h.listed.congr hfree
  array := harray
  dummy := by
    rw [hbuf]
    exact h.dummy
  held := h.held
  unlocked := by
    rw [hbuf]
    exact h.unlocked
  data := by
    rw [hbuf]
    exact h.data

theorem Whole.mono {H' : Finset Node} (h : c.Whole H l) (hsub : H' ⊆ H) : c.Whole H' l where
  listed := h.listed
  array := h.array
  dummy := h.dummy
  held x hx := h.held x (hsub hx)
  unlocked x hx hor := h.unlocked x hx (hor.imp_left fun hmem => hsub hmem)
  data := h.data

theorem data_of_update {b : Buffer α} (hbuf : c'.buf = Function.update c.buf x b)
    (hb : b.bData = none → (c.buf x).bData = none) (hy : (c.buf y).bData ≠ none) :
    (c'.buf y).bData ≠ none := by
  rw [hbuf]
  by_cases heq : y = x
  · rw [heq, Function.update_self]
    rw [heq] at hy
    exact fun hnone => hy (hb hnone)
  · rw [Function.update_of_ne heq]
    exact hy

/-- A drive request does not take the data of a buffer away. -/
theorem blkDevio_data {rw : Rw} {r : Cache α × Bool} (hrun : c.blkDevio env x rw = .ok r)
    (hy : (c.buf y).bData ≠ none) : (r.1.buf y).bData ≠ none := by
  unfold blkDevio at hrun
  split at hrun
  next =>
    unfold hddevPhysio at hrun
    split at hrun
    next =>
      obtain rfl := Except.ok.inj hrun
      exact data_of_update (x := x) rfl id hy
    next =>
      split at hrun
      next =>
        obtain rfl := Except.ok.inj hrun
        exact data_of_update (x := x) rfl id hy
      next =>
        split at hrun
        next => cases hrun
        next data hdata =>
          obtain rfl := Except.ok.inj hrun
          cases rw with
          | read => exact data_of_update (x := x) rfl nofun hy
          | write => exact data_of_update (x := x) rfl id hy
  next =>
    split at hrun
    next =>
      obtain rfl := Except.ok.inj hrun
      exact data_of_update (x := x) rfl id hy
    next => cases hrun

theorem Whole.blkDevio {rw : Rw} {r : Cache α × Bool} (h : c.Whole H l)
    (hrun : c.blkDevio env x rw = .ok r) : r.1.Whole H l := by
  have hr := blkDevio_requested hrun
  refine ⟨h.listed.congr (by rw [hr.ptrs]), ?_, ?_, h.held, ?_, ?_⟩
  · rw [hr.ptrs]
    exact h.array
  · rw [hr.dwrite, hr.mutex]
    exact h.dummy
  · intro y hy
    rw [hr.dwrite, hr.mutex]
    exact h.unlocked y hy
  · intro y hy
    rw [hr.dwrite] at hy
    exact blkDevio_data hrun (h.data y hy)

theorem Whole.removeFromFreeList (h : c.Whole H l) (hx : ∃ i, x = Node.entry i)
    (hrun : c.removeFromFreeList x = .ok c') : c'.Whole H (l.erase x) ∧ Relisted c c' := by
  have hne : x ≠ .freeList := by
    obtain ⟨i, rfl⟩ := hx
    nofun
  obtain ⟨hlisted, hsame⟩ := h.listed.of_removeFromFreeList hne hrun
  refine ⟨⟨hlisted, h.array.congr hsame.hash hsame.queues, ?_, h.held, ?_, ?_⟩, hsame⟩
  · rw [hsame.buf]
    exact h.dummy
  · intro y hy
    rw [hsame.buf]
    exact h.unlocked y (List.mem_of_mem_erase hy)
  · rw [hsame.buf]
    exact h.data

theorem Whole.update {b : Buffer α} (h : c.Whole H l) (hx : ∃ i, x = Node.entry i)
    (hptrs : c'.ptrs = c.ptrs) (hbuf : c'.buf = Function.update c.buf x b)
    (hunlocked : x ∈ l → x ∈ H ∨ b.dwrite = true → b.bMutex.lock = false)
    (hdata : b.dwrite = true → b.bData ≠ none) : c'.Whole H l := by
  have hne : Node.freeList ≠ x := by
    obtain ⟨i, rfl⟩ := hx
    nofun
  refine ⟨h.listed.congr (by rw [hptrs]), by rw [hptrs]; exact h.array, ?_, h.held, ?_, ?_⟩
  · rw [hbuf, Function.update_of_ne hne]
    exact h.dummy
  · intro y hy
    rw [hbuf]
    by_cases heq : y = x
    · rw [heq, Function.update_self]
      exact hunlocked (heq ▸ hy)
    · rw [Function.update_of_ne heq]
      exact h.unlocked y hy
  · intro y
    rw [hbuf]
    by_cases heq : y = x
    · rw [heq, Function.update_self]
      exact hdata
    · rw [Function.update_of_ne heq]
      exact h.data y

/-- A buffer which is locked and off the list is known to a client. -/
theorem Whole.known (h : c.Whole H l) (hx : ∃ i, x = Node.entry i) (hnot : x ∉ l) :
    c.Whole (insert x H) l where
  listed := h.listed
  array := h.array
  dummy := h.dummy
  held y hy := (Finset.mem_insert.mp hy).elim (fun heq => heq ▸ hx) (h.held y)
  unlocked y hy hor := by
    refine h.unlocked y hy (hor.imp_left fun hmem => ?_)
    exact (Finset.mem_insert.mp hmem).resolve_left fun heq => hnot (heq ▸ hy)
  data := h.data

/-- A release of a buffer which is on the list only if it is not locked. -/
theorem Whole.brelse (h : c.Whole H l) (hx : ∃ i, x = Node.entry i)
    (hlock : x ∈ l → (c.buf x).bMutex.lock = false) (hrun : c.brelse x = .ok c') :
    ∃ l', c'.Whole H l' := by
  unfold Cache.brelse at hrun
  split at hrun
  next => exact ⟨l, Except.ok.inj hrun ▸ h⟩
  next hlocked =>
    have hnot : x ∉ l := fun hmem => hlocked (hlock hmem)
    obtain ⟨c₁, hput, hunlock⟩ := bind_eq_ok.mp hrun
    obtain rfl := Except.ok.inj hunlock
    obtain ⟨l', hlisted, hsame, hmem⟩ := h.listed.of_putIntoFreeList hnot hx hput
    refine ⟨l', hlisted.congr rfl, h.array.congr hsame.hash hsame.queues, ?_, h.held, ?_, ?_⟩
    · have hne : Node.freeList ≠ x := by
        obtain ⟨i, rfl⟩ := hx
        nofun
      rw [modify_buf_of_ne _ _ hne, hsame.buf]
      exact h.dummy
    · intro y hy hor
      by_cases heq : y = x
      · rw [heq, modify_buf_self]
        rfl
      · rw [modify_buf_of_ne _ _ heq, hsame.buf] at hor ⊢
        exact h.unlocked y (((hmem y).mp hy).resolve_left heq) hor
    · intro y hy
      by_cases heq : y = x
      · rw [heq, modify_buf_self, hsame.buf] at hy ⊢
        exact h.data x hy
      · rw [modify_buf_of_ne _ _ heq, hsame.buf] at hy ⊢
        exact h.data y hy

/-- A release of a buffer which a client knows or has changed, or of one which is not locked. -/
theorem Whole.release (h : c.Whole H l)
    (hproper : (x ∈ H ∨ (c.buf x).dwrite = true) ∧ (∃ i, x = Node.entry i) ∨
      (c.buf x).bMutex.lock = false)
    (hrun : c.brelse x = .ok c') : ∃ l', c'.Whole H l' := by
  rcases hproper with ⟨hor, hx⟩ | hlock
  · exact h.brelse hx (fun hmem => h.unlocked x hmem hor) hrun
  · unfold Cache.brelse at hrun
    rw [if_pos hlock] at hrun
    exact ⟨l, Except.ok.inj hrun ▸ h⟩

theorem Whole.bwrite (h : c.Whole H l)
    (hproper : x ∈ H ∧ (∃ i, x = Node.entry i) ∨ (c.buf x).bMutex.lock = false)
    (hrun : c.bwrite env x = .ok c') : ∃ l', c'.Whole H l' := by
  obtain ⟨r, hio, hrel⟩ := bind_eq_ok.mp hrun
  refine (h.blkDevio hio).release ?_ hrel
  rw [(blkDevio_requested hio).mutex]
  exact hproper.imp_left fun hheld => ⟨Or.inl hheld.1, hheld.2⟩

theorem Whole.syncSlot {i : Fin nrEntries} (h : c.Whole H l)
    (hrun : c.syncSlot env current i = .ok c') : ∃ l', c'.Whole H l' := by
  unfold Cache.syncSlot at hrun
  split at hrun
  next hdirty =>
    have hlock : Node.entry i ∈ l → (c.buf (.entry i)).bMutex.lock = false := fun hmem =>
      h.unlocked _ hmem (Or.inr hdirty.1)
    have hclean : (c.modify (.entry i) fun b => { b with dwrite := false }).Whole H l :=
      h.update ⟨i, rfl⟩ rfl rfl (fun hmem _ => hlock hmem) nofun
    obtain ⟨r, hio, hrel⟩ := bind_eq_ok.mp hrun
    refine (hclean.blkDevio hio).brelse ⟨i, rfl⟩ ?_ hrel
    rw [(blkDevio_requested hio).mutex, (clean_same c _ _).1]
    exact hlock
  next => exact ⟨l, Except.ok.inj hrun ▸ h⟩

/-! ## The turns of `getblk` -/

theorem inHashQueue_congr (hhash : c'.ptrs.hash = c.ptrs.hash)
    (hqueues : c'.ptrs.queues = c.ptrs.queues)
    (hkey : ∀ y, (c'.buf y).bDev = (c.buf y).bDev ∧ (c'.buf y).bBlknr = (c.buf y).bBlknr) :
    c'.inHashQueue dev blknr = c.inHashQueue dev blknr := by
  unfold Cache.inHashQueue Pointers.inHashQueue
  simp only [hhash, hqueues, fun y => (hkey y).1, fun y => (hkey y).2]

/-- The driver of a device is in the table if a request comes back. -/
theorem blkDevio_devMajor {rw : Rw} {r : Cache α × Bool} (hrun : c.blkDevio env x rw = .ok r) :
    devMajor (c.buf x).bDev ≤ hdDev := by
  unfold blkDevio at hrun
  split at hrun
  next heq => exact heq.le
  next =>
    split at hrun
    next hlt => exact hlt.le
    next => cases hrun

/-- A buffer which `getblk` finds on the list, delayed, is written and then left aside. -/
theorem Whole.write (dev blknr : ℕ) (h : c.Whole H (x :: l))
    (hremove : c.removeFromFreeList x = .ok c₁) (hdirty : (c₁.buf x).dwrite = true)
    (hwrite : (c₁.modify x fun b => { b with dwrite := false }).bwrite env x = .ok c') :
    c'.Whole H l ∧ c'.inHashQueue dev blknr = c.inHashQueue dev blknr ∧
      (∀ y ∈ l, c'.Last y ↔ c.Last y) ∧ ¬c.Last x := by
  have hx := h.listed.free.entries x List.mem_cons_self
  have hnot : x ∉ l := (List.nodup_cons.mp h.listed.free.nodup).1
  obtain ⟨hwhole, hsame⟩ := h.removeFromFreeList hx hremove
  rw [List.erase_cons_head] at hwhole
  have hlock : (c₁.buf x).bMutex.lock = false := by
    rw [hsame.buf] at hdirty ⊢
    exact h.unlocked x List.mem_cons_self (Or.inr hdirty)
  obtain ⟨r, hio, hrel⟩ := bind_eq_ok.mp hwrite
  have hr := blkDevio_requested hio
  have hclean := clean_same c₁ x
  have hback : r.1 = c' := by
    unfold Cache.brelse at hrel
    rw [hr.mutex, (hclean x).1, if_pos hlock] at hrel
    exact Except.ok.inj hrel
  have hwhole' : (c₁.modify x fun b => { b with dwrite := false }).Whole H l :=
    hwhole.update hx rfl rfl (fun hmem => absurd hmem hnot) nofun
  have hkey : ∀ y, (c'.buf y).bDev = (c.buf y).bDev ∧ (c'.buf y).bBlknr = (c.buf y).bBlknr := by
    intro y
    rw [← hback, (hr.key y).1, (hr.key y).2, (hclean y).2.1, (hclean y).2.2, hsame.buf]
    exact ⟨rfl, rfl⟩
  refine ⟨hback ▸ hwhole'.blkDevio hio, inHashQueue_congr ?_ ?_ hkey, ?_, ?_⟩
  · rw [← hback, hr.ptrs]
    exact hsame.hash
  · rw [← hback, hr.ptrs]
    exact hsame.queues
  · intro y hy
    have hne : y ≠ x := fun heq => hnot (heq ▸ hy)
    unfold Last
    rw [(hkey y).1, ← hback, hr.dwrite, modify_buf_of_ne _ _ hne, hsame.buf]
  · have hmajor := blkDevio_devMajor hio
    rw [(hclean x).2.1, hsame.buf] at hmajor
    rw [hsame.buf] at hdirty
    unfold Last
    rw [hdirty, not_or]
    exact ⟨nofun, Nat.not_lt.mpr hmajor⟩

theorem Whole.next_freeList (h : c.Whole H l) (hfirst : c.ptrs.free.next .freeList = some x) :
    x = l.headD .freeList := by
  rw [h.listed.free.next_freeList, Option.some.injEq] at hfirst
  exact hfirst.symm

/-- With a last buffer on the list the dummy gets no key. -/
theorem Whole.not_rekeys (h : c.Whole H l)
    (hlast : c.inHashQueue dev blknr = .ok none → ∃ y ∈ l, c.Last y) :
    ¬Rekeys env current dev blknr c .freeList := by
  intro hrekeys
  generalize hdummy : Node.freeList = z at hrekeys
  induction hrekeys generalizing l with
  | take hmiss hfirst hremove hclean hlock =>
      obtain rfl := h.next_freeList hfirst
      obtain ⟨y, hy, -⟩ := hlast hmiss
      cases l with
      | nil => cases hy
      | cons x l =>
          obtain ⟨i, hi⟩ := h.listed.free.entries x List.mem_cons_self
          rw [List.headD_cons, hi] at hdummy
          cases hdummy
  | write hmiss hfirst hremove hdirty hwrite hrest ih =>
      obtain rfl := h.next_freeList hfirst
      obtain ⟨y, hy, hend⟩ := hlast hmiss
      cases l with
      | nil => cases hy
      | cons x l =>
          rw [List.headD_cons] at hremove hdirty hwrite
          obtain ⟨hwhole, -, hsame, hnot⟩ := h.write dev blknr hremove hdirty
            hwrite
          refine ih hwhole (fun _ => ?_) hdummy
          rcases List.mem_cons.mp hy with rfl | hmem
          · exact absurd hend hnot
          · exact ⟨y, hmem, (hsame y hmem).mpr hend⟩

theorem blkDevio_succeeds_of {rw : Rw} (hmajor : devMajor (c.buf x).bDev ≤ hdDev)
    (hdata : (c.buf x).bData ≠ none) : ∃ r, c.blkDevio env x rw = .ok r := by
  obtain ⟨data, hdata⟩ := Option.ne_none_iff_exists'.mp hdata
  unfold Cache.blkDevio
  split
  next =>
    unfold hddevPhysio
    rw [hdata]
    dsimp only
    split
    next => exact ⟨_, rfl⟩
    next => split <;> exact ⟨_, rfl⟩
  next hne =>
    rw [if_pos (Nat.lt_of_le_of_ne hmajor hne)]
    exact ⟨_, rfl⟩

theorem Listed.exists_removeDummy (h : c.Listed []) :
    ∃ c₁, c.removeFromFreeList .freeList = .ok c₁ := by
  have hnext : c.ptrs.free.next .freeList = some .freeList := h.free.next_freeList
  have hprev : c.ptrs.free.prev .freeList = some .freeList := by
    rcases h.free.tail with hs | ⟨-, hne⟩
    · exact hs
    · exact (hne rfl).elim
  unfold Cache.removeFromFreeList Pointers.removeFromFreeList
  rw [hprev, hnext]
  exact ⟨_, rfl⟩

/-- Without one, all buffers of the list are written and the dummy follows. -/
theorem Whole.rekeys_dummy (h : c.Whole H l) (hmiss : c.inHashQueue dev blknr = .ok none)
    (hnone : ∀ y ∈ l, ¬c.Last y) : Rekeys env current dev blknr c .freeList := by
  induction l generalizing c with
  | nil =>
      obtain ⟨c₁, hremove⟩ := h.listed.exists_removeDummy
      obtain ⟨-, hsame⟩ := h.listed.removeDummy hremove
      refine .take hmiss h.listed.free.next_freeList hremove ?_ ?_
      · rw [hsame.buf]
        exact h.dummy.1
      · rw [hsame.buf, mutexLocked_eq_false]
        intro hlock
        rw [h.dummy.2] at hlock
        cases hlock
  | cons x l ih =>
      obtain ⟨i, hx⟩ := h.listed.free.entries x List.mem_cons_self
      obtain ⟨hdirty, hmajor⟩ := not_or.mp (hnone x List.mem_cons_self)
      rw [Bool.not_eq_false] at hdirty
      obtain ⟨c₁, hremove, -, hsame, -⟩ := h.listed.removeFromFreeList (x := x) (by rw [hx]; nofun)
      have hclean := clean_same c₁ x
      obtain ⟨r, hio⟩ : ∃ r, (c₁.modify x fun b => { b with dwrite := false }).blkDevio env x
          .write = .ok r := by
        apply blkDevio_succeeds_of
        · rw [(hclean x).2.1, hsame.buf]
          exact Nat.not_lt.mp hmajor
        · rw [modify_buf_self, hsame.buf]
          exact h.data x hdirty
      have hwrite : (c₁.modify x fun b => { b with dwrite := false }).bwrite env x = .ok r.1 := by
        refine bind_eq_ok.mpr ⟨r, hio, ?_⟩
        unfold Cache.brelse
        rw [(blkDevio_requested hio).mutex, (hclean x).1, hsame.buf,
          if_pos (h.unlocked x List.mem_cons_self (Or.inr hdirty))]
      have hdirty' : (c₁.buf x).dwrite = true := by
        rw [hsame.buf]
        exact hdirty
      obtain ⟨hwhole, hfind, hkept, -⟩ :=
        h.write dev blknr hremove hdirty' hwrite
      refine .write hmiss h.listed.free.next_freeList hremove hdirty' hwrite
        (ih hwhole (hfind.trans hmiss) ?_)
      intro y hy
      rw [hkept y hy]
      exact hnone y (List.mem_cons_of_mem _ hy)

/-- A call of `getblk` spares the dummy exactly if a last buffer is on the list. -/
theorem Whole.sparesDummy_iff (h : c.Whole H l) :
    c.SparesDummy env current dev blknr ↔ c.Stocked dev blknr := by
  rw [h.stocked_iff]
  constructor
  · intro hspares hmiss
    by_contra hnone
    exact hspares.unused (h.rekeys_dummy hmiss fun y hy hlast => hnone ⟨y, hy, hlast⟩)
  · intro hlast
    refine ⟨fun htaken hmiss => ?_, h.not_rekeys hlast⟩
    obtain ⟨y, hy, -⟩ := hlast hmiss
    obtain ⟨i, rfl⟩ := h.listed.free.entries y hy
    exact absurd (htaken i).2 ((h.listed.mem_iff i).mp hy)

/-! ## What `getblk` leaves -/

theorem Whole.lockFound {r : Node × Cache α} (h : c.Whole H l)
    (hfound : c.inHashQueue dev blknr = .ok (some x)) (hrun : c.lockFound current x = .ok r) :
    ∃ l', r.2.Whole (insert r.1 H) l' := by
  have hx := (inHashQueue_spec hfound).2 h.array
  obtain ⟨hr, hremove⟩ := lockFound_ok hrun
  rw [hr]
  obtain ⟨P, hP, hptrs⟩ := bind_eq_ok.mp hremove
  -- the mutex is taken first, but the list does not look at it
  have hremove' : c.removeFromFreeList x = .ok { c with ptrs := P } := bind_eq_ok.mpr ⟨P, hP, rfl⟩
  obtain ⟨hwhole, -⟩ := h.removeFromFreeList hx hremove'
  have hnot : x ∉ l.erase x := h.listed.free.nodup.not_mem_erase
  rw [← Except.ok.inj hptrs]
  refine ⟨_, Whole.known (hwhole.update hx rfl rfl (fun hmem => absurd hmem hnot) ?_) hx hnot⟩
  exact hwhole.data x

theorem Whole.recycle {r : Node × Cache α} (h : c.Whole H l) (hx : ∃ i, x = Node.entry i)
    (hnot : x ∉ l) (hrun : c.recycle env current dev blknr x = .ok r) :
    r.2.Whole (insert r.1 H) l := by
  obtain ⟨hr, hbuf, hlinks, harray⟩ := recycle_ok hrun
  rw [hr]
  have hrekey : (c.rekey env (taken current) dev blknr x).Whole H l :=
    h.update hx rfl rfl (fun hmem => absurd hmem hnot) nofun
  exact ((hrekey.congr hlinks (harray hx h.array) hbuf).known hx hnot)

theorem Whole.getblkLoop {fuel : ℕ} {r : Node × Cache α} (h : c.Whole H l)
    (hlast : c.inHashQueue dev blknr = .ok none → ∃ y ∈ l, c.Last y)
    (hrun : Cache.getblkLoop env current dev blknr fuel c = .ok r) :
    ∃ l', r.2.Whole (insert r.1 H) l' := by
  induction fuel generalizing c l with
  | zero => cases hrun
  | succ fuel ih =>
      unfold Cache.getblkLoop at hrun
      obtain ⟨v, hfound, hrun⟩ := bind_eq_ok.mp hrun
      cases v with
      | some x => exact h.lockFound hfound hrun
      | none =>
          obtain ⟨y, hy, hend⟩ := hlast hfound
          dsimp only at hrun
          rw [h.listed.free.next_freeList] at hrun
          dsimp only at hrun
          obtain ⟨c₁, hremove, hrun⟩ := bind_eq_ok.mp hrun
          cases l with
          | nil => cases hy
          | cons x l =>
              rw [List.headD_cons] at hremove hrun
              split at hrun
              next hdirty =>
                obtain ⟨c₂, hwrite, hrun⟩ := bind_eq_ok.mp hrun
                obtain ⟨hwhole, -, hsame, hnotlast⟩ :=
                  h.write dev blknr hremove hdirty hwrite
                refine ih hwhole (fun _ => ?_) hrun
                rcases List.mem_cons.mp hy with rfl | hmem
                · exact absurd hend hnotlast
                · exact ⟨y, hmem, (hsame y hmem).mpr hend⟩
              next =>
                have hx := h.listed.free.entries x List.mem_cons_self
                have hnot : x ∉ l := (List.nodup_cons.mp h.listed.free.nodup).1
                obtain ⟨hwhole, -⟩ := h.removeFromFreeList hx hremove
                rw [List.erase_cons_head] at hwhole
                exact ⟨l, hwhole.recycle hx hnot hrun⟩

end Cache

/-! ## Runs -/

namespace Session

open Cache

variable {s s' : Session α} {op : Op α} {ops : List (Op α)} {env : Env α}

/-- The free list of the session is whole. -/
def Whole (s : Session α) : Prop := ∃ l, s.cache.Whole s.held l

theorem Whole.step (h : s.Whole) (hproper : s.Proper op)
    (hstocked : ∀ current dev blknr, request op = some (current, dev, blknr) →
      s.cache.Stocked dev blknr) (hstep : s.step env op = .ok s') : s'.Whole := by
  obtain ⟨l, h⟩ := h
  cases op with
  | getblk current dev blknr =>
      obtain ⟨r, hget, hret⟩ := bind_eq_ok.mp hstep
      obtain rfl := Except.ok.inj hret
      exact h.getblkLoop (h.stocked_iff.mp (hstocked current dev blknr rfl)) hget
  | bread current dev blknr =>
      obtain ⟨r, hread, hret⟩ := bind_eq_ok.mp hstep
      obtain rfl := Except.ok.inj hret
      obtain ⟨r₁, hget, hread⟩ := bind_eq_ok.mp hread
      obtain ⟨l', h₁⟩ := h.getblkLoop (h.stocked_iff.mp (hstocked current dev blknr rfl)) hget
      dsimp only at hread
      split at hread
      next =>
        obtain rfl := Except.ok.inj hread
        exact ⟨l', h₁⟩
      next =>
        obtain ⟨r₂, hio, hread⟩ := bind_eq_ok.mp hread
        obtain rfl := Except.ok.inj hread
        have h₂ := h₁.blkDevio hio
        dsimp only
        cases r₂.2 with
        | true => exact ⟨l', h₂⟩
        | false => exact ⟨l', h₂.mono (Finset.subset_insert _ _)⟩
  | modify x data =>
      obtain rfl := Except.ok.inj hstep
      have hunlocked : x ∈ l → (s.cache.buf x).bMutex.lock = false := fun hmem =>
        h.unlocked x hmem (Or.inl hproper)
      exact ⟨l, h.update (h.held x hproper) rfl rfl (fun hmem _ => hunlocked hmem) fun _ =>
        Option.some_ne_none data⟩
  | brelse x =>
      obtain ⟨c, hrel, hret⟩ := bind_eq_ok.mp hstep
      obtain rfl := Except.ok.inj hret
      obtain ⟨l', h'⟩ := h.release (hproper.imp_left fun hx => ⟨Or.inl hx, h.held x hx⟩) hrel
      exact ⟨l', h'.mono (Finset.erase_subset _ _)⟩
  | bwrite x =>
      obtain ⟨c, hwrite, hret⟩ := bind_eq_ok.mp hstep
      obtain rfl := Except.ok.inj hret
      obtain ⟨l', h'⟩ := h.bwrite (hproper.imp_left fun hx => ⟨hx, h.held x hx⟩) hwrite
      exact ⟨l', h'.mono (Finset.erase_subset _ _)⟩
  | bufferSync current =>
      obtain ⟨c, hsync, hret⟩ := bind_eq_ok.mp hstep
      obtain rfl := Except.ok.inj hret
      unfold Cache.bufferSync at hsync
      exact foldlM_invariant (fun c : Cache α => ∃ l, c.Whole s.held l)
        (fun c i c' _ ⟨l, h⟩ hslot => h.syncSlot hslot) ⟨l, h⟩ hsync

theorem Calls.imp {P Q : Cache α → ℕ → ℕ → ℕ → Prop} (h : s.Whole) (hproper : s.ProperRun env ops)
    (hPQ : ∀ s : Session α, s.Whole → ∀ current dev blknr,
      P s.cache current dev blknr → Q s.cache current dev blknr)
    (hQ : ∀ s : Session α, s.Whole → ∀ current dev blknr,
      Q s.cache current dev blknr → s.cache.Stocked dev blknr)
    (hcalls : s.Calls env P ops) : s.Calls env Q ops := by
  induction ops generalizing s with
  | nil => trivial
  | cons op ops ih =>
      obtain ⟨hop, hrest⟩ := hcalls
      have hop' : ∀ current dev blknr, request op = some (current, dev, blknr) →
          Q s.cache current dev blknr := fun current dev blknr hreq =>
        hPQ s h current dev blknr (hop current dev blknr hreq)
      refine ⟨hop', fun s' hstep => ?_⟩
      have hwhole := h.step hproper.1 (fun current dev blknr hreq =>
        hQ s h current dev blknr (hop' current dev blknr hreq)) hstep
      exact ih hwhole (hproper.2 s' hstep) (hrest s' hstep)

theorem init_whole (heap : Fin nrEntries → Buffer α) (disk : ℕ → ℕ → α) :
    (init heap disk).Whole := by
  refine ⟨allEntries, (Cache.bufferInit_linked heap disk).listed, Nest.bufferInit_inArray heap disk,
    ⟨rfl, rfl⟩, nofun, ?_, ?_⟩
  · rintro x hx (hmem | hdirty)
    · exact absurd hmem (Finset.notMem_empty x)
    · cases x <;> cases hdirty
  · rintro x hdirty
    cases x <;> cases hdirty

/-- In a run of `getblk` and the other calls, with clients which use what they hold, the dummy is
never taken for a buffer exactly if every `getblk` of an uncached block finds a last buffer on
the free list. -/
theorem calls_sparesDummy_iff (env : Env α) (heap : Fin nrEntries → Buffer α)
    (disk : ℕ → ℕ → α) (ops : List (Op α)) (hproper : (init heap disk).ProperRun env ops) :
    (init heap disk).Calls env (Cache.SparesDummy env) ops ↔
      (init heap disk).Calls env (fun c _ => c.Stocked) ops := by
  have hiff : ∀ s : Session α, s.Whole → ∀ current dev blknr,
      s.cache.SparesDummy env current dev blknr ↔ s.cache.Stocked dev blknr :=
    fun s ⟨l, h⟩ current dev blknr => h.sparesDummy_iff
  constructor
  · exact Calls.imp (init_whole heap disk) hproper
      (fun s h current dev blknr => (hiff s h current dev blknr).mp) fun s h current dev blknr => id
  · exact Calls.imp (init_whole heap disk) hproper
      (fun s h current dev blknr => (hiff s h current dev blknr).mpr)
      fun s h current dev blknr => (hiff s h current dev blknr).mp

/-- The blocks 5 and 5 again, for two processes. -/
theorem calls_sparesDummy_twice :
    (init (fun _ => Cache.zeroBuffer) fun _ n => n : Session ℕ).Calls
      ⟨fun _ => 1024, fun _ => true, fun _ => 0⟩
      (Cache.SparesDummy ⟨fun _ => 1024, fun _ => true, fun _ => 0⟩)
      [.getblk 1 0x300 5, .bread 2 0x300 5] := by
  have hproper : (init (fun _ => Cache.zeroBuffer) fun _ n => n : Session ℕ).ProperRun
      ⟨fun _ => 1024, fun _ => true, fun _ => 0⟩ [.getblk 1 0x300 5, .bread 2 0x300 5] :=
    ⟨trivial, fun _ _ => ⟨trivial, fun _ _ => trivial⟩⟩
  refine (calls_sparesDummy_iff _ _ _ _ hproper).mpr ⟨?_, fun s hstep => ⟨?_, fun _ _ => trivial⟩⟩
  · intro current dev blknr _ _
    exact ⟨⟨0, by decide⟩, by decide, Or.inl rfl⟩
  · intro current dev blknr hreq hmiss
    have hfound : ((init (fun _ => Cache.zeroBuffer) fun _ n => n : Session ℕ).step
        ⟨fun _ => 1024, fun _ => true, fun _ => 0⟩ (.getblk 1 0x300 5)).map
          (fun s => s.cache.inHashQueue 0x300 5) = .ok (.ok (some (.entry ⟨0, by decide⟩))) := by
      decide +kernel
    rw [hstep] at hfound
    cases hreq
    cases (Except.ok.inj hfound).symm.trans hmiss

/-- What the calls of a run have kept for the next operation. -/
theorem Whole.run (h : s.Whole) (hproper : s.ProperRun env (ops ++ [op]))
    (hcalls : s.Calls env (Cache.SparesDummy env) (ops ++ [op])) (hrun : s.run env ops = .ok s') :
    s'.Whole ∧ ∀ current dev blknr, request op = some (current, dev, blknr) →
      s'.cache.SparesDummy env current dev blknr := by
  induction ops generalizing s with
  | nil =>
      obtain rfl := Except.ok.inj hrun
      exact ⟨h, hcalls.1⟩
  | cons op' ops ih =>
      unfold Session.run at hrun
      rw [List.foldlM_cons] at hrun
      obtain ⟨s₁, hstep, hrest⟩ := bind_eq_ok.mp hrun
      obtain ⟨l, hl⟩ := id h
      have hstocked : ∀ current dev blknr, request op' = some (current, dev, blknr) →
          s.cache.Stocked dev blknr := fun current dev blknr hreq =>
        hl.sparesDummy_iff.mp (hcalls.1 current dev blknr hreq)
      exact ih (h.step hproper.1 hstocked hstep) (hproper.2 s₁ hstep) (hcalls.2 s₁ hstep) hrest

theorem properRun_getblk (env : Env α) (s : Session α) (blocks : List ℕ) :
    s.ProperRun env (blocks.map fun blknr => .getblk 1 0x300 blknr) := by
  induction blocks generalizing s with
  | nil => trivial
  | cons blknr blocks ih => exact ⟨trivial, fun s' _ => ih s'⟩

/-- After all buffers have been got, the next `getblk` takes the dummy. -/
theorem not_calls_sparesDummy_exhausted :
    ¬∀ (env : Env ℕ) (heap : Fin nrEntries → Buffer ℕ) (disk : ℕ → ℕ → ℕ) (ops : List (Op ℕ)),
      (init heap disk).ProperRun env ops →
      (init heap disk).Calls env (Cache.SparesDummy env) ops := by
  intro h
  have hcalls := h ⟨fun _ => 1024, fun _ => true, fun _ => 0⟩ (fun _ => Cache.zeroBuffer)
    (fun _ n => n) ((List.range 129).map fun blknr => .getblk 1 0x300 blknr)
    (properRun_getblk _ _ _)
  have hproper := properRun_getblk ⟨fun _ => 1024, fun _ => true, fun _ => 0⟩
    (init (fun _ => Cache.zeroBuffer) fun _ n => n : Session ℕ) (List.range 129)
  have hempty : ((init (fun _ => Cache.zeroBuffer) fun _ n => n : Session ℕ).run
      ⟨fun _ => 1024, fun _ => true, fun _ => 0⟩
      ((List.range 128).map fun blknr => .getblk 1 0x300 blknr)).map
        (fun s => (s.cache.ptrs.free.next .freeList, s.cache.inHashQueue 0x300 128)) =
      .ok (some .freeList, .ok none) := by
    decide +kernel
  rw [List.range_succ, List.map_append] at hcalls hproper
  cases hrun : (init (fun _ => Cache.zeroBuffer) fun _ n => n : Session ℕ).run
      ⟨fun _ => 1024, fun _ => true, fun _ => 0⟩
      ((List.range 128).map fun blknr => .getblk 1 0x300 blknr) with
  | error e =>
      rw [hrun] at hempty
      cases hempty
  | ok s =>
      rw [hrun] at hempty
      obtain ⟨hnext, hmiss⟩ := Prod.mk.inj (Except.ok.inj hempty)
      obtain ⟨⟨l, hl⟩, hspares⟩ := (init_whole _ _).run hproper hcalls hrun
      obtain ⟨i, hfree, -⟩ := hl.sparesDummy_iff.mp (hspares 1 0x300 128 rfl) hmiss
      have hhead := hl.next_freeList hnext
      cases l with
      | nil => exact List.not_mem_nil ((hl.listed.mem_iff i).mpr hfree)
      | cons x l =>
          obtain ⟨j, hj⟩ := hl.listed.free.entries x List.mem_cons_self
          rw [List.headD_cons, hj] at hhead
          cases hhead

end Session

end Yak.BufferCache
