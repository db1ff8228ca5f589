import Yak.BufferLists

/-!
# The buffer cache is transparent

One process reads and changes the blocks of one disk through the cache.  The
abstract device `Device` is what the process means to use: a function from
block numbers to contents.  `Coherent` relates a state of the cache to these
contents: a buffer which is valid or dirty has the contents of its block, and
a block without a dirty buffer has its contents on the disk.

The cache deviates from the device where it hits one of its defects: `bread`
reads a dirty buffer back from the disk if it was never read before, the dummy
or the head of a hash queue is recycled, and a clean buffer is released through
the pointer which `buffer_init` leaves behind the array.
-/

namespace Yak.BufferCache

open Yak.Cache LinkedRing

variable {α : Type}

/-! ## The client -/

inductive Request (α : Type) where
  | getblk (blknr : ℕ)
  | bread (blknr : ℕ)
  /-- Change the data of the held buffer of this block and set `B_DWRITE`. -/
  | modify (blknr : ℕ) (data : α)
  | brelse (blknr : ℕ)
  | bufferSync

/-- The cache, and the buffer which the process got last for each block. -/
structure Client (α : Type) where
  cache : Cache α
  handle : ℕ → Option Node

/-- The process and the device which it uses. -/
structure User where
  current : ℕ
  dev : ℕ

namespace Client

/-- One call, with the data which a `bread` shows to the process. -/
def step (env : Env α) (u : User) (s : Client α) :
    Request α → Except Halt (Client α × List (Option α))
  | .getblk n => do
      let (bp, c) ← s.cache.getblk env u.current u.dev n
      .ok (⟨c, Function.update s.handle n (some bp)⟩, [])
  | .bread n => do
      let (r, c) ← s.cache.bread env u.current u.dev n
      .ok (⟨c, Function.update s.handle n r⟩, [r.bind fun bp => (c.buf bp).bData])
  | .modify n data =>
      match s.handle n with
      | none => .error .nullDeref
      | some bp =>
          .ok ({ s with
            cache := s.cache.modify bp fun b => { b with bData := some data, dwrite := true } }, [])
  | .brelse n =>
      match s.handle n with
      | none => .error .nullDeref
      | some bp => do
          let c ← s.cache.brelse bp
          .ok ({ s with cache := c }, [])
  | .bufferSync => do
      let c ← s.cache.bufferSync env u.current
      .ok ({ s with cache := c }, [])

def run (env : Env α) (u : User) : Client α → List (Request α) →
    Except Halt (Client α × List (Option α))
  | s, [] => .ok (s, [])
  | s, r :: rs => do
      let (s, out) ← s.step env u r
      let (s, outs) ← run env u s rs
      .ok (s, out ++ outs)

/-- The memory of the array holds anything but pointers to data, which `getblk` would free. -/
def init (heap : Fin nrEntries → Buffer α) (disk : ℕ → ℕ → α) : Client α :=
  ⟨Cache.bufferInit (fun i => { heap i with bData := none }) disk, fun _ => none⟩

end Client

/-! ## The device -/

namespace Device

def next (content : ℕ → α) : Request α → ℕ → α
  | .modify n data => Function.update content n data
  | .getblk _ | .bread _ | .brelse _ | .bufferSync => content

/-- What a request shows to the process. -/
def shows (content : ℕ → α) : Request α → List (Option α)
  | .bread n => [some (content n)]
  | .getblk _ | .modify _ _ | .brelse _ | .bufferSync => []

/-- Every `bread` shows the last modification of its block, or the initial
contents. -/
def reads (content : ℕ → α) : List (Request α) → List (Option α)
  | [] => []
  | r :: rs => shows content r ++ reads (next content r) rs

end Device

/-! ## Safe runs -/

namespace Cache

/-- A buffer other than the dummy, whose write is not delayed. -/
def isClean (c : Cache α) (x : Node) : Bool := decide (x ≠ .freeList) && !(c.buf x).dwrite

/-- The first clean buffer of the free list. -/
def victim (c : Cache α) : Option Node :=
  (c.ptrs.free.search c.isClean .freeList (nrEntries + 2) .freeList).join

/-- The buffer can get this key: it has no garbage in its mutex and its data
pointer, and the rings survive. -/
structure Available (env : Env α) (c : Cache α) (dev blknr : ℕ) (x : Node) : Prop where
  unlocked : (c.buf x).bMutex.lock = false
  data : (c.buf x).bBlksize = env.blocksize dev → (c.buf x).bData.isSome
  recyclable : c.Recyclable dev blknr x

/-- The block is in the cache, or the buffer which `getblk` takes for it can be
taken. -/
def Obtainable (env : Env α) (c : Cache α) (dev blknr : ℕ) : Prop :=
  match c.inHashQueue dev blknr with
  | .ok none => ∃ x, c.victim = some x ∧ c.Available env dev blknr x
  | _ => True

/-- A dirty buffer of the block has been read before. -/
def Reread (c : Cache α) (dev blknr : ℕ) : Prop :=
  match c.inHashQueue dev blknr with
  | .ok (some x) => (c.buf x).dwrite = true → (c.buf x).done = true
  | _ => True

/-- The end of the free list can be reached. -/
def TailSound (c : Cache α) : Prop := c.ptrs.free.prev .freeList ≠ some .past

end Cache

namespace Client

def SafeStep (env : Env α) (u : User) (s : Client α) : Request α → Prop
  | .getblk n => s.cache.Obtainable env u.dev n
  | .bread n => s.cache.Obtainable env u.dev n ∧ s.cache.Reread u.dev n
  | .modify n _ => ∃ x, s.handle n = some x ∧ s.cache.Carries x u.dev n
  | .brelse n => ∃ x, s.handle n = some x ∧
      ((s.cache.buf x).bMutex.lock = true → (s.cache.buf x).dwrite = false → s.cache.TailSound)
  | .bufferSync => (∃ i, (s.cache.buf (.entry i)).dwrite = true ∧
      (s.cache.buf (.entry i)).bMutex.lock = true) → s.cache.TailSound

def SafeRun (env : Env α) (u : User) (s : Client α) : List (Request α) → Prop
  | [] => True
  | r :: rs =>
      SafeStep env u s r ∧
        match s.step env u r with
        | .ok (s', _) => SafeRun env u s' rs
        | .error _ => True

end Client

/-! These conditions can be evaluated. -/

instance (c : Cache α) : Decidable c.TailSound := inferInstanceAs (Decidable (_ ≠ _))

instance (env : Env α) (c : Cache α) (dev blknr : ℕ) (x : Node) :
    Decidable (c.Available env dev blknr x) :=
  decidable_of_iff ((c.buf x).bMutex.lock = false ∧
      ((c.buf x).bBlksize = env.blocksize dev → (c.buf x).bData.isSome) ∧
      c.Recyclable dev blknr x)
    ⟨fun h => ⟨h.1, h.2.1, h.2.2⟩, fun h => ⟨h.unlocked, h.data, h.recyclable⟩⟩

instance (env : Env α) (c : Cache α) (dev blknr : ℕ) : Decidable (c.Obtainable env dev blknr) :=
  decidable_of_iff (c.inHashQueue dev blknr = .ok none →
      ∃ x, x ∈ c.victim ∧ c.Available env dev blknr x) (by
    unfold Cache.Obtainable
    split
    next h => simp [h]
    next h => simp only [iff_true]; exact fun heq => (h heq).elim)

instance (c : Cache α) (dev blknr : ℕ) : Decidable (c.Reread dev blknr) :=
  match h : c.inHashQueue dev blknr with
  | .ok (some x) =>
      decidable_of_iff ((c.buf x).dwrite = true → (c.buf x).done = true) (by rw [Cache.Reread, h])
  | .ok none => isTrue (by simp only [Cache.Reread, h])
  | .error _ => isTrue (by simp only [Cache.Reread, h])

namespace Client

instance (env : Env α) (u : User) (s : Client α) : (r : Request α) → Decidable (SafeStep env u s r)
  | .getblk n => inferInstanceAs (Decidable (s.cache.Obtainable env u.dev n))
  | .bread n =>
      inferInstanceAs (Decidable (s.cache.Obtainable env u.dev n ∧ s.cache.Reread u.dev n))
  | .modify n _ =>
      inferInstanceAs (Decidable (∃ x, x ∈ s.handle n ∧ ((s.cache.buf x).bDev = u.dev ∧
        (s.cache.buf x).bBlknr = n)))
  | .brelse n =>
      inferInstanceAs (Decidable (∃ x, x ∈ s.handle n ∧ ((s.cache.buf x).bMutex.lock = true →
        (s.cache.buf x).dwrite = false → s.cache.TailSound)))
  | .bufferSync =>
      inferInstanceAs (Decidable ((∃ i, (s.cache.buf (.entry i)).dwrite = true ∧
        (s.cache.buf (.entry i)).bMutex.lock = true) → s.cache.TailSound))

def decidableSafeRun (env : Env α) (u : User) : (rs : List (Request α)) → (s : Client α) →
    Decidable (SafeRun env u s rs)
  | [], _ => .isTrue trivial
  | r :: rs, s =>
      match h : s.step env u r with
      | .ok (s', _) =>
          have := decidableSafeRun env u rs s'
          decidable_of_iff (SafeStep env u s r ∧ SafeRun env u s' rs) (by rw [SafeRun, h])
      | .error _ => decidable_of_iff (SafeStep env u s r) (by rw [SafeRun, h]; simp)

instance (env : Env α) (u : User) (s : Client α) (rs : List (Request α)) :
    Decidable (SafeRun env u s rs) :=
  decidableSafeRun env u rs s

end Client

/-! ## Coherence -/

/-- The device is a mounted disk and its drive works. -/
structure Mounted (env : Env α) (dev : ℕ) : Prop where
  major : devMajor dev = hdDev
  size : env.blocksize dev / sectorSize ≠ 0
  drive : ∀ t, env.driveRw t = true

/-- What is known about a buffer which is on a ring. -/
structure Line (env : Env α) (u : User) (content : ℕ → α) (l : List Node) (x : Node)
    (b : Buffer α) : Prop where
  dev : b.bDev = u.dev
  size : b.bBlksize = env.blocksize u.dev
  data : b.bData.isSome
  valid : b.done = true ∨ b.dwrite = true → b.bData = some (content b.bBlknr)
  mutex : b.bMutex.lock = true → b.bMutex.owner = some u.current ∧ x ∉ l

structure Coherent (env : Env α) (u : User) (content : ℕ → α) (c : Cache α) (l : List Node)
    (rings : ℕ → List Node) : Prop where
  linked : c.Linked l rings
  lines : ∀ q, ∀ x ∈ rings q, Line env u content l x (c.buf x)
  disk : ∀ n, (∀ q, ∀ x ∈ rings q, (c.buf x).bBlknr = n → (c.buf x).dwrite = false) →
    c.disk u.dev n = content n
  clean : ∀ i, (∀ q, Node.entry i ∉ rings q) → (c.buf (.entry i)).dwrite = false

variable {env : Env α} {u : User} {content : ℕ → α} {c c' : Cache α} {l l' : List Node}
variable {rings : ℕ → List Node} {x : Node} {n q : ℕ}

theorem Line.mono {b : Buffer α} (h : Line env u content l x b)
    (hl : x ∈ l' → x ∈ l) : Line env u content l' x b where
  dev := h.dev
  size := h.size
  data := h.data
  valid := h.valid
  mutex hlock := ⟨(h.mutex hlock).1, fun hx => (h.mutex hlock).2 (hl hx)⟩

theorem Coherent.relist (h : Coherent env u content c l rings) (hlinked : c'.Linked l' rings)
    (hbuf : c'.buf = c.buf) (hdisk : c'.disk = c.disk) (hl : ∀ x ∈ l', x ∈ l) :
    Coherent env u content c' l' rings where
  linked := hlinked
  lines q x hx := by
    rw [hbuf]
    exact (h.lines q x hx).mono (hl x)
  disk n hn := by
    rw [hbuf] at hn
    rw [hdisk]
    exact h.disk n hn
  clean i hi := by
    rw [hbuf]
    exact h.clean i hi

theorem Coherent.unique (h : Coherent env u content c l rings) {y : Node} {q' : ℕ}
    (hx : x ∈ rings q) (hy : y ∈ rings q') (hblknr : (c.buf x).bBlknr = (c.buf y).bBlknr) :
    x = y := by
  have hdev : (c.buf x).bDev = (c.buf y).bDev := by
    rw [(h.lines q x hx).dev, (h.lines q' y hy).dev]
  have hq : q = q' := by
    rw [h.linked.keyed q x hx, h.linked.keyed q' y hy, hdev, hblknr]
  rw [← hq] at hy
  exact h.linked.distinct q x y hx hy hdev hblknr

theorem Coherent.update (h : Coherent env u content c l rings) (hx : x ∈ rings q)
    {b : Buffer α} {content' : ℕ → α} (hlinked : c'.Linked l' rings)
    (hbuf : c'.buf = Function.update c.buf x b)
    (hblknr : b.bBlknr = (c.buf x).bBlknr)
    (hline : Line env u content' l' x b)
    (hdisk : (b.dwrite = false → c'.disk u.dev b.bBlknr = content' b.bBlknr) ∧
      ∀ m, m ≠ b.bBlknr → c'.disk u.dev m = c.disk u.dev m ∧ content' m = content m)
    (hl : ∀ y ∈ l', y ≠ x → y ∈ l) : Coherent env u content' c' l' rings := by
  have hother : ∀ {y}, y ≠ x → c'.buf y = c.buf y := by
    intro y hy
    rw [hbuf, Function.update_of_ne hy]
  have hself : c'.buf x = b := by
    rw [hbuf, Function.update_self]
  refine ⟨hlinked, ?_, ?_, ?_⟩
  · intro q' y hy
    by_cases hyx : y = x
    · rw [hyx, hself]
      exact hline
    · rw [hother hyx]
      have hold : Line env u content l' y (c.buf y) :=
        (h.lines q' y hy).mono fun hy' => hl y hy' hyx
      have hne : (c.buf y).bBlknr ≠ b.bBlknr := by
        rw [hblknr]
        exact fun heq => hyx (h.unique hy hx heq)
      refine ⟨hold.dev, hold.size, hold.data, ?_, hold.mutex⟩
      rw [(hdisk.2 _ hne).2]
      exact hold.valid
  · intro m hm
    by_cases hmx : m = b.bBlknr
    · rw [hmx]
      apply hdisk.1
      rw [← hself]
      apply hm q x hx
      rw [hself, hmx]
    · rw [(hdisk.2 m hmx).1, (hdisk.2 m hmx).2]
      apply h.disk m
      intro q' y hy hym
      have hyx : y ≠ x := by
        rintro rfl
        exact hmx (hblknr.trans hym).symm
      rw [← hother hyx]
      apply hm q' y hy
      rw [hother hyx]
      exact hym
  · intro i hi
    have hix : Node.entry i ≠ x := fun heq => hi q (heq ▸ hx)
    rw [hother hix]
    exact h.clean i hi

/-! ## Requests to the drive -/

theorem blkDevio_of_mounted (hm : Mounted env u.dev) (hdev : (c.buf x).bDev = u.dev)
    (hsize : (c.buf x).bBlksize = env.blocksize u.dev) {data : α}
    (hdata : (c.buf x).bData = some data) (rw : Rw) :
    c.blkDevio env x rw = .ok ((c.transfer x data rw).tick, true) := by
  unfold Cache.blkDevio Cache.hddevPhysio
  rw [if_pos (by rw [hdev]; exact hm.major), if_neg (by simp [hm.drive]),
    if_neg (by rw [hsize]; exact hm.size), hdata]

theorem Coherent.read (h : Coherent env u content c l rings) (hm : Mounted env u.dev)
    (hx : x ∈ rings q) (hclean : (c.buf x).dwrite = false) :
    ∃ c', c.blkDevio env x .read = .ok (c', true) ∧ Coherent env u content c' l rings ∧
      (c'.buf x).bData = some (content (c.buf x).bBlknr) := by
  have hline := h.lines q x hx
  obtain ⟨data, hdata⟩ := Option.isSome_iff_exists.mp hline.data
  have hcontent : c.disk u.dev (c.buf x).bBlknr = content (c.buf x).bBlknr := by
    apply h.disk
    intro q' y hy hblknr
    rw [h.unique hy hx hblknr]
    exact hclean
  have hbuf : ((c.transfer x data .read).tick).buf = Function.update c.buf x
      { c.buf x with bData := some (c.disk (c.buf x).bDev (c.buf x).bBlknr), done := true } := rfl
  have hlinked : ((c.transfer x data .read).tick).Linked l rings :=
    (h.linked.modify (x := x) (f := fun b =>
      { b with bData := some (c.disk b.bDev b.bBlknr), done := true }) rfl rfl).congr rfl
        fun _ => ⟨rfl, rfl⟩
  refine ⟨_, blkDevio_of_mounted hm hline.dev hline.size hdata .read, ?_, ?_⟩
  · refine h.update hx hlinked hbuf rfl ⟨hline.dev, hline.size, rfl, ?_, hline.mutex⟩
      ⟨fun _ => hcontent, fun _ _ => ⟨rfl, rfl⟩⟩ fun _ hy _ => hy
    intro _
    simp only [hline.dev, hcontent]
  · rw [hbuf, Function.update_self]
    simp only [hline.dev, hcontent]

theorem Coherent.write (h : Coherent env u content c l rings) (hm : Mounted env u.dev)
    (hx : x ∈ rings q) (hdirty : (c.buf x).dwrite = true) :
    ∃ c', (c.modify x fun b => { b with dwrite := false }).blkDevio env x .write = .ok (c', true) ∧
      Coherent env u content c' l rings ∧ c'.ptrs = c.ptrs ∧
      c'.buf = Function.update c.buf x { c.buf x with dwrite := false, done := true } := by
  have hline := h.lines q x hx
  have hdata : (c.buf x).bData = some (content (c.buf x).bBlknr) := hline.valid (Or.inr hdirty)
  obtain ⟨c₀, hc₀⟩ : ∃ c₀, c₀ = c.modify x fun b => { b with dwrite := false } := ⟨_, rfl⟩
  have hself : c₀.buf x = { c.buf x with dwrite := false } := by
    rw [hc₀, Cache.modify_buf_self]
  have hrun : c₀.blkDevio env x .write =
      .ok ((c₀.transfer x (content (c.buf x).bBlknr) .write).tick, true) := by
    apply blkDevio_of_mounted hm
    · rw [hself]
      exact hline.dev
    · rw [hself]
      exact hline.size
    · rw [hself]
      exact hdata
  have hbuf : ((c₀.transfer x (content (c.buf x).bBlknr) .write).tick).buf =
      Function.update c.buf x { c.buf x with dwrite := false, done := true } := by
    have hstep : ((c₀.transfer x (content (c.buf x).bBlknr) .write).tick).buf =
        Function.update c₀.buf x { c₀.buf x with done := true } := rfl
    rw [hstep, hself, hc₀]
    simp [Cache.modify]
  have hptrs : ((c₀.transfer x (content (c.buf x).bBlknr) .write).tick).ptrs = c.ptrs := by
    rw [hc₀]
    rfl
  have hdisk : ((c₀.transfer x (content (c.buf x).bBlknr) .write).tick).disk =
      Function.update c.disk u.dev (Function.update (c.disk u.dev) (c.buf x).bBlknr
        (content (c.buf x).bBlknr)) := by
    have hstep : ((c₀.transfer x (content (c.buf x).bBlknr) .write).tick).disk =
        Function.update c₀.disk (c₀.buf x).bDev (Function.update (c₀.disk (c₀.buf x).bDev)
          (c₀.buf x).bBlknr (content (c.buf x).bBlknr)) := rfl
    rw [hstep, hself, hc₀, Cache.modify_disk]
    simp only [hline.dev]
  have hlinked : ((c₀.transfer x (content (c.buf x).bBlknr) .write).tick).Linked l rings := by
    apply h.linked.congr hptrs
    intro y
    rw [hbuf]
    by_cases hy : y = x
    · rw [hy, Function.update_self]
      exact ⟨rfl, rfl⟩
    · rw [Function.update_of_ne hy]
      exact ⟨rfl, rfl⟩
  rw [hc₀] at hrun hbuf hptrs hdisk hlinked
  refine ⟨_, hrun, ?_, hptrs, hbuf⟩
  refine h.update hx hlinked hbuf rfl ⟨hline.dev, hline.size, hline.data, fun _ => hdata,
    hline.mutex⟩ ⟨fun _ => ?_, fun m hm => ⟨?_, rfl⟩⟩ fun _ hy _ => hy
  · rw [hdisk, Function.update_self, Function.update_self]
  · rw [hdisk, Function.update_self, Function.update_of_ne hm]

theorem Cache.brelse_of_unlocked (hlock : (c.buf x).bMutex.lock = false) :
    c.brelse x = .ok c := by
  unfold Cache.brelse
  rw [if_pos hlock]

theorem Coherent.brelse (h : Coherent env u content c l rings) (hx : x ∈ rings q)
    (htail : (c.buf x).bMutex.lock = true → (c.buf x).dwrite = false → c.TailSound) :
    ∃ c' l', c.brelse x = .ok c' ∧ Coherent env u content c' l' rings ∧
      (c.TailSound → c'.TailSound) ∧ (c'.buf x).dwrite = (c.buf x).dwrite ∧
      ∀ y, y ≠ x → c'.buf y = c.buf y := by
  cases hlock : (c.buf x).bMutex.lock with
  | false => exact ⟨c, l, Cache.brelse_of_unlocked hlock, h, id, rfl, fun _ _ => rfl⟩
  | true =>
      have hline := h.lines q x hx
      have hoff : x ∉ l := (hline.mutex hlock).2
      rcases h.linked.putIntoFreeList hoff (h.linked.hash.entries q x hx) with
        ⟨_, hunsound, hclean, _⟩ | ⟨c₁, l', hput, hlinked, hsame, hmem, hsound⟩
      · exact (hunsound (h.linked.sound_iff.mpr (htail hlock hclean))).elim
      · obtain ⟨c₂, hc₂⟩ : ∃ c₂, c₂ = c₁.modify x fun b => { b with bMutex := mutexUnlock } :=
          ⟨_, rfl⟩
        have hrun : c.brelse x = .ok c₂ := by
          unfold Cache.brelse
          rw [if_neg (by simp [hlock]), hput, hc₂]
          rfl
        have hbuf : c₂.buf = Function.update c.buf x { c.buf x with bMutex := mutexUnlock } := by
          rw [hc₂, ← hsame.buf]
          rfl
        have hlinked₂ : c₂.Linked l' rings := by
          rw [hc₂]
          exact hlinked.modify rfl rfl
        have hdisk : c₂.disk = c.disk := by
          rw [hc₂, Cache.modify_disk, hsame.disk]
        refine ⟨c₂, l', hrun, ?_, ?_, ?_, ?_⟩
        · refine h.update hx hlinked₂ hbuf rfl ⟨hline.dev, hline.size, hline.data, hline.valid, ?_⟩
            ⟨?_, fun m _ => ⟨by rw [hdisk], rfl⟩⟩ ?_
          · intro hfalse
            cases hfalse
          · intro hclean
            rw [hdisk]
            apply h.disk
            intro q' y hy hblknr
            rw [h.unique hy hx hblknr]
            exact hclean
          · intro y hy hyx
            exact ((hmem y).mp hy).resolve_left hyx
        · intro htail'
          have hs := hsound (h.linked.sound_iff.mpr htail')
          unfold Cache.TailSound
          rw [hc₂, Cache.modify_ptrs]
          exact hlinked.sound_iff.mp hs
        · rw [hbuf, Function.update_self]
        · intro y hy
          rw [hbuf, Function.update_of_ne hy]

theorem Coherent.bwrite (h : Coherent env u content c l rings) (hm : Mounted env u.dev)
    (hx : x ∈ rings q) (hdirty : (c.buf x).dwrite = true)
    (htail : (c.buf x).bMutex.lock = true → c.TailSound) :
    ∃ c' l', (c.modify x fun b => { b with dwrite := false }).bwrite env x = .ok c' ∧
      Coherent env u content c' l' rings ∧ (c.TailSound → c'.TailSound) ∧
      (c'.buf x).dwrite = false ∧ ∀ y, y ≠ x → c'.buf y = c.buf y := by
  obtain ⟨c₁, hwrite, h₁, hptrs, hbuf⟩ := h.write hm hx hdirty
  have htail₁ : (c₁.buf x).bMutex.lock = true → (c₁.buf x).dwrite = false → c₁.TailSound := by
    intro hlock _
    rw [hbuf, Function.update_self] at hlock
    unfold Cache.TailSound
    rw [hptrs]
    exact htail hlock
  obtain ⟨c₂, l', hrel, h₂, hsound, hdwrite, hother⟩ := h₁.brelse hx htail₁
  refine ⟨c₂, l', ?_, h₂, ?_, ?_, ?_⟩
  · unfold Cache.bwrite
    rw [hwrite]
    exact hrel
  · intro htail'
    apply hsound
    unfold Cache.TailSound
    rw [hptrs]
    exact htail'
  · rw [hdwrite, hbuf, Function.update_self]
  · intro y hy
    rw [hother y hy, hbuf, Function.update_of_ne hy]

/-! ## Fetching -/

theorem Cache.Linked.victim (h : c.Linked l rings) : c.victim = l.find? c.isClean := by
  have hlen : l.length < nrEntries + 2 := by
    have := length_le_nrEntries h.free.nodup h.free.entries
    omega
  have hsearch : (c.ptrs.free.setPrev .freeList (some (lastFree l))).search c.isClean .freeList
      (nrEntries + 2) .freeList = some ((Node.freeList :: l).find? c.isClean) :=
    h.free.ring.search hlen
  rw [Links.search_setPrev] at hsearch
  unfold Cache.victim
  rw [hsearch]
  simp [Cache.isClean]

theorem Coherent.lockFound (h : Coherent env u content c l rings) (hx : x ∈ rings q) :
    ∃ c', c.lockFound u.current x = .ok (x, c') ∧
      Coherent env u content c' (l.erase x) rings ∧
      c'.buf = Function.update c.buf x { c.buf x with bMutex := taken u.current } := by
  have hline := h.lines q x hx
  have hne : x ≠ .freeList := by
    obtain ⟨i, rfl⟩ := h.linked.hash.entries q x hx
    simp
  have husable : Usable (c.buf x).bMutex u.current := fun hlock => (hline.mutex hlock).1
  obtain ⟨c', hrun, hlinked, hsame, _⟩ := h.linked.lockFound hne husable
  have hbuf : c'.buf =
      Function.update c.buf x { c.buf x with bMutex := taken u.current } := hsame.buf
  refine ⟨c', hrun, ?_, hbuf⟩
  refine h.update hx hlinked hbuf rfl ⟨hline.dev, hline.size, hline.data, hline.valid, ?_⟩
    ⟨?_, fun m _ => ⟨by rw [hsame.disk, Cache.modify_disk], rfl⟩⟩
      fun y hy _ => List.mem_of_mem_erase hy
  · intro _
    exact ⟨rfl, h.linked.free.nodup.not_mem_erase⟩
  · intro hclean
    rw [hsame.disk, Cache.modify_disk]
    apply h.disk
    intro q' y hy hblknr
    rw [h.unique hy hx hblknr]
    exact hclean

/-- A clean buffer off the free list gets a new key. -/
theorem Coherent.recycle (h : Coherent env u content c l rings) (hm : Mounted env u.dev)
    (hentry : ∃ i, x = Node.entry i) (hoff : x ∉ l) (hclean : (c.buf x).dwrite = false)
    (havail : c.Available env u.dev n x)
    (hmiss : ∀ q, ∀ y ∈ rings q, ¬ c.Carries y u.dev n) :
    ∃ c' rings', c.recycle env u.current u.dev n x = .ok (x, c') ∧
      Coherent env u content c' l rings' ∧ x ∈ rings' (bufHash u.dev n) ∧
      (c'.buf x).bBlknr = n ∧ (c'.buf x).dwrite = false ∧
      ∀ q, ∀ y ∈ rings q, ∃ q', y ∈ rings' q' := by
  have husable : Usable (c.buf x).bMutex u.current := by
    intro hlock
    rw [havail.unlocked] at hlock
    cases hlock
  obtain ⟨c', rings', hrun, hlinked, hsame, _, hmem⟩ :=
    h.linked.recycled env hentry husable havail.recyclable hmiss
  have hself : x ∈ rings' (bufHash u.dev n) := (hmem _ _).mpr (Or.inr ⟨rfl, rfl⟩)
  have hother : ∀ {y}, y ≠ x → c'.buf y = c.buf y := by
    intro y hy
    rw [hsame.buf, c.rekey_buf_of_ne env _ u.dev n hy]
  have hdisk : c'.disk = c.disk := hsame.disk
  have hb : c'.buf x = (c.rekey env (taken u.current) u.dev n x).buf x := by
    rw [hsame.buf]
  have hold : ∀ {q y}, y ∈ rings' q → y ≠ x → y ∈ rings q := by
    intro q y hy hyx
    rcases (hmem q y).mp hy with ⟨_, hyq⟩ | ⟨heq, _⟩
    · exact hyq
    · exact (hyx heq).elim
  have hline : Line env u content l x (c'.buf x) := by
    rw [hb]
    refine ⟨?_, ?_, ?_, ?_, ?_⟩
    · simp [Cache.rekey, Cache.tick]
    · simp [Cache.rekey, Cache.tick]
    · simp only [Cache.rekey, Cache.tick, Cache.modify_buf_self]
      split
      next => rfl
      next hsame =>
        rw [not_and_or, not_not, not_not] at hsame
        rcases hsame with hzero | hsize
        · exact (hm.size (by rw [hzero, Nat.zero_div])).elim
        · exact havail.data hsize
    · simp [Cache.rekey, Cache.tick]
    · intro _
      exact ⟨by simp [Cache.rekey, Cache.tick, taken], hoff⟩
  refine ⟨c', rings', hrun, ⟨hlinked, ?_, ?_, ?_⟩, hself, ?_, ?_, ?_⟩
  · intro q y hy
    by_cases hyx : y = x
    · rw [hyx]
      exact hline
    · rw [hother hyx]
      exact h.lines q y (hold hy hyx)
  · intro m hm
    rw [hdisk]
    apply h.disk m
    intro q y hy hym
    by_cases hyx : y = x
    · rw [hyx]
      exact hclean
    · rw [← hother hyx]
      apply hm q y ((hmem q y).mpr (Or.inl ⟨hyx, hy⟩))
      rw [hother hyx]
      exact hym
  · intro i hi
    have hix : Node.entry i ≠ x := fun heq => hi _ (heq ▸ hself)
    rw [hother hix]
    apply h.clean
    intro q hq
    exact hi q ((hmem q _).mpr (Or.inl ⟨hix, hq⟩))
  · rw [hb]
    exact (c.rekey_carries env _ u.dev n x).2
  · rw [hb]
    simp [Cache.rekey, Cache.tick]
  · intro q y hy
    by_cases hyx : y = x
    · exact ⟨_, hyx ▸ hself⟩
    · exact ⟨q, (hmem q y).mpr (Or.inl ⟨hyx, hy⟩)⟩

/-- The turns of `getblk` write out the dirty buffers at the start of the free
list and then take the first clean one. -/
theorem Coherent.getblkLoop (hm : Mounted env u.dev) {fuel : ℕ} :
    ∀ {c l}, Coherent env u content c l rings → c.inHashQueue u.dev n = .ok none →
      l.find? c.isClean = some x → c.Available env u.dev n x → l.length < fuel →
      ∃ c' l' rings', Cache.getblkLoop env u.current u.dev n fuel c = .ok (x, c') ∧
        Coherent env u content c' l' rings' ∧ x ∈ rings' (bufHash u.dev n) ∧
        (c'.buf x).bBlknr = n ∧ (c'.buf x).dwrite = false ∧
        ∀ q, ∀ y ∈ rings q, ∃ q', y ∈ rings' q' := by
  induction fuel with
  | zero =>
      intro c l _ _ _ _ hlen
      exact absurd hlen (Nat.not_lt_zero _)
  | succ fuel ih =>
      intro c l h hmiss hfind havail hlen
      cases l with
      | nil => simp at hfind
      | cons a l =>
          have hnext : c.ptrs.free.next .freeList = some a := by
            rw [h.linked.free.next_freeList]
            rfl
          obtain ⟨i, hi⟩ := h.linked.free.entries a List.mem_cons_self
          have hne : a ≠ .freeList := by
            simp [hi]
          have hnone : ∀ q, ∀ y ∈ rings q, ¬ c.Carries y u.dev n := by
            rcases h.linked.inHashQueue u.dev n with ⟨_, hnone⟩ | ⟨y, _, hfound, _⟩
            · exact hnone
            · rw [hmiss] at hfound
              cases hfound
          obtain ⟨c₁, hremove, hlinked₁, hsame₁, _⟩ := h.linked.removeFromFreeList hne
          rw [List.erase_cons_head] at hlinked₁
          have hal : a ∉ l := (List.nodup_cons.mp h.linked.free.nodup).1
          have h₁ : Coherent env u content c₁ l rings :=
            h.relist hlinked₁ hsame₁.buf hsame₁.disk fun y hy => List.mem_cons_of_mem a hy
          rw [Cache.getblkLoop_of_miss fuel hmiss hnext hremove, hsame₁.buf]
          cases hdirty : (c.buf a).dwrite with
          | false =>
              have hxa : x = a := by
                rw [List.find?_cons_of_pos (by simp [Cache.isClean, hne, hdirty]),
                  Option.some.injEq] at hfind
                exact hfind.symm
              subst hxa
              simp only [Bool.false_eq_true, if_false]
              have havail₁ : c₁.Available env u.dev n x := by
                constructor
                · rw [hsame₁.buf]
                  exact havail.unlocked
                · rw [hsame₁.buf]
                  exact havail.data
                · unfold Cache.Recyclable
                  rw [hsame₁.buf, hsame₁.hash, hsame₁.queues]
                  exact havail.recyclable
              have hnone₁ : ∀ q, ∀ y ∈ rings q, ¬ c₁.Carries y u.dev n := by
                unfold Cache.Carries
                rw [hsame₁.buf]
                exact hnone
              obtain ⟨c', rings', hrun, hrest⟩ :=
                h₁.recycle hm ⟨i, hi⟩ hal (by rw [hsame₁.buf]; exact hdirty) havail₁ hnone₁
              exact ⟨c', l, rings', hrun, hrest⟩
          | true =>
              have hxa : x ≠ a := by
                rintro rfl
                have := List.find?_some hfind
                simp [Cache.isClean, hdirty] at this
              rw [if_pos rfl]
              obtain ⟨q, hq⟩ : ∃ q, a ∈ rings q := by
                by_contra hoff
                push Not at hoff
                rw [hi] at hoff hdirty
                rw [h.clean i hoff] at hdirty
                cases hdirty
              have hdirty₁ : (c₁.buf a).dwrite = true := by
                rw [hsame₁.buf]
                exact hdirty
              obtain ⟨c₂, hwrite, h₂, hptrs₂, hbuf₂⟩ := h₁.write hm hq hdirty₁
              -- the buffer is on the free list, so it is not locked
              have hunlocked : (c₂.buf a).bMutex.lock = false := by
                rw [hbuf₂, Function.update_self, hsame₁.buf]
                by_contra hlock
                exact ((h.lines q a hq).mutex (by simpa using hlock)).2 List.mem_cons_self
              have hbwrite : (c₁.modify a fun b => { b with dwrite := false }).bwrite env a =
                  .ok c₂ := by
                unfold Cache.bwrite
                rw [hwrite]
                exact Cache.brelse_of_unlocked hunlocked
              have hother : ∀ {y}, y ≠ a → c₂.buf y = c.buf y := by
                intro y hy
                rw [hbuf₂, Function.update_of_ne hy, hsame₁.buf]
              have hkey : ∀ y, (c₂.buf y).bDev = (c.buf y).bDev ∧
                  (c₂.buf y).bBlknr = (c.buf y).bBlknr := by
                intro y
                by_cases hy : y = a
                · rw [hy, hbuf₂, Function.update_self, hsame₁.buf]
                  exact ⟨rfl, rfl⟩
                · rw [hother hy]
                  exact ⟨rfl, rfl⟩
              have hmiss₂ : c₂.inHashQueue u.dev n = .ok none := by
                rcases h₂.linked.inHashQueue u.dev n with ⟨hrun, _⟩ | ⟨y, hy, _, hcarries⟩
                · exact hrun
                · unfold Cache.Carries at hcarries
                  rw [(hkey y).1, (hkey y).2] at hcarries
                  exact (hnone _ y hy hcarries).elim
              have hfind₂ : l.find? c₂.isClean = some x := by
                rw [List.find?_cons_of_neg (by simp [Cache.isClean, hdirty])] at hfind
                rw [← hfind]
                apply List.find?_congr
                intro y hy
                have hya : y ≠ a := fun heq => hal (heq ▸ hy)
                unfold Cache.isClean
                rw [hother hya]
              have havail₂ : c₂.Available env u.dev n x := by
                constructor
                · rw [hother hxa]
                  exact havail.unlocked
                · rw [hother hxa]
                  exact havail.data
                · unfold Cache.Recyclable
                  rw [hother hxa, hptrs₂, hsame₁.hash, hsame₁.queues]
                  exact havail.recyclable
              rw [hbwrite]
              have hlen₂ : l.length < fuel := by
                simpa using hlen
              exact ih h₂ hmiss₂ hfind₂ havail₂ hlen₂

theorem Coherent.getblk (h : Coherent env u content c l rings) (hm : Mounted env u.dev)
    (hobtain : c.Obtainable env u.dev n) :
    ∃ x c' l' rings', c.getblk env u.current u.dev n = .ok (x, c') ∧
      Coherent env u content c' l' rings' ∧ x ∈ rings' (bufHash u.dev n) ∧
      (c'.buf x).bBlknr = n ∧
      (c.Reread u.dev n → (c'.buf x).dwrite = true → (c'.buf x).done = true) ∧
      ∀ q, ∀ y ∈ rings q, ∃ q', y ∈ rings' q' := by
  unfold Cache.getblk
  rcases h.linked.inHashQueue u.dev n with ⟨hmiss, _⟩ | ⟨x, hx, hhit, hcarries⟩
  · unfold Cache.Obtainable at hobtain
    rw [hmiss] at hobtain
    obtain ⟨x, hvictim, havail⟩ := hobtain
    rw [h.linked.victim] at hvictim
    have hlen : l.length < nrEntries + 2 := by
      have := length_le_nrEntries h.linked.free.nodup h.linked.free.entries
      omega
    obtain ⟨c', l', rings', hrun, h', hx, hblknr, hclean, hkept⟩ :=
      Coherent.getblkLoop hm h hmiss hvictim havail hlen
    refine ⟨x, c', l', rings', hrun, h', hx, hblknr, ?_, hkept⟩
    intro _ hdirty
    rw [hclean] at hdirty
    cases hdirty
  · rw [Cache.getblkLoop_of_hit _ hhit]
    obtain ⟨c', hrun, h', hbuf⟩ := h.lockFound hx
    refine ⟨x, c', l.erase x, rings, hrun, h', hx, ?_, ?_, fun q y hy => ⟨q, hy⟩⟩
    · rw [hbuf, Function.update_self]
      exact hcarries.2
    · intro hreread
      unfold Cache.Reread at hreread
      rw [hhit] at hreread
      rw [hbuf, Function.update_self]
      exact hreread

theorem Coherent.bread (h : Coherent env u content c l rings) (hm : Mounted env u.dev)
    (hobtain : c.Obtainable env u.dev n) (hreread : c.Reread u.dev n) :
    ∃ x c' l' rings', c.bread env u.current u.dev n = .ok (some x, c') ∧
      Coherent env u content c' l' rings' ∧ (∃ q, x ∈ rings' q) ∧
      (c'.buf x).bData = some (content n) ∧ ∀ q, ∀ y ∈ rings q, ∃ q', y ∈ rings' q' := by
  obtain ⟨x, c₁, l', rings', hget, h₁, hx, hblknr, hdone, hkept⟩ := h.getblk hm hobtain
  unfold Cache.bread
  rw [hget]
  simp only [bind, Except.bind]
  cases hvalid : (c₁.buf x).done with
  | true =>
      refine ⟨x, c₁, l', rings', by simp, h₁, ⟨_, hx⟩, ?_, hkept⟩
      rw [(h₁.lines _ x hx).valid (Or.inl hvalid), hblknr]
  | false =>
      have hclean : (c₁.buf x).dwrite = false := by
        by_contra hdirty
        have := hdone hreread (by simpa using hdirty)
        rw [hvalid] at this
        cases this
      obtain ⟨c', hread, h', hdata⟩ := h₁.read hm hx hclean
      refine ⟨x, c', l', rings', ?_, h', ⟨_, hx⟩, ?_, hkept⟩
      · simp [hread]
      · rw [hdata, hblknr]

/-! ## `buffer_sync` -/

/-- No buffer has to go to an end of the free list which cannot be reached. -/
def SyncSafe (c : Cache α) : Prop :=
  (∃ i, (c.buf (.entry i)).dwrite = true ∧ (c.buf (.entry i)).bMutex.lock = true) → c.TailSound

theorem Coherent.syncSlot (h : Coherent env u content c l rings) (hm : Mounted env u.dev)
    (hsafe : SyncSafe c) (i : Fin nrEntries) :
    ∃ c' l', c.syncSlot env u.current i = .ok c' ∧ Coherent env u content c' l' rings ∧
      SyncSafe c' := by
  unfold Cache.syncSlot
  by_cases hwrite : (c.buf (.entry i)).dwrite = true ∧
      mutexLocked (c.buf (.entry i)).bMutex u.current = false
  · rw [if_pos hwrite]
    obtain ⟨q, hq⟩ : ∃ q, Node.entry i ∈ rings q := by
      by_contra hoff
      push Not at hoff
      rw [h.clean i hoff] at hwrite
      cases hwrite.1
    obtain ⟨c', l', hrun, h', hsound, hclean, hother⟩ :=
      h.bwrite hm hq hwrite.1 fun hlock => hsafe ⟨i, hwrite.1, hlock⟩
    refine ⟨c', l', hrun, h', ?_⟩
    rintro ⟨j, hdirty, hlock⟩
    by_cases hji : Node.entry j = .entry i
    · rw [hji, hclean] at hdirty
      cases hdirty
    · rw [hother _ hji] at hdirty hlock
      exact hsound (hsafe ⟨j, hdirty, hlock⟩)
  · rw [if_neg hwrite]
    exact ⟨c, l, rfl, h, hsafe⟩

theorem Coherent.syncLoop (hm : Mounted env u.dev) (slots : List (Fin nrEntries)) :
    ∀ {c l}, Coherent env u content c l rings → SyncSafe c →
      ∃ c' l', slots.foldlM (Cache.syncSlot env u.current) c = .ok c' ∧
        Coherent env u content c' l' rings := by
  induction slots with
  | nil =>
      intro c l h _
      exact ⟨c, l, rfl, h⟩
  | cons i slots ih =>
      intro c l h hsafe
      obtain ⟨c₁, l₁, hslot, h₁, hsafe₁⟩ := h.syncSlot hm hsafe i
      obtain ⟨c', l', hrest, h'⟩ := ih h₁ hsafe₁
      refine ⟨c', l', ?_, h'⟩
      rw [List.foldlM_cons, hslot]
      exact hrest

/-! ## Runs -/

namespace Client

/-- The cache holds the contents of the device, and the handles of the process
point at buffers which have a key. -/
def Refines (env : Env α) (u : User) (s : Client α) (content : ℕ → α) : Prop :=
  ∃ l rings, Coherent env u content s.cache l rings ∧
    ∀ n x, s.handle n = some x → ∃ q, x ∈ rings q

theorem Refines.step {s : Client α} (h : s.Refines env u content) (hm : Mounted env u.dev)
    {r : Request α} (hsafe : SafeStep env u s r) :
    ∃ s', s.step env u r = .ok (s', Device.shows content r) ∧
      s'.Refines env u (Device.next content r) := by
  obtain ⟨l, rings, h, hhandle⟩ := h
  have hupdate : ∀ {rings' : ℕ → List Node} {m : ℕ} {x : Option Node},
      (∀ q, ∀ y ∈ rings q, ∃ q', y ∈ rings' q') → (∀ y, x = some y → ∃ q, y ∈ rings' q) →
      ∀ n y, Function.update s.handle m x n = some y → ∃ q, y ∈ rings' q := by
    intro rings' m x hkept hx n y hy
    by_cases hnm : n = m
    · rw [hnm, Function.update_self] at hy
      exact hx y hy
    · rw [Function.update_of_ne hnm] at hy
      obtain ⟨q, hq⟩ := hhandle n y hy
      exact hkept q y hq
  cases r with
  | getblk n =>
      obtain ⟨x, c', l', rings', hget, h', hx, _, _, hkept⟩ := h.getblk hm hsafe
      refine ⟨⟨c', Function.update s.handle n (some x)⟩, ?_, l', rings', h', ?_⟩
      · simp only [Client.step, hget]
        rfl
      · apply hupdate hkept
        intro y hy
        rw [← Option.some.inj hy]
        exact ⟨_, hx⟩
  | bread n =>
      obtain ⟨x, c', l', rings', hread, h', hx, hdata, hkept⟩ := h.bread hm hsafe.1 hsafe.2
      refine ⟨⟨c', Function.update s.handle n (some x)⟩, ?_, l', rings', h', ?_⟩
      · simp only [Client.step, hread]
        simp [bind, Except.bind, hdata, Device.shows]
      · apply hupdate hkept
        intro y hy
        rw [← Option.some.inj hy]
        exact hx
  | modify n data =>
      obtain ⟨x, hx, hcarries⟩ := hsafe
      obtain ⟨q, hq⟩ := hhandle n x hx
      have hline := h.lines q x hq
      have hlinked : (s.cache.modify x fun b =>
          { b with bData := some data, dwrite := true }).Linked l rings :=
        h.linked.modify rfl rfl
      have hrun : s.step env u (.modify n data) = .ok ({ s with
          cache := s.cache.modify x fun b => { b with bData := some data, dwrite := true } }, []) := by
        rw [Client.step, hx]
      refine ⟨_, hrun, l, rings, ?_, hhandle⟩
      refine h.update hq hlinked rfl rfl ⟨hline.dev, hline.size, rfl, ?_, hline.mutex⟩
        ⟨fun hfalse => ?_, fun m hne => ⟨rfl, ?_⟩⟩ fun _ hy _ => hy
      · intro _
        simp only [Device.next]
        rw [hcarries.2, Function.update_self]
      · cases hfalse
      · simp only [Device.next]
        rw [← hcarries.2, Function.update_of_ne hne]
  | brelse n =>
      obtain ⟨x, hx, htail⟩ := hsafe
      obtain ⟨q, hq⟩ := hhandle n x hx
      obtain ⟨c', l', hrel, h', _⟩ := h.brelse hq htail
      refine ⟨{ s with cache := c' }, ?_, l', rings, h', hhandle⟩
      simp only [Client.step, hx, hrel]
      rfl
  | bufferSync =>
      obtain ⟨c', l', hsync, h'⟩ := Coherent.syncLoop hm (List.finRange nrEntries) h hsafe
      refine ⟨{ s with cache := c' }, ?_, l', rings, h', hhandle⟩
      simp only [Client.step, Cache.bufferSync, hsync]
      rfl

theorem Refines.run (hm : Mounted env u.dev) (rs : List (Request α)) :
    ∀ {s : Client α} {content : ℕ → α}, s.Refines env u content → SafeRun env u s rs →
      ∃ s', s.run env u rs = .ok (s', Device.reads content rs) := by
  induction rs with
  | nil =>
      intro s content _ _
      exact ⟨s, rfl⟩
  | cons r rs ih =>
      intro s content h hsafe
      obtain ⟨s₁, hstep, h₁⟩ := h.step hm hsafe.1
      rw [SafeRun, hstep] at hsafe
      obtain ⟨s', hrest⟩ := ih h₁ hsafe.2
      refine ⟨s', ?_⟩
      rw [Client.run, hstep]
      simp only [bind, Except.bind, hrest]
      rfl

theorem init_refines (env : Env α) (u : User) (heap : Fin nrEntries → Buffer α)
    (disk : ℕ → ℕ → α) : (init heap disk).Refines env u (disk u.dev) := by
  refine ⟨_, _, ⟨Cache.bufferInit_linked _ disk, ?_, ?_, ?_⟩, ?_⟩
  · intro q x hx
    exact (List.not_mem_nil hx).elim
  · intro n _
    rfl
  · intro i _
    rfl
  · intro n x hx
    cases hx

/-- In a run without the defects of the cache every call returns, and every
`bread` shows the last modification of its block or else the initial contents
of the disk. -/
theorem transparent_of_safeRun (env : Env α) (u : User) (heap : Fin nrEntries → Buffer α)
    (disk : ℕ → ℕ → α) (rs : List (Request α)) (hm : Mounted env u.dev)
    (hsafe : SafeRun env u (init heap disk) rs) :
    ∃ s, (init heap disk).run env u rs = .ok (s, Device.reads (disk u.dev) rs) :=
  (init_refines env u heap disk).run hm rs hsafe

/-- A safe run: a block is read, changed, released, flushed and read again. -/
theorem transparent_of_safeRun_flush :
    ∃ s, (init (fun _ => Cache.zeroBuffer) fun _ n => n).run
      ⟨fun _ => 1024, fun _ => true, fun _ => 0⟩ ⟨1, 0x300⟩
      [.bread 5, .modify 5 7, .brelse 5, .bufferSync, .bread 5, .bread 105, .bread 6] =
        .ok (s, [some 5, some 7, some 105, some 6]) :=
  transparent_of_safeRun ⟨fun _ => 1024, fun _ => true, fun _ => 0⟩ ⟨1, 0x300⟩
    (fun _ => Cache.zeroBuffer) (fun _ n => n)
    [.bread 5, .modify 5 7, .brelse 5, .bufferSync, .bread 5, .bread 105, .bread 6]
    ⟨by decide, by decide, fun _ => rfl⟩ (by decide +kernel)

/-- A block is changed without being read before; the next `bread` shows what
the disk has. -/
theorem not_transparent_unread :
    ¬ ∃ s, (init (fun _ => Cache.zeroBuffer) fun _ n => n).run
      ⟨fun _ => 1024, fun _ => true, fun _ => 0⟩ ⟨1, 0x300⟩
      [.getblk 5, .modify 5 7, .brelse 5, .bread 5] =
        .ok (s, Device.reads (fun n => n) [.getblk 5, .modify 5 7, .brelse 5, .bread 5]) := by
  have hshown : ((init (fun _ => Cache.zeroBuffer) fun _ n => n).run
      ⟨fun _ => 1024, fun _ => true, fun _ => 0⟩ ⟨1, 0x300⟩
      [.getblk 5, .modify 5 7, .brelse 5, .bread 5]).map Prod.snd = .ok [some 5] := by
    decide +kernel
  rintro ⟨s, hrun⟩
  rw [hrun] at hshown
  simp [Except.map, Device.reads, Device.shows, Device.next] at hshown

end Client

end Yak.BufferCache
