import Yak.Bitmap
import Yak.BufferTransparency

/-!
# Fresh blocks in the buffer cache

`ext2_balloc` zeroes a new block in a buffer which `getblk` gives it, sets `B_DWRITE` and
leaves `B_DONE` as it is.  A `bread` of the block which finds this buffer without `B_DONE`
takes what the block held before from the disk.
-/

namespace Yak.BufferCache

open Yak.Cache LinkedRing ByteBitmap

/-! ## The call -/

/-- `memset` of the first bytes with 0. -/
def zeroed (size : ℕ) (data : Bytes) : Bytes := fun i => if i < size then 0#8 else data i

/-- The first bytes are zero. -/
def IsZero (size : ℕ) (data : Bytes) : Prop := ∀ i < size, data i = 0#8

namespace Client

/-- `ext2_balloc` from the label `out` on, for the block that was found. -/
def ballocOut (env : Env Bytes) (u : User) (s : Client Bytes) (size block : ℕ) :
    Except Halt (Client Bytes) := do
  let (s, _) ← s.step env u (.getblk block)
  match (s.handle block).bind fun bp => (s.cache.buf bp).bData with
  | none => .error .nullDeref
  | some data => do
      let (s, _) ← s.step env u (.modify block (zeroed size data))
      let (s, _) ← s.step env u (.brelse block)
      .ok s

/-- The next `bread` of the block gives a buffer of zeros. -/
def ReadsZero (env : Env Bytes) (u : User) (s : Client Bytes) (size block : ℕ) : Prop :=
  ∃ s' data, s.step env u (.bread block) = .ok (s', [some data]) ∧ IsZero size data

end Client

variable {α : Type}

/-- The request neither reads nor changes the block. -/
def Request.Spares (b : ℕ) : Request α → Prop
  | .bread n | .modify n _ => n ≠ b
  | .getblk _ | .brelse _ | .bufferSync => True

/-! ## Every `bread` -/

variable {env : Env α} {u : User} {content : ℕ → α} {c c' : Cache α} {l : List Node}
variable {rings : ℕ → List Node} {x : Node} {b n q : ℕ} {s s' : Client α}

namespace Client

/-- The conditions of `SafeStep` without the one that a `bread` finds a valid buffer. -/
def SteadyStep (env : Env α) (u : User) (s : Client α) : Request α → Prop
  | .bread n => s.cache.Obtainable env u.dev n
  | r => SafeStep env u s r

def SteadyRun (env : Env α) (u : User) (s : Client α) : List (Request α) → Prop
  | [] => True
  | r :: rs =>
      SteadyStep env u s r ∧
        match s.step env u r with
        | .ok (s', _) => SteadyRun env u s' rs
        | .error _ => True

/-- The contents as the process sees them: a `bread` which finds a delayed write without
`B_DONE` undoes it. -/
def observed (u : User) (s : Client α) (content : ℕ → α) : Request α → ℕ → α
  | .bread n =>
      if s.cache.Reread u.dev n then content
      else Function.update content n (s.cache.disk u.dev n)
  | r => Device.next content r

end Client

theorem Coherent.reread (h : Coherent env u content c l rings) (hm : Mounted env u.dev)
    (hnot : ¬c.Reread u.dev n) :
    ∃ x c' l', c.bread env u.current u.dev n = .ok (some x, c') ∧
      Coherent env u (Function.update content n (c.disk u.dev n)) c' l' rings ∧
      (∃ q, x ∈ rings q) ∧ (c'.buf x).bData = some (c.disk u.dev n) := by
  rcases h.linked.inHashQueue u.dev n with ⟨hmiss, _⟩ | ⟨x, hx, hhit, hdev, hblknr⟩
  · unfold Cache.Reread at hnot
    rw [hmiss] at hnot
    exact (hnot trivial).elim
  · unfold Cache.Reread at hnot
    rw [hhit, Classical.not_imp] at hnot
    obtain ⟨hdirty, hdone⟩ := hnot
    have hline := h.lines _ x hx
    obtain ⟨c₁, hlock, h₁, hbuf₁⟩ := h.lockFound hx
    have hne : x ≠ .freeList := by
      obtain ⟨i, rfl⟩ := h.linked.hash.entries _ x hx
      simp
    obtain ⟨c₂, hlock₂, -, hsame, -⟩ :=
      h.linked.lockFound hne fun hlocked => (hline.mutex hlocked).1
    obtain ⟨-, rfl⟩ := Prod.mk.inj (Except.ok.inj (hlock.symm.trans hlock₂))
    have hself : c₁.buf x = { c.buf x with bMutex := taken u.current } := by
      rw [hbuf₁, Function.update_self]
    have hdisk : c₁.disk = c.disk := hsame.disk
    have hline₁ := h₁.lines _ x hx
    obtain ⟨data, hdata⟩ := Option.isSome_iff_exists.mp hline₁.data
    have hread := blkDevio_of_mounted hm hline₁.dev hline₁.size hdata .read
    have hbuf : ((c₁.transfer x data .read).tick).buf = Function.update c₁.buf x
        { c₁.buf x with bData := some (c₁.disk (c₁.buf x).bDev (c₁.buf x).bBlknr), done := true } :=
      rfl
    have hshown : c₁.disk (c₁.buf x).bDev (c₁.buf x).bBlknr = c.disk u.dev n := by
      rw [hself, hdisk, hdev, hblknr]
    have hn : (c₁.buf x).bBlknr = n := by
      rw [hself]
      exact hblknr
    refine ⟨x, (c₁.transfer x data .read).tick, l.erase x, ?_, ?_, ⟨_, hx⟩, ?_⟩
    · unfold Cache.bread Cache.getblk
      rw [Cache.getblkLoop_of_hit _ hhit, hlock, ok_bind]
      dsimp only
      rw [hself, if_neg hdone, hread, ok_bind]
      rfl
    · refine h₁.update hx ((h₁.linked.modify (x := x) (f := fun b =>
        { b with bData := some (c₁.disk b.bDev b.bBlknr), done := true }) rfl rfl).congr rfl
          fun _ => ⟨rfl, rfl⟩) hbuf rfl ⟨hline₁.dev, hline₁.size, rfl, ?_, hline₁.mutex⟩
        ⟨?_, ?_⟩ fun _ hy _ => hy
      · intro _
        dsimp only
        rw [hshown, hn, Function.update_self]
      · intro hclean
        rw [hself] at hclean
        exact absurd (hdirty.symm.trans hclean) (by decide)
      · intro m hne
        dsimp only at hne
        rw [hn] at hne
        exact ⟨rfl, Function.update_of_ne hne _ _⟩
    · rw [hbuf, Function.update_self, hshown]

namespace Client

/-- What a `bread` shows, also where the cache takes an old block from the disk. -/
theorem Refines.bread (h : s.Refines env u content) (hm : Mounted env u.dev)
    (hobtain : s.cache.Obtainable env u.dev n) :
    ∃ s', s.step env u (.bread n) = .ok (s', [some (s.observed u content (.bread n) n)]) ∧
      s'.Refines env u (s.observed u content (.bread n)) := by
  by_cases hreread : s.cache.Reread u.dev n
  · obtain ⟨s', hstep, h'⟩ := h.step hm (r := .bread n) ⟨hobtain, hreread⟩
    refine ⟨s', ?_, ?_⟩
    · rw [hstep, observed, if_pos hreread]
      rfl
    · rw [observed, if_pos hreread]
      exact h'
  · obtain ⟨l, rings, h, hhandle⟩ := h
    obtain ⟨x, c', l', hread, h', hx, hdata⟩ := h.reread hm hreread
    refine ⟨⟨c', Function.update s.handle n (some x)⟩, ?_, ?_⟩
    · rw [observed, if_neg hreread, Function.update_self]
      simp only [Client.step, hread]
      simp [bind, Except.bind, hdata]
    · rw [observed, if_neg hreread]
      refine ⟨l', rings, h', ?_⟩
      intro m y hy
      dsimp only at hy
      by_cases hmn : m = n
      · rw [hmn, Function.update_self] at hy
        rw [← Option.some.inj hy]
        exact hx
      · rw [Function.update_of_ne hmn] at hy
        exact hhandle m y hy

theorem Refines.steady (h : s.Refines env u content) (hm : Mounted env u.dev)
    {r : Request α} (hsteady : SteadyStep env u s r) :
    ∃ s' out, s.step env u r = .ok (s', out) ∧ s'.Refines env u (s.observed u content r) := by
  cases r with
  | bread n =>
      obtain ⟨s', hstep, h'⟩ := h.bread hm hsteady
      exact ⟨s', _, hstep, h'⟩
  | getblk n =>
      obtain ⟨s', hstep, h'⟩ := h.step hm (r := .getblk n) hsteady
      exact ⟨s', _, hstep, h'⟩
  | modify n data =>
      obtain ⟨s', hstep, h'⟩ := h.step hm (r := .modify n data) hsteady
      exact ⟨s', _, hstep, h'⟩
  | brelse n =>
      obtain ⟨s', hstep, h'⟩ := h.step hm (r := .brelse n) hsteady
      exact ⟨s', _, hstep, h'⟩
  | bufferSync =>
      obtain ⟨s', hstep, h'⟩ := h.step hm (r := .bufferSync) hsteady
      exact ⟨s', _, hstep, h'⟩

theorem observed_of_spares {r : Request α} (h : r.Spares b) : s.observed u content r b = content b := by
  cases r with
  | bread n =>
      dsimp only [observed]
      split
      next => rfl
      next => exact Function.update_of_ne (Ne.symm h) _ _
  | modify n data => exact Function.update_of_ne (Ne.symm h) _ _
  | getblk n => rfl
  | brelse n => rfl
  | bufferSync => rfl

/-- Requests which spare the block leave its contents. -/
theorem Refines.spares (hm : Mounted env u.dev) (rs : List (Request α)) :
    ∀ {s : Client α} {content : ℕ → α}, s.Refines env u content → SteadyRun env u s rs →
      (∀ r ∈ rs, r.Spares b) → ∃ s' out content', s.run env u rs = .ok (s', out) ∧
        s'.Refines env u content' ∧ content' b = content b := by
  induction rs with
  | nil => exact fun h _ _ => ⟨_, _, _, rfl, h, rfl⟩
  | cons r rs ih =>
      intro s content h hsteady hspares
      obtain ⟨hr, hrs⟩ := List.forall_mem_cons.mp hspares
      obtain ⟨s₁, out₁, hstep, h₁⟩ := h.steady hm hsteady.1
      rw [SteadyRun, hstep] at hsteady
      obtain ⟨s', out, content', hrun, h', hsame⟩ := ih h₁ hsteady.2 hrs
      refine ⟨s', out₁ ++ out, content', ?_, h', hsame.trans (observed_of_spares hr)⟩
      rw [Client.run, hstep, ok_bind]
      dsimp only
      rw [hrun, ok_bind]

/-! ## A new block -/

variable {env : Env Bytes} {content : ℕ → Bytes} {s s₁ s₂ : Client Bytes} {size : ℕ}
variable {rs : List (Request Bytes)} {out : List (Option Bytes)}

theorem Refines.ballocOut (h : s.Refines env u content) (hm : Mounted env u.dev)
    (hobtain : s.cache.Obtainable env u.dev b) (size : ℕ) :
    ∃ s₁ content', s.ballocOut env u size b = .ok s₁ ∧ s₁.Refines env u content' ∧
      IsZero size (content' b) := by
  obtain ⟨s₀, hstep, h₀⟩ := h.step hm (r := .getblk b) hobtain
  obtain ⟨l, rings, hc, -⟩ := h
  obtain ⟨x, c', l', rings', hget, h', hx, hblknr, -⟩ := hc.getblk hm hobtain
  have hfirst : s.step env u (.getblk b) = .ok (⟨c', Function.update s.handle b (some x)⟩, []) := by
    rw [Client.step, hget]
    rfl
  obtain ⟨rfl, -⟩ := Prod.mk.inj (Except.ok.inj (hfirst.symm.trans hstep))
  have hhandle : Function.update s.handle b (some x) b = some x := Function.update_self _ _ _
  have hcarries : c'.Carries x u.dev b := ⟨(h'.lines _ x hx).dev, hblknr⟩
  obtain ⟨data, hdata⟩ := Option.isSome_iff_exists.mp (h'.lines _ x hx).data
  obtain ⟨s₂, hmodify, h₂⟩ := h₀.step hm (r := .modify b (zeroed size data)) ⟨x, hhandle, hcarries⟩
  have hs₂ : s₂ = ⟨c'.modify x fun y => { y with bData := some (zeroed size data), dwrite := true },
      Function.update s.handle b (some x)⟩ := by
    have hchanged := hmodify
    rw [Client.step] at hchanged
    dsimp only at hchanged
    rw [hhandle] at hchanged
    exact (Prod.mk.inj (Except.ok.inj hchanged)).1.symm
  have hdirty : (s₂.cache.buf x).dwrite = true := by
    rw [hs₂]
    dsimp only
    rw [Cache.modify_buf_self]
  obtain ⟨s₁, hbrelse, h₁⟩ := h₂.step hm (r := .brelse b)
    ⟨x, by rw [hs₂]; exact hhandle, fun _ hclean => absurd (hdirty.symm.trans hclean) (by decide)⟩
  refine ⟨s₁, _, ?_, h₁, ?_⟩
  · unfold Client.ballocOut
    rw [hfirst, ok_bind]
    dsimp only
    rw [hhandle, Option.bind_some, hdata]
    dsimp only
    rw [hmodify, ok_bind]
    dsimp only
    rw [hbrelse, ok_bind]
  · intro i hi
    have hself : Function.update content b (zeroed size data) b = zeroed size data :=
      Function.update_self _ _ _
    exact (congrFun hself i).trans (if_pos hi)

/-- A new block is read as zeros exactly if its buffer has no delayed write without `B_DONE`
when the `bread` comes, or if it was zero on the disk. -/
theorem readsZero_iff (hm : Mounted env u.dev) (h : s.Refines env u content)
    (hget : s.cache.Obtainable env u.dev b) (hout : s.ballocOut env u size b = .ok s₁)
    (hspares : ∀ r ∈ rs, r.Spares b) (hsteady : s₁.SteadyRun env u rs)
    (hrun : s₁.run env u rs = .ok (s₂, out)) (hobtain : s₂.cache.Obtainable env u.dev b) :
    s₂.ReadsZero env u size b ↔
      s₂.cache.Reread u.dev b ∨ IsZero size (s₂.cache.disk u.dev b) := by
  obtain ⟨s₃, content₁, hout', h₁, hzero⟩ := h.ballocOut hm hget size
  obtain rfl := Except.ok.inj (hout.symm.trans hout')
  obtain ⟨s₄, out', content₂, hrun', h₂, hsame⟩ := Refines.spares hm rs h₁ hsteady hspares
  obtain ⟨rfl, -⟩ := Prod.mk.inj (Except.ok.inj (hrun.symm.trans hrun'))
  obtain ⟨s', hread, -⟩ := h₂.bread hm hobtain
  have hshown : s₂.ReadsZero env u size b ↔
      IsZero size (s₂.observed u content₂ (.bread b) b) := by
    constructor
    · rintro ⟨s₃, data, hread', hdata⟩
      have heq := (Prod.mk.inj (Except.ok.inj (hread.symm.trans hread'))).2
      rw [Option.some.inj (List.cons.inj heq).1]
      exact hdata
    · exact fun hdata => ⟨s', _, hread, hdata⟩
  rw [hshown]
  dsimp only [observed]
  by_cases hreread : s₂.cache.Reread u.dev b
  · rw [if_pos hreread, hsame]
    exact iff_of_true hzero (Or.inl hreread)
  · rw [if_neg hreread, Function.update_self]
    exact ⟨Or.inr, fun hor => hor.resolve_left hreread⟩

/-! ## A block with old data -/

/-- Blocks of 1 KiB. -/
def plainEnv : Env Bytes := ⟨fun _ => 1024, fun _ => true, fun _ _ => 0#8⟩

/-- A process which uses the first hard disk. -/
def diskUser : User := ⟨1, 0x300⟩

theorem mounted_diskUser : Mounted plainEnv diskUser.dev := ⟨by decide, by decide, fun _ => rfl⟩

/-- The cache after `buffer_init`, with every byte of the disk the same. -/
def filled (byte : BitVec 8) : Client Bytes :=
  Client.init (fun _ => Cache.zeroBuffer) fun _ _ _ => byte

theorem refines_filled (byte : BitVec 8) :
    (filled byte).Refines plainEnv diskUser fun _ _ => byte :=
  init_refines plainEnv diskUser _ _

/-- On a blank disk it makes no difference. -/
theorem readsZero_iff_blank : ∃ s₁, (filled 0#8).ballocOut plainEnv diskUser 1024 5 = .ok s₁ ∧
    (s₁.ReadsZero plainEnv diskUser 1024 5 ↔
      s₁.cache.Reread diskUser.dev 5 ∨ IsZero 1024 (s₁.cache.disk diskUser.dev 5)) := by
  have hget : (filled 0#8).cache.Obtainable plainEnv diskUser.dev 5 := by decide +kernel
  obtain ⟨s₁, _, hout, -⟩ := (refines_filled 0#8).ballocOut mounted_diskUser hget 1024
  have hagain : ((filled 0#8).ballocOut plainEnv diskUser 1024 5).map
      (fun s => decide (s.cache.Obtainable plainEnv diskUser.dev 5)) = .ok true := by
    decide +kernel
  rw [hout] at hagain
  exact ⟨s₁, hout, readsZero_iff mounted_diskUser (refines_filled 0#8) hget hout
    (fun r hr => (List.not_mem_nil hr).elim) trivial rfl
    (of_decide_eq_true (Except.ok.inj hagain))⟩

/-- On any other disk the old block comes back. -/
theorem not_readsZero_stale :
    ¬∀ (s s₁ : Client Bytes) (content : ℕ → Bytes) (b : ℕ),
      s.Refines plainEnv diskUser content → s.cache.Obtainable plainEnv diskUser.dev b →
        s.ballocOut plainEnv diskUser 1024 b = .ok s₁ → s₁.ReadsZero plainEnv diskUser 1024 b := by
  intro hall
  have hget : (filled 0xAA#8).cache.Obtainable plainEnv diskUser.dev 5 := by decide +kernel
  obtain ⟨s₁, _, hout, -⟩ := (refines_filled 0xAA#8).ballocOut mounted_diskUser hget 1024
  obtain ⟨s', data, hread, hzero⟩ := hall _ s₁ _ 5 (refines_filled 0xAA#8) hget hout
  have hshown : ((filled 0xAA#8).ballocOut plainEnv diskUser 1024 5 >>= fun s =>
      (s.step plainEnv diskUser (.bread 5)).map fun r => r.2.map (Option.map fun d => d 0)) =
        .ok [some 0xAA#8] := by decide +kernel
  rw [hout, ok_bind, hread] at hshown
  have hfirst : data 0 = 0xAA#8 :=
    Option.some.inj (List.cons.inj (Except.ok.inj hshown)).1
  rw [hzero 0 (by decide)] at hfirst
  exact absurd hfirst (by decide)

end Client

end Yak.BufferCache
