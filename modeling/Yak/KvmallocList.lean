import Yak.Kvmalloc

/-!
# The free list in memory

A list of chunks is laid out in memory by their headers, linked in both directions.
The lemmas say which headers may change, and how the list changes with them.
-/

namespace Yak.Kvmalloc

open ByteBitmap (Bytes)
open WordMemory

/-- A chunk of the free list, with the fields of its header. -/
structure Chunk where
  addr : ℕ
  base : ℕ
  size : ℕ
  deriving DecidableEq

/-- Header and payload.  The payload of the first chunk starts inside its header. -/
def Chunk.span (c : Chunk) : Span := (c.addr, c.base + c.size)

/-- The header in memory is that of the chunk, between these neighbours. -/
structure Header (mem : Bytes) (c : Chunk) (prv nxt : ℕ) : Prop where
  base : base mem c.addr = c.base
  size : size mem c.addr = c.size
  next : next mem c.addr = nxt
  prev : prev mem c.addr = prv

/-- The header is the same in both memories. -/
def Kept (mem mem' : Bytes) (a : ℕ) : Prop := ∀ x, a ≤ x → x < a + headerSize → mem' x = mem x

/-- The address of the first chunk, or the one which follows when there is none. -/
def headOr : List Chunk → ℕ → ℕ
  | [], nxt => nxt
  | c :: _, _ => c.addr

/-- The address of the last chunk, or the one before when there is none. -/
def lastOr : ℕ → List Chunk → ℕ
  | prv, [] => prv
  | _, c :: cs => lastOr c.addr cs

/-- The headers of the chunks are linked, between these neighbours. -/
def Seg (mem : Bytes) : (prv : ℕ) → List Chunk → (nxt : ℕ) → Prop
  | _, [], _ => True
  | prv, c :: cs, nxt => Header mem c prv (headOr cs nxt) ∧ Seg mem c.addr cs nxt

variable {mem mem' : Bytes} {prv nxt : ℕ} {c d : Chunk} {cs ds : List Chunk}

/-! ## Fields -/

section Fields

variable {a : ℕ} (h : Kept mem mem' a)

include h

theorem Kept.load32_eq {k : ℕ} (hk : k + 4 ≤ headerSize) :
    load32 mem' (a + k) = load32 mem (a + k) := by
  apply load32_congr
  intro x hx hx'
  exact h x (by omega) (by omega)

theorem Kept.base_eq : base mem' a = base mem a := h.load32_eq (k := 0) (by decide)

theorem Kept.size_eq : size mem' a = size mem a := h.load32_eq (k := 4) (by decide)

theorem Kept.next_eq : next mem' a = next mem a := h.load32_eq (k := 8) (by decide)

theorem Kept.prev_eq : prev mem' a = prev mem a := h.load32_eq (k := 12) (by decide)

end Fields

theorem Header.congr (h : Header mem c prv nxt) (hkept : Kept mem mem' c.addr) :
    Header mem' c prv nxt :=
  ⟨hkept.base_eq.trans h.base, hkept.size_eq.trans h.size, hkept.next_eq.trans h.next,
    hkept.prev_eq.trans h.prev⟩

theorem Kept.trans {mem'' : Bytes} {a : ℕ} (h : Kept mem mem' a) (h' : Kept mem' mem'' a) :
    Kept mem mem'' a := fun x hx hx' => (h' x hx hx').trans (h x hx hx')

/-! ## Segments -/

theorem headOr_append (cs ds : List Chunk) (nxt : ℕ) :
    headOr (cs ++ ds) nxt = headOr cs (headOr ds nxt) := by
  cases cs with
  | nil => rfl
  | cons c cs => rfl

theorem seg_append : Seg mem prv (cs ++ ds) nxt ↔
    Seg mem prv cs (headOr ds nxt) ∧ Seg mem (lastOr prv cs) ds nxt := by
  induction cs generalizing prv with
  | nil => exact (iff_of_eq (true_and _)).symm
  | cons c cs ih =>
      simp only [List.cons_append, Seg, lastOr, ih, headOr_append, and_assoc]

theorem Seg.congr (h : Seg mem prv cs nxt) (hkept : ∀ c ∈ cs, Kept mem mem' c.addr) :
    Seg mem' prv cs nxt := by
  induction cs generalizing prv with
  | nil => trivial
  | cons c cs ih =>
      refine ⟨h.1.congr (hkept c List.mem_cons_self), ?_⟩
      exact ih h.2 fun d hd => hkept d (List.mem_cons_of_mem c hd)

theorem Seg.resize (mem' : Bytes) (h : Seg mem prv (cs ++ c :: ds) nxt) (hds : ds = [] → next mem' c.addr = nxt)
    (hnext : ds ≠ [] → next mem' c.addr = next mem c.addr)
    (hbase : base mem' c.addr = base mem c.addr) (hprev : prev mem' c.addr = prev mem c.addr)
    (hkept : ∀ d ∈ cs ++ ds, Kept mem mem' d.addr) :
    Seg mem' prv (cs ++ { c with size := size mem' c.addr } :: ds) nxt := by
  obtain ⟨hcs, hc, hrest⟩ := seg_append.mp h
  refine seg_append.mpr ⟨?_, ⟨hbase.trans hc.base, rfl, ?_, hprev.trans hc.prev⟩, ?_⟩
  · exact hcs.congr fun d hd => hkept d (List.mem_append_left _ hd)
  · show next mem' c.addr = headOr ds nxt
    cases ds with
    | nil => exact hds rfl
    | cons d ds => exact (hnext (List.cons_ne_nil d ds)).trans hc.next
  · exact hrest.congr fun d hd => hkept d (List.mem_append_right _ hd)

theorem Seg.snoc (h : Seg mem prv (cs ++ [c]) 0) (hd : Header mem' d c.addr 0)
    (hnext : next mem' c.addr = d.addr) (hbase : base mem' c.addr = base mem c.addr)
    (hsize : size mem' c.addr = size mem c.addr) (hprev : prev mem' c.addr = prev mem c.addr)
    (hkept : ∀ e ∈ cs, Kept mem mem' e.addr) : Seg mem' prv (cs ++ [c, d]) 0 := by
  obtain ⟨hcs, hc, _⟩ := seg_append.mp h
  refine seg_append.mpr ⟨hcs.congr hkept, ⟨?_, ?_, hnext, ?_⟩, hd, trivial⟩
  · exact hbase.trans hc.base
  · exact hsize.trans hc.size
  · exact hprev.trans hc.prev

theorem Seg.remove (h : Seg mem prv (cs ++ c :: d :: ds) nxt)
    (hnext : next mem' c.addr = headOr ds nxt) (hbase : base mem' c.addr = base mem c.addr)
    (hsize : size mem' c.addr = size mem c.addr) (hprev : prev mem' c.addr = prev mem c.addr)
    (hkept : ∀ e ∈ cs, Kept mem mem' e.addr)
    (hds : ∀ e es, ds = e :: es → prev mem' e.addr = c.addr ∧ base mem' e.addr = base mem e.addr ∧
      size mem' e.addr = size mem e.addr ∧ next mem' e.addr = next mem e.addr ∧
      ∀ f ∈ es, Kept mem mem' f.addr) : Seg mem' prv (cs ++ c :: ds) nxt := by
  obtain ⟨hcs, hc, _, hrest⟩ := seg_append.mp h
  refine seg_append.mpr ⟨hcs.congr hkept,
    ⟨hbase.trans hc.base, hsize.trans hc.size, hnext, hprev.trans hc.prev⟩, ?_⟩
  cases ds with
  | nil => trivial
  | cons e es =>
      obtain ⟨hp, hb, hs, hn, hes⟩ := hds e es rfl
      obtain ⟨he, htail⟩ := hrest
      exact ⟨⟨hb.trans he.base, hs.trans he.size, hn.trans he.next, hp⟩, htail.congr hes⟩

theorem Seg.header (h : Seg mem prv (cs ++ c :: ds) nxt) :
    Header mem c (lastOr prv cs) (headOr ds nxt) := (seg_append.mp h).2.1

/-! ## Walks -/

/-- The walk finds the first chunk which passes the test, or ends at the last. -/
theorem walk_eq {test : ℕ → Bool} (h : Seg mem prv (c :: cs) 0)
    (hpos : ∀ d ∈ c :: cs, d.addr ≠ 0) {fuel : ℕ} (hfuel : (c :: cs).length ≤ fuel) :
    (∃ pre d post, c :: cs = pre ++ d :: post ∧ test d.addr = true ∧
        (∀ e ∈ pre, test e.addr = false) ∧ walk mem test fuel c.addr = .ok (.chunk d.addr)) ∨
      ((∀ e ∈ c :: cs, test e.addr = false) ∧
        ∃ pre d, c :: cs = pre ++ [d] ∧ walk mem test fuel c.addr = .ok (.last d.addr)) := by
  induction cs generalizing prv c fuel with
  | nil =>
      obtain ⟨fuel, rfl⟩ : ∃ k, fuel = k + 1 := ⟨fuel - 1, by simp at hfuel; omega⟩
      rw [walk, if_neg (hpos c List.mem_cons_self), h.1.next]
      cases htest : test c.addr with
      | true => exact Or.inl ⟨[], c, [], rfl, htest, nofun, rfl⟩
      | false =>
          refine Or.inr ⟨?_, [], c, rfl, rfl⟩
          intro e he
          rw [List.mem_singleton.mp he]
          exact htest
  | cons d cs ih =>
      obtain ⟨fuel, rfl⟩ : ∃ k, fuel = k + 1 := ⟨fuel - 1, by simp at hfuel; omega⟩
      have hd : d.addr ≠ 0 := hpos d (List.mem_cons_of_mem c List.mem_cons_self)
      rw [walk, if_neg (hpos c List.mem_cons_self), h.1.next]
      cases htest : test c.addr with
      | true => exact Or.inl ⟨[], c, d :: cs, rfl, htest, nofun, rfl⟩
      | false =>
          have hlen : (d :: cs).length ≤ fuel := Nat.le_of_succ_le_succ hfuel
          rw [if_neg Bool.false_ne_true, if_neg (show headOr (d :: cs) 0 ≠ 0 from hd)]
          rcases ih h.2 (fun e he => hpos e (List.mem_cons_of_mem c he)) hlen with
            ⟨pre, e, post, hsplit, he, hpre, hrun⟩ | ⟨hall, pre, e, hsplit, hrun⟩
          · refine Or.inl ⟨c :: pre, e, post, by rw [hsplit]; rfl, he, ?_, hrun⟩
            intro f hf
            rcases List.mem_cons.mp hf with rfl | hf
            · exact htest
            · exact hpre f hf
          · refine Or.inr ⟨?_, c :: pre, e, by rw [hsplit]; rfl, hrun⟩
            intro f hf
            rcases List.mem_cons.mp hf with rfl | hf
            · exact htest
            · exact hall f hf

end Yak.Kvmalloc
