import Yak.KvmallocSafety

/-!
# The order of the kernel heap

Along a run of calls which find the links right, the chunks of the free list are in the order of
their addresses with a gap between any two, and each byte of the heap is in one chunk or one block.
`kvmfree` puts a block in front of a chunk as if its payload were its header, and behind the last
chunk with the links that its header happens to have.  A new region is put at the end of the list
wherever it lies.
-/

namespace Yak.Kvmalloc

open ByteBitmap (Bytes)
open WordMemory

/-! ## Quantities of memory -/

/-- A quantity which adds up where a span is cut. -/
def Additive (μ : Span → ℕ) : Prop := ∀ a b c, a ≤ b → b ≤ c → μ (a, c) = μ (a, b) + μ (b, c)

def extent (t : Span) : ℕ := t.2 - t.1

/-- Whether the address lies in the span. -/
def hits (x : ℕ) (t : Span) : ℕ := if t.1 ≤ x ∧ x < t.2 then 1 else 0

theorem additive_extent : Additive extent := by
  intro a b c hab hbc
  unfold extent
  omega

theorem additive_hits (x : ℕ) : Additive (hits x) := by
  intro a b c hab hbc
  unfold hits
  dsimp only
  split <;> split <;> split <;> omega

/-- The quantity of the memory of the heap after so many expansions. -/
def Arena.amount (A : Arena) (μ : Span → ℕ) : ℕ → ℕ
  | 0 => μ (A.heap, A.heap + A.size)
  | e + 1 => A.amount μ e + (A.regions e).elim 0 fun r => μ (r, r + heapSize)

namespace Session

/-- The quantity of the chunks and the blocks. -/
def amount (μ : Span → ℕ) (cs : List Chunk) (live : List (ℕ × ℕ)) : ℕ :=
  ((spans cs live).map μ).sum

variable {A : Arena} {s : Session} {cs cs' pre post : List Chunk} {c d : Chunk}
  {live : List (ℕ × ℕ)} {b : ℕ × ℕ} {μ : Span → ℕ} {e e' n p r x : ℕ}

theorem amount_eq (μ : Span → ℕ) (cs : List Chunk) (live : List (ℕ × ℕ)) :
    amount μ cs live =
      (cs.map fun c => μ c.span).sum + (live.map fun b => μ (blockSpan b)).sum := by
  unfold amount spans
  rw [List.map_append, List.sum_append, List.map_map, List.map_map]
  rfl

theorem amount_chunk (μ : Span → ℕ) (pre post : List Chunk) (c : Chunk) (live : List (ℕ × ℕ)) :
    amount μ (pre ++ c :: post) live = μ c.span + amount μ (pre ++ post) live := by
  unfold amount
  rw [((spans_chunk pre post c live).map μ).sum_eq, List.map_cons, List.sum_cons]

theorem amount_block (μ : Span → ℕ) (cs : List Chunk) (b : ℕ × ℕ) (live : List (ℕ × ℕ)) :
    amount μ cs (b :: live) = μ (blockSpan b) + amount μ cs live := by
  unfold amount
  rw [((spans_block cs b live).map μ).sum_eq, List.map_cons, List.sum_cons]

theorem amount_erase (μ : Span → ℕ) (cs : List Chunk) (hb : b ∈ live) :
    amount μ cs live = μ (blockSpan b) + amount μ cs (live.erase b) := by
  unfold amount
  rw [((spans_erase cs hb).map μ).sum_eq, List.map_cons, List.sum_cons]

/-- What is taken from a chunk is a block with its header. -/
theorem Takes.amount (hμ : Additive μ) (h : Takes pre c post n p cs')
    (hbase : pre ≠ [] → c.base = c.addr + headerSize) :
    Session.amount μ cs' ((p, n) :: live) = Session.amount μ (pre ++ c :: post) live := by
  rw [amount_block, amount_chunk]
  cases h with
  | whole hpre =>
      have hspan : blockSpan (c.base, c.size) = c.span := by
        unfold blockSpan Chunk.span
        dsimp only
        rw [hbase hpre, Nat.add_sub_cancel]
      rw [hspan]
  | fromEnd hroom hfit =>
      have hblock : blockSpan (c.base + c.size - n, n) =
          (c.base + c.size - n - headerSize, c.base + c.size) := by
        unfold blockSpan
        dsimp only
        rw [Nat.sub_add_cancel (by omega)]
      have hcut : (cut c n).span = (c.addr, c.base + c.size - n - headerSize) := by
        unfold Chunk.span cut
        dsimp only
        rw [Prod.mk.injEq]
        exact ⟨rfl, by omega⟩
      have hsum := hμ c.addr (c.base + c.size - n - headerSize) (c.base + c.size) (by omega)
        (by omega)
      rw [amount_chunk, hblock, hcut, show c.span = (c.addr, c.base + c.size) from rfl, hsum]
      omega

theorem Allocates.amount (hμ : Additive μ) (h : Allocates A n p e cs e' cs')
    (htail : ∀ c ∈ cs.tail, c.base = c.addr + headerSize)
    (hold : Session.amount μ cs live = A.amount μ e) :
    Session.amount μ cs' ((p, n) :: live) = A.amount μ e' := by
  cases h with
  | @take pre post _ c htakes =>
      rw [htakes.amount hμ, hold]
      intro hpre
      apply htail
      obtain ⟨x, pre, rfl⟩ := List.exists_cons_of_ne_nil hpre
      exact List.mem_append_right _ List.mem_cons_self
  | @grow r pre _ c _ hr htakes =>
      have hregion := amount_chunk μ (pre ++ [c]) [] (region r) live
      rw [htakes.amount hμ fun _ => rfl, hregion, span_region, List.append_nil, hold, Arena.amount,
        hr, Option.elim_some, Nat.add_comm]

theorem Frees.amount (hμ : Additive μ) (h : Frees b cs cs') (hb : b ∈ live)
    (hle : headerSize ≤ b.1) (hshape : ∀ c ∈ cs, c.addr ≤ c.base + c.size) :
    Session.amount μ cs' (live.erase b) = Session.amount μ cs live := by
  rw [amount_erase μ cs hb]
  cases h with
  | @append pre c =>
      have hchunk := amount_chunk μ (pre ++ [c]) [] ⟨b.1 - headerSize, b.1, b.2⟩ (live.erase b)
      rw [List.append_assoc, List.append_nil] at hchunk
      exact hchunk
  | @join pre c hadj =>
      have hc := hshape c (by simp)
      have hsum := hμ c.addr (c.base + c.size) (b.1 + b.2) hc (by omega)
      have hjoined : ({ c with size := c.size + (b.2 + headerSize) } : Chunk).span =
          (c.addr, b.1 + b.2) := by
        unfold Chunk.span
        dsimp only
        rw [Prod.mk.injEq]
        exact ⟨rfl, by omega⟩
      have hblock : blockSpan b = (c.base + c.size, b.1 + b.2) := by
        unfold blockSpan
        rw [hadj]
      rw [amount_chunk, amount_chunk, hjoined, hsum, hblock,
        show c.span = (c.addr, c.base + c.size) from rfl]
      omega

/-! ## The order of the chunks -/

/-- The chunks are in order, with a gap between any two. -/
def Spaced (cs : List Chunk) : Prop := cs.Pairwise fun c d => c.base + c.size < d.addr

/-- No payload starts with its header. -/
def Shaped (cs : List Chunk) : Prop := ∀ c ∈ cs, c.addr < c.base

theorem Spaced.replace (h : Spaced (pre ++ c :: post)) (haddr : d.addr = c.addr)
    (hend : d.base + d.size ≤ c.base + c.size) : Spaced (pre ++ d :: post) := by
  obtain ⟨hpre, hc, hcross⟩ := List.pairwise_append.mp h
  obtain ⟨hhead, hpost⟩ := List.pairwise_cons.mp hc
  refine List.pairwise_append.mpr ⟨hpre, List.pairwise_cons.mpr ⟨?_, hpost⟩, ?_⟩
  · exact fun y hy => lt_of_le_of_lt hend (hhead y hy)
  · intro x hx y hy
    rcases List.mem_cons.mp hy with rfl | hy
    · rw [haddr]
      exact hcross x hx c List.mem_cons_self
    · exact hcross x hx y (List.mem_cons_of_mem c hy)

theorem Spaced.replaceLast (h : Spaced (pre ++ [c])) (haddr : d.addr = c.addr) :
    Spaced (pre ++ [d]) := by
  obtain ⟨hpre, -, hcross⟩ := List.pairwise_append.mp h
  refine List.pairwise_append.mpr ⟨hpre, List.pairwise_singleton _ _, ?_⟩
  intro x hx y hy
  rw [List.mem_singleton.mp hy, haddr]
  exact hcross x hx c List.mem_cons_self

/-- No chunk ends where another one begins. -/
theorem Spaced.gaps (h : Spaced cs) (hshape : ∀ c ∈ cs, c.addr < c.base + c.size) :
    ∀ c ∈ cs, ∀ d ∈ cs, c.base + c.size ≠ d.addr := by
  refine List.Pairwise.forall_of_forall_of_flip (fun c hc => (hshape c hc).ne') ?_ ?_
  · exact h.imp fun hlt => hlt.ne
  · refine h.imp_of_mem fun {c d} hc hd hlt => ?_
    have hc := hshape c hc
    have hd := hshape d hd
    exact show d.base + d.size ≠ c.addr by omega

theorem Spaced.snoc (h : Spaced (pre ++ [c])) (hshape : c.addr ≤ c.base + c.size)
    (hlt : c.base + c.size < d.addr) : Spaced (pre ++ [c, d]) := by
  obtain ⟨hpre, -, hcross⟩ := List.pairwise_append.mp h
  refine List.pairwise_append.mpr ⟨hpre, List.pairwise_pair.mpr hlt, ?_⟩
  intro x hx y hy
  have hxc := hcross x hx c List.mem_cons_self
  rcases List.mem_pair.mp hy with rfl | rfl
  · exact hxc
  · omega

theorem Takes.spaced (h : Takes pre c post n p cs') (hspaced : Spaced (pre ++ c :: post)) :
    Spaced cs' := by
  cases h with
  | whole _ => exact hspaced.sublist ((List.sublist_cons_self c post).append_left pre)
  | fromEnd _ hfit =>
      refine hspaced.replace rfl ?_
      unfold cut
      dsimp only
      omega

theorem Takes.shaped (h : Takes pre c post n p cs') (hshaped : Shaped (pre ++ c :: post)) :
    Shaped cs' := by
  intro d hd
  cases h with
  | whole _ => exact hshaped d (((List.sublist_cons_self c post).append_left pre).subset hd)
  | fromEnd _ _ =>
      rcases List.mem_append.mp hd with hd | hd
      · exact hshaped d (List.mem_append_left _ hd)
      · rcases List.mem_cons.mp hd with rfl | hd
        · exact hshaped c (List.mem_append_right _ List.mem_cons_self)
        · exact hshaped d (List.mem_append_right _ (List.mem_cons_of_mem c hd))

theorem Allocates.spaced (h : Allocates A n p e cs e' cs') (hspaced : Spaced cs)
    (hshape : ∀ c ∈ cs, c.addr ≤ c.base + c.size)
    (hgrow : ∀ pre c r, cs = pre ++ [c] → (∀ d ∈ cs, d.size < n) → A.regions e = some r →
      heapSize ≤ n + headerSize ∨ c.base + c.size < r) : Spaced cs' := by
  cases h with
  | take htakes => exact htakes.spaced hspaced
  | @grow r pre _ c hsmall hr htakes =>
      cases htakes with
      | whole _ =>
          rw [List.append_nil]
          exact hspaced
      | fromEnd _ hfit =>
          have hregion : (region r).size = heapSize - headerSize := rfl
          have h16 : headerSize = 16 := rfl
          have hlt := (hgrow pre c r rfl hsmall hr).resolve_left (by omega)
          have hsnoc := hspaced.snoc (d := cut (region r) n) (hshape c (by simp)) hlt
          rw [List.append_assoc]
          exact hsnoc

theorem Allocates.shaped (h : Allocates A n p e cs e' cs') (hshaped : Shaped cs) : Shaped cs' := by
  cases h with
  | take htakes => exact htakes.shaped hshaped
  | @grow r pre _ c _ _ htakes =>
      refine htakes.shaped fun d hd => ?_
      rcases List.mem_append.mp hd with hd | hd
      · exact hshaped d hd
      · rw [List.mem_singleton.mp hd]
        exact Nat.lt_add_of_pos_right (by decide)

theorem Allocates.regions (h : Allocates A n p e cs e' cs')
    (hregions : ∀ k < e, (A.regions k).isSome) : ∀ k < e', (A.regions k).isSome := by
  cases h with
  | take _ => exact hregions
  | grow _ hr _ =>
      intro k hk
      rcases Nat.lt_succ_iff_lt_or_eq.mp hk with hk | rfl
      · exact hregions k hk
      · rw [hr]
        rfl

theorem Frees.spaced (h : Frees b cs cs') (hspaced : Spaced cs) (hshaped : Shaped cs)
    (hapart : ∀ c ∈ cs, Span.Apart c.span (blockSpan b)) : Spaced cs' := by
  cases h with
  | @append pre c hle hne =>
      have hc : c ∈ pre ++ [c] := by simp
      have hbefore := hapart c hc
      have hlt := hshaped c hc
      unfold Span.Apart Chunk.span blockSpan at hbefore
      dsimp only at hbefore
      exact hspaced.snoc (by omega) (show c.base + c.size < b.1 - headerSize by omega)
  | join _ => exact hspaced.replaceLast rfl

theorem Frees.shaped (h : Frees b cs cs') (hshaped : Shaped cs) (hle : headerSize ≤ b.1) :
    Shaped cs' := by
  have h16 : headerSize = 16 := rfl
  intro d hd
  cases h with
  | append _ _ =>
      rcases List.mem_append.mp hd with hd | hd
      · exact hshaped d (List.mem_append_left _ hd)
      · rcases List.mem_pair.mp hd with rfl | rfl
        · exact hshaped d (by simp)
        · exact show b.1 - headerSize < b.1 by omega
  | @join pre c _ =>
      rcases List.mem_append.mp hd with hd | hd
      · exact hshaped d (List.mem_append_left _ hd)
      · rw [List.mem_singleton.mp hd]
        exact hshaped c (by simp)

/-- What a run keeps, with the chunks of the free list. -/
structure Ordered (A : Arena) (s : Session) (cs : List Chunk) : Prop where
  sound : s.Sound A cs
  spaced : Spaced cs
  shaped : Shaped cs
  amount : ∀ μ, Additive μ → Session.amount μ cs s.live = A.amount μ s.heap.expansions
  regions : ∀ k < s.heap.expansions, (A.regions k).isSome

theorem ordered_init (hA : A.Valid) (mem : Bytes) :
    Ordered A ⟨Heap.kvmallocInit mem A.heap A.size, []⟩ [⟨A.heap, A.heap + 4, A.size - 4⟩] := by
  have hroom := hA.room
  have h16 : headerSize = 16 := rfl
  refine ⟨sound_init hA mem, List.pairwise_singleton _ _, ?_, fun μ _ => ?_, nofun⟩
  · intro c hc
    rw [List.mem_singleton.mp hc]
    exact Nat.lt_add_of_pos_right (by decide)
  · have hspan : (⟨A.heap, A.heap + 4, A.size - 4⟩ : Chunk).span = (A.heap, A.heap + A.size) := by
      unfold Chunk.span
      dsimp only
      rw [Prod.mk.injEq]
      exact ⟨rfl, by omega⟩
    exact congrArg μ hspan

/-- A block is allocated.  A new region which is not used up by it lies behind all chunks. -/
theorem Ordered.allocates {h' : Heap} (h : Ordered A s cs)
    (hsound : Sound A ⟨h', (p, n) :: s.live⟩ cs')
    (halloc : Allocates A n p s.heap.expansions cs h'.expansions cs')
    (hgrow : ∀ pre c r, cs = pre ++ [c] → (∀ d ∈ cs, d.size < n) →
      A.regions s.heap.expansions = some r →
      heapSize ≤ n + headerSize ∨ c.base + c.size < r) :
    Ordered A ⟨h', (p, n) :: s.live⟩ cs' := by
  have hshape : ∀ c ∈ cs, c.addr ≤ c.base + c.size := by
    intro c hc
    exact (Nat.le_add_right _ _).trans (h.sound.shape c hc).2
  exact ⟨hsound, halloc.spaced h.spaced hshape hgrow, halloc.shaped h.shaped,
    fun μ hμ => halloc.amount hμ h.sound.tail (h.amount μ hμ), halloc.regions h.regions⟩

theorem Ordered.frees {h' : Heap} (h : Ordered A s cs) (hb : b ∈ s.live)
    (hsound : Sound A ⟨h', s.live.erase b⟩ cs') (hfrees : Frees b cs cs')
    (hexp : h'.expansions = s.heap.expansions) : Ordered A ⟨h', s.live.erase b⟩ cs' := by
  have hle := (h.sound.header b hb).1
  have hapart : ∀ c ∈ cs, Span.Apart c.span (blockSpan b) := by
    intro c hc
    exact (List.pairwise_append.mp h.sound.disjoint).2.2 _ (List.mem_map_of_mem hc) _
      (List.mem_map_of_mem hb)
  have hshape : ∀ c ∈ cs, c.addr ≤ c.base + c.size := by
    intro c hc
    exact (Nat.le_add_right _ _).trans (h.sound.shape c hc).2
  refine ⟨hsound, hfrees.spaced h.spaced h.shaped hapart, hfrees.shaped h.shaped hle,
    fun μ hμ => ?_, ?_⟩
  · dsimp only
    rw [hfrees.amount hμ hb hle hshape, h.amount μ hμ, hexp]
  · dsimp only
    rw [hexp]
    exact h.regions

/-! ## The heap as it should be -/

/-- The free list has these chunks, linked both ways and in order; no chunk ends where another one
begins; every byte of the heap is in one chunk or in one block with its header; and the sizes add
up, with what lies between the address of a chunk and its payload as its header. -/
structure Tidy (A : Arena) (s : Session) (cs : List Chunk) : Prop where
  first : s.heap.freeList = headOr cs 0
  linked : Seg s.heap.mem 0 cs 0
  sorted : cs.Pairwise fun c d => c.addr < d.addr
  gaps : ∀ c ∈ cs, ∀ d ∈ cs, c.base + c.size ≠ d.addr
  once : ∀ x, A.InHeap s.heap.expansions x →
    ((spans cs s.live).countP fun t => t.1 ≤ x ∧ x < t.2) = 1
  total : (cs.map Chunk.size).sum + (s.live.map Prod.snd).sum +
      ((cs.map fun c => c.base - c.addr).sum + headerSize * s.live.length) =
    A.size + heapSize * s.heap.expansions

theorem sum_hits (l : List Span) (x : ℕ) :
    (l.map (hits x)).sum = l.countP fun t => t.1 ≤ x ∧ x < t.2 := by
  induction l with
  | nil => rfl
  | cons t l ih =>
      rw [List.map_cons, List.sum_cons, ih, List.countP_cons, Nat.add_comm]
      unfold hits
      by_cases h : t.1 ≤ x ∧ x < t.2 <;> simp [h]

theorem inHeap_succ : A.InHeap (e + 1) x ↔
    A.InHeap e x ∨ ∃ r, A.regions e = some r ∧ r ≤ x ∧ x < r + heapSize := by
  constructor
  · rintro (hx | ⟨k, r, hk, hr, hx⟩)
    · exact Or.inl (Or.inl hx)
    · rcases Nat.lt_succ_iff_lt_or_eq.mp hk with hk | rfl
      · exact Or.inl (Or.inr ⟨k, r, hk, hr, hx⟩)
      · exact Or.inr ⟨r, hr, hx⟩
  · rintro (hx | ⟨r, hr, hx⟩)
    · exact inHeap_mono (Nat.le_succ e) hx
    · exact Or.inr ⟨e, r, Nat.lt_succ_self e, hr, hx⟩

/-- An address of a new region was not part of the heap. -/
theorem not_inHeap_region (hA : A.Valid) (hr : A.regions e = some r) (hlo : r ≤ x)
    (hhi : x < r + heapSize) : ¬ A.InHeap e x := by
  intro hx
  have hapart := apart_of_fresh hA hr (t := (x, x + 1)) (Nat.lt_succ_self x) fun y hy hy' => by
    obtain rfl : y = x := by omega
    exact hx
  unfold Span.Apart at hapart
  dsimp only at hapart
  omega

theorem amount_hits (hA : A.Valid) (e x : ℕ) :
    (A.InHeap e x → A.amount (hits x) e = 1) ∧ (¬ A.InHeap e x → A.amount (hits x) e = 0) := by
  induction e with
  | zero =>
      have hzero : A.InHeap 0 x ↔ A.heap ≤ x ∧ x < A.heap + A.size :=
        ⟨fun hx => hx.resolve_right fun ⟨k, _, hk, _⟩ => absurd hk (Nat.not_lt_zero k), Or.inl⟩
      rw [hzero]
      exact ⟨fun hx => if_pos hx, fun hx => if_neg hx⟩
  | succ e ih =>
      rw [inHeap_succ, Arena.amount]
      cases hr : A.regions e with
      | none =>
          simp only [reduceCtorEq, false_and, exists_false, or_false, Option.elim_none, Nat.add_zero]
          exact ih
      | some r =>
          rw [Option.elim_some]
          by_cases hx : r ≤ x ∧ x < r + heapSize
          · have hhits : hits x (r, r + heapSize) = 1 := if_pos hx
            rw [hhits, ih.2 (not_inHeap_region hA hr hx.1 hx.2)]
            exact ⟨fun _ => rfl, fun hnot => absurd (Or.inr ⟨r, rfl, hx⟩) hnot⟩
          · have hhits : hits x (r, r + heapSize) = 0 := if_neg hx
            rw [hhits, Nat.add_zero]
            refine ⟨fun hin => ih.1 (hin.resolve_right ?_), fun hnot => ih.2 fun hin => hnot (Or.inl hin)⟩
            rintro ⟨q, hq, hxq⟩
            obtain rfl := Option.some.inj hq
            exact hx hxq

theorem amount_extent (h : ∀ k < e, (A.regions k).isSome) :
    A.amount extent e = A.size + heapSize * e := by
  induction e with
  | zero =>
      unfold Arena.amount extent
      dsimp only
      omega
  | succ e ih =>
      obtain ⟨r, hr⟩ := Option.isSome_iff_exists.mp (h e (Nat.lt_succ_self e))
      have hregion : extent (r, r + heapSize) = heapSize := Nat.add_sub_cancel_left ..
      rw [Arena.amount, ih fun k hk => h k (Nat.lt_succ_of_lt hk), hr, Option.elim_some, hregion,
        Nat.mul_succ, Nat.add_assoc]

theorem sum_extent (cs : List Chunk) (live : List (ℕ × ℕ)) (hcs : ∀ c ∈ cs, c.addr ≤ c.base)
    (hlive : ∀ b ∈ live, headerSize ≤ b.1) :
    amount extent cs live = (cs.map Chunk.size).sum + (live.map Prod.snd).sum +
      ((cs.map fun c => c.base - c.addr).sum + headerSize * live.length) := by
  have hchunks : (cs.map fun c => extent c.span).sum =
      (cs.map Chunk.size).sum + (cs.map fun c => c.base - c.addr).sum := by
    rw [← List.sum_map_add]
    refine congrArg List.sum (List.map_congr_left fun c hc => ?_)
    have hle := hcs c hc
    unfold extent Chunk.span
    dsimp only
    omega
  have hblocks : (live.map fun b => extent (blockSpan b)).sum =
      (live.map Prod.snd).sum + headerSize * live.length := by
    have hconst : (live.map fun _ => headerSize).sum = headerSize * live.length := by
      rw [List.map_const', List.sum_replicate, smul_eq_mul, Nat.mul_comm]
    rw [← hconst, ← List.sum_map_add]
    refine congrArg List.sum (List.map_congr_left fun b hb => ?_)
    have hle := hlive b hb
    unfold extent blockSpan
    dsimp only
    omega
  rw [amount_eq, hchunks, hblocks]
  omega

theorem Ordered.tidy (h : Ordered A s cs) (hA : A.Valid) : Tidy A s cs := by
  have hshape : ∀ c ∈ cs, c.addr ≤ c.base + c.size := by
    intro c hc
    exact (Nat.le_add_right _ _).trans (h.sound.shape c hc).2
  refine ⟨h.sound.first, h.sound.linked, ?_, h.spaced.gaps ?_, ?_, ?_⟩
  · exact h.spaced.imp_of_mem fun hc _ hlt => lt_of_le_of_lt (hshape _ hc) hlt
  · intro c hc
    have hlen := (h.sound.shape c hc).2
    unfold headerSize at hlen
    omega
  · intro x hx
    rw [← sum_hits]
    exact (h.amount _ (additive_hits x)).trans ((amount_hits hA _ x).1 hx)
  · rw [← sum_extent cs s.live (fun c hc => (h.shaped c hc).le) fun b hb => (h.sound.header b hb).1,
      h.amount _ additive_extent, amount_extent h.regions]

/-! ## Runs -/

/-- The chunk from which the bytes are taken has room for them and a header, or is taken as a
whole and not the first.  A new region has room as well and lies behind the last chunk, but does
not touch it; or it is used up, or too small for the bytes.  A block is freed when it is behind all
chunks and its links happen to be right. -/
def TidyStep (A : Arena) (s : Session) : Op → Prop
  | .kvmalloc bytes =>
      match s.heap.findFit bytes with
      | .ok (.chunk ptr) =>
          size s.heap.mem ptr = bytes ∧ ptr ≠ s.heap.freeList ∨
            ptr + bytes + 2 * headerSize ≤ base s.heap.mem ptr + size s.heap.mem ptr ∧
              bytes + headerSize ≤ size s.heap.mem ptr
      | .ok (.last ptr) =>
          match A.regions s.heap.expansions with
          | none => True
          | some r =>
              heapSize ≤ bytes + headerSize ∨
                bytes + 2 * headerSize ≤ heapSize ∧
                  base s.heap.mem ptr + size s.heap.mem ptr < r
      | .error _ => True
  | .kvmfree block =>
      block ∈ s.live ∧
        match s.heap.findBehind block.1 with
        | .ok (.chunk _) => False
        | .ok (.last ptr) =>
            next s.heap.mem (block.1 - headerSize) = 0 ∧
              (base s.heap.mem ptr + size s.heap.mem ptr = block.1 - headerSize ∨
                prev s.heap.mem (block.1 - headerSize) = ptr)
        | .error _ => True
  | .store block x _ => block ∈ s.live ∧ block.1 ≤ x ∧ x < block.1 + block.2

def TidyRun (A : Arena) (s : Session) : List Op → Prop
  | [] => True
  | op :: ops =>
      s.TidyStep A op ∧
        match s.step A op with
        | .ok s' => s'.TidyRun A ops
        | .error _ => True

instance (A : Arena) (s : Session) : (op : Op) → Decidable (s.TidyStep A op)
  | .kvmalloc bytes =>
      match h : s.heap.findFit bytes with
      | .ok (.chunk ptr) =>
          decidable_of_iff (size s.heap.mem ptr = bytes ∧ ptr ≠ s.heap.freeList ∨
            ptr + bytes + 2 * headerSize ≤ base s.heap.mem ptr + size s.heap.mem ptr ∧
              bytes + headerSize ≤ size s.heap.mem ptr) (by simp only [TidyStep, h])
      | .ok (.last ptr) =>
          match hr : A.regions s.heap.expansions with
          | none => isTrue (by simp only [TidyStep, h, hr])
          | some r =>
              decidable_of_iff (heapSize ≤ bytes + headerSize ∨
                bytes + 2 * headerSize ≤ heapSize ∧
                  base s.heap.mem ptr + size s.heap.mem ptr < r) (by simp only [TidyStep, h, hr])
      | .error _ => isTrue (by simp only [TidyStep, h])
  | .kvmfree block =>
      match h : s.heap.findBehind block.1 with
      | .ok (.chunk _) => isFalse (by simp only [TidyStep, h, and_false, not_false_eq_true])
      | .ok (.last ptr) =>
          decidable_of_iff (block ∈ s.live ∧ next s.heap.mem (block.1 - headerSize) = 0 ∧
            (base s.heap.mem ptr + size s.heap.mem ptr = block.1 - headerSize ∨
              prev s.heap.mem (block.1 - headerSize) = ptr)) (by simp only [TidyStep, h])
      | .error _ => decidable_of_iff (block ∈ s.live ∧ True) (by simp only [TidyStep, h])
  | .store block x _ =>
      decidable_of_iff (block ∈ s.live ∧ block.1 ≤ x ∧ x < block.1 + block.2) Iff.rfl

def decidableTidyRun (A : Arena) : (ops : List Op) → (s : Session) → Decidable (s.TidyRun A ops)
  | [], _ => isTrue trivial
  | op :: ops, s =>
      match h : s.step A op with
      | .ok s' =>
          have := decidableTidyRun A ops s'
          decidable_of_iff (s.TidyStep A op ∧ s'.TidyRun A ops) (by simp only [TidyRun, h])
      | .error _ => decidable_of_iff (s.TidyStep A op ∧ True) (by simp only [TidyRun, h])

instance (A : Arena) (s : Session) (ops : List Op) : Decidable (s.TidyRun A ops) :=
  decidableTidyRun A ops s

/-- Along the run every state is tidy, and each byte of a block which is freed is in one chunk
then.  The only halt is that there is no more memory. -/
def KeepsTidy (A : Arena) (s : Session) : List Op → Prop
  | [] => ∃ cs, Tidy A s cs
  | op :: ops =>
      (∃ cs, Tidy A s cs) ∧
        match s.step A op with
        | .ok s' =>
            (∀ b, op = .kvmfree b → ∃ cs, Tidy A s' cs ∧ ∀ x, b.1 - headerSize ≤ x →
              x < b.1 + b.2 → ((cs.map Chunk.span).countP fun t => t.1 ≤ x ∧ x < t.2) = 1) ∧
            s'.KeepsTidy A ops
        | .error e => e = .panic "Unable to expand heap, out of memory"

theorem Sound.kvmallocLoop_panics (hA : A.Valid) (hlarge : heapSize < n + headerSize) (fuel : ℕ)
    (h : s.Sound A cs) (hsmall : ∀ d ∈ cs, d.size < n) (hfuel : walkFuel < cs.length + fuel) :
    Heap.kvmallocLoop A.regions n fuel s.heap =
      .error (.panic "Unable to expand heap, out of memory") := by
  induction fuel generalizing s cs with
  | zero =>
      have hlen := h.length_le hA
      omega
  | succ fuel ih =>
      unfold Heap.kvmallocLoop
      rcases h.walk_eq hA fun ptr => n ≤ size s.heap.mem ptr with
        ⟨pre, d, post, rfl, htest, _, _⟩ | ⟨_, pre, d, rfl, hfind⟩
      · have hd : d ∈ pre ++ d :: post := List.mem_append_right _ List.mem_cons_self
        have hle : n ≤ size s.heap.mem d.addr := of_decide_eq_true htest
        rw [h.size_eq hd] at hle
        exact absurd (hsmall d hd) (not_lt.mpr hle)
      · change s.heap.findFit n = _ at hfind
        rw [hfind, ok_bind]
        dsimp only
        cases hr : A.regions s.heap.expansions with
        | none =>
            unfold Heap.grow Heap.expandHeap
            rw [hr]
            rfl
        | some r =>
            obtain ⟨h₁, hgrow, hsound₁, -, -⟩ := h.grow hA hr
            rw [hgrow, ok_bind]
            refine ih hsound₁ ?_ ?_
            · intro e he
              rcases List.mem_append.mp he with he | he
              · exact hsmall e (List.mem_append_left _ he)
              · rcases List.mem_pair.mp he with rfl | rfl
                · exact hsmall e (by simp)
                · unfold heapSize headerSize at hlarge
                  exact show heapSize - headerSize < n by
                    unfold heapSize headerSize
                    omega
            · simp only [List.length_append, List.length_cons, List.length_nil] at hfuel ⊢
              omega

theorem Ordered.kvmalloc (h : Ordered A s cs) (hA : A.Valid)
    (hstep : s.TidyStep A (.kvmalloc n)) :
    (∃ s' cs', s.step A (.kvmalloc n) = .ok s' ∧ Ordered A s' cs') ∨
      s.step A (.kvmalloc n) = .error (.panic "Unable to expand heap, out of memory") := by
  have hsafe : s.SafeStep (.kvmalloc n) → (∀ pre c r, cs = pre ++ [c] → (∀ d ∈ cs, d.size < n) →
      A.regions s.heap.expansions = some r → heapSize ≤ n + headerSize ∨ c.base + c.size < r) →
      (∃ s' cs', s.step A (.kvmalloc n) = .ok s' ∧ Ordered A s' cs') ∨
        s.step A (.kvmalloc n) = .error (.panic "Unable to expand heap, out of memory") := by
    intro hsafe hgrow
    rcases h.sound.kvmalloc hA hsafe with ⟨p, h', cs', hok, hsound, halloc, -⟩ | hpanic
    · exact Or.inl ⟨_, cs', hok, h.allocates hsound halloc hgrow⟩
    · exact Or.inr hpanic
  unfold TidyStep at hstep
  dsimp only at hstep
  rcases h.sound.walk_eq hA fun ptr => n ≤ size s.heap.mem ptr with
    ⟨pre, d, post, rfl, htest, _, hfind⟩ | ⟨hnone, pre, d, rfl, hfind⟩
  · change s.heap.findFit n = _ at hfind
    rw [hfind] at hstep
    refine hsafe ?_ ?_
    · unfold SafeStep
      dsimp only
      rw [hfind]
      exact hstep
    · intro _ _ _ _ hsmall _
      have hd : d ∈ pre ++ d :: post := List.mem_append_right _ List.mem_cons_self
      have hle : n ≤ size s.heap.mem d.addr := of_decide_eq_true htest
      rw [h.sound.size_eq hd] at hle
      exact absurd (hsmall d hd) (not_lt.mpr hle)
  · change s.heap.findFit n = _ at hfind
    have hd : d ∈ pre ++ [d] := by simp
    rw [hfind] at hstep
    dsimp only at hstep
    rw [h.sound.base_eq hd, h.sound.size_eq hd] at hstep
    have hsmall : ∀ e ∈ pre ++ [d], e.size < n := by
      intro e he
      have hnot := of_decide_eq_false (hnone e he)
      rw [h.sound.size_eq he] at hnot
      exact not_le.mp hnot
    have hsafe' : (n + headerSize = heapSize ∨ n + 2 * headerSize ≤ heapSize) →
        s.SafeStep (.kvmalloc n) := by
      intro hroom
      unfold SafeStep
      dsimp only
      rw [hfind]
      exact hroom
    cases hr : A.regions s.heap.expansions with
    | none =>
        right
        unfold step Heap.kvmalloc
        dsimp only
        rw [show walkFuel = (2 ^ 32 - 1) + 1 from rfl, Heap.kvmallocLoop, hfind, ok_bind]
        unfold Heap.grow Heap.expandHeap
        dsimp only
        rw [hr]
        rfl
    | some r =>
        rw [hr] at hstep
        dsimp only at hstep
        by_cases hlarge : heapSize < n + headerSize
        · right
          have hlen : 0 < (pre ++ [d]).length := List.length_pos_of_mem hd
          have hpanic := h.sound.kvmallocLoop_panics hA hlarge walkFuel hsmall (by omega)
          unfold step Heap.kvmalloc
          dsimp only
          rw [hpanic]
          rfl
        · refine hsafe (hsafe' ?_) ?_
          · omega
          · intro pre' c r' hsplit _ hr'
            obtain ⟨-, hlast⟩ := List.append_inj' hsplit rfl
            obtain rfl := (List.cons.inj hlast).1
            obtain rfl := Option.some.inj (hr.symm.trans hr')
            exact hstep.imp_right And.right

theorem Ordered.kvmfree (h : Ordered A s cs) (hA : A.Valid) (hstep : s.TidyStep A (.kvmfree b)) :
    ∃ h' cs', s.step A (.kvmfree b) = .ok ⟨h', s.live.erase b⟩ ∧
      Ordered A ⟨h', s.live.erase b⟩ cs' ∧ b ∈ s.live ∧ h'.expansions = s.heap.expansions := by
  unfold TidyStep at hstep
  dsimp only at hstep
  obtain ⟨hb, hstep⟩ := hstep
  have hsafe : s.SafeStep (.kvmfree b) := by
    unfold SafeStep
    dsimp only
    refine ⟨hb, ?_⟩
    rcases h.sound.walk_eq hA fun ptr => b.1 < base s.heap.mem ptr with
      ⟨pre, d, post, rfl, _, _, hfind⟩ | ⟨_, pre, c, rfl, hfind⟩
    · change s.heap.findBehind b.1 = _ at hfind
      rw [hfind] at hstep
      exact hstep.elim
    · change s.heap.findBehind b.1 = _ at hfind
      rw [hfind] at hstep ⊢
      dsimp only at hstep ⊢
      have hheader := h.sound.linked.header
      refine ⟨hstep.1, hstep.2, ?_⟩
      rw [hheader.prev]
      rcases lastOr_mem pre with rfl | ⟨y, hy, hlast⟩
      · exact Or.inl rfl
      · right
        have hytail : c ∈ (pre ++ [c]).tail := by
          obtain ⟨x, pre', rfl⟩ := List.exists_cons_of_ne_nil (List.ne_nil_of_mem hy)
          exact List.mem_append_right _ (List.mem_singleton.mpr rfl)
        have hgap := (List.pairwise_append.mp h.spaced).2.2 y hy c List.mem_cons_self
        have hcbase := h.sound.tail c hytail
        rw [hlast, h.sound.base_eq (List.mem_append_left _ hy),
          h.sound.size_eq (List.mem_append_left _ hy), hheader.base]
        omega
  obtain ⟨h', cs', hok, hsound, hfrees, hexp⟩ := h.sound.kvmfree hA hsafe
  exact ⟨h', cs', hok, h.frees hb hsound hfrees hexp, hb, hexp⟩

theorem Ordered.store (h : Ordered A s cs) (byte : BitVec 8) (hstep : s.TidyStep A (.store b x byte)) :
    Ordered A ⟨{ s.heap with mem := Function.update s.heap.mem x byte }, s.live⟩ cs :=
  ⟨h.sound.store byte hstep, h.spaced, h.shaped, h.amount, h.regions⟩

/-- Each byte of a block which was freed is in one chunk. -/
theorem Ordered.freed {s' : Session} (h : Ordered A s cs) (hA : A.Valid) (h' : Ordered A s' cs')
    (hb : b ∈ s.live) (hlive : s'.live = s.live.erase b)
    (hexp : s'.heap.expansions = s.heap.expansions) (hlo : b.1 - headerSize ≤ x)
    (hhi : x < b.1 + b.2) : ((cs'.map Chunk.span).countP fun t => t.1 ≤ x ∧ x < t.2) = 1 := by
  have hin := (h.sound.inside _ (block_mem_spans hb)).2.2 x hlo hhi
  have hbefore := h.amount _ (additive_hits x)
  have hafter := h'.amount _ (additive_hits x)
  have hblock : hits x (blockSpan b) = 1 := if_pos ⟨hlo, hhi⟩
  rw [(amount_hits hA _ x).1 hin, amount_erase _ cs hb, hblock, amount_eq] at hbefore
  rw [hexp, (amount_hits hA _ x).1 hin, hlive, amount_eq] at hafter
  rw [← sum_hits, List.map_map]
  change (cs'.map fun c => hits x c.span).sum = 1
  omega

theorem Ordered.keepsTidy (hA : A.Valid) (ops : List Op) (h : Ordered A s cs)
    (hrun : s.TidyRun A ops) : s.KeepsTidy A ops := by
  induction ops generalizing s cs with
  | nil => exact ⟨cs, h.tidy hA⟩
  | cons op ops ih =>
      obtain ⟨hop, hrest⟩ := hrun
      refine ⟨⟨cs, h.tidy hA⟩, ?_⟩
      cases op with
      | kvmalloc n =>
          rcases h.kvmalloc hA hop with ⟨s', cs', hok, h'⟩ | hpanic
          · rw [hok] at hrest ⊢
            exact ⟨nofun, ih h' hrest⟩
          · rw [hpanic]
      | kvmfree b =>
          obtain ⟨heap', cs', hok, h', hb, hexp⟩ := h.kvmfree hA hop
          rw [hok] at hrest ⊢
          refine ⟨fun b' heq => ?_, ih h' hrest⟩
          obtain rfl := Op.kvmfree.inj heq
          exact ⟨cs', h'.tidy hA, fun x hlo hhi => h.freed hA h' hb rfl hexp hlo hhi⟩
      | store b x byte => exact ⟨nofun, ih (h.store byte hop) hrest⟩

/-- From `kvmalloc_init` on, in every run of calls which find the links right, the free list is in
order, and its chunks and the blocks in use make up the heap. -/
theorem keepsTidy_of_tidyRun (hA : A.Valid) (mem : Bytes) (ops : List Op)
    (hrun : TidyRun A ⟨Heap.kvmallocInit mem A.heap A.size, []⟩ ops) :
    KeepsTidy A ⟨Heap.kvmallocInit mem A.heap A.size, []⟩ ops :=
  (ordered_init hA mem).keepsTidy hA ops hrun

/-- A block of the first page, one of a new region which is freed again, and a small one. -/
theorem keepsTidy_smallArena :
    KeepsTidy smallArena ⟨Heap.kvmallocInit (fun _ => 0#8) 0x1000 0x1000, []⟩
      [.kvmalloc 100, .kvmalloc 5000, .kvmfree (0xBFEC78, 5000), .kvmalloc 20] :=
  keepsTidy_of_tidyRun smallArena_valid _ _ (by decide +kernel)

/-- Of two blocks the first one is freed, which lies behind the other one.  Its header does not lead
back to the chunk before it. -/
theorem not_keepsTidy_first_freed :
    smallArena.Valid ∧
      ¬KeepsTidy smallArena ⟨Heap.kvmallocInit (fun _ => 0#8) 0x1000 0x1000, []⟩
        [.kvmalloc 100, .kvmalloc 100, .kvmfree (8092, 100)] := by
  refine ⟨smallArena_valid, ?_⟩
  rintro ⟨-, hstep₁⟩
  have hfreed : ∃ s₁ s₂ s₃,
      step smallArena ⟨Heap.kvmallocInit (fun _ => 0#8) 0x1000 0x1000, []⟩ (.kvmalloc 100) =
        .ok s₁ ∧ step smallArena s₁ (.kvmalloc 100) = .ok s₂ ∧
      step smallArena s₂ (.kvmfree (8092, 100)) = .ok s₃ ∧ s₃.heap.freeList = 0x1000 ∧
      next s₃.heap.mem 0x1000 = 8076 ∧ prev s₃.heap.mem 8076 = 0 :=
    ⟨_, _, _, rfl, rfl, rfl, by decide +kernel, by decide +kernel, by decide +kernel⟩
  obtain ⟨s₁, s₂, s₃, h₁, h₂, h₃, hfirst, hnext, hprev⟩ := hfreed
  rw [h₁] at hstep₁
  obtain ⟨-, hstep₂⟩ := hstep₁.2
  rw [h₂] at hstep₂
  obtain ⟨-, hstep₃⟩ := hstep₂.2
  rw [h₃] at hstep₃
  obtain ⟨cs, htidy⟩ := hstep₃.2
  have hhead := htidy.first
  have hlinked := htidy.linked
  rw [hfirst] at hhead
  match cs, hhead, hlinked with
  | c :: cs, hhead, ⟨hc, hrest⟩ =>
      have haddr : c.addr = 0x1000 := hhead.symm
      have hsecond := hc.next
      rw [haddr, hnext] at hsecond
      match cs, hsecond, hrest with
      | d :: _, hsecond, ⟨hd, _⟩ =>
          have hback := hd.prev
          rw [show d.addr = 8076 from hsecond.symm, hprev, haddr] at hback
          cases hback

end Session

end Yak.Kvmalloc
