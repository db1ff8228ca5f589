import Yak.KvmallocList

/-!
# AllApart blocks of the kernel heap

The blocks handed out and the chunks of the free list share no memory as long as
every request leaves room for a header in the chunk it is cut from.  A request for
nearly all of a chunk makes its size wrap, a request for all of the first chunk
leaves it on the list, and `kvmfree` takes the links of a block from memory which
nobody has written, or takes the block itself for a header.
-/

namespace Yak.Kvmalloc

open ByteBitmap (Bytes)
open WordMemory

/-- The memory given to `kvmalloc_init`, and the regions of `expand_heap`. -/
structure Arena where
  heap : ℕ
  size : ℕ
  regions : ℕ → Option ℕ

namespace Arena

/-- All of it is memory below the top, and the regions are fresh. -/
structure Valid (A : Arena) : Prop where
  pos : 0 < A.heap
  room : headerSize ≤ A.size
  top : A.heap + A.size < 2 ^ 32
  region : ∀ k r, A.regions k = some r → 0 < r ∧ r + heapSize < 2 ^ 32 ∧
    Span.Apart (r, r + heapSize) (A.heap, A.heap + A.size)
  fresh : ∀ j k r t, j ≠ k → A.regions j = some r → A.regions k = some t →
    Span.Apart (r, r + heapSize) (t, t + heapSize)

/-- The address belongs to the heap after so many expansions. -/
def InHeap (A : Arena) (expansions x : ℕ) : Prop :=
  A.heap ≤ x ∧ x < A.heap + A.size ∨
    ∃ k r, k < expansions ∧ A.regions k = some r ∧ r ≤ x ∧ x < r + heapSize

end Arena

/-- The heap, and the blocks which are in use, each with its size. -/
structure Session where
  heap : Heap
  live : List (ℕ × ℕ)

inductive Op where
  | kvmalloc (bytes : ℕ)
  | kvmfree (block : ℕ × ℕ)
  /-- The owner of a block stores a byte in it. -/
  | store (block : ℕ × ℕ) (x : ℕ) (byte : BitVec 8)

def payload (b : ℕ × ℕ) : Span := (b.1, b.1 + b.2)

/-- A block with its header. -/
def blockSpan (b : ℕ × ℕ) : Span := (b.1 - headerSize, b.1 + b.2)

/-- The chunk headers which the links lead to. -/
inductive OnFreeList (h : Heap) : ℕ → Prop where
  | first : h.freeList ≠ 0 → OnFreeList h h.freeList
  | next {ptr : ℕ} : OnFreeList h ptr → next h.mem ptr ≠ 0 → OnFreeList h (next h.mem ptr)

namespace Session

def step (A : Arena) (s : Session) : Op → Except Halt Session
  | .kvmalloc bytes => do
      let (p, h) ← s.heap.kvmalloc A.regions bytes
      .ok ⟨h, (p, bytes) :: s.live⟩
  | .kvmfree block => do
      let h ← s.heap.kvmfree block.1
      .ok ⟨h, s.live.erase block⟩
  | .store _ x byte => .ok ⟨{ s.heap with mem := Function.update s.heap.mem x byte }, s.live⟩

/-- Blocks in use are heap memory, and meet neither each other nor a header of the
free list. -/
structure Good (A : Arena) (s : Session) : Prop where
  inside : ∀ b ∈ s.live, ∀ x, b.1 ≤ x → x < b.1 + b.2 → A.InHeap s.heap.expansions x
  apart : AllApart (s.live.map payload)
  headers : ∀ ptr, OnFreeList s.heap ptr → ∀ b ∈ s.live,
    Span.Apart (ptr, ptr + headerSize) (payload b)

/-- No chunk of the free list has become larger. -/
def SizesFall (s s' : Session) : Prop :=
  ∀ ptr, OnFreeList s.heap ptr → size s'.heap.mem ptr ≤ size s.heap.mem ptr

/-- Along the run every state is good, and no size wraps when `kvmalloc` takes
from a chunk.  The only halt is that there is no more memory. -/
def Keeps (A : Arena) (s : Session) : List Op → Prop
  | [] => s.Good A
  | op :: ops =>
      s.Good A ∧
        match s.step A op with
        | .ok s' => (∀ bytes, op = .kvmalloc bytes → s.SizesFall s') ∧ s'.Keeps A ops
        | .error e => e = .panic "Unable to expand heap, out of memory"

/-- The chunk from which the bytes are taken has room for them and a header, or is
taken as a whole and not the first.  A new region has room for the bytes.  A
block is freed when it is behind all chunks, its links happen to be right, and the
last chunk does not touch the one before. -/
def SafeStep (s : Session) : Op → Prop
  | .kvmalloc bytes =>
      match s.heap.findFit bytes with
      | .ok (.chunk ptr) =>
          size s.heap.mem ptr = bytes ∧ ptr ≠ s.heap.freeList ∨
            ptr + bytes + 2 * headerSize ≤ base s.heap.mem ptr + size s.heap.mem ptr ∧
              bytes + headerSize ≤ size s.heap.mem ptr
      | .ok (.last _) => bytes + headerSize = heapSize ∨ bytes + 2 * headerSize ≤ heapSize
      | .error _ => True
  | .kvmfree block =>
      block ∈ s.live ∧
        match s.heap.findBehind block.1 with
        | .ok (.chunk _) => False
        | .ok (.last ptr) =>
            next s.heap.mem (block.1 - headerSize) = 0 ∧
              (base s.heap.mem ptr + size s.heap.mem ptr = block.1 - headerSize ∨
                prev s.heap.mem (block.1 - headerSize) = ptr) ∧
              (prev s.heap.mem ptr = 0 ∨
                base s.heap.mem (prev s.heap.mem ptr) + size s.heap.mem (prev s.heap.mem ptr) ≠
                  base s.heap.mem ptr - headerSize)
        | .error _ => True
  | .store block x _ => block ∈ s.live ∧ block.1 ≤ x ∧ x < block.1 + block.2

def SafeRun (A : Arena) (s : Session) : List Op → Prop
  | [] => True
  | op :: ops =>
      s.SafeStep op ∧
        match s.step A op with
        | .ok s' => s'.SafeRun A ops
        | .error _ => True

instance (s : Session) (block : ℕ × ℕ) : Decidable (block ∈ s.live) := inferInstance

instance (s : Session) : (op : Op) → Decidable (s.SafeStep op)
  | .kvmalloc bytes =>
      match h : s.heap.findFit bytes with
      | .ok (.chunk ptr) =>
          decidable_of_iff (size s.heap.mem ptr = bytes ∧ ptr ≠ s.heap.freeList ∨
            ptr + bytes + 2 * headerSize ≤ base s.heap.mem ptr + size s.heap.mem ptr ∧
              bytes + headerSize ≤ size s.heap.mem ptr) (by simp only [SafeStep, h])
      | .ok (.last _) =>
          decidable_of_iff (bytes + headerSize = heapSize ∨ bytes + 2 * headerSize ≤ heapSize)
            (by simp only [SafeStep, h])
      | .error _ => isTrue (by simp only [SafeStep, h])
  | .kvmfree block =>
      match h : s.heap.findBehind block.1 with
      | .ok (.chunk _) => isFalse (by simp only [SafeStep, h, and_false, not_false_eq_true])
      | .ok (.last ptr) =>
          decidable_of_iff (block ∈ s.live ∧ next s.heap.mem (block.1 - headerSize) = 0 ∧
            (base s.heap.mem ptr + size s.heap.mem ptr = block.1 - headerSize ∨
              prev s.heap.mem (block.1 - headerSize) = ptr) ∧
            (prev s.heap.mem ptr = 0 ∨
              base s.heap.mem (prev s.heap.mem ptr) + size s.heap.mem (prev s.heap.mem ptr) ≠
                base s.heap.mem ptr - headerSize)) (by simp only [SafeStep, h])
      | .error _ => decidable_of_iff (block ∈ s.live ∧ True) (by simp only [SafeStep, h])
  | .store _ _ _ => inferInstanceAs (Decidable (_ ∧ _ ∧ _))

def decidableSafeRun (A : Arena) : (ops : List Op) → (s : Session) → Decidable (s.SafeRun A ops)
  | [], _ => isTrue trivial
  | op :: ops, s =>
      match h : s.step A op with
      | .ok s' =>
          have := decidableSafeRun A ops s'
          decidable_of_iff (s.SafeStep op ∧ s'.SafeRun A ops) (by simp only [SafeRun, h])
      | .error _ => decidable_of_iff (s.SafeStep op ∧ True) (by simp only [SafeRun, h])

instance (A : Arena) (s : Session) (ops : List Op) : Decidable (s.SafeRun A ops) :=
  decidableSafeRun A ops s

/-! ## The invariant -/

def spans (cs : List Chunk) (live : List (ℕ × ℕ)) : List Span :=
  cs.map Chunk.span ++ live.map blockSpan

/-- The free list has these chunks, every block in use has its header, and all of
them are apart. -/
structure Sound (A : Arena) (s : Session) (cs : List Chunk) : Prop where
  nonempty : cs ≠ []
  first : s.heap.freeList = headOr cs 0
  linked : Seg s.heap.mem 0 cs 0
  shape : ∀ c ∈ cs, c.base ≤ c.addr + headerSize ∧ c.addr + headerSize ≤ c.base + c.size
  tail : ∀ c ∈ cs.tail, c.base = c.addr + headerSize
  header : ∀ b ∈ s.live, headerSize ≤ b.1 ∧ base s.heap.mem (b.1 - headerSize) = b.1 ∧
    size s.heap.mem (b.1 - headerSize) = b.2
  disjoint : AllApart (spans cs s.live)
  inside : ∀ t ∈ spans cs s.live, 0 < t.1 ∧ t.1 + headerSize ≤ t.2 ∧
    ∀ x, t.1 ≤ x → x < t.2 → A.InHeap s.heap.expansions x

/-- The chunk after `n` bytes and a header were taken from its end. -/
def cut (c : Chunk) (n : ℕ) : Chunk := { c with size := c.size - (n + headerSize) }

/-- The chunk which a new region becomes. -/
def region (r : ℕ) : Chunk := ⟨r, r + headerSize, heapSize - headerSize⟩

/-- `n` bytes at `p` are taken from a chunk, which leaves these chunks. -/
inductive Takes (pre : List Chunk) (c : Chunk) (post : List Chunk) :
    (n p : ℕ) → List Chunk → Prop where
  | whole : pre ≠ [] → Takes pre c post c.size c.base (pre ++ post)
  | fromEnd {n : ℕ} : c.addr + n + 2 * headerSize ≤ c.base + c.size → n + headerSize ≤ c.size →
      Takes pre c post n (c.base + c.size - n) (pre ++ cut c n :: post)

/-- How `kvmalloc` finds `n` bytes at `p`, with the expansions and the chunks before and after. -/
inductive Allocates (A : Arena) (n p : ℕ) : ℕ → List Chunk → ℕ → List Chunk → Prop where
  | take {e : ℕ} {pre post cs' : List Chunk} {c : Chunk} :
      Takes pre c post n p cs' → Allocates A n p e (pre ++ c :: post) e cs'
  | grow {e r : ℕ} {pre cs' : List Chunk} {c : Chunk} :
      (∀ d ∈ pre ++ [c], d.size < n) → A.regions e = some r →
      Takes (pre ++ [c]) (region r) [] n p cs' →
      Allocates A n p e (pre ++ [c]) (e + 1) cs'

/-- What `kvmfree` makes of a block behind all chunks. -/
inductive Frees (b : ℕ × ℕ) : List Chunk → List Chunk → Prop where
  | append {pre : List Chunk} {c : Chunk} : c.base ≤ b.1 → c.base + c.size ≠ b.1 - headerSize →
      Frees b (pre ++ [c]) (pre ++ [c, ⟨b.1 - headerSize, b.1, b.2⟩])
  | join {pre : List Chunk} {c : Chunk} : c.base + c.size = b.1 - headerSize →
      Frees b (pre ++ [c]) (pre ++ [{ c with size := c.size + (b.2 + headerSize) }])

end Session

namespace Session

variable {A : Arena} {s : Session} {cs pre post : List Chunk} {c d : Chunk}
  {live : List (ℕ × ℕ)} {b : ℕ × ℕ}

theorem lt_top (hA : A.Valid) {e x : ℕ} (hx : A.InHeap e x) : x + 1 < 2 ^ 32 := by
  rcases hx with ⟨_, hx⟩ | ⟨k, r, _, hr, _, hx⟩
  · have := hA.top
    omega
  · have := (hA.region k r hr).2.1
    omega

theorem Sound.span_lt (h : s.Sound A cs) (hA : A.Valid) {t : Span} (ht : t ∈ spans cs s.live) :
    t.2 < 2 ^ 32 := by
  obtain ⟨_, hlen, hin⟩ := h.inside t ht
  have hpos : 0 < headerSize := by decide
  have hlast := lt_top hA (hin (t.2 - 1) (by omega) (by omega))
  omega

theorem chunk_mem_spans (hc : c ∈ cs) : c.span ∈ spans cs live :=
  List.mem_append_left _ (List.mem_map_of_mem hc)

theorem block_mem_spans (hb : b ∈ live) : blockSpan b ∈ spans cs live :=
  List.mem_append_right _ (List.mem_map_of_mem hb)

theorem spans_chunk (pre post : List Chunk) (c : Chunk) (live : List (ℕ × ℕ)) :
    (spans (pre ++ c :: post) live).Perm (c.span :: spans (pre ++ post) live) := by
  unfold spans
  rw [← List.cons_append, ← List.map_cons]
  exact (List.perm_middle.map _).append_right _

theorem spans_block (cs : List Chunk) (b : ℕ × ℕ) (live : List (ℕ × ℕ)) :
    (spans cs (b :: live)).Perm (blockSpan b :: spans cs live) := by
  unfold spans
  rw [List.map_cons]
  exact List.perm_middle

theorem Sound.chunk_apart (h : s.Sound A (pre ++ c :: post)) {t : Span}
    (ht : t ∈ spans (pre ++ post) s.live) : c.span.Apart t := by
  have hd := h.disjoint.perm (spans_chunk pre post c s.live)
  exact (List.pairwise_cons.mp hd).1 t ht

theorem onFreeList_mem (h : s.Sound A cs) {ptr : ℕ} (hptr : OnFreeList s.heap ptr) :
    ∃ c ∈ cs, c.addr = ptr := by
  induction hptr with
  | first hne =>
      rw [h.first] at hne ⊢
      cases hcs : cs with
      | nil =>
          rw [hcs] at hne
          exact (hne rfl).elim
      | cons c cs => exact ⟨c, List.mem_cons_self, rfl⟩
  | next _ hne ih =>
      obtain ⟨c, hc, rfl⟩ := ih
      obtain ⟨pre, post, rfl⟩ := List.append_of_mem hc
      have hnext := h.linked.header.next
      rw [hnext] at hne ⊢
      cases hpost : post with
      | nil =>
          rw [hpost] at hne
          exact (hne rfl).elim
      | cons d post =>
          refine ⟨d, ?_, rfl⟩
          exact List.mem_append_right _ (List.mem_cons_of_mem c List.mem_cons_self)

theorem Sound.good (h : s.Sound A cs) : s.Good A where
  inside b hb x hx hx' := by
    obtain ⟨_, _, hin⟩ := h.inside _ (block_mem_spans hb)
    refine hin x ?_ hx'
    show b.1 - headerSize ≤ x
    omega
  apart := by
    have hblocks : AllApart (s.live.map blockSpan) := (List.pairwise_append.mp h.disjoint).2.1
    unfold AllApart at hblocks ⊢
    rw [List.pairwise_map] at hblocks ⊢
    apply hblocks.imp
    intro b b' hbb
    unfold Span.Apart blockSpan payload at *
    dsimp only at *
    omega
  headers ptr hptr b hb := by
    obtain ⟨c, hc, rfl⟩ := onFreeList_mem h hptr
    have hapart := (List.pairwise_append.mp h.disjoint).2.2 _ (List.mem_map_of_mem hc) _
      (List.mem_map_of_mem hb)
    have hshape := h.shape c hc
    unfold Span.Apart Chunk.span blockSpan payload at *
    dsimp only at *
    omega

/-! ## Frames -/

/-- A store inside one chunk keeps the headers of the others and of the blocks. -/
theorem Sound.kept_of_chunk (h : s.Sound A (pre ++ c :: post)) {mem mem' : Bytes}
    (hmem : ∀ x, x < c.addr ∨ c.base + c.size ≤ x → mem' x = mem x) :
    (∀ e ∈ pre ++ post, Kept mem mem' e.addr) ∧
      ∀ b ∈ s.live, Kept mem mem' (b.1 - headerSize) := by
  constructor
  · intro e he x hx hx'
    have hapart := h.chunk_apart (chunk_mem_spans he)
    have hshape := h.shape e (by
      rcases List.mem_append.mp he with he | he
      · exact List.mem_append_left _ he
      · exact List.mem_append_right _ (List.mem_cons_of_mem c he))
    apply hmem
    unfold Span.Apart Chunk.span at hapart
    dsimp only at hapart
    omega
  · intro b hb x hx hx'
    have hapart := h.chunk_apart (block_mem_spans hb)
    have hheader := (h.header b hb).1
    apply hmem
    unfold Span.Apart Chunk.span blockSpan at hapart
    dsimp only at hapart
    omega

/-- A store to a field of one header keeps the other headers. -/
theorem Sound.kept_of_field (h : s.Sound A (pre ++ c :: post)) (mem : Bytes) {k : ℕ} (v : ℕ)
    (hk : k + 4 ≤ headerSize) :
    (∀ e ∈ pre ++ post, Kept mem (store32 mem (c.addr + k) v) e.addr) ∧
      ∀ b ∈ s.live, Kept mem (store32 mem (c.addr + k) v) (b.1 - headerSize) := by
  have hshape := h.shape c (List.mem_append_right _ List.mem_cons_self)
  apply h.kept_of_chunk
  intro x hx
  apply store32_apply
  omega

theorem header_of_kept {mem mem' : Bytes}
    (h : ∀ b ∈ live, headerSize ≤ b.1 ∧ base mem (b.1 - headerSize) = b.1 ∧
      size mem (b.1 - headerSize) = b.2)
    (hkept : ∀ b ∈ live, Kept mem mem' (b.1 - headerSize)) :
    ∀ b ∈ live, headerSize ≤ b.1 ∧ base mem' (b.1 - headerSize) = b.1 ∧
      size mem' (b.1 - headerSize) = b.2 := by
  intro b hb
  obtain ⟨hle, hbase, hsize⟩ := h b hb
  exact ⟨hle, (hkept b hb).base_eq.trans hbase, (hkept b hb).size_eq.trans hsize⟩

/-! ## Taking from a chunk -/

theorem Sound.carve_eq (h : s.Sound A (pre ++ c :: post)) (hA : A.Valid) {n : ℕ}
    (hfit : n + headerSize ≤ c.size) (hroom : c.addr + n + 2 * headerSize ≤ c.base + c.size) :
    (s.heap.carve c.addr n).1 = c.base + c.size - n ∧
      size (s.heap.carve c.addr n).2.mem c.addr = c.size - (n + headerSize) ∧
      base (s.heap.carve c.addr n).2.mem c.addr = c.base ∧
      next (s.heap.carve c.addr n).2.mem c.addr = next s.heap.mem c.addr ∧
      prev (s.heap.carve c.addr n).2.mem c.addr = prev s.heap.mem c.addr ∧
      base (s.heap.carve c.addr n).2.mem (c.base + c.size - n - headerSize) =
        c.base + c.size - n ∧
      size (s.heap.carve c.addr n).2.mem (c.base + c.size - n - headerSize) = n ∧
      ∀ x, x < c.addr ∨ c.base + c.size ≤ x →
        (s.heap.carve c.addr n).2.mem x = s.heap.mem x := by
  have hheader := h.linked.header
  have htop := h.span_lt hA (chunk_mem_spans (List.mem_append_right _ List.mem_cons_self) :
    c.span ∈ spans (pre ++ c :: post) s.live)
  change c.base + c.size < 2 ^ 32 at htop
  have h16 : headerSize = 16 := rfl
  have hshape := h.shape c (List.mem_append_right _ List.mem_cons_self)
  have hsize : sub32 (size s.heap.mem c.addr) ((n + headerSize) % 2 ^ 32) =
      c.size - (n + headerSize) := by
    rw [Nat.mod_eq_of_lt (by omega), hheader.size, sub32_of_le hfit]
  have hbase' : base (setSize s.heap.mem c.addr (c.size - (n + headerSize))) c.addr = c.base := by
    rw [← hheader.base]
    exact load32_store32_of_ne (by omega)
  have hsize' : size (setSize s.heap.mem c.addr (c.size - (n + headerSize))) c.addr =
      c.size - (n + headerSize) := load32_store32 (by omega)
  have htmp : (c.base + (c.size - (n + headerSize))) % 2 ^ 32 =
      c.base + c.size - n - headerSize := by
    rw [Nat.mod_eq_of_lt (by omega)]
    omega
  have hp : (c.base + (c.size - (n + headerSize)) + headerSize) % 2 ^ 32 =
      c.base + c.size - n := by
    rw [Nat.mod_eq_of_lt (by omega)]
    omega
  have heq : s.heap.carve c.addr n = (c.base + c.size - n,
      { s.heap with
        mem := setBase (setSize (setSize s.heap.mem c.addr (c.size - (n + headerSize)))
          (c.base + c.size - n - headerSize) n) (c.base + c.size - n - headerSize)
          (c.base + c.size - n) }) := by
    unfold Heap.carve
    dsimp only
    rw [hsize, hbase', hsize', htmp, hp]
  rw [heq]
  generalize htmp' : c.base + c.size - n - headerSize = tmp
  unfold setBase setSize at *
  refine ⟨rfl, ?_, ?_, ?_, ?_, ?_, ?_, ?_⟩
  · unfold size
    dsimp only
    rw [load32_store32_of_ne (by omega), load32_store32_of_ne (by omega)]
    exact hsize'
  · unfold base
    dsimp only
    rw [load32_store32_of_ne (by omega), load32_store32_of_ne (by omega)]
    exact hbase'
  · unfold next
    dsimp only
    rw [load32_store32_of_ne (by omega), load32_store32_of_ne (by omega),
      load32_store32_of_ne (by omega)]
  · unfold prev
    dsimp only
    rw [load32_store32_of_ne (by omega), load32_store32_of_ne (by omega),
      load32_store32_of_ne (by omega)]
  · exact load32_store32 (by omega)
  · unfold size
    dsimp only
    rw [load32_store32_of_ne (by omega), load32_store32 (by omega)]
  · intro x hx
    dsimp only
    rw [store32_apply (by omega), store32_apply (by omega), store32_apply (by omega)]

theorem mem_tail_middle {e : Chunk} (he : e ∈ (pre ++ d :: post).tail) :
    e ∈ (pre ++ c :: post).tail ∨ e = d ∧ pre ≠ [] := by
  cases pre with
  | nil => exact Or.inl he
  | cons x pre =>
      simp only [List.cons_append, List.tail_cons, List.mem_append, List.mem_cons] at he ⊢
      rcases he with he | rfl | he
      · exact Or.inl (Or.inl he)
      · exact Or.inr ⟨rfl, nofun⟩
      · exact Or.inl (Or.inr (Or.inr he))

/-- What is shared by all changes of one chunk: it keeps its place and its base. -/
theorem Sound.replaceChunk (h : s.Sound A (pre ++ c :: post)) {h' : Heap} (size' : ℕ)
    (hfree : h'.freeList = s.heap.freeList)
    (hlinked : Seg h'.mem 0 (pre ++ { c with size := size' } :: post) 0)
    (hroom : c.addr + headerSize ≤ c.base + size')
    (hheader : ∀ b ∈ live, headerSize ≤ b.1 ∧ base h'.mem (b.1 - headerSize) = b.1 ∧
      size h'.mem (b.1 - headerSize) = b.2)
    (hapart : AllApart (spans (pre ++ { c with size := size' } :: post) live))
    (hinside : ∀ t ∈ spans (pre ++ { c with size := size' } :: post) live, 0 < t.1 ∧
      t.1 + headerSize ≤ t.2 ∧ ∀ x, t.1 ≤ x → x < t.2 → A.InHeap h'.expansions x) :
    Sound A ⟨h', live⟩ (pre ++ { c with size := size' } :: post) := by
  refine ⟨by simp, ?_, hlinked, ?_, ?_, hheader, hapart, hinside⟩
  · show h'.freeList = _
    rw [hfree, h.first, headOr_append, headOr_append]
    rfl
  · intro e he
    rcases List.mem_append.mp he with he | he
    · exact h.shape e (List.mem_append_left _ he)
    · rcases List.mem_cons.mp he with rfl | he
      · exact ⟨(h.shape c (List.mem_append_right _ List.mem_cons_self)).1, hroom⟩
      · exact h.shape e (List.mem_append_right _ (List.mem_cons_of_mem c he))
  · intro e he
    rcases mem_tail_middle (c := c) he with he | ⟨rfl, hpre⟩
    · exact h.tail e he
    · refine h.tail c ?_
      obtain ⟨x, pre, rfl⟩ := List.exists_cons_of_ne_nil hpre
      exact List.mem_append_right _ List.mem_cons_self

/-- `kvmalloc` takes from the end of a chunk with room. -/
theorem Sound.carve (h : s.Sound A (pre ++ c :: post)) (hA : A.Valid) {n : ℕ}
    (hfit : n + headerSize ≤ c.size) (hroom : c.addr + n + 2 * headerSize ≤ c.base + c.size) :
    Sound A ⟨(s.heap.carve c.addr n).2, ((s.heap.carve c.addr n).1, n) :: s.live⟩
      (pre ++ cut c n :: post) := by
  obtain ⟨hp, hsize, hbase, hnext, hprev, hnewbase, hnewsize, hmem⟩ := h.carve_eq hA hfit hroom
  obtain ⟨hkept, hkept'⟩ := h.kept_of_chunk hmem
  have hheader := h.linked.header
  have h16 : headerSize = 16 := rfl
  have hshape := h.shape c (List.mem_append_right _ List.mem_cons_self)
  have hblock : blockSpan (c.base + c.size - n, n) =
      (c.base + c.size - n - headerSize, c.base + c.size) := by
    unfold blockSpan
    dsimp only
    rw [Nat.sub_add_cancel (by omega)]
  have hcut : (cut c n).span = (c.addr, c.base + c.size - n - headerSize) := by
    unfold Chunk.span cut
    dsimp only
    rw [Prod.mk.injEq]
    exact ⟨rfl, by omega⟩
  have hperm : (spans (pre ++ cut c n :: post) ((c.base + c.size - n, n) :: s.live)).Perm
      ((cut c n).span :: blockSpan (c.base + c.size - n, n) :: spans (pre ++ post) s.live) :=
    (spans_chunk pre post (cut c n) _).trans ((spans_block _ _ _).cons _)
  have hold := h.disjoint.perm (spans_chunk pre post c s.live)
  have holdin := h.inside c.span (chunk_mem_spans (List.mem_append_right _ List.mem_cons_self))
  rw [hp]
  refine h.replaceChunk (c.size - (n + headerSize)) rfl ?_ (by omega) ?_ ?_ ?_
  · have hres := h.linked.resize (s.heap.carve c.addr n).2.mem ?_ (fun _ => hnext)
      (hbase.trans hheader.base.symm) hprev hkept
    · rw [hsize] at hres
      exact hres
    · rintro rfl
      rw [hnext, hheader.next]
      rfl
  · intro b hb
    rcases List.mem_cons.mp hb with rfl | hb
    · exact ⟨show headerSize ≤ c.base + c.size - n by omega, hnewbase, hnewsize⟩
    · exact header_of_kept h.header hkept' b hb
  · refine AllApart.perm ?_ hperm.symm
    rw [hcut, hblock]
    exact hold.split (by omega) (by omega)
  · intro t ht
    rcases List.mem_cons.mp (hperm.mem_iff.mp ht) with rfl | ht
    · rw [hcut]
      refine ⟨holdin.1, show c.addr + headerSize ≤ c.base + c.size - n - headerSize by omega, ?_⟩
      intro x hx hx'
      exact holdin.2.2 x hx (show x < c.base + c.size by dsimp only at hx'; omega)
    · rcases List.mem_cons.mp ht with rfl | ht
      · rw [hblock]
        refine ⟨show 0 < c.base + c.size - n - headerSize by omega,
          show c.base + c.size - n - headerSize + headerSize ≤ c.base + c.size by omega, ?_⟩
        intro x hx hx'
        exact holdin.2.2 x (show c.addr ≤ x by dsimp only at hx; omega) hx'
      · exact h.inside t ((spans_chunk pre post c s.live).mem_iff.mpr (List.mem_cons_of_mem _ ht))

/-! ## Taking a whole chunk -/

theorem lastOr_snoc (prv : ℕ) (cs : List Chunk) (c : Chunk) : lastOr prv (cs ++ [c]) = c.addr := by
  induction cs generalizing prv with
  | nil => rfl
  | cons d cs ih => exact ih d.addr

theorem Sound.header_second (h : s.Sound A (pre ++ c :: d :: post)) :
    Header s.heap.mem d c.addr (headOr post 0) := by
  have hseg := h.linked
  rw [show pre ++ c :: d :: post = (pre ++ [c]) ++ d :: post by simp] at hseg
  have hheader := hseg.header
  rw [lastOr_snoc] at hheader
  exact hheader

/-- The links around a chunk which is not the first, before and after. -/
theorem Sound.removeFromList (h : s.Sound A (pre ++ c :: d :: post)) :
    ∃ mem', s.heap.removeFromList A.regions d.addr = .ok { s.heap with mem := mem' } ∧
      Seg mem' 0 (pre ++ c :: post) 0 ∧ Kept s.heap.mem mem' d.addr ∧
      (∀ b ∈ s.live, Kept s.heap.mem mem' (b.1 - headerSize)) ∧
      ∀ e ∈ pre ++ c :: d :: post, size mem' e.addr = size s.heap.mem e.addr := by
  have hc16 : c.addr ≠ 0 := (h.inside _ (chunk_mem_spans (c := c) (by simp))).1.ne'
  have hd := h.header_second
  have hlt : headOr post 0 < 2 ^ 32 := by
    rw [← hd.next]
    exact load32_lt _ _
  have hclt : c.addr < 2 ^ 32 := by
    rw [← hd.prev]
    exact load32_lt _ _
  obtain ⟨hkept, hkeptb⟩ := h.kept_of_field s.heap.mem (k := 8) (headOr post 0) (by decide)
  have hkeptd : Kept s.heap.mem (setNext s.heap.mem c.addr (headOr post 0)) d.addr :=
    hkept d (List.mem_append_right _ List.mem_cons_self)
  have hrun : s.heap.removeFromList A.regions d.addr = .ok
      { s.heap with
        mem := if headOr post 0 ≠ 0 then
            setPrev (setNext s.heap.mem c.addr (headOr post 0)) (headOr post 0) c.addr
          else setNext s.heap.mem c.addr (headOr post 0) } := by
    unfold Heap.removeFromList
    rw [hd.next, hd.prev, if_neg (fun hboth => hc16 hboth.2), if_pos hc16]
    dsimp only
    rw [hkeptd.next_eq, hkeptd.prev_eq, hd.next, hd.prev]
  have hcfields : base (setNext s.heap.mem c.addr (headOr post 0)) c.addr =
        base s.heap.mem c.addr ∧
      size (setNext s.heap.mem c.addr (headOr post 0)) c.addr = size s.heap.mem c.addr ∧
      prev (setNext s.heap.mem c.addr (headOr post 0)) c.addr = prev s.heap.mem c.addr ∧
      next (setNext s.heap.mem c.addr (headOr post 0)) c.addr = headOr post 0 :=
    ⟨load32_store32_of_ne (by omega), load32_store32_of_ne (by omega),
      load32_store32_of_ne (by omega), load32_store32 hlt⟩
  obtain ⟨hcbase, hcsize, hcprev, hcnext⟩ := hcfields
  refine ⟨_, hrun, ?_⟩
  cases post with
  | nil =>
      rw [if_neg (show ¬headOr [] 0 ≠ 0 from not_not.mpr rfl)]
      refine ⟨h.linked.remove hcnext hcbase hcsize hcprev ?_ nofun, hkeptd, hkeptb, ?_⟩
      · exact fun e he => hkept e (List.mem_append_left _ he)
      · intro e he
        rcases List.mem_append.mp he with he | he
        · exact (hkept e (List.mem_append_left _ he)).size_eq
        · rcases List.mem_cons.mp he with rfl | he
          · exact hcsize
          · exact (hkept e (List.mem_append_right _ he)).size_eq
  | cons e es =>
      have hsplit' : pre ++ c :: d :: e :: es = (pre ++ [c, d]) ++ e :: es := by simp
      have h' := h
      rw [hsplit'] at h'
      have he16 : e.addr ≠ 0 := (h.inside _ (chunk_mem_spans (c := e) (by simp))).1.ne'
      obtain ⟨hkept', hkeptb'⟩ := h'.kept_of_field
        (setNext s.heap.mem c.addr (headOr (e :: es) 0)) (k := 12) c.addr (by decide)
      rw [if_pos (show headOr (e :: es) 0 ≠ 0 from he16)]
      have hc' := hkept' c (by simp)
      have he' := hkept e (by simp)
      have hebase : base (setPrev (setNext s.heap.mem c.addr (headOr (e :: es) 0)) e.addr c.addr)
          e.addr = base (setNext s.heap.mem c.addr (headOr (e :: es) 0)) e.addr :=
        load32_store32_of_ne (by omega)
      have hesize : size (setPrev (setNext s.heap.mem c.addr (headOr (e :: es) 0)) e.addr c.addr)
          e.addr = size (setNext s.heap.mem c.addr (headOr (e :: es) 0)) e.addr :=
        load32_store32_of_ne (by omega)
      have henext : next (setPrev (setNext s.heap.mem c.addr (headOr (e :: es) 0)) e.addr c.addr)
          e.addr = next (setNext s.heap.mem c.addr (headOr (e :: es) 0)) e.addr :=
        load32_store32_of_ne (by omega)
      have hothers : ∀ f, f ∈ pre ∨ f ∈ d :: es → Kept s.heap.mem
          (setPrev (setNext s.heap.mem c.addr (headOr (e :: es) 0)) e.addr c.addr) f.addr := by
        intro f hf
        refine Kept.trans (hkept f ?_) (hkept' f ?_)
        · simp only [List.mem_append, List.mem_cons] at hf ⊢
          tauto
        · simp only [List.mem_append, List.mem_cons] at hf ⊢
          tauto
      refine ⟨h.linked.remove (hc'.next_eq.trans hcnext) (hc'.base_eq.trans hcbase)
        (hc'.size_eq.trans hcsize) (hc'.prev_eq.trans hcprev) ?_ ?_, ?_, ?_, ?_⟩
      · exact fun f hf => hothers f (Or.inl hf)
      · intro e' es' heq
        obtain ⟨rfl, rfl⟩ := List.cons.inj heq
        refine ⟨load32_store32 hclt, hebase.trans he'.base_eq, hesize.trans he'.size_eq,
          henext.trans he'.next_eq, ?_⟩
        exact fun f hf => hothers f (Or.inr (List.mem_cons_of_mem d hf))
      · exact hothers d (Or.inr List.mem_cons_self)
      · exact fun b hb => (hkeptb b hb).trans (hkeptb' b hb)
      · intro f hf
        simp only [List.mem_append, List.mem_cons] at hf
        rcases hf with hf | rfl | rfl | rfl | hf
        · exact (hothers f (Or.inl hf)).size_eq
        · exact hc'.size_eq.trans hcsize
        · exact (hothers f (Or.inr List.mem_cons_self)).size_eq
        · exact hesize.trans he'.size_eq
        · exact (hothers f (Or.inr (List.mem_cons_of_mem d hf))).size_eq

/-- `kvmalloc` takes a chunk of just the right size, which is not the first. -/
theorem Sound.takeWhole (h : s.Sound A (pre ++ c :: d :: post)) {mem' : Bytes}
    (hseg : Seg mem' 0 (pre ++ c :: post) 0) (hkeptd : Kept s.heap.mem mem' d.addr)
    (hkeptb : ∀ b ∈ s.live, Kept s.heap.mem mem' (b.1 - headerSize)) :
    Sound A ⟨{ s.heap with mem := mem' }, (d.base, d.size) :: s.live⟩ (pre ++ c :: post) := by
  have hsplit : pre ++ c :: d :: post = (pre ++ [c]) ++ d :: post := by simp
  have hdtail : d ∈ (pre ++ c :: d :: post).tail := by
    cases pre with
    | nil => exact List.mem_cons_self
    | cons x pre => exact List.mem_append_right _ (List.mem_cons_of_mem c List.mem_cons_self)
  have hdbase := h.tail d hdtail
  have hdheader := h.header_second
  have hspan : blockSpan (d.base, d.size) = d.span := by
    unfold blockSpan Chunk.span
    dsimp only
    rw [hdbase, Nat.add_sub_cancel]
  have hperm : (spans (pre ++ c :: post) ((d.base, d.size) :: s.live)).Perm
      (spans (pre ++ c :: d :: post) s.live) := by
    refine (spans_block _ _ _).trans ?_
    have hchunk := spans_chunk (pre ++ [c]) post d s.live
    rw [hspan, hsplit]
    refine List.Perm.trans ?_ hchunk.symm
    rw [List.append_assoc, List.singleton_append]
  have hsub : ∀ e ∈ pre ++ c :: post, e ∈ pre ++ c :: d :: post := by
    intro e he
    simp only [List.mem_append, List.mem_cons] at he ⊢
    tauto
  refine ⟨by simp, ?_, hseg, ?_, ?_, ?_, h.disjoint.perm hperm.symm, ?_⟩
  · show s.heap.freeList = _
    rw [h.first, headOr_append, headOr_append]
    rfl
  · exact fun e he => h.shape e (hsub e he)
  · intro e he
    apply h.tail e
    cases pre with
    | nil => exact List.mem_cons_of_mem d he
    | cons x pre =>
        simp only [List.cons_append, List.tail_cons, List.mem_append, List.mem_cons] at he ⊢
        tauto
  · intro b hb
    rcases List.mem_cons.mp hb with rfl | hb
    · dsimp only
      rw [hdbase, Nat.add_sub_cancel, hkeptd.base_eq, hkeptd.size_eq]
      exact ⟨Nat.le_add_left _ _, hdheader.base.trans hdbase, hdheader.size⟩
    · exact header_of_kept h.header hkeptb b hb
  · intro t ht
    exact h.inside t (hperm.mem_iff.mp ht)

/-! ## A new region -/

/-- A span inside the heap is apart from a region which is not yet part of it. -/
theorem apart_of_fresh (hA : A.Valid) {e r : ℕ} (hr : A.regions e = some r) {t : Span}
    (hlen : t.1 < t.2) (ht : ∀ x, t.1 ≤ x → x < t.2 → A.InHeap e x) :
    Span.Apart (r, r + heapSize) t := by
  by_contra hnot
  unfold Span.Apart at hnot
  dsimp only at hnot
  have hpos : 0 < heapSize := by decide
  have hin := ht (max t.1 r) (le_max_left _ _) (by omega)
  rcases hin with ⟨hlo, hhi⟩ | ⟨k, q, hk, hq, hlo, hhi⟩
  · have hapart := (hA.region e r hr).2.2
    unfold Span.Apart at hapart
    dsimp only at hapart
    omega
  · have hapart := hA.fresh e k r q (by omega) hr hq
    unfold Span.Apart at hapart
    dsimp only at hapart
    omega

theorem inHeap_mono {e e' x : ℕ} (hle : e ≤ e') (h : A.InHeap e x) : A.InHeap e' x := by
  rcases h with h | ⟨k, r, hk, hr⟩
  · exact Or.inl h
  · exact Or.inr ⟨k, r, lt_of_lt_of_le hk hle, hr⟩

theorem span_region (r : ℕ) : (region r).span = (r, r + heapSize) := by
  have hle : headerSize ≤ heapSize := by decide
  unfold Chunk.span region
  dsimp only
  rw [Nat.add_assoc, Nat.add_sub_cancel' hle]

theorem Sound.grow (h : s.Sound A (pre ++ [c])) (hA : A.Valid) {r : ℕ}
    (hr : A.regions s.heap.expansions = some r) :
    ∃ h', s.heap.grow A.regions c.addr = .ok h' ∧
      Sound A ⟨h', s.live⟩ (pre ++ [c, region r]) ∧ h'.expansions = s.heap.expansions + 1 ∧
      ∀ e ∈ pre ++ [c], size h'.mem e.addr = size s.heap.mem e.addr := by
  obtain ⟨hrpos, hrtop, _⟩ := hA.region _ r hr
  have h16 : headerSize = 16 := rfl
  have h4M : heapSize = 0x400000 := rfl
  have hfresh : ∀ t ∈ spans (pre ++ [c]) s.live, Span.Apart (r, r + heapSize) t := by
    intro t ht
    obtain ⟨_, hlen, hin⟩ := h.inside t ht
    exact apart_of_fresh hA hr (by omega) hin
  have hcapart : Span.Apart (r, r + heapSize) c.span := hfresh _ (chunk_mem_spans (by simp))
  have hcshape := h.shape c (by simp)
  obtain ⟨hkept, hkeptb⟩ := h.kept_of_field s.heap.mem (k := 8) r (by decide)
  -- the stores to the new header are outside all other headers
  have hregion : ∀ (mem : Bytes) (a : ℕ), r + heapSize ≤ a ∨ a + headerSize ≤ r →
      Kept mem (setPrev (setNext (setBase (setSize mem r (heapSize - headerSize)) r
        (r + headerSize)) r 0) r c.addr) a := by
    intro mem a ha x hx hx'
    unfold setPrev setNext setBase setSize
    rw [store32_apply (by omega), store32_apply (by omega), store32_apply (by omega),
      store32_apply (by omega)]
  have hrun : s.heap.grow A.regions c.addr = .ok
      { s.heap with
        mem := setPrev (setNext (setBase (setSize (setNext s.heap.mem c.addr r) r
          (heapSize - headerSize)) r (r + headerSize)) r 0) r c.addr
        expansions := s.heap.expansions + 1 } := by
    unfold Heap.grow Heap.expandHeap
    rw [hr]
    rfl
  have hckept := hregion (setNext s.heap.mem c.addr r) c.addr (by
    unfold Span.Apart Chunk.span at hcapart
    dsimp only at hcapart
    omega)
  have hkeep : ∀ e ∈ pre, Kept s.heap.mem (setPrev (setNext (setBase (setSize
      (setNext s.heap.mem c.addr r) r (heapSize - headerSize)) r (r + headerSize)) r 0) r c.addr)
      e.addr := by
    intro e he
    refine Kept.trans (hkept e (List.mem_append_left _ he)) (hregion _ e.addr ?_)
    have heapart := hfresh _ (chunk_mem_spans (c := e) (List.mem_append_left _ he))
    have heshape := h.shape e (List.mem_append_left _ he)
    unfold Span.Apart Chunk.span at heapart
    dsimp only at heapart
    omega
  have hcsize : size (setNext s.heap.mem c.addr r) c.addr = size s.heap.mem c.addr :=
    load32_store32_of_ne (by omega)
  have hclt : c.addr < 2 ^ 32 := by
    have := h.span_lt hA (chunk_mem_spans (c := c) (by simp) : c.span ∈ spans (pre ++ [c]) s.live)
    unfold Chunk.span at this
    dsimp only at this
    omega
  refine ⟨_, hrun, ⟨by simp, ?_, ?_, ?_, ?_, ?_, ?_, ?_⟩, rfl, ?_⟩
  · show s.heap.freeList = _
    rw [h.first, headOr_append, headOr_append]
    rfl
  · refine h.linked.snoc ⟨?_, ?_, ?_, ?_⟩ ?_ ?_ ?_ ?_ hkeep
    · unfold base setPrev setNext setBase setSize region
      dsimp only
      rw [load32_store32_of_ne (by omega), load32_store32_of_ne (by omega),
        load32_store32 (by omega)]
    · unfold size setPrev setNext setBase setSize region
      dsimp only
      rw [load32_store32_of_ne (by omega), load32_store32_of_ne (by omega),
        load32_store32_of_ne (by omega), load32_store32 (by omega)]
    · unfold next setPrev setNext setBase setSize region
      dsimp only
      rw [load32_store32_of_ne (by omega), load32_store32 (by omega)]
    · exact load32_store32 hclt
    · rw [hckept.next_eq]
      exact load32_store32 (by omega)
    · rw [hckept.base_eq]
      exact load32_store32_of_ne (by omega)
    · rw [hckept.size_eq]
      exact hcsize
    · rw [hckept.prev_eq]
      exact load32_store32_of_ne (by omega)
  · intro e he
    rcases List.mem_append.mp he with he | he
    · exact h.shape e (List.mem_append_left _ he)
    · rcases List.mem_cons.mp he with rfl | he
      · exact hcshape
      · rw [List.mem_singleton.mp he]
        unfold region
        dsimp only
        omega
  · intro e he
    have hcases : e ∈ (pre ++ [c]).tail ∨ e = region r := by
      cases pre with
      | nil => exact Or.inr (List.mem_singleton.mp he)
      | cons x pre =>
          simp only [List.cons_append, List.tail_cons, List.mem_append, List.mem_cons,
            List.not_mem_nil, or_false] at he ⊢
          tauto
    rcases hcases with he | rfl
    · exact h.tail e he
    · rfl
  · refine header_of_kept h.header ?_
    intro b hb
    refine Kept.trans (hkeptb b hb) (hregion _ _ ?_)
    have hbapart := hfresh _ (block_mem_spans hb)
    have hbheader := (h.header b hb).1
    unfold Span.Apart blockSpan at hbapart
    dsimp only at hbapart
    omega
  · have hperm : (spans (pre ++ [c, region r]) s.live).Perm
        ((region r).span :: spans (pre ++ [c]) s.live) := by
      have hmiddle := spans_chunk (pre ++ [c]) [] (region r) s.live
      rw [List.append_nil, List.append_assoc] at hmiddle
      exact hmiddle
    rw [span_region] at hperm
    exact AllApart.perm (h.disjoint.cons hfresh) hperm.symm
  · intro t ht
    have hcases : t = (region r).span ∨ t ∈ spans (pre ++ [c]) s.live := by
      unfold spans at ht ⊢
      simp only [List.map_append, List.map_cons, List.mem_append, List.mem_cons] at ht ⊢
      tauto
    rcases hcases with rfl | ht
    · rw [span_region]
      refine ⟨hrpos, ?_, ?_⟩
      · dsimp only
        omega
      · intro x hx hx'
        exact Or.inr ⟨s.heap.expansions, r, Nat.lt_succ_self _, hr, hx, hx'⟩
    · obtain ⟨hpos, hlen, hin⟩ := h.inside t ht
      exact ⟨hpos, hlen, fun x hx hx' => inHeap_mono (Nat.le_succ _) (hin x hx hx')⟩
  · intro e he
    rcases List.mem_append.mp he with he | he
    · exact (hkeep e he).size_eq
    · rw [List.mem_singleton.mp he, hckept.size_eq]
      exact hcsize

/-! ## `kvmalloc` -/

theorem length_le_of_nodup {N : ℕ} {l : List ℕ} (h : l.Nodup) (hlt : ∀ x ∈ l, x < N) :
    l.length ≤ N := by
  have hsub : l.toFinset ⊆ Finset.range N := by
    intro x hx
    exact Finset.mem_range.mpr (hlt x (List.mem_toFinset.mp hx))
  have hcard := Finset.card_le_card hsub
  rw [List.toFinset_card_of_nodup h, Finset.card_range] at hcard
  exact hcard

theorem Sound.length_le (h : s.Sound A cs) (hA : A.Valid) : cs.length ≤ walkFuel := by
  have hchunks : AllApart (cs.map Chunk.span) := (List.pairwise_append.mp h.disjoint).1
  have hnodup : (cs.map Chunk.addr).Nodup := by
    unfold AllApart at hchunks
    unfold List.Nodup
    rw [List.pairwise_map] at hchunks ⊢
    refine hchunks.imp_of_mem ?_
    intro c d hc hd hapart heq
    have hcshape := h.shape c hc
    have hdshape := h.shape d hd
    have h16 : headerSize = 16 := rfl
    unfold Span.Apart Chunk.span at hapart
    dsimp only at hapart
    omega
  rw [← List.length_map (f := Chunk.addr)]
  refine length_le_of_nodup hnodup ?_
  intro x hx
  obtain ⟨c, hc, rfl⟩ := List.mem_map.mp hx
  have htop := h.span_lt hA (chunk_mem_spans hc : _ ∈ spans _ s.live)
  have hshape := h.shape c hc
  unfold Chunk.span at htop
  dsimp only at htop
  unfold walkFuel
  omega

/-- A walk from the start of the free list. -/
theorem Sound.walk_eq (h : s.Sound A cs) (hA : A.Valid) (test : ℕ → Bool) :
    (∃ pre d post, cs = pre ++ d :: post ∧ test d.addr = true ∧
        (∀ e ∈ pre, test e.addr = false) ∧
        walk s.heap.mem test walkFuel s.heap.freeList = .ok (.chunk d.addr)) ∨
      ((∀ e ∈ cs, test e.addr = false) ∧ ∃ pre d, cs = pre ++ [d] ∧
        walk s.heap.mem test walkFuel s.heap.freeList = .ok (.last d.addr)) := by
  obtain ⟨c, rest, rfl⟩ := List.exists_cons_of_ne_nil h.nonempty
  rw [h.first]
  refine Kvmalloc.walk_eq h.linked ?_ (h.length_le hA)
  intro d hd
  exact (h.inside _ (chunk_mem_spans hd)).1.ne'

theorem Sound.size_eq (h : s.Sound A cs) (hc : c ∈ cs) : size s.heap.mem c.addr = c.size := by
  obtain ⟨pre, post, rfl⟩ := List.append_of_mem hc
  exact h.linked.header.size

theorem Sound.base_eq (h : s.Sound A cs) (hc : c ∈ cs) : base s.heap.mem c.addr = c.base := by
  obtain ⟨pre, post, rfl⟩ := List.append_of_mem hc
  exact h.linked.header.base

/-- Bytes are taken from a chunk with room for them, or from all of a chunk which
is not the first. -/
theorem Sound.takeFrom (h : s.Sound A (pre ++ c :: post)) (hA : A.Valid) {n : ℕ}
    (hsafe : c.size = n ∧ pre ≠ [] ∨
      c.addr + n + 2 * headerSize ≤ c.base + c.size ∧ n + headerSize ≤ c.size) :
    ∃ p h' cs', s.heap.takeFrom A.regions c.addr n = .ok (p, h') ∧
      Sound A ⟨h', (p, n) :: s.live⟩ cs' ∧ Takes pre c post n p cs' ∧
      h'.expansions = s.heap.expansions ∧
      ∀ e ∈ pre ++ c :: post, size h'.mem e.addr ≤ size s.heap.mem e.addr := by
  have hheader := h.linked.header
  unfold Heap.takeFrom
  rw [hheader.size]
  rcases hsafe with ⟨rfl, hpre⟩ | ⟨hroom, hfit⟩
  · obtain ⟨pre', x, rfl⟩ := List.eq_nil_or_concat pre |>.resolve_left hpre
    have h' : s.Sound A (pre' ++ x :: c :: post) := by
      rw [List.concat_eq_append, List.append_assoc] at h
      exact h
    have htakes : Takes (pre'.concat x) c post c.size c.base (pre' ++ x :: post) := by
      have hwhole : Takes (pre'.concat x) c post c.size c.base (pre'.concat x ++ post) :=
        Takes.whole hpre
      rw [List.concat_eq_append, List.append_assoc] at hwhole
      rw [List.concat_eq_append]
      exact hwhole
    obtain ⟨mem', hrun, hseg, hkept, hkeptb, hsizes⟩ := h'.removeFromList
    refine ⟨_, _, _, ?_, h'.takeWhole hseg hkept hkeptb, htakes, rfl, ?_⟩
    · rw [if_pos rfl, hrun, ok_bind, hheader.base]
    · intro e he
      rw [List.concat_eq_append, List.append_assoc] at he
      exact (hsizes e he).le
  · have h16 : headerSize = 16 := rfl
    obtain ⟨hp, hsize, _, _, _, _, _, hmem⟩ := h.carve_eq hA hfit hroom
    refine ⟨_, _, _, ?_, h.carve hA hfit hroom, ?_, rfl, ?_⟩
    · rw [if_neg (by omega)]
    · rw [hp]
      exact Takes.fromEnd hroom hfit
    · intro e he
      rcases List.mem_append.mp he with he | he
      · exact ((h.kept_of_chunk hmem).1 e (List.mem_append_left _ he)).size_eq.le
      · rcases List.mem_cons.mp he with rfl | he
        · rw [hsize, hheader.size]
          omega
        · exact ((h.kept_of_chunk hmem).1 e (List.mem_append_right _ he)).size_eq.le

theorem Sound.sizesFall (h : s.Sound A cs) {h' : Heap} {live : List (ℕ × ℕ)}
    (hall : ∀ e ∈ cs, size h'.mem e.addr ≤ size s.heap.mem e.addr) : s.SizesFall ⟨h', live⟩ := by
  intro ptr hptr
  obtain ⟨e, he, rfl⟩ := onFreeList_mem h hptr
  exact hall e he

theorem step_kvmalloc_found {n fuel p ptr : ℕ} {h' : Heap} (hfuel : walkFuel = fuel + 1)
    (hfind : s.heap.findFit n = .ok (.chunk ptr))
    (htake : s.heap.takeFrom A.regions ptr n = .ok (p, h')) :
    s.step A (.kvmalloc n) = .ok ⟨h', (p, n) :: s.live⟩ := by
  unfold step Heap.kvmalloc
  dsimp only
  rw [hfuel, Heap.kvmallocLoop, hfind, ok_bind]
  dsimp only
  rw [htake, ok_bind]

/-- In the new region, the request finds the new chunk. -/
theorem Sound.findFit_region {h' : Heap} {r n : ℕ}
    (h : Sound A ⟨h', s.live⟩ (pre ++ [c, region r])) (hA : A.Valid)
    (hsmall : ∀ e ∈ pre ++ [c], ¬n ≤ size h'.mem e.addr) (hfit : n + headerSize ≤ heapSize) :
    h'.findFit n = .ok (.chunk r) := by
  have hregion : region r ∈ pre ++ [c, region r] := by simp
  have hcases : ∀ e ∈ pre ++ [c, region r], n ≤ size h'.mem e.addr → e = region r := by
    intro e he hn
    by_contra hne
    refine hsmall e ?_ hn
    simp only [List.mem_append, List.mem_cons, List.not_mem_nil, or_false] at he ⊢
    tauto
  rcases h.walk_eq hA fun ptr => n ≤ size h'.mem ptr with
    ⟨pre', e, post', hsplit, htest, _, hrun⟩ | ⟨hnone, _⟩
  · have hn : n ≤ size h'.mem e.addr := of_decide_eq_true htest
    have he : e ∈ pre ++ [c, region r] := by
      rw [hsplit]
      exact List.mem_append_right _ List.mem_cons_self
    obtain rfl := hcases e he hn
    exact hrun
  · have hn := of_decide_eq_false (hnone _ hregion)
    have hsize : size h'.mem (region r).addr = heapSize - headerSize := h.size_eq hregion
    rw [hsize] at hn
    omega

theorem Sound.kvmalloc (h : s.Sound A cs) (hA : A.Valid) {n : ℕ}
    (hsafe : s.SafeStep (.kvmalloc n)) :
    (∃ p h' cs', s.step A (.kvmalloc n) = .ok ⟨h', (p, n) :: s.live⟩ ∧
        Sound A ⟨h', (p, n) :: s.live⟩ cs' ∧
        Allocates A n p s.heap.expansions cs h'.expansions cs' ∧
        s.SizesFall ⟨h', (p, n) :: s.live⟩) ∨
      s.step A (.kvmalloc n) = .error (.panic "Unable to expand heap, out of memory") := by
  obtain ⟨fuel, hfuel⟩ : ∃ k, walkFuel = k + 1 + 1 := ⟨2 ^ 32 - 2, by decide⟩
  unfold SafeStep at hsafe
  dsimp only at hsafe
  rcases h.walk_eq hA fun ptr => n ≤ size s.heap.mem ptr with
    ⟨pre, d, post, rfl, _, _, hfind⟩ | ⟨hnone, pre, d, rfl, hfind⟩
  · change s.heap.findFit n = _ at hfind
    have hd : d ∈ pre ++ d :: post := List.mem_append_right _ List.mem_cons_self
    rw [hfind] at hsafe
    dsimp only at hsafe
    rw [h.size_eq hd, h.base_eq hd] at hsafe
    have hsafe' : d.size = n ∧ pre ≠ [] ∨
        d.addr + n + 2 * headerSize ≤ d.base + d.size ∧ n + headerSize ≤ d.size := by
      refine hsafe.imp_left fun ⟨heq, hne⟩ => ⟨heq, ?_⟩
      rintro rfl
      exact hne h.first.symm
    obtain ⟨p, h', cs', htake, hsound, htakes, hexp, hsizes⟩ := h.takeFrom hA hsafe'
    refine Or.inl ⟨p, h', cs', step_kvmalloc_found hfuel hfind htake, hsound, ?_,
      h.sizesFall hsizes⟩
    rw [hexp]
    exact Allocates.take htakes
  · change s.heap.findFit n = _ at hfind
    rw [hfind] at hsafe
    dsimp only at hsafe
    have hloop : s.step A (.kvmalloc n) = (do
        let h' ← s.heap.grow A.regions d.addr
        let (p, h') ← Heap.kvmallocLoop A.regions n (fuel + 1) h'
        .ok ⟨h', (p, n) :: s.live⟩) := by
      unfold step Heap.kvmalloc
      dsimp only
      rw [hfuel, Heap.kvmallocLoop, hfind, ok_bind]
      dsimp only
      cases s.heap.grow A.regions d.addr with
      | error e => rfl
      | ok h' => rfl
    cases hr : A.regions s.heap.expansions with
    | none =>
        right
        rw [hloop]
        unfold Heap.grow Heap.expandHeap
        rw [hr]
        rfl
    | some r =>
        left
        have h16 : headerSize = 16 := rfl
        obtain ⟨h₁, hgrow, hsound₁, hexp₁, hsizes₁⟩ := h.grow hA hr
        -- the old chunks are too small, so the new one is found
        have hold : ∀ e ∈ pre ++ [d], ¬n ≤ size h₁.mem e.addr := by
          intro e he
          rw [hsizes₁ e he]
          exact of_decide_eq_false (hnone e he)
        have hfind₁ := hsound₁.findFit_region hA hold (by omega)
        have hsplit : pre ++ [d, region r] = (pre ++ [d]) ++ [region r] := by simp
        rw [hsplit] at hsound₁
        have hsafe' : (region r).size = n ∧ pre ++ [d] ≠ [] ∨
            (region r).addr + n + 2 * headerSize ≤ (region r).base + (region r).size ∧
              n + headerSize ≤ (region r).size := by
          unfold region
          dsimp only
          rcases hsafe with hsafe | hsafe
          · exact Or.inl ⟨by omega, by simp⟩
          · right
            omega
        obtain ⟨p, h', cs', htake, hsound, htakes, hexp, hsizes⟩ := hsound₁.takeFrom hA hsafe'
        refine ⟨p, h', cs', ?_, hsound, ?_, h.sizesFall fun e he => ?_⟩
        · rw [hloop, hgrow, ok_bind, Heap.kvmallocLoop, hfind₁, ok_bind]
          dsimp only
          rw [show (region r).addr = r from rfl] at htake
          rw [htake, ok_bind]
        · have hsmall : ∀ e ∈ pre ++ [d], e.size < n := by
            intro e he
            have hnot := of_decide_eq_false (hnone e he)
            rw [h.size_eq he] at hnot
            exact not_le.mp hnot
          rw [hexp, hexp₁]
          exact Allocates.grow hsmall hr htakes
        · exact (hsizes e (List.mem_append_left _ he)).trans (hsizes₁ e he).le

/-! ## `kvmfree` -/

theorem spans_erase (cs : List Chunk) (hb : b ∈ live) :
    (spans cs live).Perm (blockSpan b :: spans cs (live.erase b)) := by
  have hperm := List.perm_cons_erase hb
  refine List.Perm.trans ?_ (spans_block cs b (live.erase b))
  exact (hperm.map _).append_left _

theorem Sound.freeAppend (h : s.Sound A (pre ++ [c])) (hA : A.Valid) (hb : b ∈ s.live)
    (hnext : next s.heap.mem (b.1 - headerSize) = 0)
    (hprev : prev s.heap.mem (b.1 - headerSize) = c.addr) :
    Sound A ⟨{ s.heap with mem := setNext s.heap.mem c.addr (b.1 - headerSize) }, s.live.erase b⟩
      (pre ++ [c, ⟨b.1 - headerSize, b.1, b.2⟩]) := by
  obtain ⟨hle, hbbase, hbsize⟩ := h.header b hb
  have h16 : headerSize = 16 := rfl
  have htop := h.span_lt hA (block_mem_spans hb : _ ∈ spans (pre ++ [c]) _)
  unfold blockSpan at htop
  dsimp only at htop
  obtain ⟨hkept, hkeptb⟩ := h.kept_of_field s.heap.mem (k := 8) (b.1 - headerSize) (by decide)
  have hkb := hkeptb b hb
  have hspan : (⟨b.1 - headerSize, b.1, b.2⟩ : Chunk).span = blockSpan b := rfl
  have hperm : (spans (pre ++ [c, ⟨b.1 - headerSize, b.1, b.2⟩]) (s.live.erase b)).Perm
      (spans (pre ++ [c]) s.live) := by
    have hmiddle := spans_chunk (pre ++ [c]) [] ⟨b.1 - headerSize, b.1, b.2⟩ (s.live.erase b)
    rw [List.append_nil, List.append_assoc] at hmiddle
    exact hmiddle.trans (spans_erase (pre ++ [c]) hb).symm
  refine ⟨by simp, ?_, ?_, ?_, ?_, ?_, h.disjoint.perm hperm.symm, ?_⟩
  · show s.heap.freeList = _
    rw [h.first, headOr_append, headOr_append]
    rfl
  · refine h.linked.snoc ⟨hkb.base_eq.trans hbbase, hkb.size_eq.trans hbsize,
      hkb.next_eq.trans hnext, hkb.prev_eq.trans hprev⟩ ?_ ?_ ?_ ?_ ?_
    · exact load32_store32 (by omega)
    · exact load32_store32_of_ne (by omega)
    · exact load32_store32_of_ne (by omega)
    · exact load32_store32_of_ne (by omega)
    · exact fun e he => hkept e (List.mem_append_left _ he)
  · intro e he
    have hcases : e ∈ pre ++ [c] ∨ e = ⟨b.1 - headerSize, b.1, b.2⟩ := by
      simp only [List.mem_append, List.mem_cons, List.not_mem_nil, or_false] at he ⊢
      tauto
    rcases hcases with he | rfl
    · exact h.shape e he
    · dsimp only
      omega
  · intro e he
    have hcases : e ∈ (pre ++ [c]).tail ∨ e = ⟨b.1 - headerSize, b.1, b.2⟩ := by
      cases pre with
      | nil => exact Or.inr (List.mem_singleton.mp he)
      | cons x pre =>
          simp only [List.cons_append, List.tail_cons, List.mem_append, List.mem_cons,
            List.not_mem_nil, or_false] at he ⊢
          tauto
    rcases hcases with he | rfl
    · exact h.tail e he
    · dsimp only
      omega
  · refine header_of_kept (fun b' hb' => h.header b' (List.mem_of_mem_erase hb')) ?_
    exact fun b' hb' => hkeptb b' (List.mem_of_mem_erase hb')
  · intro t ht
    exact h.inside t (hperm.mem_iff.mp ht)

theorem Sound.freeJoin (h : s.Sound A (pre ++ [c])) (hb : b ∈ s.live)
    (hadj : c.base + c.size = b.1 - headerSize) {mem' : Bytes}
    (hsize : size mem' c.addr = c.size + (b.2 + headerSize))
    (hnext : next mem' c.addr = 0) (hbase : base mem' c.addr = base s.heap.mem c.addr)
    (hprev : prev mem' c.addr = prev s.heap.mem c.addr)
    (hmem : ∀ x, x < c.addr ∨ c.addr + headerSize ≤ x → mem' x = s.heap.mem x) :
    Sound A ⟨{ s.heap with mem := mem' }, s.live.erase b⟩
      (pre ++ [{ c with size := c.size + (b.2 + headerSize) }]) := by
  have hle := (h.header b hb).1
  have hshape := h.shape c (by simp)
  have hrest : ∀ x, x < c.addr ∨ c.base + c.size ≤ x → mem' x = s.heap.mem x :=
    fun x hx => hmem x (by omega)
  obtain ⟨hkept, hkeptb⟩ := h.kept_of_chunk hrest
  have hin := h.inside _ (chunk_mem_spans (c := c) (by simp))
  have hinb := h.inside _ (block_mem_spans hb : _ ∈ spans (pre ++ [c]) _)
  have hperm : (spans (pre ++ [c]) s.live).Perm
      ((c.addr, b.1 - headerSize) :: (b.1 - headerSize, b.1 + b.2) ::
        spans pre (s.live.erase b)) := by
    refine (spans_erase _ hb).trans ?_
    have hmiddle := spans_chunk pre [] c (s.live.erase b)
    rw [List.append_nil] at hmiddle
    refine (hmiddle.cons _).trans ((List.Perm.swap _ _ _).trans ?_)
    have hspan : c.span = (c.addr, b.1 - headerSize) := by
      unfold Chunk.span
      rw [hadj]
    rw [hspan]
    rfl
  have hnew : (spans (pre ++ [{ c with size := c.size + (b.2 + headerSize) }])
      (s.live.erase b)).Perm ((c.addr, b.1 + b.2) :: spans pre (s.live.erase b)) := by
    have hmiddle := spans_chunk pre [] { c with size := c.size + (b.2 + headerSize) }
      (s.live.erase b)
    rw [List.append_nil] at hmiddle
    have hspan : ({ c with size := c.size + (b.2 + headerSize) } : Chunk).span =
        (c.addr, b.1 + b.2) := by
      unfold Chunk.span
      dsimp only
      rw [Prod.mk.injEq]
      exact ⟨rfl, by omega⟩
    rw [hspan] at hmiddle
    exact hmiddle
  have hrest : ∀ t ∈ spans pre (s.live.erase b), t ∈ spans (pre ++ [c]) s.live := by
    intro t ht
    exact hperm.mem_iff.mpr (List.mem_cons_of_mem _ (List.mem_cons_of_mem _ ht))
  refine h.replaceChunk _ rfl ?_ (by omega) ?_ ?_ ?_
  · have hres := h.linked.resize mem' (fun _ => hnext) (fun hne => (hne rfl).elim) hbase
      hprev hkept
    rw [hsize] at hres
    exact hres
  · refine header_of_kept (fun b' hb' => h.header b' (List.mem_of_mem_erase hb')) ?_
    exact fun b' hb' => hkeptb b' (List.mem_of_mem_erase hb')
  · refine AllApart.perm ((h.disjoint.perm hperm).join ?_) hnew.symm
    intro t ht
    have hlen := (h.inside t (hrest t ht)).2.1
    have h16 : headerSize = 16 := rfl
    omega
  · intro t ht
    rcases List.mem_cons.mp (hnew.mem_iff.mp ht) with rfl | ht
    · refine ⟨hin.1, show c.addr + headerSize ≤ b.1 + b.2 by omega, ?_⟩
      intro x hx hx'
      dsimp only at hx hx'
      by_cases hlow : x < b.1 - headerSize
      · exact hin.2.2 x hx (show x < c.base + c.size by omega)
      · exact hinb.2.2 x (show b.1 - headerSize ≤ x by omega) hx'
    · exact h.inside t (hrest t ht)

theorem lastOr_mem (pre : List Chunk) : pre = [] ∨ ∃ y ∈ pre, lastOr 0 pre = y.addr := by
  rcases List.eq_nil_or_concat pre with rfl | ⟨pre', y, rfl⟩
  · exact Or.inl rfl
  · refine Or.inr ⟨y, by simp, ?_⟩
    rw [List.concat_eq_append, lastOr_snoc]

/-- The last chunk does not touch the one before, so it is not merged with it. -/
theorem Sound.mergePrev_eq (h : s.Sound A (pre ++ [c])) (hA : A.Valid) {v : ℕ}
    (hsafe : prev s.heap.mem c.addr = 0 ∨
      base s.heap.mem (prev s.heap.mem c.addr) + size s.heap.mem (prev s.heap.mem c.addr) ≠
        base s.heap.mem c.addr - headerSize) :
    Heap.mergePrev (setNext s.heap.mem c.addr v) c.addr = setNext s.heap.mem c.addr v := by
  obtain ⟨hkept, _⟩ := h.kept_of_field s.heap.mem (k := 8) v (by decide)
  have hshape := h.shape c (by simp)
  have hprev : prev (setNext s.heap.mem c.addr v) c.addr = prev s.heap.mem c.addr :=
    load32_store32_of_ne (by omega)
  have hbase : base (setNext s.heap.mem c.addr v) c.addr = base s.heap.mem c.addr :=
    load32_store32_of_ne (by omega)
  have hcbase := h.base_eq (c := c) (by simp)
  unfold Heap.mergePrev
  dsimp only
  rw [if_neg]
  rintro ⟨hq, heq⟩
  rw [hprev] at hq heq
  have hne := hsafe.resolve_left hq
  have hheader := h.linked.header.prev
  rcases lastOr_mem pre with rfl | ⟨y, hy, hlast⟩
  · exact hq hheader
  · have hctail : c ∈ (pre ++ [c]).tail := by
      obtain ⟨x, pre', rfl⟩ := List.exists_cons_of_ne_nil (List.ne_nil_of_mem hy)
      exact List.mem_append_right _ (List.mem_singleton.mpr rfl)
    have hcb := h.tail c hctail
    rw [hbase, hcbase, sub32_of_le (by omega)] at heq
    have hy' : y ∈ pre ++ [c] := List.mem_append_left _ hy
    have htop := h.span_lt hA (chunk_mem_spans hy' : _ ∈ spans _ s.live)
    unfold Chunk.span at htop
    dsimp only at htop
    have hky := hkept y (List.mem_append_left _ hy)
    change Kept s.heap.mem (setNext s.heap.mem c.addr v) y.addr at hky
    rw [hheader, hlast, h.base_eq hy', h.size_eq hy', hcbase] at hne
    rw [hheader, hlast, hky.base_eq, hky.size_eq, h.base_eq hy', h.size_eq hy',
      Nat.mod_eq_of_lt htop] at heq
    exact hne heq

theorem Sound.kvmfree (h : s.Sound A cs) (hA : A.Valid) (hsafe : s.SafeStep (.kvmfree b)) :
    ∃ h' cs', s.step A (.kvmfree b) = .ok ⟨h', s.live.erase b⟩ ∧
      Sound A ⟨h', s.live.erase b⟩ cs' ∧ Frees b cs cs' ∧
      h'.expansions = s.heap.expansions := by
  unfold SafeStep at hsafe
  dsimp only at hsafe
  obtain ⟨hb, hsafe⟩ := hsafe
  rcases h.walk_eq hA fun ptr => b.1 < base s.heap.mem ptr with
    ⟨pre, d, post, rfl, _, _, hfind⟩ | ⟨hbehind, pre, c, rfl, hfind⟩
  · change s.heap.findBehind b.1 = _ at hfind
    rw [hfind] at hsafe
    exact hsafe.elim
  · change s.heap.findBehind b.1 = _ at hfind
    rw [hfind] at hsafe
    dsimp only at hsafe
    obtain ⟨hnext, hlink, hbefore⟩ := hsafe
    obtain ⟨hle, hbbase, hbsize⟩ := h.header b hb
    have h16 : headerSize = 16 := rfl
    have hc : c ∈ pre ++ [c] := by simp
    have htop := h.span_lt hA (chunk_mem_spans hc : _ ∈ spans _ s.live)
    have htopb := h.span_lt hA (block_mem_spans hb : _ ∈ spans (pre ++ [c]) _)
    have hposb := (h.inside _ (block_mem_spans hb : _ ∈ spans (pre ++ [c]) _)).1
    unfold Chunk.span at htop
    unfold blockSpan at htopb hposb
    dsimp only at htop htopb hposb
    have hcbase := h.base_eq hc
    have hcsize := h.size_eq hc
    obtain ⟨_, hkeptb⟩ := h.kept_of_field s.heap.mem (k := 8) (b.1 - headerSize) (by decide)
    have hkb := hkeptb b hb
    change Kept s.heap.mem (setNext s.heap.mem c.addr (b.1 - headerSize)) _ at hkb
    have hnext1 : next (setNext s.heap.mem c.addr (b.1 - headerSize)) c.addr =
        b.1 - headerSize := load32_store32 (by omega)
    have hbase1 : base (setNext s.heap.mem c.addr (b.1 - headerSize)) c.addr = c.base := by
      rw [← hcbase]
      exact load32_store32_of_ne (by omega)
    have hsize1 : size (setNext s.heap.mem c.addr (b.1 - headerSize)) c.addr = c.size := by
      rw [← hcsize]
      exact load32_store32_of_ne (by omega)
    have hrun : s.step A (.kvmfree b) = .ok ⟨{ s.heap with
        mem := Heap.mergeNext (setNext s.heap.mem c.addr (b.1 - headerSize)) c.addr },
        s.live.erase b⟩ := by
      unfold step Heap.kvmfree
      dsimp only
      rw [hfind, ok_bind]
      dsimp only
      rw [ok_bind, sub32_of_le hle]
      unfold Heap.mergeBlocks
      rw [h.mergePrev_eq hA hbefore]
    by_cases hadj : c.base + c.size = b.1 - headerSize
    · have hmerge : Heap.mergeNext (setNext s.heap.mem c.addr (b.1 - headerSize)) c.addr =
          setNext (setSize (setNext s.heap.mem c.addr (b.1 - headerSize)) c.addr
            (c.size + (b.2 + headerSize))) c.addr 0 := by
        unfold Heap.mergeNext
        dsimp only
        rw [hnext1, hbase1, hsize1, if_pos ⟨by omega, by rw [Nat.mod_eq_of_lt htop]; exact hadj⟩,
          hkb.size_eq, hbsize, Nat.mod_eq_of_lt (by omega)]
        refine congrArg (setNext _ c.addr) ?_
        obtain ⟨_, hkeptb'⟩ := h.kept_of_field (setNext s.heap.mem c.addr (b.1 - headerSize))
          (k := 4) (c.size + (b.2 + headerSize)) (by decide)
        have hkb' := hkeptb' b hb
        change Kept _ (setSize (setNext s.heap.mem c.addr (b.1 - headerSize)) c.addr
          (c.size + (b.2 + headerSize))) _ at hkb'
        rw [hkb'.next_eq, hkb.next_eq, hnext]
      rw [hmerge] at hrun
      refine ⟨_, _, hrun, h.freeJoin hb hadj ?_ ?_ ?_ ?_ ?_, Frees.join hadj, rfl⟩
      · unfold size setNext setSize
        rw [load32_store32_of_ne (by omega), load32_store32 (by omega)]
      · exact load32_store32 (by omega)
      · unfold base setNext setSize
        rw [load32_store32_of_ne (by omega), load32_store32_of_ne (by omega),
          load32_store32_of_ne (by omega)]
      · unfold prev setNext setSize
        rw [load32_store32_of_ne (by omega), load32_store32_of_ne (by omega),
          load32_store32_of_ne (by omega)]
      · intro x hx
        unfold setNext setSize
        rw [store32_apply (by omega), store32_apply (by omega), store32_apply (by omega)]
    · have hmerge : Heap.mergeNext (setNext s.heap.mem c.addr (b.1 - headerSize)) c.addr =
          setNext s.heap.mem c.addr (b.1 - headerSize) := by
        unfold Heap.mergeNext
        dsimp only
        rw [hnext1, hbase1, hsize1, if_neg]
        rintro ⟨_, heq⟩
        rw [Nat.mod_eq_of_lt htop] at heq
        exact hadj heq
      rw [hmerge] at hrun
      rw [hcbase, hcsize] at hlink
      have hle : c.base ≤ b.1 := by
        have hnot := of_decide_eq_false (hbehind c hc)
        rw [hcbase] at hnot
        exact not_lt.mp hnot
      exact ⟨_, _, hrun, h.freeAppend hA hb hnext (hlink.resolve_left hadj),
        Frees.append hle hadj, rfl⟩

/-! ## Runs -/

theorem Sound.store (h : s.Sound A cs) {x : ℕ} (byte : BitVec 8)
    (hsafe : s.SafeStep (.store b x byte)) :
    Sound A ⟨{ s.heap with mem := Function.update s.heap.mem x byte }, s.live⟩ cs := by
  obtain ⟨hb, hlo, hhi⟩ := hsafe
  have h16 : headerSize = 16 := rfl
  have hle := (h.header b hb).1
  have hperm := h.disjoint.perm (spans_erase cs hb)
  have hothers := (List.pairwise_cons.mp hperm).1
  have hchunk : ∀ c ∈ cs, Kept s.heap.mem (Function.update s.heap.mem x byte) c.addr := by
    intro c hc y hy hy'
    apply Function.update_of_ne
    have hapart := hothers _ (chunk_mem_spans hc)
    have hshape := h.shape c hc
    unfold Span.Apart blockSpan Chunk.span at hapart
    dsimp only at hapart
    omega
  have hblock : ∀ b' ∈ s.live,
      Kept s.heap.mem (Function.update s.heap.mem x byte) (b'.1 - headerSize) := by
    intro b' hb' y hy hy'
    apply Function.update_of_ne
    by_cases hsame : b' = b
    · subst hsame
      omega
    · have hapart := hothers _ (block_mem_spans
        ((List.mem_erase_of_ne hsame).mpr hb') : _ ∈ spans cs _)
      have hle' := (h.header b' hb').1
      unfold Span.Apart blockSpan at hapart
      dsimp only at hapart
      omega
  exact ⟨h.nonempty, h.first, h.linked.congr hchunk, h.shape, h.tail,
    header_of_kept h.header hblock, h.disjoint, h.inside⟩

theorem sound_init (hA : A.Valid) (mem : Bytes) :
    Sound A ⟨Heap.kvmallocInit mem A.heap A.size, []⟩ [⟨A.heap, A.heap + 4, A.size - 4⟩] := by
  have h16 : headerSize = 16 := rfl
  have hpos := hA.pos
  have hroom := hA.room
  have htop := hA.top
  refine ⟨by simp, rfl, ⟨⟨?_, ?_, ?_, ?_⟩, trivial⟩, ?_, nofun, nofun, ?_, ?_⟩
  · unfold Heap.kvmallocInit base setPrev setNext setSize setBase
    dsimp only
    rw [load32_store32_of_ne (by omega), load32_store32_of_ne (by omega),
      load32_store32_of_ne (by omega), load32_store32 (by omega)]
  · unfold Heap.kvmallocInit size setPrev setNext setSize setBase
    dsimp only
    rw [load32_store32_of_ne (by omega), load32_store32_of_ne (by omega), load32_store32 (by omega)]
  · unfold Heap.kvmallocInit next setPrev setNext setSize setBase
    dsimp only
    rw [load32_store32_of_ne (by omega), load32_store32 (by omega)]
    rfl
  · exact load32_store32 (by omega)
  · intro c hc
    rw [List.mem_singleton.mp hc]
    dsimp only
    omega
  · exact List.pairwise_singleton _ _
  · intro t ht
    have heq : t = (A.heap, A.heap + 4 + (A.size - 4)) := List.mem_singleton.mp ht
    rw [heq]
    refine ⟨hpos, ?_, ?_⟩
    · dsimp only
      omega
    · intro x hx hx'
      refine Or.inl ⟨hx, ?_⟩
      dsimp only at hx'
      omega

theorem Sound.keeps (hA : A.Valid) (ops : List Op) (h : s.Sound A cs) (hsafe : s.SafeRun A ops) :
    s.Keeps A ops := by
  induction ops generalizing s cs with
  | nil => exact h.good
  | cons op ops ih =>
      obtain ⟨hop, hrest⟩ := hsafe
      refine ⟨h.good, ?_⟩
      cases op with
      | kvmalloc n =>
          rcases h.kvmalloc hA hop with ⟨p, heap', cs', hstep, h', -, hfall⟩ | hpanic
          · rw [hstep] at hrest ⊢
            exact ⟨fun _ _ => hfall, ih h' hrest⟩
          · rw [hpanic]
      | kvmfree b =>
          obtain ⟨heap', cs', hstep, h', -, -⟩ := h.kvmfree hA hop
          rw [hstep] at hrest ⊢
          exact ⟨nofun, ih h' hrest⟩
      | store b x byte => exact ⟨nofun, ih (h.store byte hop) hrest⟩

/-- From `kvmalloc_init` on, in every run of safe calls, blocks in use are heap
memory and meet neither each other nor the headers of the free list, and sizes do
not wrap. -/
theorem heap_keeps_of_safeRun (hA : A.Valid) (mem : Bytes) (ops : List Op)
    (hsafe : SafeRun A ⟨Heap.kvmallocInit mem A.heap A.size, []⟩ ops) :
    Keeps A ⟨Heap.kvmallocInit mem A.heap A.size, []⟩ ops :=
  (sound_init hA mem).keeps hA ops hsafe

/-! ## A small heap -/

/-- One page of heap, and one region more. -/
def smallArena : Arena where
  heap := 0x1000
  size := 0x1000
  regions k := if k = 0 then some 0x800000 else none

theorem smallArena_valid : smallArena.Valid where
  pos := by decide
  room := by decide
  top := by decide
  region k r hr := by
    unfold smallArena at hr
    dsimp only at hr
    split at hr
    next =>
      obtain rfl := Option.some.inj hr
      decide
    next => cases hr
  fresh j k r t hne hj hk := by
    unfold smallArena at hj hk
    dsimp only at hj hk
    split at hj
    next hj0 =>
      split at hk
      next hk0 => exact (hne (hj0.trans hk0.symm)).elim
      next => cases hk
    next => cases hj

/-- A block of the first page, one of a new region, and the second is freed. -/
theorem heap_keeps_of_safeRun_smallArena :
    Keeps smallArena ⟨Heap.kvmallocInit (fun _ => 0#8) 0x1000 0x1000, []⟩
      [.kvmalloc 100, .kvmalloc 5000, .kvmfree (0xBFEC78, 5000), .kvmalloc 20] :=
  heap_keeps_of_safeRun smallArena_valid _ _ (by decide +kernel)

/-- A request for eight bytes less than the first chunk has. -/
theorem not_keeps_nearly_all :
    smallArena.Valid ∧
      ¬Keeps smallArena ⟨Heap.kvmallocInit (fun _ => 0#8) 0x1000 0x1000, []⟩ [.kvmalloc 4084] := by
  refine ⟨smallArena_valid, ?_⟩
  rintro ⟨_, hstep⟩
  have hwrap : ∃ s', step smallArena ⟨Heap.kvmallocInit (fun _ => 0#8) 0x1000 0x1000, []⟩
      (.kvmalloc 4084) = .ok s' ∧ size s'.heap.mem 0x1000 = 2 ^ 32 - 8 :=
    ⟨_, rfl, by decide +kernel⟩
  obtain ⟨s', hs', hsize⟩ := hwrap
  rw [hs'] at hstep
  have hfall := hstep.1 4084 rfl 0x1000 (.first (by decide))
  rw [hsize] at hfall
  exact absurd hfall (by decide +kernel)

end Session

end Yak.Kvmalloc
