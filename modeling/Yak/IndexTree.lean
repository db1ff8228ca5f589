import Mathlib.Data.List.Nodup
import Mathlib.Data.List.Perm.Basic
import Mathlib.Tactic

/-!
# Trees of index blocks

Blocks which are arrays of addresses of other blocks, down to a fixed depth, with the
address 0 for nothing.  The addresses are given by a function, so that two states of a
disk are compared by comparing their functions on the inner blocks.
-/

namespace IndexTree

/-! ## Lists of lists -/

theorem disjoint_of_nodup_flatMap {α β : Type*} {l : List α} {f : α → List β} {i j : α}
    (h : (l.flatMap f).Nodup) (hi : i ∈ l) (hj : j ∈ l) (hne : i ≠ j) : (f i).Disjoint (f j) := by
  rw [List.nodup_flatMap] at h
  have hsymm : Std.Symm (Function.onFun List.Disjoint f) := ⟨fun _ _ hd => hd.symm⟩
  exact h.2.forall hi hj hne

theorem flatMap_perm_append {α β : Type*} {l : List α} {f f' : α → List β} {i : α} {news : List β}
    (hl : l.Nodup) (hi : i ∈ l) (hgrow : (f' i).Perm (news ++ f i))
    (hrest : ∀ j ∈ l, j ≠ i → f' j = f j) : (l.flatMap f').Perm (news ++ l.flatMap f) := by
  induction l with
  | nil => cases hi
  | cons j l ih =>
      obtain ⟨hj, hl⟩ := List.nodup_cons.mp hl
      rw [List.flatMap_cons, List.flatMap_cons]
      by_cases hji : j = i
      · subst hji
        have hsame : l.flatMap f' = l.flatMap f := by
          apply List.flatMap_congr
          intro m hm
          exact hrest m (List.mem_cons_of_mem j hm) fun heq => hj (heq ▸ hm)
        rw [hsame, ← List.append_assoc]
        exact hgrow.append_right _
      · have hmem : i ∈ l := (List.mem_cons.mp hi).resolve_left (Ne.symm hji)
        have htail := ih hl hmem fun m hm hne => hrest m (List.mem_cons_of_mem j hm) hne
        rw [hrest j List.mem_cons_self hji]
        refine (htail.append_left (f j)).trans ?_
        rw [← List.append_assoc, ← List.append_assoc]
        exact List.perm_append_comm.append_right _

/-! ## Blocks of a tree -/

/-- The blocks of a tree, each behind those below it. -/
def nodes (ptr : ℕ → ℕ → ℕ) (n : ℕ) : (depth : ℕ) → ℕ → List ℕ
  | 0, b => if b = 0 then [] else [b]
  | d + 1, b => if b = 0 then [] else (List.range n).flatMap (fun k => nodes ptr n d (ptr b k)) ++ [b]

/-- The inner blocks of a tree. -/
def index (ptr : ℕ → ℕ → ℕ) (n : ℕ) : (depth : ℕ) → ℕ → List ℕ
  | 0, _ => []
  | d + 1, b => if b = 0 then [] else (List.range n).flatMap (fun k => index ptr n d (ptr b k)) ++ [b]

/-- The blocks of the last level of a tree. -/
def leaves (ptr : ℕ → ℕ → ℕ) (n : ℕ) : (depth : ℕ) → ℕ → List ℕ
  | 0, b => if b = 0 then [] else [b]
  | d + 1, b => if b = 0 then [] else (List.range n).flatMap fun k => leaves ptr n d (ptr b k)

/-- Down a tree by the entry at each level. -/
def walk (ptr : ℕ → ℕ → ℕ) : ℕ → List ℕ → ℕ
  | b, [] => b
  | b, k :: ks => if b = 0 then 0 else walk ptr (ptr b k) ks

variable {ptr ptr' : ℕ → ℕ → ℕ} {n d b c k : ℕ} {ks : List ℕ}

@[simp] theorem nodes_zero : nodes ptr n d 0 = [] := by cases d <;> simp [nodes]

@[simp] theorem index_zero : index ptr n d 0 = [] := by cases d <;> simp [index]

@[simp] theorem leaves_zero : leaves ptr n d 0 = [] := by cases d <;> simp [leaves]

@[simp] theorem walk_zero : walk ptr 0 ks = 0 := by cases ks <;> simp [walk]

theorem nodes_succ (hb : b ≠ 0) :
    nodes ptr n (d + 1) b = (List.range n).flatMap (fun k => nodes ptr n d (ptr b k)) ++ [b] :=
  if_neg hb

theorem index_succ (hb : b ≠ 0) :
    index ptr n (d + 1) b = (List.range n).flatMap (fun k => index ptr n d (ptr b k)) ++ [b] :=
  if_neg hb

theorem leaves_succ (hb : b ≠ 0) :
    leaves ptr n (d + 1) b = (List.range n).flatMap fun k => leaves ptr n d (ptr b k) := if_neg hb

theorem walk_cons (hb : b ≠ 0) : walk ptr b (k :: ks) = walk ptr (ptr b k) ks := if_neg hb

theorem self_mem_nodes (hb : b ≠ 0) : b ∈ nodes ptr n d b := by
  cases d with
  | zero => simp [nodes, hb]
  | succ d => simp [nodes_succ hb]

theorem self_mem_index (hb : b ≠ 0) : b ∈ index ptr n (d + 1) b := by simp [index_succ hb]

theorem ne_zero_of_mem_index (hc : c ∈ index ptr n d b) : b ≠ 0 := by
  rintro rfl
  simp at hc

theorem child_mem_nodes (hb : b ≠ 0) (hk : k < n) (hc : c ∈ nodes ptr n d (ptr b k)) :
    c ∈ nodes ptr n (d + 1) b := by
  rw [nodes_succ hb]
  exact List.mem_append_left _ (List.mem_flatMap.mpr ⟨k, List.mem_range.mpr hk, hc⟩)

theorem child_mem_index (hb : b ≠ 0) (hk : k < n) (hc : c ∈ index ptr n d (ptr b k)) :
    c ∈ index ptr n (d + 1) b := by
  rw [index_succ hb]
  exact List.mem_append_left _ (List.mem_flatMap.mpr ⟨k, List.mem_range.mpr hk, hc⟩)

theorem index_subset : index ptr n d b ⊆ nodes ptr n d b := by
  induction d generalizing b with
  | zero => exact List.nil_subset _
  | succ d ih =>
      intro c hc
      have hb := ne_zero_of_mem_index hc
      rw [index_succ hb, List.mem_append, List.mem_flatMap] at hc
      rcases hc with ⟨k, hk, hc⟩ | hc
      · exact child_mem_nodes hb (List.mem_range.mp hk) (ih hc)
      · rw [List.mem_singleton.mp hc]
        exact self_mem_nodes hb

theorem leaves_sublist : (leaves ptr n d b).Sublist (nodes ptr n d b) := by
  induction d generalizing b with
  | zero => exact List.Sublist.refl _
  | succ d ih =>
      by_cases hb : b = 0
      · rw [hb, leaves_zero, nodes_zero]
      · rw [leaves_succ hb, nodes_succ hb]
        refine List.Sublist.trans ?_ (List.sublist_append_left _ _)
        induction List.range n with
        | nil => exact List.Sublist.refl _
        | cons k ks ihk =>
            rw [List.flatMap_cons, List.flatMap_cons]
            exact ih.append ihk

/-- A tree depends on its inner blocks only. -/
theorem nodes_congr (h : ∀ c ∈ index ptr n d b, ∀ k < n, ptr' c k = ptr c k) :
    nodes ptr' n d b = nodes ptr n d b := by
  induction d generalizing b with
  | zero => rfl
  | succ d ih =>
      by_cases hb : b = 0
      · simp [hb]
      · rw [nodes_succ hb, nodes_succ hb]
        congr 1
        apply List.flatMap_congr
        intro k hk
        have hlt := List.mem_range.mp hk
        rw [h b (self_mem_index hb) k hlt]
        exact ih fun c hc => h c (child_mem_index hb hlt hc)

theorem leaves_congr (h : ∀ c ∈ index ptr n d b, ∀ k < n, ptr' c k = ptr c k) :
    leaves ptr' n d b = leaves ptr n d b := by
  induction d generalizing b with
  | zero => rfl
  | succ d ih =>
      by_cases hb : b = 0
      · simp [hb]
      · rw [leaves_succ hb, leaves_succ hb]
        apply List.flatMap_congr
        intro k hk
        have hlt := List.mem_range.mp hk
        rw [h b (self_mem_index hb) k hlt]
        exact ih fun c hc => h c (child_mem_index hb hlt hc)

theorem walk_congr (hlen : ks.length = d) (hks : ∀ k ∈ ks, k < n)
    (h : ∀ c ∈ index ptr n d b, ∀ k < n, ptr' c k = ptr c k) : walk ptr' b ks = walk ptr b ks := by
  induction ks generalizing b d with
  | nil => rfl
  | cons k ks ih =>
      obtain rfl : d = ks.length + 1 := hlen.symm
      by_cases hb : b = 0
      · simp [hb]
      · have hk := hks k List.mem_cons_self
        rw [walk_cons hb, walk_cons hb, h b (self_mem_index hb) k hk]
        exact ih rfl (fun j hj => hks j (List.mem_cons_of_mem k hj))
          fun c hc => h c (child_mem_index hb hk hc)

/-! ## Distinct blocks -/

theorem nodup_child (hb : b ≠ 0) (hk : k < n) (h : (nodes ptr n (d + 1) b).Nodup) :
    (nodes ptr n d (ptr b k)).Nodup := by
  rw [nodes_succ hb, List.nodup_append] at h
  exact (List.nodup_flatMap.mp h.1).1 k (List.mem_range.mpr hk)

theorem ne_of_mem_child (hb : b ≠ 0) (hk : k < n) (h : (nodes ptr n (d + 1) b).Nodup)
    (hc : c ∈ nodes ptr n d (ptr b k)) : c ≠ b := by
  rw [nodes_succ hb, List.nodup_append] at h
  exact h.2.2 c (List.mem_flatMap.mpr ⟨k, List.mem_range.mpr hk, hc⟩) b (List.mem_singleton.mpr rfl)

theorem disjoint_children {j : ℕ} (hb : b ≠ 0) (hj : j < n) (hk : k < n) (hne : j ≠ k)
    (h : (nodes ptr n (d + 1) b).Nodup) :
    (nodes ptr n d (ptr b j)).Disjoint (nodes ptr n d (ptr b k)) := by
  rw [nodes_succ hb, List.nodup_append] at h
  exact disjoint_of_nodup_flatMap (f := fun m => nodes ptr n d (ptr b m)) h.1
    (List.mem_range.mpr hj) (List.mem_range.mpr hk) hne

/-! ## Leaves -/

theorem walk_mem_nodes (hlen : ks.length = d) (hks : ∀ k ∈ ks, k < n) (h : walk ptr b ks ≠ 0) :
    walk ptr b ks ∈ nodes ptr n d b := by
  induction ks generalizing b d with
  | nil => exact self_mem_nodes h
  | cons k ks ih =>
      obtain rfl : d = ks.length + 1 := hlen.symm
      by_cases hb : b = 0
      · rw [hb, walk_zero] at h
        exact (h rfl).elim
      · rw [walk_cons hb] at h ⊢
        exact child_mem_nodes hb (hks k List.mem_cons_self)
          (ih rfl (fun j hj => hks j (List.mem_cons_of_mem k hj)) h)

theorem walk_injective {ks' : List ℕ} (hlen : ks.length = d) (hlen' : ks'.length = d)
    (hks : ∀ k ∈ ks, k < n) (hks' : ∀ k ∈ ks', k < n) (hnodup : (nodes ptr n d b).Nodup) (hne : walk ptr b ks ≠ 0)
    (heq : walk ptr b ks = walk ptr b ks') : ks = ks' := by
  induction ks generalizing b d ks' with
  | nil =>
      obtain rfl : d = 0 := hlen.symm
      exact (List.length_eq_zero_iff.mp hlen').symm
  | cons k ks ih =>
      obtain rfl : d = ks.length + 1 := hlen.symm
      cases ks' with
      | nil => cases hlen'
      | cons k' ks' =>
          have hrest : ∀ j ∈ ks, j < n := fun j hj => hks j (List.mem_cons_of_mem k hj)
          have hrest' : ∀ j ∈ ks', j < n := fun j hj => hks' j (List.mem_cons_of_mem k' hj)
          have hk := hks k List.mem_cons_self
          have hk' := hks' k' List.mem_cons_self
          have htail : ks'.length = ks.length := Nat.succ_inj.mp hlen'
          have hb : b ≠ 0 := by
            intro hzero
            simp [hzero] at hne
          rw [walk_cons hb] at hne heq
          rw [walk_cons hb] at heq
          by_cases hsame : k = k'
          · subst hsame
            rw [ih rfl htail hrest hrest' (nodup_child hb hk hnodup) hne heq]
          · have hmem := walk_mem_nodes rfl hrest hne
            have hmem' : walk ptr (ptr b k) ks ∈ nodes ptr n ks.length (ptr b k') := by
              rw [heq]
              exact walk_mem_nodes htail hrest' (heq ▸ hne)
            exact (disjoint_children hb hk hk' hsame hnodup hmem hmem').elim

theorem walk_not_mem_index (hlen : ks.length = d) (hks : ∀ k ∈ ks, k < n)
    (hnodup : (nodes ptr n d b).Nodup) (h : walk ptr b ks ≠ 0) :
    walk ptr b ks ∉ index ptr n d b := by
  induction ks generalizing b d with
  | nil =>
      obtain rfl : d = 0 := hlen.symm
      exact List.not_mem_nil
  | cons k ks ih =>
      obtain rfl : d = ks.length + 1 := hlen.symm
      have hk := hks k List.mem_cons_self
      have hrest : ∀ j ∈ ks, j < n := fun j hj => hks j (List.mem_cons_of_mem k hj)
      by_cases hb : b = 0
      · rw [hb, walk_zero] at h
        exact (h rfl).elim
      · rw [walk_cons hb] at h ⊢
        have hmem := walk_mem_nodes rfl hrest h
        rw [index_succ hb, List.mem_append, List.mem_flatMap, not_or, List.mem_singleton]
        refine ⟨?_, ne_of_mem_child hb hk hnodup hmem⟩
        rintro ⟨j, hj, hin⟩
        by_cases hjk : j = k
        · subst hjk
          exact ih rfl hrest (nodup_child hb hk hnodup) h hin
        · exact disjoint_children hb (List.mem_range.mp hj) hk hjk hnodup (index_subset hin) hmem

/-! ## Paths -/

/-- A way down from the root: at most as many indices as levels, each of them in bounds. -/
def IsPath (n d : ℕ) (ks : List ℕ) : Prop := ks.length ≤ d ∧ ∀ k ∈ ks, k < n

theorem IsPath.cons (hk : k < n) (h : IsPath n d ks) : IsPath n (d + 1) (k :: ks) := by
  refine ⟨Nat.succ_le_succ h.1, ?_⟩
  intro j hj
  rcases List.mem_cons.mp hj with rfl | hj
  · exact hk
  · exact h.2 j hj

theorem IsPath.tail (h : IsPath n (d + 1) (k :: ks)) : k < n ∧ IsPath n d ks :=
  ⟨h.2 k List.mem_cons_self, Nat.le_of_succ_le_succ h.1,
    fun j hj => h.2 j (List.mem_cons_of_mem k hj)⟩

theorem walk_ne_zero (h : walk ptr b ks ≠ 0) : b ≠ 0 := by
  rintro rfl
  exact h walk_zero

theorem ne_zero_of_mem_nodes (hc : c ∈ nodes ptr n d b) : c ≠ 0 := by
  induction d generalizing b with
  | zero =>
      rw [nodes] at hc
      split at hc
      next => cases hc
      next hb => exact List.mem_singleton.mp hc ▸ hb
  | succ d ih =>
      by_cases hb : b = 0
      · rw [hb, nodes_zero] at hc
        cases hc
      · rw [nodes_succ hb, List.mem_append, List.mem_flatMap] at hc
        rcases hc with ⟨k, _, hc⟩ | hc
        · exact ih hc
        · exact List.mem_singleton.mp hc ▸ hb

/-- The blocks of a tree are what the paths lead to. -/
theorem mem_nodes_iff : c ∈ nodes ptr n d b ↔ c ≠ 0 ∧ ∃ ks, IsPath n d ks ∧ walk ptr b ks = c := by
  constructor
  · intro hc
    refine ⟨ne_zero_of_mem_nodes hc, ?_⟩
    induction d generalizing b with
    | zero =>
        rw [nodes] at hc
        split at hc
        next => cases hc
        next =>
          exact ⟨[], ⟨le_rfl, fun k hk => absurd hk List.not_mem_nil⟩, (List.mem_singleton.mp hc).symm⟩
    | succ d ih =>
        by_cases hb : b = 0
        · rw [hb, nodes_zero] at hc
          cases hc
        · rw [nodes_succ hb, List.mem_append, List.mem_flatMap] at hc
          rcases hc with ⟨k, hk, hc⟩ | hc
          · obtain ⟨ks, hks, hwalk⟩ := ih hc
            exact ⟨k :: ks, hks.cons (List.mem_range.mp hk), (walk_cons hb).trans hwalk⟩
          · exact ⟨[], ⟨Nat.zero_le _, fun k hk => absurd hk List.not_mem_nil⟩,
              (List.mem_singleton.mp hc).symm⟩
  · rintro ⟨hc, ks, hks, rfl⟩
    induction ks generalizing b d with
    | nil => exact self_mem_nodes hc
    | cons k ks ih =>
        cases d with
        | zero => exact absurd hks.1 (by simp)
        | succ d =>
            have hb := walk_ne_zero hc
            obtain ⟨hk, htail⟩ := hks.tail
            rw [walk_cons hb] at hc ⊢
            exact child_mem_nodes hb hk (ih htail hc)

/-- The leaves are what the longest paths lead to. -/
theorem exists_walk_of_mem_leaves (h : c ∈ leaves ptr n d b) :
    c ≠ 0 ∧ ∃ ks : List ℕ, ks.length = d ∧ (∀ k ∈ ks, k < n) ∧ walk ptr b ks = c := by
  refine ⟨ne_zero_of_mem_nodes (leaves_sublist.subset h), ?_⟩
  induction d generalizing b with
  | zero =>
      have hb : b ≠ 0 := by
        rintro rfl
        simp at h
      rw [leaves, if_neg hb, List.mem_singleton] at h
      exact ⟨[], rfl, fun k hk => absurd hk List.not_mem_nil, h.symm⟩
  | succ d ih =>
      have hb : b ≠ 0 := by
        rintro rfl
        simp at h
      rw [leaves_succ hb, List.mem_flatMap] at h
      obtain ⟨k, hk, h⟩ := h
      obtain ⟨ks, hlen, hks, hwalk⟩ := ih h
      refine ⟨k :: ks, congrArg Nat.succ hlen, ?_, (walk_cons hb).trans hwalk⟩
      intro j hj
      rcases List.mem_cons.mp hj with rfl | hj
      · exact List.mem_range.mp hk
      · exact hks j hj

/-- The inner blocks are what the shorter paths lead to. -/
theorem mem_index_iff :
    c ∈ index ptr n d b ↔ c ≠ 0 ∧ ∃ ks, IsPath n d ks ∧ ks.length < d ∧ walk ptr b ks = c := by
  constructor
  · intro hc
    refine ⟨ne_zero_of_mem_nodes (index_subset hc), ?_⟩
    induction d generalizing b with
    | zero => cases hc
    | succ d ih =>
        have hb := ne_zero_of_mem_index hc
        rw [index_succ hb, List.mem_append, List.mem_flatMap] at hc
        rcases hc with ⟨k, hk, hc⟩ | hc
        · obtain ⟨ks, hks, hlen, hwalk⟩ := ih hc
          exact ⟨k :: ks, hks.cons (List.mem_range.mp hk), Nat.succ_lt_succ hlen,
            (walk_cons hb).trans hwalk⟩
        · exact ⟨[], ⟨Nat.zero_le _, fun k hk => absurd hk List.not_mem_nil⟩, Nat.succ_pos d,
            (List.mem_singleton.mp hc).symm⟩
  · rintro ⟨hc, ks, hks, hlen, rfl⟩
    induction ks generalizing b d with
    | nil =>
        cases d with
        | zero => cases hlen
        | succ d => exact self_mem_index hc
    | cons k ks ih =>
        cases d with
        | zero => cases hlen
        | succ d =>
            have hb := walk_ne_zero hc
            obtain ⟨hk, htail⟩ := hks.tail
            rw [walk_cons hb] at hc ⊢
            exact child_mem_index hb hk (ih htail (Nat.lt_of_succ_lt_succ hlen) hc)

theorem count_index_le : (index ptr n d b).count c ≤ (nodes ptr n d b).count c := by
  induction d generalizing b with
  | zero => exact Nat.zero_le _
  | succ d ih =>
      by_cases hb : b = 0
      · rw [hb, index_zero, nodes_zero]
      · rw [index_succ hb, nodes_succ hb, List.count_append, List.count_append,
          List.count_flatMap, List.count_flatMap]
        exact Nat.add_le_add_right (List.sum_le_sum fun k _ => ih) _

theorem nodup_nodes (h : ∀ ks ks', IsPath n d ks → IsPath n d ks' → walk ptr b ks ≠ 0 →
    walk ptr b ks = walk ptr b ks' → ks = ks') : (nodes ptr n d b).Nodup := by
  induction d generalizing b with
  | zero =>
      rw [nodes]
      split
      next => exact List.nodup_nil
      next => exact List.nodup_singleton b
  | succ d ih =>
      by_cases hb : b = 0
      · rw [hb, nodes_zero]
        exact List.nodup_nil
      · have hpath : ∀ {k ks}, k < n → IsPath n d ks → IsPath n (d + 1) (k :: ks) :=
          fun hk hks => hks.cons hk
        rw [nodes_succ hb, List.nodup_append, List.nodup_flatMap]
        refine ⟨⟨?_, ?_⟩, List.nodup_singleton b, ?_⟩
        · intro k hk
          have hlt := List.mem_range.mp hk
          apply ih
          intro ks ks' hks hks' hne heq
          rw [← walk_cons hb] at hne
          rw [← walk_cons (k := k) hb, ← walk_cons (k := k) hb] at heq
          exact (List.cons.inj (h _ _ (hpath hlt hks) (hpath hlt hks') hne heq)).2
        · apply List.nodup_range.imp_of_mem
          intro j k hj hk hne c hcj hck
          obtain ⟨hc, ks, hks, hwalk⟩ := mem_nodes_iff.mp hcj
          obtain ⟨_, ks', hks', hwalk'⟩ := mem_nodes_iff.mp hck
          rw [← walk_cons hb] at hwalk hwalk'
          have hsame := h _ _ (hpath (List.mem_range.mp hj) hks) (hpath (List.mem_range.mp hk) hks')
            (hwalk ▸ hc) (hwalk.trans hwalk'.symm)
          exact hne (List.cons.inj hsame).1
        · intro c hc b' hb' heq
          obtain rfl := List.mem_singleton.mp hb'
          subst heq
          obtain ⟨k, hk, hc⟩ := List.mem_flatMap.mp hc
          obtain ⟨_, ks, hks, hwalk⟩ := mem_nodes_iff.mp hc
          rw [← walk_cons hb] at hwalk
          have hroot : IsPath n (d + 1) [] := ⟨Nat.zero_le _, fun k hk => absurd hk List.not_mem_nil⟩
          have hne : walk ptr c (k :: ks) ≠ 0 := by
            rw [hwalk]
            exact hb
          cases h _ _ (hpath (List.mem_range.mp hk) hks) hroot hne hwalk

/-! ## Growth -/

/-- Outside of one subtree, an inner block has the entries it had, but for the entry of the
subtree itself. -/
structure ChangedBelow (ptr ptr' : ℕ → ℕ → ℕ) (n d b k : ℕ) : Prop where
  entry : ∀ j < n, j ≠ k → ptr' b j = ptr b j
  other : ∀ c ∈ index ptr n (d + 1) b, c ≠ b → c ∉ nodes ptr n d (ptr b k) →
    ∀ j < n, ptr' c j = ptr c j

/-- The subtrees beside the changed one are the same. -/
theorem ChangedBelow.sibling (h : ChangedBelow ptr ptr' n d b k) (hb : b ≠ 0) (hk : k < n)
    (hnodup : (nodes ptr n (d + 1) b).Nodup) {j : ℕ} (hj : j < n) (hne : j ≠ k) :
    ∀ c ∈ index ptr n d (ptr b j), ∀ m < n, ptr' c m = ptr c m := by
  intro c hc
  have hnode := index_subset hc
  apply h.other c (child_mem_index hb hj hc) (ne_of_mem_child hb hj hnodup hnode)
  intro hin
  exact disjoint_children hb hj hk hne hnodup hnode hin

theorem ChangedBelow.perm (h : ChangedBelow ptr ptr' n d b k) (hb : b ≠ 0) (hk : k < n)
    (hnodup : (nodes ptr n (d + 1) b).Nodup) {news : List ℕ}
    (hchild : (nodes ptr' n d (ptr' b k)).Perm (news ++ nodes ptr n d (ptr b k))) :
    (nodes ptr' n (d + 1) b).Perm (news ++ nodes ptr n (d + 1) b) := by
  rw [nodes_succ hb, nodes_succ hb, ← List.append_assoc]
  apply List.Perm.append_right
  apply flatMap_perm_append List.nodup_range (List.mem_range.mpr hk) hchild
  intro j hj hne
  have hlt := List.mem_range.mp hj
  rw [h.entry j hlt hne]
  exact nodes_congr (h.sibling hb hk hnodup hlt hne)

/-- The walks which do not go through the changed subtree are the same. -/
theorem ChangedBelow.walk (h : ChangedBelow ptr ptr' n d b k) (hb : b ≠ 0) (hk : k < n)
    (hnodup : (nodes ptr n (d + 1) b).Nodup) {j : ℕ} (hj : j < n) (hne : j ≠ k)
    (hlen : ks.length = d) (hks : ∀ i ∈ ks, i < n) :
    walk ptr' b (j :: ks) = walk ptr b (j :: ks) := by
  rw [walk_cons hb, walk_cons hb, h.entry j hj hne]
  exact walk_congr hlen hks (h.sibling hb hk hnodup hj hne)

end IndexTree
