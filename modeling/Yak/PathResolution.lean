import Mathlib.Data.List.TakeWhile
import Yak.Namei

/-!
# Resolving paths without symbolic links

In a tree without links `ext2_namei` looks up the runs of bytes between the slashes, one after
the other.  At two slashes at the end of the path it looks up an empty name as well.
-/

namespace Yak.Ext2

variable {ι : Type} {t : Tree ι} {root cwd start ip : ι} {path name rest : Name} {lastDir : Bool}
  {fuel : ℕ} {s : Walker ι}

/-! ## The reference -/

/-- The maximal runs of bytes other than slashes. -/
def runs (path : Name) : List Name := (path.splitOn slash).filter (· ≠ [])

/-- The path ends with a slash. -/
def Slashed (path : Name) : Prop := path.getLast? = some slash

instance (path : Name) : Decidable (Slashed path) := inferInstanceAs (Decidable (_ = _))

/-- The names are looked up in order.  An inode which is no directory is the last, and no slash
follows it. -/
def lookups (t : Tree ι) (slashed : Bool) : ι → List Name → Except ℤ ι
  | ip, [] => if slashed = true ∧ t.kind ip ≠ .dir then .error (-enotdir) else .ok ip
  | ip, name :: names =>
      if t.kind ip ≠ .dir then .error (-enotdir)
      else
        match t.lookup ip name with
        | none => .error (-enoent)
        | some ip => lookups t slashed ip names

/-- The inode which a path means. -/
def resolve (t : Tree ι) (root cwd : ι) (path : Name) : Except ℤ ι :=
  lookups t (decide (Slashed path)) (startOf root cwd path) (runs path)

/-- `ext2_namei` comes to an end with the inode or the error of the reference. -/
def NameiAgrees [DecidableEq ι] (t : Tree ι) (root cwd : ι) (lastDir : Bool) (path : Name) : Prop :=
  ∃ fuel w, namei fuel t root cwd lastDir path = .ok w ∧ w.result = resolve t root cwd path

/-- No inode is a symbolic link. -/
def LinkFree (t : Tree ι) : Prop := ∀ ip, t.kind ip ≠ .link

/-- The caller may search all directories. -/
def MaySearchAll (t : Tree ι) : Prop := ∀ ip, t.kind ip = .dir → t.mayEnter ip = true

/-! ## Runs -/

theorem runs_append_slash (xs ys : Name) : runs (xs ++ slash :: ys) = runs xs ++ runs ys := by
  unfold runs
  rw [List.splitOn_append_cons_self, List.filter_append]

theorem runs_of_not_mem (hne : name ≠ []) (h : slash ∉ name) : runs name = [name] := by
  unfold runs
  rw [List.splitOn_eq_singleton h]
  simp [hne]

@[simp] theorem runs_nil : runs [] = [] := rfl

theorem runs_slash (ys : Name) : runs (slash :: ys) = runs ys := runs_append_slash [] ys

theorem runs_dropWhile (path : Name) : runs (path.dropWhile (· == slash)) = runs path := by
  induction path with
  | nil => rfl
  | cons c path ih =>
      rw [List.dropWhile_cons]
      split
      next hc =>
        obtain rfl := eq_of_beq hc
        rw [ih, runs_slash]
      next => rfl

theorem runs_of_name (hne : name ≠ []) (h : slash ∉ name)
    (hrest : rest = [] ∨ rest.head? = some slash) :
    runs (name ++ rest) = name :: runs rest := by
  rcases hrest with rfl | hhead
  · rw [List.append_nil, runs_of_not_mem hne h]
    rfl
  · obtain ⟨ys, rfl⟩ := List.head?_eq_some_iff.mp hhead
    rw [runs_append_slash, runs_of_not_mem hne h, runs_slash]
    rfl

/-! ## Cutting off the first run -/

theorem firstName_append (path : Name) : firstName path ++ behindName path = unslashed path :=
  List.takeWhile_append_dropWhile

theorem slash_not_mem_firstName : slash ∉ firstName path := by
  intro hmem
  have hne := List.mem_takeWhile_imp hmem
  simp at hne

theorem head_dropWhile (p : BitVec 8 → Bool) {c : BitVec 8} {cs : Name}
    (h : path.dropWhile p = c :: cs) : p c = false := by
  have hhead := List.head?_dropWhile_not p path
  rw [h] at hhead
  exact hhead

theorem head_behindName : behindName path = [] ∨ (behindName path).head? = some slash := by
  cases hcut : behindName path with
  | nil => exact Or.inl rfl
  | cons c cs =>
      have hc : (c != slash) = false := head_dropWhile (· != slash) hcut
      rw [bne_eq_false_iff_eq] at hc
      rw [hc]
      exact Or.inr rfl

theorem firstName_ne_nil (h : unslashed path ≠ []) : firstName path ≠ [] := by
  unfold firstName
  cases hcut : unslashed path with
  | nil => exact (h hcut).elim
  | cons c cs =>
      have hc : (c == slash) = false := head_dropWhile (· == slash) hcut
      rw [List.takeWhile_cons, if_pos (by rw [bne, hc]; rfl)]
      exact List.cons_ne_nil _ _

theorem exists_slashes (path : Name) :
    ∃ k, path = List.replicate k slash ++ (firstName path ++ behindName path) := by
  rw [firstName_append]
  unfold unslashed
  induction path with
  | nil => exact ⟨0, rfl⟩
  | cons c path ih =>
      rw [List.dropWhile_cons]
      split
      next hc =>
        obtain ⟨k, hk⟩ := ih
        refine ⟨k + 1, ?_⟩
        rw [List.replicate_succ, List.cons_append, ← hk, eq_of_beq hc]
      next => exact ⟨0, rfl⟩

theorem runs_eq (path : Name) :
    runs path = if unslashed path = [] then [] else firstName path :: runs (behindName path) := by
  rw [← runs_dropWhile path]
  by_cases hnil : unslashed path = []
  · rw [if_pos hnil]
    exact congrArg runs hnil
  · rw [if_neg hnil, ← runs_of_name (firstName_ne_nil hnil) slash_not_mem_firstName head_behindName,
      firstName_append]
    rfl

theorem behindName_length_lt (h : path ≠ []) : (behindName path).length < path.length := by
  obtain ⟨k, hk⟩ := exists_slashes path
  have hlen := congrArg List.length hk
  rw [List.length_append, List.length_append, List.length_replicate] at hlen
  by_cases hnil : unslashed path = []
  · have hrest : behindName path = [] := by
      unfold behindName
      rw [hnil]
      rfl
    rw [hrest]
    exact List.length_pos_iff.mpr h
  · have hname := List.length_pos_iff.mpr (firstName_ne_nil hnil)
    omega

/-! ## The end of the path -/

/-- The path ends with two slashes. -/
def DoubleSlash (path : Name) : Prop := Slashed path ∧ Slashed path.dropLast

instance (path : Name) : Decidable (DoubleSlash path) := inferInstanceAs (Decidable (_ ∧ _))

theorem not_slashed_nil : ¬Slashed [] := by
  unfold Slashed
  simp

theorem slashed_append {pre : Name} (hpre : ¬Slashed pre) :
    Slashed (pre ++ rest) ↔ Slashed rest := by
  cases rest with
  | nil => simp [hpre, not_slashed_nil]
  | cons c cs =>
      unfold Slashed
      rw [List.getLast?_append_of_ne_nil _ (List.cons_ne_nil c cs)]

theorem doubleSlash_append {pre : Name} (hpre : ¬Slashed pre) :
    DoubleSlash (pre ++ rest) ↔ DoubleSlash rest := by
  unfold DoubleSlash
  rw [slashed_append hpre]
  by_cases hnil : rest = []
  · simp [hnil, not_slashed_nil]
  · rw [List.dropLast_append_of_ne_nil hnil, slashed_append hpre]

theorem not_slashed_of_not_mem (h : slash ∉ name) : ¬Slashed name := by
  intro hlast
  exact h (List.mem_of_getLast? hlast)

theorem ends_behindName (h : unslashed path ≠ []) :
    (Slashed path ↔ Slashed (behindName path)) ∧
      (DoubleSlash path ↔ DoubleSlash (behindName path)) := by
  obtain ⟨k, hk⟩ := exists_slashes path
  have hname : ¬Slashed (List.replicate k slash ++ firstName path) := by
    unfold Slashed
    rw [List.getLast?_append_of_ne_nil _ (firstName_ne_nil h)]
    exact not_slashed_of_not_mem slash_not_mem_firstName
  rw [← List.append_assoc] at hk
  generalize behindName path = rest at hk ⊢
  rw [hk]
  exact ⟨slashed_append hname, doubleSlash_append hname⟩

theorem doubleSlash_of_unslashed (h : unslashed path = []) (hne : path ≠ [])
    (hone : path ≠ [slash]) : DoubleSlash path ∧ Slashed path := by
  obtain ⟨k, hk⟩ := exists_slashes path
  rw [firstName_append, h, List.append_nil] at hk
  have hslashed : ∀ n ≠ 0, Slashed (List.replicate n slash) := by
    intro n hn
    unfold Slashed
    rw [List.getLast?_replicate, if_neg hn]
  rcases k with _ | _ | k
  · exact (hne hk).elim
  · exact (hone hk).elim
  · rw [hk]
    have hlast := hslashed (k + 2) (by omega)
    refine ⟨⟨hlast, ?_⟩, hlast⟩
    rw [List.dropLast_replicate]
    exact hslashed (k + 1) (by omega)

/-! ## The loop -/

/-- At two slashes at the end, the empty name is looked up in what was found. -/
def withEmptyName (t : Tree ι) (path : Name) (r : Except ℤ ι) : Except ℤ ι :=
  if DoubleSlash path then
    r >>= fun ip =>
      match t.lookup ip [] with
      | none => .error (-enoent)
      | some ip => .ok ip
  else r

theorem withEmptyName_error (e : ℤ) : withEmptyName t path (.error e) = .error e := by
  unfold withEmptyName
  split <;> rfl

theorem withEmptyName_congr {path' : Name} (h : DoubleSlash path ↔ DoubleSlash path')
    (r : Except ℤ ι) : withEmptyName t path r = withEmptyName t path' r := by
  unfold withEmptyName
  simp only [h]

section Meaning

variable (hpath : path ≠ []) (hone : path ≠ [slash]) (hkind : t.kind ip = .dir)

include hpath hone hkind

theorem meaning_of_none (hnone : t.lookup ip (firstName path) = none) :
    withEmptyName t path (lookups t (decide (Slashed path)) ip (runs path)) = .error (-enoent) := by
  rw [runs_eq]
  by_cases hnil : unslashed path = []
  · have hempty : firstName path = [] := by
      unfold firstName
      rw [hnil]
      rfl
    rw [hempty] at hnone
    rw [if_pos hnil, lookups, if_neg (by simp [hkind]), withEmptyName,
      if_pos (doubleSlash_of_unslashed hnil hpath hone).1, ok_bind, hnone]
  · rw [if_neg hnil, lookups, if_neg (by simp [hkind]), hnone, withEmptyName_error]

theorem meaning_of_some {found : ι} (hsome : t.lookup ip (firstName path) = some found) :
    withEmptyName t path (lookups t (decide (Slashed path)) ip (runs path)) =
      withEmptyName t (behindName path)
        (lookups t (decide (Slashed (behindName path))) found (runs (behindName path))) := by
  rw [runs_eq]
  by_cases hnil : unslashed path = []
  · have hempty : firstName path = [] ∧ behindName path = [] := by
      unfold firstName behindName
      rw [hnil]
      exact ⟨rfl, rfl⟩
    rw [hempty.1] at hsome
    rw [if_pos hnil, lookups, if_neg (by simp [hkind]), withEmptyName,
      if_pos (doubleSlash_of_unslashed hnil hpath hone).1, ok_bind, hsome, hempty.2]
    rfl
  · obtain ⟨hslashed, hdouble⟩ := ends_behindName hnil
    rw [if_neg hnil, lookups, if_neg (by simp [hkind]), hsome, withEmptyName_congr hdouble]
    simp only [hslashed]

end Meaning

section Loop

variable [DecidableEq ι] (hfree : LinkFree t) (hsearch : MaySearchAll t)

include hfree hsearch

/-- From any place on, the loop gives what the rest of the path means. -/
theorem nameiLoop_eq (hfuel : s.path.length < fuel) :
    ∃ w, nameiLoop t root fuel lastDir start s = .ok w ∧
      w.result = withEmptyName t s.path
        (lookups t (decide (Slashed s.path)) s.ip (runs s.path)) := by
  induction fuel generalizing s with
  | zero => cases hfuel
  | succ fuel ih =>
      by_cases hpath : s.path = []
      · refine ⟨_, nameiLoop_end (Or.inl hpath), ?_⟩
        rw [hpath]
        rfl
      · cases hkind : t.kind s.ip with
        | link => exact (hfree s.ip hkind).elim
        | other =>
            refine ⟨_, nameiLoop_other hpath hkind, ?_⟩
            have hlookups : lookups t (decide (Slashed s.path)) s.ip (runs s.path) =
                .error (-enotdir) := by
              by_cases hone : s.path = [slash]
              · rw [hone]
                exact if_pos ⟨rfl, by simp [hkind]⟩
              · rw [runs_eq]
                split
                next hnil =>
                  have hslashed := (doubleSlash_of_unslashed hnil hpath hone).2
                  exact if_pos ⟨decide_eq_true hslashed, by simp [hkind]⟩
                next => exact if_pos (by simp [hkind])
            rw [hlookups, withEmptyName_error]
            rfl
        | dir =>
            by_cases hone : s.path = [slash]
            · refine ⟨_, nameiLoop_end (Or.inr ⟨hone, by simp [hkind]⟩), ?_⟩
              rw [hone]
              have hlookups : lookups t (decide (Slashed [slash])) s.ip (runs [slash]) = .ok s.ip :=
                if_neg (by simp [hkind])
              rw [hlookups]
              rfl
            · have hshort := behindName_length_lt hpath
              rw [nameiLoop_dir hpath hone hkind]
              cases hfound : t.lookup s.ip (firstName s.path) with
              | none =>
                  rw [advance_none hkind (hsearch _ hkind) hfound]
                  exact ⟨_, rfl, (meaning_of_none hpath hone hkind hfound).symm⟩
              | some ip =>
                  rw [advance_some hkind (hsearch _ hkind) hfound,
                    meaning_of_some hpath hone hkind hfound]
                  exact ih (show (behindName s.path).length < fuel by omega)

/-- The result is that of the reference exactly if, at two slashes at the end, the empty name
leads from the directory which was found to itself. -/
theorem nameiAgrees_iff : NameiAgrees t root cwd lastDir path ↔
    ∀ ip, DoubleSlash path → resolve t root cwd path = .ok ip → t.lookup ip [] = some ip := by
  have hloop : ∃ w, namei (path.length + 1) t root cwd lastDir path = .ok w ∧
      w.result = withEmptyName t path (resolve t root cwd path) :=
    nameiLoop_eq hfree hsearch (Nat.lt_succ_self path.length)
  obtain ⟨w, hrun, hmeaning⟩ := hloop
  have hagrees : NameiAgrees t root cwd lastDir path ↔ w.result = resolve t root cwd path := by
    constructor
    · rintro ⟨fuel, w', hrun', hw'⟩
      rwa [nameiLoop_unique hrun hrun']
    · exact fun h => ⟨path.length + 1, w, hrun, h⟩
  rw [hagrees, hmeaning]
  unfold withEmptyName
  by_cases hdouble : DoubleSlash path
  · rw [if_pos hdouble]
    cases hresolve : resolve t root cwd path with
    | error e => simp
    | ok ip =>
        rw [ok_bind]
        cases hfound : t.lookup ip [] <;> simp [hdouble, hfound]
  · rw [if_neg hdouble]
    exact iff_of_true rfl fun ip hin => (hdouble hin).elim

end Loop

/-! ## A small tree -/

/-- The root 0, the directory 1 under the name `a`, and in it the file 2 under the name `f`. -/
def smallTree : Tree ℕ where
  kind ip := if ip = 2 then .other else .dir
  mayEnter _ := true
  lookup ip name :=
    if ip = 0 ∧ name = [0x61#8] then some 1
    else if ip = 1 ∧ name = [0x66#8] then some 2
    else none
  text _ := []

theorem linkFree_smallTree : LinkFree smallTree := by
  intro ip
  unfold smallTree
  dsimp only
  split <;> simp

/-- From `a`, the file is found by `//a//f`. -/
theorem nameiAgrees_smallTree :
    NameiAgrees smallTree 0 1 true [slash, slash, 0x61#8, slash, slash, 0x66#8] :=
  (nameiAgrees_iff linkFree_smallTree fun _ _ => rfl).mpr fun _ hdouble =>
    absurd hdouble (by decide)

/-- Neither `a//` nor `//` is found. -/
theorem not_nameiAgrees_smallTree :
    ¬∀ (t : Tree ℕ) (root cwd : ℕ) (lastDir : Bool) (path : Name), LinkFree t → MaySearchAll t →
      NameiAgrees t root cwd lastDir path := by
  intro hall
  obtain ⟨fuel, w, hrun, hw⟩ :=
    hall smallTree 0 0 false [0x61#8, slash, slash] linkFree_smallTree fun _ _ => rfl
  have hresolve : resolve smallTree 0 0 [0x61#8, slash, slash] = .ok 1 := by decide
  have hnamei : (namei 3 smallTree 0 0 false [0x61#8, slash, slash]).map Outcome.result =
      .ok (.error (-enoent)) := by decide
  cases hthree : namei 3 smallTree 0 0 false [0x61#8, slash, slash] with
  | error e =>
      rw [hthree] at hnamei
      cases hnamei
  | ok w' =>
      rw [hthree] at hnamei
      obtain rfl := nameiLoop_unique hrun hthree
      have hresult : w.result = .error (-enoent) := Except.ok.inj hnamei
      rw [hw, hresolve] at hresult
      cases hresult

end Yak.Ext2
