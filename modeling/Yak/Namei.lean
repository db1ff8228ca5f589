import Yak.DirEmpty

/-!
# From a path to an inode

A transcription of `ext2_namei`.  The inodes of a file system are taken as a tree, with the names
which `find_entry` finds in them and the texts of the symbolic links.  The counts of the inodes
are left out: where the routine forgets one, it holds too many.  A path ends where its list ends.
-/

namespace Yak.Ext2

/-- What `ext2_namei` tells apart in `i_mode`. -/
inductive Kind where
  | dir
  | link
  | other
  deriving DecidableEq

/-- The inodes of a file system, as `ext2_namei` sees them. -/
structure Tree (ι : Type) where
  kind : ι → Kind
  /-- `ext2_permission` with `PERM_SRCH` -/
  mayEnter : ι → Bool
  /-- `find_entry`, which searches whatever it is given -/
  lookup : ι → Name → Option ι
  /-- The string which `ext2_follow_symlink` hands to `ext2_namei`. -/
  text : ι → Name

def slash : BitVec 8 := 0x2F#8

instance (name : Name) : Decidable (slash ∈ name) := inferInstance

def eloop : ℤ := 31

/-- `EXT2_MAX_SYMLINKS` -/
def maxSymlinks : ℕ := 5

/-- What the loop of `ext2_namei` holds.  Here `prev` is `*last_dir` when the caller asks for it,
and `prev_dir` otherwise, and `searched` are the inodes given to `find_entry` so far. -/
structure Walker (ι : Type) where
  ip : ι
  prev : ι
  /-- `p1` -/
  path : Name
  symlinks : ℕ
  base : Option Name
  searched : List ι

/-- The end of `ext2_namei`: the inode or the error code, the counter of links, `*base` and
`*last_dir`. -/
structure Outcome (ι : Type) where
  result : Except ℤ ι
  symlinks : ℕ
  base : Option Name
  dir : ι
  searched : List ι

section

variable {ι : Type} [DecidableEq ι]

def Walker.stop (s : Walker ι) (result : Except ℤ ι) (symlinks : ℕ) : Outcome ι :=
  ⟨result, symlinks, s.base, s.prev, s.searched⟩

/-- The inode at which a path begins. -/
def startOf (root cwd : ι) (path : Name) : ι := if path.head? = some slash then root else cwd

def Walker.begin (start : ι) (path : Name) : Walker ι := ⟨start, start, path, 0, none, []⟩

/-- What is left behind leading slashes. -/
def unslashed (path : Name) : Name := path.dropWhile (· == slash)

/-- The first run of bytes other than slashes. -/
def firstName (path : Name) : Name := (unslashed path).takeWhile (· != slash)

/-- What is left behind the first run. -/
def behindName (path : Name) : Name := (unslashed path).dropWhile (· != slash)

/-- The pointers are moved over the next name, and the inode becomes the last directory. -/
def Walker.pass (start : ι) (s : Walker ι) : Walker ι :=
  { s with
    prev := if s.ip ≠ start then s.ip else s.prev
    path := behindName s.path
    base := some (unslashed s.path)
    searched := s.searched ++ [s.ip] }

/-- The loop from the call of `ext2_permission` on.  When the caller asks for `*last_dir`,
`prev_dir` is NULL. -/
def advance (t : Tree ι) (lastDir : Bool) (start : ι) (s : Walker ι) :
    Except Halt (Outcome ι ⊕ Walker ι) :=
  if t.mayEnter s.ip = false then .ok (.inl (s.stop (.error (-eacces)) 0))
  else if s.ip ≠ start ∧ lastDir = true ∧ t.kind s.ip ≠ .dir then .error .nullDeref
  else
    match t.lookup s.ip (firstName s.path) with
    | none => .ok (.inl ((s.pass start).stop (.error (-enoent)) 0))
    | some ip => .ok (.inr { s.pass start with ip })

/-- The loop of `ext2_namei`.  A link is followed by a call of the routine for its text, which
begins with a counter of 0. -/
def nameiLoop (t : Tree ι) (root : ι) :
    (fuel : ℕ) → (lastDir : Bool) → (start : ι) → Walker ι → Except Halt (Outcome ι)
  | 0, _, _, _ => .error .endless
  | fuel + 1, lastDir, start, s =>
      if s.path ≠ [] ∧ t.kind s.ip = .other then .ok (s.stop (.error (-enotdir)) s.symlinks)
      else if s.path = [] ∨ s.path = [slash] then .ok (s.stop (.ok s.ip) 0)
      else if t.kind s.ip = .link then
        if maxSymlinks ≤ s.symlinks then .ok (s.stop (.error (-eloop)) 0)
        else do
          let first := startOf root s.prev (t.text s.ip)
          let w ← nameiLoop t root fuel false first (Walker.begin first (t.text s.ip))
          let s := { s with symlinks := w.symlinks, searched := s.searched ++ w.searched }
          match w.result with
          | .error e => if lastDir then .error .nullDeref else .ok (s.stop (.error e) 0)
          | .ok dp =>
              advance t lastDir start { s with ip := dp, symlinks := s.symlinks + 1 } >>=
                Sum.elim .ok (nameiLoop t root fuel lastDir start)
      else advance t lastDir start s >>= Sum.elim .ok (nameiLoop t root fuel lastDir start)

/-- `ext2_namei` -/
def namei (fuel : ℕ) (t : Tree ι) (root cwd : ι) (lastDir : Bool) (path : Name) :
    Except Halt (Outcome ι) :=
  let start := startOf root cwd path
  nameiLoop t root fuel lastDir start (Walker.begin start path)

/-! ## Turns of the loop -/

variable {t : Tree ι} {root start ip : ι} {lastDir : Bool} {fuel : ℕ} {s : Walker ι}

theorem nameiLoop_other (hpath : s.path ≠ []) (hkind : t.kind s.ip = .other) :
    nameiLoop t root (fuel + 1) lastDir start s =
      .ok (s.stop (.error (-enotdir)) s.symlinks) := by
  rw [nameiLoop, if_pos ⟨hpath, hkind⟩]

theorem nameiLoop_end (h : s.path = [] ∨ s.path = [slash] ∧ t.kind s.ip ≠ .other) :
    nameiLoop t root (fuel + 1) lastDir start s = .ok (s.stop (.ok s.ip) 0) := by
  rw [nameiLoop, if_neg, if_pos (h.imp_right And.left)]
  rintro ⟨hpath, hkind⟩
  exact h.elim hpath fun hlast => hlast.2 hkind

theorem nameiLoop_dir (hpath : s.path ≠ []) (hslash : s.path ≠ [slash])
    (hkind : t.kind s.ip = .dir) :
    nameiLoop t root (fuel + 1) lastDir start s =
      advance t lastDir start s >>= Sum.elim .ok (nameiLoop t root fuel lastDir start) := by
  rw [nameiLoop, hkind, if_neg (by simp), if_neg (not_or.mpr ⟨hpath, hslash⟩), if_neg (by simp)]

section Link

variable {w : Outcome ι} (hpath : s.path ≠ [] ∧ s.path ≠ [slash]) (hkind : t.kind s.ip = .link)
  (hcount : s.symlinks < maxSymlinks)
  (hnested : namei fuel t root s.prev false (t.text s.ip) = .ok w)

include hpath hkind hcount hnested

theorem nameiLoop_follow (hresult : w.result = .ok ip) :
    nameiLoop t root (fuel + 1) lastDir start s =
      advance t lastDir start
          { s with ip, symlinks := w.symlinks + 1, searched := s.searched ++ w.searched } >>=
        Sum.elim .ok (nameiLoop t root fuel lastDir start) := by
  unfold namei at hnested
  dsimp only at hnested
  rw [nameiLoop, hkind, if_neg (by simp), if_neg (not_or.mpr hpath), if_pos rfl,
    if_neg (Nat.not_le.mpr hcount)]
  dsimp only
  rw [hnested, ok_bind, hresult]

theorem nameiLoop_broken {e : ℤ} (hresult : w.result = .error e) :
    nameiLoop t root (fuel + 1) lastDir start s =
      if lastDir then .error .nullDeref
      else .ok (({ s with symlinks := w.symlinks, searched := s.searched ++ w.searched } :
        Walker ι).stop (.error e) 0) := by
  unfold namei at hnested
  dsimp only at hnested
  rw [nameiLoop, hkind, if_neg (by simp), if_neg (not_or.mpr hpath), if_pos rfl,
    if_neg (Nat.not_le.mpr hcount)]
  dsimp only
  rw [hnested, ok_bind, hresult]

end Link

theorem advance_denied (henter : t.mayEnter s.ip = false) :
    advance t lastDir start s = .ok (.inl (s.stop (.error (-eacces)) 0)) := by
  rw [advance, if_pos henter]

section Enter

variable (hkind : t.kind s.ip = .dir) (henter : t.mayEnter s.ip = true)

include hkind henter

theorem advance_none (hnone : t.lookup s.ip (firstName s.path) = none) :
    advance t lastDir start s = .ok (.inl ((s.pass start).stop (.error (-enoent)) 0)) := by
  rw [advance, henter, if_neg (by simp), if_neg fun hall => hall.2.2 hkind, hnone]

theorem advance_some (hsome : t.lookup s.ip (firstName s.path) = some ip) :
    advance t lastDir start s = .ok (.inr { s.pass start with ip }) := by
  rw [advance, henter, if_neg (by simp), if_neg fun hall => hall.2.2 hkind, hsome]

end Enter

/-! ## Error codes -/

theorem advance_error {e : ℤ} {w : Outcome ι} (h : advance t lastDir start s = .ok (.inl w))
    (hresult : w.result = .error e) : e < 0 := by
  unfold advance at h
  split at h
  next =>
    obtain rfl := Sum.inl.inj (Except.ok.inj h)
    rw [← Except.error.inj hresult]
    decide
  next =>
    split at h
    next => cases h
    next =>
      split at h
      next =>
        obtain rfl := Sum.inl.inj (Except.ok.inj h)
        rw [← Except.error.inj hresult]
        decide
      next => cases Except.ok.inj h

theorem nameiLoop_error {e : ℤ} {w : Outcome ι}
    (h : nameiLoop t root fuel lastDir start s = .ok w) (hresult : w.result = .error e) :
    e < 0 := by
  induction fuel generalizing lastDir start s w with
  | zero => cases h
  | succ fuel ih =>
      have hadvance : ∀ s', advance t lastDir start s' >>=
          Sum.elim .ok (nameiLoop t root fuel lastDir start) = .ok w → e < 0 := by
        intro s' hrun
        obtain ⟨y, hy, hrest⟩ := bind_eq_ok.mp hrun
        cases y with
        | inl w' =>
            obtain rfl := Except.ok.inj hrest
            exact advance_error hy hresult
        | inr s'' => exact ih hrest hresult
      rw [nameiLoop] at h
      split at h
      next =>
        obtain rfl := Except.ok.inj h
        rw [← Except.error.inj hresult]
        decide
      next =>
        split at h
        next =>
          obtain rfl := Except.ok.inj h
          cases hresult
        next =>
          split at h
          next =>
            split at h
            next =>
              obtain rfl := Except.ok.inj h
              rw [← Except.error.inj hresult]
              decide
            next =>
              obtain ⟨nested, hnested, hrest⟩ := bind_eq_ok.mp h
              dsimp only at hnested hrest
              cases hdp : nested.result with
              | error e' =>
                  rw [hdp] at hrest
                  dsimp only at hrest
                  split at hrest
                  next => cases hrest
                  next =>
                    obtain rfl := Except.ok.inj hrest
                    obtain rfl := Except.error.inj hresult
                    exact ih hnested hdp
              | ok dp =>
                  rw [hdp] at hrest
                  exact hadvance _ hrest
          next => exact hadvance _ h

/-! ## More fuel -/

theorem elim_mono {α β : Type} {x : Except Halt (α ⊕ β)} {f g : β → Except Halt α} {a : α}
    (hfg : ∀ b a, f b = .ok a → g b = .ok a) (h : x >>= Sum.elim .ok f = .ok a) :
    x >>= Sum.elim .ok g = .ok a := by
  obtain ⟨y, rfl, hy⟩ := bind_eq_ok.mp h
  cases y with
  | inl a' => exact hy
  | inr b => exact hfg b a hy

theorem nameiLoop_succ {w : Outcome ι} (h : nameiLoop t root fuel lastDir start s = .ok w) :
    nameiLoop t root (fuel + 1) lastDir start s = .ok w := by
  induction fuel generalizing lastDir start s w with
  | zero => cases h
  | succ fuel ih =>
      have hmono : ∀ b a, nameiLoop t root fuel lastDir start b = .ok a →
          nameiLoop t root (fuel + 1) lastDir start b = .ok a := fun _ _ => ih
      rw [nameiLoop] at h ⊢
      split at h
      next hother => rwa [if_pos hother]
      next hother =>
        rw [if_neg hother]
        split at h
        next hend => rwa [if_pos hend]
        next hend =>
          rw [if_neg hend]
          split at h
          next hlink =>
            rw [if_pos hlink]
            split at h
            next hmax => rwa [if_pos hmax]
            next hmax =>
              rw [if_neg hmax]
              obtain ⟨nested, hnested, hrest⟩ := bind_eq_ok.mp h
              dsimp only at hnested hrest ⊢
              rw [ih hnested, ok_bind]
              cases hresult : nested.result with
              | error e =>
                  rw [hresult] at hrest
                  exact hrest
              | ok dp =>
                  rw [hresult] at hrest
                  exact elim_mono hmono hrest
          next hlink =>
            rw [if_neg hlink]
            exact elim_mono hmono h

theorem nameiLoop_mono {w : Outcome ι} {fuel' : ℕ}
    (h : nameiLoop t root fuel lastDir start s = .ok w) (hle : fuel ≤ fuel') :
    nameiLoop t root fuel' lastDir start s = .ok w := by
  induction hle with
  | refl => exact h
  | step _ ih => exact nameiLoop_succ ih

theorem nameiLoop_unique {w w' : Outcome ι} {fuel' : ℕ}
    (h : nameiLoop t root fuel lastDir start s = .ok w)
    (h' : nameiLoop t root fuel' lastDir start s = .ok w') : w = w' := by
  have hmax := nameiLoop_mono h (le_max_left fuel fuel')
  rw [nameiLoop_mono h' (le_max_right fuel fuel')] at hmax
  exact (Except.ok.inj hmax).symm

end

end Yak.Ext2
