import Yak.FileCreation
import Yak.SymlinkCycles

/-!
# Walks along paths

A transcription of `ext2_namei` with `*last_dir_bp`, and with searches which do not come to an end
because a record has a length of 0.  A call which comes back is a walk along the path, a relation
without fuel and without the counter of links, which never counts to its limit.
-/

namespace Yak.Ext2

/-- A pointer to a buffer, which may have been left without a value. -/
inductive Bp where
  | unset
  | null
  | block (b : ℕ)
  deriving DecidableEq

/-- The inodes of a file system with the searches of `find_entry`. -/
structure Searches (ι : Type) extends Tree ι where
  /-- The search comes to an end. -/
  ends : ι → Name → Bool
  /-- What the search makes of `*last_dir_bp`. -/
  buffer : ι → Name → Bp → Bp

variable {ι : Type}

section Run

variable [DecidableEq ι]

namespace Searches

/-- The loop from the call of `ext2_permission` on. -/
def advance (r : Searches ι) (lastDir : Bool) (start : ι) (s : Walker ι) (bp : Bp) :
    Except Halt ((Outcome ι × Bp) ⊕ (Walker ι × Bp)) :=
  if r.mayEnter s.ip = false then .ok (.inl (s.stop (.error (-eacces)) 0, bp))
  else if s.ip ≠ start ∧ lastDir = true ∧ r.kind s.ip ≠ .dir then .error .nullDeref
  else if r.ends s.ip (firstName s.path) = false then .error .endless
  else
    let bp := r.buffer s.ip (firstName s.path) bp
    match r.lookup s.ip (firstName s.path) with
    | none => .ok (.inl ((s.pass start).stop (.error (-enoent)) 0, bp))
    | some ip => .ok (.inr ({ s.pass start with ip }, bp))

/-- The loop of `ext2_namei`. -/
def loop (r : Searches ι) (root : ι) :
    (fuel : ℕ) → (lastDir : Bool) → (start : ι) → Walker ι → Bp → Except Halt (Outcome ι × Bp)
  | 0, _, _, _, _ => .error .endless
  | fuel + 1, lastDir, start, s, bp =>
      if s.path ≠ [] ∧ r.kind s.ip = .other then
        .ok (s.stop (.error (-enotdir)) s.symlinks, bp)
      else if s.path = [] ∨ s.path = [slash] then .ok (s.stop (.ok s.ip) 0, bp)
      else if r.kind s.ip = .link then
        if maxSymlinks ≤ s.symlinks then .ok (s.stop (.error (-eloop)) 0, bp)
        else do
          let first := startOf root s.prev (r.text s.ip)
          -- the call for the text has no pointer to a buffer
          let (w, _) ← r.loop root fuel false first (Walker.begin first (r.text s.ip)) .unset
          let s := { s with symlinks := w.symlinks, searched := s.searched ++ w.searched }
          match w.result with
          | .error e => if lastDir then .error .nullDeref else .ok (s.stop (.error e) 0, bp)
          | .ok dp =>
              r.advance lastDir start { s with ip := dp, symlinks := s.symlinks + 1 } bp >>=
                Sum.elim .ok fun next => r.loop root fuel lastDir start next.1 next.2
      else r.advance lastDir start s bp >>=
        Sum.elim .ok fun next => r.loop root fuel lastDir start next.1 next.2

/-- `ext2_namei` -/
def namei (fuel : ℕ) (r : Searches ι) (root cwd : ι) (lastDir : Bool) (path : Name) (bp : Bp) :
    Except Halt (Outcome ι × Bp) :=
  let start := startOf root cwd path
  r.loop root fuel lastDir start (Walker.begin start path) bp

variable {r : Searches ι} {root start : ι} {lastDir : Bool} {fuel : ℕ} {s : Walker ι} {bp bp' : Bp}
  {w : Outcome ι}

/-! ## The transcription without buffers -/

theorem advance_toTree {y : (Outcome ι × Bp) ⊕ (Walker ι × Bp)}
    (h : r.advance lastDir start s bp = .ok y) :
    Ext2.advance r.toTree lastDir start s = .ok (y.map Prod.fst Prod.fst) := by
  unfold advance at h
  unfold Ext2.advance
  split at h
  next henter =>
    obtain rfl := Except.ok.inj h
    exact if_pos henter
  next henter =>
    refine (if_neg henter).trans ?_
    split at h
    next => cases h
    next hsearch =>
      refine (if_neg hsearch).trans ?_
      split at h
      next => cases h
      next =>
        dsimp only at h
        cases hfound : r.lookup s.ip (firstName s.path) with
        | none =>
            rw [hfound] at h
            obtain rfl := Except.ok.inj h
            rfl
        | some ip =>
            rw [hfound] at h
            obtain rfl := Except.ok.inj h
            rfl

/-- A call which comes back does what the transcription for trees says. -/
theorem loop_toTree (h : r.loop root fuel lastDir start s bp = .ok (w, bp')) :
    nameiLoop r.toTree root fuel lastDir start s = .ok w := by
  induction fuel generalizing lastDir start s bp bp' w with
  | zero => cases h
  | succ fuel ih =>
      have hadvance : ∀ s', r.advance lastDir start s' bp >>=
          Sum.elim .ok (fun next => r.loop root fuel lastDir start next.1 next.2) = .ok (w, bp') →
          Ext2.advance r.toTree lastDir start s' >>=
            Sum.elim .ok (nameiLoop r.toTree root fuel lastDir start) = .ok w := by
        intro s' hrun
        obtain ⟨y, hy, hrest⟩ := bind_eq_ok.mp hrun
        rw [advance_toTree hy, ok_bind]
        cases y with
        | inl ended =>
            obtain rfl := Except.ok.inj hrest
            rfl
        | inr next => exact ih hrest
      rw [loop] at h
      rw [nameiLoop]
      split at h
      next hother =>
        obtain ⟨rfl, -⟩ := Prod.mk.inj (Except.ok.inj h)
        exact if_pos hother
      next hother =>
        refine (if_neg hother).trans ?_
        split at h
        next hend =>
          obtain ⟨rfl, -⟩ := Prod.mk.inj (Except.ok.inj h)
          exact if_pos hend
        next hend =>
          refine (if_neg hend).trans ?_
          split at h
          next hlink =>
            refine (if_pos hlink).trans ?_
            split at h
            next hmax =>
              obtain ⟨rfl, -⟩ := Prod.mk.inj (Except.ok.inj h)
              exact if_pos hmax
            next hmax =>
              refine (if_neg hmax).trans ?_
              obtain ⟨⟨nested, last⟩, hnested, hrest⟩ := bind_eq_ok.mp h
              dsimp only at hnested hrest ⊢
              rw [ih hnested, ok_bind]
              cases hresult : nested.result with
              | error e =>
                  rw [hresult] at hrest
                  dsimp only at hrest ⊢
                  split at hrest
                  next => cases hrest
                  next hmode =>
                    obtain ⟨rfl, -⟩ := Prod.mk.inj (Except.ok.inj hrest)
                    exact if_neg hmode
              | ok dp =>
                  rw [hresult] at hrest
                  exact hadvance _ hrest
          next hlink => exact (if_neg hlink).trans (hadvance s h)

end Searches

/-! ## Walks -/

/-- Where a walk is: the inode, the last directory, the rest of the path and `*base`. -/
structure Place (ι : Type) where
  ip : ι
  prev : ι
  path : Name
  base : Option Name

/-- What a call of `ext2_namei` leaves to its caller, beside `*last_dir_bp`. -/
structure WalkEnd (ι : Type) where
  result : Except ℤ ι
  base : Option Name
  dir : ι

def Place.begin (start : ι) (path : Name) : Place ι := ⟨start, start, path, none⟩

def Place.stop (p : Place ι) (result : Except ℤ ι) : WalkEnd ι := ⟨result, p.base, p.prev⟩

/-- The next name has been given to `find_entry`. -/
def Place.pass (start : ι) (p : Place ι) : Place ι where
  ip := p.ip
  prev := if p.ip ≠ start then p.ip else p.prev
  path := behindName p.path
  base := some (unslashed p.path)

/-- What is searched next, and for which name. -/
def Place.search (p : Place ι) : ι × Name := (p.ip, firstName p.path)

/-- A walk which comes to its end, with its own searches.  What a link leads to is searched, be it
a directory or not, unless the caller asks for `*last_dir` and it is not the inode of the start. -/
inductive Walk (r : Searches ι) (root : ι) :
    Phase → Bool → ι → Place ι → List (ι × Name) → WalkEnd ι → Prop
  | other {lastDir : Bool} {start : ι} {p : Place ι}
      (hpath : p.path ≠ []) (hkind : r.kind p.ip = .other) :
      Walk r root .arrive lastDir start p [] (p.stop (.error (-enotdir)))
  | done {lastDir : Bool} {start : ι} {p : Place ι}
      (hend : p.path = [] ∨ p.path = [slash] ∧ r.kind p.ip ≠ .other) :
      Walk r root .arrive lastDir start p [] (p.stop (.ok p.ip))
  | dir {lastDir : Bool} {start : ι} {p : Place ι} {looked : List (ι × Name)} {e : WalkEnd ι}
      (hpath : p.path ≠ [] ∧ p.path ≠ [slash]) (hkind : r.kind p.ip = .dir)
      (hrest : Walk r root .enter lastDir start p looked e) :
      Walk r root .arrive lastDir start p looked e
  | broken {start : ι} {p : Place ι} {inner : List (ι × Name)} {w : WalkEnd ι} {err : ℤ}
      (hpath : p.path ≠ [] ∧ p.path ≠ [slash]) (hkind : r.kind p.ip = .link)
      (hnested : Walk r root .arrive false (startOf root p.prev (r.text p.ip))
        (Place.begin (startOf root p.prev (r.text p.ip)) (r.text p.ip)) inner w)
      (hresult : w.result = .error err) :
      Walk r root .arrive false start p [] (p.stop (.error err))
  | follow {lastDir : Bool} {start dp : ι} {p : Place ι} {inner looked : List (ι × Name)}
      {w e : WalkEnd ι}
      (hpath : p.path ≠ [] ∧ p.path ≠ [slash]) (hkind : r.kind p.ip = .link)
      (hnested : Walk r root .arrive false (startOf root p.prev (r.text p.ip))
        (Place.begin (startOf root p.prev (r.text p.ip)) (r.text p.ip)) inner w)
      (hresult : w.result = .ok dp)
      (hrest : Walk r root .enter lastDir start { p with ip := dp } looked e) :
      Walk r root .arrive lastDir start p looked e
  | denied {lastDir : Bool} {start : ι} {p : Place ι} (henter : r.mayEnter p.ip = false) :
      Walk r root .enter lastDir start p [] (p.stop (.error (-eacces)))
  | absent {lastDir : Bool} {start : ι} {p : Place ι} (henter : r.mayEnter p.ip = true)
      (hsearch : p.ip ≠ start → lastDir = true → r.kind p.ip = .dir)
      (hends : r.ends p.ip (firstName p.path) = true)
      (hnone : r.lookup p.ip (firstName p.path) = none) :
      Walk r root .enter lastDir start p [p.search] ((p.pass start).stop (.error (-enoent)))
  | found {lastDir : Bool} {start next : ι} {p : Place ι} {looked : List (ι × Name)}
      {e : WalkEnd ι} (henter : r.mayEnter p.ip = true)
      (hsearch : p.ip ≠ start → lastDir = true → r.kind p.ip = .dir)
      (hends : r.ends p.ip (firstName p.path) = true)
      (hsome : r.lookup p.ip (firstName p.path) = some next)
      (hrest : Walk r root .arrive lastDir start { p.pass start with ip := next } looked e) :
      Walk r root .enter lastDir start p (p.search :: looked) e

/-- The walk along a path for a caller who asks for `*last_dir`. -/
def WalksTo (r : Searches ι) (root cwd : ι) (path : Name) (looked : List (ι × Name))
    (e : WalkEnd ι) : Prop :=
  Walk r root .arrive true (startOf root cwd path) (Place.begin (startOf root cwd path) path)
    looked e

/-- The walk along the text of a link. -/
def FollowsTo (r : Searches ι) (root cwd : ι) (text : Name) (looked : List (ι × Name))
    (e : WalkEnd ι) : Prop :=
  Walk r root .arrive false (startOf root cwd text) (Place.begin (startOf root cwd text) text)
    looked e

/-- `*last_dir_bp` behind some searches. -/
def Searches.bufferBehind (r : Searches ι) (looked : List (ι × Name)) (bp : Bp) : Bp :=
  looked.foldl (fun bp x => r.buffer x.1 x.2 bp) bp

/-! ## From a walk to a run -/

def placeOf (s : Walker ι) : Place ι := ⟨s.ip, s.prev, s.path, s.base⟩

def endOf (w : Outcome ι) : WalkEnd ι := ⟨w.result, w.base, w.dir⟩

namespace Searches

/-- The run from a phase on. -/
def runFrom (r : Searches ι) (root : ι) (phase : Phase) (fuel : ℕ) (lastDir : Bool) (start : ι)
    (s : Walker ι) (bp : Bp) : Except Halt (Outcome ι × Bp) :=
  match phase with
  | .arrive => r.loop root fuel lastDir start s bp
  | .enter => r.advance lastDir start s bp >>=
      Sum.elim .ok fun next => r.loop root fuel lastDir start next.1 next.2

variable {r : Searches ι} {root start ip : ι} {lastDir : Bool} {fuel : ℕ} {s : Walker ι} {bp : Bp}

theorem loop_other (hpath : s.path ≠ []) (hkind : r.kind s.ip = .other) :
    r.loop root (fuel + 1) lastDir start s bp =
      .ok (s.stop (.error (-enotdir)) s.symlinks, bp) := by
  rw [loop, if_pos ⟨hpath, hkind⟩]

theorem loop_end (h : s.path = [] ∨ s.path = [slash] ∧ r.kind s.ip ≠ .other) :
    r.loop root (fuel + 1) lastDir start s bp = .ok (s.stop (.ok s.ip) 0, bp) := by
  rw [loop, if_neg, if_pos (h.imp_right And.left)]
  rintro ⟨hpath, hkind⟩
  exact h.elim hpath fun hlast => hlast.2 hkind

theorem loop_dir (hpath : s.path ≠ [] ∧ s.path ≠ [slash]) (hkind : r.kind s.ip = .dir) :
    r.loop root (fuel + 1) lastDir start s bp =
      r.runFrom root .enter fuel lastDir start s bp := by
  rw [loop, hkind, if_neg (by simp), if_neg (not_or.mpr hpath), if_neg (by simp)]
  rfl

section Link

variable {w : Outcome ι} {last : Bp} (hpath : s.path ≠ [] ∧ s.path ≠ [slash])
  (hkind : r.kind s.ip = .link) (hcount : s.symlinks < maxSymlinks)
  (hnested : r.namei fuel root s.prev false (r.text s.ip) .unset = .ok (w, last))

include hpath hkind hcount hnested

theorem loop_follow (hresult : w.result = .ok ip) :
    r.loop root (fuel + 1) lastDir start s bp =
      r.runFrom root .enter fuel lastDir start
        { s with ip, symlinks := w.symlinks + 1, searched := s.searched ++ w.searched } bp := by
  unfold Searches.namei at hnested
  dsimp only at hnested
  rw [loop, hkind, if_neg (by simp), if_neg (not_or.mpr hpath), if_pos rfl,
    if_neg (Nat.not_le.mpr hcount)]
  dsimp only
  rw [hnested, ok_bind]
  dsimp only
  rw [hresult]
  rfl

theorem loop_broken {e : ℤ} (hresult : w.result = .error e) :
    r.loop root (fuel + 1) false start s bp =
      .ok (({ s with symlinks := w.symlinks, searched := s.searched ++ w.searched } :
        Walker ι).stop (.error e) 0, bp) := by
  unfold Searches.namei at hnested
  dsimp only at hnested
  rw [loop, hkind, if_neg (by simp), if_neg (not_or.mpr hpath), if_pos rfl,
    if_neg (Nat.not_le.mpr hcount)]
  dsimp only
  rw [hnested, ok_bind]
  dsimp only
  rw [hresult]
  rfl

end Link

theorem runFrom_denied (henter : r.mayEnter s.ip = false) :
    r.runFrom root .enter fuel lastDir start s bp =
      .ok (s.stop (.error (-eacces)) 0, bp) := by
  unfold runFrom advance
  dsimp only
  rw [if_pos henter]
  rfl

section Search

variable (henter : r.mayEnter s.ip = true)
  (hsearch : s.ip ≠ start → lastDir = true → r.kind s.ip = .dir)
  (hends : r.ends s.ip (firstName s.path) = true)

include henter hsearch hends

theorem runFrom_absent (hnone : r.lookup s.ip (firstName s.path) = none) :
    r.runFrom root .enter fuel lastDir start s bp =
      .ok ((s.pass start).stop (.error (-enoent)) 0, r.buffer s.ip (firstName s.path) bp) := by
  unfold runFrom advance
  dsimp only
  rw [henter, if_neg (by simp), if_neg fun hall => hall.2.2 (hsearch hall.1 hall.2.1), hends,
    if_neg (by simp), hnone]
  rfl

theorem runFrom_found (hsome : r.lookup s.ip (firstName s.path) = some ip) :
    r.runFrom root .enter fuel lastDir start s bp =
      r.loop root fuel lastDir start { s.pass start with ip }
        (r.buffer s.ip (firstName s.path) bp) := by
  unfold runFrom advance
  dsimp only
  rw [henter, if_neg (by simp), if_neg fun hall => hall.2.2 (hsearch hall.1 hall.2.1), hends,
    if_neg (by simp), hsome]
  rfl

end Search

/-- A run which comes back has gone as the walk does. -/
structure Goes (e : WalkEnd ι) (w : Outcome ι) : Prop where
  same : endOf w = e
  counter : ∀ ip, w.result = .ok ip → w.symlinks = 0

omit [DecidableEq ι] in
theorem goes_stop (p : Place ι) (result : Except ℤ ι) (n : ℕ) (searched : List ι) :
    Goes (p.stop result) (Walker.stop ⟨p.ip, p.prev, p.path, n, p.base, searched⟩ result 0) :=
  ⟨rfl, fun _ _ => rfl⟩

omit [DecidableEq ι] in
theorem goes_error (p : Place ι) (err : ℤ) (n : ℕ) (searched : List ι) :
    Goes (p.stop (.error err))
      (Walker.stop ⟨p.ip, p.prev, p.path, n, p.base, searched⟩ (.error err) n) :=
  ⟨rfl, fun _ h => by cases h⟩

/-- With enough fuel, the code goes along the walk. -/
theorem run_of_walk {phase : Phase} {p : Place ι} {looked : List (ι × Name)} {e : WalkEnd ι}
    (h : Walk r root phase lastDir start p looked e) :
    ∃ least, ∀ n ≤ 1, ∀ searched, ∃ w, Goes e w ∧ ∀ bp fuel, least ≤ fuel →
      r.runFrom root phase fuel lastDir start ⟨p.ip, p.prev, p.path, n, p.base, searched⟩ bp =
        .ok (w, r.bufferBehind looked bp) := by
  have hcount : ∀ n ≤ 1, n < maxSymlinks := by decide
  induction h with
  | other hpath hkind =>
      refine ⟨1, fun n hn searched => ⟨_, goes_error _ _ n searched, fun bp fuel hfuel => ?_⟩⟩
      obtain ⟨fuel, rfl⟩ := Nat.exists_eq_add_of_le' hfuel
      exact loop_other hpath hkind
  | done hend =>
      refine ⟨1, fun n hn searched => ⟨_, goes_stop _ _ n searched, fun bp fuel hfuel => ?_⟩⟩
      obtain ⟨fuel, rfl⟩ := Nat.exists_eq_add_of_le' hfuel
      exact loop_end hend
  | dir hpath hkind hrest ih =>
      obtain ⟨least, hrun⟩ := ih
      refine ⟨least + 1, fun n hn searched => ?_⟩
      obtain ⟨w, hgoes, hw⟩ := hrun n hn searched
      refine ⟨w, hgoes, fun bp fuel hfuel => ?_⟩
      obtain ⟨fuel, rfl⟩ := Nat.exists_eq_add_of_le' (Nat.le_of_add_left_le hfuel)
      exact (loop_dir hpath hkind).trans (hw bp fuel (by omega))
  | @broken start p inner w' err hpath hkind hnested hresult ih =>
      obtain ⟨least, hrun⟩ := ih
      obtain ⟨w, hgoes, hw⟩ := hrun 0 (Nat.zero_le 1) []
      have hfailed : w.result = .error err := by
        rw [← hresult, ← hgoes.same]
        rfl
      refine ⟨least + 1, fun n hn searched => ?_⟩
      refine ⟨_, goes_stop _ _ w.symlinks (searched ++ w.searched), fun bp fuel hfuel => ?_⟩
      obtain ⟨fuel, rfl⟩ := Nat.exists_eq_add_of_le' (Nat.le_of_add_left_le hfuel)
      have hcall : r.namei fuel root p.prev false (r.text p.ip) .unset = .ok (w, _) :=
        hw .unset fuel (by omega)
      exact loop_broken hpath hkind (hcount n hn) hcall hfailed
  | @follow lastDir start dp p inner looked w' e hpath hkind hnested hresult hrest ih ihrest =>
      obtain ⟨least, hrun⟩ := ih
      obtain ⟨least', hrun'⟩ := ihrest
      obtain ⟨w, hgoes, hw⟩ := hrun 0 (Nat.zero_le 1) []
      have hfound : w.result = .ok dp := by
        rw [← hresult, ← hgoes.same]
        rfl
      refine ⟨max least least' + 1, fun n hn searched => ?_⟩
      obtain ⟨w', hgoes', hw'⟩ := hrun' (w.symlinks + 1)
        (by rw [hgoes.counter _ hfound]) (searched ++ w.searched)
      refine ⟨w', hgoes', fun bp fuel hfuel => ?_⟩
      obtain ⟨fuel, rfl⟩ := Nat.exists_eq_add_of_le' (Nat.le_of_add_left_le hfuel)
      have hcall : r.namei fuel root p.prev false (r.text p.ip) .unset = .ok (w, _) :=
        hw .unset fuel (by omega)
      exact (loop_follow hpath hkind (hcount n hn) hcall hfound).trans (hw' bp fuel (by omega))
  | denied henter =>
      exact ⟨0, fun n _ searched => ⟨_, goes_stop _ _ n searched, fun _ _ _ =>
        runFrom_denied henter⟩⟩
  | absent henter hsearch hends hnone =>
      exact ⟨0, fun n _ searched => ⟨_, goes_stop _ _ n (searched ++ [_]), fun _ _ _ =>
        runFrom_absent henter hsearch hends hnone⟩⟩
  | found henter hsearch hends hsome hrest ih =>
      obtain ⟨least, hrun⟩ := ih
      refine ⟨least, fun n hn searched => ?_⟩
      obtain ⟨w, hgoes, hw⟩ := hrun n hn (searched ++ [_])
      exact ⟨w, hgoes, fun bp fuel hfuel =>
        (runFrom_found henter hsearch hends hsome).trans (hw _ fuel hfuel)⟩

/-! ## From a run to a walk -/

/-- What a run does from the call of `ext2_permission` on. -/
theorem enter_cases {w : Outcome ι} {bp' : Bp}
    (h : r.runFrom root .enter fuel lastDir start s bp = .ok (w, bp')) :
    (r.mayEnter s.ip = false ∧ w = s.stop (.error (-eacces)) 0 ∧ bp' = bp) ∨
    r.mayEnter s.ip = true ∧ (s.ip ≠ start → lastDir = true → r.kind s.ip = .dir) ∧
      r.ends s.ip (firstName s.path) = true ∧
      ((r.lookup s.ip (firstName s.path) = none ∧
          w = (s.pass start).stop (.error (-enoent)) 0 ∧
          bp' = r.buffer s.ip (firstName s.path) bp) ∨
        ∃ ip, r.lookup s.ip (firstName s.path) = some ip ∧
          r.loop root fuel lastDir start { s.pass start with ip }
            (r.buffer s.ip (firstName s.path) bp) = .ok (w, bp')) := by
  unfold runFrom advance at h
  dsimp only at h
  split at h
  next henter =>
    obtain ⟨rfl, rfl⟩ := Prod.mk.inj (Except.ok.inj h)
    exact Or.inl ⟨henter, rfl, rfl⟩
  next henter =>
    refine Or.inr ⟨by simpa using henter, ?_⟩
    split at h
    next => cases h
    next hsearch =>
      have hdir : s.ip ≠ start → lastDir = true → r.kind s.ip = .dir := by
        intro hip hmode
        by_contra hkind
        exact hsearch ⟨hip, hmode, hkind⟩
      refine ⟨hdir, ?_⟩
      split at h
      next => cases h
      next hends =>
        refine ⟨by simpa using hends, ?_⟩
        split at h
        next hnone =>
          obtain ⟨rfl, rfl⟩ := Prod.mk.inj (Except.ok.inj h)
          exact Or.inl ⟨hnone, rfl, rfl⟩
        next ip hsome => exact Or.inr ⟨ip, hsome, h⟩

/-- What is known of a run that has come back. -/
structure WentAlong (r : Searches ι) (root : ι) (phase : Phase) (lastDir : Bool) (start : ι)
    (p : Place ι) (bp : Bp) (w : Outcome ι) (bp' : Bp) (looked : List (ι × Name)) : Prop where
  walk : Walk r root phase lastDir start p looked (endOf w)
  buffer : bp' = r.bufferBehind looked bp
  counter : ∀ ip, w.result = .ok ip → w.symlinks = 0

/-- A call which comes back has gone along a walk. -/
theorem walk_of_run {w : Outcome ι} {bp' : Bp} (hn : s.symlinks ≤ 1)
    (h : r.loop root fuel lastDir start s bp = .ok (w, bp')) :
    ∃ looked, WentAlong r root .arrive lastDir start (placeOf s) bp w bp' looked := by
  induction fuel generalizing lastDir start s bp bp' w with
  | zero => cases h
  | succ fuel ih =>
      have henter : ∀ s' : Walker ι, s'.symlinks ≤ 1 →
          r.runFrom root .enter fuel lastDir start s' bp = .ok (w, bp') →
          ∃ looked, WentAlong r root .enter lastDir start (placeOf s') bp w bp' looked := by
        intro s' hs' hrun
        rcases enter_cases hrun with ⟨hdenied, rfl, rfl⟩ | ⟨hmay, hsearch, hends, hcases⟩
        · exact ⟨[], .denied hdenied, rfl, fun _ hip => by cases hip⟩
        · rcases hcases with ⟨hnone, rfl, rfl⟩ | ⟨ip, hsome, hrest⟩
          · exact ⟨_, .absent hmay hsearch hends hnone, rfl, fun _ hip => by cases hip⟩
          · obtain ⟨looked, hwent⟩ := ih (s := { s'.pass start with ip }) hs' hrest
            exact ⟨_, .found hmay hsearch hends hsome hwent.walk, hwent.buffer, hwent.counter⟩
      rw [loop] at h
      split at h
      next hother =>
        obtain ⟨rfl, rfl⟩ := Prod.mk.inj (Except.ok.inj h)
        exact ⟨[], .other hother.1 hother.2, rfl, fun _ hip => by cases hip⟩
      next hother =>
        split at h
        next hend =>
          obtain ⟨rfl, rfl⟩ := Prod.mk.inj (Except.ok.inj h)
          refine ⟨[], .done ?_, rfl, fun _ _ => rfl⟩
          by_cases hnil : s.path = []
          · exact Or.inl hnil
          · exact Or.inr ⟨hend.resolve_left hnil, fun hkind => hother ⟨hnil, hkind⟩⟩
        next hend =>
          have hpath := not_or.mp hend
          split at h
          next hlink =>
            rw [if_neg (Nat.not_le.mpr (Nat.lt_of_le_of_lt hn (by decide)))] at h
            obtain ⟨⟨nested, last⟩, hnested, hrest⟩ := bind_eq_ok.mp h
            dsimp only at hnested hrest
            obtain ⟨inner, hinner⟩ := ih (Nat.zero_le 1) hnested
            cases hresult : nested.result with
            | error e =>
                rw [hresult] at hrest
                dsimp only at hrest
                split at hrest
                next => cases hrest
                next hmode =>
                  obtain ⟨rfl, rfl⟩ := Prod.mk.inj (Except.ok.inj hrest)
                  obtain rfl : lastDir = false := by simpa using hmode
                  exact ⟨[], .broken hpath hlink hinner.walk hresult, rfl,
                    fun _ hip => by cases hip⟩
            | ok dp =>
                rw [hresult] at hrest
                obtain ⟨looked, hwent⟩ := henter _ (by simp [hinner.counter dp hresult]) hrest
                exact ⟨looked, .follow hpath hlink hinner.walk hresult hwent.walk, hwent.buffer,
                  hwent.counter⟩
          next hlink =>
            have hdir : r.kind s.ip = .dir := by
              cases hkind : r.kind s.ip with
              | dir => rfl
              | link => exact (hlink hkind).elim
              | other => exact (hother ⟨hpath.1, hkind⟩).elim
            obtain ⟨looked, hwent⟩ := henter s hn h
            exact ⟨looked, .dir hpath hdir hwent.walk, hwent.buffer, hwent.counter⟩

theorem walk_of_namei {w : Outcome ι} {bp' : Bp} {cwd : ι} {path : Name}
    (h : r.namei fuel root cwd lastDir path bp = .ok (w, bp')) :
    ∃ looked, Walk r root .arrive lastDir (startOf root cwd path)
      (Place.begin (startOf root cwd path) path) looked (endOf w) ∧
      bp' = r.bufferBehind looked bp := by
  obtain ⟨looked, hwent⟩ := walk_of_run (Nat.zero_le 1) h
  exact ⟨looked, hwent.walk, hwent.buffer⟩

theorem namei_of_walk {cwd : ι} {path : Name} {looked : List (ι × Name)} {e : WalkEnd ι}
    (h : Walk r root .arrive lastDir (startOf root cwd path)
      (Place.begin (startOf root cwd path) path) looked e) :
    ∃ least w, endOf w = e ∧ ∀ bp fuel, least ≤ fuel →
      r.namei fuel root cwd lastDir path bp = .ok (w, r.bufferBehind looked bp) := by
  obtain ⟨least, hrun⟩ := run_of_walk h
  obtain ⟨w, hgoes, hw⟩ := hrun 0 (Nat.zero_le 1) []
  exact ⟨least, w, hgoes.same, hw⟩

end Searches

/-! ## Ends of walks -/

variable {r : Searches ι} {root start ip : ι} {phase : Phase} {lastDir : Bool} {p : Place ι}
  {looked : List (ι × Name)} {e : WalkEnd ι}

theorem Walk.error_cases {err : ℤ} (h : Walk r root phase lastDir start p looked e)
    (hresult : e.result = .error err) : err = -eacces ∨ err = -enoent ∨ err = -enotdir := by
  induction h generalizing err with
  | other =>
      obtain rfl := Except.error.inj hresult
      exact Or.inr (Or.inr rfl)
  | done => cases hresult
  | dir _ _ _ ih => exact ih hresult
  | broken _ _ _ hnested ih =>
      obtain rfl := Except.error.inj hresult
      exact ih hnested
  | follow _ _ _ _ _ _ ihrest => exact ihrest hresult
  | denied =>
      obtain rfl := Except.error.inj hresult
      exact Or.inl rfl
  | absent =>
      obtain rfl := Except.error.inj hresult
      exact Or.inr (Or.inl rfl)
  | found _ _ _ _ _ ih => exact ih hresult

/-- Without links, every path has a walk. -/
theorem exists_walk_of_linkFree (hfree : LinkFree r.toTree)
    (hends : ∀ ip name, r.ends ip name = true) (p : Place ι) :
    ∃ looked e, Walk r root .arrive lastDir start p looked e := by
  induction hlen : p.path.length using Nat.strong_induction_on generalizing p with
  | h n ih =>
      subst hlen
      by_cases hnil : p.path = []
      · exact ⟨_, _, .done (Or.inl hnil)⟩
      cases hkind : r.kind p.ip with
      | link => exact (hfree p.ip hkind).elim
      | other => exact ⟨_, _, .other hnil hkind⟩
      | dir =>
          by_cases hone : p.path = [slash]
          · exact ⟨_, _, .done (Or.inr ⟨hone, by simp [hkind]⟩)⟩
          have henter : ∃ looked e, Walk r root .enter lastDir start p looked e := by
            cases hmay : r.mayEnter p.ip with
            | false => exact ⟨_, _, .denied hmay⟩
            | true =>
                cases hfound : r.lookup p.ip (firstName p.path) with
                | none => exact ⟨_, _, .absent hmay (fun _ _ => hkind) (hends _ _) hfound⟩
                | some next =>
                    obtain ⟨looked, e, hrest⟩ := ih _ (behindName_length_lt hnil)
                      { p.pass start with ip := next } rfl
                    exact ⟨_, e, .found hmay (fun _ _ => hkind) (hends _ _) hfound hrest⟩
          obtain ⟨looked, e, hrest⟩ := henter
          exact ⟨looked, e, .dir ⟨hnil, hone⟩ hkind hrest⟩

/-- An inode which is found is the first one, or it was found by the last search, whose name is
the last one. -/
theorem Walk.last_of_ok (h : Walk r root phase lastDir start p looked e)
    (hresult : e.result = .ok ip) :
    ((p.path = [] ∨ p.path = [slash]) ∧ phase = .arrive ∧ looked = [] ∧ e = p.stop (.ok p.ip)) ∨
      ∃ front, ∃ q : Place ι, looked = front ++ [q.search] ∧
        r.lookup q.ip (firstName q.path) = some ip ∧ e.base = some (unslashed q.path) := by
  induction h with
  | other => cases hresult
  | done hend => exact Or.inl ⟨hend.imp_right And.left, rfl, rfl, rfl⟩
  | dir _ _ _ ih => exact (ih hresult).imp_left fun hdone => Phase.noConfusion hdone.2.1
  | broken => cases hresult
  | follow _ _ _ _ _ _ ihrest =>
      exact (ihrest hresult).imp_left fun hdone => Phase.noConfusion hdone.2.1
  | denied => cases hresult
  | absent => cases hresult
  | @found lastDir start next p looked e henter hsearch hends hsome hrest ih =>
      right
      rcases ih hresult with ⟨-, -, rfl, rfl⟩ | ⟨front, q, rfl, hlookup, hbase⟩
      · obtain rfl : next = ip := Except.ok.inj hresult
        exact ⟨[], p, rfl, hsome, rfl⟩
      · exact ⟨p.search :: front, q, rfl, hlookup, hbase⟩

/-- When a caller who asks for `*last_dir` hears that there is no entry, the last search has found
none. -/
theorem Walk.last_of_enoent (h : Walk r root phase true start p looked e)
    (hresult : e.result = .error (-enoent)) :
    ∃ front, ∃ q : Place ι, looked = front ++ [q.search] ∧
      r.lookup q.ip (firstName q.path) = none ∧ e.base = some (unslashed q.path) := by
  generalize hmode : true = mode at h
  induction h with
  | other => exact absurd (Except.error.inj hresult) (by decide)
  | done => cases hresult
  | dir _ _ _ ih => exact ih hresult hmode
  | broken => cases hmode
  | follow _ _ _ _ _ _ ihrest => exact ihrest hresult hmode
  | denied => exact absurd (Except.error.inj hresult) (by decide)
  | @absent _ _ p _ _ _ hnone => exact ⟨[], p, rfl, hnone, rfl⟩
  | @found _ _ _ p _ _ _ _ _ _ _ ih =>
      obtain ⟨front, q, rfl, hlookup, hbase⟩ := ih hresult hmode
      exact ⟨p.search :: front, q, rfl, hlookup, hbase⟩

end Run

end Yak.Ext2
