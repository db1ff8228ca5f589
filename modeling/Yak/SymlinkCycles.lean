import Yak.PathResolution

/-!
# Cycles of symbolic links

The counter of `ext2_namei` is cleared by every link which is followed, so that no number of links
is too large.  What a link leads to is searched, be it a directory or not; a link at the end of the
text of a link is not followed.
-/

namespace Yak.Ext2

variable {ι : Type} {t : Tree ι} {root cwd start ip prev : ι} {path : Name} {lastDir : Bool}
  {fuel : ℕ} {s : Walker ι} {ds ds' : List (Option ι)} {r : Except ℤ ι}

/-! ## The resolution without a limit -/

/-- A resolution which comes to an end, for a path or for the text of a link, at an inode which was
found in a directory, with the rest of the path.  A link is followed from its directory, but for one
at the end of a path, and the number counts those in the texts of links too. -/
inductive Resolves (t : Tree ι) (root : ι) :
    (text : Bool) → (dir ip : ι) → Name → ℕ → Except ℤ ι → Prop
  | done {text : Bool} {dir ip : ι} {path : Name}
      (hend : path = [] ∨ path = [slash] ∧ t.kind ip ≠ .other)
      (hlink : text = true → t.kind ip ≠ .link) : Resolves t root text dir ip path 0 (.ok ip)
  | notDir {text : Bool} {dir ip : ι} {path : Name} (hpath : path ≠ [])
      (hkind : t.kind ip = .other) : Resolves t root text dir ip path 0 (.error (-enotdir))
  | denied {text : Bool} {dir ip : ι} {path : Name} (hpath : path ≠ [] ∧ path ≠ [slash])
      (hkind : t.kind ip = .dir) (henter : t.mayEnter ip = false) :
      Resolves t root text dir ip path 0 (.error (-eacces))
  | absent {text : Bool} {dir ip : ι} {path : Name} (hpath : path ≠ [] ∧ path ≠ [slash])
      (hkind : t.kind ip = .dir) (henter : t.mayEnter ip = true)
      (hnone : t.lookup ip (firstName path) = none) :
      Resolves t root text dir ip path 0 (.error (-enoent))
  | found {text : Bool} {dir ip next : ι} {path : Name} {n : ℕ} {r : Except ℤ ι}
      (hpath : path ≠ [] ∧ path ≠ [slash]) (hkind : t.kind ip = .dir)
      (henter : t.mayEnter ip = true) (hsome : t.lookup ip (firstName path) = some next)
      (hrest : Resolves t root text ip next (behindName path) n r) :
      Resolves t root text dir ip path n r
  | broken {text : Bool} {dir ip : ι} {path : Name} {n : ℕ} {e : ℤ}
      (hfollow : text = true ∨ path ≠ [] ∧ path ≠ [slash]) (hkind : t.kind ip = .link)
      (htext : Resolves t root true (startOf root dir (t.text ip)) (startOf root dir (t.text ip))
        (t.text ip) n (.error e)) :
      Resolves t root text dir ip path (n + 1) (.error e)
  | follow {text : Bool} {dir ip dp : ι} {path : Name} {n n' : ℕ} {r : Except ℤ ι}
      (hfollow : text = true ∨ path ≠ [] ∧ path ≠ [slash]) (hkind : t.kind ip = .link)
      (htext : Resolves t root true (startOf root dir (t.text ip)) (startOf root dir (t.text ip))
        (t.text ip) n (.ok dp))
      (hrest : Resolves t root text dir dp path n' r) :
      Resolves t root text dir ip path (n + 1 + n') r

/-- The resolution of a path, every link in it being followed as often as it is met. -/
def Means (t : Tree ι) (root cwd : ι) (path : Name) (n : ℕ) (r : Except ℤ ι) : Prop :=
  Resolves t root false (startOf root cwd path) (startOf root cwd path) path n r

/-! ## The way of the code -/

/-- At an inode, or about to search it. -/
inductive Phase where
  | arrive
  | enter

/-- A way along a path which comes to an end, by the inode at which it started, the inode where it
is, the last directory and the rest of the path.  No link at the end of the text of a link is
followed.  The list tells where the links led which were, and those in the texts of the links. -/
inductive Trail [DecidableEq ι] (t : Tree ι) (root : ι) :
    Phase → ι → ι → ι → Name → List (Option ι) → Except ℤ ι → Prop
  | other {start ip prev : ι} {path : Name} (hpath : path ≠ []) (hkind : t.kind ip = .other) :
      Trail t root .arrive start ip prev path [] (.error (-enotdir))
  | done {start ip prev : ι} {path : Name}
      (hend : path = [] ∨ path = [slash] ∧ t.kind ip ≠ .other) :
      Trail t root .arrive start ip prev path [] (.ok ip)
  | dir {start ip prev : ι} {path : Name} {ds : List (Option ι)} {r : Except ℤ ι}
      (hpath : path ≠ [] ∧ path ≠ [slash]) (hkind : t.kind ip = .dir)
      (hrest : Trail t root .enter start ip prev path ds r) :
      Trail t root .arrive start ip prev path ds r
  | broken {start ip prev : ι} {path : Name} {ds : List (Option ι)} {e : ℤ}
      (hpath : path ≠ [] ∧ path ≠ [slash]) (hkind : t.kind ip = .link)
      (htext : Trail t root .arrive (startOf root prev (t.text ip))
        (startOf root prev (t.text ip)) (startOf root prev (t.text ip)) (t.text ip) ds (.error e)) :
      Trail t root .arrive start ip prev path (ds ++ [none]) (.error e)
  | follow {start ip prev dp : ι} {path : Name} {ds ds' : List (Option ι)} {r : Except ℤ ι}
      (hpath : path ≠ [] ∧ path ≠ [slash]) (hkind : t.kind ip = .link)
      (htext : Trail t root .arrive (startOf root prev (t.text ip))
        (startOf root prev (t.text ip)) (startOf root prev (t.text ip)) (t.text ip) ds (.ok dp))
      (hrest : Trail t root .enter start dp prev path ds' r) :
      Trail t root .arrive start ip prev path (ds ++ some dp :: ds') r
  | notDir {start ip prev : ι} {path : Name} (hkind : t.kind ip ≠ .dir) :
      Trail t root .enter start ip prev path [] (.error (-enotdir))
  | denied {start ip prev : ι} {path : Name} (hkind : t.kind ip = .dir)
      (henter : t.mayEnter ip = false) :
      Trail t root .enter start ip prev path [] (.error (-eacces))
  | absent {start ip prev : ι} {path : Name} (hkind : t.kind ip = .dir)
      (henter : t.mayEnter ip = true) (hnone : t.lookup ip (firstName path) = none) :
      Trail t root .enter start ip prev path [] (.error (-enoent))
  | found {start ip prev next : ι} {path : Name} {ds : List (Option ι)} {r : Except ℤ ι}
      (hkind : t.kind ip = .dir) (henter : t.mayEnter ip = true)
      (hsome : t.lookup ip (firstName path) = some next)
      (hrest : Trail t root .arrive start next (if ip ≠ start then ip else prev)
        (behindName path) ds r) :
      Trail t root .enter start ip prev path ds r

/-! ## Where links lead -/

/-- A link leads to a directory, or to something that the caller may not search.  A link which leads
nowhere is met by a caller who does not ask for `*last_dir`. -/
def Leads (t : Tree ι) (lastDir : Bool) : Option ι → Prop
  | some ip => t.kind ip = .dir ∨ t.mayEnter ip = false
  | none => lastDir = false

def OnlyDirs (t : Tree ι) (searched : List ι) : Prop := ∀ ip ∈ searched, t.kind ip = .dir

/-- The run ends as the way does, but for the code of an error. -/
structure EndsAs (r : Except ℤ ι) (w : Outcome ι) : Prop where
  same : ∀ ip, w.result = .ok ip ↔ r = .ok ip
  counter : ∀ ip, w.result = .ok ip → w.symlinks = 0

theorem endsAs_error {e e' : ℤ} {w : Outcome ι} (h : w.result = .error e') :
    EndsAs (.error e) w := by
  constructor
  · intro ip
    simp [h]
  · intro ip hip
    rw [h] at hip
    cases hip

theorem Leads.inner {d : Option ι} (h : Leads t lastDir d) : Leads t false d := by
  cases d with
  | none => rfl
  | some ip => exact h

theorem Leads.outer {d : Option ι} (h : Leads t false d) (hd : d ≠ none) : Leads t lastDir d := by
  cases d with
  | none => exact (hd rfl).elim
  | some ip => exact h

theorem onlyDirs_append {xs ys : List ι} (hxs : OnlyDirs t xs) (hys : OnlyDirs t ys) :
    OnlyDirs t (xs ++ ys) := fun ip hin => (List.mem_append.mp hin).elim (hxs ip) (hys ip)

theorem onlyDirs_singleton (h : t.kind ip = .dir) : OnlyDirs t [ip] := by
  intro ip' hin
  rwa [List.mem_singleton.mp hin]

/-- What holds of every run which begins with a counter of at most 1. -/
structure RunFacts (s : Walker ι) (w : Outcome ι) : Prop where
  searched : s.searched ⊆ w.searched
  counter : ∀ ip, w.result = .ok ip → w.symlinks = 0
  noLoop : w.result ≠ .error (-eloop)

theorem runFacts_error {w : Outcome ι} {e : ℤ} (hsub : s.searched ⊆ w.searched)
    (hresult : w.result = .error e) (he : e ≠ -eloop) : RunFacts s w where
  searched := hsub
  counter ip hip := by
    rw [hresult] at hip
    cases hip
  noLoop := by
    rw [hresult]
    exact fun heq => he (Except.error.inj heq)

theorem RunFacts.of_searched {s' : Walker ι} {w : Outcome ι} (h : RunFacts s' w)
    (hsub : s.searched ⊆ s'.searched) : RunFacts s w :=
  ⟨List.Subset.trans hsub h.searched, h.counter, h.noLoop⟩

/-- The way behind a run. -/
structure Behind (t : Tree ι) (lastDir : Bool) (ds : List (Option ι)) (r : Except ℤ ι)
    (w : Outcome ι) : Prop where
  leads : ∀ d ∈ ds, Leads t lastDir d
  same : ∀ ip, w.result = .ok ip ↔ r = .ok ip

theorem behind_error {w : Outcome ι} {e e' : ℤ} (h : w.result = .error e') :
    Behind t lastDir [] (.error e) w :=
  ⟨fun _ hd => (List.not_mem_nil hd).elim, (endsAs_error h).same⟩

variable [DecidableEq ι]

/-- On the way to an inode, no link leads nowhere. -/
theorem Trail.none_not_mem {phase : Phase} {found : ι}
    (h : Trail t root phase start ip prev path ds r) (hr : r = .ok found) : none ∉ ds := by
  induction h generalizing found with
  | other => exact List.not_mem_nil
  | done => exact List.not_mem_nil
  | dir _ _ _ ih => exact ih hr
  | broken => cases hr
  | follow _ _ _ _ ih ihrest =>
      rw [List.mem_append, List.mem_cons]
      rintro (hin | hin | hin)
      · exact ih rfl hin
      · cases hin
      · exact ihrest hr hin
  | notDir => exact List.not_mem_nil
  | denied => exact List.not_mem_nil
  | absent => exact List.not_mem_nil
  | found _ _ _ _ ih => exact ih hr

/-! ## From a way to a run -/

/-- The run from a phase on. -/
def runFrom (t : Tree ι) (root : ι) (phase : Phase) (fuel : ℕ) (lastDir : Bool) (start : ι)
    (s : Walker ι) : Except Halt (Outcome ι) :=
  match phase with
  | .arrive => nameiLoop t root fuel lastDir start s
  | .enter => advance t lastDir start s >>= Sum.elim .ok (nameiLoop t root fuel lastDir start)

theorem runFrom_denied (henter : t.mayEnter s.ip = false) :
    runFrom t root .enter fuel lastDir start s = .ok (s.stop (.error (-eacces)) 0) := by
  unfold runFrom
  dsimp only
  rw [advance_denied henter]
  rfl

section Search

variable (hkind : t.kind s.ip = .dir) (henter : t.mayEnter s.ip = true)

include hkind henter

theorem runFrom_absent (hnone : t.lookup s.ip (firstName s.path) = none) :
    runFrom t root .enter fuel lastDir start s =
      .ok ((s.pass start).stop (.error (-enoent)) 0) := by
  unfold runFrom
  dsimp only
  rw [advance_none hkind henter hnone]
  rfl

theorem runFrom_found (hsome : t.lookup s.ip (firstName s.path) = some ip) :
    runFrom t root .enter fuel lastDir start s =
      nameiLoop t root fuel lastDir start { s.pass start with ip } := by
  unfold runFrom
  dsimp only
  rw [advance_some hkind henter hsome]
  rfl

end Search

/-- When the links lead to directories, the code goes this way. -/
theorem Trail.run {phase : Phase} (h : Trail t root phase start ip prev path ds r)
    (hleads : ∀ d ∈ ds, Leads t lastDir d) {n : ℕ} (hn : n ≤ 1) (base : Option Name)
    {searched : List ι} (hdirs : OnlyDirs t searched)
    (hphase : phase = .enter → t.kind ip = .dir ∨ t.mayEnter ip = false) :
    ∃ fuel w, runFrom t root phase fuel lastDir start ⟨ip, prev, path, n, base, searched⟩ = .ok w ∧
      EndsAs r w ∧ OnlyDirs t w.searched := by
  induction h generalizing lastDir n base searched with
  | other hpath hkind =>
      exact ⟨1, _, nameiLoop_other hpath hkind, endsAs_error rfl, hdirs⟩
  | done hend =>
      exact ⟨1, _, nameiLoop_end hend, ⟨fun ip => Iff.rfl, fun ip _ => rfl⟩, hdirs⟩
  | dir hpath hkind hrest ih =>
      obtain ⟨fuel, w, hrun, hw⟩ := ih hleads hn base hdirs fun _ => Or.inl hkind
      exact ⟨fuel + 1, w, (nameiLoop_dir hpath.1 hpath.2 hkind).trans hrun, hw⟩
  | @broken start ip prev path ds e hpath hkind htext ih =>
      obtain rfl : lastDir = false :=
        hleads none (List.mem_append_right _ (List.mem_singleton_self none))
      obtain ⟨fuel, w, hrun, hends, hw⟩ := ih
        (fun d hd => (hleads d (List.mem_append_left _ hd)).inner) (Nat.zero_le 1) none
        (fun _ hin => (List.not_mem_nil hin).elim) (fun h => Phase.noConfusion h)
      have hnested : namei fuel t root prev false (t.text ip) = .ok w := hrun
      cases hresult : w.result with
      | ok ip => cases (hends.same ip).mp hresult
      | error e' =>
          have hrest :
              nameiLoop t root (fuel + 1) false start ⟨ip, prev, path, n, base, searched⟩ = _ :=
            nameiLoop_broken hpath hkind (Nat.lt_of_le_of_lt hn (by decide)) hnested hresult
          exact ⟨fuel + 1, _, hrest, endsAs_error rfl, onlyDirs_append hdirs hw⟩
  | @follow start ip prev dp path ds ds' r hpath hkind htext hrest ih ihrest =>
      obtain ⟨fuel, w, hrun, hends, hw⟩ := ih
        (fun d hd => (hleads d (List.mem_append_left _ hd)).inner) (Nat.zero_le 1) none
        (fun _ hin => (List.not_mem_nil hin).elim) (fun h => Phase.noConfusion h)
      have hresult := (hends.same _).mpr rfl
      have hone : w.symlinks + 1 ≤ 1 := by rw [hends.counter _ hresult]
      obtain ⟨fuel', w', hrun', hw'⟩ := ihrest
        (fun d hd => hleads d (List.mem_append_right _ (List.mem_cons_of_mem _ hd))) hone base
        (onlyDirs_append hdirs hw)
        (fun _ => hleads _ (List.mem_append_right _ List.mem_cons_self))
      have hnested : namei (max fuel fuel') t root prev false (t.text ip) = .ok w :=
        nameiLoop_mono hrun (le_max_left fuel fuel')
      have hfollow : nameiLoop t root (max fuel fuel' + 1) lastDir start
          ⟨ip, prev, path, n, base, searched⟩ = _ :=
        nameiLoop_follow hpath hkind (Nat.lt_of_le_of_lt hn (by decide)) hnested hresult
      refine ⟨max fuel fuel' + 1, w', hfollow.trans ?_, hw'⟩
      exact elim_mono (fun _ _ hf => nameiLoop_mono hf (le_max_right fuel fuel')) hrun'
  | notDir hkind =>
      exact ⟨0, _, runFrom_denied ((hphase rfl).resolve_left hkind), endsAs_error rfl, hdirs⟩
  | denied hkind henter => exact ⟨0, _, runFrom_denied henter, endsAs_error rfl, hdirs⟩
  | absent hkind henter hnone =>
      exact ⟨0, _, runFrom_absent hkind henter hnone, endsAs_error rfl,
        onlyDirs_append hdirs (onlyDirs_singleton hkind)⟩
  | found hkind henter hsome hrest ih =>
      obtain ⟨fuel, w, hrun, hw⟩ := ih hleads hn _
        (onlyDirs_append hdirs (onlyDirs_singleton hkind)) (fun h => Phase.noConfusion h)
      exact ⟨fuel, w, (runFrom_found hkind henter hsome).trans hrun, hw⟩

/-! ## From a run to a way -/

/-- What a run does from the call of `ext2_permission` on. -/
theorem enter_cases {w : Outcome ι} (h : runFrom t root .enter fuel lastDir start s = .ok w) :
    (t.mayEnter s.ip = false ∧ w = s.stop (.error (-eacces)) 0) ∨
    t.mayEnter s.ip = true ∧
      ((t.lookup s.ip (firstName s.path) = none ∧ w = (s.pass start).stop (.error (-enoent)) 0) ∨
        ∃ ip, t.lookup s.ip (firstName s.path) = some ip ∧
          nameiLoop t root fuel lastDir start { s.pass start with ip } = .ok w) := by
  unfold runFrom advance at h
  dsimp only at h
  split at h
  next henter => exact Or.inl ⟨henter, (Except.ok.inj h).symm⟩
  next henter =>
    refine Or.inr ⟨by simpa using henter, ?_⟩
    split at h
    next => cases h
    next =>
      split at h
      next hnone => exact Or.inl ⟨hnone, (Except.ok.inj h).symm⟩
      next ip hsome => exact Or.inr ⟨ip, hsome, h⟩

/-- What a turn of the loop does while the counter is small. -/
theorem nameiLoop_cases {w : Outcome ι} (hcount : s.symlinks < maxSymlinks)
    (h : nameiLoop t root (fuel + 1) lastDir start s = .ok w) :
    (s.path ≠ [] ∧ t.kind s.ip = .other ∧ w = s.stop (.error (-enotdir)) s.symlinks) ∨
    ((s.path = [] ∨ s.path = [slash] ∧ t.kind s.ip ≠ .other) ∧ w = s.stop (.ok s.ip) 0) ∨
    (s.path ≠ [] ∧ s.path ≠ [slash]) ∧
      ((t.kind s.ip = .dir ∧ runFrom t root .enter fuel lastDir start s = .ok w) ∨
        t.kind s.ip = .link ∧ ∃ nested, namei fuel t root s.prev false (t.text s.ip) = .ok nested ∧
          ((∃ e, nested.result = .error e ∧ lastDir = false ∧ w = ({ s with
              symlinks := nested.symlinks
              searched := s.searched ++ nested.searched } : Walker ι).stop (.error e) 0) ∨
            ∃ ip, nested.result = .ok ip ∧ runFrom t root .enter fuel lastDir start { s with
              ip
              symlinks := nested.symlinks + 1
              searched := s.searched ++ nested.searched } = .ok w)) := by
  rw [nameiLoop] at h
  split at h
  next hother => exact Or.inl ⟨hother.1, hother.2, (Except.ok.inj h).symm⟩
  next hother =>
    right
    split at h
    next hend =>
      refine Or.inl ⟨?_, (Except.ok.inj h).symm⟩
      by_cases hnil : s.path = []
      · exact Or.inl hnil
      · exact Or.inr ⟨hend.resolve_left hnil, fun hkind => hother ⟨hnil, hkind⟩⟩
    next hend =>
      have hpath := not_or.mp hend
      refine Or.inr ⟨hpath, ?_⟩
      split at h
      next hlink =>
        rw [if_neg (Nat.not_le.mpr hcount)] at h
        obtain ⟨nested, hnested, hrest⟩ := bind_eq_ok.mp h
        refine Or.inr ⟨hlink, nested, hnested, ?_⟩
        dsimp only at hrest
        cases hresult : nested.result with
        | error e =>
            rw [hresult] at hrest
            dsimp only at hrest
            split at hrest
            next => cases hrest
            next hmode =>
              exact Or.inl ⟨e, rfl, by simpa using hmode, (Except.ok.inj hrest).symm⟩
        | ok ip =>
            rw [hresult] at hrest
            exact Or.inr ⟨ip, rfl, hrest⟩
      next hlink =>
        have hdir : t.kind s.ip = .dir := by
          cases hkind : t.kind s.ip with
          | dir => rfl
          | link => exact (hlink hkind).elim
          | other => exact (hother ⟨hpath.1, hkind⟩).elim
        exact Or.inl ⟨hdir, h⟩

theorem enter_facts {w : Outcome ι} (h : runFrom t root .enter fuel lastDir start s = .ok w)
    (hrest : ∀ s' : Walker ι, s'.symlinks = s.symlinks →
      nameiLoop t root fuel lastDir start s' = .ok w → RunFacts s' w) : RunFacts s w := by
  rcases enter_cases h with ⟨-, rfl⟩ | ⟨-, ⟨-, rfl⟩ | ⟨ip, -, hrun⟩⟩
  · exact runFacts_error (List.Subset.refl _) rfl (by decide)
  · exact runFacts_error (List.subset_append_left _ _) rfl (by decide)
  · exact (hrest { s.pass start with ip } rfl hrun).of_searched (List.subset_append_left _ _)

/-- The limit is never met: a link which was followed leaves the counter at 1. -/
theorem nameiLoop_facts {w : Outcome ι} (hn : s.symlinks ≤ 1)
    (h : nameiLoop t root fuel lastDir start s = .ok w) : RunFacts s w := by
  induction fuel generalizing lastDir start s w with
  | zero => cases h
  | succ fuel ih =>
      have hcount : s.symlinks < maxSymlinks := Nat.lt_of_le_of_lt hn (by decide)
      rcases nameiLoop_cases hcount h with ⟨-, -, rfl⟩ | ⟨-, rfl⟩ | ⟨-, ⟨-, henter⟩ | ⟨-, hlink⟩⟩
      · exact runFacts_error (List.Subset.refl _) rfl (by decide)
      · exact ⟨List.Subset.refl _, fun _ _ => rfl, fun heq => by cases heq⟩
      · exact enter_facts henter fun s' hs' hrun => ih (hs' ▸ hn) hrun
      · obtain ⟨nested, hnested, hcases⟩ := hlink
        have hinner : RunFacts (Walker.begin _ _) nested := ih (Nat.zero_le 1) hnested
        rcases hcases with ⟨e, hresult, -, rfl⟩ | ⟨ip, hresult, henter⟩
        · refine runFacts_error (List.subset_append_left _ _) rfl ?_
          rintro rfl
          exact hinner.noLoop hresult
        · have hone : nested.symlinks + 1 ≤ 1 := by rw [hinner.counter ip hresult]
          exact (enter_facts henter fun s' hs' hrun => ih (hs' ▸ hone) hrun).of_searched
            (List.subset_append_left _ _)

theorem behind_enter {w : Outcome ι} (h : runFrom t root .enter fuel lastDir start s = .ok w)
    (hn : s.symlinks ≤ 1) (hdirs : OnlyDirs t w.searched)
    (hrest : ∀ s' : Walker ι, s'.symlinks = s.symlinks →
      nameiLoop t root fuel lastDir start s' = .ok w →
        ∃ ds r, Trail t root .arrive start s'.ip s'.prev s'.path ds r ∧
          Behind t lastDir ds r w) :
    (t.kind s.ip = .dir ∨ t.mayEnter s.ip = false) ∧
      ∃ ds r, Trail t root .enter start s.ip s.prev s.path ds r ∧ Behind t lastDir ds r w := by
  rcases enter_cases h with ⟨henter, rfl⟩ | ⟨henter, hcases⟩
  · refine ⟨Or.inr henter, ?_⟩
    by_cases hkind : t.kind s.ip = .dir
    · exact ⟨[], _, .denied hkind henter, behind_error rfl⟩
    · exact ⟨[], _, .notDir hkind, behind_error rfl⟩
  · rcases hcases with ⟨hnone, rfl⟩ | ⟨ip, hsome, hrun⟩
    · have hkind : t.kind s.ip = .dir :=
        hdirs _ (List.mem_append_right _ (List.mem_singleton_self _))
      exact ⟨Or.inl hkind, [], _, .absent hkind henter hnone, behind_error rfl⟩
    · have hkind : t.kind s.ip = .dir := by
        apply hdirs
        apply (nameiLoop_facts (s := { s.pass start with ip }) hn hrun).searched
        exact List.mem_append_right _ (List.mem_singleton_self _)
      obtain ⟨ds, r, htrail, hbehind⟩ := hrest { s.pass start with ip } rfl hrun
      exact ⟨Or.inl hkind, ds, r, .found hkind henter hsome htrail, hbehind⟩

/-- When only directories are searched, there is a way, and its links lead to directories. -/
theorem exists_trail {w : Outcome ι} (hn : s.symlinks ≤ 1)
    (h : nameiLoop t root fuel lastDir start s = .ok w) (hdirs : OnlyDirs t w.searched) :
    ∃ ds r, Trail t root .arrive start s.ip s.prev s.path ds r ∧ Behind t lastDir ds r w := by
  induction fuel generalizing lastDir start s w with
  | zero => cases h
  | succ fuel ih =>
      have hcount : s.symlinks < maxSymlinks := Nat.lt_of_le_of_lt hn (by decide)
      rcases nameiLoop_cases hcount h with
        ⟨hpath, hkind, rfl⟩ | ⟨hend, rfl⟩ | ⟨hpath, ⟨hkind, henter⟩ | ⟨hkind, hlink⟩⟩
      · exact ⟨[], _, .other hpath hkind, behind_error rfl⟩
      · exact ⟨[], _, .done hend, fun _ hd => (List.not_mem_nil hd).elim, fun _ => Iff.rfl⟩
      · obtain ⟨-, ds, r, htrail, hbehind⟩ := behind_enter henter hn hdirs
          fun s' hs' hrun => ih (hs' ▸ hn) hrun hdirs
        exact ⟨ds, r, .dir hpath hkind htrail, hbehind⟩
      · obtain ⟨nested, hnested, hcases⟩ := hlink
        have hinner : RunFacts (Walker.begin _ _) nested := nameiLoop_facts (Nat.zero_le 1) hnested
        rcases hcases with ⟨e, hresult, hmode, rfl⟩ | ⟨ip, hresult, henter⟩
        · obtain ⟨ds, r, htrail, hbehind⟩ := ih (Nat.zero_le 1) hnested
            fun ip hip => hdirs ip (List.mem_append_right _ hip)
          obtain ⟨e', rfl⟩ : ∃ e', r = .error e' := by
            cases r with
            | error e' => exact ⟨e', rfl⟩
            | ok ip =>
                rw [(hbehind.same ip).mpr rfl] at hresult
                cases hresult
          refine ⟨ds ++ [none], _, .broken hpath hkind htrail, ?_, (endsAs_error rfl).same⟩
          intro d hd
          rcases List.mem_append.mp hd with hd | hd
          · exact hmode ▸ hbehind.leads d hd
          · rw [List.mem_singleton.mp hd]
            exact hmode
        · have hone : nested.symlinks + 1 ≤ 1 := by rw [hinner.counter ip hresult]
          have hfacts := enter_facts henter fun s' hs' hrun => nameiLoop_facts (hs' ▸ hone) hrun
          obtain ⟨ds, r, htrail, hbehind⟩ := ih (Nat.zero_le 1) hnested
            fun ip hip => hdirs ip (hfacts.searched (List.mem_append_right _ hip))
          obtain ⟨hleads, ds', r', htrail', hbehind'⟩ := behind_enter henter hone hdirs
            fun s' hs' hrun => ih (hs' ▸ hone) hrun hdirs
          obtain rfl : r = .ok ip := (hbehind.same ip).mp hresult
          refine ⟨ds ++ some ip :: ds', r', .follow hpath hkind htrail htrail', ?_,
            hbehind'.same⟩
          intro d hd
          rcases List.mem_append.mp hd with hd | hd
          · exact (hbehind.leads d hd).outer fun hnone => htrail.none_not_mem rfl (hnone ▸ hd)
          · rcases List.mem_cons.mp hd with rfl | hd
            · exact hleads
            · exact hbehind'.leads d hd

/-! ## Exactly when cycles are detected -/

/-- The way from the beginning of the path. -/
def Goes (t : Tree ι) (root cwd : ι) (path : Name) (ds : List (Option ι)) (r : Except ℤ ι) :
    Prop :=
  Trail t root .arrive (startOf root cwd path) (startOf root cwd path) (startOf root cwd path)
    path ds r

/-- `ext2_namei` comes to an end, with -ELOOP when more than five links would be
followed, and it searches directories only. -/
def CyclesDetected (t : Tree ι) (root cwd : ι) (lastDir : Bool) (path : Name) : Prop :=
  ∃ fuel w, namei fuel t root cwd lastDir path = .ok w ∧
    ((¬∃ n r, Means t root cwd path n r ∧ n ≤ maxSymlinks) → w.result = .error (-eloop)) ∧
    OnlyDirs t w.searched

/-- This is so exactly if the resolution comes to an end over at most five links, and the links on
the way of the code all lead to directories. -/
theorem cyclesDetected_iff : CyclesDetected t root cwd lastDir path ↔
    (∃ n r, Means t root cwd path n r ∧ n ≤ maxSymlinks) ∧
      ∃ ds r, Goes t root cwd path ds r ∧ ∀ d ∈ ds, Leads t lastDir d := by
  constructor
  · rintro ⟨fuel, w, hrun, hmany, hdirs⟩
    obtain ⟨ds, r, hgoes, hbehind⟩ : ∃ ds r, Goes t root cwd path ds r ∧ Behind t lastDir ds r w :=
      exists_trail (Nat.zero_le 1) hrun hdirs
    have hfacts : RunFacts (Walker.begin _ _) w := nameiLoop_facts (Nat.zero_le 1) hrun
    refine ⟨?_, ds, r, hgoes, hbehind.leads⟩
    by_contra hnot
    exact hfacts.noLoop (hmany hnot)
  · rintro ⟨hfew, ds, r, hgoes, hleads⟩
    obtain ⟨fuel, w, hrun, -, hdirs⟩ := hgoes.run hleads (Nat.zero_le 1) none
      (fun _ hin => (List.not_mem_nil hin).elim) (fun h => Phase.noConfusion h)
    exact ⟨fuel, w, hrun, fun hmany => (hmany hfew).elim, hdirs⟩

/-- The root 0, and the link 1 in it, under the name `l`, with the text `l/y`. -/
def linkTree : Tree ℕ where
  kind ip := if ip = 1 then .link else .dir
  mayEnter _ := true
  lookup ip name := if ip = 0 ∧ name = [0x6C#8] then some 1 else none
  text _ := [0x6C#8, slash, 0x79#8]

/-- The text of the link is resolved for ever. -/
theorem namei_linkTree (fuel : ℕ) :
    namei fuel linkTree 0 0 false [0x6C#8, slash, 0x79#8] = .error .endless := by
  induction fuel using Nat.twoStepInduction with
  | zero => rfl
  | one => rfl
  | more fuel ih _ =>
      have hfirst : namei (fuel + 2) linkTree 0 0 false [0x6C#8, slash, 0x79#8] =
          nameiLoop linkTree 0 (fuel + 1) false 0
            { (Walker.begin 0 [0x6C#8, slash, 0x79#8]).pass 0 with ip := 1 } := rfl
      rw [hfirst, nameiLoop, if_neg (by decide), if_neg (by decide), if_pos (by decide),
        if_neg (by decide)]
      exact congrArg (· >>= _) ih

/-- It is no cycle which is detected. -/
theorem not_cyclesDetected_linkTree :
    ¬∀ (t : Tree ℕ) (root cwd : ℕ) (lastDir : Bool) (path : Name),
      CyclesDetected t root cwd lastDir path := by
  intro hall
  obtain ⟨fuel, w, hrun, -⟩ := hall linkTree 0 0 false [0x6C#8, slash, 0x79#8]
  rw [namei_linkTree fuel] at hrun
  cases hrun

end Yak.Ext2
