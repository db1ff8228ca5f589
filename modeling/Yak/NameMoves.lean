import Yak.PathWalks
import Mathlib.Logic.Relation

/-!
# A name which moves

One name of an inode is taken out of a tree, and another one is put in.
-/

namespace Yak.Ext2

variable {ι : Type} {r r' : Searches ι} {root cwd start ip : ι} {phase : Phase} {lastDir : Bool}
  {p : Place ι} {looked looked' : List (ι × Name)} {e e' : WalkEnd ι} {xs : List (ι × Name)}
  {xo xn : ι × Name} {path old new : Name}

/-! ## Walks in two trees -/

/-- The inodes are the same, apart from their names. -/
structure SameInodes (r r' : Searches ι) : Prop where
  kind : r'.kind = r.kind
  mayEnter : r'.mayEnter = r.mayEnter
  text : r'.text = r.text

/-- The searches of `r` which come to an end do so in `r'`, and find the same. -/
structure Searches.Within (r r' : Searches ι) : Prop extends SameInodes r r' where
  found : ∀ ip name, r.ends ip name = true →
    r'.ends ip name = true ∧ r'.lookup ip name = r.lookup ip name

/-- The walks which search directories only, be it on the way along a link. -/
def Searches.inDirs (r : Searches ι) : Searches ι :=
  { r with ends := fun ip name => r.ends ip name && decide (r.kind ip = .dir) }

theorem inDirs_ends {name : Name} :
    r.inDirs.ends ip name = true ↔ r.ends ip name = true ∧ r.kind ip = .dir := by
  change (r.ends ip name && decide (r.kind ip = .dir)) = true ↔ _
  rw [Bool.and_eq_true, decide_eq_true_iff]

theorem within_inDirs : r.inDirs.Within r where
  kind := rfl
  mayEnter := rfl
  text := rfl
  found _ _ hends := ⟨(inDirs_ends.mp hends).1, rfl⟩

section Walks

variable [DecidableEq ι]

theorem Walk.within (h : Walk r root phase lastDir start p looked e) (hin : r.Within r') :
    Walk r' root phase lastDir start p looked e := by
  have hkinds := hin.kind
  have henters := hin.mayEnter
  induction h with
  | other hpath hkind => exact .other hpath (by rw [hkinds, hkind])
  | done hend => exact .done (by rw [hkinds]; exact hend)
  | dir hpath hkind _ ih => exact .dir hpath (by rw [hkinds, hkind]) ih
  | broken hpath hkind _ hresult ih =>
      rw [← hin.text] at ih
      exact .broken hpath (by rw [hkinds, hkind]) ih hresult
  | follow hpath hkind _ hresult _ ih ihrest =>
      rw [← hin.text] at ih
      exact .follow hpath (by rw [hkinds, hkind]) ih hresult ihrest
  | denied henter => exact .denied (by rw [henters, henter])
  | absent henter hsearch hends hnone =>
      obtain ⟨hends', hsame⟩ := hin.found _ _ hends
      exact .absent (by rw [henters, henter]) (by rw [hkinds]; exact hsearch) hends'
        (hsame.trans hnone)
  | found henter hsearch hends hsome _ ih =>
      obtain ⟨hends', hsame⟩ := hin.found _ _ hends
      exact .found (by rw [henters, henter]) (by rw [hkinds]; exact hsearch) hends'
        (hsame.trans hsome) ih

theorem Walk.unique (h : Walk r root phase lastDir start p looked e)
    (h' : Walk r root phase lastDir start p looked' e') : looked' = looked ∧ e' = e := by
  induction h generalizing looked' e' with
  | other hpath hkind =>
      cases h' with
      | other => exact ⟨rfl, rfl⟩
      | done hend => exact (hend.elim hpath fun hlast => hlast.2 hkind).elim
      | dir _ hdir => exact Kind.noConfusion (hkind.symm.trans hdir)
      | broken _ hlink => exact Kind.noConfusion (hkind.symm.trans hlink)
      | follow _ hlink => exact Kind.noConfusion (hkind.symm.trans hlink)
  | done hend =>
      cases h' with
      | other hpath hkind => exact (hend.elim hpath fun hlast => hlast.2 hkind).elim
      | done => exact ⟨rfl, rfl⟩
      | dir hpath => exact (hend.elim hpath.1 fun hlast => hpath.2 hlast.1).elim
      | broken hpath => exact (hend.elim hpath.1 fun hlast => hpath.2 hlast.1).elim
      | follow hpath => exact (hend.elim hpath.1 fun hlast => hpath.2 hlast.1).elim
  | dir hpath hkind _ ih =>
      cases h' with
      | other _ hother => exact Kind.noConfusion (hkind.symm.trans hother)
      | done hend => exact (hend.elim hpath.1 fun hlast => hpath.2 hlast.1).elim
      | dir _ _ hrest => exact ih hrest
      | broken _ hlink => exact Kind.noConfusion (hkind.symm.trans hlink)
      | follow _ hlink => exact Kind.noConfusion (hkind.symm.trans hlink)
  | broken hpath hkind _ hresult ih =>
      cases h' with
      | other _ hother => exact Kind.noConfusion (hkind.symm.trans hother)
      | done hend => exact (hend.elim hpath.1 fun hlast => hpath.2 hlast.1).elim
      | dir _ hdir => exact Kind.noConfusion (hkind.symm.trans hdir)
      | broken _ _ hnested hresult' =>
          obtain ⟨-, rfl⟩ := ih hnested
          obtain rfl := Except.error.inj (hresult.symm.trans hresult')
          exact ⟨rfl, rfl⟩
      | follow _ _ hnested hresult' =>
          obtain ⟨-, rfl⟩ := ih hnested
          cases hresult.symm.trans hresult'
  | follow hpath hkind _ hresult _ ih ihrest =>
      cases h' with
      | other _ hother => exact Kind.noConfusion (hkind.symm.trans hother)
      | done hend => exact (hend.elim hpath.1 fun hlast => hpath.2 hlast.1).elim
      | dir _ hdir => exact Kind.noConfusion (hkind.symm.trans hdir)
      | broken _ _ hnested hresult' =>
          obtain ⟨-, rfl⟩ := ih hnested
          cases hresult.symm.trans hresult'
      | follow _ _ hnested hresult' hrest =>
          obtain ⟨-, rfl⟩ := ih hnested
          obtain rfl := Except.ok.inj (hresult.symm.trans hresult')
          exact ihrest hrest
  | denied henter =>
      cases h' with
      | denied => exact ⟨rfl, rfl⟩
      | absent hmay => exact Bool.noConfusion (henter.symm.trans hmay)
      | found hmay => exact Bool.noConfusion (henter.symm.trans hmay)
  | absent henter _ _ hnone =>
      cases h' with
      | denied hdenied => exact Bool.noConfusion (hdenied.symm.trans henter)
      | absent => exact ⟨rfl, rfl⟩
      | found _ _ _ hsome => cases hnone.symm.trans hsome
  | found henter _ _ hsome _ ih =>
      cases h' with
      | denied hdenied => exact Bool.noConfusion (hdenied.symm.trans henter)
      | absent _ _ _ hnone => cases hnone.symm.trans hsome
      | found _ _ _ hsome' hrest =>
          obtain rfl := Option.some.inj (hsome.symm.trans hsome')
          obtain ⟨rfl, rfl⟩ := ih hrest
          exact ⟨rfl, rfl⟩

theorem Walk.last_found {front : List (ι × Name)} {x : ι × Name}
    (h : Walk r root phase lastDir start p (front ++ [x]) e) (hresult : e.result = .ok ip) :
    r.lookup x.1 x.2 = some ip := by
  rcases h.last_of_ok hresult with ⟨-, -, hnil, -⟩ | ⟨front', q, hlooked, hlookup, -⟩
  · simp at hnil
  · obtain ⟨-, hx⟩ := List.append_inj' hlooked rfl
    obtain rfl := List.singleton_inj.mp hx
    exact hlookup

theorem Walk.last_missed {front : List (ι × Name)} {x : ι × Name}
    (h : Walk r root phase true start p (front ++ [x]) e)
    (hresult : e.result = .error (-enoent)) : r.lookup x.1 x.2 = none := by
  obtain ⟨front', q, hlooked, hlookup, -⟩ := h.last_of_enoent hresult
  obtain ⟨-, hx⟩ := List.append_inj' hlooked rfl
  obtain rfl := List.singleton_inj.mp hx
  exact hlookup

/-- The walks which search none of the names, be it on the way along a link. -/
def Searches.without (r : Searches ι) (xs : List (ι × Name)) : Searches ι :=
  { r with ends := fun ip name => r.ends ip name && decide ((ip, name) ∉ xs) }

theorem without_ends {name : Name} :
    (r.without xs).ends ip name = true ↔ r.ends ip name = true ∧ (ip, name) ∉ xs := by
  change (r.ends ip name && decide ((ip, name) ∉ xs)) = true ↔ _
  rw [Bool.and_eq_true, decide_eq_true_iff]

theorem within_without : (r.without xs).Within r where
  kind := rfl
  mayEnter := rfl
  text := rfl
  found _ _ hends := ⟨(without_ends.mp hends).1, rfl⟩

theorem without_without {ys : List (ι × Name)} :
    (r.without xs).without ys = r.without (xs ++ ys) := by
  unfold Searches.without
  congr 1
  funext ip name
  simp [Bool.and_assoc]

theorem Walk.not_mem_of_without (h : Walk (r.without xs) root phase lastDir start p looked e) :
    ∀ x ∈ looked, x ∉ xs := by
  have hends : ∀ q : Place ι, (r.without xs).ends q.ip (firstName q.path) = true →
      q.search ∉ xs := fun q hq => (without_ends.mp hq).2
  induction h with
  | other => exact fun _ hx => absurd hx List.not_mem_nil
  | done => exact fun _ hx => absurd hx List.not_mem_nil
  | dir _ _ _ ih => exact ih
  | broken => exact fun _ hx => absurd hx List.not_mem_nil
  | follow _ _ _ _ _ _ ihrest => exact ihrest
  | denied => exact fun _ hx => absurd hx List.not_mem_nil
  | @absent _ _ p _ _ hended =>
      intro x hx
      rw [List.mem_singleton.mp hx]
      exact hends p hended
  | @found _ _ _ p _ _ _ _ hended _ _ ih =>
      intro x hx
      rcases List.mem_cons.mp hx with rfl | hx
      · exact hends p hended
      · exact ih x hx

/-- A walk to an inode searches no name which is not there. -/
theorem Walk.without_absent (h : Walk r root phase lastDir start p looked e)
    (hresult : e.result = .ok ip) (habsent : ∀ x ∈ xs, r.lookup x.1 x.2 = none) :
    Walk (r.without xs) root phase lastDir start p looked e := by
  induction h generalizing ip with
  | other => cases hresult
  | done hend => exact .done hend
  | dir hpath hkind _ ih => exact .dir hpath hkind (ih hresult)
  | broken => cases hresult
  | follow hpath hkind _ hnested _ ih ihrest =>
      exact .follow hpath hkind (ih hnested) hnested (ihrest hresult)
  | denied => cases hresult
  | absent => cases hresult
  | @found lastDir start next p looked e henter hsearch hends hsome hrest ih =>
      refine .found henter hsearch (without_ends.mpr ⟨hends, fun hin => ?_⟩) hsome (ih hresult)
      cases (habsent _ hin).symm.trans hsome

/-- The path leads to the inode. -/
def LeadsTo (r : Searches ι) (root cwd : ι) (path : Name) (ip : ι) : Prop :=
  ∃ looked e, WalksTo r root cwd path looked e ∧ e.result = .ok ip

/-- There is a way from one inode to the other along names in directories. -/
def IsBelow (r : Searches ι) : ι → ι → Prop :=
  Relation.ReflTransGen fun d c => r.kind d = .dir ∧ ∃ name, r.lookup d name = some c

/-! ## The move -/

/-- In the directories, the name `xo` of the inode becomes `xn`. -/
structure MovesName (r r' : Searches ι) (xo xn : ι × Name) (ip : ι) : Prop extends
    SameInodes r r' where
  oldDir : r.kind xo.1 = .dir
  newDir : r.kind xn.1 = .dir
  old : r.lookup xo.1 xo.2 = some ip
  new : r.lookup xn.1 xn.2 = none
  lookup : ∀ d, r.kind d = .dir → ∀ name, r'.lookup d name =
    if (d, name) = xn then some ip else if (d, name) = xo then none else r.lookup d name
  ends : ∀ d, r.kind d = .dir → ∀ name, r.ends d name = true
  ends' : ∀ d, r.kind d = .dir → ∀ name, r'.ends d name = true

namespace MovesName

variable (h : MovesName r r' xo xn ip)

include h

theorem ne : xo ≠ xn := by
  rintro rfl
  cases h.new.symm.trans h.old

theorem lookup_old : r'.lookup xo.1 xo.2 = none := by
  rw [h.lookup _ h.oldDir, if_neg h.ne, if_pos rfl]

theorem lookup_new : r'.lookup xn.1 xn.2 = some ip := by
  rw [h.lookup _ h.newDir, if_pos rfl]

theorem lookup_other {d : ι} {name : Name} (hdir : r.kind d = .dir) (hn : (d, name) ≠ xn)
    (ho : (d, name) ≠ xo) : r'.lookup d name = r.lookup d name := by
  rw [h.lookup d hdir, if_neg hn, if_neg ho]

/-- Walks through directories which search neither name are the same. -/
theorem within : (r.inDirs.without [xo, xn]).Within r' where
  kind := h.kind
  mayEnter := h.mayEnter
  text := h.text
  found d name hends := by
    obtain ⟨hboth, hother⟩ := without_ends.mp hends
    have hdir := (inDirs_ends.mp hboth).2
    simp only [List.mem_cons, List.not_mem_nil, or_false, not_or] at hother
    exact ⟨h.ends' d hdir name, h.lookup_other hdir hother.2 hother.1⟩

theorem within_back : (r'.inDirs.without [xo, xn]).Within r where
  kind := h.kind.symm
  mayEnter := h.mayEnter.symm
  text := h.text.symm
  found d name hends := by
    obtain ⟨hboth, hother⟩ := without_ends.mp hends
    have hdir : r.kind d = .dir := (congrFun h.kind d).symm.trans (inDirs_ends.mp hboth).2
    simp only [List.mem_cons, List.not_mem_nil, or_false, not_or] at hother
    exact ⟨h.ends d hdir name, (h.lookup_other hdir hother.2 hother.1).symm⟩

theorem search_ne {q : Place ι} {next next' : ι} (hdir : r.kind q.ip = .dir)
    (hsome : r.lookup q.ip (firstName q.path) = some next)
    (hsome' : r'.lookup q.ip (firstName q.path) = some next') :
    q.search ≠ xo ∧ q.search ≠ xn ∧ next' = next := by
  have hn : q.search ≠ xn := by
    rintro rfl
    cases h.new.symm.trans hsome
  have ho : q.search ≠ xo := by
    rintro rfl
    cases h.lookup_old.symm.trans hsome'
  have hsame := (h.lookup_other hdir hn ho).symm.trans hsome'
  exact ⟨ho, hn, (Option.some.inj (hsome.symm.trans hsame)).symm⟩

/-- Where a walk led to an inode before and leads to one now, the old name has not been searched. -/
theorem avoids_of_ok {ip₁ ip₂ : ι} (hwalk : Walk r.inDirs root phase lastDir start p looked e)
    (hok : e.result = .ok ip₁) (hwalk' : Walk r' root phase lastDir start p looked' e')
    (hok' : e'.result = .ok ip₂) :
    Walk (r.inDirs.without [xo]) root phase lastDir start p looked e ∧ e' = e := by
  induction hwalk generalizing looked' e' ip₁ ip₂ with
  | other => cases hok
  | done hend =>
      cases hwalk' with
      | other => cases hok'
      | done => exact ⟨.done hend, rfl⟩
      | dir hpath => exact (hend.elim hpath.1 fun hlast => hpath.2 hlast.1).elim
      | broken hpath => exact (hend.elim hpath.1 fun hlast => hpath.2 hlast.1).elim
      | follow hpath => exact (hend.elim hpath.1 fun hlast => hpath.2 hlast.1).elim
  | dir hpath hkind _ ih =>
      cases hwalk' with
      | other => cases hok'
      | done hend => exact (hend.elim hpath.1 fun hlast => hpath.2 hlast.1).elim
      | dir _ _ hrest' =>
          obtain ⟨hrest, rfl⟩ := ih hok hrest' hok'
          exact ⟨.dir hpath hkind hrest, rfl⟩
      | broken => cases hok'
      | follow _ hlink =>
          rw [h.kind] at hlink
          cases hlink.symm.trans hkind
  | broken => cases hok
  | follow hpath hkind _ hnested _ ih ihrest =>
      cases hwalk' with
      | other => cases hok'
      | done hend => exact (hend.elim hpath.1 fun hlast => hpath.2 hlast.1).elim
      | dir _ hdir =>
          rw [h.kind] at hdir
          cases hdir.symm.trans hkind
      | broken => cases hok'
      | follow _ _ hinner hnested' hrest' =>
          rw [h.text] at hinner
          obtain ⟨hinner, rfl⟩ := ih hnested hinner hnested'
          obtain rfl := Except.ok.inj (hnested.symm.trans hnested')
          obtain ⟨hrest, rfl⟩ := ihrest hok hrest' hok'
          exact ⟨.follow hpath hkind hinner hnested hrest, rfl⟩
  | denied => cases hok
  | absent => cases hok
  | found henter hsearch hends hsome _ ih =>
      cases hwalk' with
      | denied => cases hok'
      | absent => cases hok'
      | found _ _ _ hsome' hrest' =>
          obtain ⟨ho, -, rfl⟩ := h.search_ne (inDirs_ends.mp hends).2 hsome hsome'
          obtain ⟨hrest, rfl⟩ := ih hok hrest' hok'
          have hends' := without_ends.mpr ⟨hends, mt List.mem_singleton.mp ho⟩
          exact ⟨.found henter hsearch hends' hsome hrest, rfl⟩

/-- The same for a walk which only missed the new name. -/
theorem avoids_of_enoent {front : List (ι × Name)} {ip' : ι}
    (hwalk : Walk r.inDirs root phase true start p (front ++ [xn]) e)
    (hfailed : e.result = .error (-enoent)) (hwalk' : Walk r' root phase true start p looked' e')
    (hok' : e'.result = .ok ip') :
    Walk (r.inDirs.without [xo]) root phase true start p (front ++ [xn]) e := by
  generalize hmode : true = mode at hwalk hwalk' ⊢
  generalize hlooked : front ++ [xn] = looked at hwalk ⊢
  induction hwalk generalizing front looked' e' with
  | other => exact absurd (Except.error.inj hfailed) (by decide)
  | done => cases hfailed
  | dir hpath hkind _ ih =>
      cases hwalk' with
      | other => cases hok'
      | done hend => exact (hend.elim hpath.1 fun hlast => hpath.2 hlast.1).elim
      | dir _ _ hrest' => exact .dir hpath hkind (ih hfailed hok' hmode hrest' hlooked)
      | broken => cases hok'
      | follow _ hlink =>
          rw [h.kind] at hlink
          cases hlink.symm.trans hkind
  | broken => cases hmode
  | follow hpath hkind hinner hnested _ _ ihrest =>
      cases hwalk' with
      | other => cases hok'
      | done hend => exact (hend.elim hpath.1 fun hlast => hpath.2 hlast.1).elim
      | dir _ hdir =>
          rw [h.kind] at hdir
          cases hdir.symm.trans hkind
      | broken => cases hok'
      | follow _ _ hinner' hnested' hrest' =>
          rw [h.text] at hinner'
          obtain ⟨havoids, rfl⟩ := h.avoids_of_ok hinner hnested hinner' hnested'
          obtain rfl := Except.ok.inj (hnested.symm.trans hnested')
          exact .follow hpath hkind havoids hnested (ihrest hfailed hok' hmode hrest' hlooked)
  | denied => exact absurd (Except.error.inj hfailed) (by decide)
  | @absent _ start p henter hsearch hends hnone =>
      obtain rfl : xn = p.search := by
        have hlast := congrArg List.getLast? hlooked
        simpa using hlast
      exact .absent henter hsearch (without_ends.mpr ⟨hends, mt List.mem_singleton.mp h.ne.symm⟩) hnone
  | @found _ start next p looked e henter hsearch hends hsome _ ih =>
      cases hwalk' with
      | denied => cases hok'
      | absent => cases hok'
      | found _ _ _ hsome' hrest' =>
          obtain ⟨ho, hn, rfl⟩ := h.search_ne (inDirs_ends.mp hends).2 hsome hsome'
          cases front with
          | nil => exact (hn (List.cons.inj hlooked).1.symm).elim
          | cons x front =>
              have hends' := without_ends.mpr ⟨hends, mt List.mem_singleton.mp ho⟩
              exact .found henter hsearch hends' hsome
                (ih hfailed hok' hmode hrest' (List.cons.inj hlooked).2)

theorem old_gone {front : List (ι × Name)}
    (hold : WalksTo r.inDirs root cwd old (front ++ [xo]) e)
    (hresult : e.result = .ok ip) (ip' : ι) : ¬LeadsTo r' root cwd old ip' := by
  rintro ⟨looked', e', hwalk', hresult'⟩
  have havoids := (h.avoids_of_ok hold hresult hwalk' hresult').1
  exact havoids.not_mem_of_without xo (List.mem_append_right _ (List.mem_singleton_self xo))
    (List.mem_singleton_self xo)

/-- Where only the last name was missing, the new path leads to the inode. -/
theorem new_leads {front : List (ι × Name)}
    (hnew : Walk (r.inDirs.without [xo]) root phase true start p (front ++ [xn]) e)
    (hresult : e.result = .error (-enoent)) (hbase : e.base = some xn.2) :
    ∃ e', Walk r' root phase true start p (front ++ [xn]) e' ∧ e'.result = .ok ip := by
  generalize hmode : true = mode at hnew ⊢
  generalize hlooked : front ++ [xn] = looked at hnew ⊢
  induction hnew generalizing front with
  | other => exact absurd (Except.error.inj hresult) (by decide)
  | done => cases hresult
  | dir hpath hkind _ ih =>
      obtain ⟨e', hwalk, hok⟩ := ih hresult hbase hmode hlooked
      exact ⟨e', .dir hpath (by rw [h.kind]; exact hkind) hwalk, hok⟩
  | broken => cases hmode
  | follow hpath hkind hnested hfound _ _ ihrest =>
      obtain ⟨e', hwalk, hok⟩ := ihrest hresult hbase hmode hlooked
      have hnone : ∀ x ∈ [xn], (r.inDirs.without [xo]).lookup x.1 x.2 = none := by
        intro x hx
        rw [List.mem_singleton.mp hx]
        exact h.new
      have havoids := hnested.without_absent hfound hnone
      rw [without_without] at havoids
      have hinner := havoids.within h.within
      have htext : (r.inDirs.without [xo]).text = r'.text := h.text.symm
      rw [htext] at hinner
      exact ⟨e', .follow hpath (by rw [h.kind]; exact hkind) hinner hfound hwalk, hok⟩
  | denied => exact absurd (Except.error.inj hresult) (by decide)
  | @absent _ start p henter hsearch hends hnone =>
      obtain rfl : xn = p.search := by
        have hlast := congrArg List.getLast? hlooked
        simpa using hlast
      have hrest : behindName p.path = [] := by
        rw [← List.append_cancel_left_eq (firstName p.path), firstName_append, List.append_nil]
        exact Option.some.inj hbase
      have hfound : r'.lookup p.ip (firstName p.path) = some ip := h.lookup_new
      exact ⟨_, .found (by rw [h.mayEnter]; exact henter) (by rw [h.kind]; exact hsearch)
        (h.ends' _ h.newDir _) hfound (.done (Or.inl hrest)), rfl⟩
  | @found _ start next p looked e henter hsearch hends hsome hrest ih =>
      cases front with
      | nil =>
          obtain ⟨hfirst, -⟩ := List.cons.inj hlooked
          have hnone : r.lookup p.ip (firstName p.path) = none := by
            have hn := h.new
            rw [hfirst] at hn
            exact hn
          cases hnone.symm.trans hsome
      | cons x front =>
          obtain ⟨rfl, hbehind⟩ := List.cons.inj hlooked
          obtain ⟨e', hwalk, hok⟩ := ih hresult hbase hmode hbehind
          have hn : p.search ≠ xn := by
            rintro rfl
            cases h.new.symm.trans hsome
          obtain ⟨hboth, ho⟩ := without_ends.mp hends
          have hdir := (inDirs_ends.mp hboth).2
          exact ⟨e', .found (by rw [h.mayEnter]; exact henter) (by rw [h.kind]; exact hsearch)
            (h.ends' _ hdir _) ((h.lookup_other hdir hn (by simpa using ho)).trans hsome) hwalk,
            hok⟩

theorem parent_eq (hdir : r.kind ip = .dir) (hold : xo.2 ≠ dotDot)
    (hparent : r.lookup ip dotDot = some xo.1) : r'.lookup ip dotDot = some xo.1 := by
  have hn : (ip, dotDot) ≠ xn := by
    rintro rfl
    cases h.new.symm.trans hparent
  have ho : (ip, dotDot) ≠ xo := by
    rintro rfl
    exact hold rfl
  rw [h.lookup_other hdir hn ho, hparent]

/-- No directory is lost, if a directory is not moved away from its parent. -/
theorem isBelow {d : ι} (hparent : r.kind ip = .dir → xo.1 = xn.1) (hdir : r.kind d = .dir)
    (hbelow : IsBelow r root d) : IsBelow r' root d := by
  induction hbelow with
  | refl => exact .refl
  | @tail b c _ hedge ih =>
      obtain ⟨hb, name, hname⟩ := hedge
      have hb' : r'.kind b = .dir := (congrFun h.kind b).trans hb
      refine (ih hb).tail ⟨hb', ?_⟩
      have hn : (b, name) ≠ xn := by
        rintro rfl
        cases h.new.symm.trans hname
      by_cases ho : (b, name) = xo
      · subst ho
        obtain rfl := Option.some.inj (h.old.symm.trans hname)
        have hsame : b = xn.1 := hparent hdir
        exact ⟨xn.2, hsame ▸ h.lookup_new⟩
      · exact ⟨name, (h.lookup_other hb hn ho).trans hname⟩

end MovesName

/-- What a rename does: the new path leads to the inode of the old one, which leads nowhere; paths
which search directories only and pass through neither name lead where they led; the parent of a
moved directory is its new one; and no directory is lost. -/
structure Renamed (r r' : Searches ι) (root cwd : ι) (old new : Name) (xo xn : ι × Name) (ip : ι) :
    Prop where
  before : LeadsTo r root cwd old ip
  after : LeadsTo r' root cwd new ip
  gone : ∀ ip', ¬LeadsTo r' root cwd old ip'
  kept : ∀ cwd path ip', LeadsTo (r.inDirs.without [xo, xn]) root cwd path ip' →
    LeadsTo r' root cwd path ip'
  nothingElse : ∀ cwd path ip', LeadsTo (r'.inDirs.without [xo, xn]) root cwd path ip' →
    LeadsTo r root cwd path ip'
  parent : r'.kind ip = .dir → r'.lookup ip dotDot = some xn.1
  reachable : ∀ d, r.kind d = .dir → IsBelow r root d → IsBelow r' root d

theorem LeadsTo.within (h : LeadsTo r root cwd path ip) (hin : r.Within r') :
    LeadsTo r' root cwd path ip := by
  obtain ⟨looked, e, hwalk, hresult⟩ := h
  exact ⟨looked, e, hwalk.within hin, hresult⟩

/-- A name which moves renames exactly if the new path does not pass through the old name, and a
directory stays below its parent. -/
theorem MovesName.renamed_iff_avoids {front front' : List (ι × Name)}
    (h : MovesName r r' xo xn ip) (hold : WalksTo r.inDirs root cwd old (front ++ [xo]) e)
    (hresult : e.result = .ok ip)
    (hdots : xo.2 ≠ dotDot) (hnew : WalksTo r.inDirs root cwd new (front' ++ [xn]) e')
    (hresult' : e'.result = .error (-enoent)) (hbase' : e'.base = some xn.2)
    (hparent : r.kind ip = .dir → r.lookup ip dotDot = some xo.1) :
    Renamed r r' root cwd old new xo xn ip ↔
      (∃ looked e, WalksTo (r.inDirs.without [xo]) root cwd new looked e) ∧
        (r.kind ip = .dir → xo.1 = xn.1) := by
  constructor
  · intro hrenamed
    obtain ⟨looked, e'', hwalk', hok⟩ := hrenamed.after
    refine ⟨⟨_, e', h.avoids_of_enoent hnew hresult' hwalk' hok⟩, ?_⟩
    intro hdir
    have hnamed := hrenamed.parent ((congrFun h.kind ip).trans hdir)
    rw [h.parent_eq hdir hdots (hparent hdir)] at hnamed
    exact Option.some.inj hnamed
  · rintro ⟨⟨looked, e'', havoids⟩, hsame⟩
    obtain ⟨rfl, rfl⟩ := Walk.unique hnew (havoids.within within_without)
    obtain ⟨e', hwalk, hok⟩ := h.new_leads havoids hresult' hbase'
    exact
      { before := ⟨_, e, hold.within within_inDirs, hresult⟩
        after := ⟨_, e', hwalk, hok⟩
        gone := h.old_gone hold hresult
        kept := fun _ _ _ hleads => hleads.within h.within
        nothingElse := fun _ _ _ hleads => hleads.within h.within_back
        parent := fun hkind => by
          have hdir := (congrFun h.kind ip).symm.trans hkind
          rw [h.parent_eq hdir hdots (hparent hdir), hsame hdir]
        reachable := fun _ hdir => h.isBelow hsame hdir }

end Walks

end Yak.Ext2
