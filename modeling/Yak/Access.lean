import Yak.Namei

/-!
# Permission to access a file

A transcription of `kernel_access` and `ext2_access`.  A path which is no pointer of the user is
`none`, as is a file system which is not mounted.
-/

namespace Yak.Ext2

def erofs : ℤ := 72

def fOk : BitVec 32 := 0
def xOk : BitVec 32 := 1
def wOk : BitVec 32 := 2
def rOk : BitVec 32 := 4

/-- What `ext2_access` reads of an inode. -/
structure Owned where
  iMode : BitVec 16
  iUid : BitVec 16
  iGid : BitVec 16

/-- The real ids of the current process. -/
structure Caller where
  uid : ℤ
  gid : ℤ

variable {ι : Type} [DecidableEq ι]

/-- The mode as `ext2_access` shifts it. -/
def Caller.shiftedMode (c : Caller) (ino : Owned) : BitVec 32 :=
  let mode := ino.iMode.setWidth 32
  if c.uid = ino.iUid.toNat then mode >>> 6
  else if c.gid = ino.iGid.toNat then mode >>> 3
  else mode

/-- `ext2_access` -/
def ext2Access (fuel : ℕ) (t : Tree ι) (root cwd : ι) (inode : ι → Owned) (c : Caller)
    (path : Name) (amode : BitVec 32) : Except Halt ℤ :=
  if c.uid = 0 then .ok 0
  else do
    let w ← namei fuel t root cwd false path
    match w.result with
    | .error e => .ok e
    | .ok ip => .ok (if c.shiftedMode (inode ip) &&& amode ≠ 0 then 0 else -eacces)

/-- `kernel_access`.  Of the file system it reads `f_read_only`. -/
def kernelAccess (fuel : ℕ) (t : Tree ι) (root cwd : ι) (inode : ι → Owned) (c : Caller)
    (fReadOnly : Option Bool) (path : Option Name) (amode : BitVec 32) : Except Halt ℤ :=
  match path with
  | none => .ok (-efault)
  | some path =>
      if ¬(amode &&& rOk ≠ 0 ∧ amode &&& wOk ≠ 0 ∧ amode &&& xOk ≠ 0) ∧ amode ≠ fOk then
        .ok (-einval)
      else
        match fReadOnly with
        | none => .ok (-einval)
        | some readOnly =>
            if readOnly = true ∧ amode &&& wOk ≠ 0 then .ok (-erofs)
            else ext2Access fuel t root cwd inode c path amode

/-! ## The reference -/

inductive PermissionClass where
  | owner
  | group
  | other
  deriving DecidableEq

/-- Where the bits of a class are in the mode. -/
def PermissionClass.shift : PermissionClass → ℕ
  | .owner => 6
  | .group => 3
  | .other => 0

def Caller.permissionClass (c : Caller) (ino : Owned) : PermissionClass :=
  if c.uid = ino.iUid.toNat then .owner
  else if c.gid = ino.iGid.toNat then .group
  else .other

/-- The bit `i` of a request is granted. -/
def Caller.MayBit (c : Caller) (ino : Owned) (i : ℕ) : Prop :=
  ino.iMode.getLsbD ((c.permissionClass ino).shift + i) = true

/-- Every requested bit is granted. -/
def Caller.Granted (c : Caller) (ino : Owned) (amode : BitVec 32) : Prop :=
  ∀ i, amode.getLsbD i = true → c.MayBit ino i

/-- The tree for a caller who may search everything. -/
def Tree.searchable (t : Tree ι) : Tree ι := { t with mayEnter := fun _ => true }

/-- `ext2_namei` leads to the inode. -/
def Reaches (t : Tree ι) (root cwd : ι) (path : Name) (ip : ι) : Prop :=
  ∃ fuel w, namei fuel t root cwd false path = .ok w ∧ w.result = .ok ip

/-- `F_OK`, or a combination of `R_OK`, `W_OK` and `X_OK`. -/
def Requestable (amode : BitVec 32) : Prop := amode &&& (rOk ||| wOk ||| xOk) = amode

/-- The result is 0 exactly if the path names a file, whoever may search the
directories, and the caller is the super user or is granted every bit. -/
def AccessReports (t : Tree ι) (root cwd : ι) (inode : ι → Owned) (c : Caller)
    (fReadOnly : Option Bool) (path : Name) (amode : BitVec 32) : Prop :=
  (∃ fuel, kernelAccess fuel t root cwd inode c fReadOnly (some path) amode = .ok 0) ↔
    ∃ ip, Reaches t.searchable root cwd path ip ∧ (c.uid = 0 ∨ c.Granted (inode ip) amode)

/-- `kernel_access` does not ask the file system: for some but not all of the three bits, without
a file system, and for writing to a read-only one. -/
def Refused (fReadOnly : Option Bool) (amode : BitVec 32) : Prop :=
  (amode ≠ rOk ||| wOk ||| xOk ∧ amode ≠ fOk) ∨ fReadOnly = none ∨
    (fReadOnly = some true ∧ amode ≠ fOk)

/-- A refused request is for no file, or not for an allowed one.  The super user asks for a file
which exists, and others do not ask for its existence only.  For all three bits, no class has some
but not all of them, and the caller may search the directories of a file with all of them. -/
structure Reportable (t : Tree ι) (root cwd : ι) (inode : ι → Owned) (c : Caller)
    (fReadOnly : Option Bool) (path : Name) (amode : BitVec 32) : Prop where
  refused : Refused fReadOnly amode → ∀ ip, Reaches t.searchable root cwd path ip →
    c.uid ≠ 0 ∧ ¬c.Granted (inode ip) amode
  superUser : ¬Refused fReadOnly amode → c.uid = 0 → ∃ ip, Reaches t.searchable root cwd path ip
  existence : ¬Refused fReadOnly amode → c.uid ≠ 0 → amode = fOk →
    ∀ ip, ¬Reaches t.searchable root cwd path ip
  partly : ¬Refused fReadOnly amode → c.uid ≠ 0 → amode ≠ fOk →
    ∀ ip, Reaches t root cwd path ip → (∃ i < 3, c.MayBit (inode ip) i) →
      ∀ i < 3, c.MayBit (inode ip) i
  searched : ¬Refused fReadOnly amode → c.uid ≠ 0 → amode ≠ fOk →
    ∀ ip, Reaches t.searchable root cwd path ip → (∀ i < 3, c.MayBit (inode ip) i) →
      Reaches t root cwd path ip

/-! ## Walks of a caller who may search more -/

variable {t : Tree ι} {root cwd start ip : ι} {path : Name} {lastDir : Bool} {fuel : ℕ}
  {s : Walker ι} {w : Outcome ι}

theorem advance_searchable_eq (t : Tree ι) (lastDir : Bool) (start : ι) (s : Walker ι) :
    advance t.searchable lastDir start s =
      if s.ip ≠ start ∧ lastDir = true ∧ t.kind s.ip ≠ .dir then .error .nullDeref
      else
        match t.lookup s.ip (firstName s.path) with
        | none => .ok (.inl ((s.pass start).stop (.error (-enoent)) 0))
        | some ip => .ok (.inr { s.pass start with ip }) := if_neg (by simp [Tree.searchable])

theorem advance_searchable {s' : Walker ι} (h : advance t lastDir start s = .ok (.inr s')) :
    advance t.searchable lastDir start s = .ok (.inr s') := by
  unfold advance at h
  split at h
  next => cases Except.ok.inj h
  next hmay =>
    rw [advance_searchable_eq]
    exact h

theorem advance_ne_found (h : advance t lastDir start s = .ok (.inl w)) : w.result ≠ .ok ip := by
  intro hresult
  unfold advance at h
  split at h
  next =>
    obtain rfl := Sum.inl.inj (Except.ok.inj h)
    cases hresult
  next =>
    split at h
    next => cases h
    next =>
      split at h
      next =>
        obtain rfl := Sum.inl.inj (Except.ok.inj h)
        cases hresult
      next => cases Except.ok.inj h

/-- A walk to an inode is the same walk for someone who may search everything. -/
theorem nameiLoop_searchable (h : nameiLoop t root fuel lastDir start s = .ok w)
    (hresult : w.result = .ok ip) :
    nameiLoop t.searchable root fuel lastDir start s = .ok w := by
  induction fuel generalizing lastDir start s w ip with
  | zero => cases h
  | succ fuel ih =>
      have hadvance : ∀ s', advance t lastDir start s' >>=
          Sum.elim .ok (nameiLoop t root fuel lastDir start) = .ok w →
          advance t.searchable lastDir start s' >>=
            Sum.elim .ok (nameiLoop t.searchable root fuel lastDir start) = .ok w := by
        intro s' hrun
        obtain ⟨y, hy, hrest⟩ := bind_eq_ok.mp hrun
        cases y with
        | inl w' =>
            obtain rfl := Except.ok.inj hrest
            exact absurd hresult (advance_ne_found hy)
        | inr s'' =>
            rw [advance_searchable hy, ok_bind]
            exact ih hrest hresult
      have hkind : t.searchable.kind = t.kind := rfl
      have htext : t.searchable.text = t.text := rfl
      rw [nameiLoop] at h ⊢
      rw [hkind, htext]
      split at h
      next hother =>
        rwa [if_pos hother]
      next hother =>
        rw [if_neg hother]
        split at h
        next hend => rwa [if_pos hend]
        next hend =>
          rw [if_neg hend]
          split at h
          next hlink =>
            rw [if_pos hlink]
            split at h
            next hmax => rwa [if_pos hmax]
            next hmax =>
              rw [if_neg hmax]
              obtain ⟨nested, hnested, hrest⟩ := bind_eq_ok.mp h
              dsimp only at hnested hrest ⊢
              cases hdp : nested.result with
              | error e =>
                  rw [hdp] at hrest
                  dsimp only at hrest
                  split at hrest
                  next => cases hrest
                  next =>
                    obtain rfl := Except.ok.inj hrest
                    cases hresult
              | ok dp =>
                  rw [hdp] at hrest
                  rw [ih hnested hdp, ok_bind, hdp]
                  exact hadvance _ hrest
          next hlink =>
            rw [if_neg hlink]
            exact hadvance _ h

theorem Reaches.searchable (h : Reaches t root cwd path ip) :
    Reaches t.searchable root cwd path ip := by
  obtain ⟨fuel, w, hrun, hresult⟩ := h
  exact ⟨fuel, w, nameiLoop_searchable hrun hresult, hresult⟩

theorem Reaches.unique {ip' : ι} (h : Reaches t root cwd path ip)
    (h' : Reaches t root cwd path ip') : ip = ip' := by
  obtain ⟨fuel, w, hrun, hresult⟩ := h
  obtain ⟨fuel', w', hrun', hresult'⟩ := h'
  obtain rfl := nameiLoop_unique hrun hrun'
  exact Except.ok.inj (hresult.symm.trans hresult')

/-! ## Bits -/

variable {c : Caller} {ino : Owned} {amode : BitVec 32} {fReadOnly : Option Bool}
  {inode : ι → Owned}

theorem all_bits : rOk ||| wOk ||| xOk = 7#32 := by decide

theorem getLsbD_all_bits (i : ℕ) : (7#32).getLsbD i = decide (i < 3) := by
  by_cases hi : i < 32
  · revert i
    decide
  · rw [BitVec.getLsbD_of_ge _ _ (Nat.not_lt.mp hi)]
    symm
    simp only [decide_eq_false_iff_not]
    omega

theorem shiftedMode_eq (c : Caller) (ino : Owned) :
    c.shiftedMode ino = ino.iMode.setWidth 32 >>> (c.permissionClass ino).shift := by
  unfold Caller.shiftedMode Caller.permissionClass
  split
  · rfl
  · split <;> simp [PermissionClass.shift]

theorem getLsbD_shiftedMode {i : ℕ} (hi : i < 3) :
    (c.shiftedMode ino).getLsbD i = true ↔ c.MayBit ino i := by
  have hshift : (c.permissionClass ino).shift ≤ 6 := by
    cases c.permissionClass ino <;> decide
  unfold Caller.MayBit
  rw [shiftedMode_eq, BitVec.getLsbD_ushiftRight, BitVec.getLsbD_setWidth]
  simp only [Bool.and_eq_true, decide_eq_true_eq, and_iff_right_iff_imp]
  omega

/-- The test of `ext2_access` is for one of the bits. -/
theorem shiftedMode_and_ne_zero_iff :
    c.shiftedMode ino &&& 7#32 ≠ 0 ↔ ∃ i < 3, c.MayBit ino i := by
  constructor
  · intro hne
    by_contra hnone
    have hzero : c.shiftedMode ino &&& 7#32 = 0#32 := BitVec.eq_of_getLsbD_eq fun i _ => ?_
    · exact hne hzero
    rw [BitVec.getLsbD_and, getLsbD_all_bits, BitVec.getLsbD_zero, Bool.and_eq_false_iff]
    by_cases hi : i < 3
    · refine Or.inl ?_
      rw [Bool.eq_false_iff]
      exact fun hbit => hnone ⟨i, hi, (getLsbD_shiftedMode hi).mp hbit⟩
    · exact Or.inr (decide_eq_false hi)
  · rintro ⟨i, hi, hbit⟩ hzero
    have hand : (c.shiftedMode ino &&& 7#32).getLsbD i = true := by
      rw [BitVec.getLsbD_and, getLsbD_all_bits, (getLsbD_shiftedMode hi).mpr hbit]
      simpa using hi
    rw [hzero] at hand
    simp at hand

theorem granted_all_iff : c.Granted ino 7#32 ↔ ∀ i < 3, c.MayBit ino i := by
  unfold Caller.Granted
  simp only [getLsbD_all_bits, decide_eq_true_eq]

theorem granted_fOk : c.Granted ino fOk := by
  intro i hi
  simp [fOk] at hi

/-! ## Results -/

theorem ext2Access_eq_zero_iff (hreal : c.uid ≠ 0) :
    (∃ fuel, ext2Access fuel t root cwd inode c path amode = .ok 0) ↔
      ∃ ip, Reaches t root cwd path ip ∧ c.shiftedMode (inode ip) &&& amode ≠ 0 := by
  unfold ext2Access
  simp only [if_neg hreal]
  constructor
  · rintro ⟨fuel, hrun⟩
    obtain ⟨w, hwalk, hrest⟩ := bind_eq_ok.mp hrun
    cases hresult : w.result with
    | error e =>
        rw [hresult] at hrest
        have hneg := nameiLoop_error hwalk hresult
        have hzero := Except.ok.inj hrest
        omega
    | ok ip =>
        rw [hresult] at hrest
        have hzero := Except.ok.inj hrest
        split at hzero
        next hbits => exact ⟨ip, ⟨fuel, w, hwalk, hresult⟩, hbits⟩
        next => exact absurd hzero (by decide)
  · rintro ⟨ip, ⟨fuel, w, hwalk, hresult⟩, hbits⟩
    refine ⟨fuel, ?_⟩
    rw [hwalk, ok_bind, hresult]
    dsimp only
    rw [if_pos hbits]

/-- The check of the arguments lets all bits pass, and `F_OK`. -/
theorem Requestable.bits_iff (h : Requestable amode) :
    (amode &&& rOk ≠ 0 ∧ amode &&& wOk ≠ 0 ∧ amode &&& xOk ≠ 0 ↔ amode = 7#32) ∧
      (amode &&& wOk ≠ 0 → amode ≠ fOk) := by
  have hvalue : amode.toNat % 2 ^ 3 = amode.toNat := by
    have hand := congrArg BitVec.toNat h
    rw [all_bits, BitVec.toNat_and] at hand
    rwa [← Nat.and_two_pow_sub_one_eq_mod]
  have hlt : amode.toNat < 8 := by
    rw [← hvalue]
    exact Nat.mod_lt _ (by decide)
  have hamode : amode = BitVec.ofNat 32 amode.toNat := by simp
  rw [hamode]
  generalize amode.toNat = n at hlt
  clear hvalue hamode h
  revert n
  decide

theorem Requestable.check_iff (h : Requestable amode) :
    ¬(amode &&& rOk ≠ 0 ∧ amode &&& wOk ≠ 0 ∧ amode &&& xOk ≠ 0) ∧ amode ≠ fOk ↔
      amode ≠ rOk ||| wOk ||| xOk ∧ amode ≠ fOk := by
  rw [h.bits_iff.1, all_bits]

/-- A refused request gets an error code, and the others are those of `ext2_access`. -/
theorem kernelAccess_refused (hreq : Requestable amode) (h : Refused fReadOnly amode)
    (fuel : ℕ) : kernelAccess fuel t root cwd inode c fReadOnly (some path) amode ≠ .ok 0 := by
  unfold kernelAccess
  dsimp only
  by_cases hbits : amode ≠ rOk ||| wOk ||| xOk ∧ amode ≠ fOk
  · rw [if_pos (hreq.check_iff.mpr hbits)]
    simp [einval]
  · rw [if_neg (hreq.check_iff.not.mpr hbits)]
    rcases h with hpart | rfl | ⟨rfl, hne⟩
    · exact absurd hpart hbits
    · simp [einval]
    · have hall : amode = 7#32 := by
        rw [all_bits] at hbits
        by_contra hother
        exact hbits ⟨hother, hne⟩
      rw [hall]
      simp [wOk, erofs]

theorem kernelAccess_eq (hreq : Requestable amode) (h : ¬Refused fReadOnly amode) (fuel : ℕ) :
    kernelAccess fuel t root cwd inode c fReadOnly (some path) amode =
      ext2Access fuel t root cwd inode c path amode := by
  unfold Refused at h
  rw [not_or, not_or] at h
  obtain ⟨hbits, hmounted, hwritable⟩ := h
  unfold kernelAccess
  dsimp only
  rw [if_neg (hreq.check_iff.not.mpr hbits)]
  cases hfs : fReadOnly with
  | none => exact absurd hfs hmounted
  | some readOnly =>
      apply if_neg
      rintro ⟨rfl, hwrite⟩
      exact hwritable ⟨hfs, hreq.bits_iff.2 hwrite⟩

/-- A request which is not refused is for the existence or for all bits. -/
theorem eq_all_of_not_refused (h : ¬Refused fReadOnly amode) (hne : amode ≠ fOk) :
    amode = 7#32 := by
  rw [← all_bits]
  by_contra hother
  exact h (Or.inl ⟨hother, hne⟩)

section Requests

variable (hreq : Requestable amode)

include hreq

theorem accessReports_refused (h : Refused fReadOnly amode) :
    AccessReports t root cwd inode c fReadOnly path amode ↔
      ∀ ip, Reaches t.searchable root cwd path ip → c.uid ≠ 0 ∧ ¬c.Granted (inode ip) amode := by
  have hfail : ¬∃ fuel, kernelAccess fuel t root cwd inode c fReadOnly (some path) amode =
      .ok 0 := fun ⟨fuel, hrun⟩ => kernelAccess_refused hreq h fuel hrun
  unfold AccessReports
  rw [iff_false_left hfail]
  constructor
  · intro hno ip hip
    exact not_or.mp fun hyes => hno ⟨ip, hip, hyes⟩
  · rintro hno ⟨ip, hip, hyes⟩
    obtain ⟨hreal, hnot⟩ := hno ip hip
    exact hyes.elim hreal hnot

variable (h : ¬Refused fReadOnly amode)

include h

/-- The super user is not told whether there is a file. -/
theorem accessReports_superUser (hsuper : c.uid = 0) :
    AccessReports t root cwd inode c fReadOnly path amode ↔
      ∃ ip, Reaches t.searchable root cwd path ip := by
  have hzero : ∃ fuel, ext2Access fuel t root cwd inode c path amode = .ok 0 := ⟨0, if_pos hsuper⟩
  unfold AccessReports
  simp only [kernelAccess_eq hreq h]
  rw [iff_true_left hzero]
  simp [hsuper]

/-- Others are always told that there is none. -/
theorem accessReports_existence (hreal : c.uid ≠ 0) (hexist : amode = fOk) :
    AccessReports t root cwd inode c fReadOnly path amode ↔
      ∀ ip, ¬Reaches t.searchable root cwd path ip := by
  unfold AccessReports
  simp only [kernelAccess_eq hreq h]
  rw [ext2Access_eq_zero_iff hreal]
  have hand : ∀ ip, c.shiftedMode (inode ip) &&& fOk = 0 := fun _ => BitVec.and_zero
  simp [hreal, hexist, hand, granted_fOk]

/-- Some of the bits count as all of them. -/
theorem accessReports_all (hreal : c.uid ≠ 0) (hne : amode ≠ fOk) :
    AccessReports t root cwd inode c fReadOnly path amode ↔
      (∀ ip, Reaches t root cwd path ip → (∃ i < 3, c.MayBit (inode ip) i) →
        ∀ i < 3, c.MayBit (inode ip) i) ∧
      ∀ ip, Reaches t.searchable root cwd path ip → (∀ i < 3, c.MayBit (inode ip) i) →
        Reaches t root cwd path ip := by
  unfold AccessReports
  simp only [kernelAccess_eq hreq h]
  rw [ext2Access_eq_zero_iff hreal]
  obtain rfl := eq_all_of_not_refused h hne
  simp only [shiftedMode_and_ne_zero_iff, granted_all_iff, hreal, false_or]
  constructor
  · intro hiff
    constructor
    · intro ip hip hsome
      obtain ⟨ip', hip', hall⟩ := hiff.mp ⟨ip, hip, hsome⟩
      rwa [hip.searchable.unique hip']
    · intro ip hip hall
      obtain ⟨ip', hip', -⟩ := hiff.mpr ⟨ip, hip, hall⟩
      rwa [hip.unique hip'.searchable]
  · rintro ⟨hpartly, hsearched⟩
    constructor
    · rintro ⟨ip, hip, hsome⟩
      exact ⟨ip, hip.searchable, hpartly ip hip hsome⟩
    · rintro ⟨ip, hip, hall⟩
      exact ⟨ip, hsearched ip hip hall, 0, by decide, hall 0 (by decide)⟩

end Requests

/-- `kernel_access` reports what it should exactly if the request is not refused wrongly, is not
for the existence only, and no class has some of the bits. -/
theorem accessReports_iff (t : Tree ι) (root cwd : ι) (inode : ι → Owned) (c : Caller)
    (fReadOnly : Option Bool) (path : Name) (amode : BitVec 32) (hreq : Requestable amode) :
    AccessReports t root cwd inode c fReadOnly path amode ↔
      Reportable t root cwd inode c fReadOnly path amode := by
  by_cases h : Refused fReadOnly amode
  · rw [accessReports_refused hreq h]
    exact ⟨fun hno => ⟨fun _ => hno, absurd h, absurd h, absurd h, absurd h⟩,
      fun hcond => hcond.refused h⟩
  · have hrefused : Refused fReadOnly amode → ∀ ip, Reaches t.searchable root cwd path ip →
        c.uid ≠ 0 ∧ ¬c.Granted (inode ip) amode := fun hyes => absurd hyes h
    by_cases hsuper : c.uid = 0
    · rw [accessReports_superUser hreq h hsuper]
      exact ⟨fun hexists => ⟨hrefused, fun _ _ => hexists, fun _ => absurd hsuper,
        fun _ => absurd hsuper, fun _ => absurd hsuper⟩, fun hcond => hcond.superUser h hsuper⟩
    · by_cases hexist : amode = fOk
      · rw [accessReports_existence hreq h hsuper hexist]
        exact ⟨fun hnone => ⟨hrefused, fun _ hzero => absurd hzero hsuper, fun _ _ _ => hnone,
          fun _ _ => absurd hexist, fun _ _ => absurd hexist⟩,
          fun hcond => hcond.existence h hsuper hexist⟩
      · rw [accessReports_all hreq h hsuper hexist]
        exact ⟨fun hboth => ⟨hrefused, fun _ hzero => absurd hzero hsuper,
          fun _ _ hzero => absurd hzero hexist, fun _ _ _ => hboth.1, fun _ _ _ => hboth.2⟩,
          fun hcond => ⟨hcond.partly h hsuper hexist, hcond.searched h hsuper hexist⟩⟩

/-! ## One file -/

/-- The root directory 0 and in it the file 1 under the name `f`. -/
def fileTree : Tree ℕ where
  kind ip := if ip = 0 then .dir else .other
  mayEnter _ := true
  lookup ip name := if ip = 0 ∧ name = [0x66#8] then some 1 else none
  text _ := []

/-- An inode of user 7 whose mode is `rwx` for the owner. -/
def ownFile : ℕ → Owned := fun _ => ⟨0o100700#16, 7#16, 0#16⟩

theorem reaches_fileTree : Reaches fileTree 0 0 [0x66#8] 1 :=
  ⟨2, ⟨.ok 1, 0, some [0x66#8], 0, [0]⟩, rfl, rfl⟩

theorem mayBit_ownFile (ip : ℕ) : ∀ i < 3, Caller.MayBit ⟨7, 0⟩ (ownFile ip) i := by
  unfold Caller.MayBit ownFile
  decide

theorem accessReports_fileTree :
    AccessReports fileTree 0 0 ownFile ⟨7, 0⟩ (some false) [0x66#8] 7#32 := by
  refine (accessReports_iff fileTree 0 0 ownFile ⟨7, 0⟩ (some false) [0x66#8] 7#32 (by
    unfold Requestable; decide)).mpr ⟨?_, ?_, ?_, ?_, ?_⟩
  · intro hrefused
    exact absurd hrefused (by simp [Refused, all_bits])
  · intro _ hzero
    exact absurd hzero (by decide)
  · intro _ _ hzero
    exact absurd hzero (by decide)
  · intro _ _ _ ip _ _
    exact mayBit_ownFile ip
  · intro _ _ _ ip hip _
    exact hip

/-- The owner of a file asks whether he may read it. -/
theorem not_accessReports_read :
    ¬∀ (t : Tree ℕ) (root cwd : ℕ) (inode : ℕ → Owned) (c : Caller) (fReadOnly : Option Bool)
      (path : Name) (amode : BitVec 32), Requestable amode →
      AccessReports t root cwd inode c fReadOnly path amode := by
  intro h
  have hreq : Requestable rOk := by unfold Requestable; decide
  have hrefused : Refused (some false) rOk := Or.inl (by decide)
  have hgranted : Caller.Granted ⟨7, 0⟩ (ownFile 1) rOk := by
    intro i hi
    apply mayBit_ownFile 1 i
    have hall : (rOk &&& 7#32).getLsbD i = true := hi
    rw [BitVec.getLsbD_and, getLsbD_all_bits, Bool.and_eq_true] at hall
    exact of_decide_eq_true hall.2
  obtain ⟨fuel, hzero⟩ := (h fileTree 0 0 ownFile ⟨7, 0⟩ (some false) [0x66#8] rOk hreq).mpr
    ⟨1, reaches_fileTree.searchable, Or.inr hgranted⟩
  exact kernelAccess_refused hreq hrefused fuel hzero

end Yak.Ext2
