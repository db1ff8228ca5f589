import Yak.NewSpace

/-!
# The loader

What the kernel writes to the memory of the new program.  Each page of the user has a frame of its
own, so a byte is where it was written until it is written again; a page which is not writable
becomes so in the page fault.
-/

namespace Yak.Exec

open Paging (Frame Index Page Machine Has pagePresent pageWritable pageUser frameNo pgDirIndex
  pgTabIndex kernelVirtBase)
open Paging.Machine (wordIndex getByte setByte getByte_setByte address_ext)

variable {m m' : Machine} {c d t f g : Frame} {p q : Place} {i j : Index} {b : BitVec 8}
  {cr3 va va' e : BitVec 32} {k : Kernel} {image : ExecImage}

/-! ## Bytes of the user -/

/-- The place of the page for an address. -/
def placeOf (va : BitVec 32) : Place := .page (pgDirIndex va) (pgTabIndex va)

/-- A byte of a page. -/
def byteIn (page : Page) (va : BitVec 32) : BitVec 8 := getByte (page (wordIndex va)) (va.toNat % 4)

/-- The byte at an address in the part of the user. -/
def byteAt (m : Machine) (d : Frame) (va : BitVec 32) : Option (BitVec 8) :=
  (frameOf m d (placeOf va)).map fun f => byteIn (m.mem f) va

/-- The page with one more byte written. -/
def setByteIn (page : Page) (va : BitVec 32) (b : BitVec 8) : Page :=
  Function.update page (wordIndex va) (setByte (page (wordIndex va)) (va.toNat % 4) b)

theorem byteIn_setByteIn_self (page : Page) (va : BitVec 32) (b : BitVec 8) :
    byteIn (setByteIn page va b) va = b := by
  have hbyte : va.toNat % 4 < 4 := Nat.mod_lt _ (by decide)
  rw [byteIn, setByteIn, Function.update_self, getByte_setByte _ _ hbyte hbyte, if_pos rfl]

theorem byteIn_setByteIn_of_ne (page : Page) (b : BitVec 8) (hplace : placeOf va' = placeOf va)
    (hne : va' ≠ va) : byteIn (setByteIn page va b) va' = byteIn page va' := by
  have hbyte : va.toNat % 4 < 4 := Nat.mod_lt _ (by decide)
  have hbyte' : va'.toNat % 4 < 4 := Nat.mod_lt _ (by decide)
  rw [byteIn, byteIn, setByteIn]
  by_cases hword : wordIndex va' = wordIndex va
  · rw [hword, Function.update_self, getByte_setByte _ _ hbyte hbyte', if_neg]
    obtain ⟨hdir, htab⟩ := Place.page.inj hplace
    exact fun heq => hne (address_ext hdir htab hword heq)
  · rw [Function.update_of_ne hword]

theorem pgDirIndex_lt (h : va < kernelVirtBase) : (pgDirIndex va : ℕ) < kernelSlot := by
  have hlt : va.toNat < kernelVirtBase.toNat := h
  have hbase : kernelVirtBase.toNat = 768 * 2 ^ 22 := by decide
  unfold pgDirIndex kernelSlot
  dsimp only
  omega

theorem mappedAt_eq_some (h : va < kernelVirtBase) : mappedAt m cr3 va = some e ↔
    entryOf m (frameNo cr3) (placeOf va) = some e := by
  unfold mappedAt placeOf entryOf
  simp only [pgDirIndex_lt h, true_and]
  rfl

theorem frameOf_congr {c' : Frame} (h : entryOf m' d = entryOf m c') (p : Place) :
    frameOf m' d p = frameOf m c' p := by
  rw [frameOf, h, frameOf]

/-! ## A byte which the kernel writes -/

theorem Separate.writePage (h : Separate m d) (hf : frameOf m d (.page i j) = some f)
    (hmem : ∀ g, g ≠ f → m'.mem g = m.mem g) (hcounts : m'.counts = m.counts) :
    Separate m' d ∧ entryOf m' d = entryOf m d := by
  have hne : f ≠ d := fun heq => h.ne (heq ▸ hf)
  have hentry : entryOf m' d = entryOf m d := by
    refine entryOf_congr (fun k _ => by rw [hmem d hne.symm]) fun k t ht => hmem t ?_
    rintro rfl
    cases h.inj ht hf
  exact ⟨h.congr hentry fun _ _ _ => by rw [hcounts], hentry⟩

/-- The pages of the user have the same frames and the same contents. -/
structure SamePages (m m' : Machine) (d : Frame) : Prop where
  frames : ∀ p, frameOf m' d p = frameOf m d p
  contents : ∀ i j f, frameOf m d (.page i j) = some f → m'.mem f = m.mem f

theorem SamePages.byteAt (h : SamePages m m' d) (va : BitVec 32) :
    byteAt m' d va = byteAt m d va := by
  unfold Exec.byteAt
  rw [h.frames]
  cases hf : frameOf m d (placeOf va) with
  | none => rfl
  | some f => rw [Option.map_some, Option.map_some, h.contents _ _ f hf]

/-- One byte of the user is written, and nothing else changes for it. -/
structure WritesByte (m m' : Machine) (d : Frame) (va : BitVec 32) (b : BitVec 8) : Prop where
  frames : ∀ p, frameOf m' d p = frameOf m d p
  written : byteAt m' d va = some b
  others : ∀ va', va' ≠ va → byteAt m' d va' = byteAt m d va'

theorem Separate.store (h : Separate m (frameNo cr3)) (hva : va < kernelVirtBase)
    (hrun : store m cr3 va b = some m') :
    Separate m' (frameNo cr3) ∧ WritesByte m m' (frameNo cr3) va b := by
  unfold Exec.store at hrun
  cases hmapped : mappedAt m cr3 va with
  | none =>
      rw [hmapped] at hrun
      cases hrun
  | some e =>
      rw [hmapped] at hrun
      obtain ⟨-, hm⟩ := Option.ite_none_right_eq_some.mp hrun
      have hm' : m' = { m with
          mem := Function.update m.mem (frameNo e) (setByteIn (m.mem (frameNo e)) va b) } :=
        (Option.some.inj hm).symm
      have hf : frameOf m (frameNo cr3) (placeOf va) = some (frameNo e) :=
        frameOf_eq_some.mpr ⟨e, (mappedAt_eq_some hva).mp hmapped, rfl⟩
      have hmem : ∀ g, g ≠ frameNo e → m'.mem g = m.mem g := fun g hg => by
        rw [hm']
        exact Function.update_of_ne hg ..
      obtain ⟨hseparate, hentry⟩ := h.writePage hf hmem (by rw [hm'])
      have hframes := frameOf_congr hentry
      have hpage : m'.mem (frameNo e) = setByteIn (m.mem (frameNo e)) va b := by
        rw [hm']
        exact Function.update_self ..
      refine ⟨hseparate, hframes, ?_, fun va' hne => ?_⟩
      · rw [byteAt, hframes, hf, Option.map_some, hpage, byteIn_setByteIn_self]
      · unfold byteAt
        rw [hframes]
        cases hf' : frameOf m (frameNo cr3) (placeOf va') with
        | none => rfl
        | some f =>
            rw [Option.map_some, Option.map_some]
            by_cases heq : f = frameNo e
            · subst heq
              rw [hpage, byteIn_setByteIn_of_ne _ b (h.inj hf' hf) hne]
            · rw [hmem f heq]

/-- A frame with one reference is not copied to make its page writable. -/
theorem Separate.setWritable {alloc : Machine → BitVec 32} (h : Separate m (frameNo cr3))
    (hva : va < kernelVirtBase)
    (hret : (m.pageSetWritable cr3 va alloc).ending = .returned) :
    Separate (m.pageSetWritable cr3 va alloc).machine (frameNo cr3) ∧
      SamePages m (m.pageSetWritable cr3 va alloc).machine (frameNo cr3) := by
  have hi : (pgDirIndex va : ℕ) < kernelSlot := pgDirIndex_lt hva
  have htmp : (m.tmpMapPage cr3).tmp (pgDirIndex va) = m.mem (frameNo cr3) (pgDirIndex va) := rfl
  unfold Machine.pageSetWritable at hret ⊢
  dsimp only at hret ⊢
  rw [htmp] at hret ⊢
  generalize he₁ : m.mem (frameNo cr3) (pgDirIndex va) = e₁ at hret ⊢
  by_cases hdir : ¬ Has e₁ pagePresent
  · rw [if_pos hdir] at hret
    cases hret
  rw [if_neg hdir] at hret ⊢
  have hdir' : Has (m.mem (frameNo cr3) (pgDirIndex va)) pagePresent := he₁ ▸ not_not.mp hdir
  have ht : frameOf m (frameNo cr3) (.table (pgDirIndex va)) = some (frameNo e₁) :=
    frameOf_table.mpr ⟨hi, hdir', congrArg frameNo he₁⟩
  have hne : frameNo e₁ ≠ frameNo cr3 := fun heq => h.ne (heq ▸ ht)
  -- the machine whose page table is at the temporary page
  generalize hm₃ : Machine.tmpMapPage _ (e₁ &&& 0xFFFFF000#32) = m₃ at hret ⊢
  have hmem₃ : m₃.mem = (m.installed (frameNo cr3) (pgDirIndex va) (e₁ ||| pageWritable)).mem := by
    rw [← hm₃]
    rfl
  have hcounts₃ : m₃.counts = m.counts := by
    rw [← hm₃]
    rfl
  have htmp₃ : m₃.tmpPage = frameNo e₁ := by
    rw [← hm₃]
    exact Paging.frameNo_and_mask
  have htable₃ : m₃.mem (frameNo e₁) = m.mem (frameNo e₁) := by
    rw [hmem₃]
    exact Function.update_of_ne hne ..
  have hentry₃ : m₃.tmp (pgTabIndex va) = m.mem (frameNo e₁) (pgTabIndex va) := by
    rw [Machine.tmp, htmp₃, htable₃]
  rw [hentry₃] at hret ⊢
  generalize he₂ : m.mem (frameNo e₁) (pgTabIndex va) = e₂ at hret hentry₃ ⊢
  by_cases hpresent : ¬ Has e₂ pagePresent
  · rw [if_pos hpresent] at hret
    cases hret
  rw [if_neg hpresent] at hret ⊢
  have hentry : entryOf m (frameNo cr3) (placeOf va) = some e₂ :=
    entryOf_page.mpr ⟨_, ht, he₂ ▸ not_not.mp hpresent, he₂⟩
  have hf : frameOf m (frameNo cr3) (placeOf va) = some (frameNo e₂) :=
    frameOf_eq_some.mpr ⟨e₂, hentry, rfl⟩
  have hone : ¬ m₃.pageGetCount (e₂ &&& 0xFFFFF000#32) > 1 := by
    rw [Machine.pageGetCount, Paging.frameNo_and_mask, hcounts₃, h.count hf]
    decide
  have hmake : m₃.makeWritable (pgTabIndex va) alloc =
      ⟨m₃.setTmp (pgTabIndex va) (e₂ ||| pageWritable), .returned⟩ := by
    unfold Machine.makeWritable
    dsimp only
    rw [hentry₃, if_neg hone]
  rw [hmake]
  -- first the entry of the directory, then that of the table
  obtain ⟨hs₁, hframes₁⟩ := h.reenter hdir' (e := e₁ ||| pageWritable)
    (Paging.has_or_left (not_not.mp hdir))
    (Paging.has_or_left (h.user (entryOf_table.mpr ⟨hi, hdir', he₁⟩)))
    (by rw [Paging.frameNo_or_writable, he₁])
  have hmem : (m₃.setTmp (pgTabIndex va) (e₂ ||| pageWritable)).mem =
      Function.update (m.installed (frameNo cr3) (pgDirIndex va) (e₁ ||| pageWritable)).mem
        (frameNo e₁) (Function.update
          ((m.installed (frameNo cr3) (pgDirIndex va) (e₁ ||| pageWritable)).mem (frameNo e₁))
          (pgTabIndex va) (e₂ ||| pageWritable)) := by
    rw [← hmem₃, ← htmp₃]
    rfl
  obtain ⟨hs₂, hframes₂⟩ := hs₁.rewrite (e := e₂ ||| pageWritable)
    ((m₃.setTmp (pgTabIndex va) (e₂ ||| pageWritable)).tmpMapPage m.getTmpPage)
    ((hframes₁ _).trans ht) ((hframes₁ _).trans (by rw [Paging.frameNo_or_writable]; exact hf))
    (Paging.has_or_left (not_not.mp hpresent)) (Paging.has_or_left (h.user hentry)) hmem hcounts₃
  refine ⟨hs₂, fun p => (hframes₂ p).trans (hframes₁ p), fun i j f hpage => ?_⟩
  have hfc : f ≠ frameNo cr3 := fun heq => h.ne (heq ▸ hpage)
  have hft : f ≠ frameNo e₁ := by
    rintro rfl
    cases h.inj hpage ht
  change (m₃.setTmp (pgTabIndex va) (e₂ ||| pageWritable)).mem f = m.mem f
  rw [hmem, Function.update_of_ne hft]
  exact Function.update_of_ne hfc ..

theorem Separate.fault {error : BitVec 32} {alloc : Machine → BitVec 32}
    (h : Separate m (frameNo cr3)) (hva : va < kernelVirtBase)
    (hret : (m.handlePageFault image.toExecImage cr3 error va alloc).ending = .returned) :
    Separate (m.handlePageFault image.toExecImage cr3 error va alloc).machine (frameNo cr3) ∧
      SamePages m (m.handlePageFault image.toExecImage cr3 error va alloc).machine
        (frameNo cr3) := by
  unfold Machine.handlePageFault at hret ⊢
  split_ifs at hret ⊢
  exact h.setWritable hva hret

theorem SamePages.writesByte {m'' : Machine} (h : SamePages m m' d)
    (h' : WritesByte m' m'' d va b) : WritesByte m m'' d va b :=
  ⟨fun p => (h'.frames p).trans (h.frames p), h'.written,
    fun va' hne => (h'.others va' hne).trans (h.byteAt va')⟩

theorem Separate.putUbyte (h : Separate m (frameNo cr3))
    (hrun : putUbyte k image cr3 va b m = .ok m') :
    Separate m' (frameNo cr3) ∧ va < kernelVirtBase ∧ WritesByte m m' (frameNo cr3) va b := by
  unfold Exec.putUbyte at hrun
  by_cases hva : va ≥ kernelVirtBase
  · rw [if_pos hva] at hrun
    cases hrun
  rw [if_neg hva] at hrun
  have hlt : va < kernelVirtBase := BitVec.not_le.mp hva
  cases hstore : Exec.store m cr3 va b with
  | some m₁ =>
      rw [hstore] at hrun
      obtain rfl : m₁ = m' := Except.ok.inj hrun
      obtain ⟨hseparate, hwrites⟩ := h.store hlt hstore
      exact ⟨hseparate, hlt, hwrites⟩
  | none =>
      rw [hstore] at hrun
      dsimp only at hrun
      cases hending : (m.handlePageFault image.toExecImage cr3 (faultError m cr3 va) va
          k.alloc).ending with
      | terminated =>
          rw [hending] at hrun
          cases hrun
      | halted halt =>
          rw [hending] at hrun
          cases hrun
      | returned =>
          rw [hending] at hrun
          obtain ⟨hs, hsame⟩ := h.fault hlt hending
          cases hagain : Exec.store (m.handlePageFault image.toExecImage cr3
              (faultError m cr3 va) va k.alloc).machine cr3 va b with
          | none =>
              rw [hagain] at hrun
              cases hrun
          | some m₁ =>
              rw [hagain] at hrun
              obtain rfl : m₁ = m' := Except.ok.inj hrun
              obtain ⟨hseparate, hwrites⟩ := hs.store hlt hagain
              exact ⟨hseparate, hlt, hsame.writesByte hwrites⟩

/-! ## More bytes -/

/-- The bytes of a list are written from an address on, and nothing else changes for the user. -/
structure WritesBytes (m m' : Machine) (d : Frame) (va : BitVec 32) (bytes : List (BitVec 8)) :
    Prop where
  frames : ∀ p, frameOf m' d p = frameOf m d p
  bounded : bytes ≠ [] → va.toNat + bytes.length ≤ kernelVirtBase.toNat
  written : ∀ n < bytes.length, byteAt m' d (va + BitVec.ofNat 32 n) = bytes[n]?
  others : ∀ va', (va'.toNat < va.toNat ∨ va.toNat + bytes.length ≤ va'.toNat) →
    byteAt m' d va' = byteAt m d va'

theorem toNat_add_ofNat {n : ℕ} (h : va.toNat + n < 2 ^ 32) :
    (va + BitVec.ofNat 32 n).toNat = va.toNat + n := by
  rw [BitVec.toNat_add, BitVec.toNat_ofNat, Nat.mod_eq_of_lt (by omega : n < 2 ^ 32),
    Nat.mod_eq_of_lt h]

theorem WritesBytes.nil (m : Machine) (d : Frame) (va : BitVec 32) : WritesBytes m m d va [] :=
  ⟨fun _ => rfl, fun h => absurd rfl h, fun _ h => absurd h (Nat.not_lt_zero _), fun _ _ => rfl⟩

theorem WritesByte.cons {m'' : Machine} {bytes : List (BitVec 8)} (h : WritesByte m m' d va b)
    (hva : va < kernelVirtBase) (h' : WritesBytes m' m'' d (va + 1#32) bytes) :
    WritesBytes m m'' d va (b :: bytes) := by
  have hlt : va.toNat < kernelVirtBase.toNat := hva
  have hbase : kernelVirtBase.toNat < 2 ^ 32 := kernelVirtBase.isLt
  have hnext : (va + 1#32).toNat = va.toNat + 1 := toNat_add_ofNat (n := 1) (by omega)
  have hbounded : va.toNat + (bytes.length + 1) ≤ kernelVirtBase.toNat := by
    by_cases hempty : bytes = []
    · subst hempty
      exact hlt
    · have hrest := h'.bounded hempty
      omega
  refine ⟨fun p => (h'.frames p).trans (h.frames p), fun _ => hbounded, fun n hn => ?_, ?_⟩
  · cases n with
    | zero =>
        rw [BitVec.add_zero, h'.others va (Or.inl (by omega)), h.written]
        rfl
    | succ n =>
        have hadd : va + BitVec.ofNat 32 (n + 1) = va + 1#32 + BitVec.ofNat 32 n := by
          rw [BitVec.add_assoc, Nat.add_comm n, BitVec.ofNat_add]
        rw [hadd]
        exact h'.written n (Nat.lt_of_succ_lt_succ hn)
  · intro va' hother
    have hne : va' ≠ va := by
      rintro rfl
      rw [List.length_cons] at hother
      omega
    rw [h'.others va' (by rw [List.length_cons] at hother; omega), h.others va' hne]

theorem Separate.putBytes {bytes : List (BitVec 8)} (h : Separate m (frameNo cr3))
    (hrun : putBytes k image cr3 va bytes m = .ok m') :
    Separate m' (frameNo cr3) ∧ WritesBytes m m' (frameNo cr3) va bytes := by
  induction bytes generalizing m va with
  | nil =>
      obtain rfl : m = m' := Except.ok.inj hrun
      exact ⟨h, .nil m _ va⟩
  | cons b bytes ih =>
      obtain ⟨m₁, hfirst, hrest⟩ := bind_eq_ok.mp hrun
      obtain ⟨hs₁, hva, hwrites⟩ := h.putUbyte hfirst
      obtain ⟨hs₂, hwrites'⟩ := ih hs₁ hrest
      exact ⟨hs₂, hwrites.cons hva hwrites'⟩

/-- A segment is read, if there is one. -/
theorem Separate.readSegment {x : ExecFile} {vaddr size count off : BitVec 32}
    (h : Separate m (frameNo cr3))
    (hrun : readSegment k image cr3 x vaddr size count off m = .ok m') :
    Separate m' (frameNo cr3) ∧ WritesBytes m m' (frameNo cr3) vaddr
      (if size ≠ 0#32 then x.read off count else []) := by
  unfold Exec.readSegment at hrun
  by_cases hsize : size ≠ 0#32
  · rw [if_pos hsize] at hrun ⊢
    exact h.putBytes hrun
  · rw [if_neg hsize] at hrun ⊢
    obtain rfl : m = m' := Except.ok.inj hrun
    exact ⟨h, .nil m _ vaddr⟩

/-- The loop which clears the section without contents writes its first byte only. -/
theorem Separate.clearBss (h : Separate m (frameNo cr3)) (n : ℕ)
    (hrun : (List.range n).foldlM (fun m _ => Exec.putUbyte k image cr3 va 0#8 m) m = .ok m') :
    Separate m' (frameNo cr3) ∧
      WritesBytes m m' (frameNo cr3) va (if n = 0 then [] else [0#8]) := by
  induction n generalizing m' with
  | zero =>
      obtain rfl : m = m' := Except.ok.inj hrun
      exact ⟨h, .nil m _ va⟩
  | succ n ih =>
      rw [List.range_succ, List.foldlM_append] at hrun
      obtain ⟨m₁, hbefore, hlast⟩ := bind_eq_ok.mp hrun
      obtain ⟨hs₁, hwrites₁⟩ := ih hbefore
      simp only [List.foldlM_cons, List.foldlM_nil] at hlast
      obtain ⟨m₂, hput, hend⟩ := bind_eq_ok.mp hlast
      obtain rfl : m₂ = m' := Except.ok.inj hend
      obtain ⟨hs₂, hva, hwrites₂⟩ := hs₁.putUbyte hput
      have hcons := hwrites₂.cons hva (.nil m₂ _ _)
      rw [if_neg (Nat.succ_ne_zero n)]
      refine ⟨hs₂, fun p => (hwrites₂.frames p).trans (hwrites₁.frames p), hcons.bounded,
        hcons.written, fun va' hother => ?_⟩
      rw [hcons.others va' hother]
      refine hwrites₁.others va' ?_
      split
      next => exact hother.imp id fun hle => le_trans (Nat.le_add_right _ _) hle
      next => exact hother

/-! ## The old address space -/

/-- The page tables of `c`, and the frames in them, may have changed. -/
structure ReleasesFrom (c : Frame) (m m' : Machine) : Prop where
  mem : ∀ f, ¬ TableOf m c f → m'.mem f = m.mem f
  counts : ∀ f, ¬ Reached m c f → m'.counts f = m.counts f
  reached : ∀ f, Reached m' c f → Reached m c f

theorem ReleasesFrom.refl (c : Frame) (m : Machine) : ReleasesFrom c m m :=
  ⟨fun _ _ => rfl, fun _ _ => rfl, fun _ => id⟩

theorem ReleasesFrom.tableOf (h : ReleasesFrom c m m') (hdir : ¬ TableOf m c c) (t : Frame) :
    TableOf m' c t ↔ TableOf m c t := by
  rw [TableOf, TableOf, h.mem c hdir]

theorem ReleasesFrom.trans {m'' : Machine} (h : ReleasesFrom c m m') (hdir : ¬ TableOf m c c)
    (h' : ReleasesFrom c m' m'') : ReleasesFrom c m m'' := by
  refine ⟨fun f hf => ?_, fun f hf => ?_, fun f hf => h.reached f (h'.reached f hf)⟩
  · rw [h'.mem f (by rwa [h.tableOf hdir]), h.mem f hf]
  · rw [h'.counts f fun hr => hf (h.reached f hr), h.counts f hf]

theorem reached_congr (hmem : m'.mem = m.mem) (f : Frame) : Reached m' c f ↔ Reached m c f := by
  simp only [Reached, TableOf, hmem]

theorem ReleasesFrom.of_counts (hmem : m'.mem = m.mem)
    (hcounts : ∀ f, ¬ Reached m c f → m'.counts f = m.counts f) : ReleasesFrom c m m' :=
  ⟨fun _ _ => by rw [hmem], hcounts, fun f => (reached_congr hmem f).mp⟩

theorem ReleasesFrom.clear {e : BitVec 32} (hdir : ¬ TableOf m c c) (ht : TableOf m c t)
    (hmem : m'.mem = Function.update m.mem t (Function.update (m.mem t) j (e &&& ~~~pagePresent)))
    (hcounts : m'.counts = m.counts) : ReleasesFrom c m m' := by
  have hne : t ≠ c := by
    rintro rfl
    exact hdir ht
  have htable : ∀ g, TableOf m' c g ↔ TableOf m c g := fun g => by
    rw [TableOf, TableOf, hmem, Function.update_of_ne hne.symm]
  refine ⟨fun f hf => ?_, fun f _ => by rw [hcounts], ?_⟩
  · rw [hmem, Function.update_of_ne]
    rintro rfl
    exact hf ht
  · rintro f (hf | ⟨g, hg, l, hp, hu, rfl⟩)
    · exact Or.inl ((htable f).mp hf)
    · rw [htable] at hg
      rw [hmem] at hp hu ⊢
      by_cases hgt : g = t
      · subst hgt
        rw [Function.update_self] at hp hu ⊢
        by_cases hl : l = j
        · subst hl
          rw [Function.update_self] at hp
          exact absurd hp (by
            unfold Has
            rw [BitVec.and_assoc]
            simp)
        · rw [Function.update_of_ne hl] at hp hu ⊢
          exact Or.inr ⟨g, hg, l, hp, hu, rfl⟩
      · rw [Function.update_of_ne hgt] at hp hu ⊢
        exact Or.inr ⟨g, hg, l, hp, hu, rfl⟩

theorem pageFrameFree_ok {page : BitVec 32} (h : pageFrameFree page m = .ok m') :
    m'.mem = m.mem ∧ m'.tmpPage = m.tmpPage ∧
      ∀ f, f ≠ frameNo page → m'.counts f = m.counts f := by
  unfold pageFrameFree at h
  dsimp only at h
  have hdecrease : ∀ (m₁ : Machine) (f : Frame), f ≠ frameNo page →
      (m₁.pageDecreaseCount page).counts f = m₁.counts f := fun m₁ f hf =>
    Function.update_of_ne hf ..
  split_ifs at h with hshared haligned
  · obtain rfl := Except.ok.inj h
    exact ⟨rfl, rfl, hdecrease m⟩
  · obtain rfl := Except.ok.inj h
    exact ⟨rfl, rfl, fun f hf => (hdecrease _ f hf).trans (hdecrease m f hf)⟩

theorem freeEntry_releases (hdir : ¬ TableOf m c c) (ht : TableOf m c m.tmpPage)
    (h : freeEntry pageFrameFree m i = .ok m') : ReleasesFrom c m m' ∧ m'.tmpPage = m.tmpPage := by
  unfold freeEntry at h
  by_cases huser : Has (m.tmp i) pagePresent ∧ Has (m.tmp i) pageUser
  · rw [if_pos huser] at h
    dsimp only at h
    have hreached : Reached m c (frameNo (m.tmp i &&& 0xFFFFF000#32)) := by
      rw [Paging.frameNo_and_mask]
      exact Or.inr ⟨m.tmpPage, ht, i, huser.1, huser.2, rfl⟩
    have hcount : ReleasesFrom c m (m.pageDecreaseCount (m.tmp i &&& 0xFFFFF000#32)) := by
      refine .of_counts rfl fun f hf => Function.update_of_ne ?_ ..
      rintro rfl
      exact hf hreached
    split_ifs at h with hlast
    · obtain ⟨hmem, htmp, hothers⟩ := pageFrameFree_ok h
      have hclear : ReleasesFrom c (m.pageDecreaseCount (m.tmp i &&& 0xFFFFF000#32))
          ((m.pageDecreaseCount (m.tmp i &&& 0xFFFFF000#32)).setTmp i
            ((m.pageDecreaseCount (m.tmp i &&& 0xFFFFF000#32)).tmp i &&& ~~~pagePresent)) :=
        .clear (t := m.tmpPage) hdir ht rfl rfl
      refine ⟨⟨fun f hf => ?_, fun f hf => ?_, fun f hf => ?_⟩, htmp⟩
      · rw [hmem]
        exact hclear.mem f hf
      · rw [hothers f fun heq => hf (heq ▸ hreached)]
        exact hcount.counts f hf
      · rw [reached_congr hmem] at hf
        exact (reached_congr rfl f).mp (hclear.reached f hf)
    · obtain rfl := Except.ok.inj h
      exact ⟨hcount, rfl⟩
  · rw [if_neg huser] at h
    obtain rfl := Except.ok.inj h
    exact ⟨.refl c m, rfl⟩

theorem freePageTable_releases {pgTable : BitVec 32} (hdir : ¬ TableOf m c c)
    (ht : TableOf m c (frameNo pgTable)) (h : freePageTable pageFrameFree pgTable m = .ok m') :
    ReleasesFrom c m m' ∧ m'.tmpPage = m.tmpPage := by
  unfold freePageTable at h
  obtain ⟨m₁, hloop, hend⟩ := bind_eq_ok.mp h
  obtain rfl := Except.ok.inj hend
  have hinv := foldlM_invariant
    (fun m₁ : Machine => ReleasesFrom c m m₁ ∧ m₁.tmpPage = frameNo pgTable) ?_ ?_ hloop
  · refine ⟨⟨hinv.1.mem, hinv.1.counts, hinv.1.reached⟩, ?_⟩
    exact Paging.frameNo_shiftLeft m.tmpPage
  · rintro m₂ i m₃ - ⟨hbefore, htmp⟩ hstep
    have hdir₂ : ¬ TableOf m₂ c c := by rwa [hbefore.tableOf hdir]
    have ht₂ : TableOf m₂ c m₂.tmpPage := by rwa [hbefore.tableOf hdir, htmp]
    obtain ⟨hrelease, hsame⟩ := freeEntry_releases hdir₂ ht₂ hstep
    exact ⟨hbefore.trans hdir hrelease, hsame.trans htmp⟩
  · exact ⟨⟨fun _ _ => rfl, fun _ _ => rfl, fun _ => id⟩, rfl⟩

theorem freeTables_releases (hdir : ¬ TableOf m c c) (htmp : m.tmpPage = c) (n i : ℕ)
    (h : freeTables pageFrameFree n i m = .ok m') : ReleasesFrom c m m' := by
  induction n generalizing i m with
  | zero =>
      obtain rfl := Except.ok.inj h
      exact .refl c m
  | succ n ih =>
      unfold freeTables at h
      by_cases hi : i < 1024
      · rw [dif_pos hi] at h
        by_cases hpresent : Has (m.tmp ⟨i, hi⟩) pagePresent
        · rw [if_pos hpresent] at h
          dsimp only at h
          have ht : TableOf m c (frameNo (m.tmp ⟨i, hi⟩ &&& 0xFFFFF000#32)) := by
            rw [Paging.frameNo_and_mask]
            exact ⟨⟨i, hi⟩, by rwa [← htmp], by rw [← htmp]; rfl⟩
          obtain ⟨m₁, hfree, hrest⟩ := bind_eq_ok.mp h
          obtain ⟨hrelease, hsame⟩ := freePageTable_releases hdir ht hfree
          have hcount : ReleasesFrom c m
              (m₁.pageDecreaseCount (m.tmp ⟨i, hi⟩ &&& 0xFFFFF000#32)) := by
            refine ⟨hrelease.mem, fun f hf => ?_, fun f hf => hrelease.reached f hf⟩
            have hne : f ≠ frameNo (m.tmp ⟨i, hi⟩ &&& 0xFFFFF000#32) := by
              rintro rfl
              exact hf (Or.inl ht)
            exact (Function.update_of_ne hne ..).trans (hrelease.counts f hf)
          have hdir₁ : ¬ TableOf (m₁.pageDecreaseCount (m.tmp ⟨i, hi⟩ &&& 0xFFFFF000#32)) c c := by
            rwa [hcount.tableOf hdir]
          split_ifs at hrest with hlast
          · obtain ⟨m₂, hpage, hmore⟩ := bind_eq_ok.mp hrest
            obtain ⟨hmem, htmp₂, hothers⟩ := pageFrameFree_ok hpage
            have hpageRelease : ReleasesFrom c
                (m₁.pageDecreaseCount (m.tmp ⟨i, hi⟩ &&& 0xFFFFF000#32)) m₂ := by
              refine .of_counts hmem fun f hf => hothers f ?_
              rintro rfl
              exact hf (Or.inl ((hcount.tableOf hdir _).mpr ht))
            have hboth := hcount.trans hdir hpageRelease
            exact hboth.trans hdir (ih (by rwa [hboth.tableOf hdir])
              (htmp₂.trans (hsame.trans htmp)) (i + 1) hmore)
          · exact hcount.trans hdir (ih hdir₁ (hsame.trans htmp) (i + 1) hrest)
        · rw [if_neg hpresent] at h
          exact ih hdir htmp (i + 1) h
      · rw [dif_neg hi] at h
        cases h

theorem freeSegment_releases {vaddr size : BitVec 32}
    (hdir : ¬ TableOf m (frameNo cr3) (frameNo cr3))
    (h : freeSegment pageFrameFree vaddr size cr3 m = .ok m') :
    ReleasesFrom (frameNo cr3) m m' := by
  unfold freeSegment virtFreeChunk at h
  split_ifs at h with hsize
  · obtain ⟨m₁, htables, hend⟩ := bind_eq_ok.mp h
    obtain rfl := Except.ok.inj hend
    have hrelease := freeTables_releases (m := m.tmpMapPage cr3) hdir rfl _ _ htables
    exact ⟨hrelease.mem, hrelease.counts, hrelease.reached⟩
  · obtain rfl := Except.ok.inj h
    exact .refl _ m

theorem freeAddressSpace_releases (hdir : ¬ TableOf m (frameNo cr3) (frameNo cr3))
    (h : freeAddressSpace pageFrameFree image cr3 m = .ok m') :
    ReleasesFrom (frameNo cr3) m m' := by
  unfold freeAddressSpace at h
  obtain ⟨m₁, hdata, h⟩ := bind_eq_ok.mp h
  obtain ⟨m₂, hrodata, htext⟩ := bind_eq_ok.mp h
  have h₁ := freeSegment_releases hdir hdata
  have h₂ := h₁.trans hdir (freeSegment_releases (by rwa [h₁.tableOf hdir]) hrodata)
  exact h₂.trans hdir (freeSegment_releases (by rwa [h₂.tableOf hdir]) htext)

theorem freeOld_releases {s : Caller} (hdir : ¬ TableOf m (frameNo s.cr3) (frameNo s.cr3))
    (h : s.freeOld k m = .ok m') : ReleasesFrom (frameNo s.cr3) m m' := by
  unfold Caller.freeOld at h
  split_ifs at h
  · exact freeAddressSpace_releases hdir h
  · obtain rfl := Except.ok.inj h
    exact .refl _ m

/-! ## The new address space in the old page directory -/

variable {reserved : Set Frame} {m₀ m₁ m₂ : Machine} {pgDir : BitVec 32}

theorem Building.table_not_old (h : Building reserved c d m₀ m) : ¬ TableOf m d c :=
  fun ht => (h.table_ne c ht).2 rfl

theorem Building.old_same (h : Building reserved c d m₀ m) : m.mem c = m₀.mem c :=
  h.changed c h.dirs_ne h.table_not_old

theorem Building.released (h : Building reserved c d m₀ m) (hfree : ReleasesFrom c m m₁) :
    Separate m₁ d ∧ entryOf m₁ d = entryOf m d ∧
      ∀ i j f, frameOf m d (.page i j) = some f → m₁.mem f = m.mem f := by
  have hdir : m₁.mem d = m.mem d :=
    hfree.mem d fun ht => (h.reached d (Or.inl ht)).2.1 rfl
  have hentry : entryOf m₁ d = entryOf m d :=
    entryOf_congr (fun i _ => by rw [hdir]) fun i t ht =>
      hfree.mem t fun hold => (h.reached t (Or.inl hold)).2.2 _ ht
  refine ⟨h.toSeparate.congr hentry fun p f hf =>
    hfree.counts f fun hr => (h.reached f hr).2.2 p hf, hentry, fun i j f hf => ?_⟩
  exact hfree.mem f fun hold => (h.reached f (Or.inl hold)).2.2 _ hf

/-- The copy of the new page directory takes the place of the old one. -/
theorem Building.copied (h : Building reserved (frameNo cr3) (frameNo pgDir) m₀ m)
    (hfree : ReleasesFrom (frameNo cr3) m m₁)
    (hpage : pageFrameFree pgDir (m₁.copyPageTable cr3 pgDir) = .ok m₂) :
    Separate m₂ (frameNo cr3) ∧ entryOf m₂ (frameNo cr3) = entryOf m (frameNo pgDir) ∧
      ∀ i j f, frameOf m (frameNo pgDir) (.page i j) = some f → m₂.mem f = m.mem f := by
  obtain ⟨hs₁, hsame, hcontents⟩ := h.released hfree
  obtain ⟨hmem, -, hcounts⟩ := pageFrameFree_ok hpage
  have hcopy : m₂.mem =
      Function.update m₁.mem (frameNo cr3) (m₁.mem (frameNo pgDir)) := hmem.trans rfl
  have hold_ne : ∀ p, frameOf m₁ (frameNo pgDir) p ≠ some (frameNo cr3) := fun p => by
    rw [frameOf_congr hsame]
    exact h.old_ne p
  have hentry : entryOf m₂ (frameNo cr3) = entryOf m₁ (frameNo pgDir) := by
    funext p
    cases p with
    | table i => simp only [entryOf, hcopy, Function.update_self]
    | page i j =>
        simp only [entryOf, hcopy, Function.update_self]
        by_cases hopen : (i : ℕ) < kernelSlot ∧ Has (m₁.mem (frameNo pgDir) i) pagePresent
        · have ht := frameOf_table.mpr ⟨hopen.1, hopen.2, rfl⟩
          have hne : frameNo (m₁.mem (frameNo pgDir) i) ≠ frameNo cr3 :=
            fun heq => hold_ne _ (heq ▸ ht)
          rw [Function.update_of_ne hne]
        · rw [if_neg fun hh => hopen ⟨hh.1, hh.2.1⟩, if_neg fun hh => hopen ⟨hh.1, hh.2.1⟩]
  have hframes := frameOf_congr hentry
  refine ⟨⟨?_, ?_, ?_, ?_⟩, hentry.trans hsame, ?_⟩
  · intro p q f hp hq
    rw [hframes] at hp hq
    exact hs₁.inj hp hq
  · intro p f hp
    rw [hframes] at hp
    rw [hcounts f fun heq => hs₁.ne (heq ▸ hp)]
    exact hs₁.count hp
  · intro p
    rw [hframes]
    exact hold_ne p
  · intro p e he
    rw [hentry] at he
    exact hs₁.user he
  · intro i j f hf
    have hne : f ≠ frameNo cr3 := fun heq => h.old_ne _ (heq ▸ hf)
    rw [hcopy, Function.update_of_ne hne]
    exact hcontents i j f hf

/-- The contents of a new page are those which the frame had before. -/
theorem Building.page_same (h : Building reserved c d m₀ m)
    (hf : frameOf m d (.page i j) = some f) : m.mem f = m₀.mem f := by
  refine h.changed f (fun heq => h.ne (heq ▸ hf)) ?_
  rintro ⟨l, hpresent, rfl⟩
  rcases Nat.lt_or_ge l kernelSlot with hl | hl
  · cases h.inj hf (frameOf_table.mpr ⟨hl, hpresent, rfl⟩)
  · exact (h.kernel l hl hpresent).2 _ hf

end Yak.Exec
