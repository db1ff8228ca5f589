import Yak.Loader

/-!
# Runs of the loader

Where the pages of a new program can be written to, the kernel writes to them without a fault.  A
chunk within one page table is mapped with the flags that are asked for, in the page directory and
in the page table.
-/

namespace Yak.Exec

open Paging (Frame Index Page Machine Has pagePresent pageWritable pageUser frameNo pgDirIndex
  pgTabIndex kernelVirtBase)
open Paging.Chunk (Owned AllocatesOutside CountsBelow firstUncounted)
open PageFrames (noFreePage)

variable {m m' m₀ m₁ m₂ : Machine} {c d t f g : Frame} {p q : Place} {i j : Index} {b : BitVec 8}
  {cr3 va va' e : BitVec 32} {k : Kernel} {image : ExecImage} {reserved : Set Frame}
  {bytes : List (BitVec 8)}

/-! ## Without a fault -/

/-- The entry for the page and that for its page table are writable. -/
def Writable (m : Machine) (d : Frame) (va : BitVec 32) : Prop :=
  (∃ e, entryOf m d (.table (pgDirIndex va)) = some e ∧ Has e pageWritable) ∧
    ∃ e, entryOf m d (placeOf va) = some e ∧ Has e pageWritable

theorem Writable.congr (h : Writable m d va) (hentry : entryOf m' g = entryOf m d) :
    Writable m' g va := by
  unfold Writable
  rwa [hentry]

theorem Separate.store_some (h : Separate m (frameNo cr3)) (hva : va < kernelVirtBase)
    (hwritable : Writable m (frameNo cr3) va) (b : BitVec 8) :
    ∃ m', Exec.store m cr3 va b = some m' ∧ entryOf m' (frameNo cr3) = entryOf m (frameNo cr3) := by
  obtain ⟨⟨e₁, htable, hw₁⟩, e, hentry, hw⟩ := hwritable
  obtain ⟨-, -, he₁⟩ := entryOf_table.mp htable
  have hdir : Has (m.pgTable cr3 va) pageWritable := by rwa [Machine.pgTable, he₁]
  unfold Exec.store
  rw [(mappedAt_eq_some hva).mpr hentry]
  dsimp only
  rw [if_pos ⟨hdir, hw⟩]
  have hf : frameOf m (frameNo cr3) (placeOf va) = some (frameNo e) :=
    frameOf_eq_some.mpr ⟨e, hentry, rfl⟩
  refine ⟨_, rfl, And.right (a := Separate _ _) (h.writePage hf (fun g hg => ?_) rfl)⟩
  exact Function.update_of_ne hg ..

theorem Separate.putUbyte_ok (h : Separate m (frameNo cr3)) (hva : va < kernelVirtBase)
    (hwritable : Writable m (frameNo cr3) va) (k : Kernel) (image : ExecImage) (b : BitVec 8) :
    ∃ m', Exec.putUbyte k image cr3 va b m = .ok m' ∧
      entryOf m' (frameNo cr3) = entryOf m (frameNo cr3) := by
  obtain ⟨m', hstore, hentry⟩ := h.store_some hva hwritable b
  refine ⟨m', ?_, hentry⟩
  unfold Exec.putUbyte
  rw [if_neg (BitVec.not_le.mpr hva), hstore]

theorem Separate.putBytes_ok (h : Separate m (frameNo cr3)) (va : BitVec 32)
    (bytes : List (BitVec 8)) (hbelow : va.toNat + bytes.length ≤ kernelVirtBase.toNat)
    (hwritable : ∀ va', va.toNat ≤ va'.toNat → va'.toNat < va.toNat + bytes.length →
      Writable m (frameNo cr3) va') (k : Kernel) (image : ExecImage) :
    ∃ m', Exec.putBytes k image cr3 va bytes m = .ok m' ∧
      entryOf m' (frameNo cr3) = entryOf m (frameNo cr3) := by
  induction bytes generalizing m va with
  | nil => exact ⟨m, rfl, rfl⟩
  | cons b bytes ih =>
      have hbase : kernelVirtBase.toNat < 2 ^ 32 := kernelVirtBase.isLt
      rw [List.length_cons] at hbelow hwritable
      obtain ⟨m₁, hput, hentry⟩ := h.putUbyte_ok (BitVec.lt_def.mpr (by omega))
        (hwritable va le_rfl (by omega)) k image b
      have hs₁ := (h.putUbyte hput).1
      by_cases hempty : bytes = []
      · subst hempty
        refine ⟨m₁, ?_, hentry⟩
        simp only [Exec.putBytes, hput]
        rfl
      · have hpos := List.length_pos_of_ne_nil hempty
        have hnext : (va + 1#32).toNat = va.toNat + 1 := toNat_add_ofNat (n := 1) (by omega)
        obtain ⟨m₂, hrest, hentry₂⟩ := ih hs₁ (va + 1#32) (by omega) fun va' hle hlt =>
          (hwritable va' (by omega) (by omega)).congr hentry
        refine ⟨m₂, ?_, hentry₂.trans hentry⟩
        simp only [Exec.putBytes, hput]
        exact hrest

theorem Separate.clearBss_ok (h : Separate m (frameNo cr3)) (va : BitVec 32) (n : ℕ)
    (hwritable : n ≠ 0 → va < kernelVirtBase ∧ Writable m (frameNo cr3) va) (k : Kernel)
    (image : ExecImage) :
    ∃ m', (List.range n).foldlM (fun m _ => Exec.putUbyte k image cr3 va 0#8 m) m = .ok m' ∧
      entryOf m' (frameNo cr3) = entryOf m (frameNo cr3) := by
  induction n with
  | zero => exact ⟨m, rfl, rfl⟩
  | succ n ih =>
      obtain ⟨hva, hw⟩ := hwritable (Nat.succ_ne_zero n)
      obtain ⟨m₁, hbefore, hentry⟩ := ih fun _ => ⟨hva, hw⟩
      have hs₁ := (h.clearBss n hbefore).1
      obtain ⟨m₂, hput, hentry₂⟩ := hs₁.putUbyte_ok hva (hw.congr hentry) k image 0#8
      refine ⟨m₂, ?_, hentry₂.trans hentry⟩
      rw [List.range_succ, List.foldlM_append]
      refine bind_eq_ok.mpr ⟨m₁, hbefore, ?_⟩
      simp only [List.foldlM_cons, List.foldlM_nil]
      exact bind_eq_ok.mpr ⟨m₂, hput, rfl⟩

/-! ## A chunk in one page table -/

section Chunk

open Paging.Chunk (Filled Opened Entered tableFor_cases mapTables_succ mapPages_filled
  frameNo_flags toNat_and_page entryAt)

variable {alloc : Machine → BitVec 32} {start size pgDir flags old ret pgTable : BitVec 32}

/-- The page table of a round is at the temporary page. -/
theorem Building.opened (halloc : AllocatesOutside reserved alloc) (hflags : frameNo flags = 0#20)
    (huser : Has flags pageUser) (h : Building reserved c d m₀ m)
    (hrun : tableFor alloc old (m.mem d i) m = (m₁, some pgTable)) :
    Opened m m₁ d i (frameNo pgTable) := by
  obtain ⟨hopened, htmp⟩ := Building.tableOpened halloc hflags huser h hrun
  rw [frameNo_flags hflags] at htmp
  have hne : frameNo pgTable ≠ d := by
    refine (hopened.table_ne _ ⟨i, ?_, ?_⟩).1
    · simp only [Machine.installed, Function.update_self]
      exact Paging.has_or_left (Paging.has_or_right (by decide))
    · simp only [Machine.installed, Function.update_self]
      exact frameNo_flags hflags
  refine ⟨htmp, hne, fun f hf => ?_, fun j => ?_⟩
  · rcases tableFor_cases hrun with ⟨-, -, rfl⟩ | ⟨-, -, -, rfl⟩
    · rfl
    · exact Function.update_of_ne hf ..
  · rcases tableFor_cases hrun with ⟨he, rfl, rfl⟩ | ⟨he, -, -, rfl⟩
    · rw [Paging.frameNo_and_mask, entryAt, if_pos he]
      rfl
    · simp only [entryAt, if_neg he, Machine.setTmpPage, Machine.tmpMapPage, Function.update_self]

theorem has_of_and {flag : BitVec 32} (h : e &&& flags = flags) (hflag : Has flags flag) :
    Has e flag := by
  intro hzero
  refine hflag ?_
  rw [← h, BitVec.and_assoc, BitVec.and_comm flags, ← BitVec.and_assoc, hzero, BitVec.zero_and]

/-- Where it does not fail, the call makes the pages of the chunk writable, and the pages in other
page tables stay so. -/
theorem Building.chunk_writable (halloc : AllocatesOutside reserved alloc)
    (hflags : frameNo flags = 0#20) (huser : Has flags pageUser) (hwrite : Has flags pageWritable)
    (h : Building reserved c (frameNo pgDir) m₀ m)
    (hbelow : start.toNat + size.toNat ≤ kernelVirtBase.toNat) (hpos : 0 < size.toNat)
    (hsize : size.toNat < 0x400000) (hone : start.toNat % 0x400000 + size.toNat ≤ 0x400000)
    (hrun : virtMapChunk alloc start size pgDir flags m = .ok (m', ret)) (hret : ret ≠ 0#32) :
    (∀ va : BitVec 32, start.toNat ≤ va.toNat → va.toNat < start.toNat + size.toNat →
      Writable m' (frameNo pgDir) va) ∧
    ∀ va, pgDirIndex va ≠ pgDirIndex start → Writable m (frameNo pgDir) va →
      Writable m' (frameNo pgDir) va := by
  have hbuilt := h.chunk halloc hflags huser hrun hret
  have hbase : kernelVirtBase.toNat = 0xC0000000 := rfl
  have hlimit : (start + size).toNat = start.toNat + size.toNat := by
    rw [BitVec.toNat_add]
    omega
  have htmp := toNat_and_page start
  unfold virtMapChunk mapChunk nrTables at hrun
  obtain ⟨⟨mapped, done⟩, htables, hend⟩ := bind_eq_ok.mp hrun
  cases done with
  | false => exact absurd (congrArg Prod.snd (Except.ok.inj hend)).symm hret
  | true =>
    obtain rfl : mapped.tmpMapPage m.getTmpPage = m' := congrArg Prod.fst (Except.ok.inj hend)
    rw [show size.toNat / 0x400000 + 1 = 1 by omega] at htables
    obtain ⟨i, m₁, m₂, pgTable, tmp', phys', hi, ht, hp, hrest⟩ := mapTables_succ htables
    cases hrest
    have hmapped : Building reserved c (frameNo pgDir) m₀
        ((m.tmpMapPage pgDir).tmpMapPage pgDir) := h.congr rfl rfl
    have hopened := Building.opened halloc hflags huser hmapped ht
    have hfill := mapPages_filled (1024 - pgTabIndex (start &&& 0xFFFFF000#32))
      (pgTabIndex (start &&& 0xFFFFF000#32)) (by omega) (by omega) hp
    have hentered := hopened.entered hfill (pgTable ||| pagePresent ||| flags)
    have hslot : i = pgDirIndex start := by
      refine Fin.ext (hi.trans (show _ / 2 ^ 22 + 0 = start.toNat / 2 ^ 22 from ?_))
      omega
    have hpresent : Has (pgTable ||| pagePresent ||| flags) pagePresent :=
      Paging.has_or_left (Paging.has_or_right (by decide))
    have hcovers := hentered.covers hopened hslot htmp hfill hlimit hpresent
      (frameNo_flags hflags) hflags hone fun hphys => absurd rfl hphys
    have hi' : (i : ℕ) < kernelSlot := by
      rw [hslot]
      exact pgDirIndex_lt (BitVec.lt_def.mpr (by omega))
    have hbuilt₃ : Building reserved c (frameNo pgDir) m₀
        ((m₂.tmpMapPage pgDir).setTmp i (pgTable ||| pagePresent ||| flags)) :=
      hbuilt.congr rfl rfl
    generalize (m₂.tmpMapPage pgDir).setTmp i (pgTable ||| pagePresent ||| flags) = m₃
      at hentered hcovers hbuilt₃ ⊢
    have htable : entryOf m₃ (frameNo pgDir) (.table i) =
        some (pgTable ||| pagePresent ||| flags) := by
      rw [entryOf_table, hentered.dir, Function.update_self]
      exact ⟨hi', hpresent, rfl⟩
    refine ⟨fun va hle hlt => Writable.congr (m := m₃) ?_ rfl, fun va hne hw =>
      Writable.congr (m := m₃) ?_ rfl⟩
    · have hva : va < kernelVirtBase := BitVec.lt_def.mpr (by omega)
      have hslot' : pgDirIndex va = i := by
        rw [hslot]
        refine Fin.ext (show va.toNat / 2 ^ 22 = start.toNat / 2 ^ 22 from ?_)
        omega
      obtain ⟨e, he, hand, -⟩ := hcovers va hle hlt
      refine ⟨⟨pgTable ||| pagePresent ||| flags, ?_, Paging.has_or_right hwrite⟩, e,
        (mappedAt_eq_some hva).mp he, has_of_and hand hwrite⟩
      rw [hslot']
      exact htable
    · obtain ⟨⟨e₁, htable₁, hw₁⟩, e₂, hpage, hw₂⟩ := hw
      rw [← hslot] at hne
      have hsame : m₃.mem (frameNo pgDir) (pgDirIndex va) =
          m.mem (frameNo pgDir) (pgDirIndex va) := by
        rw [hentered.dir, Function.update_of_ne hne]
        rfl
      have htable₂ : entryOf m₃ (frameNo pgDir) (.table (pgDirIndex va)) = some e₁ := by
        rw [entryOf_table, hsame]
        exact entryOf_table.mp htable₁
      obtain ⟨t, ht', hp₂, he₂⟩ := entryOf_page.mp hpage
      have ht₂ : frameOf m₃ (frameNo pgDir) (.table (pgDirIndex va)) = some t := by
        rw [frameOf, htable₂, ← htable₁]
        exact ht'
      -- the two page tables have different frames, since each has one place
      have hne' : t ≠ frameNo pgTable := by
        rintro rfl
        refine hne (Place.table.inj (hbuilt₃.inj ht₂ (frameOf_eq_some.mpr ⟨_, htable, ?_⟩)))
        exact frameNo_flags hflags
      have hkeep : m₃.mem t = m.mem t := hentered.mem t (fun heq => h.ne (heq ▸ ht')) hne'
      refine ⟨⟨e₁, htable₂, hw₁⟩, e₂, entryOf_page.mpr ⟨t, ht₂, ?_⟩, hw₂⟩
      rw [hkeep]
      exact ⟨hp₂, he₂⟩

end Chunk

/-! ## Enough frames -/

section Frames

open Paging.Chunk (tableFor_some mapPages_some frameAddr_ne firstUncounted_cases)

variable {size : BitVec 32} {n : ℕ}

theorem frameAddr_aligned (f : Frame) : f.setWidth 32 <<< 12 &&& 0xFFF#32 = 0#32 := by
  refine BitVec.eq_of_toNat_eq ?_
  rw [BitVec.toNat_and, show (0xFFF#32).toNat = 2 ^ 12 - 1 by decide,
    Nat.and_two_pow_sub_one_eq_mod, BitVec.toNat_shiftLeft, BitVec.toNat_setWidth,
    Nat.shiftLeft_eq, BitVec.toNat_ofNat]
  omega

/-- Without the frame 0, a new frame is not at the address 0. -/
theorem firstUncounted_dir (hno : firstUncounted (2 ^ 20) m ≠ BitVec.ofNat 32 noFreePage)
    (hzero : m.counts 0#20 ≠ 0#8) :
    firstUncounted (2 ^ 20) m ≠ 0#32 ∧ firstUncounted (2 ^ 20) m &&& 0xFFF#32 = 0#32 := by
  obtain ⟨f, hf, -, hcount⟩ := (firstUncounted_cases le_rfl m).resolve_left hno
  rw [hf]
  refine ⟨fun heq => hzero ?_, frameAddr_aligned f⟩
  have hframe := congrArg frameNo heq
  rw [Paging.frameNo_shiftLeft] at hframe
  rwa [hframe] at hcount

/-- A chunk of one page table needs 1025 frames at most. -/
theorem exists_virtMapChunk (start pgDir flags : BitVec 32) (h : CountsBelow n m) (hn : 2 ≤ n)
    (hlt : n + 1025 ≤ 2 ^ 20) (hsize : size.toNat < 0x400000) :
    ∃ m', virtMapChunk (firstUncounted (2 ^ 20)) start size pgDir flags m = .ok (m', pgDir) ∧
      CountsBelow (n + 1025) m' := by
  have hi : (pgDirIndex (start &&& 0xFFFFF000#32) : ℕ) + 0 < 1024 :=
    (pgDirIndex (start &&& 0xFFFFF000#32)).isLt
  have hopened : CountsBelow n ((m.tmpMapPage pgDir).tmpMapPage pgDir) := h
  obtain ⟨m₁, pgTable, ht, hm₁⟩ := tableFor_some m.getTmpPage
    (((m.tmpMapPage pgDir).tmpMapPage pgDir).tmp ⟨pgDirIndex (start &&& 0xFFFFF000#32) + 0, hi⟩)
    hopened le_rfl hn (by omega)
  have hlen : ((List.finRange 1024).drop (pgTabIndex (start &&& 0xFFFFF000#32))).length ≤ 1024 :=
    (List.drop_sublist ..).length_le.trans List.length_finRange.le
  obtain ⟨m₂, ⟨tmp', phys'⟩, hp, hm₂⟩ := mapPages_some (start + size) flags
    (start &&& 0xFFFFF000#32) 0#32
    ((List.finRange 1024).drop (pgTabIndex (start &&& 0xFFFFF000#32))) hm₁ le_rfl (by omega)
    (by omega)
  have htables : mapTables (firstUncounted (2 ^ 20)) (start + size) pgDir flags
      m.getTmpPage 1 0 (start &&& 0xFFFFF000#32) 0#32 (m.tmpMapPage pgDir) =
      .ok ((m₂.tmpMapPage pgDir).setTmp ⟨pgDirIndex (start &&& 0xFFFFF000#32) + 0, hi⟩
        (pgTable ||| pagePresent ||| flags), true) := by
    unfold mapTables
    simp only [dif_pos hi, ht, hp]
    rfl
  have hcounts : CountsBelow (n + 1025)
      (((m₂.tmpMapPage pgDir).setTmp ⟨pgDirIndex (start &&& 0xFFFFF000#32) + 0, hi⟩
        (pgTable ||| pagePresent ||| flags)).tmpMapPage m.getTmpPage) := hm₂.mono (by omega)
  refine ⟨_, ?_, hcounts⟩
  unfold virtMapChunk mapChunk nrTables
  rw [show size.toNat / 0x400000 + 1 = 1 by omega]
  exact bind_eq_ok.mpr ⟨_, htables, rfl⟩

end Frames

/-! ## A program with data only -/

/-- The image has no text and no constants, and its data is in one page table, which is not that of
the stack. -/
structure DataOnly (image : ExecImage) : Prop where
  textVaddr : image.textVaddr = 0#32
  textSize : image.textSize = 0#32
  rodataSize : image.rodataSize = 0#32
  pos : 0 < image.dataSize.toNat
  lt : image.dataSize.toNat < 0x400000
  one : image.dataVaddr.toNat % 0x400000 + image.dataSize.toNat ≤ 0x400000
  below : image.dataVaddr.toNat + image.dataSize.toNat ≤ 0xBFC00000

theorem vallocSegment_zero {alloc : Machine → BitVec 32} {vaddr pgDir flags : BitVec 32} :
    vallocSegment alloc vaddr 0#32 pgDir flags m = .ok (m, true) := rfl

theorem vallocSegment_ok {alloc : Machine → BitVec 32} {vaddr size pgDir flags : BitVec 32}
    (hsize : 0 < size.toNat) (hdir : pgDir ≠ 0#32)
    (hrun : virtMapChunk alloc vaddr size pgDir flags m = .ok (m', pgDir)) :
    vallocSegment alloc vaddr size pgDir flags m = .ok (m', true) := by
  have hpos : size > 0#32 := BitVec.lt_def.mpr hsize
  unfold vallocSegment
  rw [if_pos hpos, hrun]
  exact congrArg (fun done => Except.ok (m', done)) (decide_eq_true hdir)

/-- With all memory but two frames, there is an address space for the image. -/
theorem Ready.exists_valloc (h : Ready {1#20} k m cr3) (halloc : k.alloc = firstUncounted (2 ^ 20))
    (hcounts : CountsBelow 2 m) (hzero : m.counts 0#20 ≠ 0#8) (himage : DataOnly image) :
    ∃ m' pgDir, archVallocSegments k image m = .ok (m', some pgDir) ∧ pgDir &&& 0xFFF#32 = 0#32 ∧
      ∀ va : BitVec 32, (image.dataVaddr.toNat ≤ va.toNat ∧
          va.toNat < image.dataVaddr.toNat + image.dataSize.toNat) ∨
          (0xBFE00000 ≤ va.toNat ∧ va.toNat < 0xC0000000) → Writable m' (frameNo pgDir) va := by
  have hbase : kernelVirtBase.toNat = 0xC0000000 := rfl
  have hstack : (kernelVirtBase - userStackSize).toNat = 0xBFE00000 := by decide
  have hstackSize : userStackSize.toNat = 0x200000 := by decide
  have hlt := himage.lt
  have hbelow := himage.below
  have hread : frameNo (pageUser ||| pageWritable) = 0#20 := by decide
  obtain ⟨hno, hcounts₁⟩ := hcounts.setCount (n := 2 ^ 20) le_rfl le_rfl (by norm_num)
  obtain ⟨hdir, haligned⟩ := firstUncounted_dir hno hzero
  have hnew := h.alloc m (halloc ▸ hno)
  rw [halloc] at hnew
  generalize hpgDir : firstUncounted (2 ^ 20) m = pgDir at hno hcounts₁ hdir haligned hnew
  have hstart : Building {1#20} (frameNo cr3) (frameNo pgDir) m
      (((m.setCount pgDir 1#8).tmpMapPage pgDir).setTmpPage k.initPageDirectory) :=
    h.building hnew (Function.update_self ..) (fun f hf => Function.update_of_ne hf ..) rfl
  obtain ⟨m₁, hrun₁, hcounts₂⟩ := exists_virtMapChunk
    (m := ((m.setCount pgDir 1#8).tmpMapPage pgDir).setTmpPage k.initPageDirectory) image.dataVaddr
    pgDir (pageUser ||| pageWritable) hcounts₁ (by decide) (by norm_num) hlt
  obtain ⟨m₂, hrun₂, -⟩ := exists_virtMapChunk (kernelVirtBase - userStackSize) pgDir
    (pageUser ||| pageWritable) hcounts₂ (by decide) (by norm_num)
    (show userStackSize.toNat < 0x400000 by decide)
  have hout : AllocatesOutside {1#20} (firstUncounted (2 ^ 20)) := halloc ▸ h.alloc
  obtain ⟨hdata, -⟩ := hstart.chunk_writable hout hread (by decide) (by decide) (by omega)
    himage.pos hlt himage.one hrun₁ hdir
  have hb₁ := hstart.chunk hout hread (by decide) hrun₁ hdir
  obtain ⟨hstack', hkeep⟩ := hb₁.chunk_writable hout hread (by decide) (by decide) (by decide)
    (by decide) (by decide) (by decide) hrun₂ hdir
  refine ⟨m₂.tmpMapPage m.getTmpPage, pgDir, ?_, haligned, ?_⟩
  · unfold archVallocSegments Machine.pageFrameAlloc
    rw [halloc, hpgDir]
    rw [if_neg hno]
    dsimp only
    rw [if_neg hno, himage.textVaddr, himage.textSize, himage.rodataSize, if_neg (by decide)]
    refine bind_eq_ok.mpr ⟨_, vallocSegment_zero, ?_⟩
    have hle : ¬ image.dataVaddr > kernelVirtBase := by
      rw [gt_iff_lt, BitVec.lt_def]
      omega
    simp only [hle, if_false]
    refine bind_eq_ok.mpr ⟨_, vallocSegment_ok himage.pos hdir hrun₁, ?_⟩
    refine bind_eq_ok.mpr ⟨_, vallocSegment_zero, ?_⟩
    exact bind_eq_ok.mpr ⟨_, vallocSegment_ok (by decide) hdir hrun₂, rfl⟩
  · rintro va (⟨hle, hlt'⟩ | ⟨hle, hlt'⟩)
    · refine Writable.congr (m := m₂) (hkeep va ?_ (hdata va hle hlt')) rfl
      intro heq
      have hindex : va.toNat / 2 ^ 22 = (kernelVirtBase - userStackSize).toNat / 2 ^ 22 :=
        congrArg Fin.val heq
      omega
    · exact Writable.congr (m := m₂) (hstack' va (by omega) (by omega)) rfl

theorem exists_pageFrameFree {page : BitVec 32} (h : page &&& 0xFFF#32 = 0#32) (m : Machine) :
    ∃ m', pageFrameFree page m = .ok m' := by
  unfold pageFrameFree
  dsimp only
  by_cases hshared : (m.pageDecreaseCount page).pageGetCount page > 0
  · rw [if_pos hshared]
    exact ⟨_, rfl⟩
  · rw [if_neg hshared, if_neg (not_not.mpr h)]
    exact ⟨_, rfl⟩

theorem Separate.exists_readImage {x : ExecFile} {seg : Segments} (h : Separate m (frameNo cr3))
    (himage : DataOnly seg.image) (hread : ∀ off count, (x.read off count).length ≤ count.toNat)
    (hcount : seg.image.bssSize ≤ seg.image.dataSize)
    (hbss : seg.image.bssSize.toNat ≠ 0 → seg.image.dataVaddr.toNat ≤ seg.image.bssVaddr.toNat ∧
      seg.image.bssVaddr.toNat < seg.image.dataVaddr.toNat + seg.image.dataSize.toNat)
    (hwritable : ∀ va : BitVec 32, seg.image.dataVaddr.toNat ≤ va.toNat →
      va.toNat < seg.image.dataVaddr.toNat + seg.image.dataSize.toNat →
      Writable m (frameNo cr3) va) (k : Kernel) (image : ExecImage) :
    ∃ m', elf32ReadImage k image cr3 x seg m = .ok m' := by
  have hbase : kernelVirtBase.toNat = 0xC0000000 := rfl
  have hbelow := himage.below
  have hcount' : seg.image.bssSize.toNat ≤ seg.image.dataSize.toNat := hcount
  have hlen := hread seg.dataOff (seg.image.dataSize - seg.image.bssSize)
  have hsub : (seg.image.dataSize - seg.image.bssSize).toNat ≤ seg.image.dataSize.toNat := by
    rw [BitVec.toNat_sub_of_le hcount]
    omega
  obtain ⟨m₁, hdata, hentry⟩ := h.putBytes_ok seg.image.dataVaddr
    (x.read seg.dataOff (seg.image.dataSize - seg.image.bssSize)) (by omega)
    (fun va hle hlt => hwritable va hle (by omega)) k image
  have hfirst : seg.image.bssSize.toNat ≠ 0 → seg.image.bssVaddr < kernelVirtBase ∧
      Writable m₁ (frameNo cr3) seg.image.bssVaddr := by
    intro hne
    obtain ⟨hle, hlt⟩ := hbss hne
    exact ⟨BitVec.lt_def.mpr (by omega), (hwritable _ hle hlt).congr hentry⟩
  obtain ⟨m₂, hclear, -⟩ := (h.putBytes hdata).1.clearBss_ok seg.image.bssVaddr
    seg.image.bssSize.toNat hfirst k image
  have hpos : seg.image.dataSize ≠ 0#32 := by
    intro hzero
    have hpos := himage.pos
    rw [hzero] at hpos
    exact absurd hpos (lt_irrefl _)
  refine ⟨m₂, ?_⟩
  unfold elf32ReadImage Exec.readSegment
  dsimp only
  rw [himage.textSize, himage.rodataSize]
  refine bind_eq_ok.mpr ⟨m, rfl, bind_eq_ok.mpr ⟨m₁, ?_, bind_eq_ok.mpr ⟨m₁, rfl, hclear⟩⟩⟩
  rw [if_pos hpos]
  exact hdata

/-- The first program of a process is run, if it has data only. -/
theorem Ready.exists_execImage {s : Caller} {x : ExecFile} {strings : Strings} {hdr : ElfEhdr}
    (h : Ready {1#20} k s.machine s.cr3) (halloc : k.alloc = firstUncounted (2 ^ 20))
    (hcounts : CountsBelow 2 s.machine) (hzero : s.machine.counts 0#20 ≠ 0#8)
    (hfirst : s.image.textVaddr = k.startUserHead) (hgap : stackGap strings ≤ userStackSize)
    (himage : DataOnly (segments x hdr).image)
    (hread : ∀ off count, (x.read off count).length ≤ count.toNat)
    (hcount : (segments x hdr).image.bssSize ≤ (segments x hdr).image.dataSize)
    (hbss : (segments x hdr).image.bssSize.toNat ≠ 0 →
      (segments x hdr).image.dataVaddr.toNat ≤ (segments x hdr).image.bssVaddr.toNat ∧
      (segments x hdr).image.bssVaddr.toNat <
        (segments x hdr).image.dataVaddr.toNat + (segments x hdr).image.dataSize.toNat) :
    ∃ s', s.execImage k x strings hdr = .ok (0, s') := by
  have hbase : kernelVirtBase.toNat = 0xC0000000 := rfl
  have hgap' : (stackGap strings).toNat ≤ 0x200000 := hgap
  have hstack : (kernelVirtBase - stackGap strings).toNat =
      0xC0000000 - (stackGap strings).toNat := by
    rw [BitVec.toNat_sub_of_le (BitVec.le_def.mpr (by omega)), hbase]
  obtain ⟨m₁, pgDir, hvalloc, haligned, hwritable⟩ := h.exists_valloc halloc hcounts hzero himage
  have hbuilding := h.valloc hvalloc
  have hdir : ¬ TableOf m₁ (frameNo s.cr3) (frameNo s.cr3) := by
    rw [TableOf, hbuilding.old_same]
    exact h.dir_ne
  have hfree : s.freeOld k m₁ = .ok m₁ := by
    unfold Caller.freeOld
    rw [if_neg (not_not.mpr hfirst)]
  obtain ⟨m₂, hpage⟩ := exists_pageFrameFree haligned (m₁.copyPageTable s.cr3 pgDir)
  obtain ⟨hs₂, hentry, -⟩ := hbuilding.copied (freeOld_releases hdir hfree) hpage
  have hlen : ((List.range (stackGap strings).toNat).map strings.buffer).length =
      (stackGap strings).toNat := by
    rw [List.length_map, List.length_range]
  obtain ⟨m₃, hput, hentry₃⟩ := hs₂.putBytes_ok (kernelVirtBase - stackGap strings)
    ((List.range (stackGap strings).toNat).map strings.buffer) (by omega)
    (fun va hle hlt => (hwritable va (Or.inr (by omega))).congr hentry) k s.image
  obtain ⟨m₄, himage'⟩ := (hs₂.putBytes hput).1.exists_readImage himage hread hcount hbss
    (fun va hle hlt => (hwritable va (Or.inl ⟨hle, hlt⟩)).congr (hentry₃.trans hentry)) k s.image
  refine ⟨{ s with
    machine := m₄
    nextCr3 := pgDir
    esp := kernelVirtBase - stackGap strings
    eip := hdr.entry }, ?_⟩
  unfold Caller.execImage
  exact bind_eq_ok.mpr ⟨_, hvalloc, bind_eq_ok.mpr ⟨_, hfree, bind_eq_ok.mpr ⟨_, hpage,
    bind_eq_ok.mpr ⟨_, hput, bind_eq_ok.mpr ⟨_, himage', rfl⟩⟩⟩⟩⟩

end Yak.Exec
