import Yak.Bitmap
import Yak.Halt
import Mathlib.Tactic

/-!
# Buffered streams of the C library

A transcription of `libc/stdio/stdio.c` and of the macros in `libc/include/bits/stdio.h`.  The two
buffers of a stream have `__FILE_BUFSIZ` bytes, and an access to another index is a halt, as is a
`write` of more bytes than the buffer has.  `__getc_unlocked` refills a buffer with one byte left
in it, and `__putc_unlocked` counts the byte that does not fit before the buffer is written.
-/

namespace Yak.Stdio

open ByteBitmap (Bytes)

def fopenMax : ℕ := 20
def fileBufsiz : ℕ := 1024
def eof : ℤ := -1
def ebadf : ℤ := 8

def flagRead : BitVec 32 := 1 <<< 0
def flagWrite : BitVec 32 := 1 <<< 1
def flagEof : BitVec 32 := 1 <<< 2
def flagErr : BitVec 32 := 1 <<< 3

/-- An `int`, after an increment or a decrement. -/
def int32 (x : ℤ) : ℤ := x.bmod (2 ^ 32)

/-- `struct __FILE`, the pointers as places in their buffers. -/
structure File where
  flags : BitVec 32
  fd : ℕ
  rcount : ℤ
  wcount : ℤ
  rbuf : Bytes
  wbuf : Bytes
  rptr : Option ℕ
  wptr : Option ℕ

/-- What the system calls give and get. -/
structure Sys where
  /-- What the next calls of `read` give: bytes, none of them at the end of the file, or an
  error.  Behind the list there is the end of the file. -/
  reads : List (Option (List (BitVec 8)))
  /-- Whether `write` takes all bytes, or fails. -/
  accepts : Bool
  /-- The bytes written to each descriptor. -/
  written : ℕ → List (BitVec 8)
  errno : ℤ

/-- `write` of a buffer of `__FILE_BUFSIZ` bytes.  The result says whether it failed. -/
def write (sys : Sys) (fd : ℕ) (buf : Bytes) (count : ℤ) : Except Halt (Bool × Sys) :=
  if 0 ≤ count ∧ count ≤ fileBufsiz then
    if sys.accepts then
      .ok (false, { sys with
        written := Function.update sys.written fd
          (sys.written fd ++ (List.range count.toNat).map buf) })
    else .ok (true, sys)
  else .error .outOfBounds

namespace File

/-- `*fp->rptr++` -/
def load (fp : File) : Except Halt (BitVec 8 × File) :=
  match fp.rptr with
  | none => .error .nullDeref
  | some i =>
      if i < fileBufsiz then .ok (fp.rbuf i, { fp with rptr := some (i + 1) })
      else .error .outOfBounds

/-- `*fp->wptr++ = c` -/
def store (fp : File) (c : BitVec 8) : Except Halt File :=
  match fp.wptr with
  | none => .error .nullDeref
  | some i =>
      if i < fileBufsiz then
        .ok { fp with wbuf := Function.update fp.wbuf i c, wptr := some (i + 1) }
      else .error .outOfBounds

/-- The buffer after a `read` of these bytes. -/
def filled (fp : File) (bytes : List (BitVec 8)) : File :=
  { fp with
    flags := fp.flags &&& ~~~flagEof
    rcount := bytes.length
    rbuf := fun i => bytes.getD i (fp.rbuf i)
    rptr := some 0 }

/-- `__fillbuf` -/
def fillbuf (sys : Sys) (fp : File) : Except Halt (ℤ × Sys × File) :=
  if fp.flags &&& flagRead = 0 then
    .ok (eof, { sys with errno := ebadf }, { fp with flags := fp.flags ||| flagErr })
  else
    match sys.reads with
    | none :: reads =>
        .ok (eof, { sys with reads := reads }, { fp with flags := fp.flags ||| flagErr })
    | [] => .ok (eof, sys, { fp with flags := fp.flags ||| flagEof })
    | some [] :: reads =>
        .ok (eof, { sys with reads := reads }, { fp with flags := fp.flags ||| flagEof })
    | some bytes :: reads => do
        let fp := fp.filled bytes
        let (c, fp) ← { fp with rcount := int32 (fp.rcount - 1) }.load
        .ok (c.toNat, { sys with reads := reads }, fp)

/-- `__getc_unlocked` -/
def getcUnlocked (sys : Sys) (fp : File) : Except Halt (ℤ × Sys × File) :=
  let fp := { fp with rcount := int32 (fp.rcount - 1) }
  if 0 < fp.rcount then do
    let (c, fp) ← fp.load
    .ok (c.toNat, sys, fp)
  else fp.fillbuf sys

/-- `__flushbuf` -/
def flushbuf (sys : Sys) (fp : File) (c : BitVec 32) : Except Halt (Sys × File) :=
  if fp.flags &&& flagWrite = 0 then
    .ok ({ sys with errno := ebadf }, { fp with flags := fp.flags ||| flagErr })
  else do
    let (failed, sys) ← write sys fp.fd fp.wbuf fp.wcount
    if failed then .ok (sys, { fp with flags := fp.flags ||| flagErr })
    else
      let fp ← { fp with wptr := some 0, wcount := 1 }.store (c.setWidth 8)
      .ok (sys, fp)

/-- `__putc_unlocked` -/
def putcUnlocked (sys : Sys) (fp : File) (c : BitVec 32) : Except Halt (Sys × File) :=
  let count := fp.wcount
  let fp := { fp with wcount := int32 (count + 1) }
  if count < fileBufsiz then do
    let fp ← fp.store (c.setWidth 8)
    .ok (sys, fp)
  else fp.flushbuf sys c

/-- Successive calls of `__getc_unlocked`, with their results. -/
def getcs : ℕ → Sys → File → Except Halt (List ℤ)
  | 0, _, _ => .ok []
  | n + 1, sys, fp => do
      let (c, sys, fp) ← fp.getcUnlocked sys
      let rest ← getcs n sys fp
      .ok (c :: rest)

/-- Successive calls of `__putc_unlocked`. -/
def putcs : List (BitVec 32) → Sys → File → Except Halt (Sys × File)
  | [], sys, fp => .ok (sys, fp)
  | c :: cs, sys, fp => do
      let (sys, fp) ← fp.putcUnlocked sys c
      putcs cs sys fp

/-- The part of `__libc_stdio_fini` for one stream. -/
def fini (sys : Sys) (fp : File) : Except Halt Sys :=
  if fp.flags ≠ 0 ∧ fp.wptr ≠ some 0 then do
    let (_, sys) ← write sys fp.fd fp.wbuf fp.wcount
    .ok sys
  else .ok sys

/-- A static entry of `__file_table`. -/
def static (flags : BitVec 32) (fd : ℕ) : File where
  flags := flags
  fd := fd
  rcount := 0
  wcount := 0
  rbuf _ := 0#8
  wbuf _ := 0#8
  rptr := none
  wptr := none

/-- The pointers which `__libc_stdio_init` sets. -/
def setPointers (fp : File) : File := { fp with rptr := some 0, wptr := some 0 }

end File

/-- `__file_table` -/
def fileTable : List File :=
  [.static flagRead 0, .static flagWrite 1, .static flagWrite 2] ++
    List.replicate (fopenMax - 3) (.static 0 0)

/-- `__libc_stdio_init` -/
def libcStdioInit (table : List File) : List File :=
  (table.take 3).map File.setPointers ++ table.drop 3

/-- `__libc_stdio_fini` -/
def libcStdioFini (table : List File) (sys : Sys) : Except Halt Sys :=
  table.foldlM File.fini sys

/-- `stdin`, `stdout` or `stderr`. -/
def stream (s : Fin 3) : File := (File.static (if s = 0 then flagRead else flagWrite) s).setPointers

/-- The process starts, with what `read` is going to give. -/
def start (reads : List (Option (List (BitVec 8)))) : Sys where
  reads := reads
  accepts := true
  written _ := []
  errno := 0

/-- The calls of `__putc_unlocked` on one stream, and `__libc_stdio_fini`. -/
def putAll (s : Fin 3) (cs : List (BitVec 32)) : Except Halt Sys := do
  let (sys, fp) ← (stream s).putcs cs (start [])
  libcStdioFini ((libcStdioInit fileTable).set s fp) sys

/-- The bytes which `read` delivers: it is called for a readable stream only. -/
def delivered (s : Fin 3) (chunks : List (List (BitVec 8))) : List (BitVec 8) :=
  if s = 0 then chunks.flatten else []

/-- The results of the calls are the bytes delivered, and `EOF`. -/
def GetsAll (s : Fin 3) (chunks : List (List (BitVec 8))) : Prop :=
  (stream s).getcs ((delivered s chunks).length + 1) (start (chunks.map some)) =
    .ok ((delivered s chunks).map (fun c => (c.toNat : ℤ)) ++ [eof])

/-- The bytes written are the bytes put. -/
def PutsAll (s : Fin 3) (cs : List (BitVec 32)) : Prop :=
  ∃ sys, putAll s cs = .ok sys ∧
    sys.written = Function.update (fun _ => []) (s : ℕ) (cs.map (·.setWidth 8))

/-! ## Input -/

theorem int32_of_small {x : ℤ} (h : -(2 ^ 31) ≤ x) (h' : x < 2 ^ 31) : int32 x = x :=
  Int.bmod_eq_of_le (by omega) (by omega)

/-- The bytes of a chunk which come out: all but the last one, unless it is the first. -/
def firstKept : List (BitVec 8) → List (BitVec 8)
  | [] => []
  | x :: c => x :: c.dropLast

/-- What the calls give before `EOF`, with these bytes left in the buffer. -/
def gotten (r : List (BitVec 8)) (chunks : List (List (BitVec 8))) : List (BitVec 8) :=
  r.dropLast ++ chunks.flatMap firstKept

/-- What `read` may give. -/
def Fits (chunks : List (List (BitVec 8))) : Prop :=
  ∀ c ∈ chunks, 1 ≤ c.length ∧ c.length ≤ fileBufsiz

instance (chunks : List (List (BitVec 8))) : Decidable (Fits chunks) :=
  inferInstanceAs (Decidable (∀ c ∈ chunks, _))

/-- A readable stream with these bytes left in its buffer. -/
structure Reading (fp : File) (r : List (BitVec 8)) : Prop where
  flags : fp.flags &&& flagRead ≠ 0
  count : fp.rcount = r.length
  place : ∃ i, fp.rptr = some i ∧ i + r.length ≤ fileBufsiz ∧
    ∀ j (hj : j < r.length), fp.rbuf (i + j) = r[j]

theorem Reading.next {fp : File} {x y : BitVec 8} {r : List (BitVec 8)} (sys : Sys)
    (h : Reading fp (x :: y :: r)) :
    ∃ fp', fp.getcUnlocked sys = .ok ((x.toNat : ℤ), sys, fp') ∧ Reading fp' (y :: r) := by
  obtain ⟨i, hptr, hfits, hbuf⟩ := h.place
  have hcount : int32 (fp.rcount - 1) = (y :: r).length := by
    have hlength := h.count
    simp only [List.length_cons, fileBufsiz] at hlength hfits ⊢
    rw [int32_of_small (by omega) (by omega)]
    omega
  have hx : fp.rbuf i = x := hbuf 0 (by simp)
  have hi : i < fileBufsiz := by
    simp only [List.length_cons] at hfits
    omega
  refine ⟨{ fp with rcount := (y :: r).length, rptr := some (i + 1) }, ?_, h.flags, rfl, ?_⟩
  · unfold File.getcUnlocked File.load
    simp [hcount, hptr, hi, hx]
  · refine ⟨i + 1, rfl, ?_, fun j hj => ?_⟩
    · simp only [List.length_cons] at hfits ⊢
      omega
    · have hlater := hbuf (j + 1) (Nat.succ_lt_succ hj)
      rwa [← Nat.add_assoc, Nat.add_right_comm] at hlater

/-- A buffer with one byte left in it counts as empty. -/
theorem Reading.fillbuf {fp : File} {r : List (BitVec 8)} (sys : Sys) (h : Reading fp r)
    (hlast : r.length ≤ 1) :
    fp.getcUnlocked sys = { fp with rcount := int32 (fp.rcount - 1) }.fillbuf sys := by
  have hcount : ¬ 0 < int32 (fp.rcount - 1) := by
    rw [h.count, int32_of_small (by omega) (by omega)]
    omega
  unfold File.getcUnlocked
  rw [if_neg hcount]

theorem Reading.refill {fp : File} {r cs : List (BitVec 8)} {x : BitVec 8}
    {reads : List (Option (List (BitVec 8)))} {sys : Sys} (h : Reading fp r)
    (hlast : r.length ≤ 1) (hreads : sys.reads = some (x :: cs) :: reads)
    (hfits : (x :: cs).length ≤ fileBufsiz) :
    ∃ fp', fp.getcUnlocked sys = .ok ((x.toNat : ℤ), { sys with reads := reads }, fp') ∧
      Reading fp' cs := by
  have hflags : fp.flags &&& ~~~flagEof &&& flagRead ≠ 0 := by
    rw [BitVec.and_assoc, show ~~~flagEof &&& flagRead = flagRead by decide]
    exact h.flags
  have hcount : int32 (((x :: cs).length : ℤ) - 1) = cs.length := by
    simp only [List.length_cons, fileBufsiz] at hfits ⊢
    rw [int32_of_small (by omega) (by omega)]
    omega
  rw [h.fillbuf sys hlast]
  unfold File.fillbuf
  rw [if_neg h.flags, hreads]
  unfold File.filled File.load
  dsimp only
  rw [if_pos (by decide), ok_bind, hcount]
  refine ⟨_, rfl, hflags, rfl, 1, rfl, ?_, fun j hj => ?_⟩
  · simp only [List.length_cons] at hfits
    omega
  · show (x :: cs).getD (1 + j) _ = cs[j]
    rw [Nat.add_comm, List.getD_cons_succ]
    simp [hj]

theorem Reading.atEnd {fp : File} {r : List (BitVec 8)} {sys : Sys} (h : Reading fp r)
    (hlast : r.length ≤ 1) (hreads : sys.reads = []) :
    ∃ fp', fp.getcUnlocked sys = .ok (eof, sys, fp') := by
  rw [h.fillbuf sys hlast]
  unfold File.fillbuf
  rw [if_neg h.flags, hreads]
  exact ⟨_, rfl⟩

/-- The calls up to the first which gives `EOF`. -/
def Gives (sys : Sys) (fp : File) (bytes : List (BitVec 8)) : Prop :=
  fp.getcs (bytes.length + 1) sys = .ok (bytes.map (fun c => (c.toNat : ℤ)) ++ [eof])

theorem Gives.cons {sys sys' : Sys} {fp fp' : File} {x : BitVec 8} {bytes : List (BitVec 8)}
    (hcall : fp.getcUnlocked sys = .ok ((x.toNat : ℤ), sys', fp')) (h : Gives sys' fp' bytes) :
    Gives sys fp (x :: bytes) :=
  bind_eq_ok.mpr ⟨_, hcall, bind_eq_ok.mpr ⟨_, h, rfl⟩⟩

theorem Reading.gives_of_last {chunks : List (List (BitVec 8))} {sys : Sys}
    (hlast : ∀ {fp r}, Reading fp r → r.length ≤ 1 → Gives sys fp (gotten r chunks))
    {fp : File} {r : List (BitVec 8)} (h : Reading fp r) : Gives sys fp (gotten r chunks) := by
  induction r generalizing fp with
  | nil => exact hlast h (Nat.zero_le 1)
  | cons x r ih =>
      cases r with
      | nil => exact hlast h le_rfl
      | cons y r =>
          obtain ⟨fp', hcall, hnext⟩ := h.next sys
          exact .cons hcall (ih hnext)

theorem gotten_of_last {r : List (BitVec 8)} (h : r.length ≤ 1)
    (chunks : List (List (BitVec 8))) : gotten r chunks = chunks.flatMap firstKept := by
  have hnone : r.dropLast = [] := List.length_eq_zero_iff.mp (by simp; omega)
  rw [gotten, hnone, List.nil_append]

theorem Reading.gives {fp : File} {r : List (BitVec 8)} {chunks : List (List (BitVec 8))}
    {sys : Sys} (h : Reading fp r) (hreads : sys.reads = chunks.map some) (hfits : Fits chunks) :
    Gives sys fp (gotten r chunks) := by
  induction chunks generalizing r fp sys with
  | nil =>
      refine h.gives_of_last fun {fp r} h hlast => ?_
      obtain ⟨fp', hcall⟩ := h.atEnd hlast hreads
      rw [gotten_of_last hlast]
      exact bind_eq_ok.mpr ⟨_, hcall, rfl⟩
  | cons chunk chunks ih =>
      refine h.gives_of_last fun {fp r} h hlast => ?_
      obtain ⟨hpos, hle⟩ := hfits chunk List.mem_cons_self
      obtain ⟨x, c, rfl⟩ := List.exists_cons_of_length_pos hpos
      obtain ⟨fp', hcall, hnext⟩ := h.refill hlast hreads hle
      rw [gotten_of_last hlast]
      exact .cons hcall (ih hnext rfl fun c hc => hfits c (List.mem_cons_of_mem _ hc))

theorem getcs_take {a b : ℕ} {sys : Sys} {fp : File} {res : List ℤ}
    (h : fp.getcs (a + b) sys = .ok res) : fp.getcs a sys = .ok (res.take a) := by
  induction a generalizing sys fp res with
  | zero => rfl
  | succ a ih =>
      rw [Nat.add_right_comm] at h
      obtain ⟨⟨c, sys', fp'⟩, hcall, hrest⟩ := bind_eq_ok.mp h
      obtain ⟨rest, hcalls, hres⟩ := bind_eq_ok.mp hrest
      cases hres
      refine bind_eq_ok.mpr ⟨_, hcall, bind_eq_ok.mpr ⟨_, ih hcalls, ?_⟩⟩
      rfl

theorem firstKept_eq_self_iff {c : List (BitVec 8)} (h : 1 ≤ c.length) :
    (firstKept c).length ≤ c.length ∧ ((firstKept c).length = c.length ↔ c.length = 1) := by
  obtain ⟨x, c, rfl⟩ := List.exists_cons_of_length_pos h
  simp only [firstKept, List.length_cons, List.length_dropLast]
  omega

/-- No byte is lost just when each `read` gives one byte. -/
theorem gotten_length {chunks : List (List (BitVec 8))} (hfits : Fits chunks) :
    (gotten [] chunks).length ≤ chunks.flatten.length ∧
      ((gotten [] chunks).length = chunks.flatten.length ↔ ∀ c ∈ chunks, c.length = 1) := by
  induction chunks with
  | nil => simp [gotten]
  | cons c chunks ih =>
      obtain ⟨hle, hiff⟩ := firstKept_eq_self_iff (hfits c List.mem_cons_self).1
      obtain ⟨hleRest, hiffRest⟩ := ih fun c hc => hfits c (List.mem_cons_of_mem _ hc)
      have hgotten : (gotten [] (c :: chunks)).length =
          (firstKept c).length + (gotten [] chunks).length := by
        simp [gotten]
      rw [hgotten, List.flatten_cons, List.length_append, List.forall_mem_cons, ← hiff, ← hiffRest]
      omega

theorem gotten_of_single {chunks : List (List (BitVec 8))}
    (h : ∀ c ∈ chunks, c.length = 1) : gotten [] chunks = chunks.flatten := by
  induction chunks with
  | nil => rfl
  | cons c chunks ih =>
      obtain ⟨x, rfl⟩ := List.length_eq_one_iff.mp (h c List.mem_cons_self)
      have hrest := ih fun c hc => h c (List.mem_cons_of_mem _ hc)
      simpa [gotten, firstKept] using hrest

theorem reading_stdin : Reading (stream 0) [] where
  flags := by decide
  count := rfl
  place := ⟨0, rfl, by decide, fun j hj => by simp at hj⟩

theorem getsAll_stdin_iff {chunks : List (List (BitVec 8))} (hfits : Fits chunks) :
    GetsAll 0 chunks ↔ ∀ c ∈ chunks, c.length = 1 := by
  have hgives : Gives (start (chunks.map some)) (stream 0) (gotten [] chunks) :=
    reading_stdin.gives rfl hfits
  obtain ⟨hle, hiff⟩ := gotten_length hfits
  constructor
  · intro h
    rw [← hiff]
    by_contra hne
    obtain ⟨d, hd⟩ := Nat.exists_eq_add_of_lt (lt_of_le_of_ne hle hne)
    have hdelivered : (delivered 0 chunks).length + 1 = (gotten [] chunks).length + 1 + (d + 1) :=
      (congrArg (· + 1) hd).trans (by omega)
    rw [GetsAll, hdelivered] at h
    have heq := Except.ok.inj (hgives.symm.trans (getcs_take h))
    -- where the calls give EOF there is a byte to come
    have hplace := congrArg (·[(gotten [] chunks).length]?) heq
    have hbyte : (gotten [] chunks).length < (delivered 0 chunks).length := by
      show _ < chunks.flatten.length
      omega
    simp [List.getElem?_append_left, hbyte, eof] at hplace
  · intro h
    rw [gotten_of_single h] at hgives
    exact hgives

theorem getsAll_write {s : Fin 3} (hs : s ≠ 0) (chunks : List (List (BitVec 8))) :
    GetsAll s chunks := by
  unfold GetsAll delivered
  rw [if_neg hs]
  fin_cases s
  · exact absurd rfl hs
  · rfl
  · rfl

/-! ## Output -/

/-- A stream with these bytes in its output buffer. -/
structure Writing (s : Fin 3) (fp : File) (bytes : List (BitVec 8)) : Prop where
  flags : fp.flags = (stream s).flags
  fd : fp.fd = s
  count : fp.wcount = bytes.length
  ptr : fp.wptr = some bytes.length
  fits : bytes.length ≤ fileBufsiz
  buf : (List.range bytes.length).map fp.wbuf = bytes

theorem writing_stream (s : Fin 3) : Writing s (stream s) [] where
  flags := rfl
  fd := rfl
  count := rfl
  ptr := rfl
  fits := by decide
  buf := rfl

theorem Writing.putc {s : Fin 3} {fp : File} {bytes : List (BitVec 8)} (h : Writing s fp bytes)
    (hroom : bytes.length < fileBufsiz) (sys : Sys) (c : BitVec 32) :
    ∃ fp', fp.putcUnlocked sys c = .ok (sys, fp') ∧ Writing s fp' (bytes ++ [c.setWidth 8]) := by
  have hcount : int32 (fp.wcount + 1) = (bytes ++ [c.setWidth 8]).length := by
    have hsmall : bytes.length < 1024 := hroom
    rw [h.count, List.length_append, List.length_singleton, int32_of_small (by omega) (by omega)]
    rfl
  have hlt : fp.wcount < fileBufsiz := by
    rw [h.count]
    exact_mod_cast hroom
  unfold File.putcUnlocked File.store
  simp only [hlt, if_true, h.ptr, hroom, ok_bind, hcount]
  refine ⟨_, rfl, h.flags, h.fd, rfl, ?_, ?_, ?_⟩
  · simp
  · simp only [List.length_append, List.length_singleton]
    omega
  · have hkept : (List.range bytes.length).map
        (Function.update fp.wbuf bytes.length (c.setWidth 8)) = bytes := by
      refine Eq.trans (List.map_congr_left fun i hi => ?_) h.buf
      exact Function.update_of_ne (List.mem_range.mp hi).ne _ _
    rw [List.length_append, List.length_singleton, List.range_succ, List.map_append, hkept]
    simp

theorem Writing.putcs {s : Fin 3} {fp : File} {bytes : List (BitVec 8)} (h : Writing s fp bytes)
    (cs : List (BitVec 32)) (hroom : bytes.length + cs.length ≤ fileBufsiz) (sys : Sys) :
    ∃ fp', fp.putcs cs sys = .ok (sys, fp') ∧ Writing s fp' (bytes ++ cs.map (·.setWidth 8)) := by
  induction cs generalizing fp bytes with
  | nil => exact ⟨fp, rfl, by simpa using h⟩
  | cons c cs ih =>
      rw [List.length_cons] at hroom
      obtain ⟨fp₁, hcall, hnext⟩ := h.putc (by omega) sys c
      obtain ⟨fp₂, hcalls, hlast⟩ := ih hnext (by
        rw [List.length_append, List.length_singleton]
        omega)
      refine ⟨fp₂, bind_eq_ok.mpr ⟨_, hcall, hcalls⟩, ?_⟩
      rwa [List.append_assoc] at hlast

theorem putcs_append (cs cs' : List (BitVec 32)) {sys sys' : Sys} {fp fp' : File}
    (h : fp.putcs cs sys = .ok (sys', fp')) : fp.putcs (cs ++ cs') sys = fp'.putcs cs' sys' := by
  induction cs generalizing sys fp with
  | nil =>
      cases h
      rfl
  | cons c cs ih =>
      obtain ⟨⟨sys₁, fp₁⟩, hcall, hcalls⟩ := bind_eq_ok.mp h
      rw [List.cons_append, File.putcs, hcall]
      exact ih hcalls

theorem stream_flags_ne_zero (s : Fin 3) : (stream s).flags ≠ 0 := by
  fin_cases s <;> decide

theorem Writing.fini {s : Fin 3} {fp : File} {bytes : List (BitVec 8)} (h : Writing s fp bytes) :
    ∃ sys, fp.fini (start []) = .ok sys ∧
      sys.written = Function.update (fun _ => []) (s : ℕ) bytes := by
  have hflags : fp.flags ≠ 0 := by
    rw [h.flags]
    exact stream_flags_ne_zero s
  unfold File.fini
  cases bytes with
  | nil =>
      have hptr : fp.wptr = some 0 := h.ptr
      rw [if_neg (by simp [hptr])]
      exact ⟨_, rfl, by simp [start]⟩
  | cons x bytes =>
      have hptr : fp.wptr ≠ some 0 := by simp [h.ptr]
      have hcount : 0 ≤ fp.wcount ∧ fp.wcount ≤ fileBufsiz := by
        rw [h.count]
        exact ⟨Int.natCast_nonneg _, by exact_mod_cast h.fits⟩
      have htaken : (List.range fp.wcount.toNat).map fp.wbuf = x :: bytes := by
        rw [h.count, Int.toNat_natCast]
        exact h.buf
      unfold write
      rw [if_pos ⟨hflags, hptr⟩, if_pos hcount, htaken, h.fd]
      exact ⟨_, rfl, rfl⟩

/-! ## A full buffer -/

/-- The 1025th byte: the count is one more than the buffer has. -/
theorem Writing.overflow {s : Fin 3} {fp : File} {bytes : List (BitVec 8)}
    (h : Writing s fp bytes) (hfull : bytes.length = fileBufsiz) (hs : s ≠ 0) (sys : Sys)
    (c : BitVec 32) : fp.putcUnlocked sys c = .error .outOfBounds := by
  have hcount : fp.wcount = 1024 := by
    rw [h.count, hfull]
    rfl
  have hflags : fp.flags &&& flagWrite ≠ 0 := by
    rw [h.flags]
    fin_cases s
    · exact absurd rfl hs
    · decide
    · decide
  unfold File.putcUnlocked File.flushbuf write
  simp only [hcount]
  rw [if_neg (by decide), if_neg hflags, if_neg (by decide)]
  rfl

/-- `stdin` after more bytes than its output buffer has. -/
structure Stuck (fp : File) : Prop where
  flags : fp.flags = flagRead ∨ fp.flags = flagRead ||| flagErr
  ptr : fp.wptr = some fileBufsiz
  count : fp.wcount < 0 ∨ fileBufsiz < fp.wcount
  small : fp.wcount < 2 ^ 31

theorem Stuck.fini {fp : File} (h : Stuck fp) (sys : Sys) :
    fp.fini sys = .error .outOfBounds := by
  have hflags : fp.flags ≠ 0 := by
    rcases h.flags with hf | hf <;> rw [hf] <;> decide
  have hptr : fp.wptr ≠ some 0 := by
    rw [h.ptr]
    decide
  have hcount := h.count
  unfold File.fini write
  rw [if_pos ⟨hflags, hptr⟩, if_neg (by omega)]
  rfl

theorem int32_succ {x : ℤ} (h : 1024 ≤ x) (hsmall : x < 2 ^ 31) :
    (int32 (x + 1) < 0 ∨ 1024 < int32 (x + 1)) ∧ int32 (x + 1) < 2 ^ 31 := by
  by_cases hlast : x + 1 < 2 ^ 31
  · rw [int32_of_small (by omega) hlast]
    omega
  · have hx : x + 1 = 2 ^ 31 := by omega
    rw [hx]
    decide

/-- Where `stdin` has a full output buffer, a byte more is dropped, and the count goes on. -/
theorem stuck_putc {fp : File}
    (hflags : fp.flags = flagRead ∨ fp.flags = flagRead ||| flagErr)
    (hptr : fp.wptr = some fileBufsiz) (hsmall : fp.wcount < 2 ^ 31) (sys : Sys)
    (c : BitVec 32) :
    fp.putcUnlocked sys c = .error .outOfBounds ∨
      ∃ sys' fp', fp.putcUnlocked sys c = .ok (sys', fp') ∧ Stuck fp' := by
  unfold File.putcUnlocked
  by_cases hlt : fp.wcount < fileBufsiz
  · left
    rw [if_pos hlt]
    unfold File.store
    simp [hptr]
  · right
    have hread : fp.flags &&& flagWrite = 0 := by
      rcases hflags with hf | hf <;> rw [hf] <;> decide
    obtain ⟨hcount', hsmall'⟩ := int32_succ (Int.not_lt.mp hlt) hsmall
    rw [if_neg hlt]
    unfold File.flushbuf
    rw [if_pos hread]
    have herr : fp.flags ||| flagErr = flagRead ||| flagErr := by
      rcases hflags with hf | hf
      · rw [hf]
      · rw [hf]
        decide
    exact ⟨_, _, rfl, Or.inr herr, hptr, hcount', hsmall'⟩

theorem Stuck.putcs {fp : File} (h : Stuck fp) (cs : List (BitVec 32)) (sys : Sys) :
    fp.putcs cs sys = .error .outOfBounds ∨
      ∃ sys' fp', fp.putcs cs sys = .ok (sys', fp') ∧ Stuck fp' := by
  induction cs generalizing fp sys with
  | nil => exact Or.inr ⟨sys, fp, rfl, h⟩
  | cons c cs ih =>
      rw [File.putcs]
      rcases stuck_putc h.flags h.ptr h.small sys c with herr | ⟨sys₁, fp₁, hok, hstuck⟩
      · exact Or.inl (by rw [herr]; rfl)
      · rw [hok]
        exact ih hstuck sys₁

/-! ## The table -/

/-- A stream for which `__libc_stdio_fini` has nothing to do. -/
def Idle (fp : File) : Prop := fp.flags = 0 ∨ fp.wptr = some 0

theorem Idle.fini {fp : File} (h : Idle fp) (sys : Sys) : fp.fini sys = .ok sys := by
  unfold File.fini
  rw [if_neg (by rcases h with h | h <;> simp [h])]

theorem foldlM_idle {table : List File} (h : ∀ fp ∈ table, Idle fp) (sys : Sys) :
    libcStdioFini table sys = .ok sys := by
  induction table with
  | nil => rfl
  | cons fp table ih =>
      have hrest : libcStdioFini table sys = .ok sys :=
        ih fun fp hfp => h fp (List.mem_cons_of_mem _ hfp)
      unfold libcStdioFini at hrest ⊢
      rw [List.foldlM_cons, (h fp List.mem_cons_self).fini, ok_bind, hrest]

theorem idle_libcStdioInit : ∀ fp ∈ libcStdioInit fileTable, Idle fp := by
  intro fp hfp
  simp [libcStdioInit, fileTable, fopenMax] at hfp
  rcases hfp with rfl | rfl | rfl | rfl
  · exact Or.inr rfl
  · exact Or.inr rfl
  · exact Or.inr rfl
  · exact Or.inl rfl

/-- Only the stream that was used is written at the end. -/
theorem libcStdioFini_set (s : Fin 3) (fp : File) (sys : Sys) :
    libcStdioFini ((libcStdioInit fileTable).set s fp) sys = fp.fini sys := by
  have hlt : (s : ℕ) < (libcStdioInit fileTable).length := s.isLt.trans (by decide)
  have hbefore : libcStdioFini ((libcStdioInit fileTable).take s) sys = .ok sys :=
    foldlM_idle (fun fp hfp => idle_libcStdioInit fp (List.mem_of_mem_take hfp)) sys
  have hafter (sys : Sys) :
      libcStdioFini ((libcStdioInit fileTable).drop (s + 1)) sys = .ok sys :=
    foldlM_idle (fun fp hfp => idle_libcStdioInit fp (List.mem_of_mem_drop hfp)) sys
  rw [List.set_eq_take_append_cons_drop, if_pos hlt]
  unfold libcStdioFini at *
  rw [List.foldlM_append, hbefore, ok_bind, List.foldlM_cons]
  cases hfini : fp.fini sys with
  | error e => rfl
  | ok sys' => rw [ok_bind, hafter]

/-- More bytes than the buffer has do not come out. -/
theorem putAll_long (s : Fin 3) {cs : List (BitVec 32)} (h : fileBufsiz < cs.length) :
    putAll s cs = .error .outOfBounds := by
  have htake : (cs.take fileBufsiz).length = fileBufsiz := by
    rw [List.length_take]
    omega
  obtain ⟨c, rest, hdrop⟩ : ∃ c rest, cs.drop fileBufsiz = c :: rest :=
    List.exists_cons_of_length_pos (by rw [List.length_drop]; omega)
  obtain ⟨fp, hcalls, hfull⟩ :=
    (writing_stream s).putcs (cs.take fileBufsiz) (by rw [htake]; decide) (start [])
  have hbytes : ([] ++ (cs.take fileBufsiz).map (·.setWidth 8 : BitVec 32 → BitVec 8)).length =
      fileBufsiz := by
    rw [List.nil_append, List.length_map, htake]
  have hsplit : (stream s).putcs cs (start []) = fp.putcs (c :: rest) (start []) := by
    rw [← hdrop, ← putcs_append _ _ hcalls, List.take_append_drop]
  unfold putAll
  simp only [libcStdioFini_set]
  rw [hsplit, File.putcs]
  by_cases hs : s = 0
  · subst hs
    have hsmall : fp.wcount < 2 ^ 31 := by
      rw [hfull.count, hbytes]
      decide
    have hptr : fp.wptr = some fileBufsiz := by rw [hfull.ptr, hbytes]
    rcases stuck_putc (Or.inl hfull.flags) hptr hsmall (start []) c with
      herr | ⟨sys₁, fp₁, hok, hstuck⟩
    · rw [herr]
      rfl
    · rw [hok]
      rcases hstuck.putcs rest sys₁ with herr | ⟨sys₂, fp₂, hrest, hlast⟩
      · simp only [ok_bind, herr, error_bind]
      · simp only [ok_bind, hrest, hlast.fini]
  · rw [hfull.overflow hbytes hs]
    rfl

theorem putsAll_iff (s : Fin 3) (cs : List (BitVec 32)) :
    PutsAll s cs ↔ cs.length ≤ fileBufsiz := by
  constructor
  · rintro ⟨sys, hput, -⟩
    by_contra hlong
    rw [putAll_long s (Nat.lt_of_not_le hlong)] at hput
    cases hput
  · intro h
    obtain ⟨fp, hcalls, hlast⟩ := (writing_stream s).putcs cs (by simpa using h) (start [])
    obtain ⟨sys, hfini, hwritten⟩ := hlast.fini
    exact ⟨sys, bind_eq_ok.mpr ⟨_, hcalls, (libcStdioFini_set s fp _).trans hfini⟩,
      by simpa using hwritten⟩

/-- The bytes of a stream come out as they went in just when each `read` of `stdin` gives one
byte, and the output fits in the buffer. -/
theorem getsAll_and_putsAll_iff (s : Fin 3) (chunks : List (List (BitVec 8)))
    (hfits : Fits chunks) (cs : List (BitVec 32)) :
    (GetsAll s chunks ↔ (s = 0 → ∀ c ∈ chunks, c.length = 1)) ∧
      (PutsAll s cs ↔ cs.length ≤ fileBufsiz) := by
  refine ⟨?_, putsAll_iff s cs⟩
  by_cases hs : s = 0
  · subst hs
    rw [getsAll_stdin_iff hfits]
    exact ⟨fun h _ => h, fun h => h rfl⟩
  · exact iff_of_true (getsAll_write hs chunks) fun h => absurd h hs

theorem getsAll_and_putsAll_iff_single :
    (GetsAll 0 [[0x68#8], [0x69#8]] ↔
        ((0 : Fin 3) = 0 → ∀ c ∈ ([[0x68#8], [0x69#8]] : List (List (BitVec 8))), c.length = 1)) ∧
      (PutsAll 0 [0x68#32] ↔ [0x68#32].length ≤ fileBufsiz) :=
  getsAll_and_putsAll_iff 0 [[0x68#8], [0x69#8]] (by decide) [0x68#32]

/-- Two bytes from one `read`, of which the second is lost, and an output of 1025 bytes. -/
theorem not_getsAll_pair :
    ¬ GetsAll 0 [[0x68#8, 0x69#8]] ∧ ¬ PutsAll 1 (List.replicate 1025 0x68#32) := by
  constructor
  · rw [getsAll_stdin_iff (by decide)]
    decide
  · rw [putsAll_iff, List.length_replicate]
    decide

end Yak.Stdio
