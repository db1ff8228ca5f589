import Yak.BlockLookup
import Yak.BoundedLoop
import Yak.FileCreation

/-!
# Reading a file

A transcription of `file_read`.  A position is an `off_t` of 32 bits with a sign, and sums wrap
around.  The drive is given by the blocks which `bread` can read.
-/

namespace Yak.Ext2

open ByteBitmap WordMemory IndexTree BoundedLoop

def efbig : ℤ := 21
def eoverflow : ℤ := 64

/-- A value of type `off_t` or `ssize_t`. -/
def int32 (x : ℤ) : ℤ := x.bmod (2 ^ 32)

theorem int32_natCast {x : ℕ} (h : x < 2 ^ 31) : int32 x = x :=
  Int.bmod_eq_of_le (by omega) (by omega)

theorem int32_high {x : ℕ} (h : 2 ^ 31 ≤ x) (hlt : x < 2 ^ 32) : int32 x = x - 2 ^ 32 := by
  unfold int32
  rw [← Int.sub_bmod_right]
  exact Int.bmod_eq_of_le (by omega) (by omega)

theorem int32_lt (x : ℤ) : int32 x < 2 ^ 31 := by
  have hlt := Int.bmod_lt (x := x) (m := 2 ^ 32) (by decide)
  unfold int32
  omega

/-- The sum behind the largest value is not above it. -/
theorem int32_succ_ne {n k : ℕ} (h : n < 2 ^ 31) (hk : k ≤ n) : int32 (n - -1) ≠ k := by
  have hcast : (n : ℤ) - -1 = (n + 1 : ℕ) := by omega
  rw [hcast]
  rcases Nat.lt_or_ge (n + 1) (2 ^ 31) with hlt | hge
  · rw [int32_natCast hlt]
    omega
  · rw [int32_high hge (by omega)]
    omega

/-- The local variables of `file_read`. -/
structure Reading where
  c : ℤ
  pos : ℤ
  /-- The bytes in the buffer of the user, from its start up to `p`. -/
  stored : List (BitVec 8)
  /-- `bp` has been assigned. -/
  assigned : Bool

/-- The result of `file_read`, the position, the bytes in the buffer of the user and the inode. -/
structure ReadResult where
  ret : ℤ
  pos : ℤ
  stored : List (BitVec 8)
  ip : InodeM

namespace Fs

/-- `EXT2_BLOCKSIZE` as an `int`. -/
def blockSize (fs : Fs) : ℤ := int32 fs.sb.blocksize

/-- `bmap_create` at a position, which may be negative.  The logical block is what it is for the
first byte of the block. -/
def blockAtPos (fs : Fs) (ip : InodeM) (pos : ℤ) (create : Bool) :
    Except Halt (ℕ × Fs × InodeM) :=
  if fs.blockSize = 0 then .error .divideByZero
  else
    let lblk := (pos.tdiv fs.blockSize % 2 ^ 32).toNat
    fs.bmapCreate ip (lblk * fs.sb.blocksize) create

/-- `nr`, the number of bytes up to the end of the block or of the transfer. -/
def chunk (fs : Fs) (pos c : ℤ) : ℤ :=
  let rest := int32 (fs.blockSize - pos.tmod fs.blockSize)
  if rest < c then rest else c

/-- Bytes of a block. -/
def blockBytes (fs : Fs) (block off n : ℕ) : List (BitVec 8) :=
  (List.range n).map fun i => fs.blocks block (off + i)

/-- A turn of the loop of `file_read`.  The loop ends with `true` if a block cannot be read. -/
def readTurn (fs : Fs) (ip : InodeM) (readable : ℕ → Bool) (s : Reading) :
    Except Halt ((Reading × Bool) ⊕ Reading) :=
  if s.c ≤ 0 then .ok (.inl (s, false))
  else do
    let (block, _) ← fs.blockAtPos ip s.pos false
    if block = 0 then
      -- the loop over `c--` leaves `c` at -1 and the position where it is
      .ok (.inr { s with c := -1, stored := s.stored ++ List.replicate s.c.toNat 0#8 })
    else if readable block = false then .ok (.inl ({ s with assigned := true }, true))
    else
      let off := s.pos.tmod fs.blockSize
      let nr := fs.chunk s.pos s.c
      if off < 0 ∨ nr < 0 then .error .outOfBounds
      else
        .ok (.inr {
          c := s.c - nr
          pos := int32 (s.pos + nr)
          stored := s.stored ++ fs.blockBytes block off.toNat nr.toNat
          assigned := true })

/-- `file_read`.  Behind the loop `bp` is compared with `NULL`, and without an assignment it
points anywhere. -/
def fileRead (fs : Fs) (ip : InodeM) (readable : ℕ → Bool) (count : ℕ) (pos : ℤ) :
    Except Halt ReadResult :=
  let c := int32 count
  if c < 0 then .ok ⟨-eoverflow, pos, [], ip⟩
  else if pos < 0 then .ok ⟨-efbig, pos, [], ip⟩
  else do
    let (s, failed) ← run .endless (fs.readTurn ip readable) (c.toNat + 2) ⟨c, pos, [], false⟩
    if s.assigned = false then .error .outOfBounds
    else
      .ok {
        ret := if failed then -eio else int32 (count - s.c)
        pos := s.pos
        stored := s.stored
        ip := { ip with modified := true } }

/-! ## The bytes of a file -/

/-- The block with a logical block of the file, by the format, or 0. -/
def blockOf (fs : Fs) (ip : InodeM) (lblk : ℕ) : ℕ :=
  let n := fs.indirBlocks
  if lblk < 12 then ip.iBlock lblk
  else if lblk < 12 + n then walk fs.pointer (ip.iBlock 12) [lblk - 12]
  else if lblk < 12 + n + n ^ 2 then
    let l := lblk - (12 + n)
    walk fs.pointer (ip.iBlock 13) [l / n, l % n]
  else
    let l := lblk - (12 + n + n ^ 2)
    walk fs.pointer (ip.iBlock 14) [l / n ^ 2, l / n % n, l % n]

/-- A byte of the file.  Where there is no block it is zero. -/
def byteAt (fs : Fs) (ip : InodeM) (x : ℕ) : BitVec 8 :=
  let block := fs.blockOf ip (x / fs.sb.blocksize)
  if block = 0 then 0#8 else fs.blocks block (x % fs.sb.blocksize)

/-- Bytes of the file from a position on. -/
def content (fs : Fs) (ip : InodeM) (pos n : ℕ) : List (BitVec 8) :=
  (List.range n).map fun i => fs.byteAt ip (pos + i)

/-- The result is the number of bytes up to the end of the file, these bytes are
stored and the position is advanced by their number. -/
def ReadReports (fs : Fs) (ip : InodeM) (count pos : ℕ) (r : ReadResult) : Prop :=
  let n := min count (ip.iSize - pos)
  r.ret = n ∧ r.stored = fs.content ip pos n ∧ r.pos = pos + n

/-- `ext2_bmap` comes to a block at the position. -/
def HasBlock (fs : Fs) (ip : InodeM) (x : ℕ) : Prop :=
  fs.Mapped x ∧ fs.blockOf ip (x / fs.sb.blocksize) ≠ 0

/-! ## The block at a position -/

variable {fs : Fs} {ip : InodeM} {readable : ℕ → Bool} {p n i block : ℕ}

theorem blockSize_eq (hlog : fs.sb.sLogBlockSize < 21) : fs.blockSize = fs.sb.blocksize :=
  int32_natCast (Superblock.blocksize_lt_int hlog)

theorem blockAtPos_natCast {create : Bool} (hlog : fs.sb.sLogBlockSize < 21) (hp : p < offLimit) :
    fs.blockAtPos ip p create = fs.bmapCreate ip p create := by
  have hpos := Superblock.blocksize_pos (Nat.lt_succ_of_lt hlog)
  have hlblk : ((p : ℤ).tdiv fs.sb.blocksize % 2 ^ 32).toNat = p / fs.sb.blocksize := by
    have hle := Nat.div_le_self p fs.sb.blocksize
    have hquot : (p : ℤ).tdiv fs.sb.blocksize = (p / fs.sb.blocksize : ℕ) := by
      rw [Int.tdiv_eq_ediv_of_nonneg (Int.natCast_nonneg p), Int.natCast_ediv]
    unfold offLimit at hp
    rw [hquot]
    generalize p / fs.sb.blocksize = q at hle
    omega
  unfold blockAtPos
  rw [blockSize_eq hlog, if_neg (by omega), hlblk]
  unfold bmapCreate
  dsimp only
  rw [Nat.mul_div_cancel _ hpos]

theorem tmod_natCast (hlog : fs.sb.sLogBlockSize < 21) :
    (p : ℤ).tmod fs.blockSize = (p % fs.sb.blocksize : ℕ) := by
  rw [blockSize_eq hlog, Int.tmod_eq_emod_of_nonneg (Int.natCast_nonneg p), Int.natCast_emod]

theorem chunk_natCast (hlog : fs.sb.sLogBlockSize < 21) :
    fs.chunk p n = (min (fs.sb.blocksize - p % fs.sb.blocksize) n : ℕ) := by
  have hlt := Nat.mod_lt p (Superblock.blocksize_pos (Nat.lt_succ_of_lt hlog))
  have hint := Superblock.blocksize_lt_int hlog
  have hrest : int32 (fs.sb.blocksize - (p % fs.sb.blocksize : ℕ)) =
      (fs.sb.blocksize - p % fs.sb.blocksize : ℕ) := by
    rw [← Nat.cast_sub hlt.le, int32_natCast (by omega)]
  unfold chunk
  rw [tmod_natCast hlog, blockSize_eq hlog, hrest]
  dsimp only
  split <;> omega

/-- Behind the indirect range there are addresses for fewer blocks than 32 bits can count. -/
theorem dindirBlocks_eq_sq (hlog : fs.sb.sLogBlockSize < 21) (hp : p < offLimit)
    (hle : fs.indirBlocks ≤ p / fs.sb.blocksize) : fs.dindirBlocks = fs.indirBlocks ^ 2 := by
  have hsize := Superblock.blocksize_eq (Nat.lt_succ_of_lt hlog)
  have hfour : fs.sb.blocksize = 4 * fs.indirBlocks := by
    unfold indirBlocks
    omega
  have hmul : fs.indirBlocks * fs.sb.blocksize ≤ p :=
    (Nat.le_div_iff_mul_le (Superblock.blocksize_pos (Nat.lt_succ_of_lt hlog))).mp hle
  have hsq : fs.indirBlocks * fs.indirBlocks < 2 ^ 32 := by
    rw [hfour] at hmul
    unfold offLimit at hp
    nlinarith only [hmul, hp]
  rw [dindirBlocks, Nat.mod_eq_of_lt hsq, sq]

/-- The way down is the one of the format. -/
theorem walk_slotPath (hlog : fs.sb.sLogBlockSize < 21) (hp : p < offLimit) (h : fs.Mapped p) :
    walk fs.pointer (ip.iBlock (fs.slotPath p).1) (fs.slotPath p).2 =
      fs.blockOf ip (p / fs.sb.blocksize) := by
  unfold Mapped at h
  unfold slotPath blockOf
  dsimp only at h ⊢
  by_cases hdirect : p / fs.sb.blocksize ≤ 11
  · rw [if_pos hdirect, if_pos (by omega)]
    rfl
  · have hge : fs.indirBlocks + 12 ≤ p / fs.sb.blocksize := (h.resolve_left hdirect).1
    have hsq := dindirBlocks_eq_sq hlog hp (by omega)
    rw [if_neg hdirect, hsq]
    rw [hsq] at h
    by_cases hdindir : p / fs.sb.blocksize < fs.indirBlocks ^ 2 + fs.indirBlocks + 12
    · rw [if_pos hdindir, if_neg (by omega), if_neg (by omega), if_pos (by omega)]
      rfl
    · have hlt : p / fs.sb.blocksize - (12 + fs.indirBlocks + fs.indirBlocks ^ 2) <
          fs.indirBlocks * fs.indirBlocks := by
        rw [← sq]
        omega
      rw [if_neg hdindir, if_neg (by omega), if_neg (by omega), if_neg (by omega),
        Nat.mod_eq_of_lt (Nat.div_lt_of_lt_mul hlt)]
      rfl

theorem HasBlock.bmap (hlog : fs.sb.sLogBlockSize < 21) (hp : p < offLimit)
    (h : fs.HasBlock ip p) :
    fs.blockAtPos ip p false = .ok (fs.blockOf ip (p / fs.sb.blocksize), fs, ip) := by
  have hbmap : fs.bmap ip p = _ := bmap_of_mapped h.1
  rw [walk_slotPath hlog hp h.1] at hbmap
  exact (blockAtPos_natCast hlog hp).trans hbmap

/-- `ext2_bmap` comes to the block of the format or to none. -/
theorem hasBlock_of_bmap {r : Fs × InodeM} (hlog : fs.sb.sLogBlockSize < 21) (hp : p < offLimit)
    (h : fs.blockAtPos ip p false = .ok (block, r)) (hne : block ≠ 0) : fs.HasBlock ip p := by
  rw [blockAtPos_natCast hlog hp] at h
  have hnot : ¬fs.Indirect p := by
    intro hindir
    have hzero : fs.bmap ip p = _ := bmap_of_indirect hindir
    exact hne (Prod.mk.inj (Except.ok.inj (hzero.symm.trans h))).1.symm
  obtain ⟨fs', ip'⟩ := r
  have hmapped : fs.Mapped p := mapped_of_bmapCreate h hne hnot
  have hwalk : fs.bmap ip p = _ := bmap_of_mapped hmapped
  rw [walk_slotPath hlog hp hmapped] at hwalk
  exact ⟨hmapped, (Prod.mk.inj (Except.ok.inj (hwalk.symm.trans h))).1 ▸ hne⟩

/-! ## Bytes of one block -/

theorem add_div_blocksize (h : p % fs.sb.blocksize + i < fs.sb.blocksize) :
    (p + i) / fs.sb.blocksize = p / fs.sb.blocksize := by
  have hsplit := Nat.div_add_mod p fs.sb.blocksize
  rw [← hsplit, Nat.add_assoc, Nat.mul_add_div (by omega), Nat.div_eq_of_lt h, Nat.add_zero,
    hsplit]

theorem add_mod_blocksize (h : p % fs.sb.blocksize + i < fs.sb.blocksize) :
    (p + i) % fs.sb.blocksize = p % fs.sb.blocksize + i := by
  rw [← Nat.mod_add_mod, Nat.mod_eq_of_lt h]

theorem HasBlock.add (h : fs.HasBlock ip p) (hi : p % fs.sb.blocksize + i < fs.sb.blocksize) :
    fs.HasBlock ip (p + i) := by
  unfold HasBlock Mapped at h ⊢
  rw [add_div_blocksize hi]
  exact h

theorem HasBlock.blockBytes (h : fs.HasBlock ip p)
    (hn : p % fs.sb.blocksize + n ≤ fs.sb.blocksize) :
    fs.blockBytes (fs.blockOf ip (p / fs.sb.blocksize)) (p % fs.sb.blocksize) n =
      fs.content ip p n := by
  apply List.map_congr_left
  intro i hi
  have hin : p % fs.sb.blocksize + i < fs.sb.blocksize := by
    have hlt := List.mem_range.mp hi
    omega
  unfold byteAt
  rw [add_div_blocksize hin, add_mod_blocksize hin]
  exact (if_neg h.2).symm

theorem content_add (p m n : ℕ) :
    fs.content ip p (m + n) = fs.content ip p m ++ fs.content ip (p + m) n := by
  unfold content
  rw [List.range_add, List.map_append, List.map_map]
  congr 1
  apply List.map_congr_left
  intro i _
  rw [Function.comp_apply, Nat.add_assoc]

/-! ## The loop over blocks which are there -/

variable {s s' : Reading} {failed : Bool} {turns : ℕ}

theorem readTurn_done (h : s.c ≤ 0) : fs.readTurn ip readable s = .ok (.inl (s, false)) := if_pos h

theorem readTurn_copies (out : List (BitVec 8)) (a : Bool) {m : ℕ}
    (hlog : fs.sb.sLogBlockSize < 21) (hp : p < offLimit) (hn : 0 < n) (h : fs.HasBlock ip p) (hr : readable (fs.blockOf ip (p / fs.sb.blocksize)) = true)
    (hm : m = min (fs.sb.blocksize - p % fs.sb.blocksize) n) :
    fs.readTurn ip readable ⟨n, p, out, a⟩ =
      .ok (.inr ⟨(n - m : ℕ), int32 (p + m : ℕ), out ++ fs.content ip p m, true⟩) := by
  have hlt := Nat.mod_lt p (Superblock.blocksize_pos (Nat.lt_succ_of_lt hlog))
  have hbytes := h.blockBytes (n := m) (by omega)
  have hc : ¬(n : ℤ) ≤ 0 := by omega
  unfold readTurn
  dsimp only
  rw [if_neg hc, h.bmap hlog hp, ok_bind]
  dsimp only
  rw [if_neg h.2, hr, if_neg (by decide), chunk_natCast hlog, ← hm,
    tmod_natCast hlog, if_neg (by omega), Int.toNat_natCast, Int.toNat_natCast, hbytes,
    Nat.cast_sub (by omega), Nat.cast_add]

theorem readTurn_fails (out : List (BitVec 8)) (a : Bool) (hlog : fs.sb.sLogBlockSize < 21)
    (hp : p < offLimit) (hn : 0 < n) (h : fs.HasBlock ip p) (hr : readable (fs.blockOf ip (p / fs.sb.blocksize)) = false) :
    fs.readTurn ip readable ⟨n, p, out, a⟩ = .ok (.inl (⟨n, p, out, true⟩, true)) := by
  have hc : ¬(n : ℤ) ≤ 0 := by omega
  unfold readTurn
  dsimp only
  rw [if_neg hc, h.bmap hlog hp, ok_bind]
  dsimp only
  rw [if_neg h.2, if_pos hr]

/-- Where every block is there, the loop comes to its end or to a block which cannot be read. -/
theorem run_readTurn (out : List (BitVec 8)) (a : Bool) (hlog : fs.sb.sLogBlockSize < 21)
    (hend : p + n < offLimit)
    (hturns : n < turns) (hblocks : ∀ x, p ≤ x → x < p + n → fs.HasBlock ip x) :
    ∃ s' failed, run .endless (fs.readTurn ip readable) turns ⟨n, p, out, a⟩ = .ok (s', failed) ∧
      (a = true ∨ 0 < n → s'.assigned = true) ∧
      (failed = false → s'.c = 0 ∧ s'.pos = (p + n : ℕ) ∧
        s'.stored = out ++ fs.content ip p n) := by
  induction turns generalizing n p out a with
  | zero => exact absurd hturns (Nat.not_lt_zero n)
  | succ turns ih =>
      rcases Nat.eq_zero_or_pos n with rfl | hn
      · refine ⟨⟨(0 : ℕ), p, out, a⟩, false, ?_, ?_, ?_⟩
        · rw [run, readTurn_done (by simp)]
          rfl
        · intro h
          exact h.resolve_right (Nat.lt_irrefl 0)
        · intro _
          exact ⟨rfl, rfl, (List.append_nil out).symm⟩
      · have hp : p < offLimit := by omega
        have hblock := hblocks p (Nat.le_refl p) (by omega)
        cases hr : readable (fs.blockOf ip (p / fs.sb.blocksize)) with
        | false =>
            refine ⟨⟨n, p, out, true⟩, true, ?_, fun _ => rfl, fun h => by cases h⟩
            rw [run, readTurn_fails out a hlog hp hn hblock hr]
            rfl
        | true =>
            obtain ⟨m, hm⟩ : ∃ m, m = min (fs.sb.blocksize - p % fs.sb.blocksize) n := ⟨_, rfl⟩
            have hlt := Nat.mod_lt p (Superblock.blocksize_pos (Nat.lt_succ_of_lt hlog))
            have hnext := readTurn_copies out a hlog hp hn hblock hr hm
            have hpos : int32 (p + m : ℕ) = (p + m : ℕ) := by
              unfold offLimit at hend
              exact int32_natCast (by omega)
            rw [hpos] at hnext
            have hsum : p + m + (n - m) = p + n := by omega
            obtain ⟨s', failed, hrun, hassigned, hdone⟩ := ih (n := n - m) (p := p + m)
              (out ++ fs.content ip p m) true (by omega) (by omega)
              fun x hx hlt => hblocks x (by omega) (by omega)
            refine ⟨s', failed, ?_, fun _ => hassigned (Or.inl rfl), ?_⟩
            · rw [run_next hnext]
              exact hrun
            · intro hfailed
              obtain ⟨hc, hposition, hstored⟩ := hdone hfailed
              refine ⟨hc, by rw [hposition, hsum], ?_⟩
              have hsplit : n = m + (n - m) := by omega
              rw [hstored, List.append_assoc, ← content_add, ← hsplit]

/-! ## What the end of the loop tells -/

theorem chunk_le (fs : Fs) (pos c : ℤ) : fs.chunk pos c ≤ c := by
  unfold chunk
  dsimp only
  split <;> omega

/-- A turn fills a hole, stops at a block which cannot be read, or copies bytes of a block. -/
theorem of_readTurn {y : (Reading × Bool) ⊕ Reading} (hc : 0 < s.c)
    (h : fs.readTurn ip readable s = .ok y) :
    ∃ block r, fs.blockAtPos ip s.pos false = .ok (block, r) ∧
      (block = 0 ∧ y = .inr { s with
          c := -1, stored := s.stored ++ List.replicate s.c.toNat 0#8 } ∨
        block ≠ 0 ∧ (y = .inl ({ s with assigned := true }, true) ∨
          ∃ out', y = .inr ⟨s.c - fs.chunk s.pos s.c, int32 (s.pos + fs.chunk s.pos s.c), out',
            true⟩)) := by
  unfold readTurn at h
  rw [if_neg (Int.not_le.mpr hc)] at h
  obtain ⟨⟨block, r⟩, hblock, hrest⟩ := bind_eq_ok.mp h
  refine ⟨block, r, hblock, ?_⟩
  dsimp only at hrest
  split at hrest
  next hzero => exact Or.inl ⟨hzero, (Except.ok.inj hrest).symm⟩
  next hne =>
    refine Or.inr ⟨hne, ?_⟩
    split at hrest
    next => exact Or.inl (Except.ok.inj hrest).symm
    next =>
      split at hrest
      next => cases hrest
      next => exact Or.inr ⟨_, (Except.ok.inj hrest).symm⟩

/-- The count ends at 0 or, behind a hole, at -1, and the position is an `off_t`. -/
theorem run_readTurn_bounds (hc : -1 ≤ s.c) (hpos : s.pos < 2 ^ 31)
    (h : run .endless (fs.readTurn ip readable) turns s = .ok (s', failed)) :
    s'.pos < 2 ^ 31 ∧ (failed = false → s'.c = 0 ∨ s'.c = -1) := by
  refine run_invariant (fun s : Reading => -1 ≤ s.c ∧ s.pos < 2 ^ 31)
    (fun r : Reading × Bool => r.1.pos < 2 ^ 31 ∧ (r.2 = false → r.1.c = 0 ∨ r.1.c = -1))
    ?_ ⟨hc, hpos⟩ h
  rintro s y ⟨hc, hpos⟩ hturn
  rcases le_or_gt s.c 0 with hle | hlt
  · rw [readTurn_done hle] at hturn
    obtain rfl := Except.ok.inj hturn
    exact ⟨hpos, fun _ => by dsimp only; omega⟩
  · obtain ⟨_, _, -, hhole | ⟨-, hfail | ⟨out', hcopy⟩⟩⟩ := of_readTurn hlt hturn
    · rw [hhole.2]
      exact ⟨Int.le_refl (-1), hpos⟩
    · rw [hfail]
      exact ⟨hpos, fun h => by cases h⟩
    · rw [hcopy]
      have hle := chunk_le fs s.pos s.c
      exact ⟨by dsimp only; omega, int32_lt _⟩

/-- If the count ends at 0 then every block was there. -/
theorem hasBlock_of_run {out : List (BitVec 8)} {a : Bool} (hlog : fs.sb.sLogBlockSize < 21)
    (hend : p + n < offLimit)
    (h : run .endless (fs.readTurn ip readable) turns ⟨n, p, out, a⟩ = .ok (s', false))
    (hzero : s'.c = 0) : ∀ x, p ≤ x → x < p + n → fs.HasBlock ip x := by
  induction turns generalizing n p out a with
  | zero => cases h
  | succ turns ih =>
      intro x hx hlt
      have hn : 0 < n := by omega
      have hp : p < offLimit := by omega
      rw [run] at h
      obtain ⟨y, hturn, hrest⟩ := bind_eq_ok.mp h
      have hc : 0 < (⟨n, p, out, a⟩ : Reading).c := Int.natCast_pos.mpr hn
      obtain ⟨block, r, hblock, ⟨-, rfl⟩ | ⟨hne, rfl | ⟨out', rfl⟩⟩⟩ := of_readTurn hc hturn
      · have hdone : (⟨-1, p, out ++ List.replicate n 0#8, a⟩ : Reading) = s' := by
          cases turns with
          | zero => cases hrest
          | succ turns =>
              rw [Sum.elim_inr, run, readTurn_done (by simp)] at hrest
              exact (Prod.mk.inj (Except.ok.inj hrest)).1
        rw [← hdone] at hzero
        cases hzero
      · cases hrest
      · have hhas := hasBlock_of_bmap hlog hp hblock hne
        obtain ⟨m, hm⟩ : ∃ m, m = min (fs.sb.blocksize - p % fs.sb.blocksize) n := ⟨_, rfl⟩
        have hmod := Nat.mod_lt p (Superblock.blocksize_pos (Nat.lt_succ_of_lt hlog))
        by_cases hin : x < p + m
        · have hfirst := hhas.add (i := x - p) (by omega)
          rw [Nat.add_sub_cancel' hx] at hfirst
          exact hfirst
        · unfold offLimit at hend
          rw [Sum.elim_inr, chunk_natCast hlog, ← hm, ← Nat.cast_add, int32_natCast (by omega),
            ← Nat.cast_sub (by omega)] at hrest
          exact ih (by unfold offLimit; omega) hrest x (by omega) (by omega)

/-! ## The call -/

theorem fileRead_eq (hcount : n < 2 ^ 31) :
    fs.fileRead ip readable n p =
      run .endless (fs.readTurn ip readable) (n + 2) ⟨n, p, [], false⟩ >>= fun r =>
        if r.1.assigned = false then .error .outOfBounds
        else
          .ok {
            ret := if r.2 then -eio else int32 (n - r.1.c)
            pos := r.1.pos
            stored := r.1.stored
            ip := { ip with modified := true } } := by
  unfold fileRead
  rw [int32_natCast hcount]
  exact (if_neg (by omega)).trans (if_neg (by omega))

theorem fileRead_large (hcount : 2 ^ 31 ≤ n) (hlt : n < 2 ^ 32) :
    fs.fileRead ip readable n p = .ok ⟨-eoverflow, p, [], ip⟩ := by
  unfold fileRead
  rw [int32_high hcount hlt]
  exact if_pos (by omega)

/-- A read which meets no block that cannot be read reports what it did exactly if it is for at
least one byte, ends in the file and before the largest position, and has a block for every byte. -/
theorem fileRead_reports_iff (hlog : fs.sb.sLogBlockSize < 21) (hp : p < offLimit)
    (hcount : n < 2 ^ 32)
    (hdrive : ∀ r, fs.fileRead ip readable n p = .ok r → r.ret ≠ -eio) :
    (∃ r, fs.fileRead ip readable n p = .ok r ∧ fs.ReadReports ip n p r) ↔
      0 < n ∧ p + n ≤ ip.iSize ∧ p + n < offLimit ∧
        ∀ x, p ≤ x → x < p + n → fs.HasBlock ip x := by
  constructor
  · rintro ⟨r, hread, hret, -, hposition⟩
    have hsmall : n < 2 ^ 31 := by
      by_contra hlarge
      rw [fileRead_large (Nat.not_lt.mp hlarge) hcount] at hread
      rw [← Except.ok.inj hread] at hret
      unfold eoverflow at hret
      dsimp only at hret
      omega
    have hfinish := hread
    rw [fileRead_eq hsmall] at hfinish
    obtain ⟨⟨s', failed⟩, hrun, hrest⟩ := bind_eq_ok.mp hfinish
    dsimp only at hrest
    split at hrest
    next => cases hrest
    next hassigned =>
      obtain rfl := Except.ok.inj hrest
      have hok : failed = false := by
        rcases Bool.eq_false_or_eq_true failed with rfl | rfl
        · exact absurd rfl (hdrive _ hread)
        · rfl
      subst hok
      have hstart : (p : ℤ) < 2 ^ 31 := by
        unfold offLimit at hp
        omega
      obtain ⟨hbelow, hc⟩ := run_readTurn_bounds (s := ⟨n, p, [], false⟩)
        (by dsimp only; omega) hstart hrun
      have hpos : 0 < n := by
        apply Nat.pos_of_ne_zero
        rintro rfl
        rw [run, readTurn_done (by simp)] at hrun
        obtain ⟨rfl, -⟩ := Prod.mk.inj (Except.ok.inj hrun)
        exact hassigned rfl
      dsimp only at hret hposition
      obtain hzero | hhole := hc rfl
      · rw [if_neg (by decide), hzero, sub_zero, int32_natCast hsmall] at hret
        have hend : p + n < offLimit := by
          unfold offLimit
          omega
        exact ⟨hpos, by omega, hend, hasBlock_of_run hlog hend hrun hzero⟩
      · rw [if_neg (by decide), hhole] at hret
        exact absurd hret (int32_succ_ne hsmall (Nat.min_le_left n _))
  · rintro ⟨hn, hsize, hend, hblocks⟩
    unfold offLimit at hend
    obtain ⟨s', failed, hrun, hassigned, hdone⟩ := run_readTurn [] false hlog
      hend (Nat.lt_add_of_pos_right (Nat.succ_pos 1)) hblocks
    have hread : fs.fileRead ip readable n p = .ok {
        ret := if failed then -eio else int32 (n - s'.c)
        pos := s'.pos
        stored := s'.stored
        ip := { ip with modified := true } } := by
      rw [fileRead_eq (by omega), hrun, ok_bind]
      exact if_neg (by rw [hassigned (Or.inr hn)]; decide)
    have hok : failed = false := by
      rcases Bool.eq_false_or_eq_true failed with rfl | rfl
      · exact absurd rfl (hdrive _ hread)
      · rfl
    obtain ⟨hc, hposition, hstored⟩ := hdone hok
    have hmin : min n (ip.iSize - p) = n := by omega
    refine ⟨_, hread, ?_⟩
    unfold ReadReports
    dsimp only
    rw [hmin, hok, hc, hposition, hstored, sub_zero, int32_natCast (by omega)]
    exact ⟨rfl, List.nil_append _, Nat.cast_add p n⟩

/-! ## A file of ten bytes -/

/-- A device with a block in which each byte is its index. -/
def fileFs : Fs := dirFs (fun i => BitVec.ofNat 8 i) fun _ => 0#8

def smallFile : InodeM :=
  { newFile 128 9 0x81A4 0 with iBlock := fun i => if i = 0 then 8 else 0, iSize := 10 }

theorem fileRead_smallFile : ∃ r, fileFs.fileRead smallFile (fun _ => true) 3 2 = .ok r ∧
    fileFs.ReadReports smallFile 3 2 r := by
  refine (fileRead_reports_iff (by decide) (by decide) (by decide) ?_).mpr
    ⟨by decide, by decide, by decide, ?_⟩
  · intro r hr
    have hret : (fileFs.fileRead smallFile (fun _ => true) 3 (2 : ℕ)).map ReadResult.ret =
        .ok 3 := by decide +kernel
    rw [hr] at hret
    rw [Except.ok.inj hret]
    decide
  · intro x hx hlt
    have hblock : x / fileFs.sb.blocksize = 0 := Nat.div_eq_of_lt (lt_trans hlt (by decide))
    unfold HasBlock Mapped
    rw [hblock]
    exact ⟨Or.inl (Nat.zero_le 11), by decide⟩

/-- A read of four bytes at the end of the file comes back with four bytes. -/
theorem not_reports_endOfFile : ¬∃ r, fileFs.fileRead smallFile (fun _ => true) 4 10 = .ok r ∧
    fileFs.ReadReports smallFile 4 10 r := by
  rintro ⟨r, hr, hret, -⟩
  have hfour : (fileFs.fileRead smallFile (fun _ => true) 4 10).map ReadResult.ret = .ok 4 := by
    decide +kernel
  rw [hr] at hfour
  have hvalue : r.ret = 4 := Except.ok.inj hfour
  rw [hvalue] at hret
  exact absurd hret (by decide)

end Fs

end Yak.Ext2
