import Yak.Halt
import Mathlib.Tactic

/-!
# Open files and descriptors

A model of the descriptor calls of `fs/sys1.c` and `fs/fcntl.c`.  A pointer to a `struct file`
is an index of the global `file_table`.  The routines of the file system driver are outside:
each call is given what they answer.
-/

namespace Yak.Files

def nrFile : ℕ := 64
def nrOpen : ℕ := 20

def eacces : ℤ := 2
def ebadf : ℤ := 8
def efault : ℤ := 20
def einval : ℤ := 27
def emfile : ℤ := 32
def enfile : ℤ := 40
def enosys : ℤ := 54
def erofs : ℤ := 72

def oAccmode : BitVec 32 := 3
def oRdonly : BitVec 32 := 0
def oWronly : BitVec 32 := 1

def fDupfd : ℤ := 0
def fGetfd : ℤ := 1
def fSetfd : ℤ := 2
def fGetfl : ℤ := 3
def fSetfl : ℤ := 4
def fGetlk : ℤ := 5
def fSetlk : ℤ := 6
def fSetlkw : ℤ := 7
def fSetown : ℤ := 8
def fGetown : ℤ := 9
def fDupfdCloexec : ℤ := 1030

def fdCloexec : BitVec 32 := 1

/-- `struct file`.  A file system is named by its place in `mount_table`. -/
structure File where
  fFs : Option ℕ
  fInode : Option ℕ
  fPos : ℤ
  fMode : BitVec 32
  fFlags : BitVec 32
  fCount : ℕ

abbrev FilePtr := Fin nrFile

/-- The global `file_table`, and the `file_table` and `close_on_exec` of the process. -/
structure Fds where
  files : FilePtr → File
  table : Fin nrOpen → Option FilePtr
  closeOnExec : BitVec 32

/-- What a call finds around it, and what the driver answers to it.  `fileTable` is the
address of the `file_table` of the process. -/
structure Env where
  checkUserPtr : BitVec 32 → Bool
  mountTable : Option ℕ
  readOnly : ℕ → Bool
  fsOpen : Option ℕ × ℤ
  answer : ℤ
  fPos : ℤ
  fileTable : ℕ
  fits : fileTable + 4 * nrOpen ≤ 2 ^ 32

namespace Fds

/-- `current_process->file_table[i]`. -/
def slot (d : Fds) (i : ℤ) : Except Halt (Option FilePtr) :=
  if h : 0 ≤ i ∧ i < nrOpen then .ok (d.table ⟨i.toNat, by omega⟩) else .error .outOfBounds

def setSlot (d : Fds) (i : ℤ) (fp : Option FilePtr) : Except Halt Fds :=
  if h : 0 ≤ i ∧ i < nrOpen then
    .ok { d with table := Function.update d.table ⟨i.toNat, by omega⟩ fp }
  else .error .outOfBounds

def modifyFile (d : Fds) (fp : FilePtr) (f : File → File) : Fds :=
  { d with files := Function.update d.files fp (f (d.files fp)) }

def getFreeFile (d : Fds) : Option FilePtr :=
  (List.finRange nrFile).find? fun fp => (d.files fp).fCount = 0

/-- The loops over the slots from `i`, at most `n` of them, up to the first null one. -/
def scan (d : Fds) : ℕ → ℕ → Except Halt ℕ
  | 0, i => .ok i
  | n + 1, i => do
      match ← d.slot i with
      | none => .ok i
      | some _ => d.scan n (i + 1)

/-- The bound of the loop is that of the global table. -/
def findFd (d : Fds) : Except Halt ℤ := do
  let i ← d.scan nrFile 0
  .ok (if i < nrFile then i else -1)

/-! ## `fs/sys1.c` -/

/-- `kernel_open` up to its call of `fs_open`. -/
def openStart (e : Env) (d : Fds) (path : BitVec 32) :
    Except Halt (ℤ ⊕ (ℤ × FilePtr) × Fds) :=
  if path = 0 ∨ e.checkUserPtr path = false then .ok (.inl (-einval))
  else
    match e.mountTable with
    | none => .ok (.inl (-einval))
    | some fs => do
        let fd ← d.findFd
        if fd < 0 then .ok (.inl (-enfile))
        else
          match d.getFreeFile with
          | none => .ok (.inl (-enfile))
          | some fp => .ok (.inr ((fd, fp), d.modifyFile fp fun f => { f with fFs := some fs }))

/-- `kernel_open` from the return of `fs_open`. -/
def openEnd (e : Env) (d : Fds) (fd : ℤ) (fp : FilePtr) (flags mode : BitVec 32) :
    Except Halt (ℤ × Fds) :=
  let d := d.modifyFile fp fun f => { f with fInode := e.fsOpen.1 }
  match e.fsOpen.1 with
  | none => .ok (e.fsOpen.2, d)
  | some _ => do
      let d ← d.setSlot fd (some fp)
      .ok (fd, d.modifyFile fp fun f =>
        { f with fPos := 0, fMode := mode, fFlags := flags, fCount := 1 })

def kernelOpen (e : Env) (d : Fds) (path flags mode : BitVec 32) : Except Halt (ℤ × Fds) := do
  match ← d.openStart e path with
  | .inl err => .ok (err, d)
  | .inr ((fd, fp), d) => d.openEnd e fd fp flags mode

/-- A call of the driver, which may move `f_pos`. -/
def driver (e : Env) (d : Fds) (fp : FilePtr) : Except Halt (ℤ × Fds) :=
  match (d.files fp).fFs with
  | none => .error .nullDeref
  | some _ => .ok (e.answer, d.modifyFile fp fun f => { f with fPos := e.fPos })

/-- The common body of `kernel_read` and `kernel_write`. -/
def transfer (refused : BitVec 32) (e : Env) (d : Fds) (fd : ℤ) (buf count : BitVec 32) :
    Except Halt (ℤ × Fds) :=
  if buf = 0 ∨ e.checkUserPtr buf = false then .ok (-efault, d)
  else if fd < 0 then .ok (-ebadf, d)
  else do
    match ← d.slot fd with
    | none => .ok (-ebadf, d)
    | some fp =>
        if (d.files fp).fFlags &&& oAccmode = refused then .ok (-ebadf, d)
        else if count = 0 then .ok (0, d)
        else d.driver e fp

def kernelRead (e : Env) (d : Fds) (fd : ℤ) (buf count : BitVec 32) : Except Halt (ℤ × Fds) :=
  transfer oWronly e d fd buf count

def kernelWrite (e : Env) (d : Fds) (fd : ℤ) (buf count : BitVec 32) : Except Halt (ℤ × Fds) :=
  transfer oRdonly e d fd buf count

def kernelLseek (e : Env) (d : Fds) (fd : ℤ) : Except Halt (ℤ × Fds) :=
  if fd < 0 then .ok (-ebadf, d)
  else do
    match ← d.slot fd with
    | none => .ok (-ebadf, d)
    | some fp => d.driver e fp

/-- `fs_close`, which is `ext2_close`. -/
def fsClose (d : Fds) (fp : FilePtr) : Except Halt Unit :=
  match (d.files fp).fFs, (d.files fp).fInode with
  | none, _ => .error .nullDeref
  | some _, none => .error (.panic "ext2_close: file == NULL or file->f_inode == NULL")
  | some _, some _ => .ok ()

/-- `kernel_close` up to the return of `fs_close`. -/
def closeStart (d : Fds) (fd : ℤ) : Except Halt (ℤ ⊕ Fds) :=
  if nrOpen ≤ fd ∨ fd < 0 then .ok (.inl (-ebadf))
  else do
    match ← d.slot fd with
    | none => .ok (.inl (-ebadf))
    | some fp =>
        if (d.files fp).fCount = 0 then .error (.panic "kernel_close: f_count == 0")
        else do
          let d := d.modifyFile fp fun f => { f with fCount := f.fCount - 1 }
          d.fsClose fp
          .ok (.inr d)

def closeEnd (d : Fds) (fd : ℤ) : Except Halt (ℤ × Fds) := do
  let d ← d.setSlot fd none
  .ok (0, d)

def kernelClose (d : Fds) (fd : ℤ) : Except Halt (ℤ × Fds) := do
  match ← d.closeStart fd with
  | .inl err => .ok (err, d)
  | .inr d => d.closeEnd fd

def kernelFchmod (e : Env) (d : Fds) (fd : ℤ) : Except Halt (ℤ × Fds) := do
  match ← d.slot fd with
  | none => .ok (-ebadf, d)
  | some fp =>
      match (d.files fp).fFs with
      | none => .error .nullDeref
      | some fs => if e.readOnly fs then .ok (-erofs, d) else .ok (e.answer, d)

def kernelFstat (e : Env) (d : Fds) (fd : ℤ) (statp : BitVec 32) : Except Halt (ℤ × Fds) :=
  if statp = 0 ∨ e.checkUserPtr statp = false then .ok (-efault, d)
  else if fd < 0 ∨ nrOpen ≤ fd then .ok (-ebadf, d)
  else do
    match ← d.slot fd with
    | none => .ok (-ebadf, d)
    | some fp =>
        match (d.files fp).fFs with
        | none => .error .nullDeref
        | some _ => .ok (e.answer, d)

/-! ## `fs/fcntl.c` -/

/-- The address `current_process->file_table + new`. -/
def startAddr (e : Env) (new : ℤ) : ℤ := (e.fileTable + 4 * new) % 2 ^ 32

/-- Its index in the table, where it is not below. -/
def startIndex (e : Env) (new : ℤ) : ℕ := ((startAddr e new - e.fileTable) / 4).toNat

/-- The loop of `_dup`: from an address below the table it reads what is there. -/
def scanFrom (e : Env) (d : Fds) (new : ℤ) : Except Halt ℕ :=
  if startAddr e new < e.fileTable then .error .outOfBounds
  else d.scan (nrOpen - startIndex e new) (startIndex e new)

def dupWith (e : Env) (d : Fds) (fd new : ℤ) (cloexec : Bool) : Except Halt (ℤ × Fds) :=
  if fd < 0 ∨ nrOpen ≤ fd then .ok (-ebadf, d)
  else do
    match ← d.slot fd with
    | none => .ok (-ebadf, d)
    | some old => do
        let ret ← d.scanFrom e new
        if nrOpen ≤ ret then .ok (-emfile, d)
        else do
          let d ← d.setSlot ret (some old)
          let d := d.modifyFile old fun f => { f with fCount := f.fCount + 1 }
          if cloexec then .ok (ret, { d with closeOnExec := d.closeOnExec &&& ~~~(1#32 <<< ret) })
          else .ok (ret, d)

def kernelDup (e : Env) (d : Fds) (fd : ℤ) : Except Halt (ℤ × Fds) :=
  d.dupWith e fd 0 false

def kernelDup2 (e : Env) (d : Fds) (fd1 fd2 : ℤ) : Except Halt (ℤ × Fds) :=
  if fd2 < 0 ∨ nrOpen ≤ fd2 then .ok (-ebadf, d)
  else do
    match ← d.slot fd1 with
    | none => .ok (-ebadf, d)
    | some _ =>
        if fd1 = fd2 then .ok (fd1, d)
        else do
          let (_, d) ← d.kernelClose fd2
          d.dupWith e fd1 fd2 false

def kernelFcntl (e : Env) (d : Fds) (fd cmd arg : ℤ) : Except Halt (ℤ × Fds) :=
  if fd < 0 ∨ nrOpen ≤ fd then .ok (-ebadf, d)
  else do
    match ← d.slot fd with
    | none => .ok (-ebadf, d)
    | some fp =>
        if cmd = fDupfd then d.dupWith e fd arg false
        else if cmd = fDupfdCloexec then d.dupWith e fd arg true
        else if cmd = fGetfd then
          .ok ((d.closeOnExec.sshiftRight fd.toNat &&& 1).toInt, d)
        else if cmd = fSetfd then
          if BitVec.ofInt 32 arg &&& fdCloexec ≠ 0 then
            .ok (0, { d with closeOnExec := d.closeOnExec ||| 1#32 <<< fd.toNat })
          else .ok (0, { d with closeOnExec := d.closeOnExec &&& ~~~(1#32 <<< fd.toNat) })
        else if cmd = fGetfl then .ok ((d.files fp).fFlags.toInt, d)
        else if cmd = fSetfl then
          .ok (0, d.modifyFile fp fun f => { f with fFlags := BitVec.ofInt 32 arg })
        else if cmd = fGetown ∨ cmd = fSetown ∨ cmd = fGetlk ∨ cmd = fSetlk ∨ cmd = fSetlkw then
          .ok (-enosys, d)
        else .ok (-einval, d)

/-! ## Descriptors across `execve` -/

/-- Whether `close_on_exec & (1 << i)`. -/
def flagged (d : Fds) (i : ℕ) : Bool := d.closeOnExec &&& 1#32 <<< i ≠ 0

/-- The loop at the end of `kernel_execve`, from descriptor `i`. -/
def closeFlagged (d : Fds) : ℕ → ℕ → Except Halt Fds
  | 0, _ => .ok d
  | n + 1, i => do
      if d.flagged i then
        let (_, d) ← d.kernelClose i
        d.closeFlagged n (i + 1)
      else d.closeFlagged n (i + 1)

end Fds

/-- What `kernel_execve` learns of the file it is to run.  `namei` is the inode, and `err`. -/
structure Image where
  namei : Option ℕ × ℤ
  regular : Bool
  executable : Bool
  archExecElf : ℤ

def Fds.kernelExecve (e : Env) (d : Fds) (path argv envp : BitVec 32) (x : Image) :
    Except Halt (ℤ × Fds) :=
  if path = 0 ∨ e.checkUserPtr path = false then .ok (-efault, d)
  else if argv = 0 ∨ e.checkUserPtr argv = false then .ok (-efault, d)
  else if envp = 0 ∨ e.checkUserPtr envp = false then .ok (-efault, d)
  else
    match e.mountTable, x.namei.1 with
    | none, _ => .ok (-einval, d)
    | some _, none => .ok (x.namei.2, d)
    | some _, some _ =>
        if ¬x.regular then .ok (-eacces, d)
        else if ¬x.executable then .ok (-eacces, d)
        else do
          let d ← d.closeFlagged nrOpen 0
          .ok (x.archExecElf, d)

/-- The calls which take or make descriptors, with their arguments. -/
inductive Call where
  | kernelOpen (path flags mode : BitVec 32)
  | kernelRead (fd : ℤ) (buf count : BitVec 32)
  | kernelWrite (fd : ℤ) (buf count : BitVec 32)
  | kernelLseek (fd : ℤ)
  | kernelClose (fd : ℤ)
  | kernelFchmod (fd : ℤ)
  | kernelFstat (fd : ℤ) (statp : BitVec 32)
  | kernelDup (fd : ℤ)
  | kernelDup2 (fd1 fd2 : ℤ)
  | kernelFcntl (fd cmd arg : ℤ)

def Call.exec (e : Env) (d : Fds) : Call → Except Halt (ℤ × Fds)
  | .kernelOpen path flags mode => d.kernelOpen e path flags mode
  | .kernelRead fd buf count => d.kernelRead e fd buf count
  | .kernelWrite fd buf count => d.kernelWrite e fd buf count
  | .kernelLseek fd => d.kernelLseek e fd
  | .kernelClose fd => d.kernelClose fd
  | .kernelFchmod fd => d.kernelFchmod e fd
  | .kernelFstat fd statp => d.kernelFstat e fd statp
  | .kernelDup fd => d.kernelDup e fd
  | .kernelDup2 fd1 fd2 => d.kernelDup2 e fd1 fd2
  | .kernelFcntl fd cmd arg => d.kernelFcntl e fd cmd arg

namespace Fds

variable {d d' : Fds} {i j n : ℕ} {fp : FilePtr}

/-! ## Slots -/

theorem slot_fin (d : Fds) (i : Fin nrOpen) : d.slot (i : ℕ) = .ok (d.table i) := by
  unfold slot
  rw [dif_pos ⟨Int.natCast_nonneg _, Int.ofNat_lt.mpr i.isLt⟩]
  congr 2

theorem slot_outside {i : ℤ} (h : ¬(0 ≤ i ∧ i < nrOpen)) : d.slot i = .error .outOfBounds :=
  dif_neg h

theorem setSlot_fin (d : Fds) (i : Fin nrOpen) (v : Option FilePtr) :
    d.setSlot (i : ℕ) v = .ok { d with table := Function.update d.table i v } := by
  unfold setSlot
  rw [dif_pos ⟨Int.natCast_nonneg _, Int.ofNat_lt.mpr i.isLt⟩]
  congr 2

theorem exists_fin {i : ℤ} (h : 0 ≤ i ∧ i < nrOpen) : ∃ fd : Fin nrOpen, ((fd : ℕ) : ℤ) = i :=
  ⟨⟨i.toNat, by omega⟩, by simp only [Int.toNat_of_nonneg h.1]⟩

/-! ## The search for a null slot -/

theorem scan_succ (d : Fds) (n : ℕ) (i : Fin nrOpen) :
    d.scan (n + 1) i = if d.table i = none then .ok (i : ℕ) else d.scan n (i + 1) := by
  rw [scan, slot_fin]
  cases d.table i with
  | none => rfl
  | some fp => rfl

theorem scan_succ_end (d : Fds) (n : ℕ) : d.scan (n + 1) nrOpen = .error .outOfBounds := by
  rw [scan, slot_outside (by omega)]
  rfl

/-- Within the table the loop stops at the first null slot, or at its bound. -/
theorem scan_spec (d : Fds) (hi : i + n ≤ nrOpen) :
    ∃ j, d.scan n i = .ok j ∧ i ≤ j ∧ j ≤ i + n ∧
      (∀ k : Fin nrOpen, i ≤ k → (k : ℕ) < j → d.table k ≠ none) ∧
      ∀ k : Fin nrOpen, (k : ℕ) = j → j < i + n → d.table k = none := by
  induction n generalizing i with
  | zero => exact ⟨i, rfl, le_rfl, le_rfl, fun k h h' => by omega, fun k _ h' => by omega⟩
  | succ n ih =>
      have hlt : i < nrOpen := by omega
      have hstep := scan_succ d n ⟨i, hlt⟩
      dsimp only at hstep
      rw [hstep]
      by_cases hnone : d.table ⟨i, hlt⟩ = none
      · rw [if_pos hnone]
        refine ⟨i, rfl, le_rfl, by omega, fun k h h' => by omega, ?_⟩
        intro k hk _
        rwa [show k = ⟨i, hlt⟩ from Fin.ext hk]
      · rw [if_neg hnone]
        obtain ⟨j, hj, hij, hjn, hused, hfree⟩ := ih (i := i + 1) (by omega)
        refine ⟨j, hj, by omega, by omega, ?_, fun k hk h => hfree k hk (by omega)⟩
        intro k hik hkj
        by_cases hk : (k : ℕ) = i
        · rwa [show k = ⟨i, hlt⟩ from Fin.ext hk]
        · exact hused k (by omega) hkj

/-- A longer loop goes on where the shorter one has found nothing. -/
theorem scan_add (d : Fds) (n m i : ℕ) :
    d.scan (n + m) i = d.scan n i >>= fun j => if j = i + n then d.scan m j else .ok j := by
  induction n generalizing i with
  | zero => simp [scan]
  | succ n ih =>
      rw [show n + 1 + m = n + m + 1 by omega, scan, scan]
      cases hslot : d.slot i with
      | error e => rfl
      | ok v =>
          cases v with
          | none => simp
          | some fp =>
              simp only [ok_bind]
              rw [ih (i + 1), show i + 1 + n = i + (n + 1) by omega]

/-- `find_fd` finds the first null slot; where there is none it reads past the table. -/
theorem findFd_cases (d : Fds) :
    (∃ fd : Fin nrOpen, d.findFd = .ok (fd : ℕ) ∧ d.table fd = none ∧
        ∀ k < fd, d.table k ≠ none) ∨
      (∀ fd, d.table fd ≠ none) ∧ d.findFd = .error .outOfBounds := by
  unfold findFd
  rw [show nrFile = nrOpen + (nrFile - nrOpen) from rfl, scan_add]
  obtain ⟨j, hj, -, hjn, hused, hfree⟩ := d.scan_spec (i := 0) (n := nrOpen) (by omega)
  rw [hj, ok_bind]
  rcases Nat.lt_or_ge j nrOpen with hlt | hge
  · left
    rw [if_neg (by omega), ok_bind, if_pos (by unfold nrOpen nrFile at *; omega)]
    exact ⟨⟨j, hlt⟩, rfl, hfree ⟨j, hlt⟩ rfl (by omega), fun k hk => hused k (by omega) hk⟩
  · right
    have hj' : j = nrOpen := by omega
    rw [if_pos (by omega), hj', show nrFile - nrOpen = 43 + 1 from rfl, scan_succ_end]
    exact ⟨fun fd => hused fd (by omega) (by omega), rfl⟩

/-! ## What a close and a duplication do -/

/-- After a close of descriptor `i`, which was `fp`. -/
def dropped (d : Fds) (i : Fin nrOpen) (fp : FilePtr) : Fds :=
  { d.modifyFile fp fun f => { f with fCount := f.fCount - 1 } with
    table := Function.update d.table i none }

/-- After descriptor `i` has been made another name of `fp`. -/
def shared (d : Fds) (i : Fin nrOpen) (fp : FilePtr) : Fds :=
  { d.modifyFile fp fun f => { f with fCount := f.fCount + 1 } with
    table := Function.update d.table i (some fp) }

def clearBit (d : Fds) (i : ℕ) : Fds :=
  { d with closeOnExec := d.closeOnExec &&& ~~~(1#32 <<< i) }

theorem kernelClose_outside {fd : ℤ} (h : ¬(0 ≤ fd ∧ fd < nrOpen)) :
    d.kernelClose fd = .ok (-ebadf, d) := by
  unfold kernelClose closeStart
  rw [if_pos (by omega)]
  rfl

theorem fsClose_cases (d : Fds) (fp : FilePtr) :
    d.fsClose fp = .ok () ∨ ∃ h, h ≠ Halt.outOfBounds ∧ d.fsClose fp = .error h := by
  unfold fsClose
  split
  next => exact Or.inr ⟨.nullDeref, nofun, rfl⟩
  next => exact Or.inr ⟨.panic _, nofun, rfl⟩
  next => exact Or.inl rfl

/-- The entry whose count `kernel_close` takes down, if there is one. -/
theorem closeStart_cases (d : Fds) (i : Fin nrOpen) :
    (d.table i = none ∧ d.closeStart (i : ℕ) = .ok (.inl (-ebadf))) ∨
      ∃ fp, d.table i = some fp ∧
        (((d.files fp).fCount ≠ 0 ∧ d.closeStart (i : ℕ) =
            .ok (.inr (d.modifyFile fp fun f => { f with fCount := f.fCount - 1 }))) ∨
          ∃ h, h ≠ .outOfBounds ∧ d.closeStart (i : ℕ) = .error h) := by
  unfold closeStart
  rw [if_neg (by have := i.isLt; omega), slot_fin, ok_bind]
  cases htable : d.table i with
  | none => exact Or.inl ⟨rfl, rfl⟩
  | some fp =>
      refine Or.inr ⟨fp, rfl, ?_⟩
      dsimp only
      by_cases hcount : (d.files fp).fCount = 0
      · rw [if_pos hcount]
        exact Or.inr ⟨.panic _, nofun, rfl⟩
      · rw [if_neg hcount]
        rcases fsClose_cases (d.modifyFile fp fun f => { f with fCount := f.fCount - 1 }) fp with
          hok | ⟨h, hne, herr⟩
        · rw [hok]
          exact Or.inl ⟨hcount, rfl⟩
        · rw [herr]
          exact Or.inr ⟨h, hne, rfl⟩

theorem kernelClose_cases (d : Fds) (i : Fin nrOpen) :
    (d.table i = none ∧ d.kernelClose (i : ℕ) = .ok (-ebadf, d)) ∨
      ∃ fp, d.table i = some fp ∧
        (((d.files fp).fCount ≠ 0 ∧ d.kernelClose (i : ℕ) = .ok (0, d.dropped i fp)) ∨
          ∃ h, h ≠ .outOfBounds ∧ d.kernelClose (i : ℕ) = .error h) := by
  unfold kernelClose
  rcases d.closeStart_cases i with ⟨htable, heq⟩ | ⟨fp, htable, ⟨hcount, heq⟩ | ⟨h, hne, heq⟩⟩
  · exact Or.inl ⟨htable, by rw [heq]; rfl⟩
  · refine Or.inr ⟨fp, htable, Or.inl ⟨hcount, ?_⟩⟩
    rw [heq, ok_bind]
    dsimp only
    rw [closeEnd, setSlot_fin]
    rfl
  · exact Or.inr ⟨fp, htable, Or.inr ⟨h, hne, by rw [heq]; rfl⟩⟩

variable {e : Env} {new : ℤ}

theorem scanFrom_below (h : startAddr e new < e.fileTable) :
    d.scanFrom e new = .error .outOfBounds := if_pos h

/-- The loop stops at the first null slot from its start, or at or past the end of the table. -/
theorem scanFrom_spec (d : Fds) (h : e.fileTable ≤ startAddr e new) :
    ∃ j, d.scanFrom e new = .ok j ∧ startIndex e new ≤ j ∧
      (∀ k : Fin nrOpen, startIndex e new ≤ k → (k : ℕ) < j → d.table k ≠ none) ∧
      ∀ k : Fin nrOpen, (k : ℕ) = j → d.table k = none := by
  unfold scanFrom
  rw [if_neg (not_lt.mpr h)]
  rcases Nat.lt_or_ge (startIndex e new) nrOpen with hlt | hge
  · obtain ⟨j, hj, hij, hjn, hused, hfree⟩ :=
      d.scan_spec (i := startIndex e new) (n := nrOpen - startIndex e new) (by omega)
    exact ⟨j, hj, hij, hused, fun k hk => hfree k hk (by have := k.isLt; omega)⟩
  · rw [show nrOpen - startIndex e new = 0 by omega]
    exact ⟨_, rfl, le_rfl, fun k h h' => by omega, fun k hk => by have := k.isLt; omega⟩

/-- For an index of the table it starts there. -/
theorem startAddr_inside (h : 0 ≤ new ∧ new < nrOpen) :
    e.fileTable ≤ startAddr e new ∧ startIndex e new = new.toNat := by
  have hfits := e.fits
  have haddr : startAddr e new = e.fileTable + 4 * new := by
    unfold startAddr
    rw [Int.emod_eq_of_lt] <;> omega
  refine ⟨by omega, ?_⟩
  unfold startIndex
  rw [haddr]
  congr 1
  omega

theorem dupWith_outside {fd : ℤ} {cloexec : Bool} (h : ¬(0 ≤ fd ∧ fd < nrOpen)) :
    d.dupWith e fd new cloexec = .ok (-ebadf, d) := if_pos (by omega)

theorem dupWith_none {i : Fin nrOpen} {cloexec : Bool} (h : d.table i = none) :
    d.dupWith e (i : ℕ) new cloexec = .ok (-ebadf, d) := by
  unfold dupWith
  rw [if_neg (by have := i.isLt; omega), slot_fin, h]
  rfl

theorem dupWith_some {i : Fin nrOpen} {cloexec : Bool} (h : d.table i = some fp) :
    d.dupWith e (i : ℕ) new cloexec = d.scanFrom e new >>= fun ret =>
      if hret : ret < nrOpen then
        .ok ((ret : ℤ), if cloexec then (d.shared ⟨ret, hret⟩ fp).clearBit ret
          else d.shared ⟨ret, hret⟩ fp)
      else .ok (-emfile, d) := by
  unfold dupWith
  rw [if_neg (by have := i.isLt; omega), slot_fin, h, ok_bind]
  dsimp only
  congr 1
  funext ret
  by_cases hret : ret < nrOpen
  · rw [if_neg (by omega), dif_pos hret, setSlot_fin d ⟨ret, hret⟩, ok_bind]
    cases cloexec <;> rfl
  · rw [if_pos (by omega), dif_neg hret]

end Fds

end Yak.Files
