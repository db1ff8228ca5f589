import Yak.Halt

/-!
# Mutexes

The mutexes of `kernel/mutex.c`, seen by the process which is running.
-/

namespace Yak

/-- `lock` says whether the word holds `MUTEX_LOCKED`. -/
structure Mutex where
  lock : Bool
  owner : Option ℕ
  deriving DecidableEq, Repr

def mutexLocked (m : Mutex) (current : ℕ) : Bool := m.lock && decide (m.owner ≠ some current)

def mutexLock (m : Mutex) (current : ℕ) : Except Halt Mutex :=
  if m.owner = none ∧ m.lock then .error (.panic "mutex_lock: Corrupt mutex\r\n")
  else if m.owner ≠ some current ∧ m.lock then .error .asleep
  else .ok ⟨true, some current⟩

def mutexUnlock : Mutex := ⟨false, none⟩

variable {current : ℕ}

/-- `current` can take the mutex without waiting. -/
def Usable (m : Mutex) (current : ℕ) : Prop := m.lock = true → m.owner = some current

theorem mutexLocked_eq_false {m : Mutex} : mutexLocked m current = false ↔ Usable m current := by
  unfold mutexLocked Usable
  cases m.lock with
  | false => simp
  | true => simp

theorem mutexLock_of_usable {m : Mutex} (h : Usable m current) :
    mutexLock m current = .ok ⟨true, some current⟩ := by
  unfold mutexLock
  unfold Usable at h
  cases hlock : m.lock with
  | false => simp
  | true => simp [h hlock]

def taken (current : ℕ) : Mutex := ⟨true, some current⟩

end Yak
