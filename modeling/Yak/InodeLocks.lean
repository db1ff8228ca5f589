import Yak.Mutex
import Mathlib.Tactic

/-!
# The owners of inode locks

Any number of processes in `ext2_iget`, `ext2_iput`, `file_read`, `file_write` and `ext2_open`,
which are switched only where they sleep.  Which inode `in_hash_queue` finds and which one is
first on the free list is left open, and so is what the disk and the user write into an inode.
-/

namespace Yak.InodeLocks

/-- Of `struct ext2_inode_m`; `iIno` stands for the contents but the link count. -/
structure Inode where
  iMutex : Mutex
  iCount : ℕ
  iLinksCount : ℕ
  iIno : ℕ

/-- Where a process sleeps. -/
inductive Phase where
  | running
  /-- In `ext2_iget`, on an inode which it has found locked. -/
  | found
  /-- In the `mutex_lock` of `ext2_iget`, for an inode of the free list. -/
  | waiting (ip : ℕ)
  /-- In `read_inode`. -/
  | loading (ip : ℕ)
  /-- In `ext2_iput` of an inode without references.  `ext2_open` has another to unlock. -/
  | putting (ip : ℕ) (opened : Option ℕ)
  | reading (ip : ℕ)
  | writing (ip : ℕ)
  /-- In `ext2_open`, which has found the file `ip` in the directory `base`. -/
  | opening (ip base : ℕ)
  deriving DecidableEq

/-- `mutex_unlock` of an inode, or a change of its `i_count` or `i_ino`, and the mutex then. -/
structure Effect where
  ip : ℕ
  unlock : Bool
  mutex : Mutex

/-- The inodes, with what the running process has done to them since it was switched to. -/
structure Segment where
  inodes : ℕ → Inode
  effects : List Effect

namespace Segment

def setMutex (g : Segment) (ip : ℕ) (m : Mutex) : Segment :=
  { g with inodes := Function.update g.inodes ip { g.inodes ip with iMutex := m } }

def unlock (g : Segment) (ip : ℕ) : Segment :=
  { g.setMutex ip mutexUnlock with
    effects := g.effects ++ [⟨ip, true, (g.inodes ip).iMutex⟩] }

/-- A change which leaves the mutex. -/
def change (g : Segment) (ip count links ino : ℕ) : Segment where
  inodes := Function.update g.inodes ip ⟨(g.inodes ip).iMutex, count, links, ino⟩
  effects := g.effects ++ [⟨ip, false, (g.inodes ip).iMutex⟩]

def setCount (g : Segment) (ip count : ℕ) : Segment :=
  g.change ip count (g.inodes ip).iLinksCount (g.inodes ip).iIno

def setIno (g : Segment) (ip ino : ℕ) : Segment :=
  g.change ip (g.inodes ip).iCount (g.inodes ip).iLinksCount ino

/-- All of the inode becomes this. -/
def overwrite (g : Segment) (ip : ℕ) (x : Inode) : Segment :=
  (g.setMutex ip x.iMutex).change ip x.iCount x.iLinksCount x.iIno

/-- `ext2_iput` up to where it may sleep: it does not wait for a mutex of another process. -/
def iputStart (g : Segment) (p ip : ℕ) : Except Halt Segment :=
  let m := (g.inodes ip).iMutex
  match if mutexLocked m p then .ok m else mutexLock m p with
  | .error e => .error e
  | .ok m =>
      if (g.inodes ip).iCount = 0 then .error (.panic "ext2_iput: ip->i_count == 0")
      else .ok ((g.setMutex ip m).setCount ip ((g.inodes ip).iCount - 1))

end Segment

structure System where
  inodes : ℕ → Inode
  phase : ℕ → Phase

inductive Event where
  /-- `ext2_iget` has found `ip` in the cache. -/
  | igetFound (p ip : ℕ)
  /-- `ext2_iget` takes `ip` off the free list. -/
  | igetTake (p ip : ℕ)
  /-- A sleep of `ext2_iget` ends. -/
  | igetWoken (p : ℕ)
  /-- `read_inode` has got the block. -/
  | igetLoaded (p links ino : ℕ)
  | iput (p ip : ℕ)
  /-- `ext2_iput` of an inode without links: `i_dtime` and `ext2_itrunc`. -/
  | iputTruncate (p ino : ℕ)
  | iputEnd (p : ℕ)
  /-- `file_read` past the check of its arguments. -/
  | fileRead (p ip : ℕ)
  | readEnd (p ino : ℕ)
  | fileWrite (p ip : ℕ)
  /-- `ext2_create_block` of `file_write`. -/
  | createBlock (p ino : ℕ)
  | writeEnd (p ino : ℕ)
  /-- `ext2_namei` takes a reference to the inode at which the path starts. -/
  | nameiStart (p ip : ℕ)
  /-- `ext2_new_file` writes the new inode, or its directory in `ext2_add_dir_entry`. -/
  | newFile (p ip links ino : ℕ)
  /-- Its `memset` where the inodes of the disk are larger than `struct ext2_inode`: it goes over
  the mutex and the count, and leaves this of the inodes behind. -/
  | newLarge (p ip : ℕ) (behind : List (ℕ × Inode))
  /-- `ext2_open` from the return of `ext2_namei`, or of `ext2_new_file`.  What it does before, and
  what it does if it finds nothing, are the steps of these and calls of `ext2_iget` and
  `ext2_iput`. -/
  | openFound (p ip base : ℕ)
  /-- `ext2_itrunc` of `ext2_open`. -/
  | openTruncate (p ino : ℕ)
  | openEnd (p : ℕ)

/-- The process which takes the step. -/
def Event.process : Event → ℕ
  | .igetFound p _ | .igetTake p _ | .igetWoken p | .igetLoaded p _ _ | .iput p _
  | .iputTruncate p _ | .iputEnd p | .fileRead p _ | .readEnd p _ | .fileWrite p _
  | .createBlock p _ | .writeEnd p _ | .nameiStart p _ | .newFile p _ _ _ | .newLarge p _ _
  | .openFound p _ _ | .openTruncate p _ | .openEnd p => p

namespace System

def start (s : System) : Segment := ⟨s.inodes, []⟩

/-- Process `p` is switched away from. -/
def goto (s : System) (p : ℕ) (g : Segment) (x : Phase) : System × List Effect :=
  (⟨g.inodes, Function.update s.phase p x⟩, g.effects)

/-- After the count of `ip` has been taken down. -/
def putOrGo (s : System) (p ip : ℕ) (opened : Option ℕ) (g : Segment) : System × List Effect :=
  if (g.inodes ip).iCount = 0 then s.goto p g (.putting ip opened)
  else
    match opened with
    | none => s.goto p (g.unlock ip) .running
    | some jp => s.goto p ((g.unlock ip).unlock jp) .running

/-- One step, if the process can take it, and what it does to inodes.  There is none after a
panic. -/
def step (s : System) : Event → Option (System × List Effect)
  | .igetFound p ip =>
      if s.phase p = .running then
        if mutexLocked (s.inodes ip).iMutex p then some (s.goto p s.start .found)
        else
          match mutexLock (s.inodes ip).iMutex p with
          | .error _ => none
          | .ok m =>
              some (s.goto p ((s.start.setMutex ip m).setCount ip ((s.inodes ip).iCount + 1))
                .running)
      else none
  | .igetTake p ip =>
      if s.phase p = .running then
        match mutexLock (s.inodes ip).iMutex p with
        | .ok m => some (s.goto p (s.start.setMutex ip m) (.loading ip))
        | .error .asleep => some (s.goto p s.start (.waiting ip))
        | .error _ => none
      else none
  | .igetWoken p =>
      match s.phase p with
      | .found => some (s.goto p s.start .running)
      | .waiting ip =>
          if (s.inodes ip).iMutex.lock then some (s.goto p s.start (.waiting ip))
          else some (s.goto p (s.start.setMutex ip (taken p)) (.loading ip))
      | _ => none
  | .igetLoaded p links ino =>
      match s.phase p with
      | .loading ip => some (s.goto p (s.start.change ip 1 links ino) .running)
      | _ => none
  | .iput p ip =>
      if s.phase p = .running then
        match s.start.iputStart p ip with
        | .error _ => none
        | .ok g => some (s.putOrGo p ip none g)
      else none
  | .iputTruncate p ino =>
      match s.phase p with
      | .putting ip opened =>
          if (s.inodes ip).iLinksCount = 0 then
            some (s.goto p (s.start.setIno ip ino) (.putting ip opened))
          else none
      | _ => none
  | .iputEnd p =>
      match s.phase p with
      | .putting ip none => some (s.goto p (s.start.unlock ip) .running)
      | .putting ip (some jp) => some (s.goto p ((s.start.unlock ip).unlock jp) .running)
      | _ => none
  | .fileRead p ip => if s.phase p = .running then some (s.goto p s.start (.reading ip)) else none
  | .readEnd p ino =>
      match s.phase p with
      | .reading ip => some (s.goto p ((s.start.setIno ip ino).unlock ip) .running)
      | _ => none
  | .fileWrite p ip => if s.phase p = .running then some (s.goto p s.start (.writing ip)) else none
  | .createBlock p ino =>
      match s.phase p with
      | .writing ip => some (s.goto p (s.start.setIno ip ino) (.writing ip))
      | _ => none
  | .writeEnd p ino =>
      match s.phase p with
      | .writing ip => some (s.goto p ((s.start.setIno ip ino).unlock ip) .running)
      | _ => none
  | .nameiStart p ip =>
      if s.phase p = .running then
        some (s.goto p (s.start.setCount ip ((s.inodes ip).iCount + 1)) .running)
      else none
  | .newFile p ip links ino =>
      if s.phase p = .running then
        some (s.goto p (s.start.change ip (s.inodes ip).iCount links ino) .running)
      else none
  | .newLarge p ip behind =>
      if s.phase p = .running then
        some (s.goto p (behind.foldl (fun g x => g.overwrite x.1 x.2)
          (s.start.overwrite ip ⟨mutexUnlock, 0, 0, 0⟩)) .running)
      else none
  | .openFound p ip base =>
      if s.phase p = .running then some (s.goto p s.start (.opening ip base)) else none
  | .openTruncate p ino =>
      match s.phase p with
      | .opening ip base => some (s.goto p (s.start.setIno ip ino) (.opening ip base))
      | _ => none
  | .openEnd p =>
      match s.phase p with
      | .opening ip base =>
          if base = ip then some (s.goto p (s.start.unlock ip) .running)
          else
            match s.start.iputStart p base with
            | .error _ => none
            | .ok g => some (s.putOrGo p base (some ip) g)
      | _ => none

def run (s : System) : List Event → Option System
  | [] => some s
  | ev :: evs => s.step ev >>= fun r => r.1.run evs

/-- Process `p` unlocks only what it owns, and changes nothing which another process owns. -/
def Allowed (p : ℕ) (e : Effect) : Prop :=
  if e.unlock then e.mutex = taken p else mutexLocked e.mutex p = false

/-- So it is all along the run, as far as it goes. -/
def OwnedRun (s : System) : List Event → Prop
  | [] => True
  | ev :: evs => ∀ s' es, s.step ev = some (s', es) →
      (∀ e ∈ es, Allowed ev.process e) ∧ s'.OwnedRun evs

def Owns (s : System) (p ip : ℕ) : Prop := (s.inodes ip).iMutex = taken p

/-- An inode is put by its owner or when its mutex is free, and so it is at the start of a path and
where a file is made; it is read, written and opened by its owner; and no inode is larger than
`struct ext2_inode`. -/
def SafeStep (s : System) : Event → Prop
  | .iput p ip | .nameiStart p ip | .newFile p ip _ _ => mutexLocked (s.inodes ip).iMutex p = false
  | .newLarge _ _ _ => False
  | .fileRead p ip | .fileWrite p ip | .openFound p ip _ => s.Owns p ip
  | .openEnd p => ∀ ip base, s.phase p = .opening ip base → base ≠ ip →
      mutexLocked (s.inodes base).iMutex p = false
  | _ => True

def SafeRun (s : System) : List Event → Prop
  | [] => True
  | ev :: evs => s.SafeStep ev ∧ ∀ s' es, s.step ev = some (s', es) → s'.SafeRun evs

end System

/-! ## Segments -/

variable {s s' : System} {g : Segment} {p q ip jp base : ℕ} {m : Mutex}

namespace Segment

def mutex (g : Segment) (ip : ℕ) : Mutex := (g.inodes ip).iMutex

theorem mutex_setMutex (g : Segment) (ip : ℕ) (m : Mutex) (y : ℕ) :
    (g.setMutex ip m).mutex y = if y = ip then m else g.mutex y := by
  unfold mutex setMutex
  dsimp only
  by_cases hy : y = ip
  · rw [hy, Function.update_self, if_pos rfl]
  · rw [Function.update_of_ne hy, if_neg hy]

theorem mutex_unlock (g : Segment) (ip y : ℕ) :
    (g.unlock ip).mutex y = if y = ip then mutexUnlock else g.mutex y :=
  mutex_setMutex g ip mutexUnlock y

theorem mutex_change (g : Segment) (ip count links ino y : ℕ) :
    (g.change ip count links ino).mutex y = g.mutex y := by
  unfold mutex change
  dsimp only
  by_cases hy : y = ip
  · rw [hy, Function.update_self]
  · rw [Function.update_of_ne hy]

end Segment

theorem not_usable_taken (h : q ≠ p) : ¬Usable (taken q) p :=
  fun husable => h (Option.some.inj (husable rfl))

theorem usable_taken (p : ℕ) : Usable (taken p) p := fun _ => rfl

/-- What `p` has done so far is allowed, and it has left the mutexes of all others. -/
structure Fair (s : System) (p : ℕ) (g : Segment) : Prop where
  effects : ∀ e ∈ g.effects, System.Allowed p e
  others : ∀ y q, q ≠ p → s.Owns q y → g.mutex y = taken q

namespace Fair

theorem start (s : System) (p : ℕ) : Fair s p s.start := ⟨nofun, fun _ _ _ h => h⟩

/-- A mutex is taken which no other process owns. -/
theorem lock (h : Fair s p g) (husable : Usable (g.mutex ip) p) :
    Fair s p (g.setMutex ip (taken p)) := by
  refine ⟨h.effects, fun y q hq hown => ?_⟩
  rw [Segment.mutex_setMutex]
  split
  next hy =>
    subst hy
    rw [h.others y q hq hown] at husable
    exact (not_usable_taken hq husable).elim
  next => exact h.others y q hq hown

theorem unlock (h : Fair s p g) (hown : g.mutex ip = taken p) : Fair s p (g.unlock ip) := by
  constructor
  · intro e he
    rcases List.mem_append.mp he with he | he
    · exact h.effects e he
    · rw [List.mem_singleton.mp he]
      exact hown
  · intro y q hq hother
    rw [Segment.mutex_unlock]
    split
    next hy =>
      subst hy
      rw [h.others y q hq hother] at hown
      exact (hq (Option.some.inj (congrArg Mutex.owner hown))).elim
    next => exact h.others y q hq hother

theorem change (h : Fair s p g) (husable : Usable (g.mutex ip) p) (count links ino : ℕ) :
    Fair s p (g.change ip count links ino) := by
  constructor
  · intro e he
    rcases List.mem_append.mp he with he | he
    · exact h.effects e he
    · rw [List.mem_singleton.mp he]
      exact mutexLocked_eq_false.mpr husable
  · intro y q hq hother
    rw [Segment.mutex_change]
    exact h.others y q hq hother

/-- `ext2_iput` of an inode which no other process owns takes its mutex. -/
theorem iputStart (h : Fair s p g) (husable : mutexLocked (g.mutex ip) p = false)
    {g' : Segment} (hrun : g.iputStart p ip = .ok g') :
    Fair s p g' ∧ g'.mutex ip = taken p ∧ ∀ y, y ≠ ip → g'.mutex y = g.mutex y := by
  have husable' := mutexLocked_eq_false.mp husable
  have hlock : mutexLock (g.inodes ip).iMutex p = .ok (taken p) := mutexLock_of_usable husable'
  have hlocked : mutexLocked (g.inodes ip).iMutex p = false := husable
  unfold Segment.iputStart at hrun
  dsimp only at hrun
  rw [hlocked, if_neg Bool.false_ne_true, hlock] at hrun
  dsimp only at hrun
  split at hrun
  next => cases hrun
  next =>
    obtain rfl := Except.ok.inj hrun
    have hself : (g.setMutex ip (taken p)).mutex ip = taken p := by
      rw [Segment.mutex_setMutex, if_pos rfl]
    refine ⟨(h.lock husable').change ?_ _ _ _, ?_, fun y hy => ?_⟩
    · rw [hself]
      exact usable_taken p
    · unfold Segment.setCount
      rw [Segment.mutex_change, hself]
    · unfold Segment.setCount
      rw [Segment.mutex_change, Segment.mutex_setMutex, if_neg hy]

end Fair

/-! ## Owners -/

/-- The inodes which a sleeping process will unlock. -/
def Phase.claimed : Phase → List ℕ
  | .loading ip | .reading ip | .writing ip | .opening ip _ | .putting ip none => [ip]
  | .putting ip (some jp) => [ip, jp]
  | _ => []

/-- Every sleeping process owns what it will unlock. -/
structure Inv (s : System) : Prop where
  owns : ∀ p, ∀ ip ∈ (s.phase p).claimed, s.Owns p ip
  distinct : ∀ p, (s.phase p).claimed.Nodup

theorem Inv.of_running (h : ∀ p, s.phase p = .running) : Inv s := by
  constructor
  · intro p ip hip
    rw [h p] at hip
    cases hip
  · intro p
    rw [h p]
    exact List.nodup_nil

/-- A process is switched away from with the mutexes it needs. -/
theorem Inv.goto {x : Phase} (h : Inv s) (hfair : Fair s p g)
    (hclaimed : ∀ ip ∈ x.claimed, g.mutex ip = taken p) (hnodup : x.claimed.Nodup) :
    Inv (s.goto p g x).1 ∧ ∀ e ∈ (s.goto p g x).2, System.Allowed p e := by
  have hphase : ∀ q, (s.goto p g x).1.phase q = if q = p then x else s.phase q :=
    fun q => Function.update_apply s.phase p x q
  refine ⟨⟨?_, ?_⟩, hfair.effects⟩
  · intro q ip hip
    rw [hphase] at hip
    split at hip
    next hq =>
      subst hq
      exact hclaimed ip hip
    next hq => exact hfair.others ip q hq (h.owns q ip hip)
  · intro q
    rw [hphase]
    split
    next => exact hnodup
    next => exact h.distinct q

/-- `ext2_iput` after its count. -/
theorem Inv.putOrGo {opened : Option ℕ} (h : Inv s) (hfair : Fair s p g)
    (hip : g.mutex ip = taken p) (hopened : ∀ jp ∈ opened, jp ≠ ip ∧ g.mutex jp = taken p) :
    Inv (s.putOrGo p ip opened g).1 ∧ ∀ e ∈ (s.putOrGo p ip opened g).2, System.Allowed p e := by
  unfold System.putOrGo
  split
  next =>
    cases opened with
    | none =>
        refine h.goto hfair (fun y hy => ?_) (List.nodup_singleton ip)
        rw [List.mem_singleton.mp hy]
        exact hip
    | some jp =>
        obtain ⟨hne, hjp⟩ := hopened jp rfl
        refine h.goto hfair (fun y hy => ?_) ?_
        · rcases List.mem_pair.mp hy with rfl | rfl
          · exact hip
          · exact hjp
        · exact List.nodup_cons.mpr ⟨fun hmem => hne (List.mem_singleton.mp hmem).symm, List.nodup_singleton jp⟩
  next =>
    cases opened with
    | none => exact h.goto (hfair.unlock hip) nofun List.nodup_nil
    | some jp =>
        obtain ⟨hne, hjp⟩ := hopened jp rfl
        refine h.goto ((hfair.unlock hip).unlock ?_) nofun List.nodup_nil
        rw [Segment.mutex_unlock, if_neg hne]
        exact hjp

/-! ## Steps -/

variable {ev : Event} {evs : List Event} {es : List Effect}

/-- The inode which a sleeping process writes is its own. -/
theorem Inv.usable (h : Inv s) (hip : ip ∈ (s.phase p).claimed) : Usable (s.start.mutex ip) p := by
  have hown : s.start.mutex ip = taken p := h.owns p ip hip
  rw [hown]
  exact usable_taken p

/-- A sleeping process writes its own inode and goes on sleeping. -/
theorem Inv.write {x : Phase} (h : Inv s) (hip : ip ∈ (s.phase p).claimed)
    (hx : x.claimed = (s.phase p).claimed) (count links ino : ℕ) :
    Inv (s.goto p (s.start.change ip count links ino) x).1 ∧
      ∀ e ∈ (s.goto p (s.start.change ip count links ino) x).2, System.Allowed p e := by
  refine h.goto ((Fair.start s p).change (h.usable hip) count links ino) ?_ ?_
  · intro y hy
    rw [Segment.mutex_change]
    exact h.owns p y (hx ▸ hy)
  · rw [hx]
    exact h.distinct p

/-- It writes its own inode and unlocks it. -/
theorem Inv.writeUnlock (h : Inv s) (hip : ip ∈ (s.phase p).claimed) (count links ino : ℕ) :
    Inv (s.goto p ((s.start.change ip count links ino).unlock ip) .running).1 ∧
      ∀ e ∈ (s.goto p ((s.start.change ip count links ino).unlock ip) .running).2,
        System.Allowed p e := by
  have hfair := (Fair.start s p).change (h.usable hip) count links ino
  refine h.goto (hfair.unlock ?_) nofun List.nodup_nil
  rw [Segment.mutex_change]
  exact h.owns p ip hip

theorem mutexLock_ok {m' : Mutex} (h : mutexLock m p = .ok m') :
    m' = taken p ∧ Usable m p := by
  unfold mutexLock at h
  split at h
  next => cases h
  next =>
    split at h
    next => cases h
    next hnot =>
      refine ⟨(Except.ok.inj h).symm, fun hlock => ?_⟩
      by_contra hne
      exact hnot ⟨hne, hlock⟩

/-- A step which meets its condition is allowed, and keeps every owner. -/
theorem Inv.step (h : Inv s) (hsafe : s.SafeStep ev) (hstep : s.step ev = some (s', es)) :
    Inv s' ∧ ∀ e ∈ es, System.Allowed ev.process e := by
  have hgo : ∀ {r : System × List Effect} {p : ℕ}, some r = some (s', es) →
      (Inv r.1 ∧ ∀ e ∈ r.2, System.Allowed p e) → Inv s' ∧ ∀ e ∈ es, System.Allowed p e := by
    intro r p heq hr
    cases heq
    exact hr
  have hstart := fun p => Fair.start s p
  unfold System.step at hstep
  cases ev with
  | igetFound p ip =>
      dsimp only at hstep
      split at hstep
      next =>
        split at hstep
        next => exact hgo hstep (h.goto (hstart p) nofun List.nodup_nil)
        next =>
          split at hstep
          next => cases hstep
          next m hm =>
            obtain ⟨rfl, husable⟩ := mutexLock_ok hm
            refine hgo hstep (h.goto (((hstart p).lock husable).change ?_ _ _ _) nofun List.nodup_nil)
            rw [Segment.mutex_setMutex, if_pos rfl]
            exact usable_taken p
      next => cases hstep
  | igetTake p ip =>
      dsimp only at hstep
      split at hstep
      next =>
        split at hstep
        next m hm =>
          obtain ⟨rfl, husable⟩ := mutexLock_ok hm
          refine hgo hstep (h.goto ((hstart p).lock husable) (fun y hy => ?_) (List.nodup_singleton ip))
          rw [List.mem_singleton.mp hy, Segment.mutex_setMutex, if_pos rfl]
        next => exact hgo hstep (h.goto (hstart p) nofun List.nodup_nil)
        next => cases hstep
      next => cases hstep
  | igetWoken p =>
      dsimp only at hstep
      split at hstep
      next => exact hgo hstep (h.goto (hstart p) nofun List.nodup_nil)
      next ip _ =>
        split at hstep
        next => exact hgo hstep (h.goto (hstart p) nofun List.nodup_nil)
        next hfree =>
          have husable : Usable (s.start.mutex ip) p := fun hlock => (hfree hlock).elim
          refine hgo hstep (h.goto ((hstart p).lock husable) (fun y hy => ?_) (List.nodup_singleton ip))
          rw [List.mem_singleton.mp hy, Segment.mutex_setMutex, if_pos rfl]
      next => cases hstep
  | igetLoaded p links ino =>
      dsimp only at hstep
      split at hstep
      next ip hphase =>
        have hip : ip ∈ (s.phase p).claimed := hphase ▸ List.mem_cons_self
        refine hgo hstep (h.goto ((hstart p).change (h.usable hip) 1 links ino) nofun List.nodup_nil)
      next => cases hstep
  | iput p ip =>
      dsimp only at hstep
      split at hstep
      next =>
        split at hstep
        next => cases hstep
        next g hg =>
          obtain ⟨hfair, hip, -⟩ := (hstart p).iputStart hsafe hg
          exact hgo hstep (h.putOrGo hfair hip nofun)
      next => cases hstep
  | iputTruncate p ino =>
      dsimp only at hstep
      split at hstep
      next ip opened hphase =>
        have hip : ip ∈ (s.phase p).claimed := by
          rw [hphase]
          cases opened <;> exact List.mem_cons_self
        split at hstep
        next => exact hgo hstep (h.write hip (hphase ▸ rfl) _ _ ino)
        next => cases hstep
      next => cases hstep
  | iputEnd p =>
      dsimp only at hstep
      split at hstep
      next ip hphase =>
        have hip := h.owns p ip (hphase ▸ List.mem_cons_self)
        exact hgo hstep (h.goto ((hstart p).unlock hip) nofun List.nodup_nil)
      next ip jp hphase =>
        have hip := h.owns p ip (hphase ▸ List.mem_cons_self)
        have hjp := h.owns p jp (hphase ▸ List.mem_cons_of_mem _ List.mem_cons_self)
        have hne : jp ≠ ip := by
          have hnodup := h.distinct p
          rw [hphase] at hnodup
          rintro rfl
          exact (List.nodup_cons.mp hnodup).1 List.mem_cons_self
        refine hgo hstep (h.goto (((hstart p).unlock hip).unlock ?_) nofun List.nodup_nil)
        rw [Segment.mutex_unlock, if_neg hne]
        exact hjp
      next => cases hstep
  | fileRead p ip =>
      dsimp only at hstep
      split at hstep
      next =>
        refine hgo hstep (h.goto (hstart p) (fun y hy => ?_) (List.nodup_singleton ip))
        exact List.mem_singleton.mp hy ▸ hsafe
      next => cases hstep
  | readEnd p ino =>
      dsimp only at hstep
      split at hstep
      next ip hphase => exact hgo hstep (h.writeUnlock (hphase ▸ List.mem_cons_self) _ _ ino)
      next => cases hstep
  | fileWrite p ip =>
      dsimp only at hstep
      split at hstep
      next =>
        refine hgo hstep (h.goto (hstart p) (fun y hy => ?_) (List.nodup_singleton ip))
        exact List.mem_singleton.mp hy ▸ hsafe
      next => cases hstep
  | createBlock p ino =>
      dsimp only at hstep
      split at hstep
      next ip hphase =>
        exact hgo hstep (h.write (hphase ▸ List.mem_cons_self) (hphase ▸ rfl) _ _ ino)
      next => cases hstep
  | writeEnd p ino =>
      dsimp only at hstep
      split at hstep
      next ip hphase => exact hgo hstep (h.writeUnlock (hphase ▸ List.mem_cons_self) _ _ ino)
      next => cases hstep
  | nameiStart p ip =>
      dsimp only at hstep
      split at hstep
      next =>
        exact hgo hstep (h.goto ((hstart p).change (mutexLocked_eq_false.mp hsafe) _ _ _) nofun
          List.nodup_nil)
      next => cases hstep
  | newFile p ip links ino =>
      dsimp only at hstep
      split at hstep
      next =>
        exact hgo hstep (h.goto ((hstart p).change (mutexLocked_eq_false.mp hsafe) _ _ _) nofun
          List.nodup_nil)
      next => cases hstep
  | newLarge p ip behind => exact hsafe.elim
  | openFound p ip base =>
      dsimp only at hstep
      split at hstep
      next =>
        refine hgo hstep (h.goto (hstart p) (fun y hy => ?_) (List.nodup_singleton ip))
        exact List.mem_singleton.mp hy ▸ hsafe
      next => cases hstep
  | openTruncate p ino =>
      dsimp only at hstep
      split at hstep
      next ip base hphase =>
        exact hgo hstep (h.write (hphase ▸ List.mem_cons_self) (hphase ▸ rfl) _ _ ino)
      next => cases hstep
  | openEnd p =>
      dsimp only at hstep
      split at hstep
      next ip base hphase =>
        have hip := h.owns p ip (hphase ▸ List.mem_cons_self)
        split at hstep
        next => exact hgo hstep (h.goto ((hstart p).unlock hip) nofun List.nodup_nil)
        next hne =>
          split at hstep
          next => cases hstep
          next g hg =>
            obtain ⟨hfair, hbase, hsame⟩ := (hstart p).iputStart (hsafe ip base hphase hne) hg
            refine hgo hstep (h.putOrGo hfair hbase ?_)
            intro jp hjp
            obtain rfl : ip = jp := Option.some.inj hjp
            exact ⟨Ne.symm hne, (hsame ip (Ne.symm hne)).trans hip⟩
      next => cases hstep

theorem Inv.ownedRun (h : Inv s) (hsafe : s.SafeRun evs) : s.OwnedRun evs := by
  induction evs generalizing s with
  | nil => trivial
  | cons ev evs ih =>
      intro s' es hstep
      obtain ⟨hinv, hallowed⟩ := h.step hsafe.1 hstep
      exact ⟨hallowed, ih hinv (hsafe.2 s' es hstep)⟩

/-! ## Calls without the lock -/

theorem System.OwnedRun.rest {fs : List Event} (h : s.OwnedRun (evs ++ fs))
    (hrun : s.run evs = some s') : s'.OwnedRun fs := by
  induction evs generalizing s with
  | nil => exact Option.some.inj hrun ▸ h
  | cons ev evs ih =>
      obtain ⟨r, hstep, hrest⟩ := Option.bind_eq_some_iff.mp hrun
      exact ih (h r.1 r.2 hstep).2 hrest

theorem mem_effects_putOrGo {e : Effect} (he : e ∈ g.effects) : e ∈ (s.putOrGo p ip none g).2 := by
  unfold System.putOrGo
  split
  next => exact he
  next => exact List.mem_append_left _ he

/-- A put of an inode whose mutex another process owns takes its count down. -/
theorem not_ownedRun_iput (hrunning : s.phase p = .running)
    (hlocked : mutexLocked (s.inodes ip).iMutex p = true) (hcount : (s.inodes ip).iCount ≠ 0) :
    ¬s.OwnedRun [.iput p ip] := by
  intro h
  have hput : s.start.iputStart p ip = .ok ((s.start.setMutex ip (s.inodes ip).iMutex).setCount ip
      ((s.inodes ip).iCount - 1)) := by
    unfold Segment.iputStart System.start
    dsimp only
    rw [hlocked, if_pos rfl]
    exact if_neg hcount
  have hstep : s.step (.iput p ip) = some (s.putOrGo p ip none
      ((s.start.setMutex ip (s.inodes ip).iMutex).setCount ip ((s.inodes ip).iCount - 1))) := by
    unfold System.step
    dsimp only
    rw [if_pos hrunning, hput]
  have hself : ((s.start.setMutex ip (s.inodes ip).iMutex).inodes ip).iMutex =
      (s.inodes ip).iMutex := (Segment.mutex_setMutex _ _ _ ip).trans (if_pos rfl)
  have hmem : (⟨ip, false, (s.inodes ip).iMutex⟩ : Effect) ∈
      ((s.start.setMutex ip (s.inodes ip).iMutex).setCount ip
        ((s.inodes ip).iCount - 1)).effects := by
    unfold Segment.setCount Segment.change
    dsimp only
    rw [hself]
    exact List.mem_append_right _ List.mem_cons_self
  have hallowed := (h _ _ hstep).1 _ (mem_effects_putOrGo hmem)
  exact Bool.false_ne_true (hallowed.symm.trans hlocked)

/-- A path which starts at an inode whose mutex another process owns takes its count up. -/
theorem not_ownedRun_nameiStart (hrunning : s.phase p = .running)
    (hlocked : mutexLocked (s.inodes ip).iMutex p = true) : ¬s.OwnedRun [.nameiStart p ip] := by
  intro h
  have hstep : s.step (.nameiStart p ip) = some (s.goto p (s.start.setCount ip
      ((s.inodes ip).iCount + 1)) .running) := if_pos hrunning
  have hmem : (⟨ip, false, (s.inodes ip).iMutex⟩ : Effect) ∈
      (s.start.setCount ip ((s.inodes ip).iCount + 1)).effects :=
    List.mem_append_right _ List.mem_cons_self
  have hallowed := (h _ _ hstep).1 _ hmem
  exact Bool.false_ne_true (hallowed.symm.trans hlocked)

/-- A call which ends with an unlock of an inode that it does not own. -/
theorem not_ownedRun_unlock {start finish : Event} {x : Phase} (hnot : ¬s.Owns p ip)
    (hprocess : finish.process = p) (hstart : s.step start = some (s.goto p s.start x))
    (hfinish : ∃ r, (s.goto p s.start x).1.step finish = some r ∧
      ⟨ip, true, (s.inodes ip).iMutex⟩ ∈ r.2) : ¬s.OwnedRun [start, finish] := by
  intro h
  obtain ⟨r, hstep, hmem⟩ := hfinish
  have hallowed := (((h _ _ hstart).2) _ _ hstep).1 _ hmem
  rw [hprocess] at hallowed
  exact hnot hallowed

theorem phase_goto (s : System) (p : ℕ) (g : Segment) (x : Phase) :
    (s.goto p g x).1.phase p = x :=
  (Function.update_apply s.phase p x p).trans (if_pos rfl)

theorem mem_effects_unlock (g : Segment) (ip : ℕ) :
    ⟨ip, true, (g.inodes ip).iMutex⟩ ∈ (g.unlock ip).effects :=
  List.mem_append_right _ List.mem_cons_self

theorem not_ownedRun_fileRead (hrunning : s.phase p = .running) (hnot : ¬s.Owns p ip) (ino : ℕ) :
    ¬s.OwnedRun [.fileRead p ip, .readEnd p ino] := by
  refine not_ownedRun_unlock (x := .reading ip) hnot rfl (if_pos hrunning) ?_
  unfold System.step
  dsimp only
  rw [phase_goto]
  refine ⟨_, rfl, ?_⟩
  have hmem := mem_effects_unlock ((s.goto p s.start (.reading ip)).1.start.setIno ip ino) ip
  have hmutex : (((s.goto p s.start (.reading ip)).1.start.setIno ip ino).inodes ip).iMutex =
      (s.inodes ip).iMutex := Segment.mutex_change _ _ _ _ _ ip
  rwa [hmutex] at hmem

theorem not_ownedRun_fileWrite (hrunning : s.phase p = .running) (hnot : ¬s.Owns p ip) (ino : ℕ) :
    ¬s.OwnedRun [.fileWrite p ip, .writeEnd p ino] := by
  refine not_ownedRun_unlock (x := .writing ip) hnot rfl (if_pos hrunning) ?_
  unfold System.step
  dsimp only
  rw [phase_goto]
  refine ⟨_, rfl, ?_⟩
  have hmem := mem_effects_unlock ((s.goto p s.start (.writing ip)).1.start.setIno ip ino) ip
  have hmutex : (((s.goto p s.start (.writing ip)).1.start.setIno ip ino).inodes ip).iMutex =
      (s.inodes ip).iMutex := Segment.mutex_change _ _ _ _ _ ip
  rwa [hmutex] at hmem

/-- Locks are released, and inodes changed, by their owners in every run whose calls have the
locks they rely on.  A put of an inode which another process owns, a path which starts there, and a
read or a write by a process which does not own the inode, break this by the time they end. -/
theorem owned_of_safeRun (s : System) (evs : List Event) (hrunning : ∀ p, s.phase p = .running) :
    (s.SafeRun evs → s.OwnedRun evs) ∧
      ∀ s' p ip, s.run evs = some s' → s'.phase p = .running →
        (mutexLocked (s'.inodes ip).iMutex p = true → (s'.inodes ip).iCount ≠ 0 →
          ¬s.OwnedRun (evs ++ [.iput p ip])) ∧
        (mutexLocked (s'.inodes ip).iMutex p = true → ¬s.OwnedRun (evs ++ [.nameiStart p ip])) ∧
        (¬s'.Owns p ip → ∀ ino, ¬s.OwnedRun (evs ++ [.fileRead p ip, .readEnd p ino]) ∧
          ¬s.OwnedRun (evs ++ [.fileWrite p ip, .writeEnd p ino])) := by
  refine ⟨(Inv.of_running hrunning).ownedRun, ?_⟩
  intro s' p ip hrun hp
  refine ⟨fun hlocked hcount h => ?_, fun hlocked h => ?_, fun hnot ino =>
    ⟨fun h => ?_, fun h => ?_⟩⟩
  · exact not_ownedRun_iput hp hlocked hcount (h.rest hrun)
  · exact not_ownedRun_nameiStart hp hlocked (h.rest hrun)
  · exact not_ownedRun_fileRead hp hnot ino (h.rest hrun)
  · exact not_ownedRun_fileWrite hp hnot ino (h.rest hrun)

/-- Every process runs, and no inode is in use. -/
def System.init : System where
  inodes _ := ⟨mutexUnlock, 0, 1, 0⟩
  phase _ := .running

/-- Process 1 starts a path at inode 9, gets an inode and reads it. -/
theorem owned_of_safeRun_once :
    System.init.OwnedRun [.nameiStart 1 9, .igetTake 1 0, .igetLoaded 1 1 0, .fileRead 1 0,
      .readEnd 1 3] := by
  refine (owned_of_safeRun System.init _ fun _ => rfl).1 ?_
  refine ⟨rfl, fun s₀ es₀ h₀ => ⟨trivial, fun s₁ es₁ h₁ => ⟨trivial, fun s₂ es₂ h₂ => ⟨?_,
    fun s₃ es₃ _ => ⟨trivial, fun _ _ _ => trivial⟩⟩⟩⟩⟩
  cases h₀
  cases h₁
  cases h₂
  rfl

/-- Process 1 has opened file 0 of directory 1, which process 2 is opening, and reads it: at its
end `file_read` unlocks what process 2 owns. -/
theorem not_owned_read :
    ¬∀ (s : System) (evs : List Event), (∀ p, s.phase p = .running) → s.OwnedRun evs := by
  intro h
  have hrun := h System.init [.nameiStart 1 9, .igetTake 1 1, .igetLoaded 1 2 0, .igetTake 1 0,
    .igetLoaded 1 1 0, .openFound 1 0 1, .openEnd 1, .iputEnd 1, .nameiStart 2 9, .igetFound 2 0,
    .fileRead 1 0, .readEnd 1 3] fun _ => rfl
  obtain ⟨-, hrun⟩ := hrun _ _ rfl
  obtain ⟨-, hrun⟩ := hrun _ _ rfl
  obtain ⟨-, hrun⟩ := hrun _ _ rfl
  obtain ⟨-, hrun⟩ := hrun _ _ rfl
  obtain ⟨-, hrun⟩ := hrun _ _ rfl
  obtain ⟨-, hrun⟩ := hrun _ _ rfl
  obtain ⟨-, hrun⟩ := hrun _ _ rfl
  obtain ⟨-, hrun⟩ := hrun _ _ rfl
  obtain ⟨-, hrun⟩ := hrun _ _ rfl
  obtain ⟨-, hrun⟩ := hrun _ _ rfl
  obtain ⟨-, hrun⟩ := hrun _ _ rfl
  obtain ⟨hallowed, -⟩ := hrun _ _ rfl
  have hunlock := hallowed ⟨0, true, taken 2⟩ (List.mem_cons_of_mem _ List.mem_cons_self)
  cases hunlock

end Yak.InodeLocks
