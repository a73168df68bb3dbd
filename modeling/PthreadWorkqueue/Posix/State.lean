import PthreadWorkqueue.Concurrency.Machine
import Mathlib.Algebra.Group.Nat.Defs

/-! The library's memory: work items, work queues, the two pools and the scoreboard.
Thread counters are natural numbers: a unit of one is a thread, or a creation that failed, and
neither comes in 2^32. A decrement at zero wraps as the 32-bit counter does. `about_to_wait` and the
semaphore count calls instead: the one wraps both ways, the other stays at its maximum. -/
namespace PthreadWorkqueue.Posix

abbrev Tid := Nat
abbrev QId := Nat

/-- PTHREAD_WORKQUEUE_MAX: the slots of each registry. -/
def pthreadWorkqueueMax : Nat := 31
/-- WORKQ_NUM_PRIOQUEUE: the priorities that an attribute may name. -/
def workqNumPrioqueue : Nat := 6
/-- WORKQ_DEFAULT_PRIOQUEUE. -/
def workqDefaultPrioqueue : Nat := 1
/-- PTHREAD_WORKQUEUE_SIG. -/
def pthreadWorkqueueSig : Nat := 0xBEBEBEBE
/-- PTHREAD_WORKQUEUE_ATTR_SIG. -/
def pthreadWorkqueueAttrSig : Nat := 0xBEBEBEBE
/-- WORKER_IDLE_SECONDS_THRESHOLD. -/
def workerIdleSecondsThreshold : Nat := 15

/-- SEM_VALUE_MAX. -/
def semValueMax : Nat := 2147483647

def eagain : Nat := 11
def enomem : Nat := 12
def einval : Nat := 22
def etimedout : Nat := 110

/-- A `struct work`. `addr` names the allocation: every `witem_alloc` makes a new one. A null
`func` marks a worker's exit. The links of the item are the order of the list it is in. -/
structure Work where
  addr : Nat
  func : Option Nat
  funcArg : Nat
  flags : Nat
  gencount : Nat
  deriving DecidableEq, Repr

/-- A `struct _pthread_workqueue`; `mtx` is its spin lock, with the thread that holds it. -/
structure Workq where
  sig : Nat
  flags : Nat
  queueprio : Nat
  overcommit : Bool
  wqlistIndex : Nat
  itemListhead : List Work
  mtx : Option Tid
  deriving DecidableEq, Repr

def Workq.relist (l : List Work) (wq : Workq) : Workq := { wq with itemListhead := l }

/-- One queue gets another item list. -/
theorem set_relist {qs : List Workq} {q : QId} {wq : Workq} {L : QId → List Work}
    (hq : qs[q]? = some wq) (l : List Work) :
    (qs.mapIdx fun r wq => wq.relist (L r)).set q (wq.relist l) =
      qs.mapIdx fun r wq => wq.relist (Function.update L q l r) := by
  have hl := (List.getElem?_eq_some_iff.mp hq).1
  refine List.ext_getElem? fun r => ?_
  rw [List.getElem?_mapIdx]
  by_cases hr : q = r
  · subst hr
    rw [List.getElem?_set_self (by simpa using hl), hq, Function.update_self]
    rfl
  · rw [List.getElem?_set_ne hr, List.getElem?_mapIdx, Function.update_of_ne (Ne.symm hr)]

/-- A `pthread_workqueue_attr_t`. -/
structure Attr where
  sig : Nat
  queueprio : Int
  overcommit : Int
  deriving DecidableEq, Repr

/-- How the process can end. -/
inductive Halt where
  | abort
  | useAfterFree
  | doubleFree
  | nullQueue
  | nullFunc
  deriving DecidableEq, Repr

/-- The globals of `manager.c`, fixed by `_manager_init_common` and the environment. -/
structure Settings where
  cpuCount : Nat
  workerMin : Nat
  workerIdleThreshold : Nat
  pwqSpinThreads : Nat
  pwqRtThreads : Bool
  deriving DecidableEq, Repr

structure Shared where
  /-- Set once the process has died. -/
  halted : Option Halt
  /-- One entry for every allocated item: whether it is still allocated. -/
  heap : List Bool
  /-- Every queue object that was allocated. -/
  queues : List Workq
  /-- The queues whose handles `pthread_workqueue_create_np` has returned. -/
  handles : List QId
  wqlist : Nat → Option QId
  wqlistMask : BitVec 32
  wqlistMtx : Option Tid
  /-- The wait set of the condition variable `wqlist_has_work`. -/
  wqlistHasWork : List Tid
  wqlistHasManager : Bool
  pendingThreadCreate : Nat
  currentThreadsSpinning : Nat
  runqueueLength : Nat
  count : Nat
  aboutToWait : Nat
  idle : Nat
  sbSem : Nat
  sbSuspend : Bool
  ocwq : Nat → Option QId
  ocwqMask : BitVec 32
  ocwqMtx : Option Tid
  /-- The wait set of the condition variable `ocwq_has_work`. -/
  ocwqHasWork : List Tid
  ocwqIdleThreads : Nat
  ocwqSignalCount : Nat

/-- `sem_post`, which fails at the maximum; its callers do not look at the result. -/
def semPost (n : Nat) : Nat := if n < semValueMax then n + 1 else n

theorem le_semPost (n : Nat) : n ≤ semPost n := by
  unfold semPost
  split
  · exact Nat.le_succ n
  · exact Nat.le_refl n

theorem semPost_pos (n : Nat) : 0 < semPost n := by
  unfold semPost
  split
  · exact Nat.succ_pos n
  · rename_i h
    exact Nat.lt_of_lt_of_le (by decide) (Nat.le_of_not_lt h)

theorem semPost_min (n : Nat) : semPost (min n semValueMax) = min (n + 1) semValueMax := by
  unfold semPost
  split
  · omega
  · omega

/-- What the environment of the process says, as `pthread_workqueue_init_np` and
`_manager_init_common` read it. -/
structure Environment where
  pwqRtThreads : Bool
  pwqActiveCpu : Nat
  pwqSpinThreads : Nat
  pwqWmin : Option Nat
  threadEntitledCpus : Nat

def workerIdleThresholdPerCpu (cpuCount : Nat) : Nat :=
  match cpuCount with
  | 0 | 1 | 2 | 4 => 2
  | 6 => 4
  | 8 | 12 => 6
  | 16 | 24 => 8
  | 32 | 64 => 12
  | n => n / 4

/-- The pool constraints that `_manager_init_common` computes. -/
def Environment.settings (e : Environment) : Settings :=
  let cpuCount := if 0 < e.pwqActiveCpu then e.pwqActiveCpu else e.threadEntitledCpus
  { cpuCount
    workerMin := e.pwqWmin.getD (if 1 < cpuCount then cpuCount else 2)
    workerIdleThreshold :=
      if 0 < e.pwqActiveCpu then e.pwqActiveCpu else workerIdleThresholdPerCpu cpuCount
    pwqSpinThreads := e.pwqSpinThreads
    pwqRtThreads := e.pwqRtThreads }

/-- The memory after `manager_init`: nothing is registered and no thread is running. -/
def managerInit : Shared where
  halted := none
  heap := []
  queues := []
  handles := []
  wqlist := fun _ => none
  wqlistMask := 0
  wqlistMtx := none
  wqlistHasWork := []
  wqlistHasManager := false
  pendingThreadCreate := 0
  currentThreadsSpinning := 0
  runqueueLength := 0
  count := 0
  aboutToWait := 0
  idle := 0
  sbSem := 0
  sbSuspend := false
  ocwq := fun _ => none
  ocwqMask := 0
  ocwqMtx := none
  ocwqHasWork := []
  ocwqIdleThreads := 0
  ocwqSignalCount := 0

/-- What an observer of a run sees; the thread that acts comes first. -/
inductive Event where
  | alloc (t : Tid) (w : Work)
  | accept (t : Tid) (q : QId) (w : Work)
  | post (t : Tid) (q : QId) (w : Work)
  | readMask (t : Tid)
  | dequeue (t : Tid) (q : QId) (w : Work)
  | invoke (t : Tid) (w : Work) (func : Nat) (arg : Nat)
  | free (t : Tid) (w : Work)
  | returned (t : Tid) (code : Nat)
  | workerCreateFailed (t : Tid)
  deriving DecidableEq, Repr

/-- A call of the library by application code. -/
inductive Request where
  | additem (q : QId) (func : Option Nat) (arg : Nat)
  | create (attr : Option Attr)
  | suspend
  | resume
  | signal
  deriving DecidableEq, Repr

/-- The choices that are not the library's: the scheduler's, the system's and the caller's. -/
inductive Choice where
  | go
  /-- Application code calls the library. -/
  | request (r : Request)
  /-- The threads that `pthread_cond_signal` takes out of the wait set. -/
  | wake (woken : List Tid)
  /-- A waiting thread leaves the wait set by itself: a timeout or a spurious wakeup. -/
  | leave
  /-- The result of a system call; zero is success. -/
  | ret (code : Nat)
  /-- A number that the system reports. -/
  | value (n : Nat)
  deriving DecidableEq, Repr

/-- `atomic_inc` of a thread counter. -/
def atomicInc (n : Nat) : Nat := n + 1

/-- `atomic_inc` of an unsigned counter. -/
def atomicIncUnsigned (n : Nat) : Nat := (n + 1) % 2 ^ 32

/-- `atomic_dec` of an unsigned counter. -/
def atomicDec (n : Nat) : Nat := if n = 0 then 2 ^ 32 - 1 else n - 1

/-- The mask with only bit `i`. -/
def indexBit (i : Nat) : BitVec 32 := 1#32 <<< i

/-- `ffs`: one plus the least set bit, zero if there is none. -/
def ffs (m : BitVec 32) : Nat :=
  match (List.range 32).find? (fun i => m.getLsbD i) with
  | some i => i + 1
  | none => 0

/-- `pthread_cond_signal` takes at least one thread out of a wait set that has one. -/
def signalled (woken waiters : List Tid) : Bool :=
  waiters.isEmpty || waiters.any (fun u => woken.contains u)

def wakeUp (woken waiters : List Tid) : List Tid :=
  waiters.filter (fun u => !woken.contains u)

namespace Shared

def setQueue (sh : Shared) (q : QId) (w : Workq) : Shared :=
  { sh with queues := sh.queues.set q w }

def halt (sh : Shared) (h : Halt) : Shared := { sh with halted := some h }

def live (sh : Shared) (w : Work) : Bool := sh.heap[w.addr]? == some true

/-- `witem_alloc`, which retries until `malloc` succeeds. -/
def witemAlloc (sh : Shared) (func : Option Nat) (arg : Nat) : Shared × Work :=
  ({ sh with heap := sh.heap ++ [true] }, ⟨sh.heap.length, func, arg, 0, 0⟩)

/-- `witem_free`; freeing an item twice ends the process. -/
def witemFree (sh : Shared) (w : Work) : Shared :=
  if sh.live w then { sh with heap := sh.heap.set w.addr false } else sh.halt .doubleFree

end Shared

section WitemFree
variable (sh : Shared) (w : Work)

/-- Freeing an item touches the heap only, unless it ends the process. -/
theorem witemFree_eq : ∃ h x, sh.witemFree w = { sh with heap := h, halted := x } := by
  unfold Shared.witemFree
  split
  · exact ⟨_, sh.halted, rfl⟩
  · exact ⟨sh.heap, _, rfl⟩

@[simp] theorem witemFree_queues : (sh.witemFree w).queues = sh.queues := by
  unfold Shared.witemFree; split <;> rfl
@[simp] theorem witemFree_handles : (sh.witemFree w).handles = sh.handles := by
  unfold Shared.witemFree; split <;> rfl
@[simp] theorem witemFree_wqlist : (sh.witemFree w).wqlist = sh.wqlist := by
  unfold Shared.witemFree; split <;> rfl
@[simp] theorem witemFree_wqlistMask : (sh.witemFree w).wqlistMask = sh.wqlistMask := by
  unfold Shared.witemFree; split <;> rfl
@[simp] theorem witemFree_wqlistMtx : (sh.witemFree w).wqlistMtx = sh.wqlistMtx := by
  unfold Shared.witemFree; split <;> rfl
@[simp] theorem witemFree_wqlistHasWork : (sh.witemFree w).wqlistHasWork = sh.wqlistHasWork := by
  unfold Shared.witemFree; split <;> rfl
@[simp] theorem witemFree_ocwq : (sh.witemFree w).ocwq = sh.ocwq := by
  unfold Shared.witemFree; split <;> rfl
@[simp] theorem witemFree_ocwqMtx : (sh.witemFree w).ocwqMtx = sh.ocwqMtx := by
  unfold Shared.witemFree; split <;> rfl
@[simp] theorem witemFree_ocwqHasWork : (sh.witemFree w).ocwqHasWork = sh.ocwqHasWork := by
  unfold Shared.witemFree; split <;> rfl

end WitemFree
end PthreadWorkqueue.Posix
