import PthreadWorkqueue.Posix.State

/-! The program points of the library's functions. A constructor names the access to shared
memory that its thread makes next; the tests on local variables belong to the step before. -/
namespace PthreadWorkqueue.Posix

/-- The local variables of `worker_main` that survive an iteration. -/
structure WorkerVars where
  queuePriority : Nat
  currentThreadPriority : Nat
  deriving DecidableEq, Repr

/-- Application code: a thread of the user, or a callback that a worker runs. -/
inductive Caller where
  | user
  | worker (v : WorkerVars) (w : Work)
  | overcommit (w : Work)
  deriving DecidableEq, Repr

/-- `manager_workqueue_additem`, non-overcommit branch. -/
inductive AddPc where
  | spinLock | testEmpty | atomicOr | insert | spinUnlock | readIdle | lockMtx | signal | unlockMtx
  deriving DecidableEq, Repr

/-- `manager_workqueue_additem`, overcommit branch. -/
inductive OcAddPc where
  | lockMtx | spinLock | insert | spinUnlock | decide | unlockMtx
  deriving DecidableEq, Repr

/-- The calls of application code into the library. -/
inductive Call where
  /- pthread_workqueue_additem_np -/
  | check (q : QId) (func : Option Nat) (arg : Nat)
  | alloc (q : QId) (func : Nat) (arg : Nat)
  | handle (q : QId) (w : Work)
  | add (q : QId) (w : Work) (p : AddPc)
  | ocAdd (q : QId) (w : Work) (p : OcAddPc)
  /- pthread_workqueue_create_np -/
  | createCheck (attr : Option Attr)
  | createAlloc (attr : Option Attr)
  | createLock (q : QId)
  | createManager (q : QId)
  | managerStart (q : QId)
  | managerSet (q : QId)
  | createRegister (q : QId)
  | createUnlock (q : QId)
  /- manager_suspend, manager_resume, manager_signal -/
  | suspendWait | suspendRead | suspendStore
  | resumeRead | resumeStore | resumePost
  | signalStore | signalInc | signalPost
  deriving DecidableEq, Repr

/-- The three callers of `wqlist_scan`: `worker_main` itself, `wqlist_scan_spin` and
`wqlist_scan_wait`. -/
inductive ScanKind where
  | fast | spin | wait
  deriving DecidableEq, Repr

/-- The argument `skip_thread_exit_events` of the three calls. -/
def ScanKind.skipThreadExitEvents : ScanKind → Bool
  | .fast | .spin => true
  | .wait => false

/-- `wqlist_scan`. -/
inductive ScanPc where
  | readMask
  | readSlot (idx : Nat)
  | lock (q : QId)
  | first (q : QId)
  | remove (q : QId) (w : Work)
  | clear (q : QId) (w : Work)
  | unlock (q : QId) (r : Option Work)
  deriving DecidableEq, Repr

/-- `worker_main`, with `wqlist_scan_spin` and `wqlist_scan_wait`. -/
inductive WorkerPc where
  | start
  | scan (k : ScanKind) (p : ScanPc)
  | spinEnter
  | spinReadIdle (w : Work)
  | spinPost (w : Work)
  | spinLeave (r : Option Work)
  | waitLock
  | condWait
  | waiting
  | waitUnlock (w : Work)
  | waitReadIdle (w : Work)
  | waitPost (w : Work)
  | waitTest (w : Work)
  | exitDecIdle (w : Work)
  | exitDecCount (w : Work)
  | exitFree (w : Work)
  | exited
  | decIdle (w : Work)
  | invoke (w : Work)
  | incIdle (w : Work)
  | free (w : Work)
  deriving DecidableEq, Repr

/-- `overcommit_worker_main`. -/
inductive OcPc where
  | lock
  | scan
  | unlock (w : Work)
  | fetch (w : Work)
  | free (w : Work) (func : Option Nat) (arg : Nat)
  | call (w : Work) (func : Option Nat) (arg : Nat)
  | timedwait
  | unlockExit
  | cleanup
  | exited
  deriving DecidableEq, Repr

/-- `worker_start`. -/
inductive StartPc where
  | incPending | incIdle | incCount | create | decIdle | decCount
  deriving DecidableEq, Repr

/-- `worker_stop`. -/
inductive StopPc where
  | alloc
  | lockMtx (w : Work)
  | find (w : Work) (i : Nat)
  | spinLock (w : Work) (q : QId)
  | atomicOr (w : Work) (q : QId)
  | insert (w : Work) (q : QId)
  | spinUnlock (q : QId)
  | signal
  | unlockMtx
  deriving DecidableEq, Repr

/-- `manager_main`. A `worker_start` returns to the `worker_min` loop at the number given, or to
the top of the main loop. -/
inductive ManagerPc where
  | begin
  | beginRunqueue
  | start (ret : Option Nat) (p : StartPc)
  | top
  | timedWait
  | semWait
  | readIdle
  | readCount
  | readPending
  | readAbout
  | decAbout
  | readThreshold
  | readMax
  | runnable
  | runqueue
  | readIdleAgain
  | rampRead
  | rampAdd
  | rampSurplus (m : Nat)
  | stopRead (i m : Nat)
  | stop (i m : Nat) (p : StopPc)
  deriving DecidableEq, Repr

/-- The local variables of `manager_main` that survive an iteration. -/
structure ManagerVars where
  workerMax : Nat
  currentThreadCount : Nat
  workerIdleSecondsAccumulated : Nat
  semTimedwaitRv : Nat
  deriving DecidableEq, Repr

inductive Thread where
  | app (k : Caller)
  | call (k : Caller) (c : Call)
  | worker (v : WorkerVars) (p : WorkerPc)
  | overcommit (p : OcPc)
  | manager (v : ManagerVars) (p : ManagerPc)
  deriving DecidableEq, Repr

def WorkerVars.initial : WorkerVars := ⟨workqDefaultPrioqueue, workqDefaultPrioqueue⟩
def ManagerVars.initial : ManagerVars := ⟨0, 0, 0, 0⟩

namespace Thread
/-- The three entry points that the library gives to `pthread_create`. -/
def workerMain : Thread := .worker WorkerVars.initial .start
def overcommitWorkerMain : Thread := .overcommit .lock
def managerMain : Thread := .manager ManagerVars.initial .begin
end Thread

abbrev Out := Concurrency.Outcome Shared Thread Event

/-- A step that starts no thread and shows nothing. -/
def goTo (sh : Shared) (p : Thread) : Option Out := some ⟨sh, p, [], []⟩
/-- A step that an observer sees. -/
def emit (sh : Shared) (p : Thread) (e : Event) : Option Out := some ⟨sh, p, [], [e]⟩
/-- A step that starts a thread. -/
def spawn (sh : Shared) (p q : Thread) : Option Out := some ⟨sh, p, [q], []⟩

end PthreadWorkqueue.Posix
