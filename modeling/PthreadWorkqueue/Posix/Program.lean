import PthreadWorkqueue.Concurrency.Acts
import PthreadWorkqueue.Posix.Manager

/-! The whole library as one machine: application threads, the workers of both pools and the
manager take turns. -/
namespace PthreadWorkqueue.Posix
open Concurrency

abbrev PoolState := Config Shared Thread
abbrev PoolAct := Act Shared Thread Choice

/-- Application code calls the library, or a callback returns to its worker. -/
def appNext (sh : Shared) (k : Caller) : Choice → Option Out
  | .request r => (r.enter sh).bind fun c => goTo sh (.call k c)
  | .go => match k with
    | .user => none
    | .worker v w => goTo sh (.worker v (.incIdle w))
    | .overcommit _ => goTo sh (.overcommit .lock)
  | _ => none

/-- The program: no thread moves once the process has died. -/
def program (S : Settings) : Machine Shared Thread Choice Event := fun sh t p ch =>
  if sh.halted = none then
    match p with
    | .app k => appNext sh k ch
    | .call k c => callNext sh t k c ch
    | .worker v p => workerNext S sh t v p ch
    | .overcommit p => overcommitNext sh t p ch
    | .manager v p => managerNext S sh t v p ch
  else none

/-- A process after `manager_init` with `users` threads of the application. The library itself
starts no manager before the first queue; `managers` further ones let `worker_stop` be run by any
number of threads. -/
def initial (users managers : Nat) : PoolState :=
  ⟨managerInit, List.replicate users (.app .user) ++ List.replicate managers .managerMain⟩

/-- A thread that is about to call `pthread_create`. -/
def Thread.creates : Thread → Bool
  | .call _ (.managerStart _) | .call _ (.ocAdd _ _ .decide) | .manager _ (.start _ .create) => true
  | _ => false

/-- Every `pthread_create` succeeds. -/
def createsSucceed (c : PoolState) (l : Tid × Choice) : Bool :=
  match c.threads[l.1]?, l.2 with
  | some p, .ret code => !p.creates || code == 0
  | _, _ => true

theorem createsSucceed_ret {c : PoolState} {p : Thread} {l : Tid × Choice} (h : createsSucceed c l = true)
    (hp : c.threads[l.1]? = some p) : ∀ code, l.2 = .ret code → p.creates = true → code = 0 := by
  intro code hc hcr
  simpa [createsSucceed, hp, hc, hcr] using h

/-! Schedules -/

/-- A thread takes some steps that leave nothing to choose. -/
def steps (t : Tid) (n : Nat) : List (Tid × Choice) := List.replicate n (t, .go)

/-- A thread creates a queue that starts the manager. -/
def createFirst (t : Tid) (prio : Int) : List (Tid × Choice) :=
  [(t, .request (.create (some ⟨pthreadWorkqueueAttrSig, prio, 0⟩))), (t, .go), (t, .ret 0)] ++
    steps t 2 ++ [(t, .ret 0)] ++ steps t 3

/-- A thread creates a queue that needs no manager. -/
def createNextQueue (t : Tid) (prio overcommit : Int) : List (Tid × Choice) :=
  [(t, .request (.create (some ⟨pthreadWorkqueueAttrSig, prio, overcommit⟩))), (t, .go), (t, .ret 0)] ++
    steps t 4

/-- The new manager starts its first worker. -/
def startWorker (t : Tid) : List (Tid × Choice) := steps t 3 ++ [(t, .ret 0)]

/-- A tick of the timer that finds workers idle. -/
def idleTick (t : Tid) : List (Tid × Choice) := [(t, .go), (t, .ret etimedout)] ++ steps t 3

/-- A tick after which the manager stops a worker, which it wakes. -/
def stopTick (t worker : Tid) : List (Tid × Choice) :=
  idleTick t ++ steps t 9 ++ [(t, .wake [worker]), (t, .go)]

end PthreadWorkqueue.Posix
