import PthreadWorkqueue.Posix.Api

/-! The legacy manager of Windows (`PROVIDE_LEGACY_XP_SUPPORT`): the system's thread pool runs one
`worker_main` for every item, which takes the first item that its scan of the queues meets. The entry
points of `api.c` and the objects that they make are those of the other platforms. An insertion and the
look at a queue are one step each, as they are under a lock that keeps the others out; `linkedProgram`
runs them statement by statement. -/
namespace PthreadWorkqueue.Windows
open Concurrency
open Posix (Work Workq Attr Tid QId validAttr validWorkq newWorkq workqNumPrioqueue einval enomem
  pthreadWorkqueueAttrSig)

structure Shared where
  /-- Set once `abort` was called. -/
  aborted : Bool
  /-- The number of items that were allocated. -/
  heap : Nat
  /-- Every queue object that was allocated. -/
  queues : List Workq
  /-- The queues whose handles `pthread_workqueue_create_np` has returned. -/
  handles : List QId
  /-- The lists of the priorities. -/
  wqlist : Nat → List QId
  /-- The lock `wqlist_mtx`: its readers, and whether there is a writer. -/
  readers : Nat
  writer : Bool

inductive Event where
  | alloc (t : Tid) (w : Work)
  | insert (t : Tid) (q : QId) (w : Work)
  | invoke (t : Tid) (w : Work)
  | free (t : Tid) (w : Work)
  | returned (t : Tid) (code : Nat)
  deriving DecidableEq, Repr

inductive Request where
  | additem (q : QId) (func : Option Nat) (arg : Nat)
  | create (attr : Option Attr)
  deriving DecidableEq, Repr

/-- The choices that are not the library's. -/
inductive Choice where
  | go
  | request (r : Request)
  /-- Whether the call of the system succeeds. -/
  | ok (b : Bool)
  deriving DecidableEq, Repr

/-- Application code: a thread of the user, or a callback that a worker runs. -/
inductive Caller where
  | user
  | worker (w : Work)
  deriving DecidableEq, Repr

/-- The calls of application code into the library. -/
inductive Call where
  /- pthread_workqueue_additem_np, manager_workqueue_additem -/
  | check (q : QId) (func : Option Nat) (arg : Nat)
  | alloc (q : QId) (func : Nat) (arg : Nat)
  | lock (q : QId) (w : Work)
  | insert (q : QId) (w : Work)
  | unlock (q : QId)
  | submit
  /- pthread_workqueue_create_np, manager_workqueue_create -/
  | createCheck (attr : Option Attr)
  | createAlloc (attr : Option Attr)
  | wrlock (q : QId)
  | createInsert (q : QId)
  | wrunlock (q : QId)
  | spinInit (q : QId)
  deriving DecidableEq, Repr

/-- `worker_main`, with `wqlist_scan`: the queue at place `j` of the list of priority `i`. -/
inductive WorkerPc where
  | rdlock
  | visit (i j : Nat)
  | lock (i j : Nat) (q : QId)
  | look (i j : Nat) (q : QId)
  | unlock (i j : Nat) (q : QId) (r : Option Work)
  | rdunlock (r : Option Work)
  | call (w : Work)
  | free (w : Work)
  | exited
  deriving DecidableEq, Repr

inductive Thread where
  | app (k : Caller)
  | call (k : Caller) (x : Call)
  | worker (x : WorkerPc)
  deriving DecidableEq, Repr

/-- The entry point that the library gives to `QueueUserWorkItem`. -/
def Thread.workerMain : Thread := .worker .rdlock

abbrev Out := Outcome Shared Thread Event
abbrev PoolState := Config Shared Thread

def goTo (sh : Shared) (p : Thread) : Option Out := some ⟨sh, p, [], []⟩
def emit (sh : Shared) (p : Thread) (e : Event) : Option Out := some ⟨sh, p, [], [e]⟩

def Shared.setQueue (sh : Shared) (q : QId) (wq : Workq) : Shared :=
  { sh with queues := sh.queues.set q wq }

/-- LIST_INSERT_HEAD on the list of a priority. -/
def Shared.listInsertHead (sh : Shared) (i : Nat) (q : QId) : Shared :=
  { sh with wqlist := Function.update sh.wqlist i (q :: sh.wqlist i) }

/-- A call starts. A handle that the caller passes is one that it was given. -/
def Request.enter (sh : Shared) : Request → Option Call
  | .additem q f a => if q ∈ sh.handles then some (.check q f a) else none
  | .create attr => some (.createCheck attr)

def callNext (sh : Shared) (t : Tid) (k : Caller) (x : Call) (ch : Choice) : Option Out :=
  match x, ch with
  | .check q f a, .go => (sh.queues[q]?).bind fun wq =>
    match f with
    | some f => if validWorkq wq then goTo sh (.call k (.alloc q f a))
      else emit sh (.app k) (.returned t einval)
    | none => emit sh (.app k) (.returned t einval)
  | .alloc q f a, .go =>
    let w : Work := ⟨sh.heap, some f, a, 0, 0⟩
    emit { sh with heap := sh.heap + 1 } (.call k (.lock q w)) (.alloc t w)
  | .lock q w, .go => (sh.queues[q]?).bind fun wq =>
    if wq.mtx = none then goTo (sh.setQueue q { wq with mtx := some t }) (.call k (.insert q w))
    else none
  | .insert q w, .go => (sh.queues[q]?).bind fun wq =>
    emit (sh.setQueue q { wq with itemListhead := wq.itemListhead ++ [w] }) (.call k (.unlock q))
      (.insert t q w)
  | .unlock q, .go => (sh.queues[q]?).bind fun wq =>
    goTo (sh.setQueue q { wq with mtx := none }) (.call k .submit)
  | .submit, .ok b =>
    if b then some ⟨sh, .app k, [.workerMain], [.returned t 0]⟩
    else goTo { sh with aborted := true } (.call k .submit)
  | .createCheck attr, .go =>
    if validAttr attr then goTo sh (.call k (.createAlloc attr))
    else emit sh (.app k) (.returned t einval)
  | .createAlloc attr, .ok b =>
    if b then
      goTo { sh with queues := sh.queues ++ [newWorkq attr] } (.call k (.wrlock sh.queues.length))
    else emit sh (.app k) (.returned t enomem)
  | .wrlock q, .go =>
    if sh.readers = 0 ∧ sh.writer = false then
      goTo { sh with writer := true } (.call k (.createInsert q))
    else none
  | .createInsert q, .go => (sh.queues[q]?).bind fun wq =>
    goTo (sh.listInsertHead wq.queueprio q) (.call k (.wrunlock q))
  | .wrunlock q, .go => goTo { sh with writer := false } (.call k (.spinInit q))
  | .spinInit q, .go => (sh.queues[q]?).bind fun wq =>
    emit { sh.setQueue q { wq with mtx := none } with handles := sh.handles ++ [q] } (.app k)
      (.returned t 0)
  | _, _ => none

def workerNext (sh : Shared) (t : Tid) : WorkerPc → Choice → Option Out
  | .rdlock, .go =>
    if sh.writer = false then goTo { sh with readers := sh.readers + 1 } (.worker (.visit 0 0))
    else none
  | .visit i j, .go =>
    if i < workqNumPrioqueue then
      match (sh.wqlist i)[j]? with
      | some q => goTo sh (.worker (.lock i j q))
      | none => goTo sh (.worker (.visit (i + 1) 0))
    else goTo sh (.worker (.rdunlock none))
  | .lock i j q, .go => (sh.queues[q]?).bind fun wq =>
    if wq.mtx = none then goTo (sh.setQueue q { wq with mtx := some t }) (.worker (.look i j q))
    else none
  | .look i j q, .go => (sh.queues[q]?).bind fun wq =>
    match wq.itemListhead with
    | [] => goTo sh (.worker (.unlock i j q none))
    | w :: rest =>
      goTo (sh.setQueue q { wq with itemListhead := rest }) (.worker (.unlock i j q (some w)))
  | .unlock i j q r, .go => (sh.queues[q]?).bind fun wq =>
    goTo (sh.setQueue q { wq with mtx := none })
      (.worker (match r with
        | some w => .rdunlock (some w)
        | none => .visit i (j + 1)))
  | .rdunlock r, .go =>
    goTo { sh with readers := sh.readers - 1 }
      (.worker (match r with
        | some w => .call w
        | none => .exited))
  | .call w, .go => emit sh (.app (.worker w)) (.invoke t w)
  | .free w, .go => emit sh (.worker .exited) (.free t w)
  | _, _ => none

def appNext (sh : Shared) (k : Caller) : Choice → Option Out
  | .request r => (r.enter sh).bind fun x => goTo sh (.call k x)
  | .go => match k with
    | .user => none
    | .worker w => goTo sh (.worker (.free w))
  | _ => none

/-- The program: no thread moves once the process has aborted. -/
def program : Machine Shared Thread Choice Event := fun sh t p ch =>
  if sh.aborted = false then
    match p with
    | .app k => appNext sh k ch
    | .call k x => callNext sh t k x ch
    | .worker x => workerNext sh t x ch
  else none

/-- A process after `manager_init` with `users` threads of the application. -/
def initial (users : Nat) : PoolState :=
  ⟨⟨false, 0, [], [], fun _ => [], 0, false⟩, List.replicate users (.app .user)⟩

def steps (t : Tid) (n : Nat) : List (Tid × Choice) := List.replicate n (t, .go)

/-- A thread creates a queue. -/
def createQueue (t : Tid) (prio : Int) : List (Tid × Choice) :=
  [(t, .request (.create (some ⟨pthreadWorkqueueAttrSig, prio, 0⟩))), (t, .go), (t, .ok true)] ++
    steps t 4

/-- A thread adds an item and submits its callback. -/
def addItem (t : Tid) (q : QId) (func : Nat) : List (Tid × Choice) :=
  (t, .request (.additem q (some func) 0)) :: steps t 5 ++ [(t, .ok true)]

end PthreadWorkqueue.Windows
