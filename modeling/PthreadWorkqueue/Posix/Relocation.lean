import PthreadWorkqueue.Posix.Program

/-! The library does not look at addresses. A process whose memory holds further queues and items
takes the steps that it takes without them, as long as nobody names them. -/
namespace PthreadWorkqueue.Posix
open Concurrency

/-- The objects that a process finds in its memory. -/
structure Inherited where
  heap : List Bool
  queues : List Workq
  handles : List QId

/-- The name of a queue behind the inherited ones. -/
def Inherited.queue (b : Inherited) (q : QId) : QId := b.queues.length + q

section Relocate
variable (b : Inherited)

def Work.relocate (w : Work) : Work := { w with addr := b.heap.length + w.addr }

def Workq.relocate (wq : Workq) : Workq :=
  { wq with itemListhead := wq.itemListhead.map (Work.relocate b) }

def Caller.relocate : Caller → Caller
  | .user => .user
  | .worker v w => .worker v (w.relocate b)
  | .overcommit w => .overcommit (w.relocate b)

def Call.relocate : Call → Call
  | .check q f a => .check (b.queue q) f a
  | .alloc q f a => .alloc (b.queue q) f a
  | .handle q w => .handle (b.queue q) (w.relocate b)
  | .add q w p => .add (b.queue q) (w.relocate b) p
  | .ocAdd q w p => .ocAdd (b.queue q) (w.relocate b) p
  | .createLock q => .createLock (b.queue q)
  | .createManager q => .createManager (b.queue q)
  | .managerStart q => .managerStart (b.queue q)
  | .managerSet q => .managerSet (b.queue q)
  | .createRegister q => .createRegister (b.queue q)
  | .createUnlock q => .createUnlock (b.queue q)
  | c => c

def ScanPc.relocate : ScanPc → ScanPc
  | .readMask => .readMask
  | .readSlot idx => .readSlot idx
  | .lock q => .lock (b.queue q)
  | .first q => .first (b.queue q)
  | .remove q w => .remove (b.queue q) (w.relocate b)
  | .clear q w => .clear (b.queue q) (w.relocate b)
  | .unlock q r => .unlock (b.queue q) (r.map (Work.relocate b))

def WorkerPc.relocate : WorkerPc → WorkerPc
  | .scan k p => .scan k (p.relocate b)
  | .spinReadIdle w => .spinReadIdle (w.relocate b)
  | .spinPost w => .spinPost (w.relocate b)
  | .spinLeave r => .spinLeave (r.map (Work.relocate b))
  | .waitUnlock w => .waitUnlock (w.relocate b)
  | .waitReadIdle w => .waitReadIdle (w.relocate b)
  | .waitPost w => .waitPost (w.relocate b)
  | .waitTest w => .waitTest (w.relocate b)
  | .exitDecIdle w => .exitDecIdle (w.relocate b)
  | .exitDecCount w => .exitDecCount (w.relocate b)
  | .exitFree w => .exitFree (w.relocate b)
  | .decIdle w => .decIdle (w.relocate b)
  | .invoke w => .invoke (w.relocate b)
  | .incIdle w => .incIdle (w.relocate b)
  | .free w => .free (w.relocate b)
  | p => p

def OcPc.relocate : OcPc → OcPc
  | .unlock w => .unlock (w.relocate b)
  | .fetch w => .fetch (w.relocate b)
  | .free w f a => .free (w.relocate b) f a
  | .call w f a => .call (w.relocate b) f a
  | p => p

def StopPc.relocate : StopPc → StopPc
  | .lockMtx w => .lockMtx (w.relocate b)
  | .find w i => .find (w.relocate b) i
  | .spinLock w q => .spinLock (w.relocate b) (b.queue q)
  | .atomicOr w q => .atomicOr (w.relocate b) (b.queue q)
  | .insert w q => .insert (w.relocate b) (b.queue q)
  | .spinUnlock q => .spinUnlock (b.queue q)
  | p => p

def ManagerPc.relocate : ManagerPc → ManagerPc
  | .stop i m p => .stop i m (p.relocate b)
  | p => p

def Thread.relocate : Thread → Thread
  | .app k => .app (k.relocate b)
  | .call k c => .call (k.relocate b) (c.relocate b)
  | .worker v p => .worker v (p.relocate b)
  | .overcommit p => .overcommit (p.relocate b)
  | .manager v p => .manager v (p.relocate b)

def Event.relocate : Event → Event
  | .alloc t w => .alloc t (w.relocate b)
  | .accept t q w => .accept t (b.queue q) (w.relocate b)
  | .post t q w => .post t (b.queue q) (w.relocate b)
  | .dequeue t q w => .dequeue t (b.queue q) (w.relocate b)
  | .invoke t w f a => .invoke t (w.relocate b) f a
  | .free t w => .free t (w.relocate b)
  | e => e

def Request.relocate : Request → Request
  | .additem q f a => .additem (b.queue q) f a
  | r => r

def Choice.relocate : Choice → Choice
  | .request r => .request (r.relocate b)
  | ch => ch

/-- The memory behind the inherited objects. Nobody decides anything by the length of the run queue,
which the two processes may have read at different times. -/
def Shared.relocate (runqueueLength : Nat) (sh : Shared) : Shared :=
  { sh with
    heap := b.heap ++ sh.heap
    queues := b.queues ++ sh.queues.map (Workq.relocate b)
    handles := b.handles ++ sh.handles.map b.queue
    wqlist := fun i => (sh.wqlist i).map b.queue
    ocwq := fun i => (sh.ocwq i).map b.queue
    runqueueLength }

def Inherited.outcome (r : Nat) (o : Out) : Out :=
  ⟨o.shared.relocate b r, o.pc.relocate b, o.spawned.map (Thread.relocate b),
    o.events.map (Event.relocate b)⟩

/-- A process behind the inherited objects. -/
def Inherited.state (r : Nat) (c : PoolState) : PoolState :=
  ⟨c.shared.relocate b r, c.threads.map (Thread.relocate b)⟩

end Relocate

variable {S : Settings} {b : Inherited} {r : Nat} {sh : Shared} {t : Tid} {p : Thread} {q : QId}
  {w : Work} {wq : Workq} {ch : Choice} {o : Out}

/-! Memory -/

section Memory

@[simp] theorem queues_relocate :
    (sh.relocate b r).queues[b.queue q]? = (sh.queues[q]?).map (Workq.relocate b) := by
  simp [Shared.relocate, Inherited.queue, List.getElem?_append_right]

@[simp] theorem live_relocate : (sh.relocate b r).live (w.relocate b) = sh.live w := by
  simp [Shared.live, Shared.relocate, Work.relocate, List.getElem?_append_right]

theorem relocate_setQueue :
    (sh.setQueue q wq).relocate b r = (sh.relocate b r).setQueue (b.queue q) (wq.relocate b) := by
  simp [Shared.setQueue, Shared.relocate, Inherited.queue, List.set_append_right, List.map_set]

theorem relocate_witemFree :
    (sh.witemFree w).relocate b r = (sh.relocate b r).witemFree (w.relocate b) := by
  unfold Shared.witemFree
  rw [live_relocate]
  split
  · simp [Shared.relocate, Work.relocate, List.set_append_right]
  · rfl

theorem relocate_alloc (l : Bool) :
    ({ sh with heap := sh.heap ++ [l] } : Shared).relocate b r =
      { sh.relocate b r with heap := (sh.relocate b r).heap ++ [l] } := by
  simp [Shared.relocate]

theorem withQueue_relocate {p' : Thread} {f f' : Workq → Option Out} (hp : p.relocate b = p')
    (h : ∀ wq, f' (wq.relocate b) = (f wq).map (b.outcome r)) :
    (withQueue sh p q f).map (b.outcome r) = withQueue (sh.relocate b r) p' (b.queue q) f' := by
  subst hp
  unfold withQueue
  rw [queues_relocate]
  cases sh.queues[q]? with
  | none => rfl
  | some wq => exact (h wq).symm

end Memory

/-! Steps -/

section Steps
variable {k : Caller}

theorem ite_relocate {P : Prop} [Decidable P] {x y x' y' : Option Out}
    (hx : P → x' = x.map (b.outcome r)) (hy : ¬P → y' = y.map (b.outcome r)) :
    (if P then x' else y') = (if P then x else y).map (b.outcome r) := by
  split
  · exact hx ‹_›
  · exact hy ‹_›

theorem map_ite {α β : Type} {f : α → β} {P : Prop} [Decidable P] {x y : α} {x' y' : β}
    (hx : f x = x') (hy : f y = y') : f (if P then x else y) = if P then x' else y' := by
  split
  · exact hx
  · exact hy

theorem some_relocate {o o' : Out} (hs : o.shared.relocate b r = o'.shared)
    (hp : o.pc.relocate b = o'.pc) (hn : o.spawned.map (Thread.relocate b) = o'.spawned)
    (he : o.events.map (Event.relocate b) = o'.events) :
    some o' = (some o).map (b.outcome r) := by
  cases o'
  cases hs
  cases hp
  cases hn
  cases he
  rfl

theorem items_relocate : (wq.relocate b).itemListhead = [] ↔ wq.itemListhead = [] :=
  List.map_eq_nil_iff

theorem relocate_insert :
    (sh.setQueue q { wq with itemListhead := wq.itemListhead ++ [w] }).relocate b r =
      (sh.relocate b r).setQueue (b.queue q)
        { wq.relocate b with itemListhead := (wq.relocate b).itemListhead ++ [w.relocate b] } := by
  rw [relocate_setQueue]
  simp [Workq.relocate]

theorem addNext_relocate {x : AddPc} :
    addNext (sh.relocate b r) t (k.relocate b) (b.queue q) (w.relocate b) (wq.relocate b) x (ch.relocate b) =
      (addNext sh t k q w wq x ch).map (b.outcome r) := by
  cases x <;> cases ch <;> try rfl
  case spinLock.go =>
    exact ite_relocate (fun _ => some_relocate relocate_setQueue rfl rfl rfl) fun _ => rfl
  case testEmpty.go =>
    simp only [addNext, Choice.relocate, items_relocate]
    exact ite_relocate (fun _ => rfl) fun _ => rfl
  case insert.go => exact some_relocate relocate_insert rfl rfl rfl
  case spinUnlock.go => exact some_relocate relocate_setQueue rfl rfl rfl
  case readIdle.go | lockMtx.go | signal.wake => exact ite_relocate (fun _ => rfl) fun _ => rfl

theorem ocAddNext_relocate {x : OcAddPc} :
    ocAddNext (sh.relocate b r) t (k.relocate b) (b.queue q) (w.relocate b) (wq.relocate b) x (ch.relocate b) =
      (ocAddNext sh t k q w wq x ch).map (b.outcome r) := by
  cases x <;> cases ch <;> try rfl
  case spinLock.go =>
    exact ite_relocate (fun _ => some_relocate relocate_setQueue rfl rfl rfl) fun _ => rfl
  case insert.go => exact some_relocate relocate_insert rfl rfl rfl
  case spinUnlock.go => exact some_relocate relocate_setQueue rfl rfl rfl
  case lockMtx.go | decide.wake => exact ite_relocate (fun _ => rfl) fun _ => rfl
  case decide.ret code =>
    exact ite_relocate (fun _ => ite_relocate (fun _ => rfl) fun _ => rfl) fun _ => rfl

theorem relocate_update {f : Nat → Option QId} {i : Nat} :
    (fun j => (Function.update f i (some q) j).map b.queue) =
      Function.update (fun j => (f j).map b.queue) i (some (b.queue q)) := by
  funext j
  by_cases hj : j = i
  · subst hj
    simp
  · simp [Function.update_of_ne hj]

theorem register_relocate :
    register (sh.relocate b r) (b.queue q) (wq.relocate b) =
      (register sh q wq).map (Shared.relocate b r) := by
  have hqueues : ((sh.setQueue q { wq with wqlistIndex := wq.queueprio }).relocate b r).queues = _ :=
    congrArg Shared.queues relocate_setQueue
  have hw : ∀ i, (sh.relocate b r).wqlist i = none ↔ sh.wqlist i = none := fun i =>
    Option.map_eq_none_iff
  have ho : ∀ i, (sh.relocate b r).ocwq i = none ↔ sh.ocwq i = none := fun i =>
    Option.map_eq_none_iff
  unfold register
  simp only [hw, ho, Workq.relocate]
  split
  · split
    · simp only [Option.map_some, Option.some.injEq]
      simp only [Shared.relocate, Shared.setQueue, Shared.mk.injEq, relocate_update]
      simpa [Shared.relocate, Shared.setQueue, Workq.relocate] using hqueues.symm
    · rfl
  · split
    · simp only [Option.map_some, Option.some.injEq]
      simp only [Shared.relocate, Shared.setQueue, Shared.mk.injEq, relocate_update]
      simpa [Shared.relocate, Shared.setQueue, Workq.relocate] using hqueues.symm
    · rfl

theorem createNext_relocate {x x' : Call} (hx : x.relocate b = x') :
    createNext (sh.relocate b r) t (k.relocate b) (b.queue q) (wq.relocate b) x' (ch.relocate b) =
      (createNext sh t k q wq x ch).map (b.outcome r) := by
  subst hx
  cases x <;> cases ch <;> try rfl
  case createRegister.go =>
    simp only [createNext, Call.relocate, Choice.relocate, register_relocate]
    cases register sh q wq <;> rfl
  case createUnlock.go =>
    refine some_relocate ?_ rfl rfl rfl
    simp [Shared.relocate]
  case managerStart.ret =>
    exact ite_relocate (fun _ => rfl) fun _ => ite_relocate (fun _ => rfl) fun _ => rfl
  all_goals exact ite_relocate (fun _ => rfl) fun _ => rfl

theorem callNext_relocate {x : Call} :
    callNext (sh.relocate b r) t (k.relocate b) (x.relocate b) (ch.relocate b) =
      (callNext sh t k x ch).map (b.outcome r) := by
  cases x with
  | check q f a =>
    cases ch <;> try rfl
    simp only [callNext, Call.relocate, Choice.relocate]
    symm
    refine withQueue_relocate rfl fun wq => ?_
    cases f with
    | none => rfl
    | some f => exact ite_relocate (fun _ => rfl) fun _ => rfl
  | alloc q f a =>
    cases ch <;> try rfl
    refine some_relocate (relocate_alloc true) ?_ rfl ?_
    · simp [Thread.relocate, Call.relocate, Work.relocate, Shared.relocate]
    · simp [Event.relocate, Work.relocate, Shared.relocate]
  | handle q w =>
    cases ch <;> try rfl
    simp only [callNext, Call.relocate, Choice.relocate]
    symm
    refine withQueue_relocate rfl fun wq => ?_
    simp only [live_relocate]
    refine ite_relocate (fun _ => some_relocate rfl ?_ rfl rfl) fun _ => rfl
    cases h : wq.overcommit <;> simp [Thread.relocate, Call.relocate, Workq.relocate, h]
  | add q w x =>
    simp only [callNext, Call.relocate, Choice.relocate]
    symm
    exact withQueue_relocate rfl fun wq => addNext_relocate
  | ocAdd q w x =>
    simp only [callNext, Call.relocate, Choice.relocate]
    symm
    exact withQueue_relocate rfl fun wq => ocAddNext_relocate
  | createCheck attr =>
    cases ch <;> try rfl
    exact ite_relocate (fun _ => rfl) fun _ => rfl
  | createAlloc attr =>
    cases ch <;> try rfl
    refine ite_relocate (fun _ => some_relocate ?_ ?_ rfl rfl) fun _ => rfl
    · simp [Shared.relocate, Workq.relocate, newWorkq]
    · simp [Thread.relocate, Call.relocate, Shared.relocate, Inherited.queue]
  | createLock | createManager | managerStart | managerSet | createRegister | createUnlock =>
    simp only [callNext, Call.relocate, Choice.relocate]
    symm
    exact withQueue_relocate rfl fun wq => createNext_relocate rfl
  | suspendWait =>
    cases ch <;> try rfl
    exact some_relocate rfl (congrArg (Thread.call _) (map_ite (f := Call.relocate b) rfl rfl)) rfl rfl
  | suspendRead | resumeRead =>
    cases ch <;> try rfl
    exact some_relocate rfl (map_ite (f := Thread.relocate b) rfl rfl) rfl rfl
  | _ => cases ch <;> rfl

theorem relocate_scanReturn (k : ScanKind) (x : Option Work) :
    (scanReturn k x).relocate b = scanReturn k (x.map (Work.relocate b)) := by
  cases k <;> cases x <;> rfl

theorem scanNext_relocate {v : WorkerVars} {k : ScanKind} {x : ScanPc} :
    scanNext (sh.relocate b r) t v k (x.relocate b) =
      (scanNext sh t v k x).map (b.outcome r) := by
  cases x with
  | readMask =>
    refine some_relocate rfl (congrArg (Thread.worker v) ?_) rfl rfl
    exact map_ite (f := WorkerPc.relocate b) (relocate_scanReturn k none) rfl
  | readSlot idx =>
    simp only [scanNext, ScanPc.relocate]
    have : (sh.relocate b r).wqlist (idx - 1) = (sh.wqlist (idx - 1)).map b.queue := rfl
    rw [this]
    cases sh.wqlist (idx - 1) <;> rfl
  | lock q =>
    symm
    refine withQueue_relocate rfl fun wq => ?_
    exact ite_relocate (fun _ => some_relocate relocate_setQueue rfl rfl rfl) fun _ => rfl
  | first q =>
    symm
    refine withQueue_relocate rfl fun wq => ?_
    cases h : wq.itemListhead with
    | nil => simp only [Workq.relocate, h]; rfl
    | cons w l =>
      simp only [Workq.relocate, h, List.map_cons, live_relocate]
      refine ite_relocate (fun _ => ite_relocate (fun _ => ?_) fun _ => rfl) fun _ => rfl
      exact some_relocate rfl (congrArg (fun p => Thread.worker v (.scan k p))
        (map_ite (f := ScanPc.relocate b) rfl rfl)) rfl rfl
  | remove q w =>
    symm
    refine withQueue_relocate rfl fun wq => ?_
    have htail : (wq.relocate b).itemListhead.tail = wq.itemListhead.tail.map (Work.relocate b) := by
      simp [Workq.relocate]
    simp only [htail, List.map_eq_nil_iff]
    refine some_relocate relocate_setQueue ?_ rfl rfl
    exact congrArg (fun p => Thread.worker _ (.scan k p)) (map_ite (f := ScanPc.relocate b) rfl rfl)
  | clear q w =>
    symm
    refine withQueue_relocate rfl fun wq => some_relocate rfl ?_ rfl rfl
    exact congrArg (fun p => Thread.worker _ (.scan k p)) (map_ite (f := ScanPc.relocate b) rfl rfl)
  | unlock q x =>
    symm
    refine withQueue_relocate rfl fun wq => some_relocate relocate_setQueue ?_ rfl rfl
    exact congrArg (Thread.worker v) (relocate_scanReturn k x)

theorem workerNext_relocate {v : WorkerVars} {x : WorkerPc} :
    workerNext S (sh.relocate b r) t v (x.relocate b) (ch.relocate b) =
      (workerNext S sh t v x ch).map (b.outcome r) := by
  cases x with
  | scan k x =>
    cases ch <;> try rfl
    exact scanNext_relocate
  | spinEnter | spinReadIdle | waitReadIdle =>
    cases ch <;> try rfl
    exact some_relocate rfl (congrArg (Thread.worker v) (map_ite (f := WorkerPc.relocate b) rfl rfl))
      rfl rfl
  | spinLeave x => cases ch <;> cases x <;> rfl
  | waitLock | waiting => cases ch <;> first | rfl | exact ite_relocate (fun _ => rfl) fun _ => rfl
  | waitTest w =>
    cases ch <;> try rfl
    simp only [workerNext, WorkerPc.relocate, Choice.relocate, live_relocate]
    refine ite_relocate (fun _ => ?_) fun _ => rfl
    exact some_relocate rfl (congrArg (Thread.worker v) (map_ite (f := WorkerPc.relocate b) rfl rfl))
      rfl rfl
  | exitFree | free =>
    cases ch <;> try rfl
    exact some_relocate relocate_witemFree rfl rfl rfl
  | invoke w =>
    cases ch <;> try rfl
    simp only [workerNext, WorkerPc.relocate, Choice.relocate, live_relocate]
    refine ite_relocate (fun _ => ?_) fun _ => rfl
    obtain ⟨addr, func, arg, flags, gencount⟩ := w
    cases func <;> rfl
  | _ => cases ch <;> rfl

theorem ocScanNext_relocate :
    ocScanNext (sh.relocate b r) t = (ocScanNext sh t).map (b.outcome r) := by
  have hslot : (sh.relocate b r).ocwq (ffs (sh.relocate b r).ocwqMask - 1) =
      (sh.ocwq (ffs sh.ocwqMask - 1)).map b.queue := rfl
  unfold ocScanNext
  refine ite_relocate (fun _ => rfl) fun _ => ?_
  rw [hslot]
  cases sh.ocwq (ffs sh.ocwqMask - 1) with
  | none => rfl
  | some q =>
    symm
    refine withQueue_relocate rfl fun wq => ?_
    cases h : wq.itemListhead with
    | nil => simp only [Workq.relocate, h]; rfl
    | cons w l =>
      simp only [Workq.relocate, h, List.map_cons, List.map_eq_nil_iff]
      refine some_relocate ?_ rfl rfl rfl
      have hset : (sh.setQueue q { wq with itemListhead := l }).relocate b r = _ := relocate_setQueue
      refine map_ite (f := Shared.relocate b r) ?_ hset
      exact congrArg (fun x : Shared =>
        { x with ocwqMask := sh.ocwqMask &&& ~~~ indexBit wq.wqlistIndex }) hset

theorem overcommitNext_relocate {x : OcPc} :
    overcommitNext (sh.relocate b r) t (x.relocate b) (ch.relocate b) =
      (overcommitNext sh t x ch).map (b.outcome r) := by
  cases x with
  | lock =>
    cases ch <;> try rfl
    exact ite_relocate (fun _ => rfl) fun _ => rfl
  | scan =>
    cases ch <;> try rfl
    exact ocScanNext_relocate
  | fetch w =>
    cases ch <;> try rfl
    simp only [overcommitNext, OcPc.relocate, Choice.relocate, live_relocate]
    exact ite_relocate (fun _ => rfl) fun _ => rfl
  | free w f a =>
    cases ch <;> try rfl
    exact some_relocate relocate_witemFree rfl rfl rfl
  | call w f a => cases ch <;> cases f <;> rfl
  | timedwait =>
    cases ch <;> try rfl
    · exact ite_relocate (fun _ => rfl) fun _ => rfl
    · refine ite_relocate (fun _ => ite_relocate (fun _ => rfl) fun _ => ?_) fun _ => rfl
      exact ite_relocate (fun _ => rfl) fun _ => rfl
  | _ => cases ch <;> rfl

theorem relocate_minLoop (S : Settings) (i : Nat) : (minLoop S i).relocate b = minLoop S i :=
  map_ite (f := ManagerPc.relocate b) rfl rfl

theorem relocate_startReturn (S : Settings) (x : Option Nat) :
    (startReturn S x).relocate b = startReturn S x := by
  cases x with
  | none => rfl
  | some i => exact relocate_minLoop S (i + 1)

theorem relocate_stopLoop (i m : Nat) : (stopLoop i m).relocate b = stopLoop i m :=
  map_ite (f := ManagerPc.relocate b) rfl rfl

theorem workerStart_relocate {v : ManagerVars} {x : Option Nat} {y : StartPc} :
    workerStart S (sh.relocate b r) t v x y (ch.relocate b) =
      (workerStart S sh t v x y ch).map (b.outcome r) := by
  cases y <;> cases ch <;> try rfl
  case create.ret code =>
    refine ite_relocate (fun _ => some_relocate rfl ?_ rfl rfl) fun _ => rfl
    exact congrArg (Thread.manager v) (relocate_startReturn S x)
  case decCount.go =>
    exact some_relocate rfl (congrArg (Thread.manager v) (relocate_startReturn S x)) rfl rfl

theorem workerStop_relocate {v : ManagerVars} {i m : Nat} {x : StopPc} :
    workerStop (sh.relocate b r) t v i m (x.relocate b) (ch.relocate b) =
      (workerStop sh t v i m x ch).map (b.outcome r) := by
  cases x with
  | alloc =>
    cases ch <;> try rfl
    refine some_relocate (relocate_alloc true) ?_ rfl ?_
    · simp [Thread.relocate, ManagerPc.relocate, StopPc.relocate, Work.relocate, Shared.relocate]
    · simp [Event.relocate, Work.relocate, Shared.relocate]
  | lockMtx w | signal =>
    cases ch <;> try rfl
    exact ite_relocate (fun _ => rfl) fun _ => rfl
  | find w j =>
    cases ch <;> try rfl
    refine ite_relocate (fun _ => ?_) fun _ => rfl
    have hslot : (sh.relocate b r).wqlist j = (sh.wqlist j).map b.queue := rfl
    rw [hslot]
    cases sh.wqlist j <;> rfl
  | spinLock w q =>
    cases ch <;> try rfl
    symm
    refine withQueue_relocate rfl fun wq => ?_
    exact ite_relocate (fun _ => some_relocate relocate_setQueue rfl rfl rfl) fun _ => rfl
  | atomicOr w q =>
    cases ch <;> try rfl
    symm
    refine withQueue_relocate rfl fun wq => some_relocate rfl ?_ rfl rfl
    exact congrArg (fun p => Thread.manager v (.stop i m p)) (map_ite (f := StopPc.relocate b) rfl rfl)
  | insert w q =>
    cases ch <;> try rfl
    symm
    exact withQueue_relocate rfl fun wq => some_relocate relocate_insert rfl rfl rfl
  | spinUnlock q =>
    cases ch <;> try rfl
    symm
    exact withQueue_relocate rfl fun wq => some_relocate relocate_setQueue rfl rfl rfl
  | unlockMtx =>
    cases ch <;> try rfl
    exact some_relocate rfl (congrArg (Thread.manager v) (relocate_stopLoop _ _)) rfl rfl

theorem managerSleep_relocate {v : ManagerVars} {x : ManagerPc} :
    managerSleep (sh.relocate b r) v x (ch.relocate b) = (managerSleep sh v x ch).map (b.outcome r) := by
  cases x <;> cases ch <;> try rfl
  case top.go =>
    exact some_relocate rfl (congrArg (Thread.manager v) (map_ite (f := ManagerPc.relocate b) rfl rfl))
      rfl rfl
  case timedWait.ret code | semWait.ret code =>
    refine ite_relocate (fun _ => ?_) fun _ => rfl
    exact ite_relocate (fun _ => rfl) fun _ => rfl

theorem relocate_rampStart (v : ManagerVars) : (rampStart v).relocate b = rampStart v :=
  map_ite (f := ManagerPc.relocate b) rfl rfl

/-- The length of the run queue after a step. -/
def Thread.runqueueAfter (r : Nat) : Thread → Choice → Nat
  | .manager _ .beginRunqueue, .value n | .manager _ .runqueue, .value n => n
  | _, _ => r

theorem managerSpawn_relocate {v : ManagerVars} {x : ManagerPc} :
    managerSpawn S (sh.relocate b r) v x (ch.relocate b) =
      (managerSpawn S sh v x ch).map (b.outcome ((Thread.manager v x).runqueueAfter r ch)) := by
  cases x <;> cases ch <;> try rfl
  case readIdle.go | readCount.go | readPending.go =>
    refine some_relocate rfl (congrArg (Thread.manager v) ?_) rfl rfl
    exact map_ite (f := ManagerPc.relocate b) rfl (relocate_rampStart v)
  all_goals
    refine some_relocate rfl (congrArg (Thread.manager _) ?_) rfl rfl
    exact map_ite (f := ManagerPc.relocate b) rfl rfl

theorem managerRamp_relocate {v : ManagerVars} {x : ManagerPc} :
    managerRamp S (sh.relocate b r) v x (ch.relocate b) = (managerRamp S sh v x ch).map (b.outcome r) := by
  cases x <;> cases ch <;> try rfl
  case rampRead.go | rampAdd.go => exact ite_relocate (fun _ => rfl) fun _ => rfl
  case rampSurplus.go =>
    exact some_relocate rfl (congrArg (Thread.manager v) (relocate_stopLoop _ _)) rfl rfl
  case stopRead.go =>
    refine some_relocate rfl (congrArg (Thread.manager v) ?_) rfl rfl
    exact map_ite (f := ManagerPc.relocate b) rfl (relocate_stopLoop _ _)

theorem managerNext_relocate {v : ManagerVars} {x : ManagerPc} :
    managerNext S (sh.relocate b r) t v (x.relocate b) (ch.relocate b) =
      (managerNext S sh t v x ch).map (b.outcome ((Thread.manager v x).runqueueAfter r ch)) := by
  cases x with
  | begin => cases ch <;> rfl
  | beginRunqueue =>
    cases ch <;> try rfl
    exact some_relocate rfl (congrArg (Thread.manager v) (relocate_minLoop S 0)) rfl rfl
  | start x y => exact workerStart_relocate
  | stop i m x => exact workerStop_relocate
  | top | timedWait | semWait => exact managerSleep_relocate
  | rampRead | rampAdd | rampSurplus | stopRead => exact managerRamp_relocate
  | _ => exact managerSpawn_relocate

theorem appNext_relocate
    (own : ∀ q f a, ch = .request (.additem q f a) → q ∈ sh.handles ∨ b.queue q ∉ b.handles) :
    appNext (sh.relocate b r) (k.relocate b) (ch.relocate b) =
      (appNext sh k ch).map (b.outcome r) := by
  cases ch with
  | request x =>
    cases x with
    | additem q f a =>
      have hmem : b.queue q ∈ (sh.relocate b r).handles ↔ q ∈ sh.handles := by
        have := own q f a rfl
        simp only [Shared.relocate, List.mem_append, List.mem_map, Inherited.queue] at this ⊢
        constructor
        · rintro (h | ⟨x, hx, he⟩)
          · exact this.resolve_right fun hn => hn h
          · obtain rfl := Nat.add_left_cancel he
            exact hx
        · exact fun h => .inr ⟨q, h, rfl⟩
      by_cases hq : q ∈ sh.handles
      · simp [appNext, Request.enter, Choice.relocate, Request.relocate, hmem, hq]
        rfl
      · simp [appNext, Request.enter, Choice.relocate, Request.relocate, hmem, hq]
    | _ => rfl
  | go => cases k <;> rfl
  | _ => rfl

/-- The steps of a process do not depend on the objects that it has inherited. -/
theorem program_relocate (own : ∀ k q f a, p = .app k → ch = .request (.additem q f a) →
      q ∈ sh.handles ∨ b.queue q ∉ b.handles) :
    program S (sh.relocate b r) t (p.relocate b) (ch.relocate b) =
      (program S sh t p ch).map (b.outcome (p.runqueueAfter r ch)) := by
  unfold program
  refine ite_relocate (fun _ => ?_) fun _ => rfl
  cases p with
  | app k => exact appNext_relocate fun q f a => own k q f a rfl
  | call k x => exact callNext_relocate
  | worker v x => exact workerNext_relocate
  | overcommit x => exact overcommitNext_relocate
  | manager v x => exact managerNext_relocate

/-- Only application code listens to requests. -/
theorem program_request (hp : ∀ k, p ≠ .app k) (x y : Request) :
    program S sh t p (.request x) = program S sh t p (.request y) := by
  unfold program
  congr 1
  cases p with
  | app k => exact absurd rfl (hp k)
  | call k x =>
    cases x with
    | add q w x => cases x <;> rfl
    | ocAdd q w x => cases x <;> rfl
    | _ => rfl
  | worker v x => cases x <;> rfl
  | overcommit x => cases x <;> rfl
  | manager v x =>
    cases x with
    | start x y => cases y <;> rfl
    | stop i m x => cases x <;> rfl
    | _ => rfl

end Steps

/-! Runs -/

/-- Items are only added to queues that are not among the inherited ones. -/
def ownHandles (inherited : List QId) (l : Tid × Choice) : Bool :=
  match l.2 with
  | .request (.additem q _ _) => !inherited.contains q
  | _ => true

section Runs
variable {c d : PoolState} {l : Tid × Choice} {tr es : List Event}

theorem additem_handle {k : Caller} {f : Option Nat} {a : Nat}
    (h : program S sh t (.app k) (.request (.additem q f a)) = some o) : q ∈ sh.handles := by
  simp only [program, appNext, Request.enter] at h
  by_contra hq
  simp [hq] at h

/-- A choice in the presence of the inherited objects is one in their absence. -/
theorem exists_choice (own : ownHandles b.handles (t, ch) = true)
    (h : program S (sh.relocate b r) t (p.relocate b) ch = some o) :
    ∃ ch' : Choice, program S (sh.relocate b r) t (p.relocate b) (ch'.relocate b) = some o ∧
      ∀ k q f a, p = .app k → ch' = .request (.additem q f a) → b.queue q ∉ b.handles := by
  have same (he : ch.relocate b = ch) (hn : ∀ q f a, ch ≠ .request (.additem q f a)) :
      ∃ ch' : Choice, program S (sh.relocate b r) t (p.relocate b) (ch'.relocate b) = some o ∧
        ∀ k q f a, p = .app k → ch' = .request (.additem q f a) → b.queue q ∉ b.handles :=
    ⟨ch, by rw [he, h], fun _ q f a _ hc => absurd hc (hn q f a)⟩
  cases ch with
  | request x =>
    by_cases hp : ∃ k, p = .app k
    · obtain ⟨k, rfl⟩ := hp
      cases x with
      | additem q f a =>
        have hq : q ∈ (sh.relocate b r).handles := additem_handle h
        have hnot : q ∉ b.handles := by simpa [ownHandles] using own
        obtain ⟨q, _, rfl⟩ := List.mem_map.mp ((List.mem_append.mp hq).resolve_left hnot)
        refine ⟨.request (.additem q f a), h, ?_⟩
        rintro _ _ _ _ - he
        cases he
        exact hnot
      | _ => exact same rfl fun _ _ _ he => by cases he
    · have hp' : ∀ k, p.relocate b ≠ .app k := by
        intro k he
        cases p with
        | app j => exact hp ⟨j, rfl⟩
        | _ => cases he
      exact ⟨.request .suspend, (program_request hp' _ _).trans h, fun _ _ _ _ _ he => by cases he⟩
  | _ => exact same rfl fun _ _ _ he => by cases he

theorem apply_relocate (r' : Nat) :
    (b.outcome r' o).apply (b.state r c) t = b.state r' (o.apply c t) := by
  simp [Outcome.apply, Inherited.outcome, Inherited.state, List.map_set]

theorem step_relocate (r : Nat) (h : (program S).step c l = some (d, es)) :
    ∃ r', (program S).step (b.state r c) (l.1, l.2.relocate b) =
      some (b.state r' d, es.map (Event.relocate b)) := by
  obtain ⟨p, o, mv, rfl, rfl⟩ := Machine.step_eq_some.mp h
  have here : (b.state r c).threads[l.1]? = some (p.relocate b) := by
    simp [Inherited.state, mv.here]
  have next : program S (c.shared.relocate b r) l.1 (p.relocate b) (l.2.relocate b) =
      some (b.outcome (p.runqueueAfter r l.2) o) := by
    refine (program_relocate ?_).trans (congrArg (Option.map _) mv.next)
    rintro k q f a rfl hch
    have hn := mv.next
    rw [hch] at hn
    exact .inl (additem_handle hn)
  exact ⟨_, Machine.step_eq_some.mpr ⟨_, _, ⟨here, next⟩, (apply_relocate _).symm, rfl⟩⟩

theorem step_of_relocate (own : ownHandles b.handles l = true)
    (h : (program S).step (b.state r c) l = some (d, es)) :
    ∃ r' l' d' es', (program S).step c l' = some (d', es') ∧ d = b.state r' d' ∧
      es = es'.map (Event.relocate b) := by
  obtain ⟨p, o, mv, rfl, rfl⟩ := Machine.step_eq_some.mp h
  obtain ⟨p, hp, rfl⟩ : ∃ p', c.threads[l.1]? = some p' ∧ p'.relocate b = p := by
    simpa [Inherited.state] using mv.here
  obtain ⟨ch, hch, hown⟩ := exists_choice own mv.next
  rw [program_relocate fun k q f a hk hc => .inr (hown k q f a hk hc)] at hch
  obtain ⟨o, ho, rfl⟩ := Option.map_eq_some_iff.mp hch
  exact ⟨_, (l.1, ch), _, _, Machine.step_eq_some.mpr ⟨p, o, ⟨hp, ho⟩, rfl, rfl⟩,
    apply_relocate _, rfl⟩

theorem run_relocate (r : Nat) (h : Machine.Free (program S) c tr d) :
    ∃ r', Machine.Free (program S) (b.state r c) (tr.map (Event.relocate b)) (b.state r' d) := by
  induction h with
  | start => exact ⟨r, .start⟩
  | step _ _ hs ih =>
    obtain ⟨r₁, hr⟩ := ih
    obtain ⟨r₂, hs⟩ := step_relocate r₁ hs
    rw [List.map_append]
    exact ⟨r₂, .step hr trivial hs⟩

theorem run_of_relocate
    (h : Machine.Run (program S) (fun _ l => ownHandles b.handles l = true) (b.state r c) tr d) :
    ∃ r' tr' d', Machine.Free (program S) c tr' d' ∧ d = b.state r' d' ∧
      tr = tr'.map (Event.relocate b) := by
  induction h with
  | start => exact ⟨r, [], c, .start, rfl, rfl⟩
  | step _ own hs ih =>
    obtain ⟨r₁, tr', d', hrun, rfl, rfl⟩ := ih
    obtain ⟨r₂, l', d₂, es', hs', rfl, rfl⟩ := step_of_relocate own hs
    exact ⟨r₂, _, d₂, hrun.step trivial hs', rfl, List.map_append.symm⟩

end Runs

end PthreadWorkqueue.Posix
