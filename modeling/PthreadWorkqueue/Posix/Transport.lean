import PthreadWorkqueue.Posix.Program

/-! The library uses an item through its pointer. Under other names for the items, with other item
lists and another heap, a step that reads and writes neither is the same step. -/
namespace PthreadWorkqueue.Posix
open Concurrency

section Rename
variable (f : Nat → Nat)

def Work.rename (w : Work) : Work := { w with addr := f w.addr }

def Caller.rename : Caller → Caller
  | .user => .user
  | .worker v w => .worker v (w.rename f)
  | .overcommit w => .overcommit (w.rename f)

def Call.rename : Call → Call
  | .handle q w => .handle q (w.rename f)
  | .add q w p => .add q (w.rename f) p
  | .ocAdd q w p => .ocAdd q (w.rename f) p
  | c => c

def ScanPc.rename : ScanPc → ScanPc
  | .remove q w => .remove q (w.rename f)
  | .clear q w => .clear q (w.rename f)
  | .unlock q r => .unlock q (r.map (Work.rename f))
  | p => p

def WorkerPc.rename : WorkerPc → WorkerPc
  | .scan k p => .scan k (p.rename f)
  | .spinReadIdle w => .spinReadIdle (w.rename f)
  | .spinPost w => .spinPost (w.rename f)
  | .spinLeave r => .spinLeave (r.map (Work.rename f))
  | .waitUnlock w => .waitUnlock (w.rename f)
  | .waitReadIdle w => .waitReadIdle (w.rename f)
  | .waitPost w => .waitPost (w.rename f)
  | .waitTest w => .waitTest (w.rename f)
  | .exitDecIdle w => .exitDecIdle (w.rename f)
  | .exitDecCount w => .exitDecCount (w.rename f)
  | .exitFree w => .exitFree (w.rename f)
  | .decIdle w => .decIdle (w.rename f)
  | .invoke w => .invoke (w.rename f)
  | .incIdle w => .incIdle (w.rename f)
  | .free w => .free (w.rename f)
  | p => p

def OcPc.rename : OcPc → OcPc
  | .unlock w => .unlock (w.rename f)
  | .fetch w => .fetch (w.rename f)
  | .free w g a => .free (w.rename f) g a
  | .call w g a => .call (w.rename f) g a
  | p => p

def StopPc.rename : StopPc → StopPc
  | .lockMtx w => .lockMtx (w.rename f)
  | .find w i => .find (w.rename f) i
  | .spinLock w q => .spinLock (w.rename f) q
  | .atomicOr w q => .atomicOr (w.rename f) q
  | .insert w q => .insert (w.rename f) q
  | p => p

def ManagerPc.rename : ManagerPc → ManagerPc
  | .stop i m p => .stop i m (p.rename f)
  | p => p

def Thread.rename : Thread → Thread
  | .app k => .app (k.rename f)
  | .call k c => .call (k.rename f) (c.rename f)
  | .worker v p => .worker v (p.rename f)
  | .overcommit p => .overcommit (p.rename f)
  | .manager v p => .manager v (p.rename f)

def Event.rename : Event → Event
  | .alloc t w => .alloc t (w.rename f)
  | .accept t q w => .accept t q (w.rename f)
  | .post t q w => .post t q (w.rename f)
  | .dequeue t q w => .dequeue t q (w.rename f)
  | .invoke t w g a => .invoke t (w.rename f) g a
  | .free t w => .free t (w.rename f)
  | e => e

end Rename

theorem Thread.rename_id (p : Thread) : p.rename id = p := by
  cases p with
  | app k => cases k <;> rfl
  | call k c => cases k <;> cases c <;> rfl
  | worker v p =>
    cases p with
    | scan k p =>
      cases p with
      | unlock q r => cases r <;> rfl
      | _ => rfl
    | spinLeave r => cases r <;> rfl
    | _ => rfl
  | overcommit p => cases p <;> rfl
  | manager v p =>
    cases p with
    | stop i m p => cases p <;> rfl
    | _ => rfl

theorem Event.rename_id (e : Event) : e.rename id = e := by cases e <;> rfl

/-- Other addresses for the items, with what becomes of the item lists and of the heap. -/
structure Transport where
  addr : Nat → Nat
  list : QId → List Work → List Work
  heap : List Bool → List Bool

def Workq.transport (T : Transport) (q : QId) (wq : Workq) : Workq :=
  { wq with itemListhead := T.list q wq.itemListhead }

def Shared.transport (T : Transport) (sh : Shared) : Shared :=
  { sh with
    heap := T.heap sh.heap
    queues := sh.queues.mapIdx (Workq.transport T) }

def Out.transport (T : Transport) (o : Out) : Out :=
  ⟨o.shared.transport T, o.pc.rename T.addr, o.spawned.map (Thread.rename T.addr),
    o.events.map (Event.rename T.addr)⟩

/-- The points whose step reads or writes an item list. -/
def Thread.onList : Thread → Bool
  | .call _ (.add _ _ p) => match p with
    | .testEmpty | .insert => true
    | _ => false
  | .call _ (.ocAdd _ _ .insert) => true
  | .worker _ (.scan _ p) => match p with
    | .first _ | .remove _ _ => true
    | _ => false
  | .overcommit .scan => true
  | .manager _ (.stop _ _ (.insert _ _)) => true
  | _ => false

/-- The points that allocate an item or free one. -/
def Thread.onHeap : Thread → Bool
  | .call _ (.alloc _ _ _) | .worker _ (.exitFree _) | .worker _ (.free _)
  | .overcommit (.free _ _ _) | .manager _ (.stop _ _ .alloc) => true
  | _ => false

/-- The item that a point reads. -/
def Thread.derefs : Thread → Option Work
  | .call _ (.handle _ w) | .worker _ (.waitTest w) | .worker _ (.invoke w)
  | .overcommit (.fetch w) => some w
  | _ => none

variable {S : Settings} {sh : Shared} {t : Tid} {p : Thread} {ch : Choice} {T : Transport}
  {q : QId} {wq : Workq}

@[simp] theorem transport_wqlist : (sh.transport T).wqlist = sh.wqlist := rfl

theorem getElem?_transport :
    (sh.transport T).queues[q]? = (sh.queues[q]?).map (Workq.transport T q) :=
  List.getElem?_mapIdx

@[simp] theorem length_transport : (sh.transport T).queues.length = sh.queues.length :=
  List.length_mapIdx

theorem setQueue_transport (wq : Workq) :
    (sh.transport T).setQueue q (wq.transport T q) = (sh.setQueue q wq).transport T := by
  have hset : (sh.queues.mapIdx (Workq.transport T)).set q (wq.transport T q) =
      (sh.queues.set q wq).mapIdx (Workq.transport T) := List.mapIdx_set.symm
  unfold Shared.transport Shared.setQueue
  rw [hset]

theorem append_transport (wq : Workq) (h : wq.transport T sh.queues.length = wq) :
    { sh.transport T with queues := (sh.transport T).queues ++ [wq] } =
      { sh with queues := sh.queues ++ [wq] }.transport T := by
  have happ : (sh.queues ++ [wq]).mapIdx (Workq.transport T) =
      sh.queues.mapIdx (Workq.transport T) ++ [wq] := by
    rw [List.mapIdx_append, List.mapIdx_singleton, Nat.zero_add, h]
  unfold Shared.transport
  rw [happ]

section Naturality
variable {a b a' b' : Option Out} {r r' : Thread}

theorem some_transport {o o' : Out} (hs : o.shared.transport T = o'.shared)
    (hp : o.pc.rename T.addr = o'.pc) (hn : o.spawned.map (Thread.rename T.addr) = o'.spawned)
    (he : o.events.map (Event.rename T.addr) = o'.events) :
    some o' = (some o).map (Out.transport T) := by
  cases o'
  cases hs
  cases hp
  cases hn
  cases he
  rfl

theorem ite_transport {x y : Prop} [Decidable x] [Decidable y] (hc : x ↔ y)
    (ha : a' = a.map (Out.transport T)) (hb : b' = b.map (Out.transport T)) :
    (if x then a' else b') = (if y then a else b).map (Out.transport T) := by
  by_cases hy : y
  · rw [if_pos hy, if_pos (hc.mpr hy), ha]
  · rw [if_neg hy, if_neg (mt hc.mp hy), hb]

theorem withQueue_transport {f f' : Workq → Option Out} (hp : p.rename T.addr = r)
    (h : ∀ wq, sh.queues[q]? = some wq → f' (wq.transport T q) = (f wq).map (Out.transport T)) :
    withQueue (sh.transport T) r q f' = (withQueue sh p q f).map (Out.transport T) := by
  subst hp
  unfold withQueue
  rw [getElem?_transport]
  cases hq : sh.queues[q]? with
  | none => rfl
  | some wq => exact h wq hq

/-- A step that changes a queue apart from its list. -/
theorem goTo_transport (wq : Workq) (hp : p.rename T.addr = r) :
    goTo ((sh.transport T).setQueue q (wq.transport T q)) r =
      (goTo (sh.setQueue q wq) p).map (Out.transport T) :=
  some_transport (setQueue_transport wq).symm hp rfl rfl

private theorem scanReturn_rename {f : Nat → Nat} (k : ScanKind) (r : Option Work) :
    (scanReturn k r).rename f = scanReturn k (r.map (Work.rename f)) := by
  cases k <;> cases r <;> rfl

private theorem scanNext_transport {v : WorkerVars} {k : ScanKind} {p : ScanPc}
    (h : (Thread.worker v (.scan k p)).onList = false) :
    scanNext (sh.transport T) t v k (p.rename T.addr) =
      (scanNext sh t v k p).map (Out.transport T) := by
  cases p with
  | readMask =>
    refine some_transport rfl (congrArg (Thread.worker v) ?_) rfl rfl
    rw [apply_ite (WorkerPc.rename T.addr), scanReturn_rename]
    rfl
  | readSlot idx =>
    simp only [scanNext, ScanPc.rename, transport_wqlist]
    cases sh.wqlist (idx - 1) <;> rfl
  | lock q =>
    exact withQueue_transport rfl fun wq _ =>
      ite_transport Iff.rfl (goTo_transport { wq with mtx := some t } rfl) rfl
  | clear q w =>
    refine withQueue_transport rfl fun wq _ => some_transport rfl (congrArg (Thread.worker v) ?_) rfl rfl
    exact congrArg (WorkerPc.scan k) (apply_ite (ScanPc.rename T.addr) ..)
  | unlock q r =>
    exact withQueue_transport rfl fun wq _ =>
      goTo_transport { wq with mtx := none } (congrArg (Thread.worker v) (scanReturn_rename k r))
  | first q | remove q w => cases h

/-- The points that the lemma is about read no list and leave the heap alone; what they read of an
item is in its pointer, apart from whether it is live. -/
structure Plain (T : Transport) (sh : Shared) (p : Thread) : Prop where
  list : p.onList = false
  heap : p.onHeap = false
  live : ∀ w, p.derefs = some w → (sh.transport T).live (w.rename T.addr) = sh.live w

theorem Plain.reads {w : Work} (h : Plain T sh p) (hw : p.derefs = some w) :
    (sh.transport T).live (w.rename T.addr) = true ↔ sh.live w = true := by
  rw [h.live w hw]

private theorem workerNext_transport {v : WorkerVars} {p : WorkerPc}
    (h : Plain T sh (.worker v p)) :
    workerNext S (sh.transport T) t v (p.rename T.addr) ch =
      (workerNext S sh t v p ch).map (Out.transport T) := by
  cases p <;> cases ch <;> try rfl
  case scan.go => exact scanNext_transport h.list
  case spinEnter.go =>
    exact some_transport rfl (congrArg (Thread.worker v) (apply_ite (WorkerPc.rename T.addr) ..)) rfl rfl
  case spinReadIdle.go w =>
    exact some_transport rfl (congrArg (Thread.worker v) (apply_ite (WorkerPc.rename T.addr) ..)) rfl rfl
  case spinLeave.go r => cases r <;> rfl
  case waitLock.go => exact ite_transport Iff.rfl rfl rfl
  case waiting.go => exact ite_transport Iff.rfl rfl rfl
  case waiting.leave => exact ite_transport Iff.rfl rfl rfl
  case waitReadIdle.go w =>
    exact some_transport rfl (congrArg (Thread.worker v) (apply_ite (WorkerPc.rename T.addr) ..)) rfl rfl
  case waitTest.go w =>
    refine ite_transport (h.reads rfl) (some_transport rfl ?_ rfl rfl) rfl
    exact congrArg (Thread.worker v) (apply_ite (WorkerPc.rename T.addr) ..)
  case exitFree.go w => cases h.heap
  case invoke.go w =>
    refine ite_transport (h.reads rfl) ?_ rfl
    obtain ⟨x, func, arg, flags, gencount⟩ := w
    cases func <;> rfl
  case free.go w => cases h.heap

private theorem overcommitNext_transport {p : OcPc} (h : Plain T sh (.overcommit p)) :
    overcommitNext (sh.transport T) t (p.rename T.addr) ch =
      (overcommitNext sh t p ch).map (Out.transport T) := by
  cases p <;> cases ch <;> try rfl
  case lock.go => exact ite_transport Iff.rfl rfl rfl
  case scan.go => cases h.list
  case fetch.go w => exact ite_transport (h.reads rfl) rfl rfl
  case free.go w g a => cases h.heap
  case call.go w g a => cases g <;> rfl
  case timedwait.leave => exact ite_transport Iff.rfl rfl rfl
  case timedwait.ret rv =>
    exact ite_transport Iff.rfl (ite_transport Iff.rfl rfl (ite_transport Iff.rfl rfl rfl)) rfl

private theorem manager_ite {f : Nat → Nat} {v : ManagerVars} {x : Prop} [Decidable x] {y z : ManagerPc}
    (hy : y.rename f = y) (hz : z.rename f = z) :
    (Thread.manager v (if x then y else z)).rename f = .manager v (if x then y else z) := by
  split
  · exact congrArg _ hy
  · exact congrArg _ hz

private theorem stopLoop_rename {f : Nat → Nat} (i m : Nat) :
    (stopLoop i m).rename f = stopLoop i m := by
  unfold stopLoop
  split <;> rfl

private theorem rampStart_rename {f : Nat → Nat} (v : ManagerVars) :
    (rampStart v).rename f = rampStart v := by
  unfold rampStart
  split <;> rfl

private theorem startReturn_rename {f : Nat → Nat} (v : ManagerVars) (ret : Option Nat) :
    (Thread.manager v (startReturn S ret)).rename f = .manager v (startReturn S ret) := by
  cases ret with
  | none => rfl
  | some i => exact manager_ite rfl rfl

private theorem workerStop_transport {v : ManagerVars} {i m : Nat} {p : StopPc}
    (h : Plain T sh (.manager v (.stop i m p))) :
    workerStop (sh.transport T) t v i m (p.rename T.addr) ch =
      (workerStop sh t v i m p ch).map (Out.transport T) := by
  cases p <;> cases ch <;> try rfl
  case alloc.go => cases h.heap
  case lockMtx.go w => exact ite_transport Iff.rfl rfl rfl
  case find.go w j =>
    refine ite_transport Iff.rfl ?_ rfl
    rw [transport_wqlist]
    cases sh.wqlist j <;> rfl
  case spinLock.go w q =>
    exact withQueue_transport rfl fun wq _ =>
      ite_transport Iff.rfl (goTo_transport { wq with mtx := some t } rfl) rfl
  case atomicOr.go w q =>
    refine withQueue_transport rfl fun wq _ => some_transport rfl ?_ rfl rfl
    exact congrArg (fun x => Thread.manager v (.stop i m x)) (apply_ite (StopPc.rename T.addr) ..)
  case insert.go w q => cases h.list
  case spinUnlock.go q =>
    exact withQueue_transport rfl fun wq _ => goTo_transport { wq with mtx := none } rfl
  case signal.wake woken => exact ite_transport Iff.rfl rfl rfl
  case unlockMtx.go => exact some_transport rfl (congrArg _ (stopLoop_rename ..)) rfl rfl

private theorem managerNext_transport {v : ManagerVars} {p : ManagerPc}
    (h : Plain T sh (.manager v p)) :
    managerNext S (sh.transport T) t v (p.rename T.addr) ch =
      (managerNext S sh t v p ch).map (Out.transport T) := by
  cases p <;> try rfl
  case begin => cases ch <;> rfl
  case beginRunqueue =>
    cases ch <;> try rfl
    exact some_transport rfl (manager_ite rfl rfl) rfl rfl
  case start ret p =>
    cases p <;> cases ch <;> try rfl
    case create.ret code =>
      exact ite_transport Iff.rfl (some_transport rfl (startReturn_rename _ ret) rfl rfl) rfl
    case decCount.go => exact some_transport rfl (startReturn_rename v ret) rfl rfl
  case stop i m p => exact workerStop_transport h
  all_goals cases ch <;> try rfl
  case readIdle.go | readCount.go | readPending.go =>
    exact some_transport rfl (manager_ite rfl (rampStart_rename v)) rfl rfl
  case rampSurplus.go m => exact some_transport rfl (congrArg _ (stopLoop_rename ..)) rfl rfl
  case timedWait.ret code | semWait.ret code =>
    exact ite_transport Iff.rfl (ite_transport Iff.rfl rfl rfl) rfl
  case rampRead.go => exact ite_transport Iff.rfl rfl rfl
  case rampAdd.go => exact ite_transport Iff.rfl rfl rfl
  case stopRead.go i m => exact some_transport rfl (manager_ite rfl (stopLoop_rename ..)) rfl rfl
  all_goals exact some_transport rfl (manager_ite rfl rfl) rfl rfl

private theorem addNext_transport {k : Caller} {w : Work} {p : AddPc} (wq : Workq)
    (h : (Thread.call k (.add q w p)).onList = false) :
    addNext (sh.transport T) t (k.rename T.addr) q (w.rename T.addr) (wq.transport T q) p ch =
      (addNext sh t k q w wq p ch).map (Out.transport T) := by
  cases p <;> cases ch <;> try rfl
  case spinLock.go => exact ite_transport Iff.rfl (goTo_transport { wq with mtx := some t } rfl) rfl
  case testEmpty.go => cases h
  case insert.go => cases h
  case spinUnlock.go => exact goTo_transport { wq with mtx := none } rfl
  case readIdle.go => exact ite_transport Iff.rfl rfl rfl
  case lockMtx.go => exact ite_transport Iff.rfl rfl rfl
  case signal.wake woken => exact ite_transport Iff.rfl rfl rfl

private theorem ocAddNext_transport {k : Caller} {w : Work} {p : OcAddPc} (wq : Workq)
    (h : (Thread.call k (.ocAdd q w p)).onList = false) :
    ocAddNext (sh.transport T) t (k.rename T.addr) q (w.rename T.addr) (wq.transport T q) p ch =
      (ocAddNext sh t k q w wq p ch).map (Out.transport T) := by
  cases p <;> cases ch <;> try rfl
  case lockMtx.go => exact ite_transport Iff.rfl rfl rfl
  case spinLock.go => exact ite_transport Iff.rfl (goTo_transport { wq with mtx := some t } rfl) rfl
  case insert.go => cases h
  case spinUnlock.go => exact goTo_transport { wq with mtx := none } rfl
  case decide.wake woken => exact ite_transport Iff.rfl rfl rfl
  case decide.ret code => exact ite_transport Iff.rfl (ite_transport Iff.rfl rfl rfl) rfl

private theorem register_transport (wq : Workq) :
    register (sh.transport T) q (wq.transport T q) = (register sh q wq).map (Shared.transport T) := by
  have hset := @setQueue_transport sh T q { wq with wqlistIndex := wq.queueprio }
  unfold register
  change (if wq.overcommit = true then if sh.ocwq wq.queueprio = none then _ else none
    else if sh.wqlist wq.queueprio = none then _ else none) = _
  rw [show (sh.transport T).setQueue q
      { wq.transport T q with wqlistIndex := (wq.transport T q).queueprio } =
    (sh.setQueue q { wq with wqlistIndex := wq.queueprio }).transport T from hset]
  split <;> split <;> rfl

private theorem createNext_transport {k : Caller} {c c' : Call} (wq : Workq) (hc : c.rename T.addr = c') :
    createNext (sh.transport T) t (k.rename T.addr) q (wq.transport T q) c' ch =
      (createNext sh t k q wq c ch).map (Out.transport T) := by
  subst hc
  cases c <;> cases ch <;> try rfl
  case createLock.go => exact ite_transport Iff.rfl rfl rfl
  case createManager.go => exact ite_transport Iff.rfl rfl rfl
  case managerStart.ret code => exact ite_transport Iff.rfl rfl (ite_transport Iff.rfl rfl rfl)
  case createRegister.go r =>
    have hreg : register (sh.transport T) q (wq.transport T q) =
      (register sh q wq).map (Shared.transport T) := register_transport wq
    simp only [createNext, Call.rename, hreg]
    cases register sh q wq <;> rfl

private theorem callNext_transport {k : Caller} {c : Call} (h : Plain T sh (.call k c))
    (hT : T.list sh.queues.length [] = []) :
    callNext (sh.transport T) t (k.rename T.addr) (c.rename T.addr) ch =
      (callNext sh t k c ch).map (Out.transport T) := by
  cases c with
  | add q w p => exact withQueue_transport rfl fun wq _ => addNext_transport wq h.list
  | ocAdd q w p => exact withQueue_transport rfl fun wq _ => ocAddNext_transport wq h.list
  | createLock q | createManager q | managerStart q | managerSet q | createRegister q
  | createUnlock q => exact withQueue_transport rfl fun wq _ => createNext_transport wq rfl
  | check q g a =>
    cases ch <;> try rfl
    refine withQueue_transport rfl fun wq _ => ?_
    cases g with
    | none => rfl
    | some g => exact ite_transport Iff.rfl rfl rfl
  | alloc q g a => cases h.heap
  | handle q w =>
    cases ch <;> try rfl
    refine withQueue_transport rfl fun wq _ => ite_transport (h.reads rfl) (some_transport rfl ?_ rfl rfl) rfl
    exact congrArg (Thread.call _) (apply_ite (Call.rename T.addr) ..)
  | createCheck attr =>
    cases ch <;> try rfl
    exact ite_transport Iff.rfl rfl rfl
  | createAlloc attr =>
    cases ch <;> try rfl
    refine ite_transport Iff.rfl ?_ rfl
    have hnew : (newWorkq attr).transport T sh.queues.length = newWorkq attr := by
      unfold Workq.transport
      rw [show (newWorkq attr).itemListhead = [] from rfl, hT]
      rfl
    rw [length_transport, append_transport (newWorkq attr) hnew]
    rfl
  | suspendWait =>
    cases ch <;> try rfl
    exact some_transport rfl (congrArg (Thread.call _) (apply_ite (Call.rename T.addr) ..)) rfl rfl
  | suspendRead | resumeRead =>
    cases ch <;> try rfl
    exact some_transport rfl (apply_ite (Thread.rename T.addr) ..) rfl rfl
  | _ => cases ch <;> rfl

/-- No item is passed to the library. -/
private theorem enter_rename {f : Nat → Nat} {x : Request} {c : Call} (h : x.enter sh = some c) :
    c.rename f = c := by
  cases x with
  | additem q g a =>
    simp only [Request.enter, Option.ite_none_right_eq_some, Option.some.injEq] at h
    obtain ⟨-, rfl⟩ := h
    rfl
  | _ =>
    cases h
    rfl

/-- A step that reads no list and leaves the heap alone. -/
theorem program_transport (h : Plain T sh p) (hT : T.list sh.queues.length [] = []) :
    program S (sh.transport T) t (p.rename T.addr) ch = (program S sh t p ch).map (Out.transport T) := by
  refine ite_transport Iff.rfl ?_ rfl
  cases p with
  | app k =>
    cases ch with
    | request r =>
      have henter : r.enter (sh.transport T) = r.enter sh := by cases r <;> rfl
      simp only [Thread.rename, appNext, henter]
      cases he : r.enter sh with
      | none => rfl
      | some c =>
        have hc : c.rename T.addr = c := enter_rename he
        exact some_transport rfl (congrArg (Thread.call _) hc) rfl rfl
    | go => cases k <;> rfl
    | _ => rfl
  | call k c => exact callNext_transport h hT
  | worker v p => exact workerNext_transport h
  | overcommit p => exact overcommitNext_transport h
  | manager v p => exact managerNext_transport h

end Naturality

end PthreadWorkqueue.Posix
