import PthreadWorkqueue.Posix.Threads

/-! The entry points of `api.c` with the functions of `manager.c` that run in the caller's thread:
`manager_workqueue_create`, `manager_workqueue_additem`, `manager_suspend`, `manager_resume` and
`manager_signal`. -/
namespace PthreadWorkqueue.Posix

def validWorkq (w : Workq) : Bool := w.sig == pthreadWorkqueueSig

/-- A call starts. A handle that the caller passes is one that it was given. -/
def Request.enter (sh : Shared) : Request → Option Call
  | .additem q f a => if q ∈ sh.handles then some (.check q f a) else none
  | .create attr => some (.createCheck attr)
  | .suspend => some .suspendWait
  | .resume => some .resumeRead
  | .signal => some .signalStore

/-- The attribute check of `pthread_workqueue_create_np`. -/
def validAttr : Option Attr → Bool
  | none => true
  | some a => a.sig == pthreadWorkqueueAttrSig && decide (0 ≤ a.queueprio) &&
      decide (a.queueprio < workqNumPrioqueue)

/-- The queue object that `pthread_workqueue_create_np` fills in. -/
def newWorkq (attr : Option Attr) : Workq where
  sig := pthreadWorkqueueSig
  flags := 0
  queueprio := match attr with
    | none => workqDefaultPrioqueue
    | some a => a.queueprio.toNat
  overcommit := match attr with
    | none => false
    | some a => a.overcommit != 0
  wqlistIndex := 0
  itemListhead := []
  mtx := none

theorem newWorkq_bound {attr : Option Attr} (h : validAttr attr = true) :
    (newWorkq attr).queueprio < workqNumPrioqueue := by
  cases attr with
  | none => simp [newWorkq, workqDefaultPrioqueue, workqNumPrioqueue]
  | some a =>
    simp only [validAttr, Bool.and_eq_true, decide_eq_true_eq] at h
    simp only [newWorkq, workqNumPrioqueue] at h ⊢
    omega

/-- The non-overcommit branch of `manager_workqueue_additem`. -/
def addNext (sh : Shared) (t : Tid) (k : Caller) (q : QId) (w : Work) (wq : Workq) :
    AddPc → Choice → Option Out
  | .spinLock, .go =>
    if wq.mtx = none then goTo (sh.setQueue q { wq with mtx := some t }) (.call k (.add q w .testEmpty))
    else none
  | .testEmpty, .go =>
    if wq.itemListhead = [] then goTo sh (.call k (.add q w .atomicOr))
    else goTo sh (.call k (.add q w .insert))
  | .atomicOr, .go =>
    let newMask := sh.wqlistMask ||| indexBit wq.wqlistIndex
    goTo { sh with wqlistMask := newMask }
      (.call k (.add q w (if newMask &&& indexBit wq.wqlistIndex = 0 then .atomicOr else .insert)))
  | .insert, .go =>
    emit (sh.setQueue q { wq with itemListhead := wq.itemListhead ++ [w] })
      (.call k (.add q w .spinUnlock)) (.accept t q w)
  | .spinUnlock, .go => goTo (sh.setQueue q { wq with mtx := none }) (.call k (.add q w .readIdle))
  | .readIdle, .go =>
    if 0 < sh.idle then goTo sh (.call k (.add q w .lockMtx)) else emit sh (.app k) (.returned t 0)
  | .lockMtx, .go =>
    if sh.wqlistMtx = none then goTo { sh with wqlistMtx := some t } (.call k (.add q w .signal))
    else none
  | .signal, .wake woken =>
    if signalled woken sh.wqlistHasWork then
      goTo { sh with wqlistHasWork := wakeUp woken sh.wqlistHasWork } (.call k (.add q w .unlockMtx))
    else none
  | .unlockMtx, .go => emit { sh with wqlistMtx := none } (.app k) (.returned t 0)
  | _, _ => none

/-- The overcommit branch of `manager_workqueue_additem`. From the mask update to the end of the
branch only the holder of `ocwq_mtx` acts on what it reads, so `decide` is one step. -/
def ocAddNext (sh : Shared) (t : Tid) (k : Caller) (q : QId) (w : Work) (wq : Workq) :
    OcAddPc → Choice → Option Out
  | .lockMtx, .go =>
    if sh.ocwqMtx = none then goTo { sh with ocwqMtx := some t } (.call k (.ocAdd q w .spinLock))
    else none
  | .spinLock, .go =>
    if wq.mtx = none then goTo (sh.setQueue q { wq with mtx := some t }) (.call k (.ocAdd q w .insert))
    else none
  | .insert, .go =>
    emit (sh.setQueue q { wq with itemListhead := wq.itemListhead ++ [w] })
      (.call k (.ocAdd q w .spinUnlock)) (.accept t q w)
  | .spinUnlock, .go => goTo (sh.setQueue q { wq with mtx := none }) (.call k (.ocAdd q w .decide))
  | .decide, .wake woken =>
    if 0 < sh.ocwqIdleThreads ∧ signalled woken sh.ocwqHasWork then
      goTo { sh with
          ocwqMask := sh.ocwqMask ||| indexBit wq.wqlistIndex
          ocwqHasWork := wakeUp woken sh.ocwqHasWork
          ocwqIdleThreads := atomicDec sh.ocwqIdleThreads
          ocwqSignalCount := sh.ocwqSignalCount + 1 }
        (.call k (.ocAdd q w .unlockMtx))
    else none
  | .decide, .ret code =>
    if sh.ocwqIdleThreads = 0 then
      let sh' := { sh with ocwqMask := sh.ocwqMask ||| indexBit wq.wqlistIndex }
      -- the result of pthread_create is ignored
      if code = 0 then spawn sh' (.call k (.ocAdd q w .unlockMtx)) .overcommitWorkerMain
      else goTo sh' (.call k (.ocAdd q w .unlockMtx))
    else none
  | .unlockMtx, .go => emit { sh with ocwqMtx := none } (.app k) (.returned t 0)
  | _, _ => none

/-- The registration in `manager_workqueue_create`, under `wqlist_mtx`: the slot of the queue's
priority and kind, and its index. There is no result if the slot is occupied. -/
def register (sh : Shared) (q : QId) (wq : Workq) : Option Shared :=
  let sh' := sh.setQueue q { wq with wqlistIndex := wq.queueprio }
  if wq.overcommit then
    if sh.ocwq wq.queueprio = none then
      some { sh' with ocwq := Function.update sh.ocwq wq.queueprio (some q) }
    else none
  else
    if sh.wqlist wq.queueprio = none then
      some { sh' with wqlist := Function.update sh.wqlist wq.queueprio (some q) }
    else none

/-- `pthread_workqueue_create_np` once its queue object exists. -/
def createNext (sh : Shared) (t : Tid) (k : Caller) (q : QId) (wq : Workq) :
    Call → Choice → Option Out
  | .createLock _, .go =>
    if sh.wqlistMtx = none then goTo { sh with wqlistMtx := some t } (.call k (.createManager q))
    else none
  | .createManager _, .go =>
    if !wq.overcommit && !sh.wqlistHasManager then goTo sh (.call k (.managerStart q))
    else goTo sh (.call k (.createRegister q))
  | .managerStart _, .ret code =>
    if code = 0 then spawn sh (.call k (.managerSet q)) .managerMain
    else if code = eagain then goTo sh (.call k (.managerStart q))
    else goTo (sh.halt .abort) (.call k (.managerStart q))
  | .managerSet _, .go => goTo { sh with wqlistHasManager := true } (.call k (.createRegister q))
  | .createRegister _, .go =>
    match register sh q wq with
    | some sh' => goTo sh' (.call k (.createUnlock q))
    | none => goTo (sh.halt .abort) (.call k (.createRegister q))
  | .createUnlock _, .go =>
    emit { sh with wqlistMtx := none, handles := sh.handles ++ [q] } (.app k) (.returned t 0)
  | _, _ => none

/-- A dangling queue pointer ends the process. -/
def withQueue (sh : Shared) (p : Thread) (q : QId) (f : Workq → Option Out) : Option Out :=
  match sh.queues[q]? with
  | some wq => f wq
  | none => goTo (sh.halt .nullQueue) p

def callNext (sh : Shared) (t : Tid) (k : Caller) (c : Call) (ch : Choice) : Option Out :=
  match c, ch with
  | .check q f a, .go => withQueue sh (.call k c) q fun wq =>
    match f with
    | some f => if validWorkq wq then goTo sh (.call k (.alloc q f a))
      else emit sh (.app k) (.returned t einval)
    | none => emit sh (.app k) (.returned t einval)
  | .alloc q f a, .go =>
    let (sh', w) := sh.witemAlloc (some f) a
    emit sh' (.call k (.handle q w)) (.alloc t w)
  | .handle q w, .go => withQueue sh (.call k c) q fun wq =>
    -- *gencountp reads the item
    if sh.live w then
      goTo sh (.call k (if wq.overcommit then .ocAdd q w .lockMtx else .add q w .spinLock))
    else goTo (sh.halt .useAfterFree) (.call k c)
  | .add q w p, ch => withQueue sh (.call k c) q fun wq => addNext sh t k q w wq p ch
  | .ocAdd q w p, ch => withQueue sh (.call k c) q fun wq => ocAddNext sh t k q w wq p ch
  | .createCheck attr, .go =>
    if validAttr attr then goTo sh (.call k (.createAlloc attr))
    else emit sh (.app k) (.returned t einval)
  | .createAlloc attr, .ret code =>
    if code = 0 then
      goTo { sh with queues := sh.queues ++ [newWorkq attr] } (.call k (.createLock sh.queues.length))
    else emit sh (.app k) (.returned t enomem)
  | .createLock q, ch | .createManager q, ch | .managerStart q, ch | .managerSet q, ch
  | .createRegister q, ch | .createUnlock q, ch =>
    withQueue sh (.call k c) q fun wq => createNext sh t k q wq c ch
  | .suspendWait, .go =>
    goTo sh (.call k (if sh.wqlistHasManager then .suspendRead else .suspendWait))
  | .suspendRead, .go => goTo sh (if sh.sbSuspend then .app k else .call k .suspendStore)
  | .suspendStore, .go => goTo { sh with sbSuspend := true } (.app k)
  | .resumeRead, .go => goTo sh (if sh.sbSuspend then .call k .resumeStore else .app k)
  | .resumeStore, .go => goTo { sh with sbSuspend := false } (.call k .resumePost)
  | .resumePost, .go => goTo { sh with sbSem := semPost sh.sbSem } (.app k)
  | .signalStore, .go => goTo { sh with sbSuspend := false } (.call k .signalInc)
  | .signalInc, .go =>
    goTo { sh with aboutToWait := atomicIncUnsigned sh.aboutToWait } (.call k .signalPost)
  | .signalPost, .go => goTo { sh with sbSem := semPost sh.sbSem } (.app k)
  | _, _ => none

end PthreadWorkqueue.Posix
