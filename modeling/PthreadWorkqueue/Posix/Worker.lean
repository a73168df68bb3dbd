import PthreadWorkqueue.Posix.Api

/-! The worker threads: `worker_main` with `wqlist_scan`, `wqlist_scan_spin` and `wqlist_scan_wait`,
and `overcommit_worker_main`. -/
namespace PthreadWorkqueue.Posix

/-- Where a worker goes when its `wqlist_scan` returns. -/
def scanReturn : ScanKind → Option Work → WorkerPc
  | .fast, none => .spinEnter
  | .fast, some w => .decIdle w
  | .spin, none => .scan .spin .readMask
  | .spin, some w => .spinReadIdle w
  | .wait, none => .condWait
  | .wait, some w => .waitUnlock w

def scanNext (sh : Shared) (t : Tid) (v : WorkerVars) (k : ScanKind) : ScanPc → Option Out
  | .readMask =>
    let idx := ffs sh.wqlistMask
    emit sh (.worker v (if idx = 0 then scanReturn k none else .scan k (.readSlot idx))) (.readMask t)
  | .readSlot idx =>
    match sh.wqlist (idx - 1) with
    | some q => goTo sh (.worker v (.scan k (.lock q)))
    | none => goTo (sh.halt .nullQueue) (.worker v (.scan k (.readSlot idx)))
  | .lock q => withQueue sh (.worker v (.scan k (.lock q))) q fun wq =>
    if wq.mtx = none then
      goTo (sh.setQueue q { wq with mtx := some t }) (.worker v (.scan k (.first q)))
    else none
  | .first q => withQueue sh (.worker v (.scan k (.first q))) q fun wq =>
    match wq.itemListhead with
    | [] => goTo sh (.worker v (.scan k (.unlock q none)))
    | w :: _ =>
      if k.skipThreadExitEvents then
        if sh.live w then
          goTo sh (.worker v (.scan k (if w.func = none then .unlock q none else .remove q w)))
        else goTo (sh.halt .useAfterFree) (.worker v (.scan k (.first q)))
      else goTo sh (.worker v (.scan k (.remove q w)))
  | .remove q w => withQueue sh (.worker v (.scan k (.remove q w))) q fun wq =>
    emit (sh.setQueue q { wq with itemListhead := wq.itemListhead.tail })
      (.worker { v with queuePriority := wq.queueprio }
        (.scan k (if wq.itemListhead.tail = [] then .clear q w else .unlock q (some w))))
      (.dequeue t q w)
  | .clear q w => withQueue sh (.worker v (.scan k (.clear q w))) q fun wq =>
    -- reset_queue_mask
    let newMask := sh.wqlistMask &&& ~~~ indexBit wq.wqlistIndex
    goTo { sh with wqlistMask := newMask }
      (.worker v (.scan k
        (if newMask &&& indexBit wq.wqlistIndex = 0 then .unlock q (some w) else .clear q w)))
  | .unlock q r => withQueue sh (.worker v (.scan k (.unlock q r))) q fun wq =>
    goTo (sh.setQueue q { wq with mtx := none }) (.worker v (scanReturn k r))

/-- The real-time priority follows the queue's just before the callback. -/
def WorkerVars.adopt (S : Settings) (v : WorkerVars) : WorkerVars :=
  if S.pwqRtThreads && v.currentThreadPriority != v.queuePriority then
    { v with currentThreadPriority := v.queuePriority }
  else v

def workerNext (S : Settings) (sh : Shared) (t : Tid) (v : WorkerVars) :
    WorkerPc → Choice → Option Out
  | .start, .go =>
    goTo { sh with pendingThreadCreate := atomicDec sh.pendingThreadCreate }
      (.worker v (.scan .fast .readMask))
  | .scan k p, .go => scanNext sh t v k p
  /- wqlist_scan_spin -/
  | .spinEnter, .go =>
    let n := atomicInc sh.currentThreadsSpinning
    goTo { sh with currentThreadsSpinning := n }
      (.worker v (if n ≤ S.pwqSpinThreads then .scan .spin .readMask else .spinLeave none))
  | .spinReadIdle w, .go =>
    goTo sh (.worker v (if sh.idle = 1 then .spinPost w else .spinLeave (some w)))
  | .spinPost w, .go => goTo { sh with sbSem := semPost sh.sbSem } (.worker v (.spinLeave (some w)))
  | .spinLeave r, .go =>
    goTo { sh with currentThreadsSpinning := atomicDec sh.currentThreadsSpinning }
      (.worker v (match r with
        | some w => .decIdle w
        | none => .waitLock))
  /- wqlist_scan_wait -/
  | .waitLock, .go =>
    if sh.wqlistMtx = none then
      goTo { sh with wqlistMtx := some t } (.worker v (.scan .wait .readMask))
    else none
  | .condWait, .go =>
    goTo { sh with wqlistMtx := none, wqlistHasWork := t :: sh.wqlistHasWork } (.worker v .waiting)
  | .waiting, .leave =>
    if t ∈ sh.wqlistHasWork then
      goTo { sh with wqlistHasWork := wakeUp [t] sh.wqlistHasWork } (.worker v .waiting)
    else none
  | .waiting, .go =>
    if t ∉ sh.wqlistHasWork ∧ sh.wqlistMtx = none then
      goTo { sh with wqlistMtx := some t } (.worker v (.scan .wait .readMask))
    else none
  | .waitUnlock w, .go => goTo { sh with wqlistMtx := none } (.worker v (.waitReadIdle w))
  | .waitReadIdle w, .go =>
    goTo sh (.worker v (if sh.idle = 1 then .waitPost w else .waitTest w))
  | .waitPost w, .go => goTo { sh with sbSem := semPost sh.sbSem } (.worker v (.waitTest w))
  | .waitTest w, .go =>
    if sh.live w then goTo sh (.worker v (if w.func = none then .exitDecIdle w else .decIdle w))
    else goTo (sh.halt .useAfterFree) (.worker v (.waitTest w))
  | .exitDecIdle w, .go => goTo { sh with idle := atomicDec sh.idle } (.worker v (.exitDecCount w))
  | .exitDecCount w, .go => goTo { sh with count := atomicDec sh.count } (.worker v (.exitFree w))
  | .exitFree w, .go => emit (sh.witemFree w) (.worker v .exited) (.free t w)
  /- the callback -/
  | .decIdle w, .go =>
    goTo { sh with idle := atomicDec sh.idle } (.worker (v.adopt S) (.invoke w))
  | .invoke w, .go =>
    if sh.live w then
      match w.func with
      | some f => emit sh (.app (.worker v w)) (.invoke t w f w.funcArg)
      | none => goTo (sh.halt .nullFunc) (.worker v (.invoke w))
    else goTo (sh.halt .useAfterFree) (.worker v (.invoke w))
  | .incIdle w, .go => goTo { sh with idle := atomicInc sh.idle } (.worker v (.free w))
  | .free w, .go => emit (sh.witemFree w) (.worker v (.scan .fast .readMask)) (.free t w)
  | _, _ => none

/-- The scan of an overcommit worker that holds `ocwq_mtx`: the head of the first queue in the
mask, or else the wait. -/
def ocScanNext (sh : Shared) (t : Tid) : Option Out :=
  let idx := ffs sh.ocwqMask
  let wait : Option Out :=
    goTo { sh with
        ocwqIdleThreads := sh.ocwqIdleThreads + 1
        ocwqMtx := none
        ocwqHasWork := t :: sh.ocwqHasWork }
      (.overcommit .timedwait)
  if idx = 0 then wait
  else
    match sh.ocwq (idx - 1) with
    | none => goTo (sh.halt .nullQueue) (.overcommit .scan)
    | some q => withQueue sh (.overcommit .scan) q fun wq =>
      match wq.itemListhead with
      | [] => wait
      | w :: rest =>
        let sh' := sh.setQueue q { wq with itemListhead := rest }
        emit (if rest = [] then
            { sh' with ocwqMask := sh.ocwqMask &&& ~~~ indexBit wq.wqlistIndex } else sh')
          (.overcommit (.unlock w)) (.dequeue t q w)

def overcommitNext (sh : Shared) (t : Tid) : OcPc → Choice → Option Out
  | .lock, .go =>
    if sh.ocwqMtx = none then goTo { sh with ocwqMtx := some t } (.overcommit .scan) else none
  | .scan, .go => ocScanNext sh t
  | .unlock w, .go => goTo { sh with ocwqMtx := none } (.overcommit (.fetch w))
  | .fetch w, .go =>
    if sh.live w then goTo sh (.overcommit (.free w w.func w.funcArg))
    else goTo (sh.halt .useAfterFree) (.overcommit (.fetch w))
  | .free w f a, .go => emit (sh.witemFree w) (.overcommit (.call w f a)) (.free t w)
  | .call w f a, .go =>
    match f with
    | some f => emit sh (.app (.overcommit w)) (.invoke t w f a)
    | none => goTo (sh.halt .nullFunc) (.overcommit (.call w f a))
  | .timedwait, .leave =>
    if t ∈ sh.ocwqHasWork then
      goTo { sh with ocwqHasWork := wakeUp [t] sh.ocwqHasWork } (.overcommit .timedwait)
    else none
  | .timedwait, .ret rv =>
    if t ∉ sh.ocwqHasWork ∧ sh.ocwqMtx = none then
      if 0 < sh.ocwqSignalCount then
        goTo { sh with ocwqMtx := some t, ocwqSignalCount := atomicDec sh.ocwqSignalCount }
          (.overcommit .scan)
      else if rv = 0 ∨ rv = etimedout then
        goTo { sh with ocwqMtx := some t, ocwqIdleThreads := atomicDec sh.ocwqIdleThreads }
          (.overcommit .unlockExit)
      else goTo (sh.halt .abort) (.overcommit .timedwait)
    else none
  | .unlockExit, .go => goTo { sh with ocwqMtx := none } (.overcommit .cleanup)
  | .cleanup, .go => goTo sh (.overcommit .exited)
  | _, _ => none

end PthreadWorkqueue.Posix
