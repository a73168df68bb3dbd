import PthreadWorkqueue.Posix.Worker

/-! The manager thread: `manager_main` with `worker_start` and `worker_stop`. -/
namespace PthreadWorkqueue.Posix

/-- The `worker_min` loop at number `i`. -/
def minLoop (S : Settings) (i : Nat) : ManagerPc :=
  if i < S.workerMin then .start (some i) .incPending else .top

def startReturn (S : Settings) : Option Nat → ManagerPc
  | some i => minLoop S (i + 1)
  | none => .top

/-- `worker_start`. The failure branch undoes two of the three increments. -/
def workerStart (S : Settings) (sh : Shared) (t : Tid) (v : ManagerVars) (ret : Option Nat) :
    StartPc → Choice → Option Out
  | .incPending, .go =>
    goTo { sh with pendingThreadCreate := atomicInc sh.pendingThreadCreate }
      (.manager v (.start ret .incIdle))
  | .incIdle, .go => goTo { sh with idle := atomicInc sh.idle } (.manager v (.start ret .incCount))
  | .incCount, .go => goTo { sh with count := atomicInc sh.count } (.manager v (.start ret .create))
  | .create, .ret code =>
    if code = 0 then spawn sh (.manager v (startReturn S ret)) .workerMain
    else emit sh (.manager v (.start ret .decIdle)) (.workerCreateFailed t)
  | .decIdle, .go => goTo { sh with idle := atomicDec sh.idle } (.manager v (.start ret .decCount))
  | .decCount, .go => goTo { sh with count := atomicDec sh.count } (.manager v (startReturn S ret))
  | _, _ => none

/-- The stop loop of the ramp-down at number `i`. -/
def stopLoop (i m : Nat) : ManagerPc := if i < m then .stopRead i m else .top

/-- `worker_stop`, called at number `i` of the stop loop. -/
def workerStop (sh : Shared) (t : Tid) (v : ManagerVars) (i m : Nat) : StopPc → Choice → Option Out
  | .alloc, .go =>
    let (sh', w) := sh.witemAlloc none 0
    emit sh' (.manager v (.stop i m (.lockMtx w))) (.alloc t w)
  | .lockMtx w, .go =>
    if sh.wqlistMtx = none then
      goTo { sh with wqlistMtx := some t } (.manager v (.stop i m (.find w 0)))
    else none
  | .find w j, .go =>
    if j < pthreadWorkqueueMax then
      match sh.wqlist j with
      | some q => goTo sh (.manager v (.stop i m (.spinLock w q)))
      | none => goTo sh (.manager v (.stop i m (.find w (j + 1))))
    else goTo (sh.halt .abort) (.manager v (.stop i m (.find w j)))
  | .spinLock w q, .go => withQueue sh (.manager v (.stop i m (.spinLock w q))) q fun wq =>
    if wq.mtx = none then
      goTo (sh.setQueue q { wq with mtx := some t }) (.manager v (.stop i m (.atomicOr w q)))
    else none
  | .atomicOr w q, .go => withQueue sh (.manager v (.stop i m (.atomicOr w q))) q fun wq =>
    let newMask := sh.wqlistMask ||| indexBit wq.wqlistIndex
    goTo { sh with wqlistMask := newMask }
      (.manager v (.stop i m
        (if newMask &&& indexBit wq.wqlistIndex = 0 then .atomicOr w q else .insert w q)))
  | .insert w q, .go => withQueue sh (.manager v (.stop i m (.insert w q))) q fun wq =>
    emit (sh.setQueue q { wq with itemListhead := wq.itemListhead ++ [w] })
      (.manager v (.stop i m (.spinUnlock q))) (.post t q w)
  | .spinUnlock q, .go => withQueue sh (.manager v (.stop i m (.spinUnlock q))) q fun wq =>
    goTo (sh.setQueue q { wq with mtx := none }) (.manager v (.stop i m .signal))
  | .signal, .wake woken =>
    if signalled woken sh.wqlistHasWork then
      goTo { sh with wqlistHasWork := wakeUp woken sh.wqlistHasWork }
        (.manager v (.stop i m .unlockMtx))
    else none
  | .unlockMtx, .go => goTo { sh with wqlistMtx := none } (.manager v (stopLoop (i + 1) m))
  | _, _ => none

/-- The branch of the main loop in which no worker is created: only the timer tick looks at
ramping down. -/
def rampStart (v : ManagerVars) : ManagerPc := if v.semTimedwaitRv = etimedout then .rampRead else .top

/-- The wait at the top of the main loop. -/
def managerSleep (sh : Shared) (v : ManagerVars) : ManagerPc → Choice → Option Out
  | .top, .go => goTo sh (.manager v (if sh.sbSuspend then .semWait else .timedWait))
  | .timedWait, .ret code =>
    if code = 0 then
      if 0 < sh.sbSem then
        goTo { sh with sbSem := sh.sbSem - 1 } (.manager { v with semTimedwaitRv := 0 } .readIdle)
      else none
    else goTo sh (.manager { v with semTimedwaitRv := code } .readIdle)
  | .semWait, .ret code =>
    if code = 0 then
      if 0 < sh.sbSem then goTo { sh with sbSem := sh.sbSem - 1 } (.manager v .readIdle) else none
    else goTo sh (.manager v .readIdle)
  | _, _ => none

/-- The spawn decision, one read of the scoreboard at a time. -/
def managerSpawn (S : Settings) (sh : Shared) (v : ManagerVars) : ManagerPc → Choice → Option Out
  | .readIdle, .go => goTo sh (.manager v (if sh.idle = 0 then .readCount else rampStart v))
  | .readCount, .go => goTo sh (.manager v (if 0 < sh.count then .readPending else rampStart v))
  | .readPending, .go =>
    goTo sh (.manager v (if sh.pendingThreadCreate = 0 then .readAbout else rampStart v))
  | .readAbout, .go => goTo sh (.manager v (if sh.aboutToWait ≠ 0 then .decAbout else .readThreshold))
  | .decAbout, .go =>
    goTo { sh with aboutToWait := atomicDec sh.aboutToWait } (.manager v (.start none .incPending))
  | .readThreshold, .go =>
    goTo sh (.manager v
      (if sh.count < S.workerIdleThreshold then .start none .incPending else .readMax))
  | .readMax, .go => goTo sh (.manager v (if sh.count < v.workerMax then .runnable else .top))
  -- threads_runnable; a failure counts no thread
  | .runnable, .value n => goTo sh (.manager { v with currentThreadCount := n }
      (if n ≤ S.cpuCount then .runqueue else .top))
  | .runnable, .ret _ => goTo sh (.manager { v with currentThreadCount := 0 } .runqueue)
  | .runqueue, .value n =>
    goTo { sh with runqueueLength := n } (.manager v (if n ≤ S.cpuCount then .readIdleAgain else .top))
  | .readIdleAgain, .go =>
    goTo sh (.manager v (if sh.idle = 0 then .start none .incPending else .top))
  | _, _ => none

/-- The ramp-down of the timer tick. The surplus is an unsigned difference. -/
def managerRamp (S : Settings) (sh : Shared) (v : ManagerVars) : ManagerPc → Choice → Option Out
  | .rampRead, .go =>
    if S.workerIdleThreshold < sh.idle then goTo sh (.manager v .rampAdd)
    else goTo sh (.manager { v with workerIdleSecondsAccumulated := 0 } .top)
  | .rampAdd, .go =>
    let acc := (v.workerIdleSecondsAccumulated + sh.idle) % 2 ^ 32
    let maxThreadsToStop := acc / workerIdleSecondsThreshold
    if 0 < maxThreadsToStop then
      goTo sh (.manager { v with workerIdleSecondsAccumulated := 0 } (.rampSurplus maxThreadsToStop))
    else goTo sh (.manager { v with workerIdleSecondsAccumulated := acc } .top)
  | .rampSurplus m, .go =>
    let idleSurplusThreads := (sh.idle + (2 ^ 32 - S.workerIdleThreshold)) % 2 ^ 32
    goTo sh (.manager v (stopLoop 0 (if idleSurplusThreads < m then idleSurplusThreads else m)))
  | .stopRead i m, .go =>
    goTo sh (.manager v
      (if S.workerIdleThreshold < sh.idle then .stop i m .alloc else stopLoop (i + 1) m))
  | _, _ => none

def managerNext (S : Settings) (sh : Shared) (t : Tid) (v : ManagerVars) (p : ManagerPc)
    (ch : Choice) : Option Out :=
  match p with
  | .begin => match ch with
    | .value n => goTo sh (.manager { v with workerMax := n } .beginRunqueue)
    | _ => none
  | .beginRunqueue => match ch with
    | .value n => goTo { sh with runqueueLength := n } (.manager v (minLoop S 0))
    | _ => none
  | .start ret p => workerStart S sh t v ret p ch
  | .top | .timedWait | .semWait => managerSleep sh v p ch
  | .readIdle | .readCount | .readPending | .readAbout | .decAbout | .readThreshold | .readMax
  | .runnable | .runqueue | .readIdleAgain => managerSpawn S sh v p ch
  | .rampRead | .rampAdd | .rampSurplus _ | .stopRead _ _ => managerRamp S sh v p ch
  | .stop i m p => workerStop sh t v i m p ch

end PthreadWorkqueue.Posix
