import PthreadWorkqueue.Posix.WorkerSteps

/-! What a step of the manager can do, and then what a step of the program can do. -/
namespace PthreadWorkqueue.Posix
open Concurrency

/-- The points of `manager_main` outside `worker_start` and `worker_stop`. -/
def ManagerPc.plain : ManagerPc → Bool
  | .start _ _ | .stop _ _ _ => false
  | _ => true

/-- The points at which the manager has begun neither a `worker_start` nor a `worker_stop`. -/
def ManagerPc.between : ManagerPc → Bool
  | .start _ p => p == .incPending
  | .stop _ _ p => p == .alloc
  | _ => true

inductive ManagerStep (S : Settings) (sh : Shared) (t : Tid) (v : ManagerVars) :
    ManagerPc → Choice → Out → Prop where
  | fault {p ch h} : Fault sh (.manager v p) h →
      ManagerStep S sh t v p ch ⟨sh.halt h, .manager v p, [], []⟩
  | plain {p p' v' ch sh'} : Quiet sh sh' → p.plain = true → p'.between = true →
      managerNext S sh t v p ch = some ⟨sh', .manager v' p', [], []⟩ →
      ManagerStep S sh t v p ch ⟨sh', .manager v' p', [], []⟩
  /- worker_start -/
  | incPending {r} : ManagerStep S sh t v (.start r .incPending) .go
      ⟨{ sh with pendingThreadCreate := sh.pendingThreadCreate + 1 },
        .manager v (.start r .incIdle), [], []⟩
  | incIdle {r} : ManagerStep S sh t v (.start r .incIdle) .go
      ⟨{ sh with idle := sh.idle + 1 }, .manager v (.start r .incCount), [], []⟩
  | incCount {r} : ManagerStep S sh t v (.start r .incCount) .go
      ⟨{ sh with count := sh.count + 1 }, .manager v (.start r .create), [], []⟩
  | created {r} : ManagerStep S sh t v (.start r .create) (.ret 0)
      ⟨sh, .manager v (startReturn S r), [.workerMain], []⟩
  | createFailed {r code} : code ≠ 0 → ManagerStep S sh t v (.start r .create) (.ret code)
      ⟨sh, .manager v (.start r .decIdle), [], [.workerCreateFailed t]⟩
  | decIdle {r} : ManagerStep S sh t v (.start r .decIdle) .go
      ⟨{ sh with idle := atomicDec sh.idle }, .manager v (.start r .decCount), [], []⟩
  | decCount {r} : ManagerStep S sh t v (.start r .decCount) .go
      ⟨{ sh with count := atomicDec sh.count }, .manager v (startReturn S r), [], []⟩
  /- worker_stop -/
  | alloc {i m} : ManagerStep S sh t v (.stop i m .alloc) .go
      ⟨(sh.witemAlloc none 0).1, .manager v (.stop i m (.lockMtx (sh.witemAlloc none 0).2)), [],
        [.alloc t (sh.witemAlloc none 0).2]⟩
  | lockMtx {i m w} : sh.wqlistMtx = none → ManagerStep S sh t v (.stop i m (.lockMtx w)) .go
      ⟨{ sh with wqlistMtx := some t }, .manager v (.stop i m (.find w 0)), [], []⟩
  | find {i m w j q} : j < pthreadWorkqueueMax → sh.wqlist j = some q →
      ManagerStep S sh t v (.stop i m (.find w j)) .go
        ⟨sh, .manager v (.stop i m (.spinLock w q)), [], []⟩
  | findNext {i m w j} : sh.wqlist j = none → ManagerStep S sh t v (.stop i m (.find w j)) .go
        ⟨sh, .manager v (.stop i m (.find w (j + 1))), [], []⟩
  | spinLock {i m w q wq} : sh.queues[q]? = some wq → wq.mtx = none →
      ManagerStep S sh t v (.stop i m (.spinLock w q)) .go
        ⟨sh.setQueue q { wq with mtx := some t }, .manager v (.stop i m (.atomicOr w q)), [], []⟩
  | atomicOr {i m w q wq p} : sh.queues[q]? = some wq →
      p = (if (sh.wqlistMask ||| indexBit wq.wqlistIndex) &&& indexBit wq.wqlistIndex = 0
        then .atomicOr w q else .insert w q) →
      ManagerStep S sh t v (.stop i m (.atomicOr w q)) .go
        ⟨{ sh with wqlistMask := sh.wqlistMask ||| indexBit wq.wqlistIndex },
          .manager v (.stop i m p), [], []⟩
  | insert {i m w q wq} : sh.queues[q]? = some wq →
      ManagerStep S sh t v (.stop i m (.insert w q)) .go
        ⟨sh.setQueue q { wq with itemListhead := wq.itemListhead ++ [w] },
          .manager v (.stop i m (.spinUnlock q)), [], [.post t q w]⟩
  | spinUnlock {i m q wq} : sh.queues[q]? = some wq →
      ManagerStep S sh t v (.stop i m (.spinUnlock q)) .go
        ⟨sh.setQueue q { wq with mtx := none }, .manager v (.stop i m .signal), [], []⟩
  | signal {i m woken} : signalled woken sh.wqlistHasWork = true →
      ManagerStep S sh t v (.stop i m .signal) (.wake woken)
        ⟨{ sh with wqlistHasWork := wakeUp woken sh.wqlistHasWork },
          .manager v (.stop i m .unlockMtx), [], []⟩
  | unlockMtx {i m} : ManagerStep S sh t v (.stop i m .unlockMtx) .go
      ⟨{ sh with wqlistMtx := none }, .manager v (stopLoop (i + 1) m), [], []⟩

variable {S : Settings} {sh : Shared} {t : Tid} {v : ManagerVars} {ch : Choice} {o : Out}

@[simp] theorem minLoop_between (i : Nat) : (minLoop S i).between = true := by
  unfold minLoop; split <;> rfl

@[simp] theorem startReturn_between (r : Option Nat) : (startReturn S r).between = true := by
  cases r
  · rfl
  · exact minLoop_between _

@[simp] theorem stopLoop_between (i m : Nat) : (stopLoop i m).between = true := by
  unfold stopLoop; split <;> rfl

@[simp] theorem rampStart_between : (rampStart v).between = true := by
  unfold rampStart; split <;> rfl

private theorem start_step {r : Option Nat} {p : StartPc}
    (h : workerStart S sh t v r p ch = some o) : ManagerStep S sh t v (.start r p) ch o := by
  cases p <;> cases ch <;> simp only [workerStart, goTo, emit, spawn, reduceCtorEq,
    Option.some.injEq] at h
  case incPending => subst h; exact .incPending
  case incIdle => subst h; exact .incIdle
  case incCount => subst h; exact .incCount
  case create =>
    split at h <;> cases h
    · subst_vars; exact .created
    · exact .createFailed (by assumption)
  case decIdle => subst h; exact .decIdle
  case decCount => subst h; exact .decCount

private theorem stop_step {i m : Nat} {p : StopPc} (h : workerStop sh t v i m p ch = some o) :
    ManagerStep S sh t v (.stop i m p) ch o := by
  cases p <;> cases ch <;> simp only [workerStop, goTo, emit, reduceCtorEq, Option.some.injEq,
    Option.ite_none_right_eq_some] at h
  case alloc => subst h; exact .alloc
  case lockMtx => obtain ⟨hm, rfl⟩ := h; exact .lockMtx hm
  case find w j =>
    split at h
    · split at h <;> cases h
      · exact .find (by assumption) (by assumption)
      · exact .findNext (by assumption)
    · cases h
      exact .fault .abort
  case spinLock =>
    obtain ⟨wq, hq, h⟩ | rfl := withQueue_eq_some h
    · simp only [Option.ite_none_right_eq_some, Option.some.injEq] at h
      obtain ⟨hm, rfl⟩ := h
      exact .spinLock hq hm
    · exact .fault .nullQueue
  case atomicOr =>
    obtain ⟨wq, hq, h⟩ | rfl := withQueue_eq_some h
    · cases h; exact .atomicOr hq rfl
    · exact .fault .nullQueue
  case insert =>
    obtain ⟨wq, hq, h⟩ | rfl := withQueue_eq_some h
    · cases h; exact .insert hq
    · exact .fault .nullQueue
  case spinUnlock =>
    obtain ⟨wq, hq, h⟩ | rfl := withQueue_eq_some h
    · cases h; exact .spinUnlock hq
    · exact .fault .nullQueue
  case signal => obtain ⟨hw, rfl⟩ := h; exact .signal hw
  case unlockMtx => subst h; exact .unlockMtx

private theorem plain_step {p : ManagerPc} (hp : p.plain = true)
    (h : managerNext S sh t v p ch = some o) :
    ∃ sh' v' p', o = ⟨sh', .manager v' p', [], []⟩ ∧ Quiet sh sh' ∧ p'.between = true := by
  cases p <;> cases hp <;> cases ch <;> simp only [managerNext, managerSleep, managerSpawn,
    managerRamp, goTo, reduceCtorEq, Option.some.injEq] at h
  all_goals (repeat' split at h)
  all_goals cases h
  all_goals refine ⟨_, _, _, rfl, ⟨_, _, _, _, rfl⟩, ?_⟩
  all_goals first
    | rfl
    | simp

theorem manager_step {p : ManagerPc} (h : managerNext S sh t v p ch = some o) :
    ManagerStep S sh t v p ch o := by
  cases hp : p.plain with
  | true =>
    obtain ⟨sh', v', p', rfl, hq, hb⟩ := plain_step hp h
    exact .plain hq hp hb h
  | false =>
    cases p <;> cases hp
    · exact start_step h
    · exact stop_step h

/-- A step of the program, by the kind of the thread that makes it. -/
inductive Step (S : Settings) (sh : Shared) (t : Tid) : Thread → Choice → Out → Prop where
  | app {k ch o} : AppStep sh k o → Step S sh t (.app k) ch o
  | call {k c ch o} : CallStep sh t k c ch o → Step S sh t (.call k c) ch o
  | worker {v p ch o} : WorkerStep S sh t v p ch o → Step S sh t (.worker v p) ch o
  | overcommit {p ch o} : OvercommitStep sh t p ch o → Step S sh t (.overcommit p) ch o
  | manager {v p ch o} : ManagerStep S sh t v p ch o → Step S sh t (.manager v p) ch o

theorem program_step {p : Thread} (h : program S sh t p ch = some o) :
    sh.halted = none ∧ Step S sh t p ch o := by
  simp only [program, Option.ite_none_right_eq_some] at h
  obtain ⟨hn, h⟩ := h
  refine ⟨hn, ?_⟩
  cases p with
  | app k => exact .app (app_step h)
  | call k c => exact .call (call_step h)
  | worker v p => exact .worker (worker_step h)
  | overcommit p => exact .overcommit (overcommit_step h)
  | manager v p => exact .manager (manager_step h)

/-- The library starts threads at three entry points only. -/
theorem Step.spawned {p : Thread} (h : Step S sh t p ch o) : ∀ r ∈ o.spawned,
    r = .workerMain ∨ r = .overcommitWorkerMain ∨ r = .managerMain := by
  cases h with
  | app h => cases h <;> simp
  | call h => cases h <;> simp
  | worker h => cases h <;> simp
  | overcommit h => cases h <;> simp
  | manager h => cases h <;> simp

theorem Step.fresh {Q : Thread → Prop} {p : Thread} (h : Step S sh t p ch o) (hw : Q .workerMain)
    (ho : Q .overcommitWorkerMain) (hm : Q .managerMain) : ∀ r ∈ o.spawned, Q r := by
  intro r hr
  rcases h.spawned r hr with rfl | rfl | rfl
  · exact hw
  · exact ho
  · exact hm

end PthreadWorkqueue.Posix
