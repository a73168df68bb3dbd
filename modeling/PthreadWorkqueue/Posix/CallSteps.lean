import PthreadWorkqueue.Posix.Program

/-! What a step can do: every outcome of every function of the program, with the tests that lead
to it. Proofs about the program go through these relations. -/
namespace PthreadWorkqueue.Posix
open Concurrency

/-- Memory that differs at most in the semaphore and in what only the manager reads. -/
def Quiet (sh sh' : Shared) : Prop :=
  ∃ sem suspend about len, sh' =
    { sh with sbSem := sem, sbSuspend := suspend, aboutToWait := about, runqueueLength := len }

/-- The ways in which a thread's next step ends the process. -/
inductive Fault (sh : Shared) : Thread → Halt → Prop where
  | handle {k q w} : sh.live w = false → Fault sh (.call k (.handle q w)) .useAfterFree
  | first {v k q wq w rest} : sh.queues[q]? = some wq → wq.itemListhead = w :: rest →
      sh.live w = false → Fault sh (.worker v (.scan k (.first q))) .useAfterFree
  | waitTest {v w} : sh.live w = false → Fault sh (.worker v (.waitTest w)) .useAfterFree
  | invoke {v w} : sh.live w = false → Fault sh (.worker v (.invoke w)) .useAfterFree
  | fetch {w} : sh.live w = false → Fault sh (.overcommit (.fetch w)) .useAfterFree
  | nullFunc {v w} : w.func = none → Fault sh (.worker v (.invoke w)) .nullFunc
  | overcommitNullFunc {w a} : Fault sh (.overcommit (.call w none a)) .nullFunc
  | nullQueue {p} : Fault sh p .nullQueue
  | abort {p} : Fault sh p .abort

inductive AppStep (sh : Shared) : Caller → Out → Prop where
  | additem {k q f a} : q ∈ sh.handles → AppStep sh k ⟨sh, .call k (.check q f a), [], []⟩
  | create {k attr} : AppStep sh k ⟨sh, .call k (.createCheck attr), [], []⟩
  | suspend {k} : AppStep sh k ⟨sh, .call k .suspendWait, [], []⟩
  | resume {k} : AppStep sh k ⟨sh, .call k .resumeRead, [], []⟩
  | signal {k} : AppStep sh k ⟨sh, .call k .signalStore, [], []⟩
  | workerReturn {v w} : AppStep sh (.worker v w) ⟨sh, .worker v (.incIdle w), [], []⟩
  | overcommitReturn {w} : AppStep sh (.overcommit w) ⟨sh, .overcommit .lock, [], []⟩

/-- A call that concerns no queue and holds no lock. -/
def Call.plain : Call → Bool
  | .createCheck _ | .suspendWait | .suspendRead | .suspendStore | .resumeRead
  | .resumeStore | .resumePost | .signalStore | .signalInc | .signalPost => true
  | _ => false

inductive CallStep (sh : Shared) (t : Tid) (k : Caller) : Call → Choice → Out → Prop where
  | fault {c ch h} : Fault sh (.call k c) h → CallStep sh t k c ch ⟨sh.halt h, .call k c, [], []⟩
  | quiet {c c' ch sh'} : Quiet sh sh' → c.plain = true → c'.plain = true →
      CallStep sh t k c ch ⟨sh', .call k c', [], []⟩
  | quietReturn {c ch sh'} : Quiet sh sh' → c.plain = true → CallStep sh t k c ch ⟨sh', .app k, [], []⟩
  | error {c ch code} : c.plain = true → code ≠ 0 →
      CallStep sh t k c ch ⟨sh, .app k, [], [.returned t code]⟩
  /- pthread_workqueue_additem_np -/
  | invalid {q f a} : CallStep sh t k (.check q f a) .go ⟨sh, .app k, [], [.returned t einval]⟩
  | check {q f a} : CallStep sh t k (.check q (some f) a) .go ⟨sh, .call k (.alloc q f a), [], []⟩
  | alloc {q f a} : CallStep sh t k (.alloc q f a) .go
      ⟨(sh.witemAlloc (some f) a).1, .call k (.handle q (sh.witemAlloc (some f) a).2), [],
        [.alloc t (sh.witemAlloc (some f) a).2]⟩
  | handle {q w wq} : sh.queues[q]? = some wq → wq.overcommit = false →
      CallStep sh t k (.handle q w) .go ⟨sh, .call k (.add q w .spinLock), [], []⟩
  | ocHandle {q w wq} : sh.queues[q]? = some wq → wq.overcommit = true →
      CallStep sh t k (.handle q w) .go ⟨sh, .call k (.ocAdd q w .lockMtx), [], []⟩
  /- manager_workqueue_additem, non-overcommit -/
  | spinLock {q w wq} : sh.queues[q]? = some wq → wq.mtx = none →
      CallStep sh t k (.add q w .spinLock) .go
        ⟨sh.setQueue q { wq with mtx := some t }, .call k (.add q w .testEmpty), [], []⟩
  | testEmpty {q w wq} : sh.queues[q]? = some wq → wq.itemListhead = [] →
      CallStep sh t k (.add q w .testEmpty) .go ⟨sh, .call k (.add q w .atomicOr), [], []⟩
  | testNonempty {q w wq} : sh.queues[q]? = some wq → wq.itemListhead ≠ [] →
      CallStep sh t k (.add q w .testEmpty) .go ⟨sh, .call k (.add q w .insert), [], []⟩
  | atomicOr {q w wq p} : sh.queues[q]? = some wq →
      p = (if (sh.wqlistMask ||| indexBit wq.wqlistIndex) &&& indexBit wq.wqlistIndex = 0
        then .atomicOr else .insert) →
      CallStep sh t k (.add q w .atomicOr) .go
        ⟨{ sh with wqlistMask := sh.wqlistMask ||| indexBit wq.wqlistIndex },
          .call k (.add q w p), [], []⟩
  | insert {q w wq} : sh.queues[q]? = some wq → CallStep sh t k (.add q w .insert) .go
        ⟨sh.setQueue q { wq with itemListhead := wq.itemListhead ++ [w] },
          .call k (.add q w .spinUnlock), [], [.accept t q w]⟩
  | spinUnlock {q w wq} : sh.queues[q]? = some wq → CallStep sh t k (.add q w .spinUnlock) .go
        ⟨sh.setQueue q { wq with mtx := none }, .call k (.add q w .readIdle), [], []⟩
  | readIdle {q w} : 0 < sh.idle → CallStep sh t k (.add q w .readIdle) .go
      ⟨sh, .call k (.add q w .lockMtx), [], []⟩
  | noIdle {q w} : sh.idle = 0 → CallStep sh t k (.add q w .readIdle) .go
      ⟨sh, .app k, [], [.returned t 0]⟩
  | lockMtx {q w} : sh.wqlistMtx = none → CallStep sh t k (.add q w .lockMtx) .go
      ⟨{ sh with wqlistMtx := some t }, .call k (.add q w .signal), [], []⟩
  | signal {q w woken} : signalled woken sh.wqlistHasWork = true →
      CallStep sh t k (.add q w .signal) (.wake woken)
        ⟨{ sh with wqlistHasWork := wakeUp woken sh.wqlistHasWork },
          .call k (.add q w .unlockMtx), [], []⟩
  | unlockMtx {q w} : CallStep sh t k (.add q w .unlockMtx) .go
      ⟨{ sh with wqlistMtx := none }, .app k, [], [.returned t 0]⟩
  /- manager_workqueue_additem, overcommit -/
  | ocLockMtx {q w} : sh.ocwqMtx = none → CallStep sh t k (.ocAdd q w .lockMtx) .go
      ⟨{ sh with ocwqMtx := some t }, .call k (.ocAdd q w .spinLock), [], []⟩
  | ocSpinLock {q w wq} : sh.queues[q]? = some wq → wq.mtx = none →
      CallStep sh t k (.ocAdd q w .spinLock) .go
        ⟨sh.setQueue q { wq with mtx := some t }, .call k (.ocAdd q w .insert), [], []⟩
  | ocInsert {q w wq} : sh.queues[q]? = some wq → CallStep sh t k (.ocAdd q w .insert) .go
        ⟨sh.setQueue q { wq with itemListhead := wq.itemListhead ++ [w] },
          .call k (.ocAdd q w .spinUnlock), [], [.accept t q w]⟩
  | ocSpinUnlock {q w wq} : sh.queues[q]? = some wq → CallStep sh t k (.ocAdd q w .spinUnlock) .go
        ⟨sh.setQueue q { wq with mtx := none }, .call k (.ocAdd q w .decide), [], []⟩
  | ocSignal {q w wq woken} : sh.queues[q]? = some wq → 0 < sh.ocwqIdleThreads →
      signalled woken sh.ocwqHasWork = true → CallStep sh t k (.ocAdd q w .decide) (.wake woken)
        ⟨{ sh with
            ocwqMask := sh.ocwqMask ||| indexBit wq.wqlistIndex
            ocwqHasWork := wakeUp woken sh.ocwqHasWork
            ocwqIdleThreads := atomicDec sh.ocwqIdleThreads
            ocwqSignalCount := sh.ocwqSignalCount + 1 },
          .call k (.ocAdd q w .unlockMtx), [], []⟩
  | ocCreate {q w wq} : sh.queues[q]? = some wq → sh.ocwqIdleThreads = 0 →
      CallStep sh t k (.ocAdd q w .decide) (.ret 0)
        ⟨{ sh with ocwqMask := sh.ocwqMask ||| indexBit wq.wqlistIndex },
          .call k (.ocAdd q w .unlockMtx), [.overcommitWorkerMain], []⟩
  | ocCreateFailed {q w wq code} : sh.queues[q]? = some wq → sh.ocwqIdleThreads = 0 → code ≠ 0 →
      CallStep sh t k (.ocAdd q w .decide) (.ret code)
        ⟨{ sh with ocwqMask := sh.ocwqMask ||| indexBit wq.wqlistIndex },
          .call k (.ocAdd q w .unlockMtx), [], []⟩
  | ocUnlockMtx {q w} : CallStep sh t k (.ocAdd q w .unlockMtx) .go
      ⟨{ sh with ocwqMtx := none }, .app k, [], [.returned t 0]⟩
  /- pthread_workqueue_create_np -/
  | createCheck {attr} : validAttr attr = true → CallStep sh t k (.createCheck attr) .go
      ⟨sh, .call k (.createAlloc attr), [], []⟩
  | createNoMemory {attr code} : CallStep sh t k (.createAlloc attr) (.ret code)
      ⟨sh, .app k, [], [.returned t enomem]⟩
  | createAlloc {attr} : CallStep sh t k (.createAlloc attr) (.ret 0)
      ⟨{ sh with queues := sh.queues ++ [newWorkq attr] }, .call k (.createLock sh.queues.length),
        [], []⟩
  | createLock {q} : sh.wqlistMtx = none → CallStep sh t k (.createLock q) .go
      ⟨{ sh with wqlistMtx := some t }, .call k (.createManager q), [], []⟩
  | createManager {q} : sh.wqlistHasManager = false → CallStep sh t k (.createManager q) .go
      ⟨sh, .call k (.managerStart q), [], []⟩
  | createNoManager {q} : CallStep sh t k (.createManager q) .go
      ⟨sh, .call k (.createRegister q), [], []⟩
  | managerStart {q} : CallStep sh t k (.managerStart q) (.ret 0)
      ⟨sh, .call k (.managerSet q), [.managerMain], []⟩
  | managerAgain {q code} : CallStep sh t k (.managerStart q) (.ret code)
      ⟨sh, .call k (.managerStart q), [], []⟩
  | managerSet {q} : CallStep sh t k (.managerSet q) .go
      ⟨{ sh with wqlistHasManager := true }, .call k (.createRegister q), [], []⟩
  | register {q wq} : sh.queues[q]? = some wq → wq.overcommit = false →
      sh.wqlist wq.queueprio = none → CallStep sh t k (.createRegister q) .go
        ⟨{ sh with
            queues := sh.queues.set q { wq with wqlistIndex := wq.queueprio }
            wqlist := Function.update sh.wqlist wq.queueprio (some q) },
          .call k (.createUnlock q), [], []⟩
  | ocRegister {q wq} : sh.queues[q]? = some wq → wq.overcommit = true →
      sh.ocwq wq.queueprio = none → CallStep sh t k (.createRegister q) .go
        ⟨{ sh with
            queues := sh.queues.set q { wq with wqlistIndex := wq.queueprio }
            ocwq := Function.update sh.ocwq wq.queueprio (some q) },
          .call k (.createUnlock q), [], []⟩
  | createUnlock {q} : CallStep sh t k (.createUnlock q) .go
      ⟨{ sh with wqlistMtx := none, handles := sh.handles ++ [q] }, .app k, [], [.returned t 0]⟩

theorem app_step {sh : Shared} {k : Caller} {ch : Choice} {o : Out}
    (h : appNext sh k ch = some o) : AppStep sh k o := by
  cases ch with
  | request r =>
    cases r <;> simp only [appNext, Request.enter, Option.bind_some, goTo, Option.some.injEq,
      Option.bind_eq_some_iff, Option.ite_none_right_eq_some] at h
    case additem q f a =>
      obtain ⟨_, ⟨hq, rfl⟩, rfl⟩ := h
      exact .additem hq
    all_goals subst h
    · exact .create
    · exact .suspend
    · exact .resume
    · exact .signal
  | go =>
    cases k <;> simp only [appNext, goTo, Option.some.injEq, reduceCtorEq] at h
    all_goals subst h
    · exact .workerReturn
    · exact .overcommitReturn
  | wake | leave | ret | value => simp [appNext] at h

theorem Quiet.refl (sh : Shared) : Quiet sh sh := ⟨_, _, _, _, rfl⟩

theorem withQueue_eq_some {sh : Shared} {p : Thread} {q : QId} {f : Workq → Option Out} {o : Out}
    (h : withQueue sh p q f = some o) :
    (∃ wq, sh.queues[q]? = some wq ∧ f wq = some o) ∨ o = ⟨sh.halt .nullQueue, p, [], []⟩ := by
  unfold withQueue at h
  split at h
  · exact .inl ⟨_, by assumption, h⟩
  · exact .inr (by simpa [goTo] using h.symm)

private theorem add_step {sh : Shared} {t : Tid} {k : Caller} {q : QId} {w : Work} {wq : Workq}
    {p : AddPc} {ch : Choice} {o : Out} (hq : sh.queues[q]? = some wq)
    (h : addNext sh t k q w wq p ch = some o) : CallStep sh t k (.add q w p) ch o := by
  cases p <;> cases ch <;> simp only [addNext, goTo, emit, reduceCtorEq, Option.some.injEq,
    Option.ite_none_right_eq_some] at h
  case spinLock => obtain ⟨hm, rfl⟩ := h; exact .spinLock hq hm
  case testEmpty =>
    split at h <;> cases h
    · exact .testEmpty hq (by assumption)
    · exact .testNonempty hq (by assumption)
  case atomicOr => subst h; exact .atomicOr hq rfl
  case insert => subst h; exact .insert hq
  case spinUnlock => subst h; exact .spinUnlock hq
  case readIdle =>
    split at h <;> cases h
    · exact .readIdle (by assumption)
    · exact .noIdle (by omega)
  case lockMtx => obtain ⟨hm, rfl⟩ := h; exact .lockMtx hm
  case signal => obtain ⟨hw, rfl⟩ := h; exact .signal hw
  case unlockMtx => subst h; exact .unlockMtx

private theorem ocAdd_step {sh : Shared} {t : Tid} {k : Caller} {q : QId} {w : Work} {wq : Workq}
    {p : OcAddPc} {ch : Choice} {o : Out} (hq : sh.queues[q]? = some wq)
    (h : ocAddNext sh t k q w wq p ch = some o) : CallStep sh t k (.ocAdd q w p) ch o := by
  cases p <;> cases ch <;> simp only [ocAddNext, goTo, emit, spawn, reduceCtorEq,
    Option.some.injEq, Option.ite_none_right_eq_some] at h
  case lockMtx => obtain ⟨hm, rfl⟩ := h; exact .ocLockMtx hm
  case spinLock => obtain ⟨hm, rfl⟩ := h; exact .ocSpinLock hq hm
  case insert => subst h; exact .ocInsert hq
  case spinUnlock => subst h; exact .ocSpinUnlock hq
  case decide.wake => obtain ⟨⟨hi, hw⟩, rfl⟩ := h; exact .ocSignal hq hi hw
  case decide.ret =>
    obtain ⟨hi, h⟩ := h
    split at h <;> cases h
    · subst_vars; exact .ocCreate hq hi
    · exact .ocCreateFailed hq hi (by assumption)
  case unlockMtx => subst h; exact .ocUnlockMtx

private theorem create_step {sh : Shared} {t : Tid} {k : Caller} {q : QId} {wq : Workq}
    {c : Call} {ch : Choice} {o : Out} (hq : sh.queues[q]? = some wq)
    (hc : c = .createLock q ∨ c = .createManager q ∨ c = .managerStart q ∨ c = .managerSet q ∨
      c = .createRegister q ∨ c = .createUnlock q)
    (h : createNext sh t k q wq c ch = some o) : CallStep sh t k c ch o := by
  rcases hc with rfl | rfl | rfl | rfl | rfl | rfl <;> cases ch <;>
    simp only [createNext, goTo, emit, spawn, reduceCtorEq, Option.some.injEq,
      Option.ite_none_right_eq_some] at h
  · obtain ⟨hm, rfl⟩ := h; exact .createLock hm
  · split at h <;> cases h
    · rename_i hm
      exact .createManager (by simpa using (Bool.and_eq_true_iff.mp hm).2)
    · exact .createNoManager
  · split at h
    · cases h; subst_vars; exact .managerStart
    · split at h <;> cases h
      · exact .managerAgain
      · exact .fault .abort
  · subst h; exact .managerSet
  · split at h <;> cases h
    · rename_i sh' hr
      unfold register at hr
      split at hr
      · rename_i ho
        simp only [Option.ite_none_right_eq_some, Option.some.injEq] at hr
        obtain ⟨hn, rfl⟩ := hr
        exact .ocRegister hq ho hn
      · rename_i ho
        simp only [Option.ite_none_right_eq_some, Option.some.injEq] at hr
        obtain ⟨hn, rfl⟩ := hr
        exact .register hq (by simpa using ho) hn
    · exact .fault .abort
  · subst h; exact .createUnlock

theorem call_step {sh : Shared} {t : Tid} {k : Caller} {c : Call} {ch : Choice} {o : Out}
    (h : callNext sh t k c ch = some o) : CallStep sh t k c ch o := by
  cases c
  case add q w p =>
    simp only [callNext] at h
    obtain ⟨wq, hq, h⟩ | rfl := withQueue_eq_some h
    · exact add_step hq h
    · exact .fault .nullQueue
  case ocAdd q w p =>
    simp only [callNext] at h
    obtain ⟨wq, hq, h⟩ | rfl := withQueue_eq_some h
    · exact ocAdd_step hq h
    · exact .fault .nullQueue
  case createLock q | createManager q | managerStart q | managerSet q | createRegister q |
      createUnlock q =>
    simp only [callNext] at h
    obtain ⟨wq, hq, h⟩ | rfl := withQueue_eq_some h
    · exact create_step hq (by simp) h
    · exact .fault .nullQueue
  all_goals cases ch <;> simp only [callNext, goTo, emit, reduceCtorEq, Option.some.injEq] at h
  case check q f a =>
    obtain ⟨wq, hq, h⟩ | rfl := withQueue_eq_some h
    · cases f with
      | none => cases h; exact .invalid
      | some f =>
        simp only at h
        split at h <;> cases h
        · exact .check
        · exact .invalid
    · exact .fault .nullQueue
  case alloc => subst h; exact .alloc
  case handle q w =>
    obtain ⟨wq, hq, h⟩ | rfl := withQueue_eq_some h
    · split at h <;> cases h
      · split
        · exact .ocHandle hq (by assumption)
        · rename_i ho; exact .handle hq (by simpa using ho)
      · rename_i hl; exact .fault (.handle (by simpa using hl))
    · exact .fault .nullQueue
  case createCheck =>
    split at h <;> cases h
    · exact .createCheck (by assumption)
    · exact .error rfl (by decide)
  case createAlloc =>
    split at h <;> cases h
    · subst_vars; exact .createAlloc
    · exact .createNoMemory
  case suspendWait => subst h; exact .quiet (.refl _) rfl (by split <;> rfl)
  case suspendRead =>
    subst h
    split
    · exact .quietReturn (.refl _) rfl
    · exact .quiet (.refl _) rfl rfl
  case suspendStore => subst h; exact .quietReturn ⟨_, _, _, _, rfl⟩ rfl
  case resumeRead =>
    subst h
    split
    · exact .quiet (.refl _) rfl rfl
    · exact .quietReturn (.refl _) rfl
  case resumeStore => subst h; exact .quiet ⟨_, _, _, _, rfl⟩ rfl rfl
  case resumePost => subst h; exact .quietReturn ⟨_, _, _, _, rfl⟩ rfl
  case signalStore => subst h; exact .quiet ⟨_, _, _, _, rfl⟩ rfl rfl
  case signalInc => subst h; exact .quiet ⟨_, _, _, _, rfl⟩ rfl rfl
  case signalPost => subst h; exact .quietReturn ⟨_, _, _, _, rfl⟩ rfl

end PthreadWorkqueue.Posix
