import PthreadWorkqueue.Posix.CallSteps

/-! What a step of a worker of either pool can do. -/
namespace PthreadWorkqueue.Posix
open Concurrency

inductive WorkerStep (S : Settings) (sh : Shared) (t : Tid) (v : WorkerVars) :
    WorkerPc → Choice → Out → Prop where
  | fault {p ch h} : Fault sh (.worker v p) h →
      WorkerStep S sh t v p ch ⟨sh.halt h, .worker v p, [], []⟩
  | start : WorkerStep S sh t v .start .go
      ⟨{ sh with pendingThreadCreate := atomicDec sh.pendingThreadCreate },
        .worker v (.scan .fast .readMask), [], []⟩
  /- wqlist_scan -/
  | nothing {k} : ffs sh.wqlistMask = 0 → WorkerStep S sh t v (.scan k .readMask) .go
      ⟨sh, .worker v (scanReturn k none), [], [.readMask t]⟩
  | readMask {k} : ffs sh.wqlistMask ≠ 0 → WorkerStep S sh t v (.scan k .readMask) .go
      ⟨sh, .worker v (.scan k (.readSlot (ffs sh.wqlistMask))), [], [.readMask t]⟩
  | readSlot {k idx q} : sh.wqlist (idx - 1) = some q →
      WorkerStep S sh t v (.scan k (.readSlot idx)) .go ⟨sh, .worker v (.scan k (.lock q)), [], []⟩
  | lock {k q wq} : sh.queues[q]? = some wq → wq.mtx = none →
      WorkerStep S sh t v (.scan k (.lock q)) .go
        ⟨sh.setQueue q { wq with mtx := some t }, .worker v (.scan k (.first q)), [], []⟩
  | raced {k q wq} : sh.queues[q]? = some wq → wq.itemListhead = [] →
      WorkerStep S sh t v (.scan k (.first q)) .go ⟨sh, .worker v (.scan k (.unlock q none)), [], []⟩
  | skip {k q wq w rest} : sh.queues[q]? = some wq → wq.itemListhead = w :: rest →
      k.skipThreadExitEvents = true → w.func = none →
      WorkerStep S sh t v (.scan k (.first q)) .go ⟨sh, .worker v (.scan k (.unlock q none)), [], []⟩
  | first {k q wq w rest} : sh.queues[q]? = some wq → wq.itemListhead = w :: rest →
      (k.skipThreadExitEvents = true → w.func ≠ none) →
      WorkerStep S sh t v (.scan k (.first q)) .go ⟨sh, .worker v (.scan k (.remove q w)), [], []⟩
  | remove {k q wq w} : sh.queues[q]? = some wq → wq.itemListhead.tail ≠ [] →
      WorkerStep S sh t v (.scan k (.remove q w)) .go
        ⟨sh.setQueue q { wq with itemListhead := wq.itemListhead.tail },
          .worker { v with queuePriority := wq.queueprio } (.scan k (.unlock q (some w))), [],
          [.dequeue t q w]⟩
  | removeLast {k q wq w} : sh.queues[q]? = some wq → wq.itemListhead.tail = [] →
      WorkerStep S sh t v (.scan k (.remove q w)) .go
        ⟨sh.setQueue q { wq with itemListhead := wq.itemListhead.tail },
          .worker { v with queuePriority := wq.queueprio } (.scan k (.clear q w)), [],
          [.dequeue t q w]⟩
  | clear {k q wq w p} : sh.queues[q]? = some wq →
      p = (if (sh.wqlistMask &&& ~~~ indexBit wq.wqlistIndex) &&& indexBit wq.wqlistIndex = 0
        then .unlock q (some w) else .clear q w) →
      WorkerStep S sh t v (.scan k (.clear q w)) .go
        ⟨{ sh with wqlistMask := sh.wqlistMask &&& ~~~ indexBit wq.wqlistIndex },
          .worker v (.scan k p), [], []⟩
  | unlock {k q wq r} : sh.queues[q]? = some wq → WorkerStep S sh t v (.scan k (.unlock q r)) .go
        ⟨sh.setQueue q { wq with mtx := none }, .worker v (scanReturn k r), [], []⟩
  /- wqlist_scan_spin -/
  | spin : sh.currentThreadsSpinning + 1 ≤ S.pwqSpinThreads → WorkerStep S sh t v .spinEnter .go
      ⟨{ sh with currentThreadsSpinning := sh.currentThreadsSpinning + 1 },
        .worker v (.scan .spin .readMask), [], []⟩
  | noSpin : S.pwqSpinThreads < sh.currentThreadsSpinning + 1 → WorkerStep S sh t v .spinEnter .go
      ⟨{ sh with currentThreadsSpinning := sh.currentThreadsSpinning + 1 },
        .worker v (.spinLeave none), [], []⟩
  | spinLast {w} : sh.idle = 1 → WorkerStep S sh t v (.spinReadIdle w) .go
      ⟨sh, .worker v (.spinPost w), [], []⟩
  | spinNotLast {w} : sh.idle ≠ 1 → WorkerStep S sh t v (.spinReadIdle w) .go
      ⟨sh, .worker v (.spinLeave (some w)), [], []⟩
  | spinPost {w} : WorkerStep S sh t v (.spinPost w) .go
      ⟨{ sh with sbSem := semPost sh.sbSem }, .worker v (.spinLeave (some w)), [], []⟩
  | spinFound {w} : WorkerStep S sh t v (.spinLeave (some w)) .go
      ⟨{ sh with currentThreadsSpinning := atomicDec sh.currentThreadsSpinning },
        .worker v (.decIdle w), [], []⟩
  | spinRejected : WorkerStep S sh t v (.spinLeave none) .go
      ⟨{ sh with currentThreadsSpinning := atomicDec sh.currentThreadsSpinning },
        .worker v .waitLock, [], []⟩
  /- wqlist_scan_wait -/
  | waitLock : sh.wqlistMtx = none → WorkerStep S sh t v .waitLock .go
      ⟨{ sh with wqlistMtx := some t }, .worker v (.scan .wait .readMask), [], []⟩
  | condWait : WorkerStep S sh t v .condWait .go
      ⟨{ sh with wqlistMtx := none, wqlistHasWork := t :: sh.wqlistHasWork },
        .worker v .waiting, [], []⟩
  | leave : t ∈ sh.wqlistHasWork → WorkerStep S sh t v .waiting .leave
      ⟨{ sh with wqlistHasWork := wakeUp [t] sh.wqlistHasWork }, .worker v .waiting, [], []⟩
  | woken : t ∉ sh.wqlistHasWork → sh.wqlistMtx = none → WorkerStep S sh t v .waiting .go
      ⟨{ sh with wqlistMtx := some t }, .worker v (.scan .wait .readMask), [], []⟩
  | waitUnlock {w} : WorkerStep S sh t v (.waitUnlock w) .go
      ⟨{ sh with wqlistMtx := none }, .worker v (.waitReadIdle w), [], []⟩
  | waitLast {w} : sh.idle = 1 → WorkerStep S sh t v (.waitReadIdle w) .go
      ⟨sh, .worker v (.waitPost w), [], []⟩
  | waitNotLast {w} : sh.idle ≠ 1 → WorkerStep S sh t v (.waitReadIdle w) .go
      ⟨sh, .worker v (.waitTest w), [], []⟩
  | waitPost {w} : WorkerStep S sh t v (.waitPost w) .go
      ⟨{ sh with sbSem := semPost sh.sbSem }, .worker v (.waitTest w), [], []⟩
  | waitExit {w} : w.func = none → WorkerStep S sh t v (.waitTest w) .go
      ⟨sh, .worker v (.exitDecIdle w), [], []⟩
  | waitWork {w} : w.func ≠ none → WorkerStep S sh t v (.waitTest w) .go
      ⟨sh, .worker v (.decIdle w), [], []⟩
  | exitDecIdle {w} : WorkerStep S sh t v (.exitDecIdle w) .go
      ⟨{ sh with idle := atomicDec sh.idle }, .worker v (.exitDecCount w), [], []⟩
  | exitDecCount {w} : WorkerStep S sh t v (.exitDecCount w) .go
      ⟨{ sh with count := atomicDec sh.count }, .worker v (.exitFree w), [], []⟩
  | exitFree {w} : WorkerStep S sh t v (.exitFree w) .go
      ⟨sh.witemFree w, .worker v .exited, [], [.free t w]⟩
  /- worker_main -/
  | decIdle {w} : WorkerStep S sh t v (.decIdle w) .go
      ⟨{ sh with idle := atomicDec sh.idle }, .worker (v.adopt S) (.invoke w), [], []⟩
  | invoke {w f} : w.func = some f → WorkerStep S sh t v (.invoke w) .go
      ⟨sh, .app (.worker v w), [], [.invoke t w f w.funcArg]⟩
  | incIdle {w} : WorkerStep S sh t v (.incIdle w) .go
      ⟨{ sh with idle := sh.idle + 1 }, .worker v (.free w), [], []⟩
  | free {w} : WorkerStep S sh t v (.free w) .go
      ⟨sh.witemFree w, .worker v (.scan .fast .readMask), [], [.free t w]⟩

inductive OvercommitStep (sh : Shared) (t : Tid) : OcPc → Choice → Out → Prop where
  | fault {p ch h} : Fault sh (.overcommit p) h →
      OvercommitStep sh t p ch ⟨sh.halt h, .overcommit p, [], []⟩
  | lock : sh.ocwqMtx = none → OvercommitStep sh t .lock .go
      ⟨{ sh with ocwqMtx := some t }, .overcommit .scan, [], []⟩
  | wait : (ffs sh.ocwqMask = 0 ∨ ∃ q wq, sh.ocwq (ffs sh.ocwqMask - 1) = some q ∧
        sh.queues[q]? = some wq ∧ wq.itemListhead = []) → OvercommitStep sh t .scan .go
      ⟨{ sh with
          ocwqIdleThreads := sh.ocwqIdleThreads + 1
          ocwqMtx := none
          ocwqHasWork := t :: sh.ocwqHasWork }, .overcommit .timedwait, [], []⟩
  | dequeue {q wq w rest} : ffs sh.ocwqMask ≠ 0 → sh.ocwq (ffs sh.ocwqMask - 1) = some q →
      sh.queues[q]? = some wq → wq.itemListhead = w :: rest → rest ≠ [] →
      OvercommitStep sh t .scan .go
        ⟨sh.setQueue q { wq with itemListhead := rest }, .overcommit (.unlock w), [],
          [.dequeue t q w]⟩
  | dequeueLast {q wq w} : ffs sh.ocwqMask ≠ 0 → sh.ocwq (ffs sh.ocwqMask - 1) = some q →
      sh.queues[q]? = some wq → wq.itemListhead = [w] → OvercommitStep sh t .scan .go
        ⟨{ sh.setQueue q { wq with itemListhead := [] } with
            ocwqMask := sh.ocwqMask &&& ~~~ indexBit wq.wqlistIndex },
          .overcommit (.unlock w), [], [.dequeue t q w]⟩
  | unlock {w} : OvercommitStep sh t (.unlock w) .go
      ⟨{ sh with ocwqMtx := none }, .overcommit (.fetch w), [], []⟩
  | fetch {w} : OvercommitStep sh t (.fetch w) .go
      ⟨sh, .overcommit (.free w w.func w.funcArg), [], []⟩
  | free {w f a} : OvercommitStep sh t (.free w f a) .go
      ⟨sh.witemFree w, .overcommit (.call w f a), [], [.free t w]⟩
  | call {w f a} : OvercommitStep sh t (.call w (some f) a) .go
      ⟨sh, .app (.overcommit w), [], [.invoke t w f a]⟩
  | leave : t ∈ sh.ocwqHasWork → OvercommitStep sh t .timedwait .leave
      ⟨{ sh with ocwqHasWork := wakeUp [t] sh.ocwqHasWork }, .overcommit .timedwait, [], []⟩
  | signalled {rv} : t ∉ sh.ocwqHasWork → sh.ocwqMtx = none → 0 < sh.ocwqSignalCount →
      OvercommitStep sh t .timedwait (.ret rv)
        ⟨{ sh with ocwqMtx := some t, ocwqSignalCount := atomicDec sh.ocwqSignalCount },
          .overcommit .scan, [], []⟩
  | timedOut {rv} : t ∉ sh.ocwqHasWork → sh.ocwqMtx = none → sh.ocwqSignalCount = 0 →
      OvercommitStep sh t .timedwait (.ret rv)
        ⟨{ sh with ocwqMtx := some t, ocwqIdleThreads := atomicDec sh.ocwqIdleThreads },
          .overcommit .unlockExit, [], []⟩
  | unlockExit : OvercommitStep sh t .unlockExit .go
      ⟨{ sh with ocwqMtx := none }, .overcommit .cleanup, [], []⟩
  | cleanup : OvercommitStep sh t .cleanup .go ⟨sh, .overcommit .exited, [], []⟩

variable {S : Settings} {sh : Shared} {t : Tid} {v : WorkerVars} {ch : Choice} {o : Out}

private theorem scan_step {k : ScanKind} {p : ScanPc} (h : scanNext sh t v k p = some o) :
    WorkerStep S sh t v (.scan k p) .go o := by
  cases p <;> simp only [scanNext, goTo, emit, Option.some.injEq] at h
  case readMask =>
    subst h
    split
    · exact .nothing (by assumption)
    · exact .readMask (by assumption)
  case readSlot idx =>
    split at h <;> cases h
    · exact .readSlot (by assumption)
    · exact .fault .nullQueue
  all_goals
    obtain ⟨wq, hq, h⟩ | rfl := withQueue_eq_some h
    case inr => exact .fault .nullQueue
  case lock.inl =>
    simp only [Option.ite_none_right_eq_some, Option.some.injEq] at h
    obtain ⟨hm, rfl⟩ := h
    exact .lock hq hm
  case first.inl =>
    split at h
    · cases h
      exact .raced hq (by assumption)
    · rename_i w rest hl
      split at h
      · rename_i hk
        split at h <;> cases h
        · split
          · exact .skip hq hl hk (by assumption)
          · rename_i hf; exact .first hq hl fun _ => hf
        · rename_i hw; exact .fault (.first hq hl (by simpa using hw))
      · rename_i hk
        cases h
        exact .first hq hl fun h => absurd h hk
  case remove.inl =>
    cases h
    split
    · exact .removeLast hq (by assumption)
    · exact .remove hq (by assumption)
  case clear.inl => cases h; exact .clear hq rfl
  case unlock.inl => cases h; exact .unlock hq

theorem worker_step {p : WorkerPc} (h : workerNext S sh t v p ch = some o) :
    WorkerStep S sh t v p ch o := by
  cases p <;> cases ch <;> simp only [workerNext, goTo, emit, reduceCtorEq, Option.some.injEq,
    Option.ite_none_right_eq_some] at h
  case start => subst h; exact .start
  case scan => exact scan_step h
  case spinEnter =>
    subst h
    split
    · exact .spin (by assumption)
    · exact .noSpin (Nat.lt_of_not_le (by assumption))
  case spinReadIdle =>
    subst h
    split
    · exact .spinLast (by assumption)
    · exact .spinNotLast (by assumption)
  case spinPost => subst h; exact .spinPost
  case spinLeave r =>
    subst h
    cases r
    · exact .spinRejected
    · exact .spinFound
  case waitLock => obtain ⟨hm, rfl⟩ := h; exact .waitLock hm
  case condWait => subst h; exact .condWait
  case waiting.leave => obtain ⟨ht, rfl⟩ := h; exact .leave ht
  case waiting.go => obtain ⟨⟨ht, hm⟩, rfl⟩ := h; exact .woken ht hm
  case waitUnlock => subst h; exact .waitUnlock
  case waitReadIdle =>
    subst h
    split
    · exact .waitLast (by assumption)
    · exact .waitNotLast (by assumption)
  case waitPost => subst h; exact .waitPost
  case waitTest =>
    split at h <;> cases h
    · split
      · exact .waitExit (by assumption)
      · exact .waitWork (by assumption)
    · rename_i hl; exact .fault (.waitTest (by simpa using hl))
  case exitDecIdle => subst h; exact .exitDecIdle
  case exitDecCount => subst h; exact .exitDecCount
  case exitFree => subst h; exact .exitFree
  case decIdle => subst h; exact .decIdle
  case invoke =>
    split at h
    · split at h <;> cases h
      · exact .invoke (by assumption)
      · exact .fault (.nullFunc (by assumption))
    · rename_i hl
      cases h
      exact .fault (.invoke (by simpa using hl))
  case incIdle => subst h; exact .incIdle
  case free => subst h; exact .free

private theorem ocScan_step (h : ocScanNext sh t = some o) : OvercommitStep sh t .scan .go o := by
  simp only [ocScanNext, goTo, emit] at h
  split at h
  · cases h
    exact .wait (.inl (by assumption))
  · rename_i hi
    split at h
    · cases h
      exact .fault .nullQueue
    · rename_i q hs
      obtain ⟨wq, hq, h⟩ | rfl := withQueue_eq_some h
      · split at h <;> cases h
        · exact .wait (.inr ⟨q, wq, hs, hq, by assumption⟩)
        · rename_i w rest hl
          split
          · subst_vars; exact .dequeueLast hi hs hq hl
          · exact .dequeue hi hs hq hl (by assumption)
      · exact .fault .nullQueue

theorem overcommit_step {p : OcPc} (h : overcommitNext sh t p ch = some o) :
    OvercommitStep sh t p ch o := by
  cases p <;> cases ch <;> simp only [overcommitNext, goTo, emit, reduceCtorEq, Option.some.injEq,
    Option.ite_none_right_eq_some] at h
  case lock => obtain ⟨hm, rfl⟩ := h; exact .lock hm
  case scan => exact ocScan_step h
  case unlock => subst h; exact .unlock
  case fetch =>
    split at h <;> cases h
    · exact .fetch
    · rename_i hl; exact .fault (.fetch (by simpa using hl))
  case free => subst h; exact .free
  case call w f a =>
    cases f <;> cases h
    · exact .fault .overcommitNullFunc
    · exact .call
  case timedwait.leave => obtain ⟨ht, rfl⟩ := h; exact .leave ht
  case timedwait.ret rv =>
    obtain ⟨⟨ht, hm⟩, h⟩ := h
    split at h
    · cases h
      exact .signalled ht hm (by assumption)
    · split at h <;> cases h
      · exact .timedOut ht hm (by omega)
      · exact .fault .abort
  case unlockExit => subst h; exact .unlockExit
  case cleanup => subst h; exact .cleanup

end PthreadWorkqueue.Posix
