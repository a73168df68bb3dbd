import PthreadWorkqueue.Windows.Manager

/-! What a step of the Windows manager can do. -/
namespace PthreadWorkqueue.Windows
open Concurrency
open Posix (Work Workq Attr Tid QId validAttr newWorkq workqNumPrioqueue)

inductive Step (sh : Shared) (t : Tid) : Thread → Out → Prop where
  /- the application -/
  | additem {k q f a} : q ∈ sh.handles → Step sh t (.app k) ⟨sh, .call k (.check q f a), [], []⟩
  | create {k attr} : Step sh t (.app k) ⟨sh, .call k (.createCheck attr), [], []⟩
  | callbackReturn {w} : Step sh t (.app (.worker w)) ⟨sh, .worker (.free w), [], []⟩
  /- pthread_workqueue_additem_np -/
  | check {k q f a} : Step sh t (.call k (.check q (some f) a)) ⟨sh, .call k (.alloc q f a), [], []⟩
  | invalid {k q f a code} :
      Step sh t (.call k (.check q f a)) ⟨sh, .app k, [], [.returned t code]⟩
  | alloc {k q f a} : Step sh t (.call k (.alloc q f a))
      ⟨{ sh with heap := sh.heap + 1 }, .call k (.lock q ⟨sh.heap, some f, a, 0, 0⟩), [],
        [.alloc t ⟨sh.heap, some f, a, 0, 0⟩]⟩
  | lock {k q w wq} : sh.queues[q]? = some wq → wq.mtx = none → Step sh t (.call k (.lock q w))
      ⟨sh.setQueue q { wq with mtx := some t }, .call k (.insert q w), [], []⟩
  | insert {k q w wq} : sh.queues[q]? = some wq → Step sh t (.call k (.insert q w))
      ⟨sh.setQueue q { wq with itemListhead := wq.itemListhead ++ [w] }, .call k (.unlock q), [],
        [.insert t q w]⟩
  | unlock {k q wq} : sh.queues[q]? = some wq → Step sh t (.call k (.unlock q))
      ⟨sh.setQueue q { wq with mtx := none }, .call k .submit, [], []⟩
  | submit {k} : Step sh t (.call k .submit) ⟨sh, .app k, [.workerMain], [.returned t 0]⟩
  | abort {k} : Step sh t (.call k .submit) ⟨{ sh with aborted := true }, .call k .submit, [], []⟩
  /- pthread_workqueue_create_np -/
  | createCheck {k attr} : validAttr attr = true →
      Step sh t (.call k (.createCheck attr)) ⟨sh, .call k (.createAlloc attr), [], []⟩
  | badAttr {k attr code} : Step sh t (.call k (.createCheck attr)) ⟨sh, .app k, [], [.returned t code]⟩
  | createAlloc {k attr} : Step sh t (.call k (.createAlloc attr))
      ⟨{ sh with queues := sh.queues ++ [newWorkq attr] }, .call k (.wrlock sh.queues.length), [], []⟩
  | noMemory {k attr code} :
      Step sh t (.call k (.createAlloc attr)) ⟨sh, .app k, [], [.returned t code]⟩
  | wrlock {k q} : sh.readers = 0 → sh.writer = false → Step sh t (.call k (.wrlock q))
      ⟨{ sh with writer := true }, .call k (.createInsert q), [], []⟩
  | createInsert {k q wq} : sh.queues[q]? = some wq → Step sh t (.call k (.createInsert q))
      ⟨sh.listInsertHead wq.queueprio q, .call k (.wrunlock q), [], []⟩
  | wrunlock {k q} : Step sh t (.call k (.wrunlock q))
      ⟨{ sh with writer := false }, .call k (.spinInit q), [], []⟩
  | spinInit {k q wq} : sh.queues[q]? = some wq → Step sh t (.call k (.spinInit q))
      ⟨{ sh.setQueue q { wq with mtx := none } with handles := sh.handles ++ [q] }, .app k, [],
        [.returned t 0]⟩
  /- worker_main -/
  | rdlock : sh.writer = false → Step sh t (.worker .rdlock)
      ⟨{ sh with readers := sh.readers + 1 }, .worker (.visit 0 0), [], []⟩
  | visit {i j q} : i < workqNumPrioqueue → (sh.wqlist i)[j]? = some q →
      Step sh t (.worker (.visit i j)) ⟨sh, .worker (.lock i j q), [], []⟩
  | nextList {i j} : (sh.wqlist i)[j]? = none →
      Step sh t (.worker (.visit i j)) ⟨sh, .worker (.visit (i + 1) 0), [], []⟩
  | scanned {i j} : workqNumPrioqueue ≤ i →
      Step sh t (.worker (.visit i j)) ⟨sh, .worker (.rdunlock none), [], []⟩
  | spinLock {i j q wq} : sh.queues[q]? = some wq → wq.mtx = none → Step sh t (.worker (.lock i j q))
      ⟨sh.setQueue q { wq with mtx := some t }, .worker (.look i j q), [], []⟩
  | empty {i j q wq} : sh.queues[q]? = some wq → wq.itemListhead = [] →
      Step sh t (.worker (.look i j q)) ⟨sh, .worker (.unlock i j q none), [], []⟩
  | take {i j q wq w rest} : sh.queues[q]? = some wq → wq.itemListhead = w :: rest →
      Step sh t (.worker (.look i j q))
        ⟨sh.setQueue q { wq with itemListhead := rest }, .worker (.unlock i j q (some w)), [], []⟩
  | nextQueue {i j q wq} : sh.queues[q]? = some wq → Step sh t (.worker (.unlock i j q none))
      ⟨sh.setQueue q { wq with mtx := none }, .worker (.visit i (j + 1)), [], []⟩
  | taken {i j q wq w} : sh.queues[q]? = some wq → Step sh t (.worker (.unlock i j q (some w)))
      ⟨sh.setQueue q { wq with mtx := none }, .worker (.rdunlock (some w)), [], []⟩
  | nothing : Step sh t (.worker (.rdunlock none))
      ⟨{ sh with readers := sh.readers - 1 }, .worker .exited, [], []⟩
  | rdunlock {w} : Step sh t (.worker (.rdunlock (some w)))
      ⟨{ sh with readers := sh.readers - 1 }, .worker (.call w), [], []⟩
  | call {w} : Step sh t (.worker (.call w)) ⟨sh, .app (.worker w), [], [.invoke t w]⟩
  | free {w} : Step sh t (.worker (.free w)) ⟨sh, .worker .exited, [], [.free t w]⟩

variable {sh : Shared} {t : Tid} {p : Thread} {ch : Choice} {o : Out}

private theorem app_step {k : Caller} (h : appNext sh k ch = some o) : Step sh t (.app k) o := by
  cases ch with
  | request r =>
    simp only [appNext, Option.bind_eq_some_iff, goTo, Option.some.injEq] at h
    obtain ⟨x, hx, rfl⟩ := h
    cases r with
    | additem q f a =>
      simp only [Request.enter, Option.ite_none_right_eq_some, Option.some.injEq] at hx
      obtain ⟨hq, rfl⟩ := hx
      exact .additem hq
    | create attr => cases hx; exact .create
  | go =>
    cases k with
    | user => cases h
    | worker w => cases h; exact .callbackReturn
  | ok => cases h

private theorem call_step {k : Caller} {x : Call} (h : callNext sh t k x ch = some o) :
    Step sh t (.call k x) o := by
  cases x <;> cases ch <;> simp only [callNext, goTo, emit, reduceCtorEq, Option.some.injEq,
    Option.bind_eq_some_iff, Option.ite_none_right_eq_some] at h
  case check q f a =>
    obtain ⟨wq, hq, h⟩ := h
    cases f with
    | none => cases h; exact .invalid
    | some f =>
      simp only at h
      split at h <;> cases h
      · exact .check
      · exact .invalid
  case alloc => subst h; exact .alloc
  case lock => obtain ⟨wq, hq, hm, rfl⟩ := h; exact .lock hq hm
  case insert => obtain ⟨wq, hq, rfl⟩ := h; exact .insert hq
  case unlock => obtain ⟨wq, hq, rfl⟩ := h; exact .unlock hq
  case submit =>
    split at h <;> cases h
    · exact .submit
    · exact .abort
  case createCheck =>
    split at h <;> cases h
    · exact .createCheck (by assumption)
    · exact .badAttr
  case createAlloc =>
    split at h <;> cases h
    · exact .createAlloc
    · exact .noMemory
  case wrlock => obtain ⟨⟨hr, hw⟩, rfl⟩ := h; exact .wrlock hr hw
  case createInsert => obtain ⟨wq, hq, rfl⟩ := h; exact .createInsert hq
  case wrunlock => subst h; exact .wrunlock
  case spinInit => obtain ⟨wq, hq, rfl⟩ := h; exact .spinInit hq

private theorem worker_step {x : WorkerPc} (h : workerNext sh t x ch = some o) :
    Step sh t (.worker x) o := by
  cases x <;> cases ch <;> simp only [workerNext, goTo, emit, reduceCtorEq, Option.some.injEq,
    Option.bind_eq_some_iff, Option.ite_none_right_eq_some] at h
  case rdlock => obtain ⟨hw, rfl⟩ := h; exact .rdlock hw
  case visit i j =>
    split at h
    · split at h <;> cases h
      · exact .visit (by assumption) (by assumption)
      · exact .nextList (by assumption)
    · cases h
      exact .scanned (Nat.le_of_not_lt (by assumption))
  case lock => obtain ⟨wq, hq, hm, rfl⟩ := h; exact .spinLock hq hm
  case look =>
    obtain ⟨wq, hq, h⟩ := h
    split at h <;> cases h
    · exact .empty hq (by assumption)
    · exact .take hq (by assumption)
  case unlock i j q r =>
    obtain ⟨wq, hq, rfl⟩ := h
    cases r with
    | none => exact .nextQueue hq
    | some w => exact .taken hq
  case rdunlock r =>
    subst h
    cases r with
    | none => exact .nothing
    | some w => exact .rdunlock
  case call => subst h; exact .call
  case free => subst h; exact .free

theorem program_step (h : program sh t p ch = some o) : Step sh t p o := by
  simp only [program, Option.ite_none_right_eq_some] at h
  cases p with
  | app k => exact app_step h.2
  | call k x => exact call_step h.2
  | worker x => exact worker_step h.2

end PthreadWorkqueue.Windows
