import PthreadWorkqueue.Windows.Coverage

/-! The spin locks of the queues. `manager_workqueue_create` publishes a queue before it initialises its
lock, which frees the lock of a callback that has found the queue in between. A lock that is not
initialised while it is held has the thread that works on its queue. -/
namespace PthreadWorkqueue.Windows
open Concurrency
open Posix (Work Workq Attr Tid QId newWorkq)

/-- The thread that holds the lock of a queue. -/
def Shared.spinLock (sh : Shared) (q : QId) : Option Tid := (sh.queues[q]?).bind Workq.mtx

/-- The queue whose lock a thread holds. -/
def Thread.spin : Thread → Option QId
  | .call _ (.insert q _) | .call _ (.unlock q) => some q
  | .worker (.look _ _ q) | .worker (.unlock _ _ q _) => some q
  | _ => none

/-- A thread at `pthread_spin_init` finds the lock free. -/
def Thread.initsFree (sh : Shared) : Thread → Prop
  | .call _ (.spinInit q) => sh.spinLock q = none
  | _ => True

/-- No lock is initialised while it is held. -/
def InitsFree (c : PoolState) (l : Tid × Choice) : Prop :=
  ∀ p, c.threads[l.1]? = some p → p.initsFree c.shared

variable {sh : Shared} {t u : Tid} {p r : Thread} {o : Out} {c : PoolState} {q s : QId} {wq wq' : Workq}

theorem spinLock_eq (hq : sh.queues[q]? = some wq) : sh.spinLock q = wq.mtx := by
  rw [Shared.spinLock, hq, Option.bind_some]

theorem spinLock_setQueue (hq : sh.queues[q]? = some wq) :
    (sh.setQueue q wq').spinLock q = wq'.mtx := by
  refine spinLock_eq ?_
  exact List.getElem?_set_self (List.getElem?_eq_some_iff.mp hq).1

theorem spinLock_setQueue_of_ne (hs : q ≠ s) : (sh.setQueue q wq').spinLock s = sh.spinLock s := by
  unfold Shared.spinLock Shared.setQueue
  rw [List.getElem?_set_ne hs]

/-- A step on a queue that leaves its lock alone. -/
theorem spinLock_touch (hq : sh.queues[q]? = some wq) (hm : wq'.mtx = wq.mtx) (s : QId) :
    (sh.setQueue q wq').spinLock s = sh.spinLock s := by
  by_cases hs : q = s
  · subst hs
    rw [spinLock_setQueue hq, hm, spinLock_eq hq]
  · exact spinLock_setQueue_of_ne hs

theorem spinLock_append (attr : Option Attr) (s : QId) :
    ({ sh with queues := sh.queues ++ [newWorkq attr] } : Shared).spinLock s = sh.spinLock s := by
  unfold Shared.spinLock
  by_cases hs : s < sh.queues.length
  · rw [List.getElem?_append_left hs]
  · rw [List.getElem?_append_right (Nat.le_of_not_lt hs),
      List.getElem?_eq_none (Nat.le_of_not_lt hs)]
    cases s - sh.queues.length with
    | zero => rfl
    | succ n => rfl

private theorem take_lock (hq : sh.queues[q]? = some wq) (hm : wq.mtx = none)
    (own : sh.spinLock s = some t ↔ (p.spin == some s) = true) (hp : p.spin = none)
    (hs : o.shared = sh.setQueue q { wq with mtx := some t }) (hpc : o.pc.spin = some q)
    (fresh : ∀ r ∈ o.spawned, (r.spin == some s) = false) :
    LockStep (Shared.spinLock · s) (fun p => p.spin == some s) sh t o := by
  by_cases hqs : q = s
  · subst hqs
    refine .take ((spinLock_eq hq).trans hm) ?_ (beq_iff_eq.mpr hpc) fresh
    rw [hs, spinLock_setQueue hq]
  · refine .same own ?_ ?_ fresh
    · rw [hs, spinLock_setQueue_of_ne hqs]
    · rw [hpc, hp]
      exact beq_eq_false_iff_ne.mpr fun h => hqs (Option.some.inj h)

private theorem give_lock (hq : sh.queues[q]? = some wq)
    (own : sh.spinLock s = some t ↔ (p.spin == some s) = true) (hp : p.spin = some q)
    (hs : o.shared = sh.setQueue q { wq with mtx := none }) (hpc : o.pc.spin = none)
    (fresh : ∀ r ∈ o.spawned, (r.spin == some s) = false) :
    LockStep (Shared.spinLock · s) (fun p => p.spin == some s) sh t o := by
  by_cases hqs : q = s
  · subst hqs
    refine .give (own.mpr (beq_iff_eq.mpr hp)) ?_ ?_ fresh
    · rw [hs, spinLock_setQueue hq]
    · rw [hpc]
      rfl
  · refine .same own ?_ ?_ fresh
    · rw [hs, spinLock_setQueue_of_ne hqs]
    · rw [hpc, hp]
      exact (beq_eq_false_iff_ne.mpr fun h => hqs (Option.some.inj h)).symm

/-- A step respects the lock of a queue, unless it initialises it while it is held. -/
theorem lock_step (h : Step sh t p o) (init : p.initsFree sh)
    (own : sh.spinLock s = some t ↔ (p.spin == some s) = true) :
    LockStep (Shared.spinLock · s) (fun p => p.spin == some s) sh t o := by
  have fresh : ∀ r ∈ o.spawned, (r.spin == some s) = false := fun r hr => by
    rw [h.spawned r hr]
    rfl
  cases h with
  | lock hq hm | spinLock hq hm => exact take_lock hq hm own rfl rfl rfl fresh
  | unlock hq | nextQueue hq | taken hq => exact give_lock hq own rfl rfl rfl fresh
  | insert hq | take hq =>
    refine .same own ?_ rfl fresh
    exact spinLock_touch hq (by rfl) s
  | spinInit hq =>
    have hfree := (spinLock_eq hq).symm.trans init
    exact .same own (spinLock_touch hq hfree.symm s) rfl fresh
  | createAlloc => exact .same own (spinLock_append _ s) rfl fresh
  | _ => exact .same own rfl rfl fresh

variable {users : Nat} {tr : List Event}

/-- A lock names the thread that works on its queue. -/
theorem spinLock_owned (h : Machine.Run program InitsFree (initial users) tr c) (s : QId) :
    Owned (Shared.spinLock · s) (fun p => p.spin == some s) c := by
  refine h.invariant (fun _ c => Owned (Shared.spinLock · s) (fun p => p.spin == some s) c) ?_ ?_
  · intro t
    refine iff_of_false (fun hn => by cases hn) ?_
    rintro ⟨p, hp, hs⟩
    rw [List.eq_of_mem_replicate (List.mem_of_getElem? hp)] at hs
    cases hs
  · intro tr c l p o _ ih hg mv
    exact ih.apply mv.here (lock_step (program_step mv.next) (hg p mv.here) (ih.at mv.here))

/-- At most one thread works on a queue. -/
theorem spin_unique (h : Machine.Run program InitsFree (initial users) tr c)
    (hp : c.threads[t]? = some p) (hr : c.threads[u]? = some r) (hs : p.spin = some s)
    (hs' : r.spin = some s) : u = t := by
  have own := spinLock_owned h s
  have ht := (own.at hp).mpr (beq_iff_eq.mpr hs)
  have hu := (own.at hr).mpr (beq_iff_eq.mpr hs')
  exact Option.some.inj (hu.symm.trans ht)

end PthreadWorkqueue.Windows
