import PthreadWorkqueue.Posix.OvercommitMask
import PthreadWorkqueue.Posix.Scoreboard

/-! The counters of the overcommit pool, and the threads that are on their way to a queued item. -/
namespace PthreadWorkqueue.Posix
open Concurrency

variable {S : Settings} {sh : Shared} {t : Tid} {p : Thread} {ch : Choice} {o : Out}
  {c : PoolState} {q : QId} {wq : Workq}

/-- A counter is kept, incremented, or decremented from a positive value. -/
def Counts (n n' : Nat) : Prop := n' = n ∨ n' = n + 1 ∨ n = n' + 1

/-- A step moves the two counters with the threads inside `pthread_cond_timedwait`. -/
structure OcCounterStep (sh : Shared) (p : Thread) (o : Out) : Prop where
  sum : o.shared.ocwqIdleThreads + o.shared.ocwqSignalCount + p.ocWaits.toNat =
    sh.ocwqIdleThreads + sh.ocwqSignalCount + o.pc.ocWaits.toNat +
      (o.spawned.map fun r => r.ocWaits.toNat).sum
  idle : Counts sh.ocwqIdleThreads o.shared.ocwqIdleThreads
  signals : Counts sh.ocwqSignalCount o.shared.ocwqSignalCount

private theorem OcCounterStep.same (hi : o.shared.ocwqIdleThreads = sh.ocwqIdleThreads)
    (hs : o.shared.ocwqSignalCount = sh.ocwqSignalCount) (hp : o.pc.ocWaits = p.ocWaits)
    (fresh : (o.spawned.map fun r => r.ocWaits.toNat).sum = 0) : OcCounterStep sh p o :=
  ⟨by rw [hi, hs, hp, fresh]; omega, .inl hi, .inl hs⟩

theorem ocCounter_step (h : Step S sh t p ch o)
    (hle : p.ocWaits.toNat ≤ sh.ocwqIdleThreads + sh.ocwqSignalCount) : OcCounterStep sh p o := by
  cases h with
  | app h => cases h <;> exact .same rfl rfl rfl rfl
  | call h =>
    cases h with
    | quiet hq | quietReturn hq => obtain ⟨_, _, _, _, rfl⟩ := hq; exact .same rfl rfl rfl rfl
    | ocSignal _ hi _ =>
      have hd := atomicDec_add_one hi
      refine ⟨?_, .inr (.inr hd.symm), .inr (.inl rfl)⟩
      simp only [Thread.ocWaits, Bool.toNat_false, List.map_nil, List.sum_nil]
      omega
    | _ => exact .same rfl rfl rfl rfl
  | worker h =>
    cases h with
    | exitFree | free =>
      obtain ⟨_, _, he⟩ := witemFree_eq sh ‹Work›
      rw [he]
      exact .same rfl rfl rfl rfl
    | _ => exact .same rfl rfl rfl rfl
  | overcommit h =>
    cases h with
    | wait =>
      refine ⟨?_, .inr (.inl rfl), .inl rfl⟩
      simp only [Thread.ocWaits, Bool.toNat_false, Bool.toNat_true, List.map_nil, List.sum_nil]
      omega
    | signalled _ _ hs =>
      have hd := atomicDec_add_one hs
      refine ⟨?_, .inl rfl, .inr (.inr hd.symm)⟩
      simp only [Thread.ocWaits, Bool.toNat_false, Bool.toNat_true, List.map_nil, List.sum_nil]
      omega
    | timedOut _ _ hs =>
      -- nobody has a signal to consume, so the waiter itself accounts for a unit of the idle count
      have hi : 1 ≤ sh.ocwqIdleThreads := by
        rw [hs] at hle
        exact hle
      have hd := atomicDec_add_one hi
      refine ⟨?_, .inr (.inr hd.symm), .inl rfl⟩
      simp only [Thread.ocWaits, Bool.toNat_false, Bool.toNat_true, List.map_nil, List.sum_nil]
      omega
    | free =>
      obtain ⟨_, _, he⟩ := witemFree_eq sh ‹Work›
      rw [he]
      exact .same rfl rfl rfl rfl
    | _ => exact .same rfl rfl rfl rfl
  | manager h =>
    cases h with
    | plain hq => obtain ⟨_, _, _, _, rfl⟩ := hq; exact .same rfl rfl rfl rfl
    | _ => exact .same rfl rfl rfl rfl

variable {G : PoolState → Nat × Choice → Prop} {users managers : Nat} {tr : List Event}

/-- In every reachable state the two counters share the threads inside `pthread_cond_timedwait`. -/
theorem ocCounters (h : Machine.Run (program S) G (initial users managers) tr c) :
    c.shared.ocwqIdleThreads + c.shared.ocwqSignalCount = c.number Thread.ocWaits :=
  h.number_eq (fun sh => sh.ocwqIdleThreads + sh.ocwqSignalCount) Thread.ocWaits
    (initial_number rfl rfl).symm
    fun _ _ _ _ _ _ _ mv hle => (ocCounter_step (program_step mv.next).2 hle).sum

/-- `ocwq_idle_threads` and `ocwq_signal_count` account for the threads inside
`pthread_cond_timedwait`, and neither is ever decremented at zero. -/
theorem overcommit_counters_account_for_waiters (S : Settings) (users managers : Nat)
    (tr : List Event) (c : PoolState)
    (h : Machine.Free (program S) (initial users managers) tr c) :
    c.shared.ocwqIdleThreads + c.shared.ocwqSignalCount = c.number Thread.ocWaits ∧
    ∀ l p o, (program S).Moves c l o p →
      Counts c.shared.ocwqIdleThreads o.shared.ocwqIdleThreads ∧
        Counts c.shared.ocwqSignalCount o.shared.ocwqSignalCount := by
  have hsum := ocCounters h
  refine ⟨hsum, fun l p o mv => ?_⟩
  have hle : p.ocWaits.toNat ≤ c.shared.ocwqIdleThreads + c.shared.ocwqSignalCount := by
    rw [hsum, Config.number_eq_total]
    exact c.le_total (fun p => p.ocWaits.toNat) mv.here
  have st := ocCounter_step (program_step mv.next).2 hle
  exact ⟨st.idle, st.signals⟩

/-- An overcommit worker has run its first callback and waits. -/
theorem overcommit_counters_account_for_one : ∃ tr c,
    Machine.Free (program ⟨2, 2, 2, 0, false⟩) (initial 1 0) tr c ∧
      c.shared.ocwqIdleThreads = 1 ∧
      c.shared.ocwqIdleThreads + c.shared.ocwqSignalCount = c.number Thread.ocWaits := by
  obtain ⟨tr, c, hrun, hP⟩ := Machine.exists_run (M := program ⟨2, 2, 2, 0, false⟩)
    (g := fun _ _ => true) (c := initial 1 0)
    (createNextQueue 0 2 1 ++ [(0, .request (.additem 0 (some 7) 70))] ++ steps 0 7 ++
      [(0, .ret 0)] ++ steps 0 1 ++ steps 1 9)
    (fun r => decide (r.1.shared.ocwqIdleThreads = 1)) (by decide +kernel)
  exact ⟨tr, c, hrun.free, of_decide_eq_true hP,
    (overcommit_counters_account_for_waiters _ _ _ tr c hrun.free).1⟩

/-! Wakeups -/

/-- The overcommit threads that are about to scan. -/
def Thread.ocScans : Thread → Bool
  | .overcommit .lock | .overcommit .scan => true
  | _ => false

/-- The threads on whose account an item may be queued: those that are about to scan, and the
producers that have not yet decided whom to wake. -/
def Thread.ocHelps : Thread → Bool
  | .call _ (.ocAdd _ _ .spinUnlock) | .call _ (.ocAdd _ _ .decide) => true
  | p => p.ocScans

/-- The number of items on overcommit queues. -/
def Shared.ocQueued (sh : Shared) : Nat := sh.queued fun b _ => b.toNat

/-- A step leaves no item queued, or it keeps the balance between the queued items and the threads
and signals on whose account they are queued. -/
def OcFlow (sh : Shared) (p : Thread) (o : Out) : Prop :=
  o.shared.ocQueued = 0 ∨
    o.shared.ocQueued + sh.ocwqSignalCount + p.ocHelps.toNat ≤
      sh.ocQueued + o.shared.ocwqSignalCount + o.pc.ocHelps.toNat +
        (o.spawned.map fun r => r.ocHelps.toNat).sum

namespace OcFlow

private theorem same (hq : o.shared.ocQueued + 0 = sh.ocQueued + 0)
    (hs : o.shared.ocwqSignalCount = sh.ocwqSignalCount)
    (hp : p.ocHelps.toNat ≤ o.pc.ocHelps.toNat) : OcFlow sh p o := by
  refine .inr ?_
  omega

/-- A thread pays for what comes in. -/
private theorem trade {come gone : Nat} (hq : o.shared.ocQueued + gone = sh.ocQueued + come)
    (hs : o.shared.ocwqSignalCount = sh.ocwqSignalCount)
    (pay : come + p.ocHelps.toNat ≤
      gone + o.pc.ocHelps.toNat + (o.spawned.map fun r => r.ocHelps.toNat).sum) : OcFlow sh p o := by
  refine .inr ?_
  omega

/-- A signal stands for a thread. -/
private theorem exchange (hq : o.shared.ocQueued + 0 = sh.ocQueued + 0)
    (pay : sh.ocwqSignalCount + p.ocHelps.toNat ≤ o.shared.ocwqSignalCount + o.pc.ocHelps.toNat) :
    OcFlow sh p o := by
  refine .inr ?_
  omega

/-- The overcommit worker that goes to sleep has seen all queues empty. -/
theorem empty_of_wait (hm : OcMasks c) (hd : Disciplined c) (hr : Registry c)
    (hp : c.threads[t]? = some (.overcommit .scan))
    (h : ffs c.shared.ocwqMask = 0 ∨ ∃ q wq, c.shared.ocwq (ffs c.shared.ocwqMask - 1) = some q ∧
      c.shared.queues[q]? = some wq ∧ wq.itemListhead = []) : c.shared.ocQueued = 0 := by
  have follows := fun i q hi => hm.quiet (q := q) (i := i) hd hp rfl rfl hi
  have hz : ffs c.shared.ocwqMask = 0 := by
    refine Classical.byContradiction fun hf => ?_
    obtain ⟨q, wq, hs, hq, hl⟩ := h.resolve_left hf
    have := (follows _ q hs).mp (ffs_spec hf).1
    exact this ((Shared.items_eq hq).trans hl)
  refine sum_map_eq_zero fun wq hw => ?_
  obtain ⟨q, hq⟩ := List.getElem?_of_mem hw
  cases hk : wq.overcommit with
  | false => simp
  | true =>
    have hl : wq.itemListhead = [] := by
      rcases hr.fresh q wq hq with hs | hs
      · simp only [Shared.slotOf, hk, if_true] at hs
        have hp := follows _ q hs
        rw [ffs_eq_zero.mp hz, Shared.items_eq hq] at hp
        exact Classical.byContradiction fun hne => by simp [Pending, hne] at hp
      · exact hs.1
    simp [hl]

end OcFlow

private theorem Call.plain_ocHelps {k : Caller} {x : Call} (h : x.plain = true) :
    (Thread.call k x).ocHelps = false := by
  cases x <;> first | rfl | cases h

theorem ocFlow_step (hm : Masks c) (hom : OcMasks c) (hd : Disciplined c) (hr : Registry c)
    (hp : c.threads[t]? = some p) (h : Step S c.shared t p ch o)
    (ok : ∀ code, ch = .ret code → p.creates = true → code = 0) : OcFlow c.shared p o := by
  have flow := (list_step hm hr hp h).queued fun b _ => b.toNat
  have hreg := hr.threads t _ hp
  cases h with
  | app h =>
    cases h with
    | overcommitReturn => exact .same flow rfl (Nat.zero_le _)
    | _ => exact .same flow rfl (Nat.le_refl _)
  | call h =>
    cases h with
    | quiet hq hc | quietReturn hq hc =>
      obtain ⟨_, _, _, _, rfl⟩ := hq
      exact .same flow rfl (by simp [Call.plain_ocHelps hc])
    | error hc => exact .same flow rfl (by simp [Call.plain_ocHelps hc])
    | atomicOr _ hx => subst hx; split <;> exact .same flow rfl (Nat.le_refl _)
    | insert hq =>
      simp only [List.map_cons, Event.inflow, Shared.kind_regular hq hreg] at flow
      exact .same flow rfl (Nat.le_refl _)
    | ocInsert hq =>
      simp only [List.map_cons, Event.inflow, Shared.kind_overcommit hq hreg] at flow
      exact .trade flow rfl (Nat.le_refl _)
    | ocSignal => exact .exchange flow (Nat.le_refl _)
    | ocCreate => exact .trade flow rfl (Nat.le_refl _)
    | ocCreateFailed _ _ hne => exact absurd (ok _ rfl rfl) hne
    | _ => exact .same flow rfl (Nat.le_refl _)
  | worker h =>
    cases h with
    | remove hq | removeLast hq =>
      simp only [List.map_cons, Event.outflow, Shared.kind_regular hq hreg] at flow
      exact .same flow rfl (Nat.le_refl _)
    | exitFree | free =>
      obtain ⟨_, _, he⟩ := witemFree_eq c.shared ‹Work›
      rw [he] at flow ⊢
      exact .same flow rfl (Nat.le_refl _)
    | _ => exact .same flow rfl (Nat.le_refl _)
  | overcommit h =>
    cases h with
    | wait hw => exact .inl (OcFlow.empty_of_wait hom hd hr hp hw)
    | dequeue _ hs hq | dequeueLast _ hs hq =>
      obtain ⟨wq, hreg, hk, _⟩ := hr.ocSlots _ _ hs
      simp only [List.map_cons, Event.outflow, Shared.kind_overcommit hq ⟨wq, hreg, hk⟩] at flow
      exact .trade flow rfl (Nat.le_refl _)
    | signalled _ _ hs => exact .exchange flow (Nat.le_of_eq (atomicDec_add_one hs).symm)
    | free =>
      obtain ⟨_, _, he⟩ := witemFree_eq c.shared ‹Work›
      rw [he] at flow ⊢
      exact .same flow rfl (Nat.le_refl _)
    | _ => exact .same flow rfl (Nat.le_refl _)
  | manager h =>
    cases h with
    | plain hq =>
      obtain ⟨_, _, _, _, rfl⟩ := hq
      exact .same flow rfl (Nat.le_refl _)
    | insert hq =>
      simp only [List.map_cons, Event.inflow, Shared.kind_regular hq hreg] at flow
      exact .same flow rfl (Nat.le_refl _)
    | _ => exact .same flow rfl (Nat.le_refl _)

/-- `pthread_cond_signal` takes a thread out of a wait set that has one. -/
theorem wakeUp_length {woken W : List Tid} (h : signalled woken W = true) :
    (wakeUp woken W).length ≤ W.length - 1 := by
  cases W with
  | nil => simp [wakeUp]
  | cons u W =>
    simp only [signalled, List.isEmpty_cons, Bool.false_or, List.any_eq_true] at h
    obtain ⟨v, hv, hw⟩ := h
    have hlt : (wakeUp woken (u :: W)).length < (u :: W).length := by
      refine List.length_filter_lt_length_iff_exists.mpr ⟨v, hv, ?_⟩
      simpa using hw
    simp only [List.length_cons, Nat.add_sub_cancel] at hlt ⊢
    omega

/-- The sleeping overcommit threads are idle ones. -/
theorem ocWaitSet_step (hd : Disciplined c) (hp : c.threads[t]? = some p)
    (hsum : c.shared.ocwqIdleThreads + c.shared.ocwqSignalCount = c.number Thread.ocWaits)
    (hle : c.shared.ocwqHasWork.length ≤ c.shared.ocwqIdleThreads) (h : Step S c.shared t p ch o) :
    o.shared.ocwqHasWork.length ≤ o.shared.ocwqIdleThreads := by
  cases h with
  | app h => cases h <;> exact hle
  | call h =>
    cases h with
    | quiet hq | quietReturn hq => obtain ⟨_, _, _, _, rfl⟩ := hq; exact hle
    | ocSignal _ hi hw =>
      have := wakeUp_length hw
      have := atomicDec_add_one hi
      simp only
      omega
    | _ => exact hle
  | worker h =>
    cases h with
    | exitFree | free =>
      obtain ⟨_, _, he⟩ := witemFree_eq c.shared ‹Work›
      rw [he]
      exact hle
    | _ => exact hle
  | overcommit h =>
    cases h with
    | wait => exact Nat.succ_le_succ hle
    | leave => exact Nat.le_trans (List.length_filter_le _ _) hle
    | timedOut ht _ hs =>
      -- the thread that gives up is not asleep, so it is one of the others that are idle
      have hpos := Config.numberAt_pos (P := fun t p => p.ocWaits && !c.shared.ocwqHasWork.contains t)
        hp (by simpa [Thread.ocWaits] using ht)
      have hsplit := hd.ocWait.number_eq
      have hdec := atomicDec_add_one (n := c.shared.ocwqIdleThreads) (by omega)
      simp only
      omega
    | free =>
      obtain ⟨_, _, he⟩ := witemFree_eq c.shared ‹Work›
      rw [he]
      exact hle
    | _ => exact hle
  | manager h =>
    cases h with
    | plain hq => obtain ⟨_, _, _, _, rfl⟩ := hq; exact hle
    | _ => exact hle

theorem ocWaitSet_le_idle (h : Machine.Run (program S) G (initial users managers) tr c) :
    c.shared.ocwqHasWork.length ≤ c.shared.ocwqIdleThreads :=
  h.invariant (fun _ c => c.shared.ocwqHasWork.length ≤ c.shared.ocwqIdleThreads) (Nat.le_refl 0)
    (fun _ _ _ _ _ hrun hle _ mv =>
      ocWaitSet_step (disciplined hrun) mv.here (ocCounters hrun) hle (program_step mv.next).2)

/-- Every queued item is on the account of a thread that is about to scan, of a producer that has
not decided yet, or of a signal that is still to be consumed. -/
theorem ocQueued_le (h : Machine.Run (program S) (fun c l => createsSucceed c l = true)
    (initial users managers) tr c) :
    c.shared.ocQueued ≤ c.total (fun p => p.ocHelps.toNat) + c.shared.ocwqSignalCount := by
  refine h.invariant
    (fun _ c => c.shared.ocQueued ≤ c.total (fun p => p.ocHelps.toNat) + c.shared.ocwqSignalCount)
    (Nat.zero_le _) ?_
  intro tr c l p o hrun ih hg mv
  have hflow := ocFlow_step (masks hrun) (ocMasks hrun) (disciplined hrun) (registry hrun) mv.here
    (program_step mv.next).2 (createsSucceed_ret hg mv.here)
  have htotal := Outcome.total_apply (o := o) (fun p => p.ocHelps.toNat) mv.here
  change o.shared.ocQueued ≤ _ + o.shared.ocwqSignalCount
  rcases hflow with hz | hf <;> omega

/-- If every `pthread_create` succeeds, then whenever `ocwq_mtx` is free each queued overcommit item
is matched by a thread of its own that is neither asleep nor inside a callback. -/
theorem overcommit_items_matched_by_threads (S : Settings) (users managers : Nat)
    (tr : List Event) (c : PoolState)
    (h : Machine.Run (program S) (fun c l => createsSucceed c l = true) (initial users managers) tr c)
    (free : c.shared.ocwqMtx = none) :
    c.shared.ocQueued ≤ c.number Thread.ocScans + c.shared.ocwqSignalCount ∧
      c.shared.ocwqSignalCount ≤
        c.numberAt (fun t p => p.ocWaits && !c.shared.ocwqHasWork.contains t) := by
  have hd := disciplined h
  constructor
  · have hle := ocQueued_le h
    have hscan : c.total (fun p => p.ocHelps.toNat) = c.number Thread.ocScans := by
      rw [Config.number_eq_total]
      refine Config.total_congr fun p hp => ?_
      obtain ⟨t, ht⟩ := List.getElem?_of_mem hp
      have out : p.holdsOcMtx = false := by
        cases hh : p.holdsOcMtx with
        | false => rfl
        | true =>
          have := (hd.ocMtx.at ht).mpr hh
          rw [free] at this
          cases this
      cases p with
      | call k x =>
        cases x with
        | ocAdd q w x => cases x <;> first | rfl | cases out
        | _ => rfl
      | _ => rfl
    rwa [hscan] at hle
  · have := ocCounters h
    have := ocWaitSet_le_idle h
    have := hd.ocWait.number_eq
    omega

/-- A first item is queued; the thread created for it is about to scan. -/
theorem overcommit_item_matched_by_new_thread : ∃ tr c,
    Machine.Run (program ⟨2, 2, 2, 0, false⟩) (fun c l => createsSucceed c l = true) (initial 1 0)
      tr c ∧ c.shared.ocwqMtx = none ∧ c.shared.ocQueued = 1 ∧
      c.shared.ocQueued ≤ c.number Thread.ocScans + c.shared.ocwqSignalCount := by
  obtain ⟨tr, c, hrun, hP⟩ := Machine.exists_run (M := program ⟨2, 2, 2, 0, false⟩)
    (g := createsSucceed) (c := initial 1 0)
    (createNextQueue 0 2 1 ++ [(0, .request (.additem 0 (some 7) 70))] ++ steps 0 7 ++
      [(0, .ret 0)] ++ steps 0 1)
    (fun r => decide (r.1.shared.ocwqMtx = none ∧ r.1.shared.ocQueued = 1)) (by decide +kernel)
  obtain ⟨free, hq⟩ := of_decide_eq_true hP
  exact ⟨tr, c, hrun, free, hq, (overcommit_items_matched_by_threads _ _ _ tr c hrun free).1⟩

end PthreadWorkqueue.Posix
