import PthreadWorkqueue.Posix.Schedule
import PthreadWorkqueue.Posix.Wakeup
import PthreadWorkqueue.Posix.RampDown

/-! Progress of the non-overcommit pool by the steps of its workers alone, and the spinners that
prevent it. -/
namespace PthreadWorkqueue.Posix
open Concurrency

variable {S : Settings} {sh : Shared} {t : Tid} {p : Thread} {ch : Choice} {o : Out}
  {c : PoolState} {q : QId} {wq : Workq} {w : Work}

/-- Inside `pthread_workqueue_additem_np`. -/
def Thread.adding : Thread → Bool
  | .call _ c => match c with
    | .check _ _ _ | .alloc _ _ _ | .handle _ _ | .add _ _ _ | .ocAdd _ _ _ => true
    | _ => false
  | _ => false

/-- The pool has work, all live workers are idle, and no call is adding an item. -/
structure IdleWithWork (c : PoolState) : Prop where
  running : c.shared.halted = none
  noAdditem : ∀ p ∈ c.threads, p.adding = false
  alive : ∃ p ∈ c.threads, p.liveWorker = true
  idle : ∀ p ∈ c.threads, p.liveWorker = true → p.inCallback = false
  item : c.shared.hasRealItem

/-- Steps of the workers alone lead to the dequeue of a real item. -/
def WorkersDequeue (S : Settings) (c : PoolState) : Prop :=
  ∃ es d, Machine.Run (program S) WorkerGo c es d ∧ ∃ e ∈ es, e.dequeuesReal

/-- Some real item is within reach: a worker has chosen the queue with the item at its head, or of the
workers that are awake and not leaving, enough remain for the markers before it when the possible
spinners are set aside, or one to take it. -/
def WithinReach (S : Settings) (c : PoolState) : Prop :=
  ∃ w ∈ c.shared.scanOrder, w.isMarker = false ∧
    ((∃ p ∈ c.threads, p.faces w c.shared = true) ∨ needed S w c ≤ helpers w c)

instance (S : Settings) (c : PoolState) : Decidable (WithinReach S c) :=
  inferInstanceAs (Decidable (∃ w ∈ c.shared.scanOrder, w.isMarker = false ∧ _))

/-- Exit markers do not block the pool if nobody else holds a lock and a real item is within reach. -/
theorem exit_markers_do_not_block (S : Settings) (users managers : Nat) (tr : List Event)
    (c : PoolState) (h : Machine.Free (program S) (initial users managers) tr c)
    (work : IdleWithWork c)
    (unlocked : ∀ p ∈ c.threads, p.liveWorker = false → p.holdsMtx = false ∧ p.spin = none)
    (within : WithinReach S c) : WorkersDequeue S c := by
  obtain ⟨w, hqueued, hreal, hreach⟩ := within
  have outside : ∀ (t : Tid) (p : Thread), c.threads[t]? = some p →
      p.inWorkerMain = true ∨ (p.holdsMtx = false ∧ p.spin = none) := fun t p hp => by
    have hmem := List.mem_of_getElem? hp
    cases hl : p.liveWorker with
    | false => exact .inr (unlocked p hmem hl)
    | true =>
      have hidle := work.idle p hmem hl
      cases p with
      | worker => exact .inl rfl
      | app => exact .inr ⟨rfl, rfl⟩
      | call => cases hl.symm.trans hidle
      | _ => cases hl
  obtain ⟨p, hmem, hface⟩ | enough := hreach
  · obtain ⟨t, hp⟩ := List.getElem?_of_mem hmem
    obtain ⟨es, d, run, e, he, u, q, rfl⟩ := faced_dequeued h
      ⟨work.running, fun t p hp => (outside t p hp).imp id And.right, hreal, t, p, hp, hface⟩
    exact ⟨es, d, run, _, he, fun hf => by simp [Work.isMarker, hf] at hreal⟩
  · refine hunt_succeeds h ⟨work.running, outside, hreal, hqueued, ?_⟩
    have hpos : 1 ≤ needed S w c := Settings.toPass_pos
    unfold helpers at enough
    omega

/-- One worker spins, and the other is woken for the marker in front of the item. -/
theorem exit_marker_does_not_block_one_spinner : ∃ tr c,
    Machine.Free (program ⟨1, 2, 1, 1, false⟩) (initial 1 0) tr c ∧
      c.shared.scanOrder.map Work.func = [none, some 7] ∧ WorkersDequeue ⟨1, 2, 1, 1, false⟩ c := by
  obtain ⟨tr, c, hrun, hP⟩ := Machine.exists_run (M := program ⟨1, 2, 1, 1, false⟩)
    (g := fun _ _ => true) (c := initial 1 0)
    (createFirst 0 0 ++ [(1, .value 100), (1, .value 0)] ++ startWorker 1 ++ startWorker 1 ++
      steps 2 3 ++ steps 3 7 ++ (List.replicate 7 (idleTick 1)).flatten ++ stopTick 1 3 ++
      [(0, .request (.additem 0 (some 7) 70))] ++ steps 0 9 ++ [(0, .wake []), (0, .go)])
    (fun r => decide (r.1.shared.halted = none ∧ (∀ p ∈ r.1.threads, p.adding = false) ∧
      (∃ p ∈ r.1.threads, p.liveWorker = true) ∧
      (∀ p ∈ r.1.threads, p.liveWorker = true → p.inCallback = false) ∧
      (∃ wq ∈ r.1.shared.queues, wq.overcommit = false ∧ ∃ w ∈ wq.itemListhead, w.func ≠ none) ∧
      (∀ p ∈ r.1.threads, p.liveWorker = false → p.holdsMtx = false ∧ p.spin = none) ∧
      r.1.shared.scanOrder.map Work.func = [none, some 7] ∧ WithinReach ⟨1, 2, 1, 1, false⟩ r.1))
    (by decide +kernel)
  obtain ⟨h₁, h₂, h₃, h₄, h₅, h₆, h₇, h₈⟩ := of_decide_eq_true hP
  exact ⟨tr, c, hrun.free, h₇,
    exit_markers_do_not_block _ _ _ tr c hrun.free ⟨h₁, h₂, h₃, h₄, h₅⟩ h₆ h₈⟩

/-! Two spinners and a marker -/

/-- The points of the busy loop when the marker at the head of the first queue is skipped. -/
def ScanPc.skipping : ScanPc → Bool
  | .readMask | .readSlot 1 | .lock 0 | .first 0 | .unlock 0 none => true
  | _ => false

/-- A worker in that loop. -/
def Thread.skipping : Thread → Bool
  | .worker _ (.scan k p) => k.spins && p.skipping
  | _ => false

structure Stuck (c : PoolState) : Prop where
  mask : c.shared.wqlistMask = 1
  slot : c.shared.wqlist 0 = some 0
  marker : ∃ w, (c.shared.items 0).head? = some w ∧ w.func = none
  workers : ∀ (t : Tid) (p : Thread), c.threads[t]? = some p → p.liveWorker = true → p.skipping = true

private theorem Stuck.move (hs : Stuck c) (hp : c.threads[t]? = some p) (fresh : o.spawned = [])
    (hm : o.shared.wqlistMask = c.shared.wqlistMask) (hw : o.shared.wqlist = c.shared.wqlist)
    (hi : o.shared.items 0 = c.shared.items 0) (hpc : o.pc.skipping = true) : Stuck (o.apply c t) := by
  refine ⟨hm.trans hs.mask, ?_, ?_, Outcome.forall_apply hs.workers hp (fun _ _ => hpc)
    (fun _ _ _ _ h => h) (by simp [fresh])⟩
  · change o.shared.wqlist 0 = _
    rw [hw, hs.slot]
  · change ∃ w, (o.shared.items 0).head? = some w ∧ _
    rw [hi]
    exact hs.marker

theorem Thread.skipping_cases (h : p.skipping = true) : ∃ v y, p = .worker v (.scan .spin y) ∧
    (y = .readMask ∨ y = .readSlot 1 ∨ y = .lock 0 ∨ y = .first 0 ∨ y = .unlock 0 none) := by
  unfold Thread.skipping at h
  split at h
  · rename_i v k y
    obtain ⟨hk, hy⟩ := Bool.and_eq_true_iff.mp h
    obtain rfl : k = .spin := by cases k <;> first | rfl | cases hk
    refine ⟨v, y, rfl, ?_⟩
    unfold ScanPc.skipping at hy
    split at hy <;> simp_all
  · cases h

/-- A spinner goes round the loop and dequeues nothing. -/
theorem Stuck.step (hs : Stuck c) (hp : c.threads[t]? = some p) (hl : p.liveWorker = true)
    (h : Step S c.shared t p .go o) :
    Stuck (o.apply c t) ∧ ∀ e ∈ o.events, ¬ e.dequeuesReal := by
  have hskip := hs.workers t p hp hl
  obtain ⟨w₀, hhead, hf₀⟩ := hs.marker
  obtain ⟨v, y, rfl, rfl | rfl | rfl | rfl | rfl⟩ := Thread.skipping_cases hskip
  all_goals cases h with | worker h => ?_
  all_goals cases h with
    | fault => exact ⟨hs.move hp rfl rfl rfl rfl hskip, by simp⟩
    | _ => ?_
  case nothing hz =>
    rw [hs.mask] at hz
    exact absurd hz (by decide)
  case readMask =>
    refine ⟨hs.move hp rfl rfl rfl rfl ?_, by simp [Event.dequeuesReal]⟩
    rw [hs.mask]
    rfl
  case readSlot q hq =>
    rw [hs.slot] at hq
    cases hq
    exact ⟨hs.move hp rfl rfl rfl rfl rfl, by simp⟩
  case lock wq hm hq =>
    refine ⟨hs.move hp rfl rfl rfl ?_ rfl, by simp⟩
    exact Shared.items_set_same hq rfl (by rfl) 0
  case raced wq hl hq =>
    rw [Shared.items_eq hq, hl] at hhead
    cases hhead
  case skip => exact ⟨hs.move hp rfl rfl rfl rfl rfl, by simp⟩
  case first wq w rest hl hf hq =>
    rw [Shared.items_eq hq, hl] at hhead
    cases hhead
    exact absurd hf₀ (hf rfl)
  case unlock wq hq =>
    refine ⟨hs.move hp rfl rfl rfl ?_ rfl, by simp⟩
    exact Shared.items_set_same hq rfl (by rfl) 0

theorem Stuck.not_dequeue (hs : Stuck c) : ¬ WorkersDequeue S c := by
  rintro ⟨es, d, hrun, e, he, hreal⟩
  have := hrun.invariant (fun es d => Stuck d ∧ ∀ e ∈ es, ¬ e.dequeuesReal) ⟨hs, by simp⟩ ?_
  · exact this.2 e he hreal
  · rintro es d ⟨t, ch⟩ p o _ ⟨hd, hno⟩ ⟨hgo, r, hr, hl⟩ mv
    cases hgo
    have hp := mv.here
    rw [hp] at hr
    cases hr
    obtain ⟨h₁, h₂⟩ := hd.step hp hl (program_step mv.next).2
    exact ⟨h₁, fun e he => (List.mem_append.mp he).elim (hno e) (h₂ e)⟩

/-- With PWQ_SPIN_THREADS set to two, both workers spin for ever on the marker in front of an item. -/
theorem exit_marker_blocks_two_spinners : ¬ ∀ (S : Settings) (users managers : Nat) (tr : List Event)
    (c : PoolState), Machine.Free (program S) (initial users managers) tr c → IdleWithWork c →
    WorkersDequeue S c := by
  intro claim
  obtain ⟨tr, c, hrun, hP⟩ := Machine.exists_run (M := program ⟨1, 2, 1, 2, false⟩)
    (g := fun _ _ => true) (c := initial 1 0)
    (createFirst 0 0 ++ [(1, .value 100), (1, .value 0)] ++ startWorker 1 ++ startWorker 1 ++
      steps 2 3 ++ steps 3 3 ++ (List.replicate 7 (idleTick 1)).flatten ++ stopTick 1 3 ++
      [(0, .request (.additem 0 (some 7) 70))] ++ steps 0 9 ++ [(0, .wake []), (0, .go)])
    (fun r => decide (r.1.shared.halted = none ∧ (∀ p ∈ r.1.threads, p.adding = false) ∧
      (∃ p ∈ r.1.threads, p.liveWorker = true) ∧
      (∀ p ∈ r.1.threads, p.liveWorker = true → p.inCallback = false) ∧
      (∃ wq ∈ r.1.shared.queues, wq.overcommit = false ∧ ∃ w ∈ wq.itemListhead, w.func ≠ none) ∧
      r.1.shared.wqlistMask = 1 ∧ r.1.shared.wqlist 0 = some 0 ∧
      (r.1.shared.items 0).head?.map Work.func = some none ∧
      (∀ p ∈ r.1.threads, p.liveWorker = true → p.skipping = true))) (by decide +kernel)
  obtain ⟨h₁, h₂, h₃, h₄, h₅, h₆, h₇, h₈, h₉⟩ := of_decide_eq_true hP
  have stuck : Stuck c := ⟨h₆, h₇, Option.map_eq_some_iff.mp h₈,
    fun t p hp => h₉ p (List.mem_of_getElem? hp)⟩
  exact stuck.not_dequeue (claim _ _ _ tr c hrun.free ⟨h₁, h₂, h₃, h₄, h₅⟩)

end PthreadWorkqueue.Posix
