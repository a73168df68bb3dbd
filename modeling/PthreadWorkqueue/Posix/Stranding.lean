import PthreadWorkqueue.Posix.RampDown
import PthreadWorkqueue.Posix.Schedule
import PthreadWorkqueue.Posix.OvercommitProgress

/-! What becomes of an accepted item after `pthread_create` has failed: what the library's own
threads can still do for it, once creation succeeds again. -/
namespace PthreadWorkqueue.Posix
open Concurrency

variable {S : Settings} {sh : Shared} {t : Tid} {p : Thread} {ch : Choice} {o : Out}
  {c : PoolState} {q : QId} {wq : Workq} {w target : Work}

/-- A thread of the library, also while it runs a callback. -/
def Thread.ofLibrary : Thread → Bool
  | .app .user | .call .user _ => false
  | _ => true

/-- A step of one of the library's own threads. No callback begins a call of the library, and
`pthread_create` succeeds. -/
def LibraryStep (c : PoolState) (l : Tid × Choice) : Prop :=
  (∃ p, c.threads[l.1]? = some p ∧ p.ofLibrary = true) ∧ (∀ r, l.2 ≠ .request r) ∧
    createsSucceed c l = true

/-- A call that returned zero accepted the item. -/
def Accepted (tr : List Event) (w : Work) : Prop :=
  ∃ t q before after, tr = before ++ Event.accept t q w :: after ∧ Event.returned t 0 ∈ after

/-- Steps of the library's own threads lead to the dequeue of the item. -/
def CanServe (S : Settings) (c : PoolState) (w : Work) : Prop :=
  ∃ es d, Machine.Run (program S) LibraryStep c es d ∧ ∃ e ∈ es, ∃ t q, e = Event.dequeue t q w

theorem WorkerGo.library {l : Tid × Choice} (h : WorkerGo c l) : LibraryStep c l := by
  obtain ⟨hgo, p, hp, hl⟩ := h
  refine ⟨⟨p, hp, ?_⟩, fun r hr => ?_, ?_⟩
  · cases p with
    | app k | call k => cases k <;> first | rfl | cases hl
    | _ => rfl
  · rw [hgo] at hr
    cases hr
  · simp [createsSucceed, hp, hgo]

theorem OvercommitGo.library {l : Tid × Choice} (h : OvercommitGo c l) : LibraryStep c l := by
  obtain ⟨hgo, p, hp, hof⟩ := h
  refine ⟨⟨p, hp, ?_⟩, fun r hr => ?_, ?_⟩
  · cases p with
    | app k => cases k <;> first | rfl | cases hof
    | call => cases hof
    | _ => rfl
  · rw [hr] at hgo
    rcases hgo with hgo | hgo <;> cases hgo
  · rcases hgo with hgo | hgo <;> simp [createsSucceed, hp, hgo]

/-! The workers that are still to come -/

/-- The iterations of the `worker_min` loop after the one that calls `worker_start`. -/
def restOfLoop (S : Settings) : Option Nat → Nat
  | some i => S.workerMin - (i + 1)
  | none => 0

def StartPc.rank : StartPc → Nat
  | .incPending => 6
  | .incIdle => 5
  | .incCount => 4
  | .create => 3
  | .decIdle => 2
  | .decCount => 1

namespace ManagerPc

/-- The workers that the manager is about to start. -/
def starts (S : Settings) : ManagerPc → Nat
  | .begin | .beginRunqueue => S.workerMin
  | .start r p => restOfLoop S r + (!p.fails).toNat
  | _ => 0

/-- The steps until the manager has started them. -/
def startRank (S : Settings) : ManagerPc → Nat
  | .begin => 6 * S.workerMin + 2
  | .beginRunqueue => 6 * S.workerMin + 1
  | .start r p => 6 * restOfLoop S r + p.rank
  | _ => 0

end ManagerPc

namespace Thread

def starts (S : Settings) : Thread → Nat
  | .manager _ x => x.starts S
  | _ => 0

def startRank (S : Settings) : Thread → Nat
  | .manager _ x => x.startRank S
  | _ => 0

theorem starts_eq_zero (h : p.startRank S = 0) : p.starts S = 0 := by
  cases p with
  | manager v x =>
    cases x with
    | begin | beginRunqueue => simp [startRank, ManagerPc.startRank] at h
    | start r y => cases y <;> simp [startRank, ManagerPc.startRank, StartPc.rank] at h
    | _ => rfl
  | _ => rfl

end Thread

theorem minLoop_starts (i : Nat) : (minLoop S i).starts S = S.workerMin - i ∧
    (minLoop S i).startRank S = 6 * (S.workerMin - i) := by
  unfold minLoop
  split
  · simp only [ManagerPc.starts, ManagerPc.startRank, restOfLoop, StartPc.fails, StartPc.rank,
      Bool.not_false, Bool.toNat_true]
    omega
  · simp only [ManagerPc.starts, ManagerPc.startRank]
    omega

theorem startReturn_starts (r : Option Nat) : (startReturn S r).starts S = restOfLoop S r ∧
    (startReturn S r).startRank S = 6 * restOfLoop S r := by
  cases r with
  | none => exact ⟨rfl, rfl⟩
  | some i => exact minLoop_starts (i + 1)

/-- A step of the manager towards the workers that it is about to start. -/
structure Starting (S : Settings) (sh : Shared) (x : ManagerPc) (o : Out) : Prop where
  alive : o.shared.halted = none
  queues : o.shared.queues = sh.queues
  wqlist : o.shared.wqlist = sh.wqlist
  asleep : o.shared.wqlistHasWork = sh.wqlistHasWork
  spawned : ∀ r ∈ o.spawned, r = .workerMain
  unlocked : o.pc.holdsMtx = false ∧ o.pc.spin = none
  pc : ∃ v' x', o.pc = .manager v' x' ∧ x.starts S = x'.starts S + o.spawned.length ∧
    x'.startRank S < x.startRank S

/-- The manager moves towards the point at which it creates, and creates. -/
private theorem manager_starts {v : ManagerVars} {x : ManagerPc} (hn : sh.halted = none)
    (hx : x.startRank S ≠ 0) : ∃ ch o, managerNext S sh t v x ch = some o ∧
      (∀ r, ch ≠ .request r) ∧ (∀ code, ch = .ret code → code = 0) ∧ Starting S sh x o := by
  cases x with
  | begin =>
    refine ⟨.value 0, _, rfl, nofun, nofun, hn, rfl, rfl, rfl, by simp, ⟨rfl, rfl⟩, _, _, rfl, rfl, ?_⟩
    exact Nat.lt_succ_self _
  | beginRunqueue =>
    have hb := minLoop_between (S := S) 0
    refine ⟨.value 0, _, rfl, nofun, nofun, hn, rfl, rfl, rfl, by simp,
      ⟨ManagerPc.between_holdsMtx hb, ManagerPc.between_spin hb⟩, _, _, rfl, ?_, ?_⟩
    · exact (minLoop_starts 0).1.symm
    · rw [(minLoop_starts 0).2]
      exact Nat.lt_succ_self _
  | start r y =>
    have hb := startReturn_between (S := S) r
    obtain ⟨hs, hr⟩ := startReturn_starts (S := S) r
    cases y with
    | incPending | incIdle | incCount | decIdle =>
      refine ⟨.go, _, rfl, nofun, nofun, hn, rfl, rfl, rfl, by simp, ⟨rfl, rfl⟩, _, _, rfl, rfl, ?_⟩
      exact Nat.lt_succ_self _
    | create =>
      refine ⟨.ret 0, _, rfl, nofun, by simp, hn, rfl, rfl, rfl, by simp,
        ⟨ManagerPc.between_holdsMtx hb, ManagerPc.between_spin hb⟩, _, _, rfl, ?_, ?_⟩
      · rw [hs]
        rfl
      · rw [hr]
        exact Nat.lt_add_of_pos_right (Nat.zero_lt_succ 2)
    | decCount =>
      refine ⟨.go, _, rfl, nofun, nofun, hn, rfl, rfl, rfl, by simp,
        ⟨ManagerPc.between_holdsMtx hb, ManagerPc.between_spin hb⟩, _, _, rfl, ?_, ?_⟩
      · rw [hs]
        rfl
      · rw [hr]
        exact Nat.lt_succ_self _
  | _ => exact absurd rfl hx

/-! The pool of the workers -/

/-- The workers that can dequeue `w`: those that roam and are not asleep, those that the manager is
about to start, and one that is on track, when it is not in another's way. -/
def helping (S : Settings) (w : Work) (c : PoolState) : Nat :=
  c.number Thread.roams + c.total (Thread.starts S) +
    (if c.number Thread.locking ≤ 1 then c.number (Thread.onTrack w c.shared) else 0) -
    c.shared.wqlistHasWork.length

/-- The workers that it takes to dequeue `w`, when those that are about to start may spin too. -/
def needing (S : Settings) (w : Work) (c : PoolState) : Nat :=
  S.toPass (c.shared.markersBefore w)
    (c.number Thread.fastSide + c.total (Thread.starts S) + c.shared.realBefore w)

/-- The workers will dequeue the item, if nobody else holds one of their locks. -/
structure Ready (S : Settings) (target : Work) (c : PoolState) : Prop where
  alive : c.shared.halted = none
  outside : ∀ (t : Tid) (p : Thread), c.threads[t]? = some p →
    p.inWorkerMain = true ∨ (p.holdsMtx = false ∧ p.spin = none)
  real : target.isMarker = false
  queued : target ∈ c.shared.scanOrder
  enough : needing S target c ≤ helping S target c

namespace Ready

/-- The manager comes nearer to a worker that it is about to start, or starts it. -/
private theorem start {v : ManagerVars} {x : ManagerPc} (hI : Ready S target c)
    (hp : c.threads[t]? = some (.manager v x)) (h : Starting S c.shared x o) :
    Ready S target (o.apply c t) := by
  obtain ⟨v', x', hpc, hstarts, _⟩ := h.pc
  have hsame : SameItems c.shared o.shared := ⟨h.wqlist, fun r => by simp [Shared.items, h.queues]⟩
  have new : ∀ P : Thread → Bool, P .workerMain = true → P (.manager v x) = false →
      P (.manager v' x') = false → (o.apply c t).number P = c.number P + o.spawned.length := by
    intro P hnew hold hold'
    have hone : (o.spawned.map fun r => (P r).toNat) = o.spawned.map fun _ => 1 :=
      List.map_congr_left fun r hr => by rw [h.spawned r hr, hnew]; rfl
    have htotal := Outcome.total_apply (o := o) (fun r => (P r).toNat) hp
    simp only [hone, hpc, hold, hold', List.map_const', List.sum_replicate_nat, Nat.mul_one] at htotal
    rw [Config.number_eq_total, Config.number_eq_total]
    exact htotal
  have hroams := new Thread.roams rfl rfl rfl
  have hfast := new Thread.fastSide rfl rfl rfl
  have hcome : (o.apply c t).total (Thread.starts S) + o.spawned.length = c.total (Thread.starts S) := by
    have hzero : (o.spawned.map (Thread.starts S)).sum = 0 :=
      sum_map_eq_zero fun r hr => by rw [h.spawned r hr]; rfl
    have htotal := Outcome.total_apply (o := o) (Thread.starts S) hp
    rw [hzero, hpc] at htotal
    simp only [Thread.starts, hstarts] at htotal
    omega
  have fresh : ∀ P : Thread → Bool, P .workerMain = false → ∀ r ∈ o.spawned, P r = false :=
    fun P hP r hr => h.spawned r hr ▸ hP
  have hlock : (o.apply c t).number Thread.locking = c.number Thread.locking := by
    obtain ⟨hm, hs⟩ := (hI.outside t _ hp).resolve_left (by simp [Thread.inWorkerMain])
    have hnum := Outcome.number_apply (P := Thread.locking) (o := o) hp (fresh _ rfl)
    simpa [Thread.locking, hm, hs, h.unlocked] using hnum
  have htrack : (o.apply c t).number (Thread.onTrack target o.shared) =
      c.number (Thread.onTrack target c.shared) := by
    have hnum := Outcome.number_apply (P := Thread.onTrack target c.shared) (o := o) hp (fresh _ rfl)
    rw [hsame.onTrack]
    simpa [hpc, Thread.onTrack] using hnum
  refine ⟨h.alive, ?_, hI.real, hsame.scanOrder ▸ hI.queued, ?_⟩
  · refine Outcome.forall_apply hI.outside hp (fun _ => .inr h.unlocked) (fun _ _ _ _ h => h)
      fun u r hr => ?_
    rw [h.spawned r hr]
    exact .inl rfl
  · have hneed : needing S target (o.apply c t) = needing S target c := by
      unfold needing
      change S.toPass (o.shared.markersBefore target) (_ + o.shared.realBefore target) = _
      rw [hsame.markersBefore, hsame.realBefore, hfast, ← hcome]
      congr 2
      omega
    have hhelp : helping S target (o.apply c t) = helping S target c := by
      unfold helping
      change _ + _ + (if _ then (o.apply c t).number (Thread.onTrack target o.shared) else 0) -
        o.shared.wqlistHasWork.length = _
      rw [hlock, htrack, h.asleep, hroams, ← hcome]
      congr 2
      omega
    rw [hneed, hhelp]
    exact hI.enough

/-- When no worker is to come, the workers hunt for the item. -/
private theorem hunt (hI : Ready S target c) (none : c.total (Thread.starts S) = 0) :
    Hunt S target c ∧ Spare S target c := by
  have henough := hI.enough
  have hneed : needing S target c = needed S target c := by
    rw [needing, needed, none, Nat.add_zero]
  have hpos : 1 ≤ needed S target c := Settings.toPass_pos
  unfold helping at henough
  rw [hneed, none] at henough
  refine ⟨⟨hI.alive, hI.outside, hI.real, hI.queued, ?_⟩, ?_⟩
  · split at henough <;> omega
  · by_cases hone : c.number Thread.locking ≤ 1
    · exact .inl hone
    · rw [if_neg hone] at henough
      refine .inr ?_
      unfold EnoughRoaming
      omega

end Ready

theorem ready_serves {users managers : Nat} {tr : List Event}
    (hrun : Machine.Free (program S) (initial users managers) tr c) (hI : Ready S target c) :
    CanServe S c target := by
  refine Machine.exists_run_of_rank
    (I := fun tr c => Machine.Free (program S) (initial users managers) tr c ∧ Ready S target c)
    (fun c => c.total (Thread.startRank S)) (fun tr c h => ?_) ⟨hrun, hI⟩
  obtain ⟨hrun, hI⟩ := h
  by_cases hs : ∃ (t : Tid) (v : ManagerVars) (x : ManagerPc),
      c.threads[t]? = some (.manager v x) ∧ x.startRank S ≠ 0
  · obtain ⟨t, v, x, hp, hx⟩ := hs
    obtain ⟨ch, o, ho, hreq, hret, h⟩ := manager_starts (S := S) (t := t) (v := v) hI.alive hx
    have hnext : program S c.shared t (.manager v x) ch = some o := by
      simp [program, hI.alive, ho]
    have run : Machine.Run (program S) LibraryStep c o.events (o.apply c t) := by
      refine .move (l := (t, ch)) ⟨⟨_, hp, rfl⟩, hreq, ?_⟩ ⟨hp, hnext⟩
      cases ch with
      | ret code => simp [createsSucceed, hp, hret code rfl]
      | _ => simp [createsSucceed, hp]
    refine ⟨_, _, run, .inr ⟨⟨hrun.append run.free, hI.start hp h⟩, ?_⟩⟩
    obtain ⟨v', x', hpc, _, hlt⟩ := h.pc
    have hzero : (o.spawned.map (Thread.startRank S)).sum = 0 :=
      sum_map_eq_zero fun r hr => by rw [h.spawned r hr]; rfl
    have htotal := Outcome.total_apply (o := o) (Thread.startRank S) hp
    rw [hzero, hpc] at htotal
    simp only [Thread.startRank] at htotal
    omega
  · have none : c.total (Thread.starts S) = 0 := by
      refine sum_map_eq_zero fun r hr => Thread.starts_eq_zero ?_
      obtain ⟨u, hu⟩ := List.getElem?_of_mem hr
      cases r with
      | manager v x => exact Classical.byContradiction fun hx => hs ⟨u, v, x, hu, hx⟩
      | _ => rfl
    obtain ⟨hunt, spare⟩ := hI.hunt none
    obtain ⟨es, d, run, he⟩ := hunt_target hrun hunt spare
    exact ⟨es, d, run.weaken fun _ _ => WorkerGo.library, .inl he⟩

/-! Both pools -/

/-- The item will be dequeued: nobody else is inside a critical section of its pool, and the pool has
the threads that it takes, or a worker has chosen the queue with the item at its head. -/
def Attended (S : Settings) (c : PoolState) (wq : Workq) (w : Work) : Prop :=
  if wq.overcommit = true then
    (∀ p ∈ c.threads, p.holdsOcMtx = true → p.ofOvercommit = true) ∧
      0 < c.number Thread.ocRuns + c.shared.ocwqSignalCount
  else
    (∀ p ∈ c.threads, p.inWorkerMain = true ∨ (p.holdsMtx = false ∧ p.spin = none)) ∧
      ((∃ p ∈ c.threads, p.faces w c.shared = true) ∨ needing S w c ≤ helping S w c)

instance (S : Settings) (c : PoolState) (wq : Workq) (w : Work) : Decidable (Attended S c wq w) :=
  inferInstanceAs (Decidable (if wq.overcommit = true then _ else _))

theorem Accepted.real {users managers : Nat} {tr : List Event}
    (hrun : Machine.Free (program S) (initial users managers) tr c) (h : Accepted tr w) :
    w.func ≠ none := by
  obtain ⟨t, q, before, after, rfl, _⟩ := h
  exact (itemOk hrun).2 (.accept t q w) (by simp)

/-- Whatever creations have failed, an accepted item is dequeued by the library's own threads if its
pool has threads that are still to look for work, or will be started. -/
theorem accepted_item_is_served_if_attended (S : Settings) (users managers : Nat) (tr : List Event)
    (c : PoolState) (h : Machine.Free (program S) (initial users managers) tr c)
    (alive : c.shared.halted = none) (q : QId) (wq : Workq) (w : Work)
    (hq : c.shared.queues[q]? = some wq) (hw : w ∈ wq.itemListhead) (accepted : Accepted tr w)
    (attended : Attended S c wq w) : CanServe S c w := by
  have hr := registry h
  unfold Attended at attended
  cases hk : wq.overcommit with
  | true =>
    rw [if_pos hk] at attended
    have hs : c.shared.ocwq wq.queueprio = some q := by
      rcases hr.fresh q wq hq with hs | ⟨hs, _⟩
      · simpa [Shared.slotOf, hk] using hs
      · rw [hs] at hw
        cases hw
    obtain ⟨es, d, run, he⟩ := oc_hunt_target h ⟨alive,
      fun t p hp => attended.1 p (List.mem_of_getElem? hp),
      ⟨_, q, hs, by rwa [Shared.items_eq hq]⟩, attended.2⟩
    exact ⟨es, d, run.weaken fun _ _ => OvercommitGo.library, he⟩
  | false =>
    rw [if_neg (by simp [hk])] at attended
    obtain ⟨outside, ⟨p, hmem, hface⟩ | enough⟩ := attended
    · obtain ⟨t, hp⟩ := List.getElem?_of_mem hmem
      obtain ⟨es, d, run, he⟩ := faced_dequeued h ⟨alive, fun t p hp =>
        (outside p (List.mem_of_getElem? hp)).imp id And.right,
        Work.isMarker_eq_false (accepted.real h), t, p, hp, hface⟩
      exact ⟨es, d, run.weaken fun _ _ => WorkerGo.library, he⟩
    · exact ready_serves h ⟨alive, fun t p hp => outside p (List.mem_of_getElem? hp),
        Work.isMarker_eq_false (accepted.real h), hr.scanOrder_of_item hq hk hw, enough⟩

theorem Accepted.of_get {tr : List Event} {n : Nat} (h : tr[n]? = some (.accept t q w))
    (hr : Event.returned t 0 ∈ tr.drop (n + 1)) : Accepted tr w := by
  obtain ⟨hlt, he⟩ := List.getElem?_eq_some_iff.mp h
  refine ⟨t, q, tr.take n, tr.drop (n + 1), ?_, hr⟩
  rw [← he, ← List.drop_eq_getElem_cons hlt, List.take_append_drop]

/-- A creation fails in the `worker_min` loop. Then each pool gets an item; the creation for that of
the overcommit pool fails too. -/
def failures : List (Tid × Choice) :=
  createFirst 0 0 ++ createNextQueue 0 2 1 ++ [(1, .value 100), (1, .value 0)] ++ steps 1 3 ++
    [(1, .ret eagain)] ++ steps 1 2 ++ [(0, .request (.additem 0 (some 7) 70))] ++ steps 0 9 ++
    [(0, .request (.additem 1 (some 8) 80))] ++ steps 0 7 ++ [(0, .ret eagain)] ++ steps 0 1

/-- After a failure in each pool the manager is still in its `worker_min` loop, and a later call has created an overcommit thread. -/
theorem accepted_items_are_served_after_failures : ∃ tr c,
    Machine.Free (program ⟨2, 2, 2, 0, false⟩) (initial 1 0) tr c ∧
      Event.workerCreateFailed 1 ∈ tr ∧ c.number Thread.liveWorker = 0 ∧
      CanServe ⟨2, 2, 2, 0, false⟩ c ⟨0, some 7, 70, 0, 0⟩ ∧
      CanServe ⟨2, 2, 2, 0, false⟩ c ⟨1, some 8, 80, 0, 0⟩ := by
  obtain ⟨tr, c, hrun, hP⟩ := Machine.exists_run (M := program ⟨2, 2, 2, 0, false⟩)
    (g := fun _ _ => true) (c := initial 1 0)
    (failures ++ [(0, .request (.additem 1 (some 9) 90))] ++ steps 0 7 ++ [(0, .ret 0)] ++ steps 0 1)
    (fun r => decide (r.1.shared.halted = none ∧ Event.workerCreateFailed 1 ∈ r.2 ∧
      r.1.number Thread.liveWorker = 0 ∧
      (r.1.shared.queues[0]?.any fun wq : Workq => decide (⟨0, some 7, 70, 0, 0⟩ ∈ wq.itemListhead ∧
        Attended ⟨2, 2, 2, 0, false⟩ r.1 wq ⟨0, some 7, 70, 0, 0⟩)) = true ∧
      (r.1.shared.queues[1]?.any fun wq : Workq => decide (⟨1, some 8, 80, 0, 0⟩ ∈ wq.itemListhead ∧
        Attended ⟨2, 2, 2, 0, false⟩ r.1 wq ⟨1, some 8, 80, 0, 0⟩)) = true ∧
      r.2[4]? = some (Event.accept 0 0 ⟨0, some 7, 70, 0, 0⟩) ∧ Event.returned 0 0 ∈ r.2.drop 5 ∧
      r.2[7]? = some (Event.accept 0 1 ⟨1, some 8, 80, 0, 0⟩) ∧ Event.returned 0 0 ∈ r.2.drop 8))
    (by decide +kernel)
  obtain ⟨alive, failed, none, h₁, h₂, a₁, r₁, a₂, r₂⟩ := of_decide_eq_true hP
  obtain ⟨wq₁, hq₁, h₁⟩ := (Option.any_eq_true _ _).mp h₁
  obtain ⟨wq₂, hq₂, h₂⟩ := (Option.any_eq_true _ _).mp h₂
  obtain ⟨hw₁, h₁⟩ := of_decide_eq_true h₁
  obtain ⟨hw₂, h₂⟩ := of_decide_eq_true h₂
  exact ⟨tr, c, hrun.free, failed, none,
    accepted_item_is_served_if_attended _ _ _ tr c hrun.free alive 0 wq₁ _ hq₁ hw₁ (.of_get a₁ r₁) h₁,
    accepted_item_is_served_if_attended _ _ _ tr c hrun.free alive 1 wq₂ _ hq₂ hw₂ (.of_get a₂ r₂) h₂⟩

/-! Starvation -/

/-- The points of a manager that finds no worker. -/
def ManagerPc.findsNone : ManagerPc → Bool
  | .top | .timedWait | .semWait | .readIdle | .readCount | .rampRead => true
  | _ => false

/-- No thread of either pool is there, and the manager believes that there need be none. -/
structure Starved (c : PoolState) : Prop where
  idle : c.shared.idle = 0
  count : c.shared.count = 0
  threads : ∀ (t : Tid) (p : Thread), c.threads[t]? = some p →
    p.ofLibrary = false ∨ ∃ v x, p = .manager v x ∧ x.findsNone = true

/-- The manager goes round its loop: it creates no worker while `scoreboard.count` is zero. -/
theorem Starved.step {v : ManagerVars} {x : ManagerPc} (hs : Starved c)
    (hp : c.threads[t]? = some (.manager v x)) (hx : x.findsNone = true)
    (h : managerNext S c.shared t v x ch = some o) : Starved (o.apply c t) ∧ o.events = [] := by
  suffices o.shared.idle = 0 ∧ o.shared.count = 0 ∧ o.spawned = [] ∧ o.events = [] ∧
      ∃ v' x', o.pc = .manager v' x' ∧ x'.findsNone = true by
    obtain ⟨hi, hc, fresh, hev, v', x', hpc, hx'⟩ := this
    exact ⟨⟨hi, hc, Outcome.forall_apply hs.threads hp (fun _ => .inr ⟨v', x', hpc, hx'⟩)
      (fun _ _ _ _ h => h) (by simp [fresh])⟩, hev⟩
  have ramp : (rampStart v).findsNone = true := by unfold rampStart; split <;> rfl
  cases x <;> cases hx <;> cases ch <;> simp only [managerNext, managerSleep, managerSpawn,
    managerRamp, goTo, reduceCtorEq, Option.some.injEq, hs.idle, hs.count, Nat.not_lt_zero, if_true,
    if_false] at h
  all_goals (repeat' split at h)
  all_goals cases h
  all_goals refine ⟨by first | rfl | exact hs.idle, by first | rfl | exact hs.count, rfl, rfl, _, _,
    rfl, ?_⟩
  all_goals first
    | rfl
    | exact ramp

theorem Starved.not_serve (hs : Starved c) : ¬ CanServe S c w := by
  rintro ⟨es, d, hrun, e, he, t, q, rfl⟩
  have := hrun.invariant (fun es d => Starved d ∧ es = []) ⟨hs, rfl⟩ ?_
  · rw [this.2] at he
    cases he
  · rintro es d l p o _ ⟨hd, rfl⟩ ⟨⟨r, hr, hlib⟩, _⟩ mv
    have hp := mv.here
    rw [hp] at hr
    cases hr
    obtain hno | ⟨v, x, rfl, hx⟩ := hd.threads _ _ hp
    · rw [hno] at hlib
      cases hlib
    · have h := mv.next
      simp only [program, Option.ite_none_right_eq_some] at h
      obtain ⟨hd', hev⟩ := hd.step hp hx h.2
      exact ⟨hd', by rw [hev]; rfl⟩

/-- Every item that a call with the result zero has put on a queue of the kind can be served. -/
def ServesAccepted (overcommit : Bool) : Prop :=
  ∀ (S : Settings) (users managers : Nat) (tr : List Event) (c : PoolState),
    Machine.Free (program S) (initial users managers) tr c → c.shared.halted = none →
    ∀ (q : QId) (wq : Workq) (w : Work), c.shared.queues[q]? = some wq → wq.overcommit = overcommit →
      w ∈ wq.itemListhead → Accepted tr w → CanServe S c w

/-- One failure in the `worker_min` loop and one in a call strand an item in each pool. -/
theorem failed_creations_strand_accepted_items : ¬ ServesAccepted false ∧ ¬ ServesAccepted true := by
  obtain ⟨tr, c, hrun, hP⟩ := Machine.exists_run (M := program ⟨1, 1, 1, 0, false⟩)
    (g := fun _ _ => true) (c := initial 1 0)
    failures
    (fun r => decide (r.1.shared.halted = none ∧ r.1.shared.idle = 0 ∧ r.1.shared.count = 0 ∧
      r.1.threads = [.app .user, .manager ⟨100, 0, 0, 0⟩ .top] ∧
      (r.1.shared.queues[0]?.any fun wq : Workq => decide (wq.overcommit = false ∧
        ⟨0, some 7, 70, 0, 0⟩ ∈ wq.itemListhead)) = true ∧
      (r.1.shared.queues[1]?.any fun wq : Workq => decide (wq.overcommit = true ∧
        ⟨1, some 8, 80, 0, 0⟩ ∈ wq.itemListhead)) = true ∧
      r.2[4]? = some (Event.accept 0 0 ⟨0, some 7, 70, 0, 0⟩) ∧ Event.returned 0 0 ∈ r.2.drop 5 ∧
      r.2[7]? = some (Event.accept 0 1 ⟨1, some 8, 80, 0, 0⟩) ∧ Event.returned 0 0 ∈ r.2.drop 8))
    (by decide +kernel)
  obtain ⟨alive, hi, hc, ht, h₁, h₂, a₁, r₁, a₂, r₂⟩ := of_decide_eq_true hP
  obtain ⟨wq₁, hq₁, h₁⟩ := (Option.any_eq_true _ _).mp h₁
  obtain ⟨wq₂, hq₂, h₂⟩ := (Option.any_eq_true _ _).mp h₂
  obtain ⟨hk₁, hw₁⟩ := of_decide_eq_true h₁
  obtain ⟨hk₂, hw₂⟩ := of_decide_eq_true h₂
  have starved : Starved c := by
    refine ⟨hi, hc, fun t p hp => ?_⟩
    have hmem := List.mem_of_getElem? hp
    rw [ht] at hmem
    simp only [List.mem_cons, List.not_mem_nil, or_false] at hmem
    rcases hmem with rfl | rfl
    · exact .inl rfl
    · exact .inr ⟨_, _, rfl, rfl⟩
  constructor
  · intro claim
    exact starved.not_serve (claim _ _ _ tr c hrun.free alive 0 wq₁ _ hq₁ hk₁ hw₁ (.of_get a₁ r₁))
  · intro claim
    exact starved.not_serve (claim _ _ _ tr c hrun.free alive 1 wq₂ _ hq₂ hk₂ hw₂ (.of_get a₂ r₂))

end PthreadWorkqueue.Posix
