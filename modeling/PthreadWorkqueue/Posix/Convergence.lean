import PthreadWorkqueue.Posix.IdlePool
import PthreadWorkqueue.Posix.TimerTick

/-! The ramp-down of a pool without work. Between two ticks of the timer every stopped worker leaves;
then the manager and its workers do to the pool what `IdlePool.tick` says. -/
namespace PthreadWorkqueue.Posix
open Concurrency

/-- The worker has no item to run, only markers. -/
def WorkerPc.calm : WorkerPc → Bool
  | .scan _ p => match p with
    | .remove _ w | .clear _ w | .unlock _ (some w) => w.isMarker
    | _ => true
  | .spinReadIdle w | .spinPost w | .spinLeave (some w) => w.isMarker
  | .waitUnlock w | .waitReadIdle w | .waitPost w | .waitTest w => w.isMarker
  | .decIdle _ | .invoke _ | .incIdle _ => false
  | _ => true

/-- Neither in a call of the library nor at work on an item of the pool. -/
def Thread.calm : Thread → Bool
  | .call _ _ | .app (.worker _ _) => false
  | .worker _ p => p.calm
  | _ => true

/-- No work is in the pool or on its way to it, and the manager is not suspended. -/
structure Calm (c : PoolState) : Prop where
  lists : ∀ wq ∈ c.shared.queues, wq.overcommit = false → ∀ w ∈ wq.itemListhead, w.isMarker = true
  threads : ∀ p ∈ c.threads, p.calm = true
  resumed : c.shared.sbSuspend = false

/-- No call arrives, the timer ticks, and it ticks only when every marker is consumed. -/
def undisturbed (c : PoolState) (l : Tid × Choice) : Bool :=
  match c.threads[l.1]?, l.2 with
  | some (.app _), .request _ => false
  | some (.manager _ .timedWait), ch => ch == .ret etimedout && outstanding c == 0
  | _, _ => true

variable {S : Settings} {sh : Shared} {t : Tid} {p : Thread} {ch : Choice} {o : Out}
  {c : PoolState} {v v' : ManagerVars} {x x' : ManagerPc} {tr : List Event}

private theorem isMarker_false {w : Work} (hm : w.isMarker = true) (hf : w.func ≠ none) : False := by
  rw [Work.isMarker_eq_false hf] at hm
  cases hm

private theorem worker_calm {u : WorkerVars} {y : WorkerPc} (hc : Calm c)
    (hq : (Thread.worker u y).queueOk c.shared) (ok : y.markerOk) (hy : y.calm = true)
    (h : WorkerStep S c.shared t u y ch o) : o.pc.calm = true := by
  cases h with
  | nothing => rename_i k _; cases k <;> rfl
  | first hw hl hk =>
    obtain ⟨wq, hreg, hkind⟩ := hq
    rw [hreg.here] at hw
    cases hw
    exact hc.lists _ (List.mem_of_getElem? hreg.here) hkind _ (hl ▸ List.mem_cons_self)
  | clear _ hp => subst hp; split <;> exact hy
  | unlock =>
    rename_i k _ _ r _
    cases r with
    | none => cases k <;> rfl
    | some w =>
      cases k with
      | fast => exact (isMarker_false hy (ok rfl)).elim
      | spin => exact hy
      | wait => exact hy
  | spinFound => exact (isMarker_false hy ok).elim
  | waitWork hf => exact (isMarker_false hy hf).elim
  | decIdle | invoke | incIdle => cases hy
  | fault | remove | removeLast | spinLast | spinNotLast | spinPost | waitUnlock | waitLast
  | waitNotLast | waitPost => exact hy
  | _ => rfl

/-- Without calls nobody suspends the manager. -/
private theorem suspend_keep (h : program S sh t p ch = some o) (hc : p.calm = true) :
    o.shared.sbSuspend = sh.sbSuspend := by
  have hs := (program_step h).2
  have fn := h
  simp only [program, (program_step h).1, if_true] at fn
  cases hs with
  | app hs => cases hs <;> rfl
  | call => cases hc
  | worker hs =>
    cases hs with
    | exitFree | free => obtain ⟨_, _, he⟩ := witemFree_eq sh ‹Work›; rw [he]
    | _ => rfl
  | overcommit hs =>
    cases hs with
    | free => obtain ⟨_, _, he⟩ := witemFree_eq sh ‹Work›; rw [he]
    | _ => rfl
  | @manager v x _ _ hs =>
    cases hs with
    | plain _ hx =>
      cases x <;> cases hx <;> cases ch <;> simp only [managerNext, managerSleep, managerSpawn,
        managerRamp, goTo, reduceCtorEq, Option.some.injEq] at fn
      all_goals (repeat' split at fn)
      all_goals cases fn
      all_goals rfl
    | _ => rfl

namespace Calm

/-- The threads stay calm. -/
private theorem threads_step (hc : Calm c) (hr : Registry c) (hp : c.threads[t]? = some p)
    (ok : p.markerOk) (h : program S c.shared t p ch = some o)
    (hg : undisturbed c (t, ch) = true) : o.pc.calm = true ∧ ∀ r ∈ o.spawned, r.calm = true := by
  have hpc := hc.threads p (List.mem_of_getElem? hp)
  have hs := (program_step h).2
  refine ⟨?_, hs.fresh rfl rfl rfl⟩
  have fn := h
  simp only [program, (program_step h).1, if_true] at fn
  cases hs with
  | @app k =>
    cases ch with
    | request r => simp [undisturbed, hp] at hg
    | go =>
      cases k with
      | user => cases fn
      | worker => cases hpc
      | overcommit => cases fn; rfl
    | _ => cases fn
  | call => cases hpc
  | worker hs => exact worker_calm hc (hr.threads t _ hp) ok hpc hs
  | overcommit hs => cases hs <;> rfl
  | manager hs => cases hs <;> rfl

/-- The lists of the pool stay without work. -/
private theorem lists_step (hc : Calm c) (hl : ListStep c.shared t o) (hp : p.calm = true)
    (hs : Step S c.shared t p ch o) (ok : ∀ e ∈ o.events, e.itemOk) :
    ∀ wq ∈ o.shared.queues, wq.overcommit = false → ∀ w ∈ wq.itemListhead, w.isMarker = true := by
  intro wq hwq hk w hw
  cases hl with
  | keep new hnew hq _ =>
    have hview : wq.view ∈ (c.shared.queues ++ new).map Workq.view :=
      hq ▸ List.mem_map_of_mem hwq
    obtain ⟨wq', hmem, hv⟩ := List.mem_map.mp hview
    obtain ⟨hkind, hitems⟩ := Prod.mk.inj hv
    rw [← hitems] at hw
    rcases List.mem_append.mp hmem with hmem | hmem
    · exact hc.lists wq' hmem (hkind.trans hk) w hw
    · rw [hnew wq' hmem] at hw
      cases hw
  | @insert q wq' w' hq ho he =>
    rw [ho] at hwq
    rcases List.mem_or_eq_of_mem_set hwq with hwq | rfl
    · exact hc.lists wq hwq hk w hw
    · rcases List.mem_append.mp hw with hw | hw
      · exact hc.lists wq' (List.mem_of_getElem? hq) hk w hw
      · rw [List.mem_singleton.mp hw]
        rcases he with he | he
        · -- only a call accepts an item
          exfalso
          cases hs with
          | call => cases hp
          | app hs => cases hs <;> cases he
          | worker hs => cases hs <;> cases he
          | overcommit hs => cases hs <;> cases he
          | manager hs => cases hs <;> cases he
        · have := ok (.post t q w') (by rw [he]; exact List.mem_singleton_self _)
          simpa [Work.isMarker, Event.itemOk] using this
  | @remove q wq' w' rest hq hl ho _ =>
    rw [ho] at hwq
    rcases List.mem_or_eq_of_mem_set hwq with hwq | rfl
    · exact hc.lists wq hwq hk w hw
    · exact hc.lists wq' (List.mem_of_getElem? hq) hk w (hl ▸ List.mem_cons_of_mem _ hw)

theorem apply {l : Tid × Choice} {G : PoolState → Nat × Choice → Prop} {users managers : Nat}
    (hc : Calm c) (hrun : Machine.Run (program S) G (initial users managers) tr c)
    (hg : undisturbed c l = true) (mv : (program S).Moves c l o p) : Calm (o.apply c l.1) := by
  have hs := (program_step mv.next).2
  have hp := hc.threads p (List.mem_of_getElem? mv.here)
  obtain ⟨hpc, hfresh⟩ := hc.threads_step (registry hrun) mv.here (markerOk hrun _ _ mv.here) mv.next hg
  refine ⟨hc.lists_step (run_list_step hrun mv) hp hs
    (itemOk_step hs ((itemOk hrun).1 _ _ mv.here)).2.1, fun r hr => ?_,
    (suspend_keep mv.next hp).trans hc.resumed⟩
  rcases List.mem_append.mp hr with hr | hr
  · rcases List.mem_or_eq_of_mem_set hr with hr | rfl
    · exact hc.threads r hr
    · exact hpc
  · exact hfresh r hr

/-- A worker that is not idle is on its way out. -/
theorem count_le (hc : Calm c) (hs : Scoreboard tr c) (ok : ∀ (t : Tid) (p : Thread),
    c.threads[t]? = some p → p.markerOk) (rest : ∀ p ∈ c.threads, p.inWorkerStart = false) :
    c.shared.count ≤ c.shared.idle + outstanding c := by
  have hexit : c.number Thread.midExit ≤ c.total Thread.markers := by
    rw [Config.number_eq_total]
    refine List.sum_le_sum fun p hp => ?_
    obtain ⟨t, ht⟩ := List.getElem?_of_mem hp
    cases hm : p.midExit with
    | false => exact Nat.zero_le _
    | true =>
      cases p with
      | worker v x =>
        cases x with
        | exitDecCount w =>
          have hf : w.func = none := ok t _ ht
          simp [Thread.markers, Thread.leaving, Thread.fresh, Thread.held, WorkerPc.item, weight,
            Work.isMarker, hf]
        | _ => cases hm
      | _ => cases hm
  have hcover := Config.number_le_add (c := c) (P := Thread.counted) (Q := Thread.countedIdle)
    (R := Thread.midExit) fun p hp hcount => by
      have hcalm := hc.threads p hp
      have hrest := rest p hp
      cases p with
      | app k => cases k <;> first | cases hcount; done | cases hcalm
      | call => cases hcalm
      | overcommit => cases hcount
      | worker v x => cases x <;> first | exact .inl rfl | exact .inr rfl | cases hcount; done | cases hcalm
      | manager v x =>
        cases x with
        | start r y => cases y <;> first | cases hrest; done | cases hcount
        | _ => cases hcount
  calc c.shared.count
    _ = c.number Thread.counted := hs.count
    _ ≤ c.number Thread.countedIdle + c.number Thread.midExit := hcover
    _ ≤ c.shared.idle + outstanding c := by
      rw [← hs.idle]
      exact Nat.add_le_add_left (Nat.le_trans hexit (Nat.le_add_left _ _)) _

end Calm

/-- The manager is in `worker_start`. -/
def Thread.startsWorker : Thread → Bool
  | .manager _ (.start _ _) => true
  | _ => false

/-- Outside `worker_start` only a worker's exit changes `count`. -/
private theorem count_eq_step (h : Step S sh t p ch o) (hx : p.startsWorker = false)
    (hne : p.midExit = false) : o.shared.count = sh.count := by
  cases h with
  | app h => cases h <;> rfl
  | call h =>
    cases h with
    | quiet hq | quietReturn hq => obtain ⟨_, _, _, _, rfl⟩ := hq; rfl
    | _ => rfl
  | worker h =>
    cases h with
    | exitDecCount => cases hne
    | exitFree | free => obtain ⟨_, _, he⟩ := witemFree_eq sh ‹Work›; rw [he]
    | _ => rfl
  | overcommit h =>
    cases h with
    | free => obtain ⟨_, _, he⟩ := witemFree_eq sh ‹Work›; rw [he]
    | _ => rfl
  | manager h =>
    cases h with
    | plain hq => obtain ⟨_, _, _, _, rfl⟩ := hq; rfl
    | incCount | decCount => cases hx
    | _ => rfl

/-- Only the exit of a worker comes to its last point. -/
private theorem exitFree_step (h : Step S sh t p ch o) (hne : p.midExit = false)
    (hnf : ∀ u w, p ≠ .worker u (.exitFree w)) : ∀ u w, o.pc ≠ .worker u (.exitFree w) := by
  intro u w he
  cases h with
  | app h => cases h <;> cases he
  | call h => cases h <;> cases he
  | worker h =>
    cases h with
    | nothing => rename_i k _; cases k <;> cases he
    | unlock => rename_i k _ _ r _; cases k <;> cases r <;> cases he
    | exitDecCount => cases hne
    | fault => exact hnf u w he
    | _ => cases he
  | overcommit h => cases h <;> cases he
  | manager h => cases h <;> cases he

/-- Only a worker that has left frees a marker. -/
private theorem frees_eq_zero (h : Step S sh t p ch o) (ok : p.markerOk) (real : p.overcommitOk)
    (hnf : ∀ u w, p ≠ .worker u (.exitFree w)) : o.events.countP (Event.frees Work.isMarker) = 0 := by
  cases h with
  | app h => cases h <;> rfl
  | call h => cases h <;> rfl
  | worker h =>
    cases h with
    | exitFree => exact absurd rfl (hnf _ _)
    | @free w =>
      have hf : w.isMarker = false := Work.isMarker_eq_false ok
      simp [Event.frees, hf]
    | _ => rfl
  | overcommit h =>
    cases h with
    | @free w =>
      have hf : w.isMarker = false := Work.isMarker_eq_false (real w rfl)
      simp [Event.frees, hf]
    | _ => rfl
  | manager h => cases h <;> rfl

/-- Outside `worker_start` the workers without a marker become fewer by the markers that are made. -/
theorem balance_step (hm : Masks c) (hr : Registry c) (hs : Scoreboard tr c)
    (hp : c.threads[t]? = some p) (ok : p.markerOk) (real : p.overcommitOk)
    (h : Step S c.shared t p ch o) (hx : p.startsWorker = false) :
    o.shared.count + outstanding c + made o =
      c.shared.count + outstanding (o.apply c t) := by
  have st := life_step Work.isMarker h
  have flow := (list_step hm hr hp h).queued fun _ w => w.isMarker.toNat
  rw [sum_inflow, sum_outflow] at flow
  change o.shared.queuedMarkers + _ = c.shared.queuedMarkers + _ at flow
  have hfresh := st.fresh
  have hheld := st.held
  have halloc : made o = o.events.countP (Event.allocates Work.isMarker) := rfl
  have htotal := Outcome.total_apply (o := o) Thread.markers hp
  have hzero : (o.spawned.map Thread.markers).sum = 0 := sum_map_eq_zero fun r hr => by
    have := r.markers_le
    rw [(st.spawned r hr).1, (st.spawned r hr).2.1] at this
    exact Nat.le_zero.mp this
  have happly : outstanding (o.apply c t) =
    o.shared.queuedMarkers + (o.apply c t).total Thread.markers := rfl
  have hself : outstanding c = c.shared.queuedMarkers + c.total Thread.markers := rfl
  suffices o.shared.count + c.shared.queuedMarkers + p.markers + made o =
      c.shared.count + o.shared.queuedMarkers + o.pc.markers by omega
  by_cases hexit : ∃ u w, p = .worker u (.exitDecCount w)
  · obtain ⟨u, w, rfl⟩ := hexit
    have hone : (Thread.worker u (.exitDecCount w)).markers = 1 := by
      have hf : w.func = none := ok
      simp [Thread.markers, Thread.leaving, Thread.fresh, Thread.held, WorkerPc.item, weight,
        Work.isMarker, hf]
    have hdec := atomicDec_add_one (hs.le hp).1
    cases h with
    | worker h =>
      cases h with
      | fault => rfl
      | exitDecCount =>
        change atomicDec c.shared.count + _ + _ + 0 = c.shared.count + c.shared.queuedMarkers + 0
        omega
  by_cases hfree : ∃ u w, p = .worker u (.exitFree w)
  · obtain ⟨u, w, rfl⟩ := hfree
    cases h with
    | worker h =>
      cases h with
      | fault => rfl
      | exitFree =>
        obtain ⟨_, _, he⟩ := witemFree_eq c.shared w
        rw [he]
        rfl
  have hmid : p.midExit = false := by
    cases p with
    | worker u y => cases y <;> first | rfl | exact absurd ⟨_, _, rfl⟩ hexit
    | _ => rfl
  have hnf : ∀ u w, p ≠ .worker u (.exitFree w) := fun u w he => hfree ⟨u, w, he⟩
  have hcount := count_eq_step h hx hmid
  have hfrees := frees_eq_zero h ok real hnf
  have hbefore := p.markers_eq hnf
  have hafter := o.pc.markers_eq (exitFree_step h hmid hnf)
  omega

/-! The manager against the pool that ticks -/

/-- The manager's timed wait ends. -/
def Thread.ticks : Thread → Bool
  | .manager _ .timedWait => true
  | _ => false

/-- The ticks of the timer among some steps. -/
def ticks (as : List PoolAct) : Nat := as.countP fun a => a.pc.ticks

/-- What the manager makes of the pool at each point: the tick that goes on leads from `prev` to
`cur`, `d` workers are without a marker and `k` markers are outstanding. -/
def ManagerPc.follows (T : Nat) (prev cur : IdlePool) (v : ManagerVars) (d k : Nat) :
    ManagerPc → Prop
  | .top | .timedWait => d = cur.idle ∧ v.workerIdleSecondsAccumulated = cur.seconds ∧
      (cur.idle = prev.idle → k = 0)
  | .readIdle | .rampRead => k = 0 ∧ d = prev.idle ∧ v.workerIdleSecondsAccumulated = prev.seconds ∧
      cur = prev.tick T ∧ v.semTimedwaitRv = etimedout
  | .readCount => k = 0 ∧ d = 0 ∧ d = prev.idle ∧ v.workerIdleSecondsAccumulated = prev.seconds ∧
      cur = prev.tick T ∧ v.semTimedwaitRv = etimedout
  | .rampAdd => k = 0 ∧ d = prev.idle ∧ v.workerIdleSecondsAccumulated = prev.seconds ∧
      cur = prev.tick T ∧ T < prev.idle
  | .rampSurplus m => k = 0 ∧ d = prev.idle ∧ v.workerIdleSecondsAccumulated = cur.seconds ∧
      T < prev.idle ∧ 0 < m ∧ cur.idle = prev.idle - min m (prev.idle - T)
  | .stopRead i m => d = cur.idle + (m - i) ∧ i < m ∧
      v.workerIdleSecondsAccumulated = cur.seconds ∧ cur.idle + m = prev.idle
  | .stop i m y => d + (y != .alloc).toNat = cur.idle + (m - i) ∧ i < m ∧
      v.workerIdleSecondsAccumulated = cur.seconds ∧ cur.idle + m = prev.idle
  | _ => False

section Follows
variable {T d k : Nat} {prev cur : IdlePool}

theorem ManagerPc.follows_mono {k' : Nat} (hk : k' ≤ k) (h : x.follows T prev cur v d k) :
    x.follows T prev cur v d k' := by
  cases x with
  | top | timedWait => exact ⟨h.1, h.2.1, fun he => Nat.le_zero.mp (h.2.2 he ▸ hk)⟩
  | readIdle | rampRead | readCount | rampAdd | rampSurplus =>
    exact ⟨Nat.le_zero.mp (h.1 ▸ hk), h.2⟩
  | stopRead | stop => exact h
  | _ => exact h.elim

theorem stopLoop_follows {i m : Nat} (hd : d = cur.idle + (m - i)) (hi : i ≤ m)
    (hv : v.workerIdleSecondsAccumulated = cur.seconds) (hm : cur.idle + m = prev.idle)
    (hpos : 0 < m) : (stopLoop i m).follows T prev cur v d k := by
  unfold stopLoop
  split
  · exact ⟨hd, ‹_›, hv, hm⟩
  · exact ⟨by omega, hv, fun he => by omega⟩

/-- The next tick begins. -/
theorem follows_tick (h : ManagerPc.timedWait.follows T prev cur v d k) (hk : k = 0) :
    ManagerPc.readIdle.follows T cur (cur.tick T) { v with semTimedwaitRv := etimedout } d k :=
  ⟨hk, h.1, h.2.1, rfl, rfl⟩

private theorem plain_follows (hx : x.plain = true) (hne : x ≠ .timedWait)
    (h : managerNext S sh t v x ch = some o)
    (hf : x.follows S.workerIdleThreshold prev cur v d k) (hsus : sh.sbSuspend = false)
    (hlow : d ≤ sh.idle) (hhigh : sh.idle ≤ sh.count) (hcount : sh.count = d + k)
    (hfresh : prev.Fresh) (hmax : prev.idle + 14 < 2 ^ 32)
    (hT : S.workerIdleThreshold ≤ cur.idle) :
    ∃ v' x', o.pc = .manager v' x' ∧ x'.follows S.workerIdleThreshold prev cur v' d k := by
  have hsec : prev.seconds < 15 := hfresh
  cases x <;> cases hx <;> cases ch <;> simp only [managerNext, managerSleep, managerSpawn,
    managerRamp, goTo, reduceCtorEq, Option.some.injEq] at h
  case top.refl.go =>
    cases h
    rw [hsus]
    exact ⟨_, _, rfl, hf⟩
  case timedWait.refl.ret => exact absurd rfl hne
  case readIdle.refl.go =>
    obtain ⟨hk, hd, hv, hcur, hrv⟩ := hf
    split at h <;> cases h
    · exact ⟨_, _, rfl, hk, by omega, hd, hv, hcur, hrv⟩
    · rw [rampStart, if_pos hrv]
      exact ⟨_, _, rfl, hk, hd, hv, hcur, hrv⟩
  case readCount.refl.go =>
    obtain ⟨hk, hz, hd, hv, hcur, hrv⟩ := hf
    rw [if_neg (by omega), rampStart, if_pos hrv] at h
    cases h
    exact ⟨_, _, rfl, hk, hd, hv, hcur, hrv⟩
  case rampRead.refl.go =>
    obtain ⟨hk, hd, hv, hcur, hrv⟩ := hf
    split at h <;> cases h
    · exact ⟨_, _, rfl, hk, hd, hv, hcur, by omega⟩
    · have hcur : cur = ⟨prev.idle, 0⟩ := by rw [hcur, IdlePool.tick, if_neg (by omega)]
      subst hcur
      exact ⟨_, _, rfl, hd, rfl, fun _ => hk⟩
  case rampAdd.refl.go =>
    obtain ⟨hk, hd, hv, hcur, hlt⟩ := hf
    have hidle : sh.idle = prev.idle := by omega
    rw [hv, hidle, Nat.mod_eq_of_lt (by omega)] at h
    split at h <;> cases h
    · rename_i hpos
      have hcur : cur = ⟨prev.idle - min ((prev.seconds + prev.idle) / workerIdleSecondsThreshold)
          (prev.idle - S.workerIdleThreshold), 0⟩ := by
        simp only [hcur, IdlePool.tick, if_pos hlt, if_pos hpos]
      subst hcur
      exact ⟨_, _, rfl, hk, hd, rfl, hlt, hpos, rfl⟩
    · rename_i hpos
      have hcur : cur = ⟨prev.idle, prev.seconds + prev.idle⟩ := by
        simp only [hcur, IdlePool.tick, if_pos hlt, if_neg hpos]
      subst hcur
      exact ⟨_, _, rfl, hd, rfl, fun _ => hk⟩
  case rampSurplus.refl.go m =>
    obtain ⟨hk, hd, hv, hlt, hpos, hcur⟩ := hf
    have hidle : sh.idle = prev.idle := by omega
    have hsurplus : (sh.idle + (2 ^ 32 - S.workerIdleThreshold)) % 2 ^ 32 =
        prev.idle - S.workerIdleThreshold := by omega
    rw [hsurplus] at h
    cases h
    refine ⟨_, _, rfl, stopLoop_follows ?_ (Nat.zero_le _) hv ?_ ?_⟩
    · split <;> omega
    · split <;> omega
    · split <;> omega
  case stopRead.refl.go i m =>
    obtain ⟨hd, hi, hv, hm⟩ := hf
    rw [if_pos (by omega)] at h
    cases h
    exact ⟨_, _, rfl, hd, hi, hv, hm⟩
  all_goals exact hf.elim

private theorem stop_follows {i m k' : Nat} {y : StopPc}
    (h : managerNext S sh t v (.stop i m y) ch = some o)
    (hf : (ManagerPc.stop i m y).follows T prev cur v d k) :
    ∃ v' x' d', o.pc = .manager v' x' ∧ d' + made o = d ∧
      made o = (Thread.manager v (.stop i m y)).stops.toNat ∧ x'.follows T prev cur v' d' k' := by
  obtain ⟨hd, hi, hv, hm⟩ := hf
  by_cases hy : y = .alloc
  · subst hy
    have hd : d = cur.idle + (m - i) := hd
    cases ch <;> simp only [managerNext, workerStop, emit, reduceCtorEq, Option.some.injEq] at h
    cases h
    refine ⟨_, _, d - 1, rfl, ?_, rfl, ?_, hi, hv, hm⟩
    · change d - 1 + 1 = d
      omega
    · change d - 1 + 1 = cur.idle + (m - i)
      omega
  · have hne : (y != .alloc) = true := bne_iff_ne.mpr hy
    rw [hne] at hd
    have hst : (Thread.manager v (.stop i m y)).stops = false := by
      cases y <;> first | rfl | exact absurd rfl hy
    have past : ∀ y', y' ≠ .alloc → (ManagerPc.stop i m y').follows T prev cur v d k' :=
      fun y' hy' => ⟨by rw [bne_iff_ne.mpr hy']; exact hd, hi, hv, hm⟩
    rw [hst]
    have hn := manager_step h
    cases hn with
    | fault => exact ⟨_, _, d, rfl, rfl, rfl, past y hy⟩
    | plain _ hp => cases hp
    | alloc => exact absurd rfl hy
    | unlockMtx =>
      refine ⟨_, _, d, rfl, rfl, rfl, stopLoop_follows ?_ hi hv hm (by omega)⟩
      change d + 1 = _ at hd
      omega
    | atomicOr _ hp =>
      subst hp
      refine ⟨_, _, d, rfl, rfl, rfl, past _ ?_⟩
      split <;> simp
    | _ => exact ⟨_, _, d, rfl, rfl, rfl, past _ (by simp)⟩

end Follows

/-- The pool and the manager `m` after some steps from a pool `s`. -/
structure Follows (S : Settings) (s : IdlePool) (m : Tid) (as : List PoolAct) (c : PoolState) :
    Prop where
  calm : Calm c
  manager : ∃ d v x, c.shared.count = d + outstanding c ∧ d + stopsMade as = s.idle ∧
    c.threads[m]? = some (.manager v x) ∧
    x.follows S.workerIdleThreshold (s.after S.workerIdleThreshold (ticks as - 1))
      (s.after S.workerIdleThreshold (ticks as)) v d (outstanding c)

theorem ticks_concat (as : List PoolAct) (a : PoolAct) :
    ticks (as ++ [a]) = ticks as + a.pc.ticks.toNat := by
  rw [ticks, List.countP_append, countP_singleton_toNat]
  rfl

namespace Follows
variable {s : IdlePool} {m : Tid} {as : List PoolAct} {G : PoolState → Nat × Choice → Prop}
  {users : Nat}

/-- While the manager follows the ticks, nobody is in `worker_start`. -/
private theorem unstarted (hf : Follows S s m as c)
    (hrun : Machine.Run (program S) G (initial users 0) tr c) (hp : p ∈ c.threads) :
    p.startsWorker = false := by
  obtain ⟨d, v, x, -, -, hm, hx⟩ := hf.manager
  obtain ⟨u, hu⟩ := List.getElem?_of_mem hp
  cases p with
  | manager w y =>
    obtain rfl := (oneManager hrun).unique m u _ _ hm hu rfl rfl
    rw [hm] at hu
    cases hu
    cases x <;> first | rfl | exact hx.elim
  | _ => rfl

/-- What the manager can read in a calm pool. -/
private theorem bounds {d : Nat} (hf : Follows S s m as c)
    (hrun : Machine.Run (program S) G (initial users 0) tr c)
    (hcount : c.shared.count = d + outstanding c) :
    d ≤ c.shared.idle ∧ (∀ v x, c.threads[m]? = some (.manager v x) → x.plain = true →
      c.shared.idle ≤ c.shared.count) := by
  have hs := scoreboard hrun
  refine ⟨?_, fun v x hm hx =>
    Nat.le_trans (idle_le_live hs (oneManager hrun) hm hx) (live_le_count hs)⟩
  have := hf.calm.count_le hs (fun _ _ hp => markerOk hrun _ _ hp) fun p hp => ?_
  · omega
  · have := hf.unstarted hrun hp
    cases p with
    | manager w y => cases y <;> first | rfl | cases this
    | _ => rfl

/-- A step of another thread. -/
private theorem other {l : Tid × Choice} (hf : Follows S s m as c)
    (hrun : Machine.Run (program S) G (initial users 0) tr c) (hg : undisturbed c l = true)
    (mv : (program S).Moves c l o p) (hp : p.isManager = false) :
    Follows S s m (as ++ [⟨l.1, c.shared, p, l.2⟩]) (o.apply c l.1) := by
  have hst := (program_step mv.next).2
  obtain ⟨d, v, x, hcount, hn, hm, hx⟩ := hf.manager
  have hne : m ≠ l.1 := by
    intro he
    rw [he, mv.here] at hm
    cases hm
    cases hp
  have quiet : p.startsWorker = false ∧ p.stops = false ∧ p.ticks = false := by
    cases p <;> first | exact ⟨rfl, rfl, rfl⟩ | cases hp
  have hbal := balance_step (masks hrun) (registry hrun) (scoreboard hrun) mv.here
    (markerOk hrun _ _ mv.here) (overcommitOk hrun _ _ mv.here) hst quiet.1
  have hdrain := (drain_step (masks hrun) (registry hrun) (scoreboard hrun) mv.here
    (markerOk hrun _ _ mv.here) hst).outstanding_apply mv.here
  rw [made_eq_zero hst hp] at hbal hdrain
  refine ⟨hf.calm.apply hrun hg mv, d, v, x, ?_, ?_, Outcome.get_other hne hm, ?_⟩
  · change o.shared.count = _
    omega
  · rw [stopsMade_concat, quiet.2.1]
    exact hn
  · rw [ticks_concat, quiet.2.2]
    exact ManagerPc.follows_mono hdrain.1 hx

/-- A step of the manager. -/
private theorem self {l : Tid × Choice} (hf : Follows S s m as c)
    (hrun : Machine.Run (program S) G (initial users 0) tr c) (hg : undisturbed c l = true)
    (mv : (program S).Moves c l o p) (hp : p.isManager = true) (hs : s.Fresh)
    (hT : S.workerIdleThreshold ≤ s.idle) (hmax : s.idle + 14 < 2 ^ 32) :
    Follows S s m (as ++ [⟨l.1, c.shared, p, l.2⟩]) (o.apply c l.1) := by
  have hst := (program_step mv.next).2
  have fn := mv.next
  simp only [program, (program_step mv.next).1, if_true] at fn
  obtain ⟨d, v, x, hcount, hn, hm, hx⟩ := hf.manager
  obtain rfl : m = l.1 := (oneManager hrun).unique m l.1 _ _ hm mv.here rfl hp
  obtain rfl : Thread.manager v x = p := Option.some.inj (hm.symm.trans mv.here)
  have hbal := balance_step (masks hrun) (registry hrun) (scoreboard hrun) mv.here
    (markerOk hrun _ _ mv.here) (overcommitOk hrun _ _ mv.here) hst
    (by cases x <;> first | rfl | exact hx.elim)
  change o.shared.count + _ + _ = _ at hbal
  refine ⟨hf.calm.apply hrun hg mv, ?_⟩
  rw [ticks_concat, stopsMade_concat]
  -- what is left is the manager's next point and its pool
  suffices ∃ v' x' d', o.pc = .manager v' x' ∧ d' + made o = d ∧
      made o = (Thread.manager v x).stops.toNat ∧ x'.follows S.workerIdleThreshold
        (s.after S.workerIdleThreshold (ticks as + (Thread.manager v x).ticks.toNat - 1))
        (s.after S.workerIdleThreshold (ticks as + (Thread.manager v x).ticks.toNat)) v' d'
        (outstanding (o.apply c l.1)) by
    obtain ⟨v', x', d', hpc, hd, hmade, hx'⟩ := this
    refine ⟨d', v', x', ?_, ?_, ?_, hx'⟩
    · change o.shared.count = _
      omega
    · rw [← hmade]
      omega
    · rw [Outcome.get_self hm, hpc]
  have hdrain := ((drain_step (masks hrun) (registry hrun) (scoreboard hrun) mv.here
    (markerOk hrun _ _ mv.here) hst).outstanding_apply mv.here).1
  by_cases htw : x = .timedWait
  · subst htw
    simp only [undisturbed, hm, Bool.and_eq_true, beq_iff_eq] at hg
    rw [hg.1] at fn
    cases fn
    refine ⟨_, _, d, rfl, rfl, rfl, ?_⟩
    change ManagerPc.follows _ (s.after _ (ticks as)) (s.after _ (ticks as + 1)) _ _ _ _
    rw [IdlePool.after_succ]
    exact follows_tick (ManagerPc.follows_mono hdrain hx)
      (Nat.le_zero.mp (Nat.le_trans hdrain (Nat.le_of_eq hg.2)))
  generalize l.2 = e at fn
  have hticks : (Thread.manager v x).ticks = false := by
    cases x <;> first | rfl | exact absurd rfl htw
  rw [hticks]
  by_cases hplain : x.plain = true
  · have hmade : made o = 0 := by
      have hn := manager_step fn
      cases hn with
      | plain hq => obtain ⟨_, _, _, _, rfl⟩ := hq; rfl
      | fault => rfl
      | _ => exact absurd hplain Bool.false_ne_true
    have hbounds := hf.bounds hrun hcount
    obtain ⟨v', x', hpc, hx'⟩ := plain_follows hplain htw fn hx hf.calm.resumed hbounds.1
      (hbounds.2 v x hm hplain) hcount (IdlePool.fresh_after hs _)
      (Nat.lt_of_le_of_lt (Nat.add_le_add_right (IdlePool.after_le _) 14) hmax)
      (IdlePool.le_after hT _)
    refine ⟨v', x', d, hpc, by omega, ?_, ManagerPc.follows_mono (by omega) hx'⟩
    rw [hmade]
    cases x <;> first | rfl | exact absurd hplain Bool.false_ne_true
  · cases x with
    | stop i n y => exact stop_follows fn hx
    | _ => first | exact absurd rfl hplain | exact hx.elim

theorem run {c₀ : PoolState} {tr₀ : List Event} (h₀ : Follows S s m [] c₀)
    (hrun₀ : Machine.Free (program S) (initial users 0) tr₀ c₀) (hs : s.Fresh)
    (hT : S.workerIdleThreshold ≤ s.idle) (hmax : s.idle + 14 < 2 ^ 32)
    (hrun : Machine.Run (program S).acts (fun c l => undisturbed c l = true) c₀ as c) :
    Follows S s m as c ∧ ∃ tr, Machine.Free (program S) (initial users 0) tr c := by
  obtain ⟨hf, tr, hr⟩ := hrun.acts_invariant (Follows S s m) h₀ fun tr as c l p o hr hf hg mv => by
    have hr := hrun₀.append hr.free
    cases hp : p.isManager with
    | true => exact hf.self hr hg mv hp hs hT hmax
    | false => exact hf.other hr hg mv hp
  exact ⟨hf, _, hrun₀.append hr.free⟩

end Follows

/-- The pool between two ticks: without work, the manager in its timed wait, every marker consumed,
and as many workers idle and seconds accumulated as in `s`. -/
structure AtRest (m : Tid) (s : IdlePool) (c : PoolState) : Prop where
  calm : Calm c
  manager : ∃ v, c.threads[m]? = some (.manager v .timedWait) ∧
    v.workerIdleSecondsAccumulated = s.seconds
  consumed : outstanding c = 0
  idle : c.shared.idle = s.idle
  count : c.shared.count = s.idle

section AtRest
variable {s r : IdlePool} {m : Tid} {as : List PoolAct} {users : Nat}

theorem AtRest.follows (h : AtRest m s c) : Follows S s m [] c := by
  obtain ⟨v, hm, hv⟩ := h.manager
  refine ⟨h.calm, s.idle, v, .timedWait, ?_, rfl, hm, rfl, hv, fun _ => h.consumed⟩
  rw [h.count, h.consumed]
  rfl

end AtRest

end PthreadWorkqueue.Posix
