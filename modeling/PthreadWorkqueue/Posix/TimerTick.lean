import PthreadWorkqueue.Posix.Surplus

/-! The timer tick of `manager_main`, seen from the manager alone: between two of its steps the
memory may change at will. -/
namespace PthreadWorkqueue.Posix
open Concurrency

namespace Thread

/-- About to begin a `worker_stop`. -/
def stops : Thread → Bool
  | .manager _ (.stop _ _ .alloc) => true
  | _ => false

/-- About to compute `idle_surplus_threads`. -/
def computesSurplus : Thread → Bool
  | .manager _ (.rampSurplus _) => true
  | _ => false

/-- About to read `idle` once more before a `worker_stop`. -/
def rereads : Thread → Bool
  | .manager _ (.stopRead _ _) => true
  | _ => false

/-- At the top of the main loop. -/
def atTop : Thread → Bool
  | .manager _ .top => true
  | _ => false

/-- `worker_idle_seconds_accumulated`. -/
def accumulated : Thread → Nat
  | .manager v _ => v.workerIdleSecondsAccumulated
  | _ => 0

end Thread

/-- The step changes `worker_idle_seconds_accumulated` or begins a `worker_stop`. -/
def rampsDown (S : Settings) (a : PoolAct) : Bool :=
  a.pc.stops || (program S a.shared a.thread a.pc a.choice).any fun o =>
    o.pc.accumulated != a.pc.accumulated

/-- Whether the iteration that goes on after the step was woken by a `sem_timedwait` that returned
with ETIMEDOUT. -/
def ticked (w : Bool) (a : PoolAct) : Bool :=
  match a.pc, a.choice with
  | .manager _ .timedWait, .ret code => code == etimedout
  | .manager _ .semWait, .ret _ => false
  | _, _ => w

/-- The manager ramps down only in iterations of the timer tick. -/
def OnTick (S : Settings) (as : List PoolAct) : Prop :=
  ∀ pre a post, as = pre ++ a :: post → rampsDown S a = true → pre.foldl ticked false = true

/-- No iteration goes to sleep in the untimed `sem_wait` with the ETIMEDOUT of an earlier one. -/
def sleepsFresh (a : PoolAct) : Bool :=
  match a.pc with
  | .manager v .top => !a.shared.sbSuspend || v.semTimedwaitRv != etimedout
  | _ => true

variable {S : Settings} {sh : Shared} {t : Tid} {p q : Thread} {ch : Choice} {o : Out}
  {c : PoolState} {v v' : ManagerVars} {x x' : ManagerPc} {as : List PoolAct} {w : Bool}

/-- A thread that is the manager has run from `manager_main`. -/
theorem manager_solo {G : PoolState → Nat × Choice → Prop} {users managers : Nat}
    (h : Machine.Run (program S).acts G (initial users managers) as c)
    (hq : c.threads[t]? = some q) (hm : q.isManager = true) :
    Machine.Solo (program S) t .managerMain (as.filter fun a => a.thread == t) q := by
  obtain ⟨p, hp, hs⟩ := h.solo (Q := fun p => p.isManager = true → p = .managerMain)
    (fun p hp => by
      obtain ⟨u, hu⟩ := List.getElem?_of_mem hp
      obtain rfl | rfl := initial_threads hu
      · intro h
        cases h
      · exact fun _ => rfl)
    (fun _ _ _ _ _ hn => (program_step hn).2.fresh (by simp [Thread.workerMain, Thread.isManager])
      (by simp [Thread.overcommitWorkerMain, Thread.isManager]) fun _ => rfl) hq
  have hkind : q.isManager = p.isManager :=
    hs.invariant (fun _ q => q.isManager = p.isManager) rfl
      fun _ _ _ _ _ ih hn => (program_step hn).2.isManager_pc.trans ih
  rw [hp (hkind ▸ hm)] at hs
  exact hs

/-- What the manager can rely on about the current iteration: `w` tells whether it was woken by the
timer, and `rv` is `sem_timedwait_rv`. -/
def ManagerPc.fresh (w : Bool) (rv : Nat) : ManagerPc → Prop
  | .rampRead | .rampAdd | .rampSurplus _ | .stopRead _ _ | .stop _ _ _ => w = true
  | .readIdle | .readCount | .readPending => rv = etimedout → w = true
  | .semWait => rv ≠ etimedout
  | _ => True

@[simp] theorem minLoop_fresh {rv : Nat} (i : Nat) : (minLoop S i).fresh w rv := by
  unfold minLoop
  split <;> trivial

@[simp] theorem startReturn_fresh {rv : Nat} (r : Option Nat) : (startReturn S r).fresh w rv := by
  cases r
  · trivial
  · exact minLoop_fresh _

theorem stopLoop_fresh {rv i m : Nat} (h : w = true) : (stopLoop i m).fresh w rv := by
  unfold stopLoop
  split
  · exact h
  · trivial

theorem rampStart_fresh (h : v.semTimedwaitRv = etimedout → w = true) :
    (rampStart v).fresh w v.semTimedwaitRv := by
  unfold rampStart
  split
  · exact h ‹_›
  · trivial

/-- The manager's step outside `worker_start` and `worker_stop`. -/
private theorem plain_fresh (hx : x.plain = true) (h : managerNext S sh t v x ch = some o)
    (hk : x.fresh w v.semTimedwaitRv) (hf : sleepsFresh ⟨t, sh, .manager v x, ch⟩ = true) :
    (o.pc.accumulated ≠ v.workerIdleSecondsAccumulated → w = true) ∧
      ∃ v' x', o.pc = .manager v' x' ∧
        x'.fresh (ticked w ⟨t, sh, .manager v x, ch⟩) v'.semTimedwaitRv := by
  cases x <;> cases hx <;> cases ch <;> simp only [managerNext, managerSleep, managerSpawn,
    managerRamp, goTo, reduceCtorEq, Option.some.injEq] at h
  case top.refl.go =>
    cases h
    refine ⟨fun hne => absurd rfl hne, v, _, rfl, ?_⟩
    simp only [sleepsFresh, Bool.or_eq_true, Bool.not_eq_true', bne_iff_ne, ne_eq] at hf
    split
    · exact hf.resolve_left (by simp [*])
    · trivial
  case timedWait.refl.ret code =>
    -- a successful wait clears the result, and any other leaves its error there
    split at h
    · split at h <;> cases h
      subst code
      exact ⟨fun hne => absurd rfl hne, _, _, rfl, fun he => by cases he⟩
    · cases h
      exact ⟨fun hne => absurd rfl hne, _, _, rfl, fun he => beq_iff_eq.mpr he⟩
  case semWait.refl.ret code =>
    split at h
    · split at h <;> cases h
      exact ⟨fun hne => absurd rfl hne, _, _, rfl, fun he => absurd he hk⟩
    · cases h
      exact ⟨fun hne => absurd rfl hne, _, _, rfl, fun he => absurd he hk⟩
  case readIdle.refl.go | readCount.refl.go | readPending.refl.go =>
    split at h <;> cases h
    · exact ⟨fun hne => absurd rfl hne, _, _, rfl, by first | exact hk | trivial⟩
    · exact ⟨fun hne => absurd rfl hne, _, _, rfl, rampStart_fresh hk⟩
  case rampSurplus.refl.go => cases h; exact ⟨fun _ => hk, _, _, rfl, stopLoop_fresh hk⟩
  case stopRead.refl.go =>
    split at h <;> cases h
    · exact ⟨fun _ => hk, _, _, rfl, hk⟩
    · exact ⟨fun _ => hk, _, _, rfl, stopLoop_fresh hk⟩
  case rampRead.refl.go | rampAdd.refl.go =>
    split at h <;> cases h
    · exact ⟨fun _ => hk, _, _, rfl, hk⟩
    · exact ⟨fun _ => hk, _, _, rfl, trivial⟩
  case beginRunqueue.refl.value =>
    cases h
    exact ⟨fun hne => absurd rfl hne, _, _, rfl, minLoop_fresh _⟩
  all_goals (repeat' split at h)
  all_goals cases h
  all_goals exact ⟨fun hne => absurd rfl hne, _, _, rfl, trivial⟩

theorem fresh_step (h : program S sh t (.manager v x) ch = some o)
    (hk : x.fresh w v.semTimedwaitRv) (hf : sleepsFresh ⟨t, sh, .manager v x, ch⟩ = true) :
    (rampsDown S ⟨t, sh, .manager v x, ch⟩ = true → w = true) ∧
      ∃ v' x', o.pc = .manager v' x' ∧
        x'.fresh (ticked w ⟨t, sh, .manager v x, ch⟩) v'.semTimedwaitRv := by
  have hr : rampsDown S ⟨t, sh, .manager v x, ch⟩ = ((Thread.manager v x).stops ||
      (o.pc.accumulated != v.workerIdleSecondsAccumulated)) := by
    simp [rampsDown, h, Thread.accumulated]
  rw [hr, Bool.or_eq_true, bne_iff_ne]
  have hn := (program_step h).2
  have fn := h
  simp only [program, (program_step h).1, if_true] at fn
  cases hx : x.plain with
  | true =>
    obtain ⟨hacc, hto⟩ := plain_fresh hx fn hk hf
    refine ⟨fun hor => hor.elim (fun hs => ?_) hacc, hto⟩
    cases x <;> first | cases hx; done | cases hs
  | false =>
    cases hn with
    | manager hn =>
      cases x with
      | start r y =>
        refine ⟨fun hor => hor.elim (fun hs => by cases hs) fun hne => ?_, ?_⟩
        · cases hn with
          | plain _ hp => cases hp
          | _ => exact absurd rfl hne
        · cases hn with
          | created | decCount => exact ⟨_, _, rfl, startReturn_fresh _⟩
          | plain _ hp => cases hp
          | _ => exact ⟨_, _, rfl, trivial⟩
      | stop i m y =>
        refine ⟨fun _ => hk, ?_⟩
        cases hn with
        | unlockMtx => exact ⟨_, _, rfl, stopLoop_fresh hk⟩
        | plain _ hp => cases hp
        | _ => exact ⟨_, _, rfl, hk⟩
      | _ => cases hx

theorem OnTick.get {n : Nat} {a : PoolAct} (h : OnTick S as) (ha : as[n]? = some a)
    (hr : rampsDown S a = true) : (as.take n).foldl ticked false = true := by
  obtain ⟨hlt, rfl⟩ := List.getElem?_eq_some_iff.mp ha
  refine h _ _ (as.drop (n + 1)) ?_ hr
  rw [List.getElem_cons_drop, List.take_append_drop]

theorem onTick_concat {a : PoolAct} (h : OnTick S as)
    (ha : rampsDown S a = true → as.foldl ticked false = true) : OnTick S (as ++ [a]) := by
  intro pre b post he hb
  rcases List.eq_nil_or_concat post with rfl | ⟨post, x, rfl⟩
  · obtain ⟨rfl, hab⟩ := List.append_inj' he rfl
    cases hab
    exact ha hb
  · rw [List.concat_eq_append, ← List.cons_append, ← List.append_assoc] at he
    obtain ⟨rfl, -⟩ := List.append_inj' he rfl
    exact h pre b post rfl hb

/-- If no iteration sleeps in `sem_wait` on a stale ETIMEDOUT, the manager ramps down on the timer
tick only, whatever the other threads, the semaphore and `sb_suspend` do. -/
theorem ramp_down_on_tick (S : Settings) (t : Tid) (as : List PoolAct) (q : Thread)
    (h : Machine.Solo (program S) t .managerMain as q) (fresh : ∀ a ∈ as, sleepsFresh a = true) :
    OnTick S as := by
  suffices hk : (∀ a ∈ as, sleepsFresh a = true) → OnTick S as ∧
      ∃ v x, q = .manager v x ∧ x.fresh (as.foldl ticked false) v.semTimedwaitRv from (hk fresh).1
  refine h.invariant (fun as q => (∀ a ∈ as, sleepsFresh a = true) → OnTick S as ∧
    ∃ v x, q = .manager v x ∧ x.fresh (as.foldl ticked false) v.semTimedwaitRv) ?_ ?_
  · exact fun _ => ⟨by simp [OnTick], _, _, rfl, trivial⟩
  · intro as q sh ch o ih hn hall
    obtain ⟨htick, v, x, rfl, hk⟩ := ih fun a ha => hall a (List.mem_append_left _ ha)
    obtain ⟨hramp, v', x', hpc, hk'⟩ := fresh_step hn hk
      (hall _ (List.mem_append_right _ List.mem_cons_self))
    refine ⟨onTick_concat htick hramp, v', x', hpc, ?_⟩
    rw [List.foldl_append]
    exact hk'

/-- Eight ticks stop a worker, and the manager has slept on fresh results only. -/
theorem ramp_down_on_eight_ticks : ∃ as c q,
    Machine.Free (program ⟨1, 2, 1, 2, false⟩).acts (initial 1 0) as c ∧
      Machine.Solo (program ⟨1, 2, 1, 2, false⟩) 1 .managerMain
        (as.filter fun a => a.thread == 1) q ∧
      (as.filter fun a => a.thread == 1).any (rampsDown ⟨1, 2, 1, 2, false⟩) = true ∧
      OnTick ⟨1, 2, 1, 2, false⟩ (as.filter fun a => a.thread == 1) := by
  obtain ⟨as, c, hrun, hP⟩ := Machine.exists_run (M := (program ⟨1, 2, 1, 2, false⟩).acts)
    (g := fun _ _ => true) (c := initial 1 0) (spinningPair ++ condemnOne)
    (fun r => decide (r.1.threads[1]? = some (Thread.manager ⟨100, 0, 0, etimedout⟩ .top) ∧
      (r.2.filter fun a => a.thread == 1).any (rampsDown ⟨1, 2, 1, 2, false⟩) = true ∧
      (r.2.filter fun a => a.thread == 1).all sleepsFresh = true)) (by decide +kernel)
  obtain ⟨hm, hany, hall⟩ := of_decide_eq_true hP
  have hs := manager_solo hrun hm rfl
  exact ⟨as, c, _, hrun.free, hs, hany, ramp_down_on_tick _ _ _ _ hs (List.all_eq_true.mp hall)⟩

/-- After one tick the manager is suspended and resumed. Woken from `sem_wait`, it counts the idle
workers again as if another second had passed. -/
theorem ramp_down_on_stale_tick : ∃ as c q,
    Machine.Free (program ⟨1, 2, 1, 0, false⟩).acts (initial 1 0) as c ∧
      Machine.Solo (program ⟨1, 2, 1, 0, false⟩) 1 .managerMain
        (as.filter fun a => a.thread == 1) q ∧
      ¬ OnTick ⟨1, 2, 1, 0, false⟩ (as.filter fun a => a.thread == 1) := by
  obtain ⟨as, c, hrun, hP⟩ := Machine.exists_run (M := (program ⟨1, 2, 1, 0, false⟩).acts)
    (g := fun _ _ => true) (c := initial 1 0)
    (createFirst 0 0 ++ [(1, .value 100), (1, .value 0)] ++ startWorker 1 ++ startWorker 1 ++
      idleTick 1 ++ [(0, .request .suspend)] ++ steps 0 3 ++ [(1, .go), (0, .request .resume)] ++
      steps 0 3 ++ [(1, .ret 0)] ++ steps 1 3)
    (fun r => decide (r.1.threads[1]? = some (Thread.manager ⟨100, 0, 4, etimedout⟩ .top) ∧
      ((r.2.filter fun a => a.thread == 1).take 19).foldl ticked false = false ∧
      ((r.2.filter fun a => a.thread == 1)[19]?).any (rampsDown ⟨1, 2, 1, 0, false⟩) = true))
    (by decide +kernel)
  obtain ⟨hm, hwoken, hany⟩ := of_decide_eq_true hP
  refine ⟨as, c, _, hrun.free, manager_solo hrun hm rfl, fun claim => ?_⟩
  obtain ⟨a, ha, hramp⟩ := (Option.any_eq_true _ _).mp hany
  have := claim.get ha hramp
  rw [show (List.take 19 _).foldl ticked false = false from hwoken] at this
  cases this

/-! The stop clamp -/

/-- The calls of `worker_stop` among some steps. -/
def stopsMade (as : List PoolAct) : Nat := as.countP fun a => a.pc.stops

/-- The value of `idle` that was read when `idle_surplus_threads` was computed. -/
def surplusRead (as : List PoolAct) : Option Nat :=
  (as.find? fun a => a.pc.computesSurplus).map fun a => a.shared.idle

/-- The steps of one ramp-down branch, from its first read of `idle` to the end of the iteration. -/
def RampTick (S : Settings) (t : Tid) (as : List PoolAct) : Prop :=
  ∃ v v', Machine.Solo (program S) t (.manager v .rampRead) as (.manager v' .top) ∧
    ∀ a ∈ as, a.pc.atTop = false

/-- No more workers are stopped than the idle ones that were beyond the threshold. -/
def clamped (S : Settings) (as : List PoolAct) : Prop :=
  stopsMade as ≤ (surplusRead as).elim 0 fun n => n - S.workerIdleThreshold

/-- The surplus is computed from no less than the threshold, or each later read stops nothing. -/
def surplusSound (S : Settings) (as : List PoolAct) : Prop :=
  ∀ n ∈ surplusRead as, S.workerIdleThreshold ≤ n ∨
    ∀ a ∈ as, a.pc.rereads = true → a.shared.idle ≤ S.workerIdleThreshold

/-- The reads of the stop loop that find more idle workers than the threshold. -/
def rereadsAbove (S : Settings) (as : List PoolAct) : Nat :=
  as.countP fun a => a.pc.rereads && decide (S.workerIdleThreshold < a.shared.idle)

/-- `idle_surplus_threads`, the unsigned difference. -/
def idleSurplus (S : Settings) (n : Nat) : Nat := (n + (2 ^ 32 - S.workerIdleThreshold)) % 2 ^ 32

/-- What the steps of a tick amount to at each point, as long as it goes on. -/
def ManagerPc.tally (S : Settings) (as : List PoolAct) : ManagerPc → Prop
  | .rampRead | .rampAdd | .rampSurplus _ =>
    surplusRead as = none ∧ stopsMade as = 0 ∧ rereadsAbove S as = 0
  | .stopRead i m => ∃ n, surplusRead as = some n ∧ i < m ∧ m ≤ idleSurplus S n ∧
      stopsMade as ≤ i ∧ rereadsAbove S as = stopsMade as
  | .stop i m y => ∃ n, surplusRead as = some n ∧ i < m ∧ m ≤ idleSurplus S n ∧
      stopsMade as ≤ i + (y != .alloc).toNat ∧
      rereadsAbove S as = stopsMade as + (y == .alloc).toNat
  | .top => (surplusRead as = none ∧ stopsMade as = 0) ∨
      ∃ n, surplusRead as = some n ∧ stopsMade as ≤ idleSurplus S n ∧
        rereadsAbove S as = stopsMade as
  | _ => False

theorem stopLoop_tally {n i m : Nat} (hs : surplusRead as = some n) (hm : m ≤ idleSurplus S n)
    (hi : i ≤ m) (hle : stopsMade as ≤ i) (ha : rereadsAbove S as = stopsMade as) :
    (stopLoop i m).tally S as := by
  unfold stopLoop
  split
  · exact ⟨n, hs, ‹_›, hm, hle, ha⟩
  · exact .inr ⟨n, hs, by omega, ha⟩

section Concat
variable (S as) (a : PoolAct)

theorem stopsMade_concat : stopsMade (as ++ [a]) = stopsMade as + a.pc.stops.toNat := by
  rw [stopsMade, List.countP_append, countP_singleton_toNat]
  rfl

theorem rereadsAbove_concat : rereadsAbove S (as ++ [a]) = rereadsAbove S as +
    (a.pc.rereads && decide (S.workerIdleThreshold < a.shared.idle)).toNat := by
  rw [rereadsAbove, List.countP_append, countP_singleton_toNat]
  rfl

theorem surplusRead_concat : surplusRead (as ++ [a]) = (surplusRead as).or
    (if a.pc.computesSurplus then some a.shared.idle else none) := by
  rw [surplusRead, List.find?_append, Option.map_or]
  congr 1
  cases h : a.pc.computesSurplus <;> simp [List.find?, h]

end Concat

/-- A step that neither reads `idle` for the stop loop nor begins a `worker_stop`. -/
private theorem idle_concat (S : Settings) (as : List PoolAct) {a : PoolAct}
    (hs : a.pc.stops = false) (hr : a.pc.rereads = false)
    (hc : a.pc.computesSurplus = false) : surplusRead (as ++ [a]) = surplusRead as ∧
      stopsMade (as ++ [a]) = stopsMade as ∧ rereadsAbove S (as ++ [a]) = rereadsAbove S as := by
  rw [surplusRead_concat, stopsMade_concat, rereadsAbove_concat, hs, hr, hc]
  exact ⟨Option.or_none, rfl, rfl⟩

private theorem ramp_tally (h : managerRamp S sh v x ch = some o) (hk : x.tally S as) :
    ∃ v' x', o.pc = .manager v' x' ∧ x'.tally S (as ++ [⟨t, sh, .manager v x, ch⟩]) := by
  cases x <;> cases ch <;> simp only [managerRamp, goTo, reduceCtorEq, Option.some.injEq] at h
  case rampRead | rampAdd =>
    obtain ⟨h₁, h₂, h₃⟩ := hk
    have e := fun y => idle_concat S as (a := ⟨t, sh, .manager v y, .go⟩)
    split at h <;> cases h
    · exact ⟨_, _, rfl, (e _ rfl rfl rfl).1.trans h₁, (e _ rfl rfl rfl).2.1.trans h₂,
        (e _ rfl rfl rfl).2.2.trans h₃⟩
    · exact ⟨_, _, rfl, .inl ⟨(e _ rfl rfl rfl).1.trans h₁, (e _ rfl rfl rfl).2.1.trans h₂⟩⟩
  case rampSurplus m =>
    obtain ⟨h₁, h₂, h₃⟩ := hk
    cases h
    refine ⟨_, _, rfl, stopLoop_tally (n := sh.idle) ?_ ?_ (Nat.zero_le _) ?_ ?_⟩
    · rw [surplusRead_concat, h₁]
      rfl
    · change (if idleSurplus S sh.idle < m then idleSurplus S sh.idle else m) ≤ idleSurplus S sh.idle
      split <;> omega
    · rw [stopsMade_concat, h₂]
      exact Nat.le_refl _
    · rw [stopsMade_concat, rereadsAbove_concat, h₂, h₃]
      rfl
  case stopRead i m =>
    obtain ⟨n, hs, hi, hm, hle, ha⟩ := hk
    have e₁ : surplusRead (as ++ [⟨t, sh, .manager v (.stopRead i m), .go⟩]) = some n := by
      rw [surplusRead_concat, hs]
      rfl
    have e₂ : stopsMade (as ++ [⟨t, sh, .manager v (.stopRead i m), .go⟩]) = stopsMade as :=
      stopsMade_concat _ _
    have e₃ := rereadsAbove_concat S as ⟨t, sh, .manager v (.stopRead i m), .go⟩
    split at h <;> cases h <;> rename_i hT
    · refine ⟨_, _, rfl, n, e₁, hi, hm, by rw [e₂]; exact hle, ?_⟩
      rw [e₃, e₂, ha, decide_eq_true hT]
      rfl
    · refine ⟨_, _, rfl, stopLoop_tally e₁ hm hi (by omega) ?_⟩
      rw [e₃, e₂, ha, decide_eq_false hT]
      rfl

private theorem stop_tally {i m : Nat} {y : StopPc}
    (h : managerNext S sh t v (.stop i m y) ch = some o) (hk : (ManagerPc.stop i m y).tally S as) :
    ∃ v' x', o.pc = .manager v' x' ∧ x'.tally S (as ++ [⟨t, sh, .manager v (.stop i m y), ch⟩]) := by
  obtain ⟨n, hs, hi, hm, hle, ha⟩ := hk
  have e₁ : surplusRead (as ++ [⟨t, sh, .manager v (.stop i m y), ch⟩]) = some n := by
    rw [surplusRead_concat, hs]
    rfl
  have e₂ := stopsMade_concat as ⟨t, sh, .manager v (.stop i m y), ch⟩
  have e₃ : rereadsAbove S (as ++ [⟨t, sh, .manager v (.stop i m y), ch⟩]) = rereadsAbove S as :=
    rereadsAbove_concat _ _ _
  by_cases hy : y = .alloc
  · subst hy
    cases ch <;> simp only [managerNext, workerStop, emit, reduceCtorEq, Option.some.injEq] at h
    cases h
    refine ⟨_, _, rfl, n, e₁, hi, hm, ?_, ?_⟩
    · rw [e₂]
      exact Nat.succ_le_succ hle
    · rw [e₃, e₂, ha]
      rfl
  · have e₂ : stopsMade (as ++ [⟨t, sh, .manager v (.stop i m y), ch⟩]) = stopsMade as := by
      rw [e₂]
      cases y <;> first | rfl | exact absurd rfl hy
    have hne : (y != .alloc) = true := bne_iff_ne.mpr hy
    have heq : (y == .alloc) = false := beq_eq_false_iff_ne.mpr hy
    rw [hne] at hle
    rw [heq] at ha
    have past : ∀ y', y' ≠ .alloc → (ManagerPc.stop i m y').tally S
        (as ++ [⟨t, sh, .manager v (.stop i m y), ch⟩]) := by
      intro y' hy'
      refine ⟨n, e₁, hi, hm, ?_, ?_⟩
      · rw [e₂, bne_iff_ne.mpr hy']
        exact hle
      · rw [e₃, e₂, ha, beq_eq_false_iff_ne.mpr hy']
    have hn := manager_step h
    cases hn with
    | fault => exact ⟨_, _, rfl, past y hy⟩
    | plain _ hp => cases hp
    | alloc => exact absurd rfl hy
    | unlockMtx => exact ⟨_, _, rfl, stopLoop_tally e₁ hm hi (by rw [e₂]; exact hle) (by rw [e₃, e₂]; exact ha)⟩
    | atomicOr _ hp =>
      subst hp
      refine ⟨_, _, rfl, past _ ?_⟩
      split <;> simp
    | _ => exact ⟨_, _, rfl, past _ (by simp)⟩

theorem RampTick.tally (h : RampTick S t as) : ManagerPc.top.tally S as := by
  obtain ⟨v, v', hs, hall⟩ := h
  have hk := hs.invariant (fun as q => (∀ a ∈ as, a.pc.atTop = false) →
    ∃ v x, q = .manager v x ∧ x.tally S as) (fun _ => ⟨v, _, rfl, rfl, rfl, rfl⟩) ?_
  · obtain ⟨_, x, he, hk⟩ := hk hall
    cases he
    exact hk
  · intro as q sh ch o ih hn hall
    obtain ⟨v, x, rfl, hk⟩ := ih fun a ha => hall a (List.mem_append_left _ ha)
    have hnot := hall _ (List.mem_append_right _ List.mem_cons_self)
    have fn := hn
    simp only [program, (program_step hn).1, if_true] at fn
    cases x with
    | rampRead | rampAdd | rampSurplus | stopRead => exact ramp_tally fn hk
    | stop => exact stop_tally fn hk
    | top => cases hnot
    | _ => exact hk.elim

/-- For every sequence of the values that the reads of `idle` return in a tick, the calls of
`worker_stop` stay within the surplus exactly if the surplus did not wrap, or nothing is stopped. -/
theorem stop_clamp_iff (S : Settings) (hT : S.workerIdleThreshold < 2 ^ 32) (t : Tid)
    (as : List PoolAct) (h : RampTick S t as) : clamped S as ↔ surplusSound S as := by
  rcases h.tally with ⟨hs, hz⟩ | ⟨n, hs, hle, ha⟩
  · simp [clamped, surplusSound, hs, hz]
  · have habove : rereadsAbove S as = 0 ↔
        ∀ a ∈ as, a.pc.rereads = true → a.shared.idle ≤ S.workerIdleThreshold := by
      simp [rereadsAbove, List.countP_eq_zero]
    simp only [clamped, surplusSound, hs, Option.elim_some, Option.mem_some_iff, forall_eq',
      ← habove, ha]
    constructor
    · intro hc
      omega
    · rintro (hn | hz)
      · exact Nat.le_trans hle (surplus_le hT hn)
      · omega

/-- The last steps of the manager in a run, as a ramp-down branch. -/
private theorem rampTick_of_run {G : PoolState → Nat × Choice → Prop} {users n : Nat} {a : PoolAct}
    {v v' : ManagerVars} (h : Machine.Run (program S).acts G (initial users 0) as c)
    (hq : c.threads[t]? = some (.manager v' .top))
    (ha : ((as.filter fun a => a.thread == t).drop n).head? = some a)
    (hpc : a.pc = .manager v .rampRead)
    (hall : ((as.filter fun a => a.thread == t).drop n).all (fun a => !a.pc.atTop) = true) :
    RampTick S t ((as.filter fun a => a.thread == t).drop n) := by
  have hs := manager_solo h hq rfl
  rw [← List.take_append_drop n (as.filter fun a => a.thread == t)] at hs
  obtain ⟨q, -, hs⟩ := hs.split
  obtain rfl : a.pc = q := hs.head ha
  rw [hpc] at hs
  refine ⟨v, v', hs, fun b hb => ?_⟩
  simpa using List.all_eq_true.mp hall b hb

/-- Eight ticks find two workers idle with a threshold of one; the last of them stops one. -/
theorem stop_clamp_keeps : ∃ as c bs,
    Machine.Free (program ⟨1, 2, 1, 2, false⟩).acts (initial 1 0) as c ∧
      1 < 2 ^ 32 ∧ RampTick ⟨1, 2, 1, 2, false⟩ 1 bs ∧ surplusSound ⟨1, 2, 1, 2, false⟩ bs ∧
      stopsMade bs = 1 ∧ clamped ⟨1, 2, 1, 2, false⟩ bs := by
  obtain ⟨as, c, hrun, hP⟩ := Machine.exists_run (M := (program ⟨1, 2, 1, 2, false⟩).acts)
    (g := fun _ _ => true) (c := initial 1 0) (spinningPair ++ condemnOne)
    (fun r => decide (r.1.threads[1]? = some (Thread.manager ⟨100, 0, 0, etimedout⟩ .top) ∧
      (((r.2.filter fun a => a.thread == 1).drop 48).head?).any (fun a =>
        a.pc == .manager ⟨100, 0, 14, etimedout⟩ .rampRead) = true ∧
      ((r.2.filter fun a => a.thread == 1).drop 48).all (fun a => !a.pc.atTop) = true ∧
      surplusRead ((r.2.filter fun a => a.thread == 1).drop 48) = some 2 ∧
      stopsMade ((r.2.filter fun a => a.thread == 1).drop 48) = 1)) (by decide +kernel)
  obtain ⟨hm, hfirst, hall, hread, hone⟩ := of_decide_eq_true hP
  obtain ⟨a, ha, hpc⟩ := (Option.any_eq_true _ _).mp hfirst
  have htick := rampTick_of_run hrun hm ha (beq_iff_eq.mp hpc) hall
  have hsound : surplusSound ⟨1, 2, 1, 2, false⟩ ((as.filter fun a => a.thread == 1).drop 48) := by
    intro n hn
    rw [hread] at hn
    cases hn
    exact .inl (by decide)
  exact ⟨as, c, _, hrun.free, by decide, htick, hsound, hone,
    (stop_clamp_iff _ (by decide) _ _ htick).mpr hsound⟩

/-- A user adds an item while workers are idle, and a new worker takes it. -/
private def takeItem (worker : Tid) : List (Tid × Choice) :=
  [(0, .request (.additem 0 (some 7) 70))] ++ steps 0 10 ++ [(0, .wake []), (0, .go)] ++ steps worker 9

/-- Three workers are idle for five ticks with a threshold of two. Before the surplus is computed two
of them take an item, and before the stop loop reads `idle` again both have come back: the surplus of
no worker wraps, and one is stopped. -/
theorem stop_clamp_underflows : ∃ as c bs,
    Machine.Free (program ⟨1, 3, 2, 0, false⟩).acts (initial 1 0) as c ∧
      bs = (as.filter fun a => a.thread == 1).drop 37 ∧ RampTick ⟨1, 3, 2, 0, false⟩ 1 bs ∧
      surplusRead bs = some 1 ∧ stopsMade bs = 1 ∧ ¬ clamped ⟨1, 3, 2, 0, false⟩ bs := by
  obtain ⟨as, c, hrun, hP⟩ := Machine.exists_run (M := (program ⟨1, 3, 2, 0, false⟩).acts)
    (g := fun _ _ => true) (c := initial 1 0)
    (createFirst 0 0 ++ [(1, .value 100), (1, .value 0)] ++ startWorker 1 ++ startWorker 1 ++
      startWorker 1 ++ (List.replicate 5 (idleTick 1)).flatten ++ takeItem 2 ++ takeItem 3 ++
      steps 1 1 ++ steps 2 3 ++ steps 3 3 ++ steps 1 8 ++ [(1, .wake []), (1, .go)])
    (fun r => decide (r.1.threads[1]? = some (Thread.manager ⟨100, 0, 0, etimedout⟩ .top) ∧
      (((r.2.filter fun a => a.thread == 1).drop 37).head?).any (fun a =>
        a.pc == .manager ⟨100, 0, 12, etimedout⟩ .rampRead) = true ∧
      ((r.2.filter fun a => a.thread == 1).drop 37).all (fun a => !a.pc.atTop) = true ∧
      surplusRead ((r.2.filter fun a => a.thread == 1).drop 37) = some 1 ∧
      stopsMade ((r.2.filter fun a => a.thread == 1).drop 37) = 1)) (by decide +kernel)
  obtain ⟨hm, hfirst, hall, hread, hone⟩ := of_decide_eq_true hP
  obtain ⟨a, ha, hpc⟩ := (Option.any_eq_true _ _).mp hfirst
  refine ⟨as, c, _, hrun.free, rfl, rampTick_of_run hrun hm ha (beq_iff_eq.mp hpc) hall, hread, hone,
    fun hc => ?_⟩
  unfold clamped at hc
  rw [hread, hone] at hc
  exact absurd hc (by decide)

end PthreadWorkqueue.Posix
