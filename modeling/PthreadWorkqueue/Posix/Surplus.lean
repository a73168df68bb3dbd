import PthreadWorkqueue.Posix.RampDown

/-! How many workers the ramp-down condemns: the live workers for which there is no marker, and the
floor that `worker_min` and `worker_idle_threshold` set. -/
namespace PthreadWorkqueue.Posix
open Concurrency

/-- The workers that the pool is to keep. -/
def Settings.floor (S : Settings) : Nat := min S.workerMin S.workerIdleThreshold

/-- The workers that were created and have not left. -/
def live (c : PoolState) : Nat := c.number Thread.liveWorker

/-- The points of `manager_main` after the `worker_min` loop. -/
def ManagerPc.pastMinimum : ManagerPc → Bool
  | .begin | .beginRunqueue | .start (some _) _ => false
  | _ => true

/-- When the manager computes its surplus, no worker that it counts as idle is condemned already,
and the unsigned difference does not wrap. -/
def surplusFresh (S : Settings) (c : PoolState) (l : Tid × Choice) : Bool :=
  match c.threads[l.1]? with
  | some (.manager _ (.rampSurplus _)) =>
    outstanding c == 0 && decide (S.workerIdleThreshold ≤ c.shared.idle)
  | _ => true

/-- What `d` live workers with `k` outstanding markers must allow at each point of the manager: the
workers it has started, later the floor, and within the stop loop the markers to come. -/
def ManagerPc.affords (S : Settings) (d k : Nat) : ManagerPc → Prop
  | .begin | .beginRunqueue => k ≤ d
  | .start r p => p.fails = false ∧ match r with
    | some i => k + i ≤ d
    | none => k + S.floor ≤ d
  | .stopRead i m => i < m ∧ k + S.floor + (m - i) ≤ d
  | .stop i m p => i < m ∧ match p with
    | .alloc => k + S.floor + (m - i) ≤ d
    | _ => k + S.floor + (m - (i + 1)) ≤ d
  | _ => k + S.floor ≤ d

section
variable {S : Settings} {d d' k k' i m : Nat} {x : ManagerPc}

theorem ManagerPc.affords_mono (hd : d + k' ≤ d' + k) (h : x.affords S d k) : x.affords S d' k' := by
  cases x <;> simp only [affords] at h ⊢ <;> try omega
  · rename_i r x
    cases r <;> simp only at h ⊢ <;> exact ⟨h.1, by omega⟩
  · rename_i i m x
    cases x <;> simp only at h ⊢ <;> omega

theorem ManagerPc.floor_le (h : x.affords S d k) (past : x.pastMinimum = true) : k + S.floor ≤ d := by
  cases x with
  | begin | beginRunqueue => cases past
  | start r x =>
    cases r with
    | none => exact h.2
    | some i => cases past
  | stopRead i m => exact Nat.le_trans (Nat.le_add_right _ _) h.2
  | stop i m x => cases x <;> exact Nat.le_trans (Nat.le_add_right _ _) h.2
  | _ => exact h

theorem ManagerPc.le_of_affords (h : x.affords S d k) : k ≤ d := by
  cases x with
  | begin | beginRunqueue => exact h
  | start r x => cases r <;> exact Nat.le_trans (Nat.le_add_right _ _) h.2
  | _ => exact Nat.le_trans (Nat.le_add_right _ _) (ManagerPc.floor_le h rfl)

theorem minLoop_affords (h : k + i ≤ d) : (minLoop S i).affords S d k := by
  unfold minLoop
  split
  · exact ⟨rfl, h⟩
  · have : S.floor ≤ S.workerMin := Nat.min_le_left _ _
    change k + S.floor ≤ d
    omega

theorem stopLoop_affords (h : k + S.floor + (m - i) ≤ d) : (stopLoop i m).affords S d k := by
  unfold stopLoop
  split
  · exact ⟨by assumption, h⟩
  · exact Nat.le_trans (Nat.le_add_right _ _) h

theorem rampStart_affords {v : ManagerVars} (h : k + S.floor ≤ d) : (rampStart v).affords S d k := by
  unfold rampStart
  split <;> exact h

end

variable {S : Settings} {sh : Shared} {t : Tid} {p : Thread} {ch : Choice} {o : Out}
  {c : PoolState} {tr : List Event} {v v' : ManagerVars} {x x' : ManagerPc} {sh' : Shared} {d k : Nat}

/-- The surplus does not exceed the idle workers above the threshold. -/
theorem surplus_le {idle T : Nat} (hT : T < 2 ^ 32) (h : T ≤ idle) :
    (idle + (2 ^ 32 - T)) % 2 ^ 32 ≤ idle - T := by
  have : idle + (2 ^ 32 - T) = idle - T + 2 ^ 32 := by omega
  rw [this, Nat.add_mod_right]
  exact Nat.mod_le _ _

theorem plain_affords (h : managerNext S sh t v x ch = some ⟨sh', .manager v' x', [], []⟩)
    (hx : x.plain = true) (hT : S.workerIdleThreshold < 2 ^ 32) (hi : sh.idle ≤ d)
    (fresh : ∀ m, x = .rampSurplus m → k = 0 ∧ S.workerIdleThreshold ≤ sh.idle)
    (he : x.affords S d k) : x'.affords S d k := by
  cases x <;> cases hx <;> cases ch <;> simp only [managerNext, managerSleep, managerSpawn,
    managerRamp, goTo, reduceCtorEq, Option.some.injEq] at h
  case beginRunqueue => cases h; exact minLoop_affords he
  case rampSurplus m =>
    obtain ⟨rfl, hle⟩ := fresh m rfl
    have hfloor : S.floor ≤ S.workerIdleThreshold := Nat.min_le_right _ _
    have := surplus_le hT hle
    cases h
    refine stopLoop_affords ?_
    split <;> omega
  case stopRead i m =>
    obtain ⟨him, he⟩ := he
    split at h <;> cases h
    · exact ⟨him, he⟩
    · exact stopLoop_affords (by omega)
  all_goals (repeat' split at h)
  all_goals cases h
  all_goals first
    | exact he
    | exact ⟨rfl, he⟩
    | exact rampStart_affords he

/-- A worker stays live except when it leaves. -/
theorem liveWorker_step (h : Step S sh t p ch o) : o.pc.liveWorker = p.liveWorker ∨
    ∃ v w, p = .worker v (.exitDecCount w) ∧
      o = ⟨{ sh with count := atomicDec sh.count }, .worker v (.exitFree w), [], []⟩ := by
  cases h with
  | app h => cases h <;> exact .inl rfl
  | call h => cases h <;> exact .inl rfl
  | worker h =>
    cases h with
    | exitDecCount => exact .inr ⟨_, _, rfl, rfl⟩
    | @nothing k => cases k <;> exact .inl rfl
    | @unlock k _ _ r => cases k <;> cases r <;> exact .inl rfl
    | _ => exact .inl rfl
  | overcommit h => cases h <;> exact .inl rfl
  | manager h => cases h <;> exact .inl rfl

/-- No step condemns a worker but one that makes a marker. -/
theorem live_apply (hp : c.threads[t]? = some p) (h : Step S c.shared t p ch o)
    (ds : DrainStep c.shared p o) (hs : Scoreboard tr c) :
    live c + outstanding (o.apply c t) ≤ live (o.apply c t) + outstanding c + made o := by
  have htotal := Outcome.total_apply (o := o) (fun r => r.liveWorker.toNat) hp
  obtain ⟨hle, hcount⟩ := ds.outstanding_apply hp
  unfold live
  rw [Config.number_eq_total, Config.number_eq_total]
  rcases liveWorker_step h with hlive | ⟨v, w, rfl, rfl⟩
  · rw [hlive] at htotal
    omega
  · have hdec := atomicDec_add_one (hs.le hp).1
    have hcount := hcount rfl
    change c.shared.count + _ ≤ atomicDec c.shared.count + _ + _ at hcount
    change _ + 1 = _ + 0 + 0 at htotal
    omega

/-- At the manager's point the live workers cover the outstanding markers, the floor and the markers
to come. -/
structure Ample (S : Settings) (c : PoolState) : Prop where
  covered : outstanding c ≤ live c
  manager : ∀ (t : Tid) (v : ManagerVars) (x : ManagerPc), c.threads[t]? = some (.manager v x) →
    x.affords S (live c) (outstanding c)

namespace Ample

private theorem other (ha : Ample S c) (hp : c.threads[t]? = some p) (hnot : p.isManager = false)
    (h : Step S c.shared t p ch o) (hlive : live c + outstanding (o.apply c t) ≤
      live (o.apply c t) + outstanding c) : Ample S (o.apply c t) := by
  have hcov : outstanding (o.apply c t) ≤ live (o.apply c t) := by
    have := ha.covered
    omega
  refine ⟨hcov, fun u v x hu => ?_⟩
  obtain ⟨rfl, ho⟩ | ⟨_, hu⟩ | ⟨_, hu⟩ := Outcome.get_cases hp hu
  · have hpc := h.isManager_pc
    rw [← ho, hnot] at hpc
    cases hpc
  · exact ManagerPc.affords_mono hlive (ha.manager u v x hu)
  · rcases h.spawned _ hu with he | he | he
    · cases he
    · cases he
    · cases he
      exact hcov

/-- A step of the manager, after which there are `d` live workers. -/
private theorem self (hp : c.threads[t]? = some p) (one : OneManager (o.apply c t))
    (ds : DrainStep c.shared p o) (hpc : o.pc = .manager v x) (hd : live (o.apply c t) = d)
    (hk : x.affords S d (outstanding c + made o)) : Ample S (o.apply c t) := by
  have hle := (ds.outstanding_apply hp).1
  have hcov := ManagerPc.le_of_affords hk
  refine ⟨by omega, fun u v' y hu => ?_⟩
  have hself := Outcome.get_self (o := o) hp
  have := one.unique t u _ _ hself hu (by rw [hpc]; rfl) rfl
  subst this
  rw [hself, hpc] at hu
  cases hu
  exact ManagerPc.affords_mono (by omega) hk

private theorem live_manager (hp : c.threads[t]? = some (.manager v x))
    (h : Step S c.shared t (.manager v x) ch o) :
    live (o.apply c t) = live c + (o.spawned.map fun r => r.liveWorker.toNat).sum := by
  have htotal := Outcome.total_apply (o := o) (fun r => r.liveWorker.toNat) hp
  have hpc : o.pc.liveWorker = false := by
    have := h.isManager_pc
    cases ho : o.pc <;> rw [ho] at this <;> first | rfl | cases this
  rw [hpc] at htotal
  unfold live
  rw [Config.number_eq_total, Config.number_eq_total]
  exact htotal

theorem step (ha : Ample S c) (hs : Scoreboard tr c) (one : OneManager c)
    (one' : OneManager (o.apply c t)) (hp : c.threads[t]? = some p)
    (h : Step S c.shared t p ch o) (ds : DrainStep c.shared p o)
    (hT : S.workerIdleThreshold < 2 ^ 32) (ok : ∀ code, ch = .ret code → p.creates = true → code = 0)
    (fresh : ∀ v m, p = .manager v (.rampSurplus m) →
      outstanding c = 0 ∧ S.workerIdleThreshold ≤ c.shared.idle) : Ample S (o.apply c t) := by
  cases hm : p.isManager with
  | false =>
    have hlive := live_apply hp h ds hs
    rw [made_eq_zero h hm] at hlive
    exact ha.other hp hm h hlive
  | true =>
    cases p with
    | manager v x =>
      have he := ha.manager t v x hp
      have hlive := live_manager hp h
      cases h with
      | manager h =>
        cases h with
        | fault => exact Ample.self hp one' ds rfl hlive he
        | plain hq hx hx' hnext =>
          have hi := idle_le_live hs one hp hx
          obtain ⟨_, _, _, _, rfl⟩ := hq
          exact Ample.self hp one' ds rfl hlive
            (plain_affords hnext hx hT hi (fun m hm => fresh v m (by rw [hm])) he)
        | @created r =>
          refine Ample.self hp one' ds rfl hlive ?_
          cases r with
          | none => exact Nat.le_succ_of_le he.2
          | some i => exact minLoop_affords (Nat.succ_le_succ he.2)
        | createFailed hne => exact absurd (ok _ rfl rfl) hne
        | decIdle | decCount => cases he.1
        | alloc =>
          obtain ⟨him, he⟩ := he
          refine Ample.self hp one' ds rfl hlive ⟨him, ?_⟩
          change outstanding c + 1 + S.floor + _ ≤ live c
          omega
        | unlockMtx => exact Ample.self hp one' ds rfl hlive (stopLoop_affords he.2)
        | atomicOr _ hx =>
          subst hx
          refine Ample.self hp one' ds rfl hlive ?_
          split <;> exact he
        | incPending | incIdle | incCount => exact Ample.self hp one' ds rfl hlive ⟨rfl, he.2⟩
        | _ => exact Ample.self hp one' ds rfl hlive he
    | _ => cases hm

end Ample

variable {users : Nat}

/-- Every `pthread_create` succeeds, and every surplus is computed from workers that stay. -/
def Measured (S : Settings) (c : PoolState) (l : Tid × Choice) : Prop :=
  createsSucceed c l = true ∧ surplusFresh S c l = true

theorem ample (hT : S.workerIdleThreshold < 2 ^ 32)
    (h : Machine.Run (program S) (Measured S) (initial users 0) tr c) : Ample S c := by
  refine h.invariant (fun _ c => Ample S c) ⟨?_, fun _ _ _ hp => absurd hp initial_no_manager⟩ ?_
  · rw [outstanding_initial]
    exact Nat.zero_le _
  · intro tr c l p o hrun ha hg mv
    have hs := (program_step mv.next).2
    have one := oneManager hrun
    refine ha.step (scoreboard hrun) one (one.apply (disciplined hrun) mv.here (birth_step hs)) mv.here
      hs (drain_step (masks hrun) (registry hrun) (scoreboard hrun) mv.here
        (markerOk hrun _ _ mv.here) hs) hT (createsSucceed_ret hg.1 mv.here) ?_
    rintro v m rfl
    simpa [surplusFresh, mv.here] using hg.2

/-- With every surplus computed from workers that stay, the ramp-down leaves the pool its floor. -/
theorem ramp_down_keeps_floor (S : Settings) (hT : S.workerIdleThreshold < 2 ^ 32) (users : Nat)
    (tr : List Event) (c : PoolState)
    (h : Machine.Run (program S) (Measured S) (initial users 0) tr c) (t : Tid) (v : ManagerVars)
    (x : ManagerPc) (hm : c.threads[t]? = some (.manager v x)) (past : x.pastMinimum = true) :
    min S.workerMin S.workerIdleThreshold + c.shared.queuedMarkers ≤ c.number Thread.liveWorker := by
  have hfloor := ManagerPc.floor_le ((ample hT h).manager t v x hm) past
  have hout : c.shared.queuedMarkers ≤ outstanding c := Nat.le_add_right _ _
  change S.floor + _ ≤ live c
  omega

/-- Two workers start and spin. -/
def spinningPair : List (Tid × Choice) :=
  createFirst 0 0 ++ [(1, .value 100), (1, .value 0)] ++ startWorker 1 ++ startWorker 1 ++
    steps 2 3 ++ steps 3 3

/-- Eight ticks find two workers idle, and condemn one of them. -/
def condemnOne : List (Tid × Choice) :=
  (List.replicate 7 (idleTick 1)).flatten ++ stopTick 1 2

/-- One of two workers is condemned, and the other stays. -/
theorem ramp_down_keeps_one : ∃ tr c,
    Machine.Run (program ⟨1, 2, 1, 2, false⟩) (Measured ⟨1, 2, 1, 2, false⟩) (initial 1 0) tr c ∧
      c.shared.queuedMarkers = 1 ∧
      min 2 1 + c.shared.queuedMarkers ≤ c.number Thread.liveWorker := by
  obtain ⟨tr, c, hrun, hP⟩ := Machine.exists_run (M := program ⟨1, 2, 1, 2, false⟩)
    (g := fun c l => createsSucceed c l && surplusFresh ⟨1, 2, 1, 2, false⟩ c l) (c := initial 1 0)
    (spinningPair ++ condemnOne)
    (fun r => decide (r.1.threads[1]? = some (Thread.manager ⟨100, 0, 0, etimedout⟩ .top) ∧
      r.1.shared.queuedMarkers = 1)) (by decide +kernel)
  obtain ⟨hm, hone⟩ := of_decide_eq_true hP
  have hrun := hrun.weaken (H := Measured ⟨1, 2, 1, 2, false⟩)
    fun _ _ hg => Bool.and_eq_true_iff.mp hg
  exact ⟨tr, c, hrun, hone, ramp_down_keeps_floor _ (by decide) _ tr c hrun 1 _ _ hm rfl⟩

/-- A spinning worker consumes no marker and counts as idle for ever: the next eight ticks condemn
the second of two workers. -/
theorem ramp_down_condemns_all : ¬ ∀ (S : Settings) (users : Nat) (tr : List Event) (c : PoolState),
    Machine.Run (program S) (fun c l => createsSucceed c l = true) (initial users 0) tr c →
      ∀ (t : Tid) (v : ManagerVars) (x : ManagerPc), c.threads[t]? = some (.manager v x) →
        x.pastMinimum = true →
        min S.workerMin S.workerIdleThreshold + c.shared.queuedMarkers ≤
          c.number Thread.liveWorker := by
  intro claim
  obtain ⟨tr, c, hrun, hP⟩ := Machine.exists_run (M := program ⟨1, 2, 1, 2, false⟩)
    (g := createsSucceed) (c := initial 1 0) (spinningPair ++ condemnOne ++ condemnOne)
    (fun r => decide (r.1.threads[1]? = some (Thread.manager ⟨100, 0, 0, etimedout⟩ .top) ∧
      r.1.shared.queuedMarkers = 2 ∧ r.1.number Thread.liveWorker = 2)) (by decide +kernel)
  obtain ⟨hm, htwo, hlive⟩ := of_decide_eq_true hP
  have := claim _ _ tr c hrun 1 _ _ hm rfl
  rw [htwo, hlive] at this
  exact absurd this (by decide)

end PthreadWorkqueue.Posix
