import PthreadWorkqueue.Posix.ExitMarkers

/-! The size of the pool. The manager starts `worker_min` workers and then ramps the pool up and
down; it never stops the last worker, unless the idle threshold of the machine is zero. -/
namespace PthreadWorkqueue.Posix
open Concurrency

namespace Thread

/-- In `manager_start`, before `wqlist_has_manager` is set. -/
def startsManager : Thread → Bool
  | .call _ (.managerStart _) | .call _ (.managerSet _) => true
  | _ => false

/-- The manager was created and `wqlist_has_manager` does not say so yet. -/
def setsManager : Thread → Bool
  | .call _ (.managerSet _) => true
  | _ => false

end Thread

/-- What a step does about the manager thread. -/
inductive BirthStep (sh : Shared) (p : Thread) (o : Out) : Prop where
  | keep : o.shared.wqlistHasManager = sh.wqlistHasManager → o.pc.isManager = p.isManager →
      o.pc.setsManager = p.setsManager →
      (o.pc.startsManager = true → p.startsManager = true ∨ sh.wqlistHasManager = false) →
      (∀ r ∈ o.spawned, r.isManager = false ∧ r.startsManager = false) → BirthStep sh p o
  | start {k q} : p = .call k (.managerStart q) →
      o = ⟨sh, .call k (.managerSet q), [.managerMain], []⟩ → BirthStep sh p o
  | set {k q} : p = .call k (.managerSet q) →
      o = ⟨{ sh with wqlistHasManager := true }, .call k (.createRegister q), [], []⟩ →
      BirthStep sh p o

variable {S : Settings} {sh : Shared} {t u : Tid} {p r : Thread} {ch : Choice} {o : Out}
  {c : PoolState}

private theorem Call.plain_startsManager {k : Caller} {x : Call} (h : x.plain = true) :
    (Thread.call k x).startsManager = false ∧ (Thread.call k x).setsManager = false := by
  cases x <;> first | exact ⟨rfl, rfl⟩ | cases h

theorem birth_step (h : Step S sh t p ch o) : BirthStep sh p o := by
  cases h with
  | app h => cases h <;> exact .keep rfl rfl rfl nofun (by simp)
  | call h =>
    cases h with
    | fault => exact .keep rfl rfl rfl .inl (by simp)
    | quiet hq hc hc' =>
      obtain ⟨_, _, _, _, rfl⟩ := hq
      obtain ⟨h₁, h₂⟩ := Call.plain_startsManager (k := ‹Caller›) hc'
      exact .keep rfl rfl (h₂.trans (Call.plain_startsManager hc).2.symm) (by simp [h₁]) (by simp)
    | quietReturn hq hc =>
      obtain ⟨_, _, _, _, rfl⟩ := hq
      exact .keep rfl rfl (Call.plain_startsManager hc).2.symm nofun (by simp)
    | error hc => exact .keep rfl rfl (Call.plain_startsManager hc).2.symm nofun (by simp)
    | ocCreate => exact .keep rfl rfl rfl nofun (by simp; decide)
    | createManager hm => exact .keep rfl rfl rfl (fun _ => .inr hm) (by simp)
    | managerStart => exact .start rfl rfl
    | managerAgain => exact .keep rfl rfl rfl .inl (by simp)
    | managerSet => exact .set rfl rfl
    | _ => exact .keep rfl rfl rfl nofun (by simp)
  | worker h =>
    cases h with
    | exitFree | free =>
      obtain ⟨_, _, he⟩ := witemFree_eq sh ‹Work›
      rw [he]
      exact .keep rfl rfl rfl nofun (by simp)
    | _ => exact .keep rfl rfl rfl nofun (by simp)
  | overcommit h =>
    cases h with
    | free =>
      obtain ⟨_, _, he⟩ := witemFree_eq sh ‹Work›
      rw [he]
      exact .keep rfl rfl rfl nofun (by simp)
    | _ => exact .keep rfl rfl rfl nofun (by simp)
  | manager h =>
    cases h with
    | plain hq => obtain ⟨_, _, _, _, rfl⟩ := hq; exact .keep rfl rfl rfl nofun (by simp)
    | created => exact .keep rfl rfl rfl nofun (by simp; decide)
    | _ => exact .keep rfl rfl rfl nofun (by simp)

/-- There is at most one manager thread, and a queue that finds no manager starts the first. -/
structure OneManager (c : PoolState) : Prop where
  unset : ∀ (t : Tid) (p : Thread), c.threads[t]? = some p → p.startsManager = true →
    c.shared.wqlistHasManager = false
  known : ∀ (t : Tid) (p : Thread), c.threads[t]? = some p → p.isManager = true →
    c.shared.wqlistHasManager = true ∨
      ∃ (u : Tid) (r : Thread), c.threads[u]? = some r ∧ r.setsManager = true
  unique : ∀ (t u : Tid) (p r : Thread), c.threads[t]? = some p → c.threads[u]? = some r →
    p.isManager = true → r.isManager = true → t = u

namespace OneManager

private theorem keep (hm : OneManager c) (hp : c.threads[t]? = some p)
    (hh : o.shared.wqlistHasManager = c.shared.wqlistHasManager)
    (hi : o.pc.isManager = p.isManager) (hs : o.pc.setsManager = p.setsManager)
    (hst : o.pc.startsManager = true → p.startsManager = true ∨ c.shared.wqlistHasManager = false)
    (fresh : ∀ r ∈ o.spawned, r.isManager = false ∧ r.startsManager = false) :
    OneManager (o.apply c t) := by
  -- a manager after the step was one before it
  have was : ∀ (u : Tid) (r : Thread), (o.apply c t).threads[u]? = some r → r.isManager = true →
      ∃ r', c.threads[u]? = some r' ∧ r'.isManager = true := fun u r hu hr =>
    Outcome.exists_before (P := fun r => r.isManager = true) hp (fun h => hi ▸ h)
      (fun r hr => by simp [(fresh r hr).1]) hu hr
  refine ⟨fun u r hu hr => ?_, fun u r hu hr => ?_, fun u x r y hu hx hr hy => ?_⟩
  · change o.shared.wqlistHasManager = false
    rw [hh]
    obtain ⟨rfl, rfl⟩ | ⟨_, hu⟩ | ⟨_, hu⟩ := Outcome.get_cases hp hu
    · exact (hst hr).elim (hm.unset _ p hp) id
    · exact hm.unset u r hu hr
    · simp [(fresh r hu).2] at hr
  · change o.shared.wqlistHasManager = true ∨ _
    rw [hh]
    obtain ⟨r', hu', hr'⟩ := was u r hu hr
    exact (hm.known u r' hu' hr').imp_right (Outcome.exists_after hp fun hy => hs.trans hy)
  · obtain ⟨_, hu', hr'⟩ := was u r hu hr
    obtain ⟨_, hx', hy'⟩ := was x y hx hy
    exact hm.unique _ _ _ _ hu' hx' hr' hy'

theorem apply (hm : OneManager c) (hd : Disciplined c) (hp : c.threads[t]? = some p)
    (h : BirthStep c.shared p o) : OneManager (o.apply c t) := by
  have alone : ∀ (u : Tid) (r : Thread), p.startsManager = true → c.threads[u]? = some r →
      r.startsManager = true → u = t := by
    intro u r hs hu hr
    have holds : ∀ x : Thread, x.startsManager = true → x.holdsMtx = true := by
      intro x hx
      cases x with
      | call k x => cases x <;> first | rfl | cases hx
      | _ => cases hx
    exact hd.mtx_unique hp (holds p hs) hu (holds r hr)
  cases h with
  | keep hh hi hs hst fresh => exact hm.keep hp hh hi hs hst fresh
  | @start k q he ho =>
    subst he ho
    have hfalse := hm.unset t _ hp rfl
    have none : ∀ (u : Tid) (r : Thread), c.threads[u]? = some r → r.isManager = false := by
      intro u r hu
      refine Bool.eq_false_iff.mpr fun hr => ?_
      rcases hm.known u r hu hr with hk | ⟨x, y, hx, hy⟩
      · rw [hfalse] at hk
        cases hk
      · have hys : y.startsManager = true := by
          cases y with
          | call k y => cases y <;> first | rfl | cases hy
          | _ => cases hy
        have := alone x y rfl hx hys
        subst this
        rw [hp] at hx
        cases hx
        cases hy
    have last : ∀ (u : Tid) (r : Thread),
        (Outcome.apply (⟨c.shared, .call k (.managerSet q), [.managerMain], []⟩ : Out) c t).threads[u]? =
          some r → r.isManager = true → u = c.threads.length := by
      intro u r hu hr
      have hlt := (List.getElem?_eq_some_iff.mp hu).1
      simp only [Outcome.apply, List.length_append, List.length_set, List.length_singleton] at hlt
      obtain ⟨rfl, rfl⟩ | ⟨_, hu⟩ | ⟨hle, _⟩ := Outcome.get_cases hp hu
      · cases hr
      · rw [none u r hu] at hr
        cases hr
      · exact Nat.le_antisymm (Nat.le_of_lt_succ hlt) hle
    refine ⟨fun _ _ _ _ => hfalse, fun _ _ _ _ => .inr ⟨t, _, Outcome.get_self hp, rfl⟩, ?_⟩
    intro u x r y hu hx hr hy
    exact (last u r hu hr).trans (last x y hx hy).symm
  | @set k q he ho =>
    subst he ho
    have was : ∀ (u : Tid) (r : Thread), (Outcome.apply (⟨{ c.shared with wqlistHasManager := true },
        .call k (.createRegister q), [], []⟩ : Out) c t).threads[u]? = some r →
        (r.isManager = true ∨ r.startsManager = true) → u ≠ t ∧ c.threads[u]? = some r := by
      intro u r hu hr
      obtain ⟨rfl, rfl⟩ | ⟨hne, hu⟩ | ⟨_, hu⟩ := Outcome.get_cases hp hu
      · rcases hr with hr | hr <;> cases hr
      · exact ⟨hne, hu⟩
      · cases hu
    refine ⟨fun u r hu hr => ?_, fun _ _ _ _ => .inl rfl, fun u x r y hu hx hr hy => ?_⟩
    · obtain ⟨hne, hu⟩ := was u r hu (.inr hr)
      exact absurd (alone u r rfl hu hr) hne
    · exact hm.unique u x r y (was u r hu (.inl hr)).2 (was x y hx (.inl hy)).2 hr hy

end OneManager

variable {G : PoolState → Nat × Choice → Prop} {users : Nat} {tr : List Event}

theorem oneManager (h : Machine.Run (program S) G (initial users 0) tr c) : OneManager c := by
  refine h.invariant (fun _ c => OneManager c) ?_ ?_
  · have none : ∀ (u : Tid) (r : Thread), (initial users 0).threads[u]? = some r → r = .app .user := by
      intro u r hu
      have := List.mem_of_getElem? hu
      simp only [initial, List.replicate_zero, List.append_nil] at this
      exact List.eq_of_mem_replicate this
    refine ⟨fun _ _ _ _ => rfl, fun u r hu hr => ?_, fun u x r y hu hx hr hy => ?_⟩
    · rw [none u r hu] at hr
      cases hr
    · rw [none u r hu] at hr
      cases hr
  · intro tr c l p o hrun hm _ mv
    exact hm.apply (disciplined hrun) mv.here (birth_step (program_step mv.next).2)

/-! The ramp-down -/

/-- Every marker is consumed, by a worker that has left, before the manager's next iteration. -/
def markersConsumed (c : PoolState) (l : Tid × Choice) : Bool :=
  match c.threads[l.1]? with
  | some (.manager _ .top) => outstanding c == 0
  | _ => true

def StartPc.fails : StartPc → Bool
  | .decIdle | .decCount => true
  | _ => false

/-- What the manager can rely on at each point: `d` workers for which there is no marker, and `o`
outstanding markers. -/
def ManagerPc.expects (d o : Nat) : ManagerPc → Prop
  | .begin | .beginRunqueue => True
  | .start r p => p.fails = false ∧ match r with
    | some i => i + (p == .create).toNat ≤ d
    | none => 1 ≤ d
  | .top => 1 ≤ d
  | .rampSurplus m => 1 ≤ d ∧ o = 0 ∧ workerIdleSecondsThreshold * m < d + workerIdleSecondsThreshold
  | .stopRead i m => 1 ≤ d ∧ i < m ∧ (m = 1 → o = 0) ∧
      workerIdleSecondsThreshold * m < d + i + workerIdleSecondsThreshold
  | .stop i m p => i < m ∧ match p with
    | .alloc => 2 ≤ d ∧ workerIdleSecondsThreshold * m < d + i + workerIdleSecondsThreshold
    | _ => 1 ≤ d ∧ workerIdleSecondsThreshold * m < d + (i + 1) + workerIdleSecondsThreshold
  | _ => 1 ≤ d ∧ o = 0

theorem ManagerPc.expects_mono {d d' o o' : Nat} {x : ManagerPc} (hd : d ≤ d') (ho : o' ≤ o)
    (h : x.expects d o) : x.expects d' o' := by
  cases x <;> simp only [expects] at h ⊢ <;> try omega
  · rename_i r x
    cases r <;> exact ⟨h.1, Nat.le_trans h.2 hd⟩
  · rename_i i m x
    cases x <;> simp only at h ⊢ <;> omega

theorem minLoop_expects {d o i : Nat} (hmin : 1 ≤ S.workerMin) (h : i ≤ d) (hi : i = 0 ∨ 1 ≤ d) :
    (minLoop S i).expects d o := by
  unfold minLoop
  split
  · exact ⟨rfl, h⟩
  · rename_i hn
    exact hi.elim (fun hz => absurd hmin (by omega)) id

theorem stopLoop_expects {d o i m : Nat} (hd : 1 ≤ d) (ho : m = 1 → i = 0 → o = 0)
    (h : workerIdleSecondsThreshold * m < d + i + workerIdleSecondsThreshold) :
    (stopLoop i m).expects d o := by
  unfold stopLoop
  split
  · exact ⟨hd, by assumption, fun hm => ho hm (by omega), h⟩
  · exact hd

theorem rampStart_expects {v : ManagerVars} {d o : Nat} (hd : 1 ≤ d) (ho : o = 0) :
    (rampStart v).expects d o := by
  unfold rampStart
  split
  · exact ⟨hd, ho⟩
  · exact hd

section MainLoop
variable {v v' : ManagerVars} {x x' : ManagerPc} {sh' : Shared} {d k : Nat}

/-- What survives a step of the main loop. -/
def ManagerVars.keeps (d k : Nat) (v : ManagerVars) (x : ManagerPc) : Prop :=
  v.workerIdleSecondsAccumulated < workerIdleSecondsThreshold ∧ x.expects d k

private theorem sleep_keeps (h : managerSleep sh v x ch = some ⟨sh', .manager v' x', [], []⟩)
    (htop : x = .top → k = 0) (he : v.keeps d k x) : v'.keeps d k x' := by
  obtain ⟨hv, he⟩ := he
  cases x <;> cases ch <;> simp only [managerSleep, goTo, reduceCtorEq, Option.some.injEq] at h
  case top => split at h <;> cases h <;> exact ⟨hv, he, htop rfl⟩
  case timedWait | semWait =>
    split at h
    · split at h <;> cases h
      exact ⟨hv, he⟩
    · cases h
      exact ⟨hv, he⟩

private theorem spawn_keeps (h : managerSpawn S sh v x ch = some ⟨sh', .manager v' x', [], []⟩)
    (he : v.keeps d k x) : v'.keeps d k x' := by
  obtain ⟨hv, he⟩ := he
  cases x <;> cases ch <;> simp only [managerSpawn, goTo, reduceCtorEq, Option.some.injEq] at h
  case readIdle | readCount | readPending =>
    split at h <;> cases h
    · exact ⟨hv, he⟩
    · exact ⟨hv, rampStart_expects he.1 he.2⟩
  case readAbout => split at h <;> cases h <;> exact ⟨hv, he⟩
  case decAbout => cases h; exact ⟨hv, rfl, he.1⟩
  case readThreshold =>
    split at h <;> cases h
    · exact ⟨hv, rfl, he.1⟩
    · exact ⟨hv, he⟩
  case readMax | runnable.value | runqueue =>
    split at h <;> cases h
    · exact ⟨hv, he⟩
    · exact ⟨hv, he.1⟩
  case runnable.ret => cases h; exact ⟨hv, he⟩
  case readIdleAgain =>
    split at h <;> cases h
    · exact ⟨hv, rfl, he.1⟩
    · exact ⟨hv, he.1⟩

/-- The tick stops no more workers than a fifteenth of the seconds that were spent idle, and a
single worker only if another one is idle too. -/
private theorem ramp_keeps (h : managerRamp S sh v x ch = some ⟨sh', .manager v' x', [], []⟩)
    (hT : 1 ≤ S.workerIdleThreshold) (hi : sh.idle ≤ d + k) (he : v.keeps d k x) :
    v'.keeps d k x' := by
  obtain ⟨hv, he⟩ := he
  cases x <;> cases ch <;> simp only [managerRamp, goTo, reduceCtorEq, Option.some.injEq] at h
  case rampRead =>
    split at h <;> cases h
    · exact ⟨hv, he⟩
    · exact ⟨Nat.succ_pos 14, he.1⟩
  case rampAdd =>
    obtain ⟨hd, rfl⟩ := he
    have hmod := Nat.mod_le (v.workerIdleSecondsAccumulated + sh.idle) (2 ^ 32)
    have hdiv := Nat.mul_div_le ((v.workerIdleSecondsAccumulated + sh.idle) % 2 ^ 32)
      workerIdleSecondsThreshold
    split at h <;> cases h
    · refine ⟨Nat.succ_pos 14, hd, rfl, ?_⟩
      omega
    · rename_i hz
      exact ⟨(Nat.div_eq_zero_iff.mp (Nat.eq_zero_of_not_pos hz)).resolve_left (by decide), hd⟩
  case rampSurplus =>
    obtain ⟨hd, ho, hm⟩ := he
    split at h <;> cases h
    · rename_i hlt
      have := Nat.mul_le_mul_left workerIdleSecondsThreshold (Nat.le_of_lt hlt)
      exact ⟨hv, stopLoop_expects hd (fun _ _ => ho) (by omega)⟩
    · exact ⟨hv, stopLoop_expects hd (fun _ _ => ho) hm⟩
  case stopRead i m =>
    obtain ⟨hd, him, ho, hm⟩ := he
    split at h <;> cases h
    · refine ⟨hv, him, ?_, hm⟩
      by_cases hone : m = 1
      · have := ho hone
        omega
      · unfold workerIdleSecondsThreshold at hm
        omega
    · exact ⟨hv, stopLoop_expects hd (fun hm hi => by omega) (by omega)⟩

theorem plain_keeps (h : managerNext S sh t v x ch = some ⟨sh', .manager v' x', [], []⟩)
    (hx : x.plain = true) (hmin : 1 ≤ S.workerMin) (hT : 1 ≤ S.workerIdleThreshold)
    (hi : sh.idle ≤ d + k) (htop : x = .top → k = 0) (he : v.keeps d k x) : v'.keeps d k x' := by
  cases x <;> try cases hx
  case begin => cases ch <;> cases h; exact he
  case beginRunqueue =>
    cases ch <;> cases h
    exact ⟨he.1, minLoop_expects hmin (Nat.zero_le _) (.inl rfl)⟩
  case top | timedWait | semWait => exact sleep_keeps h htop he
  case rampRead | rampAdd | rampSurplus | stopRead => exact ramp_keeps h hT hi he
  all_goals exact spawn_keeps h he

end MainLoop

/-- The workers for which there is no marker. -/
def spare (c : PoolState) : Nat := c.shared.count - outstanding c

structure Steady (c : PoolState) : Prop where
  covered : outstanding c ≤ c.shared.count
  manager : ∀ (t : Tid) (v : ManagerVars) (x : ManagerPc), c.threads[t]? = some (.manager v x) →
    v.keeps (spare c) (outstanding c) x

theorem DrainStep.outstanding_apply (h : DrainStep c.shared p o) (hp : c.threads[t]? = some p) :
    outstanding (o.apply c t) ≤ outstanding c + made o ∧
      (p.givesUp = false → c.shared.count + outstanding (o.apply c t) ≤
        o.shared.count + outstanding c + made o) := by
  have htotal := Outcome.total_apply (o := o) Thread.markers hp
  have hzero : (o.spawned.map Thread.markers).sum = 0 := sum_map_eq_zero h.spawned
  have hm := h.markers
  have hc := h.count
  have happly : outstanding (o.apply c t) =
    o.shared.queuedMarkers + (o.apply c t).total Thread.markers := rfl
  have hself : outstanding c = c.shared.queuedMarkers + c.total Thread.markers := rfl
  exact ⟨by omega, fun hg => by have := hc hg; omega⟩

/-- Outside `worker_start` only live workers are counted as idle. -/
theorem idle_le_live (hs : Scoreboard tr c) (one : OneManager c) {v : ManagerVars} {x : ManagerPc}
    (hp : c.threads[t]? = some (.manager v x)) (hx : x.plain = true) :
    c.shared.idle ≤ c.number Thread.liveWorker := by
  rw [hs.idle]
  refine List.countP_mono_left fun r hr hi => ?_
  obtain ⟨u, hu⟩ := List.getElem?_of_mem hr
  cases r with
  | app k | call k _ => cases hi
  | overcommit => cases hi
  | worker v y => cases y <;> first | rfl | cases hi
  | manager v' y =>
    have := one.unique t u _ _ hp hu rfl rfl
    subst this
    rw [hp] at hu
    cases hu
    cases x <;> first | cases hi | cases hx

theorem live_le_count (hs : Scoreboard tr c) : c.number Thread.liveWorker ≤ c.shared.count := by
  rw [hs.count]
  refine List.countP_mono_left fun r _ hi => ?_
  cases r <;> first | exact hi | cases hi

namespace Steady

/-- A step of any thread but the manager. -/
private theorem other (hw : Steady c) (hp : c.threads[t]? = some p) (hnot : p.isManager = false)
    (h : Step S c.shared t p ch o) (ds : DrainStep c.shared p o) :
    Steady (o.apply c t) ∧ spare c ≤ spare (o.apply c t) := by
  have hup : p.givesUp = false := by
    cases p <;> first | rfl | cases hnot
  obtain ⟨hle, hcount⟩ := ds.outstanding_apply hp
  have hcov := hw.covered
  have hcount := hcount hup
  rw [made_eq_zero h hnot] at hle hcount
  have hspare : spare c ≤ spare (o.apply c t) := by
    change _ ≤ o.shared.count - _
    unfold spare
    omega
  refine ⟨⟨by change _ ≤ o.shared.count; omega, fun u v x hu => ?_⟩, hspare⟩
  obtain ⟨rfl, ho⟩ | ⟨_, hu⟩ | ⟨_, hu⟩ := Outcome.get_cases hp hu
  · have hpc := h.isManager_pc
    rw [← ho, hnot] at hpc
    cases hpc
  · obtain ⟨hv, he⟩ := hw.manager u v x hu
    exact ⟨hv, ManagerPc.expects_mono hspare hle he⟩
  · rcases h.spawned _ hu with he | he | he
    · cases he
    · cases he
    · cases he
      exact ⟨Nat.succ_pos 14, trivial⟩

/-- A step of the manager, after which `d` workers are without a marker. -/
private theorem self (hp : c.threads[t]? = some p) (one : OneManager (o.apply c t))
    (ds : DrainStep c.shared p o) {v : ManagerVars} {x : ManagerPc} (hpc : o.pc = .manager v x)
    {d : Nat} (hd : d + outstanding c + made o ≤ o.shared.count)
    (hk : v.keeps d (outstanding c + made o) x) (hone : 1 ≤ spare c → 1 ≤ d) :
    Steady (o.apply c t) ∧ (1 ≤ spare c → 1 ≤ spare (o.apply c t)) := by
  have hle := (ds.outstanding_apply hp).1
  have hspare : d ≤ spare (o.apply c t) := by
    change _ ≤ o.shared.count - _
    omega
  refine ⟨⟨by change _ ≤ o.shared.count; omega, fun u v' y hu => ?_⟩,
    fun h => Nat.le_trans (hone h) hspare⟩
  have hself := Outcome.get_self (o := o) hp
  have := one.unique t u _ _ hself hu (by rw [hpc]; rfl) rfl
  subst this
  rw [hself, hpc] at hu
  cases hu
  exact ⟨hk.1, ManagerPc.expects_mono hspare hle hk.2⟩

theorem step (hw : Steady c) (hs : Scoreboard tr c) (one : OneManager c)
    (one' : OneManager (o.apply c t)) (hp : c.threads[t]? = some p)
    (h : Step S c.shared t p ch o) (ds : DrainStep c.shared p o) (hmin : 1 ≤ S.workerMin)
    (hT : 1 ≤ S.workerIdleThreshold) (ok : ∀ code, ch = .ret code → p.creates = true → code = 0)
    (consumed : ∀ v, p = .manager v .top → outstanding c = 0) :
    Steady (o.apply c t) ∧ (1 ≤ spare c → 1 ≤ spare (o.apply c t)) := by
  have hfull : spare c + outstanding c = c.shared.count := Nat.sub_add_cancel hw.covered
  cases hm : p.isManager with
  | false =>
    obtain ⟨h₁, h₂⟩ := hw.other hp hm h ds
    exact ⟨h₁, fun h => Nat.le_trans h h₂⟩
  | true =>
    cases p with
    | manager v x =>
      obtain ⟨hv, he⟩ := hw.manager t v x hp
      have same := fun v' x' hpc hc hk => Steady.self (o := o) (v := v') (x := x') (d := spare c) hp one'
        ds hpc hc hk id
      cases h with
      | manager h =>
        cases h with
        | fault => exact same _ _ rfl (Nat.le_of_eq hfull) ⟨hv, he⟩
        | plain hq hx hx' hnext =>
          have hi := Nat.le_trans (idle_le_live hs one hp hx) (live_le_count hs)
          rw [← hfull] at hi
          obtain ⟨_, _, _, _, rfl⟩ := hq
          refine same _ _ rfl (Nat.le_of_eq hfull) ?_
          exact plain_keeps hnext hx hmin hT hi (fun h => consumed v (by rw [h])) ⟨hv, he⟩
        | @incCount r =>
          refine Steady.self (d := spare c + 1) hp one' ds rfl ?_ ⟨hv, rfl, ?_⟩ fun _ => Nat.le_add_left _ _
          · change spare c + 1 + outstanding c ≤ c.shared.count + 1
            omega
          · cases r with
            | none => exact Nat.le_add_left _ _
            | some i => exact Nat.succ_le_succ he.2
        | @created r =>
          refine same _ _ rfl (Nat.le_of_eq hfull) ⟨hv, ?_⟩
          cases r with
          | none => exact he.2
          | some i => exact minLoop_expects hmin he.2 (.inr (Nat.le_trans (Nat.le_add_left _ _) he.2))
        | createFailed hne => exact absurd (ok _ rfl rfl) hne
        | decIdle | decCount => cases he.1
        | alloc =>
          obtain ⟨him, htwo, hm⟩ := he
          refine Steady.self (d := spare c - 1) hp one' ds rfl ?_ ⟨hv, him, ?_, ?_⟩ ?_
          · change spare c - 1 + outstanding c + 1 ≤ c.shared.count
            omega
          · omega
          · omega
          · omega
        | unlockMtx =>
          obtain ⟨him, hone, hm⟩ := he
          refine same _ _ rfl (Nat.le_of_eq hfull) ⟨hv, ?_⟩
          exact stopLoop_expects hone (fun _ hi => absurd hi (Nat.succ_ne_zero _)) hm
        | atomicOr _ hx =>
          subst hx
          refine same _ _ rfl (Nat.le_of_eq hfull) ⟨hv, ?_⟩
          split <;> exact he
        | _ => exact same _ _ rfl (Nat.le_of_eq hfull) ⟨hv, he⟩
    | _ => cases hm

end Steady

/-- Every `pthread_create` succeeds, and exit markers are consumed in time. -/
def Prompt (c : PoolState) (l : Tid × Choice) : Prop :=
  createsSucceed c l = true ∧ markersConsumed c l = true

theorem outstanding_initial (users : Nat) : outstanding (initial users 0) = 0 := by
  refine Nat.add_eq_zero_iff.mpr ⟨rfl, List.sum_eq_zero ?_⟩
  simp [initial, List.mem_replicate, Thread.markers, Thread.fresh, Thread.leaving, Thread.held, weight]

theorem initial_no_manager {v : ManagerVars} {x : ManagerPc} :
    (initial users 0).threads[t]? ≠ some (.manager v x) := by
  intro hp
  have := List.mem_of_getElem? hp
  simp [initial, List.mem_replicate] at this

private theorem steady_initial (users : Nat) : Steady (initial users 0) :=
  ⟨by rw [outstanding_initial]; exact Nat.zero_le _, fun _ _ _ hp => absurd hp initial_no_manager⟩

private theorem steady_step {l : Tid × Choice} (hmin : 1 ≤ S.workerMin)
    (hT : 1 ≤ S.workerIdleThreshold) (hrun : Machine.Run (program S) Prompt (initial users 0) tr c)
    (hw : Steady c) (hg : Prompt c l) (mv : (program S).Moves c l o p) :
    Steady (o.apply c l.1) ∧ (1 ≤ spare c → 1 ≤ spare (o.apply c l.1)) := by
  have hs := (program_step mv.next).2
  have ds := drain_step (masks hrun) (registry hrun) (scoreboard hrun) mv.here
    (markerOk hrun _ _ mv.here) hs
  have one := oneManager hrun
  refine hw.step (scoreboard hrun) one (one.apply (disciplined hrun) mv.here (birth_step hs)) mv.here hs ds
    hmin hT (createsSucceed_ret hg.1 mv.here) ?_
  rintro v rfl
  simpa [markersConsumed, mv.here] using hg.2

theorem steady (hmin : 1 ≤ S.workerMin) (hT : 1 ≤ S.workerIdleThreshold)
    (h : Machine.Run (program S) Prompt (initial users 0) tr c) : Steady c :=
  h.invariant (fun _ c => Steady c) (steady_initial users)
    fun _ _ _ _ _ hrun hw hg mv => (steady_step hmin hT hrun hw hg mv).1

/-- The pool does not drain on a machine with `cpu` processors whose environment says nothing
about the pool's size: once the manager has started its minimum workers, `count` stays positive. -/
def PoolSurvives (cpu : Nat) : Prop :=
  ∀ (e : Environment) (users : Nat) (tr₁ tr₂ : List Event) (c₁ c : PoolState),
    e.pwqWmin = none → e.pwqActiveCpu = 0 → e.threadEntitledCpus = cpu →
    Machine.Run (program e.settings) Prompt (initial users 0) tr₁ c₁ →
    (∃ (t : Tid) (v : ManagerVars), c₁.threads[t]? = some (.manager v .top)) →
    Machine.Run (program e.settings) Prompt c₁ tr₂ c → 1 ≤ c.shared.count

theorem workerIdleThresholdPerCpu_pos {cpu : Nat} (h : 1 ≤ cpu) (hne : cpu ≠ 3) :
    1 ≤ workerIdleThresholdPerCpu cpu := by
  by_cases hsmall : cpu < 4
  · obtain rfl | rfl : cpu = 1 ∨ cpu = 2 := by omega
    all_goals decide
  · unfold workerIdleThresholdPerCpu
    split <;> omega

theorem pool_survives {cpu : Nat} (h : 1 ≤ cpu) (hne : cpu ≠ 3) : PoolSurvives cpu := by
  intro e users tr₁ tr₂ c₁ c hwmin hactive hcpu hrun htop hrun'
  have hmin : 1 ≤ e.settings.workerMin := by
    simp only [Environment.settings, hwmin, hactive, hcpu, Option.getD_none, Nat.lt_irrefl, if_false]
    split
    · exact h
    · decide
  have hT : 1 ≤ e.settings.workerIdleThreshold := by
    have := workerIdleThresholdPerCpu_pos h hne
    simpa [Environment.settings, hactive, hcpu] using this
  have hspare : 1 ≤ spare c := by
    refine hrun'.invariant (fun _ c => 1 ≤ spare c) ?_ ?_
    · obtain ⟨t, v, ht⟩ := htop
      exact ((steady hmin hT hrun).manager t v _ ht).2
    · intro tr c l p o hr hs hg mv
      have hall := hrun.append hr
      exact (steady_step hmin hT hall (steady hmin hT hall) hg mv).2 hs
  exact Nat.le_trans hspare (Nat.sub_le _ _)

/-! The machine with three processors, whose idle threshold is zero -/

/-- Three workers go to sleep; a tick stops each of them in turn. -/
def drainSchedule : List (Tid × Choice) :=
  steps 2 7 ++ steps 3 7 ++ steps 4 7 ++
    (List.replicate 4 (idleTick 1)).flatten ++ stopTick 1 2 ++ steps 2 13 ++
    (List.replicate 7 (idleTick 1)).flatten ++ stopTick 1 3 ++ steps 3 13 ++
    (List.replicate 14 (idleTick 1)).flatten ++ stopTick 1 4 ++ steps 4 14

theorem pool_drains : ¬ PoolSurvives 3 := by
  intro claim
  have prompt : ∀ {c₀ : PoolState} {tr : List Event} {c : PoolState},
      Machine.Run (program ⟨3, 3, 0, 0, false⟩)
        (fun c l => (createsSucceed c l && markersConsumed c l) = true) c₀ tr c →
      Machine.Run (program ⟨3, 3, 0, 0, false⟩) Prompt c₀ tr c :=
    fun h => h.weaken fun _ _ hg => Bool.and_eq_true_iff.mp hg
  obtain ⟨tr₁, c₁, hrun, hP⟩ := Machine.exists_run (M := program ⟨3, 3, 0, 0, false⟩)
    (g := fun c l => createsSucceed c l && markersConsumed c l) (c := initial 1 0)
    (createFirst 0 0 ++ [(1, .value 100), (1, .value 0)] ++
      startWorker 1 ++ startWorker 1 ++ startWorker 1)
    (fun r => decide (r.1.threads[1]? = some (Thread.manager ⟨100, 0, 0, 0⟩ .top)) &&
      ((program ⟨3, 3, 0, 0, false⟩).exec (fun c l => createsSucceed c l && markersConsumed c l)
        r.1 drainSchedule).any fun r : PoolState × List Event => r.1.shared.count == 0)
    (by decide +kernel)
  obtain ⟨htop, hdrain⟩ := Bool.and_eq_true_iff.mp hP
  obtain ⟨tr₂, c, hrun', hcount⟩ := Machine.exists_run drainSchedule _ hdrain
  have := claim ⟨false, 0, 0, none, 3⟩ 1 tr₁ tr₂ c₁ c rfl rfl rfl (prompt hrun)
    ⟨1, _, of_decide_eq_true htop⟩ (prompt hrun')
  simp only [beq_iff_eq] at hcount
  omega

/-- The pool survives on every machine but the one with three processors. -/
theorem pool_survives_iff (cpu : Nat) (h : 1 ≤ cpu) : PoolSurvives cpu ↔ cpu ≠ 3 := by
  constructor
  · rintro hs rfl
    exact pool_drains hs
  · exact pool_survives h

theorem pool_survives_on_four : 1 ≤ 4 ∧ PoolSurvives 4 :=
  ⟨by decide, (pool_survives_iff 4 (by decide)).mpr (by decide)⟩

/-- With three processors the idle threshold is zero, and three markers empty the pool. -/
theorem pool_drains_on_three : ¬ ∀ cpu, 1 ≤ cpu → PoolSurvives cpu :=
  fun claim => pool_drains (claim 3 (by decide))

end PthreadWorkqueue.Posix
