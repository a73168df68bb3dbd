import PthreadWorkqueue.Posix.RampDown

/-! The size of the pool from above. Only the manager starts workers, and each of the tests behind
which it does so bounds the pool: by a limit, or by a call of `manager_signal`. -/
namespace PthreadWorkqueue.Posix
open Concurrency

namespace Thread

/-- About to increment `about_to_wait`. -/
def signals : Thread → Bool
  | .call _ .signalInc => true
  | _ => false

/-- In the branch that answers a signal, about to decrement `about_to_wait`. -/
def answers : Thread → Bool
  | .manager _ .decAbout => true
  | _ => false

end Thread

/-- The increments of `about_to_wait` among some steps. -/
def signals (as : List PoolAct) : Nat := as.countP fun a => a.pc.signals

/-- How often the manager took the branch of `about_to_wait` among some steps. -/
def answers (as : List PoolAct) : Nat := as.countP fun a => a.pc.answers

/-- What a step does to `about_to_wait`. -/
structure AboutStep (sh : Shared) (p : Thread) (o : Out) : Prop where
  about : o.shared.aboutToWait = if p.signals then atomicIncUnsigned sh.aboutToWait
    else if p.answers then atomicDec sh.aboutToWait else sh.aboutToWait
  read : o.pc.answers = true → sh.aboutToWait ≠ 0 ∧ p.answers = false ∧ p.signals = false

variable {S : Settings} {sh : Shared} {t : Tid} {p : Thread} {ch : Choice} {o : Out}
  {c : PoolState} {v v' : ManagerVars} {x x' : ManagerPc}

private theorem call_about {k : Caller} {y : Call} (hy : y.plain = true)
    (h : callNext sh t k y ch = some o) : AboutStep sh (.call k y) o := by
  cases y <;> cases hy <;> cases ch <;>
    simp only [callNext, goTo, emit, reduceCtorEq, Option.some.injEq] at h
  case createCheck attr => split at h <;> (cases h; exact ⟨rfl, fun ha => by cases ha⟩)
  case suspendRead | resumeRead =>
    cases h
    refine ⟨rfl, fun ha => ?_⟩
    split at ha <;> cases ha
  all_goals
    cases h
    exact ⟨rfl, fun ha => by cases ha⟩

@[simp] theorem minLoop_answers (i : Nat) : (Thread.manager v (minLoop S i)).answers = false := by
  unfold minLoop; split <;> rfl

@[simp] theorem startReturn_answers (r : Option Nat) :
    (Thread.manager v (startReturn S r)).answers = false := by
  cases r
  · rfl
  · exact minLoop_answers _

@[simp] theorem stopLoop_answers (i m : Nat) : (Thread.manager v (stopLoop i m)).answers = false := by
  unfold stopLoop; split <;> rfl

@[simp] theorem rampStart_answers : (Thread.manager v' (rampStart v)).answers = false := by
  unfold rampStart; split <;> rfl

private theorem manager_about (hx : x.plain = true)
    (h : managerNext S sh t v x ch = some o) : AboutStep sh (.manager v x) o := by
  cases x <;> cases hx <;> cases ch <;> simp only [managerNext, managerSleep, managerSpawn,
    managerRamp, goTo, reduceCtorEq, Option.some.injEq] at h
  case readAbout =>
    split at h <;> cases h
    · exact ⟨rfl, fun _ => ⟨‹_›, rfl, rfl⟩⟩
    · exact ⟨rfl, fun ha => by cases ha⟩
  all_goals (repeat' split at h)
  all_goals cases h
  all_goals
    refine ⟨rfl, fun ha => ?_⟩
    first
      | (simp only [minLoop_answers, stopLoop_answers, rampStart_answers, Bool.false_eq_true] at ha; done)
      | cases ha

theorem about_step (hs : program S sh t p ch = some o) : AboutStep sh p o := by
  have h := (program_step hs).2
  have fn := hs
  simp only [program, (program_step hs).1, if_true] at fn
  cases h with
  | app h => cases h <;> exact ⟨rfl, fun ha => by cases ha⟩
  | @call k y _ _ h =>
    cases hy : y.plain with
    | true => exact call_about hy fn
    | false =>
      cases h with
      | quiet _ hc | quietReturn _ hc | error hc => rw [hc] at hy; cases hy
      | fault => cases y <;> first | exact ⟨rfl, fun ha => by cases ha⟩ | cases hy
      | _ => exact ⟨rfl, fun ha => by cases ha⟩
  | worker h =>
    cases h with
    | exitFree | free =>
      obtain ⟨_, _, he⟩ := witemFree_eq sh ‹Work›
      rw [he]
      exact ⟨rfl, fun ha => by cases ha⟩
    | _ => exact ⟨rfl, fun ha => by cases ha⟩
  | overcommit h =>
    cases h with
    | free =>
      obtain ⟨_, _, he⟩ := witemFree_eq sh ‹Work›
      rw [he]
      exact ⟨rfl, fun ha => by cases ha⟩
    | _ => exact ⟨rfl, fun ha => by cases ha⟩
  | @manager v x _ _ h =>
    cases hx : x.plain with
    | true => exact manager_about hx fn
    | false =>
      cases h with
      | plain _ hp => rw [hp] at hx; cases hx
      | fault => cases x <;> first | exact ⟨rfl, fun ha => by cases ha⟩ | cases hx
      | created | decCount | unlockMtx => exact ⟨rfl, fun ha => by simp at ha⟩
      | _ => exact ⟨rfl, fun ha => by cases ha⟩

/-- Only the manager makes the pool larger. -/
theorem count_le_step (h : Step S sh t p ch o) (hp : p.isManager = false)
    (hc : p.counted.toNat ≤ sh.count) : o.shared.count ≤ sh.count := by
  cases h with
  | app h => cases h <;> exact Nat.le_refl _
  | call h =>
    cases h with
    | quiet hq | quietReturn hq => obtain ⟨_, _, _, _, rfl⟩ := hq; exact Nat.le_refl _
    | _ => exact Nat.le_refl _
  | worker h =>
    cases h with
    | exitDecCount => exact Nat.le_of_succ_le (Nat.le_of_eq (atomicDec_add_one hc))
    | exitFree | free =>
      obtain ⟨_, _, he⟩ := witemFree_eq sh ‹Work›
      rw [he]
    | _ => exact Nat.le_refl _
  | overcommit h =>
    cases h with
    | free =>
      obtain ⟨_, _, he⟩ := witemFree_eq sh ‹Work›
      rw [he]
    | _ => exact Nat.le_refl _
  | manager h => cases hp

/-! What the manager knows about the size of the pool -/

/-- The largest pool that the limits of the manager allow. -/
def Settings.ceiling (S : Settings) (v : ManagerVars) : Nat :=
  max (max S.workerMin S.workerIdleThreshold) v.workerMax

/-- Past the increment of `count` in `worker_start`. -/
def StartPc.entered : StartPc → Bool
  | .incPending | .incIdle | .incCount => false
  | .create | .decIdle | .decCount => true

/-- What the manager can rely on at each point: `n` workers, and a limit of `m`. -/
def ManagerPc.fits (S : Settings) (m n : Nat) : ManagerPc → Prop
  | .begin | .beginRunqueue => n = 0
  | .start (some i) p => i < S.workerMin ∧ n ≤ i + p.entered.toNat
  | .start none p => n + 1 ≤ m + p.entered.toNat
  | .runnable | .runqueue | .readIdleAgain => n + 1 ≤ m
  | _ => n ≤ m

theorem ManagerPc.fits_mono {m m' n n' : Nat} (hm : m ≤ m') (hn : n' ≤ n) (h : x.fits S m n) :
    x.fits S m' n' := by
  cases x with
  | start r x =>
    cases r with
    | none => exact Nat.le_trans (Nat.succ_le_succ hn) (Nat.le_trans h (Nat.add_le_add_right hm _))
    | some i => exact ⟨h.1, Nat.le_trans hn h.2⟩
  | begin | beginRunqueue => exact Nat.le_zero.mp (Nat.le_trans hn (Nat.le_of_eq h))
  | runnable | runqueue | readIdleAgain =>
    exact Nat.le_trans (Nat.succ_le_succ hn) (Nat.le_trans h hm)
  | _ => exact Nat.le_trans hn (Nat.le_trans h hm)

theorem ManagerPc.fits_le {m n : Nat} (hm : S.workerMin ≤ m) (h : x.fits S m n) : n ≤ m := by
  cases x with
  | start r x =>
    cases r with
    | none =>
      have hle : n + 1 ≤ m + x.entered.toNat := h
      have := Bool.toNat_le x.entered
      omega
    | some i =>
      obtain ⟨hi, hle⟩ := h
      have := Bool.toNat_le x.entered
      omega
  | begin | beginRunqueue => exact Nat.le_trans (Nat.le_of_eq h) (Nat.zero_le m)
  | runnable | runqueue | readIdleAgain => exact Nat.le_of_succ_le h
  | _ => exact h

theorem minLoop_fits {m n i : Nat} (hm : S.workerMin ≤ m) (hi : i ≤ S.workerMin) (h : n ≤ i) :
    (minLoop S i).fits S m n := by
  unfold minLoop
  split
  · exact ⟨by assumption, h⟩
  · exact Nat.le_trans h (Nat.le_trans hi hm)

theorem startReturn_fits {m n : Nat} {r : Option Nat} {y : StartPc} (hm : S.workerMin ≤ m)
    (hy : y.entered = true) (h : (ManagerPc.start r y).fits S m n) :
    (startReturn S r).fits S m n := by
  cases r with
  | none =>
    have hle : n + 1 ≤ m + y.entered.toNat := h
    rw [hy] at hle
    exact Nat.le_of_succ_le_succ hle
  | some i =>
    obtain ⟨hi, hle⟩ := h
    rw [hy] at hle
    exact minLoop_fits hm hi hle

theorem stopLoop_fits {m n i k : Nat} (h : n ≤ m) : (stopLoop i k).fits S m n := by
  unfold stopLoop
  split <;> exact h

theorem rampStart_fits {m n : Nat} {w : ManagerVars} (h : n ≤ m) : (rampStart w).fits S m n := by
  unfold rampStart
  split <;> exact h

/-- Outside `worker_start` and `worker_stop` a step of the manager leaves the pool as it is, and its
tests are what the next point relies on. -/
private theorem plain_fits {sh' : Shared} {b : Nat}
    (h : managerNext S sh t v x ch = some ⟨sh', .manager v' x', [], []⟩) (hx : x.plain = true)
    (hf : x.fits S (S.ceiling v + b) sh.count) :
    sh'.count = sh.count ∧
      x'.fits S (S.ceiling v' + (b + (Thread.manager v x).answers.toNat)) sh.count := by
  have hT : S.workerIdleThreshold ≤ S.ceiling v :=
    Nat.le_trans (Nat.le_max_right _ _) (Nat.le_max_left _ _)
  have hmax : v.workerMax ≤ S.ceiling v := Nat.le_max_right _ _
  cases x <;> cases hx <;> cases ch <;> simp only [managerNext, managerSleep, managerSpawn,
    managerRamp, goTo, reduceCtorEq, Option.some.injEq] at h
  case begin.refl.value => cases h; exact ⟨rfl, hf⟩
  case beginRunqueue.refl.value =>
    cases h
    have hmin : S.workerMin ≤ S.ceiling v :=
      Nat.le_trans (Nat.le_max_left _ _) (Nat.le_max_left _ _)
    exact ⟨rfl, minLoop_fits (Nat.le_add_right_of_le hmin) (Nat.zero_le _) (Nat.le_of_eq hf)⟩
  case decAbout.refl.go => cases h; exact ⟨rfl, Nat.succ_le_succ hf⟩
  case readThreshold.refl.go =>
    split at h <;> cases h
    · exact ⟨rfl, by change sh.count + 1 ≤ S.ceiling v + b + 0; omega⟩
    · exact ⟨rfl, hf⟩
  case readMax.refl.go =>
    split at h <;> cases h
    · exact ⟨rfl, by change sh.count + 1 ≤ S.ceiling v + b; omega⟩
    · exact ⟨rfl, hf⟩
  case readIdle.refl.go | readCount.refl.go | readPending.refl.go =>
    split at h <;> cases h
    · exact ⟨rfl, hf⟩
    · exact ⟨rfl, rampStart_fits hf⟩
  case rampSurplus.refl.go => cases h; exact ⟨rfl, stopLoop_fits hf⟩
  case stopRead.refl.go =>
    split at h <;> cases h
    · exact ⟨rfl, hf⟩
    · exact ⟨rfl, stopLoop_fits hf⟩
  all_goals (repeat' split at h)
  all_goals cases h
  all_goals first
    | exact ⟨rfl, hf⟩
    | exact ⟨rfl, Nat.le_of_succ_le hf⟩

private theorem manager_fits {b : Nat} (h : ManagerStep S sh t v x ch o)
    (hf : x.fits S (S.ceiling v + b) sh.count) (hc : (Thread.manager v x).counted.toNat ≤ sh.count)
    (ho : o.pc = .manager v' x') :
    x'.fits S (S.ceiling v' + (b + (Thread.manager v x).answers.toNat)) o.shared.count := by
  have hmin : S.workerMin ≤ S.ceiling v + b :=
    Nat.le_add_right_of_le (Nat.le_trans (Nat.le_max_left _ _) (Nat.le_max_left _ _))
  cases h with
  | fault =>
    cases ho
    exact ManagerPc.fits_mono (by omega) (Nat.le_refl _) hf
  | plain _ hx _ h =>
    cases ho
    obtain ⟨hcount, hf'⟩ := plain_fits h hx hf
    exact hcount ▸ hf'
  | @incCount r =>
    cases ho
    cases r with
    | none => exact Nat.succ_le_succ hf
    | some i => exact ⟨hf.1, Nat.succ_le_succ hf.2⟩
  | @incPending r | @incIdle r | @createFailed r | @decIdle r => cases ho; cases r <;> exact hf
  | created => cases ho; exact startReturn_fits (y := .create) hmin rfl hf
  | decCount =>
    cases ho
    exact startReturn_fits (y := .decCount) hmin rfl (ManagerPc.fits_mono (Nat.le_refl _)
      (Nat.le_of_succ_le (Nat.le_of_eq (atomicDec_add_one hc))) hf)
  | unlockMtx => cases ho; exact stopLoop_fits hf
  | _ => cases ho; exact hf

/-- What holds of the pool and of `about_to_wait` after some steps. -/
structure Capped (S : Settings) (as : List PoolAct) (c : PoolState) : Prop where
  answered : answers as ≤ signals as
  about : c.shared.aboutToWait = (signals as - answers as) % 2 ^ 32
  decides : ∀ (t : Tid) (p : Thread), c.threads[t]? = some p → p.answers = true →
    answers as < signals as
  manager : ∀ (t : Tid) (v : ManagerVars) (x : ManagerPc), c.threads[t]? = some (.manager v x) →
    x.fits S (S.ceiling v + answers as) c.shared.count
  alone : (∀ (t : Tid) (p : Thread), c.threads[t]? = some p → p.isManager = false) →
    c.shared.count = 0

theorem signals_concat (as : List PoolAct) (a : PoolAct) :
    signals (as ++ [a]) = signals as + a.pc.signals.toNat := by
  rw [signals, List.countP_append, countP_singleton_toNat]
  rfl

theorem answers_concat (as : List PoolAct) (a : PoolAct) :
    answers (as ++ [a]) = answers as + a.pc.answers.toNat := by
  rw [answers, List.countP_append, countP_singleton_toNat]
  rfl

theorem Thread.isManager_of_answers (h : p.answers = true) : p.isManager = true := by
  cases p <;> first | rfl | cases h

theorem atomicDec_mod {n : Nat} (h : 0 < n) : atomicDec (n % 2 ^ 32) = (n - 1) % 2 ^ 32 := by
  unfold atomicDec
  split <;> omega

/-- A manager after a step of another thread was there before, or the step has started the first. -/
theorem manager_before (hp : c.threads[t]? = some p) (hnot : p.isManager = false)
    (one : OneManager (o.apply c t)) (hs : Step S c.shared t p ch o) {u : Tid} {r : Thread}
    (hu : (o.apply c t).threads[u]? = some r) (hr : r.isManager = true) :
    c.threads[u]? = some r ∨
      (∀ (x : Tid) (y : Thread), c.threads[x]? = some y → y.isManager = false) ∧ r = .managerMain := by
  obtain ⟨-, rfl⟩ | ⟨-, hu'⟩ | ⟨hge, hr'⟩ := Outcome.get_cases hp hu
  · rw [hs.isManager_pc, hnot] at hr
    cases hr
  · exact .inl hu'
  · refine .inr ⟨fun x y hx => Bool.eq_false_iff.mpr fun hy => ?_, ?_⟩
    · have hxt : x ≠ t := by
        rintro rfl
        rw [hp] at hx
        cases hx
        rw [hnot] at hy
        cases hy
      have hlt := (List.getElem?_eq_some_iff.mp hx).1
      have hux : u = x := one.unique u x r y hu (Outcome.get_other hxt hx) hr hy
      exact absurd (hux ▸ hlt) (Nat.not_lt.mpr hge)
    · rcases hs.spawned r hr' with rfl | rfl | rfl
      · cases hr
      · cases hr
      · rfl

namespace Capped
variable {as : List PoolAct}

/-- A step of another thread than the manager. -/
private theorem other (hc : Capped S as c) (hp : c.threads[t]? = some p) (hnot : p.isManager = false)
    (one : OneManager (o.apply c t)) (hs : Step S c.shared t p ch o) (ha : AboutStep c.shared p o)
    (hle : p.counted.toNat ≤ c.shared.count) :
    Capped S (as ++ [⟨t, c.shared, p, ch⟩]) (o.apply c t) := by
  have hcount := count_le_step hs hnot hle
  have hpans : p.answers = false :=
    Bool.eq_false_iff.mpr fun h => by rw [Thread.isManager_of_answers h] at hnot; cases hnot
  have hans : answers (as ++ [⟨t, c.shared, p, ch⟩]) = answers as := by
    rw [answers_concat, hpans]
    rfl
  have hsig := signals_concat as ⟨t, c.shared, p, ch⟩
  have hanswered := hc.answered
  refine ⟨by omega, ?_, fun u r hu hr => ?_, fun u v x hu => ?_, fun none => ?_⟩
  · change o.shared.aboutToWait = _
    rw [ha.about, hpans, hans, hsig, hc.about]
    cases hps : p.signals with
    | false => rfl
    | true =>
      simp only [atomicIncUnsigned, if_true, Bool.toNat_true, Nat.mod_add_mod]
      congr 1
      omega
  · rcases manager_before hp hnot one hs hu (Thread.isManager_of_answers hr) with hu | ⟨-, rfl⟩
    · have := hc.decides u r hu hr
      omega
    · cases hr
  · rw [hans]
    rcases manager_before hp hnot one hs hu rfl with hu | ⟨none, he⟩
    · exact ManagerPc.fits_mono (Nat.le_refl _) hcount (hc.manager u v x hu)
    · cases he
      exact Nat.le_zero.mp (Nat.le_trans hcount (Nat.le_of_eq (hc.alone none)))
  · have before := Outcome.forall_before hp (fun _ => hnot) none
    exact Nat.le_zero.mp (Nat.le_trans hcount (Nat.le_of_eq (hc.alone before)))

/-- A step of the manager. -/
private theorem self (hc : Capped S as c) (hp : c.threads[t]? = some (.manager v x))
    (one : OneManager c) (hs : ManagerStep S c.shared t v x ch o)
    (ha : AboutStep c.shared (.manager v x) o)
    (hle : (Thread.manager v x).counted.toNat ≤ c.shared.count) :
    Capped S (as ++ [⟨t, c.shared, .manager v x, ch⟩]) (o.apply c t) := by
  have hout : o.pc.isManager = true := Step.isManager_pc (.manager hs)
  have hfresh : ∀ r ∈ o.spawned, r.isManager = false := by
    intro r hr
    cases hs with
    | created =>
      rw [List.mem_singleton.mp hr]
      rfl
    | _ => cases hr
  have hsig : signals (as ++ [⟨t, c.shared, .manager v x, ch⟩]) = signals as := signals_concat _ _
  have hans := answers_concat as ⟨t, c.shared, .manager v x, ch⟩
  -- the manager after the step is the one that has taken it
  have only : ∀ (u : Tid) (r : Thread), (o.apply c t).threads[u]? = some r → r.isManager = true →
      r = o.pc := by
    intro u r hu hr
    obtain ⟨-, rfl⟩ | ⟨hne, hu'⟩ | ⟨-, hr'⟩ := Outcome.get_cases hp hu
    · rfl
    · exact absurd (one.unique u t r _ hu' hp hr rfl) hne
    · rw [hfresh r hr'] at hr
      cases hr
  have hlt : (Thread.manager v x).answers = true → answers as < signals as := hc.decides t _ hp
  have hanswered := hc.answered
  have hle' : answers as + (Thread.manager v x).answers.toNat ≤ signals as := by
    cases hx : (Thread.manager v x).answers with
    | false => exact hanswered
    | true => exact hlt hx
  refine ⟨by rw [hans, hsig]; exact hle', ?_, fun u r hu hr => ?_, fun u w y hu => ?_, fun none => ?_⟩
  · change o.shared.aboutToWait = _
    rw [ha.about, hans, hsig, hc.about]
    cases hx : (Thread.manager v x).answers with
    | false => rfl
    | true =>
      have := hlt hx
      rw [if_neg (by exact Bool.false_ne_true), if_pos rfl, atomicDec_mod (by omega)]
      congr 1
  · have hread := ha.read (only u r hu (Thread.isManager_of_answers hr) ▸ hr)
    rw [hans, hread.2.1, hsig]
    have hne := hread.1
    rw [hc.about] at hne
    rw [Bool.toNat_false]
    by_contra hge
    exact hne (by rw [Nat.sub_eq_zero_of_le (by omega), Nat.zero_mod])
  · rw [hans]
    exact manager_fits hs (hc.manager t v x hp) hle (only u _ hu rfl).symm
  · rw [none t o.pc (Outcome.get_self hp)] at hout
    cases hout

end Capped

variable {G : PoolState → Nat × Choice → Prop} {users : Nat} {as : List PoolAct}

theorem capped (h : Machine.Run (program S).acts G (initial users 0) as c) : Capped S as c := by
  refine (h.acts_invariant (Capped S) ?_ ?_).1
  · refine ⟨Nat.le_refl _, rfl, fun t p hp ha => ?_, fun _ _ _ hp => absurd hp initial_no_manager,
      fun _ => rfl⟩
    obtain rfl | rfl := initial_threads hp <;> cases ha
  · intro tr as c l p o hrun hc _ mv
    have hs := (program_step mv.next).2
    have ha := about_step mv.next
    have hle := ((scoreboard hrun).le mv.here).1
    have one := oneManager hrun
    cases hp : p.isManager with
    | false =>
      exact hc.other mv.here hp (one.apply (disciplined hrun) mv.here (birth_step hs)) hs ha hle
    | true =>
      cases hs with
      | manager hs => exact hc.self mv.here one hs ha hle
      | _ => cases hp

/-- The pool never outgrows the largest of the manager's three limits by more than the calls of
`manager_signal`, each of which pays for one worker at most. The calls that are not answered yet are
`about_to_wait`, as far as 32 bits can tell; while they are fewer than 2^32 the counter is exact, and
no decrement finds zero. -/
theorem worker_ceiling (S : Settings) (users : Nat) (as : List PoolAct) (c : PoolState)
    (h : Machine.Free (program S).acts (initial users 0) as c) :
    ((∀ p ∈ c.threads, p.isManager = false) → c.shared.count = 0) ∧
    (∀ (t : Tid) v x, c.threads[t]? = some (Thread.manager v x) → c.shared.count ≤
      max (max S.workerMin S.workerIdleThreshold) v.workerMax + signals as) ∧
    answers as ≤ signals as ∧
    c.shared.aboutToWait = (signals as - answers as) % 2 ^ 32 ∧
    (signals as < answers as + 2 ^ 32 → signals as = c.shared.aboutToWait + answers as ∧
      ∀ p ∈ c.threads, p.answers = true → 0 < c.shared.aboutToWait) := by
  have hc := capped h
  have hanswered := hc.answered
  refine ⟨fun none => hc.alone fun t p hp => none p (List.mem_of_getElem? hp), fun t v x hp => ?_,
    hanswered, hc.about, fun few => ?_⟩
  · have hmin : S.workerMin ≤ S.ceiling v + answers as :=
      Nat.le_add_right_of_le (Nat.le_trans (Nat.le_max_left _ _) (Nat.le_max_left _ _))
    calc c.shared.count
      _ ≤ S.ceiling v + answers as := ManagerPc.fits_le hmin (hc.manager t v x hp)
      _ ≤ S.ceiling v + signals as := Nat.add_le_add_left hanswered _
  · have habout := hc.about
    rw [Nat.mod_eq_of_lt (by omega)] at habout
    refine ⟨by omega, fun p hp ha => ?_⟩
    obtain ⟨t, ht⟩ := List.getElem?_of_mem hp
    have := hc.decides t p ht ha
    omega

/-- With a limit of one worker, a signal lets the manager start the second. -/
theorem worker_ceiling_of_two : ∃ as c,
    Machine.Free (program ⟨1, 1, 1, 0, false⟩).acts (initial 1 0) as c ∧ signals as = 1 ∧
      answers as = 1 ∧ c.shared.count = 2 ∧ c.shared.count ≤ max (max 1 1) 1 + signals as ∧
      signals as = c.shared.aboutToWait + answers as := by
  obtain ⟨as, c, hrun, hP⟩ := Machine.exists_run (M := (program ⟨1, 1, 1, 0, false⟩).acts)
    (g := fun _ _ => true) (c := initial 1 0)
    (createFirst 0 0 ++ [(1, .value 1), (1, .value 0)] ++ startWorker 1 ++
      [(0, .request (.additem 0 (some 7) 70))] ++ steps 0 8 ++ steps 2 10 ++ steps 0 1 ++
      [(0, .request .signal)] ++ steps 0 3 ++ [(1, .go), (1, .ret 0)] ++ steps 1 8)
    (fun r => decide (signals r.2 = 1 ∧ answers r.2 = 1 ∧ r.1.shared.count = 2 ∧
      r.1.threads[1]? = some (Thread.manager ⟨1, 0, 0, 0⟩ (.start none .create)))) (by decide +kernel)
  obtain ⟨hs, ha, hcount, hm⟩ := of_decide_eq_true hP
  obtain ⟨-, hle, -, -, hexact⟩ := worker_ceiling _ _ as c hrun.free
  have few : signals as < answers as + 2 ^ 32 := by
    rw [show signals as = 1 from hs, show answers as = 1 from ha]
    decide
  exact ⟨as, c, hrun.free, hs, ha, hcount, hle 1 _ _ hm, (hexact few).1⟩

/-- A user calls `manager_signal` while there is no manager to answer. -/
private theorem signal_runs (S : Settings) (n : Nat) : ∃ as : List PoolAct,
    Machine.Free (program S).acts (initial 1 0) as
      ⟨{ managerInit with aboutToWait := n % 2 ^ 32, sbSem := min n semValueMax }, [.app .user]⟩ ∧
    signals as = n ∧ answers as = 0 := by
  induction n with
  | zero => exact ⟨[], .start, rfl, rfl⟩
  | succ n ih =>
    obtain ⟨as, hrun, hs, ha⟩ := ih
    have hmod : (n + 1) % 2 ^ 32 = atomicIncUnsigned (n % 2 ^ 32) := by
      simp only [atomicIncUnsigned, Nat.mod_add_mod]
    rw [hmod, ← semPost_min]
    have hexec := Machine.exec_run (show (program S).acts.exec (fun _ _ => true)
      ⟨{ managerInit with aboutToWait := n % 2 ^ 32, sbSem := min n semValueMax }, [.app .user]⟩
      ([(0, .request .signal)] ++ steps 0 3) = some (_, _) from rfl)
    refine ⟨_, hrun.append hexec.free, ?_, ?_⟩
    · rw [signals, List.countP_append]
      exact congrArg (· + 1) hs
    · rw [answers, List.countP_append]
      exact ha

/-- After 2^32 calls the counter is back at zero, and none of them was answered. -/
theorem signals_wrap : ¬ ∀ (S : Settings) (users : Nat) (as : List PoolAct) (c : PoolState),
    Machine.Free (program S).acts (initial users 0) as c →
      signals as = c.shared.aboutToWait + answers as := by
  intro claim
  obtain ⟨as, hrun, hs, ha⟩ := signal_runs ⟨1, 1, 1, 0, false⟩ (2 ^ 32)
  have := claim _ _ as _ hrun
  rw [hs, ha] at this
  exact absurd this (by decide)

end PthreadWorkqueue.Posix
