import PthreadWorkqueue.Posix.RampDown
import PthreadWorkqueue.Posix.Wakeup

/-! The suspended manager: what `manager_suspend`, `manager_resume`, `manager_signal` and the
workers owe to a manager in the untimed `sem_wait`. -/
namespace PthreadWorkqueue.Posix
open Concurrency

namespace Thread

/-- Between the store that clears `sb_suspend` and the `sem_post` that follows it. -/
def posting : Thread → Bool
  | .call _ c => match c with
    | .resumePost | .signalInc | .signalPost => true
    | _ => false
  | _ => false

/-- At or in the untimed `sem_wait`. -/
def untimed : Thread → Bool
  | .manager _ .semWait => true
  | _ => false

end Thread

/-- What a step does to `sb_suspend` and to the semaphore. -/
inductive SuspendStep (sh : Shared) (p : Thread) (o : Out) : Prop where
  | keep : o.shared.sbSuspend = sh.sbSuspend → sh.sbSem ≤ o.shared.sbSem →
      (p.posting = false ∨ o.pc.posting = true) → o.pc.untimed = p.untimed → SuspendStep sh p o
  | raise : o.shared.sbSuspend = true → SuspendStep sh p o
  | clear : o.pc.posting = true → SuspendStep sh p o
  | post : 0 < o.shared.sbSem → SuspendStep sh p o
  | manager : p.isManager = true → o.shared.sbSuspend = sh.sbSuspend →
      (o.pc.untimed = false ∨ sh.sbSuspend = true) → SuspendStep sh p o

variable {S : Settings} {sh : Shared} {t : Tid} {p : Thread} {ch : Choice} {o : Out}
  {c : PoolState}

private theorem callNext_of_program {k : Caller} {x : Call}
    (h : program S sh t (.call k x) ch = some o) : callNext sh t k x ch = some o := by
  simp only [program, Option.ite_none_right_eq_some] at h
  exact h.2

private theorem call_suspend {k : Caller} {x : Call} (hx : x.plain = true)
    (h : callNext sh t k x ch = some o) : SuspendStep sh (.call k x) o := by
  cases x <;> cases hx <;> cases ch <;>
    simp only [callNext, goTo, emit, reduceCtorEq, Option.some.injEq] at h
  case createCheck attr =>
    split at h <;> (cases h; exact .keep rfl (Nat.le_refl _) (.inl rfl) rfl)
  case suspendStore => cases h; exact .raise rfl
  case resumeStore | signalStore => cases h; exact .clear rfl
  case resumePost | signalPost => cases h; exact .post (semPost_pos _)
  all_goals
    cases h
    refine .keep rfl (Nat.le_refl _) ?_ ?_
  all_goals first | rfl | exact .inl rfl | exact .inr rfl | (split <;> rfl)

section
variable {v v' : ManagerVars}

@[simp] theorem minLoop_untimed (i : Nat) : (Thread.manager v (minLoop S i)).untimed = false := by
  unfold minLoop; split <;> rfl

@[simp] theorem startReturn_untimed (r : Option Nat) :
    (Thread.manager v (startReturn S r)).untimed = false := by
  cases r
  · rfl
  · exact minLoop_untimed _

@[simp] theorem stopLoop_untimed (i m : Nat) : (Thread.manager v (stopLoop i m)).untimed = false := by
  unfold stopLoop; split <;> rfl

@[simp] theorem rampStart_untimed : (Thread.manager v' (rampStart v)).untimed = false := by
  unfold rampStart; split <;> rfl

private theorem manager_suspend {x : ManagerPc} (hx : x.plain = true)
    (h : managerNext S sh t v x ch = some o) : SuspendStep sh (.manager v x) o := by
  refine .manager rfl ?_ ?_
  all_goals
    cases x <;> cases hx <;> cases ch <;> simp only [managerNext, managerSleep, managerSpawn,
      managerRamp, goTo, reduceCtorEq, Option.some.injEq] at h
    all_goals (repeat' split at h)
    all_goals cases h
    all_goals first | rfl | exact .inl rfl | exact .inr ‹_› | exact .inl (by simp)

end

theorem suspend_step (hs : program S sh t p ch = some o) : SuspendStep sh p o := by
  have h := (program_step hs).2
  cases h with
  | app h => cases h <;> exact .keep rfl (Nat.le_refl _) (.inl rfl) rfl
  | @call k x _ _ h =>
    cases hx : x.plain with
    | true => exact call_suspend hx (callNext_of_program hs)
    | false =>
      cases h with
      | quiet _ hc | quietReturn _ hc | error hc => rw [hc] at hx; cases hx
      | fault => exact .keep rfl (Nat.le_refl _) (Bool.eq_false_or_eq_true _).symm rfl
      | _ => exact .keep rfl (Nat.le_refl _) (.inl rfl) rfl
  | worker h =>
    cases h with
    | spinPost | waitPost => exact .post (semPost_pos _)
    | exitFree | free =>
      obtain ⟨_, _, he⟩ := witemFree_eq sh ‹Work›
      rw [he]
      exact .keep rfl (Nat.le_refl _) (.inl rfl) rfl
    | _ => exact .keep rfl (Nat.le_refl _) (.inl rfl) rfl
  | overcommit h =>
    cases h with
    | free =>
      obtain ⟨_, _, he⟩ := witemFree_eq sh ‹Work›
      rw [he]
      exact .keep rfl (Nat.le_refl _) (.inl rfl) rfl
    | _ => exact .keep rfl (Nat.le_refl _) (.inl rfl) rfl
  | manager h =>
    cases h with
    | fault => exact .keep rfl (Nat.le_refl _) (Bool.eq_false_or_eq_true _).symm rfl
    | plain _ hx _ h => exact manager_suspend hx h
    | created | decCount | unlockMtx => exact .manager rfl rfl (.inl (by simp))
    | _ => exact .manager rfl rfl (.inl rfl)

/-- A cleared `sb_suspend` has left a token for the manager in `sem_wait`, or its clearer is about
to post one. -/
def Resumable (c : PoolState) : Prop :=
  ∀ (t : Tid) (p : Thread), c.threads[t]? = some p → p.untimed = true → c.shared.sbSuspend = false →
    0 < c.shared.sbSem ∨ ∃ (u : Tid) (r : Thread), c.threads[u]? = some r ∧ r.posting = true

theorem Thread.isManager_of_untimed (h : p.untimed = true) : p.isManager = true := by
  cases p <;> first | rfl | cases h

theorem Resumable.apply (h : Resumable c) (one : OneManager c) (hp : c.threads[t]? = some p)
    (hs : SuspendStep c.shared p o) (fresh : ∀ r ∈ o.spawned, r.untimed = false) :
    Resumable (o.apply c t) := by
  intro u r hu hr hsus
  change o.shared.sbSuspend = false at hsus
  change 0 < o.shared.sbSem ∨ _
  cases hs with
  | keep hk hsem hpost huntimed =>
    -- the manager was in the wait before the step
    obtain ⟨r', hu', hr'⟩ := Outcome.exists_before (P := fun r => r.untimed = true) hp
      (fun h => huntimed ▸ h) (fun r hr => Bool.not_eq_true _ ▸ fresh r hr) hu hr
    refine (h u r' hu' hr' (hk ▸ hsus)).imp (Nat.lt_of_lt_of_le · hsem) fun hex => ?_
    exact Outcome.exists_after hp (fun hy => hpost.resolve_left (by simp [hy])) hex
  | raise hk =>
    rw [hk] at hsus
    cases hsus
  | clear hpost => exact .inr ⟨t, o.pc, Outcome.get_self hp, hpost⟩
  | post hpos => exact .inl hpos
  | manager hm hk huntimed =>
    obtain ⟨rfl, rfl⟩ | ⟨hut, hu⟩ | ⟨_, hu⟩ := Outcome.get_cases hp hu
    · rw [hk, huntimed.resolve_left (by simp [hr])] at hsus
      cases hsus
    · -- there is one manager only
      exact absurd (one.unique u t r p hu hp (Thread.isManager_of_untimed hr) hm) hut
    · rw [fresh r hu] at hr
      cases hr

variable {G : PoolState → Nat × Choice → Prop} {users : Nat} {tr : List Event}

theorem resumable (h : Machine.Run (program S) G (initial users 0) tr c) : Resumable c := by
  refine h.invariant (fun _ c => Resumable c) (fun t p hp hu => ?_) ?_
  · obtain rfl | rfl := initial_threads hp <;> cases hu
  · intro tr c l p o hrun ih _ mv
    exact ih.apply (oneManager hrun) mv.here (suspend_step mv.next)
      ((program_step mv.next).2.fresh rfl rfl rfl)

/-- No resume is lost: a manager in `sem_wait` whose `sb_suspend` was cleared finds a token or will
get one, and once all posts are made it can go on. -/
theorem resume_never_lost (S : Settings) (users : Nat) (tr : List Event) (c : PoolState)
    (h : Machine.Free (program S) (initial users 0) tr c) (t : Tid) (p : Thread)
    (hp : c.threads[t]? = some p) (blocked : p.untimed = true) (cleared : c.shared.sbSuspend = false) :
    (0 < c.shared.sbSem ∨ ∃ (u : Tid) (r : Thread), c.threads[u]? = some r ∧ r.posting = true) ∧
      ((∀ r ∈ c.threads, r.posting = false) → c.shared.halted = none →
        ∃ o, program S c.shared t p (.ret 0) = some o ∧ o.pc.untimed = false) := by
  have owed := resumable h t p hp blocked cleared
  refine ⟨owed, fun returned alive => ?_⟩
  have token : 0 < c.shared.sbSem := by
    refine owed.resolve_right ?_
    rintro ⟨u, r, hu, hr⟩
    rw [returned r (List.mem_of_getElem? hu)] at hr
    cases hr
  cases p with
  | manager v x =>
    cases x with
    | semWait =>
      refine ⟨⟨{ c.shared with sbSem := c.shared.sbSem - 1 }, .manager v .readIdle, [], []⟩, ?_, rfl⟩
      simp [program, alive, managerNext, managerSleep, token, goTo]
    | _ => cases blocked
  | _ => cases blocked

/-- The manager is suspended, then resumed, and finds the token. -/
theorem resume_never_lost_once : ∃ tr c o,
    Machine.Free (program ⟨1, 0, 1, 0, false⟩) (initial 1 0) tr c ∧ c.shared.sbSuspend = false ∧
      program ⟨1, 0, 1, 0, false⟩ c.shared 1 (.manager ⟨100, 0, 0, 0⟩ .semWait) (.ret 0) = some o ∧
      o.pc.untimed = false := by
  obtain ⟨tr, c, hrun, hP⟩ := Machine.exists_run (M := program ⟨1, 0, 1, 0, false⟩)
    (g := fun _ _ => true) (c := initial 1 0)
    (createFirst 0 0 ++ [(0, .request .suspend)] ++ steps 0 3 ++
      [(1, .value 100), (1, .value 0), (1, .go), (0, .request .resume)] ++ steps 0 3)
    (fun r => decide (r.1.threads[1]? = some (Thread.manager ⟨100, 0, 0, 0⟩ .semWait) ∧
      r.1.shared.sbSuspend = false ∧ (∀ p ∈ r.1.threads, p.posting = false) ∧
      r.1.shared.halted = none)) (by decide +kernel)
  obtain ⟨hp, cleared, returned, alive⟩ := of_decide_eq_true hP
  obtain ⟨o, ho, hgo⟩ := (resume_never_lost _ _ tr c hrun.free 1 _ hp rfl cleared).2 returned alive
  exact ⟨tr, c, o, hrun.free, cleared, ho, hgo⟩

/-! The last idle worker -/

namespace Thread

/-- Past the decision whether to post, and before the decrement of `idle`. The fast path has no such
decision; it is past its dequeue. -/
def committed : Thread → Bool
  | .worker _ p => match p with
    | .scan .fast (.clear _ _) | .scan .fast (.unlock _ (some _)) => true
    | .spinPost _ | .spinLeave (some _) | .waitPost _ | .waitTest _ => true
    | .exitDecIdle _ | .decIdle _ => true
    | _ => false
  | _ => false

/-- The worker has found that it is the last idle one, and posts next. -/
def posts : Thread → Bool
  | .worker _ (.spinPost _) | .worker _ (.waitPost _) => true
  | _ => false

/-- The manager was woken, or its timer was, and it has not yet decided about a new worker or
counted it. -/
def looking : Thread → Bool
  | .manager _ p => match p with
    | .readIdle | .readCount | .readPending | .readAbout | .decAbout | .readThreshold | .readMax
    | .runnable | .runqueue | .readIdleAgain => true
    | .start none .incPending | .start none .incIdle => true
    | _ => false
  | _ => false

/-- Inside the failure branch of `worker_start`. -/
def failedStart : Thread → Bool
  | .manager _ (.start _ p) => p.fails
  | _ => false

end Thread

/-- Nobody is between a decision and its decrement. -/
def settled (c : PoolState) : Bool := c.threads.all fun p => !p.committed

/-- Decisions to post do not overlap, the last idle worker dequeues nothing on the fast path, the
manager takes no last token before the poster is busy, and no limit keeps it from creating the
worker that it was woken for. -/
def postsInTime (S : Settings) (c : PoolState) (l : Tid × Choice) : Bool :=
  match c.threads[l.1]? with
  | some (.worker _ p) => match p with
    | .scan .fast (.remove _ _) => settled c && c.shared.idle != 1
    | .spinReadIdle _ | .waitReadIdle _ => settled c
    | _ => true
  | some (.manager v p) => match p, l.2 with
    | .timedWait, .ret 0 | .semWait, .ret 0 =>
      decide (1 < c.shared.sbSem) || decide (1 < c.shared.idle) || settled c
    | .readMax, _ => decide (c.shared.count < v.workerMax)
    | .runnable, .value n | .runqueue, .value n => decide (n ≤ S.cpuCount)
    | _, _ => true
  | _ => true

/-- What a step does to the semaphore and to the workers that are about to become busy. -/
inductive PostStep (c : PoolState) (p : Thread) (o : Out) : Prop where
  | keep : c.shared.sbSem ≤ o.shared.sbSem → c.shared.idle ≤ o.shared.idle →
      (o.shared.count ≤ c.shared.count ∨ 0 < o.shared.idle) →
      (o.pc.committed = false ∨ p.committed = true ∧ o.pc.posts = p.posts) →
      (p.looking = false ∨ o.pc.looking = true ∨ o.shared.count = 0 ∨ 0 < o.shared.idle) →
      PostStep c p o
  | commit : settled c = true → o.shared.sbSem = c.shared.sbSem → o.shared.idle = c.shared.idle →
      0 < c.shared.idle → (o.pc.posts = true ∨ 1 < c.shared.idle) → PostStep c p o
  | post : p.committed = true → 0 < o.shared.sbSem → PostStep c p o
  | leave : p.committed = true → p.posts = false → o.shared.sbSem = c.shared.sbSem →
      o.shared.idle + 1 = c.shared.idle → o.pc.committed = false → PostStep c p o
  | token : o.shared.idle = c.shared.idle → o.pc.looking = true → p.committed = false →
      o.pc.committed = false → (0 < o.shared.sbSem ∨ 1 < c.shared.idle ∨ settled c = true) →
      PostStep c p o

private theorem call_sem {k : Caller} {x : Call} (hx : x.plain = true)
    (h : callNext sh t k x ch = some o) : sh.sbSem ≤ o.shared.sbSem := by
  cases x <;> cases hx <;> cases ch <;>
    simp only [callNext, goTo, emit, reduceCtorEq, Option.some.injEq] at h
  case createCheck.refl.go attr => split at h <;> (cases h; exact Nat.le_refl _)
  case resumePost.refl.go | signalPost.refl.go => cases h; exact le_semPost _
  all_goals
    cases h
    exact Nat.le_refl _

namespace PostStep

/-- A step that leaves the counters alone and commits nobody. -/
private theorem calm (hsem : c.shared.sbSem ≤ o.shared.sbSem)
    (hidle : o.shared.idle = c.shared.idle) (hcount : o.shared.count = c.shared.count)
    (hcom : o.pc.committed = false ∨ p.committed = true ∧ o.pc.posts = p.posts)
    (hlook : p.looking = false ∨ o.pc.looking = true) : PostStep c p o :=
  .keep hsem (Nat.le_of_eq hidle.symm) (.inl (Nat.le_of_eq hcount)) hcom (hlook.imp_right .inl)

end PostStep

private theorem worker_post {v : WorkerVars} {x : WorkerPc} {l : Tid × Choice}
    (h : WorkerStep S c.shared l.1 v x l.2 o) (hp : c.threads[l.1]? = some (.worker v x))
    (hg : postsInTime S c l = true) (hc : (Thread.worker v x).counted.toNat ≤ c.shared.count)
    (hi : (Thread.worker v x).countedIdle.toNat ≤ c.shared.idle) : PostStep c (.worker v x) o := by
  simp only [postsInTime, hp] at hg
  generalize l.2 = ch at h
  cases h with
  | fault =>
    exact .calm (Nat.le_refl _) rfl rfl ((Bool.eq_false_or_eq_true _).symm.imp_right fun h => ⟨h, rfl⟩) (.inl rfl)
  | @remove k | @removeLast k =>
    cases k with
    | fast =>
      obtain ⟨hset, hne⟩ := Bool.and_eq_true_iff.mp hg
      have hne : c.shared.idle ≠ 1 := by simpa using hne
      exact .commit hset rfl rfl hi (.inr (Nat.lt_of_le_of_ne hi hne.symm))
    | _ => exact .calm (Nat.le_refl _) rfl rfl (.inl rfl) (.inl rfl)
  | @nothing k => cases k <;> exact .calm (Nat.le_refl _) rfl rfl (.inl rfl) (.inl rfl)
  | @unlock k q wq r =>
    cases k <;> cases r <;> first
      | exact .calm (Nat.le_refl _) rfl rfl (.inl rfl) (.inl rfl)
      | exact .calm (Nat.le_refl _) rfl rfl (.inr ⟨rfl, rfl⟩) (.inl rfl)
  | @clear k _ _ _ _ _ hx =>
    subst hx
    cases k <;> split <;> first
      | exact .calm (Nat.le_refl _) rfl rfl (.inl rfl) (.inl rfl)
      | exact .calm (Nat.le_refl _) rfl rfl (.inr ⟨rfl, rfl⟩) (.inl rfl)
  | spinLast | waitLast => exact .commit hg rfl rfl hi (.inl rfl)
  | spinNotLast hne | waitNotLast hne =>
    exact .commit hg rfl rfl hi (.inr (Nat.lt_of_le_of_ne hi (Ne.symm hne)))
  | spinPost | waitPost => exact .post rfl (semPost_pos _)
  | decIdle | exitDecIdle => exact .leave rfl rfl rfl (atomicDec_add_one hi) rfl
  | exitDecCount =>
    refine .keep (Nat.le_refl _) (Nat.le_refl _) (.inl ?_) (.inl rfl) (.inl rfl)
    have := atomicDec_add_one hc
    change atomicDec c.shared.count ≤ c.shared.count
    omega
  | incIdle => exact .keep (Nat.le_refl _) (Nat.le_succ _) (.inl (Nat.le_refl _)) (.inl rfl) (.inl rfl)
  | exitFree | free =>
    obtain ⟨_, _, he⟩ := witemFree_eq c.shared ‹Work›
    rw [he]
    exact .calm (Nat.le_refl _) rfl rfl (.inl rfl) (.inl rfl)
  | spinFound | waitExit | waitWork =>
    exact .calm (Nat.le_refl _) rfl rfl (.inr ⟨rfl, rfl⟩) (.inl rfl)
  | _ => exact .calm (Nat.le_refl _) rfl rfl (.inl (by simp [Thread.committed])) (.inl rfl)

section
variable {v : ManagerVars}

private theorem manager_post {x : ManagerPc} {l : Tid × Choice} (hx : x.plain = true)
    (h : managerNext S c.shared l.1 v x l.2 = some o)
    (hp : c.threads[l.1]? = some (.manager v x)) (hg : postsInTime S c l = true)
    (pending : c.shared.pendingThreadCreate ≠ 0 → 0 < c.shared.idle) :
    PostStep c (.manager v x) o := by
  obtain ⟨t, ch⟩ := l
  simp only [postsInTime, hp] at hg
  cases x <;> cases hx <;> cases ch <;> simp only [managerNext, managerSleep, managerSpawn,
    managerRamp, goTo, reduceCtorEq, Option.some.injEq] at h
  case timedWait.refl.ret code | semWait.refl.ret code =>
    split at h
    · subst code
      obtain ⟨hpos, ho⟩ := Option.ite_none_right_eq_some.mp h
      cases ho
      simp only [Bool.or_eq_true, decide_eq_true_eq, or_assoc] at hg
      exact .token rfl rfl rfl rfl (hg.imp_left fun h => Nat.sub_pos_of_lt h)
    · cases h
      exact .calm (Nat.le_refl _) rfl rfl (.inl rfl) (.inl rfl)
  -- the points at which the manager may decide against a new worker
  case readIdle.refl.go | readIdleAgain.refl.go =>
    cases h
    refine .keep (Nat.le_refl _) (Nat.le_refl _) (.inl (Nat.le_refl _)) (.inl rfl) (.inr ?_)
    split
    · exact .inl rfl
    · exact .inr (.inr (Nat.pos_of_ne_zero ‹_›))
  case readCount.refl.go =>
    cases h
    refine .keep (Nat.le_refl _) (Nat.le_refl _) (.inl (Nat.le_refl _)) (.inl rfl) (.inr ?_)
    split
    · exact .inl rfl
    · exact .inr (.inl (Nat.eq_zero_of_not_pos ‹_›))
  case readPending.refl.go =>
    cases h
    refine .keep (Nat.le_refl _) (Nat.le_refl _) (.inl (Nat.le_refl _)) (.inl rfl) (.inr ?_)
    split
    · exact .inl rfl
    · exact .inr (.inr (pending ‹_›))
  case readMax.refl.go | runnable.refl.value | runqueue.refl.value =>
    cases h
    simp only [decide_eq_true_eq] at hg
    exact .calm (Nat.le_refl _) rfl rfl (.inl rfl) (.inr (by rw [if_pos hg]; rfl))
  case readAbout.refl.go | readThreshold.refl.go =>
    cases h
    exact .calm (Nat.le_refl _) rfl rfl (.inl rfl) (.inr (by split <;> rfl))
  all_goals (repeat' split at h)
  all_goals
    cases h
    refine .calm (Nat.le_refl _) rfl rfl (.inl rfl) ?_
    first | exact .inl rfl | exact .inr rfl

end

/-- Without failures, a pending creation that the manager does not see to is a created worker, which
counts as idle. -/
theorem Scoreboard.idle_of_pending {v : ManagerVars} {x : ManagerPc} (hs : Scoreboard tr c)
    (one : OneManager c) (hp : c.threads[t]? = some (.manager v x)) (hx : x.plain = true)
    (unfailed : ∀ e ∈ tr, e.isCreateFailure = false) (hne : c.shared.pendingThreadCreate ≠ 0) :
    0 < c.shared.idle := by
  have hzero : tr.countP Event.isCreateFailure = 0 :=
    List.countP_eq_zero.mpr fun e he => by simp [unfailed e he]
  have hpos : 0 < c.number Thread.countedPending := by
    have := hs.pending
    omega
  obtain ⟨r, hr, hpending⟩ := List.countP_pos_iff.mp hpos
  obtain ⟨u, hu⟩ := List.getElem?_of_mem hr
  obtain ⟨_, hle, _⟩ := hs.le hu
  cases r with
  | worker v y =>
    cases y with
    | start => exact hle
    | _ => cases hpending
  | manager v y =>
    obtain rfl := one.unique u t _ _ hu hp rfl rfl
    rw [hp] at hu
    cases hu
    rw [ManagerPc.between_countedPending (ManagerPc.plain_between hx)] at hpending
    cases hpending
  | _ => cases hpending

theorem post_step {l : Tid × Choice} (mv : Machine.Moves (program S) c l o p)
    (hg : postsInTime S c l = true) (hs : Scoreboard tr c) (one : OneManager c)
    (ok : p.failedStart = false) (unfailed : ∀ e ∈ tr ++ o.events, e.isCreateFailure = false) :
    PostStep c p o := by
  obtain ⟨hc, hi, _⟩ := hs.le mv.here
  obtain ⟨t, ch⟩ := l
  have hnext := mv.next
  have h := (program_step mv.next).2
  cases h with
  | app h => cases h <;> exact .calm (Nat.le_refl _) rfl rfl (.inl rfl) (.inl rfl)
  | call h =>
    cases h with
    | quiet hq hx | quietReturn hq hx =>
      obtain ⟨_, _, _, _, rfl⟩ := hq
      exact .calm (call_sem hx (callNext_of_program hnext)) rfl rfl (.inl rfl) (.inl rfl)
    | _ => exact .calm (Nat.le_refl _) rfl rfl (.inl rfl) (.inl rfl)
  | worker h => exact worker_post h mv.here hg hc hi
  | overcommit h =>
    cases h with
    | free =>
      obtain ⟨_, _, he⟩ := witemFree_eq c.shared ‹Work›
      rw [he]
      exact .calm (Nat.le_refl _) rfl rfl (.inl rfl) (.inl rfl)
    | _ => exact .calm (Nat.le_refl _) rfl rfl (.inl rfl) (.inl rfl)
  | manager h =>
    cases h with
    | plain _ hx _ h =>
      exact manager_post hx h mv.here hg
        (hs.idle_of_pending one mv.here hx fun e he => unfailed e (List.mem_append_left _ he))
    | @incPending r =>
      refine .calm (Nat.le_refl _) rfl rfl (.inl rfl) ?_
      cases r <;> first | exact .inl rfl | exact .inr rfl
    | incIdle =>
      exact .keep (Nat.le_refl _) (Nat.le_succ _) (.inl (Nat.le_refl _)) (.inl rfl)
        (.inr (.inr (.inr (Nat.succ_pos _))))
    | incCount =>
      exact .keep (Nat.le_refl _) (Nat.le_refl _) (.inr hi) (.inl rfl) (.inr (.inr (.inr hi)))
    | createFailed => cases unfailed (.workerCreateFailed t) (by simp)
    | decIdle | decCount => cases ok
    | fault => exact .calm (Nat.le_refl _) rfl rfl (.inl rfl) (Bool.eq_false_or_eq_true _).symm
    | @created r => exact .calm (Nat.le_refl _) rfl rfl (.inl rfl) (.inl (by cases r <;> rfl))
    | _ => exact .calm (Nat.le_refl _) rfl rfl (.inl rfl) (.inl rfl)

/-- At most one worker is about to become busy, and it has left a token or another idle worker; and
without idle workers the manager has a token, or it looks. -/
structure Posted (c : PoolState) : Prop where
  one : ∀ (t u : Tid) (p r : Thread), c.threads[t]? = some p → c.threads[u]? = some r →
    p.committed = true → r.committed = true → t = u
  covered : ∀ (t : Tid) (p : Thread), c.threads[t]? = some p → p.committed = true →
    p.posts = false → 0 < c.shared.sbSem ∨ 1 < c.shared.idle
  awake : (∃ (t : Tid) (p : Thread), c.threads[t]? = some p ∧ p.looking = true) ∨
    c.shared.count = 0 ∨ 0 < c.shared.sbSem ∨ 0 < c.shared.idle

theorem settled_at (h : settled c = true) (hp : c.threads[t]? = some p) : p.committed = false := by
  simpa using List.all_eq_true.mp h p (List.mem_of_getElem? hp)

namespace Posted
variable {u : Tid} {r : Thread}

/-- The threads that are committed after a step: the one that moved, and the others. -/
private theorem get_committed (hp : c.threads[t]? = some p)
    (fresh : ∀ r ∈ o.spawned, r.committed = false) (hu : (o.apply c t).threads[u]? = some r)
    (hr : r.committed = true) : (u = t ∧ r = o.pc) ∨ (u ≠ t ∧ c.threads[u]? = some r) := by
  obtain h | h | ⟨_, h⟩ := Outcome.get_cases hp hu
  · exact .inl h
  · exact .inr h
  · rw [fresh r h] at hr
    cases hr

theorem one_apply (h : Posted c) (hp : c.threads[t]? = some p)
    (fresh : ∀ r ∈ o.spawned, r.committed = false)
    (hpc : o.pc.committed = true → p.committed = true ∨ settled c = true) (t' u' : Tid)
    (p' r' : Thread) (ht : (o.apply c t).threads[t']? = some p')
    (hu : (o.apply c t).threads[u']? = some r') (hp' : p'.committed = true)
    (hr' : r'.committed = true) : t' = u' := by
  rcases get_committed hp fresh ht hp' with ⟨et, rfl⟩ | ⟨_, ht⟩ <;>
    rcases get_committed hp fresh hu hr' with ⟨eu, rfl⟩ | ⟨_, hu⟩
  · rw [et, eu]
  · rcases hpc hp' with hpc | hset
    · exact et ▸ h.one _ _ _ _ hp hu hpc hr'
    · rw [settled_at hset hu] at hr'
      cases hr'
  · rcases hpc hr' with hpc | hset
    · exact eu ▸ h.one _ _ _ _ ht hp hp' hpc
    · rw [settled_at hset ht] at hp'
      cases hp'
  · exact h.one _ _ _ _ ht hu hp' hr'

theorem apply (h : Posted c) (hp : c.threads[t]? = some p) (hs : PostStep c p o)
    (fresh : ∀ r ∈ o.spawned, r.committed = false) : Posted (o.apply c t) := by
  cases hs with
  | keep hsem hidle hcount hcom hlook =>
    have hcom := fun hc : o.pc.committed = true => hcom.resolve_left (by simp [hc])
    refine ⟨h.one_apply hp fresh fun hc => .inl (hcom hc).1, fun u r hu hr hposts => ?_, ?_⟩
    · have before : 0 < c.shared.sbSem ∨ 1 < c.shared.idle := by
        obtain ⟨rfl, rfl⟩ | ⟨_, hu⟩ := get_committed hp fresh hu hr
        · exact h.covered u p hp (hcom hr).1 ((hcom hr).2 ▸ hposts)
        · exact h.covered u r hu hr hposts
      exact before.imp (Nat.lt_of_lt_of_le · hsem) (Nat.lt_of_lt_of_le · hidle)
    · change _ ∨ o.shared.count = 0 ∨ 0 < o.shared.sbSem ∨ 0 < o.shared.idle
      rcases h.awake with ⟨u, r, hu, hr⟩ | hawake
      · by_cases hut : u = t
        · subst hut
          rw [hp] at hu
          cases hu
          exact (hlook.resolve_left (by simp [hr])).imp (fun hr => ⟨u, o.pc, Outcome.get_self hp, hr⟩)
            fun hr => hr.imp_right .inr
        · exact .inl ⟨u, r, Outcome.get_other hut hu, hr⟩
      · exact .inr (by omega)
  | commit hset hsem hidle hpos hpost =>
    refine ⟨h.one_apply hp fresh fun _ => .inr hset, fun u r hu hr hposts => ?_,
      .inr (.inr (.inr (Nat.lt_of_lt_of_eq hpos hidle.symm)))⟩
    obtain ⟨rfl, rfl⟩ | ⟨_, hu⟩ := get_committed hp fresh hu hr
    · rw [hposts] at hpost
      exact .inr (Nat.lt_of_lt_of_eq (hpost.resolve_left (by simp)) hidle.symm)
    · rw [settled_at hset hu] at hr
      cases hr
  | post hcom token =>
    exact ⟨h.one_apply hp fresh fun _ => .inl hcom, fun _ _ _ _ _ => .inl token,
      .inr (.inr (.inl token))⟩
  | leave hcom hposts hsem hidle hbusy =>
    refine ⟨h.one_apply hp fresh fun _ => .inl hcom, fun u r hu hr _ => ?_, .inr (.inr ?_)⟩
    · obtain ⟨rfl, rfl⟩ | ⟨hne, hu⟩ := get_committed hp fresh hu hr
      · rw [hbusy] at hr
        cases hr
      · exact absurd (h.one u t r p hu hp hr hcom) hne
    · change 0 < o.shared.sbSem ∨ 0 < o.shared.idle
      have := h.covered t p hp hcom hposts
      omega
  | token hidle hlook hcom hcom' hrest =>
    refine ⟨h.one_apply hp fresh fun hc => by simp [hcom'] at hc, fun u r hu hr _ => ?_,
      .inl ⟨t, o.pc, Outcome.get_self hp, hlook⟩⟩
    obtain ⟨rfl, rfl⟩ | ⟨_, hu⟩ := get_committed hp fresh hu hr
    · rw [hcom'] at hr
      cases hr
    · rcases hrest with hrest | hrest | hset
      · exact .inl hrest
      · exact .inr (Nat.lt_of_lt_of_eq hrest hidle.symm)
      · rw [settled_at hset hu] at hr
        cases hr

end Posted

theorem ManagerPc.between_failedStart {v : ManagerVars} {x : ManagerPc} (h : x.between = true) :
    (Thread.manager v x).failedStart = false := by
  cases x <;> first | rfl | (simp only [between, beq_iff_eq] at h; subst h; rfl)

theorem failedStart_step (h : Step S sh t p ch o) (ok : p.failedStart = false)
    (unfailed : ∀ e ∈ o.events, e.isCreateFailure = false) : o.pc.failedStart = false := by
  cases h with
  | app h => cases h <;> rfl
  | call h => cases h <;> rfl
  | worker h => cases h <;> rfl
  | overcommit h => cases h <;> rfl
  | manager h =>
    cases h with
    | createFailed => cases unfailed (.workerCreateFailed t) (by simp)
    | fault => exact ok
    | plain _ _ hb => exact ManagerPc.between_failedStart hb
    | created | decCount => exact ManagerPc.between_failedStart (startReturn_between _)
    | decIdle => cases ok
    | unlockMtx => exact ManagerPc.between_failedStart (stopLoop_between _ _)
    | _ => rfl

/-- As long as no creation has failed, the last idle worker posts. -/
theorem posted (h : Machine.Run (program S) (fun c l => postsInTime S c l = true) (initial users 0) tr c)
    (unfailed : ∀ e ∈ tr, e.isCreateFailure = false) :
    Posted c ∧ ∀ (t : Tid) (p : Thread), c.threads[t]? = some p → p.failedStart = false := by
  refine h.invariant (fun tr c => (∀ e ∈ tr, e.isCreateFailure = false) →
    Posted c ∧ ∀ (t : Tid) (p : Thread), c.threads[t]? = some p → p.failedStart = false) ?_ ?_ unfailed
  · intro _
    refine ⟨⟨fun t _ p _ hp _ hc => ?_, fun t p hp hc => ?_, .inr (.inl rfl)⟩, fun t p hp => ?_⟩
    all_goals obtain rfl | rfl := initial_threads hp
    all_goals first | rfl | cases hc
  · intro tr c l p o hrun ih hg mv unfailed
    obtain ⟨hposted, hok⟩ := ih fun e he => unfailed e (List.mem_append_left _ he)
    have hstep := (program_step mv.next).2
    constructor
    · exact hposted.apply mv.here
        (post_step mv hg (scoreboard hrun) (oneManager hrun) (hok _ _ mv.here) unfailed)
        (hstep.fresh rfl rfl rfl)
    · exact Outcome.forall_apply hok mv.here
        (fun ok => failedStart_step hstep ok fun e he => unfailed e (List.mem_append_right _ he))
        (fun _ _ _ _ ok => ok) fun _ => hstep.fresh rfl rfl rfl

/-- The manager is blocked in `sem_wait` while every worker is busy and an item waits. -/
structure Starving (c : PoolState) (t : Tid) (p : Thread) : Prop where
  here : c.threads[t]? = some p
  blocked : p.untimed = true
  idle : c.shared.idle = 0
  count : 0 < c.shared.count
  pending : c.shared.pendingThreadCreate = 0
  item : c.shared.hasRealItem

/-- In a run whose decisions are in time, a suspended manager finds a token when the last idle
worker has become busy. -/
theorem last_idle_worker_posts (S : Settings) (users : Nat) (tr : List Event) (c : PoolState)
    (h : Machine.Run (program S) (fun c l => postsInTime S c l = true) (initial users 0) tr c)
    (t : Tid) (p : Thread) (hs : Starving c t p) : 0 < c.shared.sbSem := by
  have hpending := (scoreboard h).pending
  have unfailed : ∀ e ∈ tr, e.isCreateFailure = false := by
    -- a failure would have left a pending creation behind
    have hzero : tr.countP Event.isCreateFailure = 0 := by
      have := hs.pending
      omega
    simpa [List.countP_eq_zero] using hzero
  have hawake := (posted h unfailed).1.awake
  rcases hawake with ⟨u, r, hu, hr⟩ | hcount | hsem | hidle
  · -- the manager that waits is the only one
    have hm : r.isManager = true := by cases r <;> first | rfl | cases hr
    obtain rfl := (oneManager h).unique u t r p hu hs.here hm (Thread.isManager_of_untimed hs.blocked)
    rw [hs.here] at hu
    cases hu
    have hb := hs.blocked
    cases p with
    | manager v x =>
      cases x with
      | semWait => cases hr
      | _ => cases hb
    | _ => cases hr
  · exact absurd hcount (Nat.ne_of_gt hs.count)
  · exact hsem
  · exact absurd hs.idle (Nat.ne_of_gt hidle)

/-- The manager waits in `sem_wait` beside its one worker, in a pool with one queue. -/
def suspendFirst : List (Tid × Choice) :=
  createFirst 0 0 ++ [(0, .request .suspend)] ++ steps 0 3 ++ [(1, .value 100), (1, .value 0)] ++
    startWorker 1 ++ steps 1 1 ++ steps 2 1

/-- The only worker waits, is woken for the first of two items, and posts. -/
theorem last_idle_worker_posts_once : ∃ tr c p,
    Machine.Run (program ⟨1, 1, 1, 0, false⟩)
      (fun c l => postsInTime ⟨1, 1, 1, 0, false⟩ c l = true) (initial 1 0) tr c ∧
      Starving c 1 p ∧ 0 < c.shared.sbSem := by
  obtain ⟨tr, c, hrun, hP⟩ := Machine.exists_run (M := program ⟨1, 1, 1, 0, false⟩)
    (g := postsInTime ⟨1, 1, 1, 0, false⟩) (c := initial 1 0)
    (suspendFirst ++ steps 2 6 ++ [(0, .request (.additem 0 (some 7) 70))] ++ steps 0 10 ++
      [(0, .wake [2])] ++ steps 0 1 ++ steps 2 13 ++
      [(0, .request (.additem 0 (some 8) 80))] ++ steps 0 8)
    (fun r => decide (r.1.threads[1]? = some (Thread.manager ⟨100, 0, 0, 0⟩ .semWait) ∧
      r.1.shared.idle = 0 ∧ 0 < r.1.shared.count ∧ r.1.shared.pendingThreadCreate = 0 ∧
      r.1.shared.hasRealItem)) (by decide +kernel)
  obtain ⟨here, hidle, hcount, hpending, hitem⟩ := of_decide_eq_true hP
  have hs : Starving c 1 (.manager ⟨100, 0, 0, 0⟩ .semWait) := ⟨here, rfl, hidle, hcount, hpending, hitem⟩
  exact ⟨tr, c, _, hrun, hs, last_idle_worker_posts _ _ tr c hrun 1 _ hs⟩

/-- The only worker takes the first of two items on the fast path and posts nothing: the second
item waits, and nobody wakes the manager. -/
theorem last_idle_worker_posts_nothing : ¬ ∀ (S : Settings) (users : Nat) (tr : List Event)
    (c : PoolState), Machine.Free (program S) (initial users 0) tr c →
      ∀ (t : Tid) (p : Thread), Starving c t p → 0 < c.shared.sbSem := by
  intro claim
  obtain ⟨tr, c, hrun, hP⟩ := Machine.exists_run (M := program ⟨1, 1, 1, 0, false⟩)
    (g := fun _ _ => true) (c := initial 1 0)
    (suspendFirst ++ [(0, .request (.additem 0 (some 7) 70))] ++ steps 0 10 ++
      [(0, .wake [])] ++ steps 0 1 ++ [(0, .request (.additem 0 (some 8) 80))] ++ steps 0 7 ++
      steps 2 7)
    (fun r => decide (r.1.threads[1]? = some (Thread.manager ⟨100, 0, 0, 0⟩ .semWait) ∧
      r.1.shared.idle = 0 ∧ 0 < r.1.shared.count ∧ r.1.shared.pendingThreadCreate = 0 ∧
      r.1.shared.hasRealItem ∧ r.1.shared.sbSem = 0)) (by decide +kernel)
  obtain ⟨here, hidle, hcount, hpending, hitem, hsem⟩ := of_decide_eq_true hP
  have token := claim _ _ tr c hrun.free 1 _ ⟨here, rfl, hidle, hcount, hpending, hitem⟩
  rw [hsem] at token
  cases token

end PthreadWorkqueue.Posix
