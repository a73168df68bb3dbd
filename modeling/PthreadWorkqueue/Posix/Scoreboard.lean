import PthreadWorkqueue.Posix.Locks

/-! The scoreboard: `count`, `idle` and `pending_thread_create` against the threads that exist. -/
namespace PthreadWorkqueue.Posix
open Concurrency

def Caller.isWorker : Caller → Bool
  | .worker _ _ => true
  | _ => false

namespace Thread

/-- A worker that was created and has not left. It has left with the second decrement of its exit,
after which it only frees its marker. -/
def liveWorker : Thread → Bool
  | .app k | .call k _ => k.isWorker
  | .worker _ p => match p with
    | .exitFree _ | .exited => false
    | _ => true
  | _ => false

/-- Between the decrement of `idle` before the callback and the increment after it. -/
def inCallback : Thread → Bool
  | .app k | .call k _ => k.isWorker
  | .worker _ p => match p with
    | .invoke _ | .incIdle _ => true
    | _ => false
  | _ => false

def idleWorker (p : Thread) : Bool := p.liveWorker && !p.inCallback

/-- Between the two decrements of the exit path. -/
def midExit : Thread → Bool
  | .worker _ (.exitDecCount _) => true
  | _ => false

/-- Inside `worker_start`, after its first increment. -/
def inWorkerStart : Thread → Bool
  | .manager _ (.start _ p) => p != .incPending
  | _ => false

/-- A created worker that has not started to run. -/
def unstarted : Thread → Bool
  | .worker _ .start => true
  | _ => false

/-- The threads that account for a unit of `count`. -/
def counted : Thread → Bool
  | .app k | .call k _ => k.isWorker
  | .worker _ p => match p with
    | .exitFree _ | .exited => false
    | _ => true
  | .overcommit _ => false
  | .manager _ p => match p with
    | .start _ .create | .start _ .decIdle | .start _ .decCount => true
    | _ => false

/-- The threads that account for a unit of `idle`. -/
def countedIdle : Thread → Bool
  | .app _ | .call _ _ | .overcommit _ => false
  | .worker _ p => match p with
    | .exitDecCount _ | .exitFree _ | .exited | .invoke _ | .incIdle _ => false
    | _ => true
  | .manager _ p => match p with
    | .start _ .incCount | .start _ .create | .start _ .decIdle => true
    | _ => false

/-- The threads that account for a unit of `pending_thread_create`. -/
def countedPending : Thread → Bool
  | .worker _ .start => true
  | .manager _ p => match p with
    | .start _ .incIdle | .start _ .incCount | .start _ .create => true
    | _ => false
  | _ => false

/-- The next step of the thread is an `atomic_dec` of `idle`. -/
def decrementsIdle : Thread → Bool
  | .worker _ (.exitDecIdle _) | .worker _ (.decIdle _) | .manager _ (.start _ .decIdle) => true
  | _ => false

/-- The next step of the thread is an `atomic_dec` of `count`. -/
def decrementsCount : Thread → Bool
  | .worker _ (.exitDecCount _) | .manager _ (.start _ .decCount) => true
  | _ => false

end Thread

def Event.isCreateFailure : Event → Bool
  | .workerCreateFailed _ => true
  | _ => false

namespace ManagerPc
variable {v : ManagerVars} {p : ManagerPc}

theorem between_counted (h : p.between = true) : (Thread.manager v p).counted = false := by
  cases p <;> first | rfl | (simp only [between, beq_iff_eq] at h; subst h; rfl)

theorem between_countedIdle (h : p.between = true) : (Thread.manager v p).countedIdle = false := by
  cases p <;> first | rfl | (simp only [between, beq_iff_eq] at h; subst h; rfl)

theorem between_countedPending (h : p.between = true) :
    (Thread.manager v p).countedPending = false := by
  cases p <;> first | rfl | (simp only [between, beq_iff_eq] at h; subst h; rfl)

end ManagerPc

variable {S : Settings} {sh : Shared} {t : Tid} {p : Thread} {ch : Choice} {o : Out}

theorem atomicDec_succ (n : Nat) : atomicDec (n + 1) = n := by simp [atomicDec]

theorem atomicDec_add_one {n : Nat} (h : 1 ≤ n) : atomicDec n + 1 = n := by
  obtain ⟨m, rfl⟩ := Nat.exists_eq_add_of_le' h
  rw [atomicDec_succ]

/-- A step moves the three counters with the threads that account for them. A failed
`pthread_create` leaves a unit of `pending_thread_create` behind. -/
structure ScoreboardStep (sh : Shared) (p : Thread) (o : Out) : Prop where
  count : o.shared.count + p.counted.toNat =
    sh.count + o.pc.counted.toNat + (o.spawned.map fun r => r.counted.toNat).sum
  idle : o.shared.idle + p.countedIdle.toNat =
    sh.idle + o.pc.countedIdle.toNat + (o.spawned.map fun r => r.countedIdle.toNat).sum
  pending : o.shared.pendingThreadCreate + p.countedPending.toNat =
    sh.pendingThreadCreate + o.events.countP Event.isCreateFailure + o.pc.countedPending.toNat +
      (o.spawned.map fun r => r.countedPending.toNat).sum

/-- A step of the manager from a point at which it accounts for nothing to another one. -/
private theorem ScoreboardStep.of_between {v v' : ManagerVars} {x x' : ManagerPc} {sh' : Shared}
    (hx : (Thread.manager v x).counted = false ∧ (Thread.manager v x).countedIdle = false ∧
      (Thread.manager v x).countedPending = false) (hx' : x'.between = true)
    (hc : sh'.count = sh.count) (hi : sh'.idle = sh.idle)
    (hp : sh'.pendingThreadCreate = sh.pendingThreadCreate) :
    ScoreboardStep sh (.manager v x) ⟨sh', .manager v' x', [], []⟩ := by
  obtain ⟨h₁, h₂, h₃⟩ := hx
  constructor
  · simp [h₁, ManagerPc.between_counted hx', hc]
  · simp [h₂, ManagerPc.between_countedIdle hx', hi]
  · simp [h₃, ManagerPc.between_countedPending hx', hp]

theorem scoreboard_step (h : Step S sh t p ch o) (hc : p.counted.toNat ≤ sh.count)
    (hi : p.countedIdle.toNat ≤ sh.idle) (hn : p.countedPending.toNat ≤ sh.pendingThreadCreate) :
    ScoreboardStep sh p o := by
  cases h with
  | app h => cases h <;> exact ⟨rfl, rfl, rfl⟩
  | call h =>
    cases h with
    | quiet hq | quietReturn hq => obtain ⟨_, _, _, _, rfl⟩ := hq; exact ⟨rfl, rfl, rfl⟩
    | _ => exact ⟨rfl, rfl, rfl⟩
  | worker h =>
    cases h with
    | start => exact ⟨rfl, rfl, atomicDec_add_one hn⟩
    | nothing => rename_i k _; cases k <;> exact ⟨rfl, rfl, rfl⟩
    | unlock => rename_i k _ _ r _; cases k <;> cases r <;> exact ⟨rfl, rfl, rfl⟩
    | exitDecIdle | decIdle => exact ⟨rfl, atomicDec_add_one hi, rfl⟩
    | exitDecCount => exact ⟨atomicDec_add_one hc, rfl, rfl⟩
    | exitFree | free =>
      obtain ⟨_, _, he⟩ := witemFree_eq sh ‹Work›
      rw [he]
      exact ⟨rfl, rfl, rfl⟩
    | _ => exact ⟨rfl, rfl, rfl⟩
  | overcommit h =>
    cases h with
    | free =>
      obtain ⟨_, _, he⟩ := witemFree_eq sh ‹Work›
      rw [he]
      exact ⟨rfl, rfl, rfl⟩
    | _ => exact ⟨rfl, rfl, rfl⟩
  | manager h =>
    cases h with
    | plain hq hp hp' =>
      obtain ⟨_, _, _, _, rfl⟩ := hq
      have hb := ManagerPc.plain_between hp
      exact .of_between ⟨ManagerPc.between_counted hb, ManagerPc.between_countedIdle hb,
        ManagerPc.between_countedPending hb⟩ hp' rfl rfl rfl
    | created =>
      have hb := startReturn_between (S := S) ‹Option Nat›
      constructor
      · rw [ManagerPc.between_counted hb]; rfl
      · rw [ManagerPc.between_countedIdle hb]; rfl
      · rw [ManagerPc.between_countedPending hb]; rfl
    | decIdle => exact ⟨rfl, atomicDec_add_one hi, rfl⟩
    | decCount =>
      have hb := startReturn_between (S := S) ‹Option Nat›
      constructor
      · rw [ManagerPc.between_counted hb]; exact atomicDec_add_one hc
      · rw [ManagerPc.between_countedIdle hb]; rfl
      · rw [ManagerPc.between_countedPending hb]; rfl
    | unlockMtx => exact .of_between ⟨rfl, rfl, rfl⟩ (stopLoop_between _ _) rfl rfl rfl
    | _ => exact ⟨rfl, rfl, rfl⟩

/-- The three counters of the scoreboard, read off the threads and the failures so far. -/
structure Scoreboard (tr : List Event) (c : PoolState) : Prop where
  count : c.shared.count = c.number Thread.counted
  idle : c.shared.idle = c.number Thread.countedIdle
  pending : c.shared.pendingThreadCreate =
    tr.countP Event.isCreateFailure + c.number Thread.countedPending

variable {G : PoolState → Nat × Choice → Prop} {users managers : Nat} {tr : List Event}
  {c : PoolState}

theorem Scoreboard.le (h : Scoreboard tr c) (hp : c.threads[t]? = some p) :
    p.counted.toNat ≤ c.shared.count ∧ p.countedIdle.toNat ≤ c.shared.idle ∧
      p.countedPending.toNat ≤ c.shared.pendingThreadCreate := by
  rw [h.count, h.idle, h.pending]
  simp only [Config.number_eq_total]
  exact ⟨c.le_total (fun r => r.counted.toNat) hp, c.le_total (fun r => r.countedIdle.toNat) hp,
    Nat.le_add_left_of_le (c.le_total (fun r => r.countedPending.toNat) hp)⟩

theorem Scoreboard.apply (h : Scoreboard tr c) (hp : c.threads[t]? = some p)
    (hs : Step S c.shared t p ch o) : Scoreboard (tr ++ o.events) (o.apply c t) := by
  obtain ⟨hc, hi, hn⟩ := h.le hp
  have st := scoreboard_step hs hc hi hn
  have total := fun f => Outcome.total_apply (o := o) f hp
  have hcount := h.count
  have hidle := h.idle
  have hpending := h.pending
  rw [Config.number_eq_total] at hcount hidle hpending
  constructor
  · have := st.count
    have := total fun r => r.counted.toNat
    rw [Config.number_eq_total]
    change o.shared.count = _
    omega
  · have := st.idle
    have := total fun r => r.countedIdle.toNat
    rw [Config.number_eq_total]
    change o.shared.idle = _
    omega
  · have := st.pending
    have := total fun r => r.countedPending.toNat
    rw [Config.number_eq_total, List.countP_append]
    change o.shared.pendingThreadCreate = _
    omega

theorem initial_number {P : Thread → Bool} (hu : P (.app .user) = false)
    (hm : P .managerMain = false) : (initial users managers).number P = 0 := by
  simp only [Config.number, List.countP_eq_zero]
  intro r hr
  obtain ⟨u, hu'⟩ := List.getElem?_of_mem hr
  obtain rfl | rfl := initial_threads hu'
  · simp [hu]
  · simp [hm]

theorem scoreboard_initial (users managers : Nat) : Scoreboard [] (initial users managers) where
  count := (initial_number rfl rfl).symm
  idle := (initial_number rfl rfl).symm
  pending := by rw [initial_number rfl rfl]; rfl

/-- In every reachable state the scoreboard agrees with the threads. -/
theorem scoreboard (h : Machine.Run (program S) G (initial users managers) tr c) : Scoreboard tr c :=
  h.invariant Scoreboard (scoreboard_initial _ _)
    (fun _ _ _ _ _ _ hs _ mv => hs.apply mv.here (program_step mv.next).2)

/-- Outside `worker_start` and the exit path the counted threads are the live workers. -/
theorem Thread.counted_eq (hs : p.inWorkerStart = false) : p.counted = p.liveWorker := by
  cases p with
  | manager v x =>
    cases x with
    | start r x => cases x <;> first | rfl | cases hs
    | _ => rfl
  | worker v x => cases x <;> rfl
  | _ => rfl

theorem Thread.countedIdle_eq (hs : p.inWorkerStart = false) (hx : p.midExit = false) :
    p.countedIdle = p.idleWorker := by
  cases p with
  | app k | call k _ => cases k <;> rfl
  | worker v x => cases x <;> first | rfl | cases hx
  | overcommit => rfl
  | manager v x =>
    cases x with
    | start r x => cases x <;> first | rfl | cases hs
    | _ => rfl

theorem Thread.countedPending_eq (hs : p.inWorkerStart = false) :
    p.countedPending = p.unstarted := by
  cases p with
  | worker v x => cases x <;> rfl
  | manager v x =>
    cases x with
    | start r x => cases x <;> first | rfl | cases hs
    | _ => rfl
  | _ => rfl

theorem Thread.decrements_counted :
    (p.decrementsIdle = true → p.countedIdle = true) ∧ (p.decrementsCount = true → p.counted = true) := by
  cases p with
  | worker v x => cases x <;> simp [decrementsIdle, countedIdle, decrementsCount, counted]
  | manager v x =>
    cases x with
    | start r x => cases x <;> simp [decrementsIdle, countedIdle, decrementsCount, counted]
    | _ => exact ⟨nofun, nofun⟩
  | _ => exact ⟨nofun, nofun⟩

private theorem number_congr {P Q : Thread → Bool} (h : ∀ p ∈ c.threads, P p = Q p) :
    c.number P = c.number Q :=
  List.countP_congr fun p hp => by rw [h p hp]

/-- `count` is the number of live workers and `idle` that of those outside a callback, whenever no
`worker_start` and no exit is half done; and no decrement ever finds zero. -/
theorem scoreboard_accounts_for_workers (S : Settings) (users managers : Nat) (tr : List Event)
    (c : PoolState) (h : Machine.Free (program S) (initial users managers) tr c) :
    ((∀ p ∈ c.threads, p.inWorkerStart = false ∧ p.midExit = false) →
      c.shared.count = c.number Thread.liveWorker ∧ c.shared.idle = c.number Thread.idleWorker ∧
        c.shared.idle ≤ c.shared.count) ∧
    ∀ p ∈ c.threads, (p.decrementsIdle = true → 0 < c.shared.idle) ∧
      (p.decrementsCount = true → 0 < c.shared.count) := by
  have hs := scoreboard h
  constructor
  · intro rest
    have hcount : c.shared.count = c.number Thread.liveWorker :=
      hs.count.trans (number_congr fun p hp => Thread.counted_eq (rest p hp).1)
    have hidle : c.shared.idle = c.number Thread.idleWorker :=
      hs.idle.trans (number_congr fun p hp => Thread.countedIdle_eq (rest p hp).1 (rest p hp).2)
    refine ⟨hcount, hidle, ?_⟩
    rw [hcount, hidle]
    exact List.countP_mono_left fun p _ hp => (Bool.and_eq_true _ _ ▸ hp).1
  · intro p hp
    obtain ⟨t, ht⟩ := List.getElem?_of_mem hp
    obtain ⟨hc, hi, _⟩ := hs.le ht
    refine ⟨fun hd => ?_, fun hd => ?_⟩
    · rw [Thread.decrements_counted.1 hd] at hi
      exact hi
    · rw [Thread.decrements_counted.2 hd] at hc
      exact hc

/-- The manager runs its main loop after two workers were created, one of which is in a callback. -/
theorem scoreboard_accounts_for_two_workers : ∃ tr c,
    Machine.Free (program ⟨2, 2, 2, 0, false⟩) (initial 1 0) tr c ∧
      (∀ p ∈ c.threads, p.inWorkerStart = false ∧ p.midExit = false) ∧
      c.shared.count = 2 ∧ c.shared.count = c.number Thread.liveWorker ∧
      c.shared.idle = 1 ∧ c.shared.idle = c.number Thread.idleWorker := by
  obtain ⟨tr, c, hrun, hP⟩ := Machine.exists_run (M := program ⟨2, 2, 2, 0, false⟩)
    (g := fun _ _ => true) (c := initial 1 0)
    (createFirst 0 3 ++ [(1, .value 100), (1, .value 0)] ++ startWorker 1 ++ startWorker 1 ++
      [(0, .request (.additem 0 (some 7) 70))] ++ steps 0 8 ++ steps 2 10)
    (fun r => decide ((∀ p ∈ r.1.threads, p.inWorkerStart = false ∧ p.midExit = false) ∧
      r.1.shared.count = 2 ∧ r.1.shared.idle = 1)) (by decide +kernel)
  obtain ⟨rest, hc, hi⟩ := of_decide_eq_true hP
  obtain ⟨h₁, h₂, _⟩ := (scoreboard_accounts_for_workers _ _ _ tr c hrun.free).1 rest
  exact ⟨tr, c, hrun.free, rest, hc, h₁, hi, h₂⟩

/-- Outside `worker_start`, `pending_thread_create` is the number of created workers that have not
started, exactly as long as no `pthread_create` of a worker has failed. -/
theorem pendingThreadCreate_eq_unstarted_iff (S : Settings) (users managers : Nat)
    (tr : List Event) (c : PoolState) (h : Machine.Free (program S) (initial users managers) tr c)
    (outside : ∀ p ∈ c.threads, p.inWorkerStart = false) :
    c.shared.pendingThreadCreate = c.number Thread.unstarted ↔
      ∀ e ∈ tr, e.isCreateFailure = false := by
  have hp := (scoreboard h).pending
  rw [number_congr (Q := Thread.unstarted) fun p hp => Thread.countedPending_eq (outside p hp)] at hp
  have hz : tr.countP Event.isCreateFailure = 0 ↔ ∀ e ∈ tr, e.isCreateFailure = false := by
    simp [List.countP_eq_zero]
  rw [← hz, hp]
  omega

/-- Two workers were created, and one of them has started. -/
theorem pendingThreadCreate_eq_one_unstarted : ∃ tr c,
    Machine.Free (program ⟨2, 2, 2, 0, false⟩) (initial 1 0) tr c ∧
      (∀ p ∈ c.threads, p.inWorkerStart = false) ∧ (∀ e ∈ tr, e.isCreateFailure = false) ∧
      c.shared.pendingThreadCreate = 1 ∧
      c.shared.pendingThreadCreate = c.number Thread.unstarted := by
  obtain ⟨tr, c, hrun, hP⟩ := Machine.exists_run (M := program ⟨2, 2, 2, 0, false⟩)
    (g := fun _ _ => true) (c := initial 1 0)
    (createFirst 0 3 ++ [(1, .value 100), (1, .value 0)] ++ startWorker 1 ++ startWorker 1 ++
      steps 2 1)
    (fun r => decide ((∀ p ∈ r.1.threads, p.inWorkerStart = false) ∧
      (∀ e ∈ r.2, e.isCreateFailure = false) ∧ r.1.shared.pendingThreadCreate = 1))
    (by decide +kernel)
  obtain ⟨rest, ok, hn⟩ := of_decide_eq_true hP
  exact ⟨tr, c, hrun.free, rest, ok, hn,
    (pendingThreadCreate_eq_unstarted_iff _ _ _ tr c hrun.free rest).mpr ok⟩

/-- The first `pthread_create` fails. `worker_start` then returns with `idle` and `count` as they
were, but with one pending creation and no thread that could start. -/
theorem pendingThreadCreate_leaks : ¬ ∀ (S : Settings) (users managers : Nat) (tr : List Event)
    (c : PoolState), Machine.Free (program S) (initial users managers) tr c →
      (∀ p ∈ c.threads, p.inWorkerStart = false) →
      c.shared.pendingThreadCreate = c.number Thread.unstarted := by
  intro claim
  obtain ⟨tr, c, hrun, hP⟩ := Machine.exists_run (M := program ⟨2, 2, 2, 0, false⟩)
    (g := fun _ _ => true) (c := initial 1 0)
    (createFirst 0 3 ++ [(1, .value 100), (1, .value 0)] ++ steps 1 3 ++ [(1, .ret eagain)] ++
      steps 1 2)
    (fun r => decide ((∀ p ∈ r.1.threads, p.inWorkerStart = false) ∧
      r.1.shared.pendingThreadCreate = 1 ∧ r.1.number Thread.unstarted = 0)) (by decide +kernel)
  obtain ⟨rest, hn, hz⟩ := of_decide_eq_true hP
  exact absurd (hn.symm.trans ((claim _ _ _ tr c hrun.free rest).trans hz)) (by decide)

end PthreadWorkqueue.Posix
