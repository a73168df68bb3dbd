import PthreadWorkqueue.Posix.Dangling
import PthreadWorkqueue.Posix.Relocation

/-! After `fork` the child runs `manager_reinit`. It has the caller's thread only, and all the
objects that were in memory. -/
namespace PthreadWorkqueue.Posix
open Concurrency

/-- What `_manager_init_common` stores. It does not fail: `sem_init` gets values that it accepts. -/
def managerInitCommon (sh : Shared) : Shared :=
  { sh with
    wqlistHasManager := false
    wqlistHasWork := []
    wqlistMtx := none
    wqlistMask := 0
    pendingThreadCreate := 0
    ocwqHasWork := []
    ocwqMtx := none
    ocwqMask := 0
    ocwqIdleThreads := 0
    ocwqSignalCount := 0
    sbSem := 0
    count := 0
    idle := 0
    sbSuspend := false
    aboutToWait := 0 }

/-- The handler that `pthread_atfork` runs in the child: it also clears all slots. -/
def managerReinit (sh : Shared) : Shared :=
  { managerInitCommon sh with
    wqlist := fun _ => none
    ocwq := fun _ => none }

/-- The child of a fork that application code `k` calls; `users` are the threads that the
application starts there. -/
def fork (users : Nat) (k : Caller) (sh : Shared) : PoolState :=
  ⟨managerReinit sh, .app k :: List.replicate users (.app .user)⟩

/-- The globals, without the objects in memory and the last number read from the system. -/
def Shared.globals (sh : Shared) : Shared :=
  { sh with
    heap := []
    queues := []
    handles := []
    runqueueLength := 0 }

def Shared.inherited (sh : Shared) : Inherited := ⟨sh.heap, sh.queues, sh.handles⟩

/-- A state of the child's pool that is a new process's, as are all the runs that start there and
leave the inherited queues alone. -/
structure AsNew (S : Settings) (sh : Shared) (users : Nat) (c : PoolState) : Prop where
  globals : c.shared.globals = managerInit
  simulates : ∀ tr d, Machine.Free (program S) (initial (users + 1) 0) tr d →
    ∃ r, Machine.Free (program S) c (tr.map (Event.relocate sh.inherited)) (sh.inherited.state r d)
  simulated : ∀ tr d, Machine.Run (program S) (fun _ l => ownHandles sh.handles l = true) c tr d →
    ∃ r tr' d', Machine.Free (program S) (initial (users + 1) 0) tr' d' ∧
      d = sh.inherited.state r d' ∧ tr = tr'.map (Event.relocate sh.inherited)

section Init
variable {S : Settings} {sh : Shared} {users : Nat}

theorem fork_eq (alive : sh.halted = none) (hs : sh.currentThreadsSpinning = 0) :
    fork users .user sh = sh.inherited.state sh.runqueueLength (initial (users + 1) 0) := by
  have hshared : managerReinit sh = managerInit.relocate sh.inherited sh.runqueueLength := by
    simp [managerReinit, managerInitCommon, managerInit, Shared.relocate, Shared.inherited, alive, hs]
  have hthreads : (.app .user :: List.replicate users (.app .user) : List Thread) =
      (initial (users + 1) 0).threads.map (Thread.relocate sh.inherited) := by
    simp [initial, Thread.relocate, Caller.relocate, List.replicate_succ]
  rw [fork, hshared, hthreads]
  rfl

/-- The environment being the same, the child is as after `manager_init` if and only if no spinning
worker was left behind in `current_threads_spinning`, which nobody resets. -/
theorem reinit_equals_init_iff (e : Environment) (sh : Shared) (alive : sh.halted = none)
    (users : Nat) :
    AsNew e.settings sh users (fork users .user sh) ↔ sh.currentThreadsSpinning = 0 := by
  constructor
  · exact fun h => congrArg Shared.currentThreadsSpinning h.globals
  · intro hs
    refine ⟨?_, fun tr d h => ?_, fun tr d h => ?_⟩
    · simp [fork, managerReinit, managerInitCommon, managerInit, Shared.globals, alive, hs]
    · rw [fork_eq alive hs]
      exact run_relocate _ h
    · rw [fork_eq alive hs] at h
      exact run_of_relocate h

end Init

/-- The parent has a queue and a worker that has not run yet. -/
theorem reinit_equals_init_with_one_worker : ∃ tr c,
    Machine.Free (program (Environment.settings ⟨false, 1, 1, some 1, 1⟩)) (initial 1 0) tr c ∧
      c.shared.queues.length = 1 ∧ c.shared.count = 1 ∧
      AsNew (Environment.settings ⟨false, 1, 1, some 1, 1⟩) c.shared 0 (fork 0 .user c.shared) := by
  obtain ⟨tr, c, hrun, hP⟩ := Machine.exists_run
    (M := program (Environment.settings ⟨false, 1, 1, some 1, 1⟩)) (g := fun _ _ => true)
    (c := initial 1 0) (createFirst 0 0 ++ [(1, .value 100), (1, .value 0)] ++ startWorker 1)
    (fun r => decide (r.1.shared.queues.length = 1 ∧ r.1.shared.count = 1 ∧
      r.1.shared.halted = none ∧ r.1.shared.currentThreadsSpinning = 0)) (by decide +kernel)
  obtain ⟨hq, hcount, halive, hs⟩ := of_decide_eq_true hP
  exact ⟨tr, c, hrun.free, hq, hcount, (reinit_equals_init_iff _ c.shared halive 0).mpr hs⟩

/-- The parent's worker spins, and in the child its place is never free again. -/
theorem reinit_keeps_spinners : ∃ tr c,
    Machine.Free (program (Environment.settings ⟨false, 1, 1, some 1, 1⟩)) (initial 1 0) tr c ∧
      c.threads[0]? = some (.app .user) ∧ c.shared.halted = none ∧
      (fork 0 .user c.shared).shared.currentThreadsSpinning = 1 ∧
      ¬ AsNew (Environment.settings ⟨false, 1, 1, some 1, 1⟩) c.shared 0
        (fork 0 .user c.shared) := by
  obtain ⟨tr, c, hrun, hP⟩ := Machine.exists_run
    (M := program (Environment.settings ⟨false, 1, 1, some 1, 1⟩)) (g := fun _ _ => true)
    (c := initial 1 0)
    (createFirst 0 0 ++ [(1, .value 100), (1, .value 0)] ++ startWorker 1 ++ steps 2 3)
    (fun r => decide (r.1.threads[0]? = some (Thread.app .user) ∧ r.1.shared.halted = none ∧
      r.1.shared.currentThreadsSpinning = 1)) (by decide +kernel)
  obtain ⟨huser, halive, hs⟩ := of_decide_eq_true hP
  refine ⟨tr, c, hrun.free, huser, halive, hs, fun h => ?_⟩
  have hzero : c.shared.currentThreadsSpinning = 0 :=
    congrArg Shared.currentThreadsSpinning h.globals
  have hone : c.shared.currentThreadsSpinning = 1 := hs
  omega

/-! Processes and their forks -/

structure Process where
  /-- The handles that were returned before the last fork. -/
  inherited : List QId
  pool : PoolState

/-- The states of a process, and of the children that it and its children fork, when every step
meets `G`. -/
inductive Lineage (S : Settings) (G : Process → Tid × Choice → Prop) (users managers : Nat) :
    Process → Prop where
  | start : Lineage S G users managers ⟨[], initial users managers⟩
  | step {P l d es} : Lineage S G users managers P → G P l →
      (program S).step P.pool l = some (d, es) → Lineage S G users managers ⟨P.inherited, d⟩
  | fork {P : Process} {t : Tid} {k : Caller} (later : Nat) : Lineage S G users managers P → P.pool.shared.halted = none →
      P.pool.threads[t]? = some (.app k) →
      Lineage S G users managers ⟨P.pool.shared.handles, fork later k P.pool.shared⟩

/-- The queue that a call of `pthread_workqueue_additem_np` is about. -/
def Thread.addsTo : Thread → Option QId
  | .call _ (.check q _ _) | .call _ (.alloc q _ _) | .call _ (.handle q _) | .call _ (.add q _ _)
  | .call _ (.ocAdd q _ _) => some q
  | _ => none

/-- The queue is in the slot of its priority and kind. -/
def Shared.registers (sh : Shared) (q : QId) : Prop :=
  ∃ wq, sh.queues[q]? = some wq ∧ sh.slotOf wq = some q

/-- Only registered queues are served. -/
structure Served (S : Settings) (c : PoolState) : Prop where
  accepted : ∀ (t : Tid) (p : Thread) (ch : Choice) (o : Out) (q : QId),
    c.threads[t]? = some p → p.addsTo = some q → program S c.shared t p ch = some o →
    .returned t 0 ∈ o.events → c.shared.registers q
  mask : ∀ i, c.shared.wqlistMask.getLsbD i = true → ∃ (q : QId) (wq : Workq),
    c.shared.wqlist i = some q ∧ c.shared.queues[q]? = some wq ∧
      (wq.mtx = none → wq.itemListhead ≠ [])
  ocMask : ∀ i, c.shared.ocwqMask.getLsbD i = true → ∃ (q : QId) (wq : Workq),
    c.shared.ocwq i = some q ∧ c.shared.queues[q]? = some wq ∧
      (c.shared.ocwqMtx = none → wq.itemListhead ≠ [])
  noNull : c.shared.halted ≠ some .nullQueue

section Lineages
variable {S : Settings} {b : Inherited} {r : Nat} {c : PoolState} {sh : Shared} {q : QId}
  {users managers : Nat}

theorem relocate_nil (hb : b.heap = []) (k : Caller) : k.relocate b = k := by
  cases k <;> simp [Caller.relocate, Work.relocate, hb]

theorem owned_of_apps {lock : Shared → Option Tid} {holds : Thread → Bool} (hl : lock c.shared = none)
    (hk : ∀ k, holds (.app k) = false)
    (apps : ∀ (t : Tid) (p : Thread), c.threads[t]? = some p → ∃ k, p = .app k) :
    Owned lock holds c := by
  intro t
  rw [hl]
  constructor
  · exact fun h => by cases h
  · rintro ⟨p, hp, hh⟩
    obtain ⟨k, rfl⟩ := apps t p hp
    rw [hk] at hh
    cases hh

theorem fork_apps {k : Caller} {later : Nat} (t : Tid) (p : Thread)
    (h : (.app k :: List.replicate later (.app .user) : List Thread)[t]? = some p) :
    ∃ k, p = .app k := by
  rcases List.mem_cons.mp (List.mem_of_getElem? h) with h | h
  · exact ⟨k, h⟩
  · exact ⟨.user, List.eq_of_mem_replicate h⟩

theorem fork_sound (k : Caller) (later : Nat) (heap : List Bool) (n : Nat) :
    Sound ⟨{ managerInit with heap := heap, currentThreadsSpinning := n },
      .app k :: List.replicate later (.app .user)⟩ where
  disciplined :=
    { mtx := owned_of_apps rfl (fun _ => rfl) fork_apps
      ocMtx := owned_of_apps rfl (fun _ => rfl) fork_apps
      spin := fun q => owned_of_apps (by simp [Shared.spinLock, managerInit]) (fun _ => rfl) fork_apps
      wait := ⟨List.nodup_nil, fun _ h => by cases h⟩
      ocWait := ⟨List.nodup_nil, fun _ h => by cases h⟩ }
  registry :=
    { slots := fun _ _ h => by cases h
      ocSlots := fun _ _ h => by cases h
      fresh := fun _ _ h => by simp [managerInit] at h
      bound := fun _ _ h => by simp [managerInit] at h
      handles := fun _ h => by cases h
      threads := fun t p h => by obtain ⟨k, rfl⟩ := fork_apps t p h; trivial }
  masks :=
    { unregistered := fun _ _ => by simp [managerInit]
      free := fun _ _ _ h => by cases h
      held := fun _ _ _ _ _ h => by cases h }
  ocMasks :=
    { unregistered := fun _ _ => by simp [managerInit]
      full := fun t p q h hq => by obtain ⟨k, rfl⟩ := fork_apps t p h; cases hq
      follows := fun _ _ h => by cases h }
  aimed t p h := by obtain ⟨k, rfl⟩ := fork_apps t p h; trivial
  noNull := by simp [managerInit]

/-- A child is a sound process behind what it has inherited. -/
theorem fork_state (alive : sh.halted = none) (later : Nat) (k : Caller) :
    fork later k sh = Inherited.state ⟨[], sh.queues, sh.handles⟩ sh.runqueueLength
      ⟨{ managerInit with heap := sh.heap, currentThreadsSpinning := sh.currentThreadsSpinning },
        .app k :: List.replicate later (.app .user)⟩ := by
  have hshared : managerReinit sh =
      Shared.relocate ⟨[], sh.queues, sh.handles⟩ sh.runqueueLength
        { managerInit with heap := sh.heap, currentThreadsSpinning := sh.currentThreadsSpinning } := by
    simp [managerReinit, managerInitCommon, managerInit, Shared.relocate, alive]
  simp only [fork, Inherited.state, hshared, List.map_cons, List.map_replicate, Thread.relocate]
  rw [relocate_nil rfl, relocate_nil rfl]

/-- Nobody has an overcommit queue's bit to set while its mutex is free. -/
theorem Disciplined.announces_nothing (h : Disciplined c) (hm : c.shared.ocwqMtx = none) {t : Tid}
    {p : Thread} (hp : c.threads[t]? = some p) : p.announces q = false := by
  by_contra hne
  have hold := Thread.announces_holds (Bool.not_eq_false _ ▸ hne)
  have := (h.ocMtx.at hp).mpr hold
  rw [hm] at this
  cases this

theorem slotOf_relocate (wq : Workq) :
    (sh.relocate b r).slotOf (wq.relocate b) = (sh.slotOf wq).map b.queue := by
  unfold Shared.slotOf
  exact (map_ite (f := Option.map b.queue) rfl rfl).symm

theorem registers_relocate (h : ∃ wq, Registered sh q wq) :
    (sh.relocate b r).registers (b.queue q) := by
  obtain ⟨wq, h⟩ := h
  refine ⟨wq.relocate b, by rw [queues_relocate, h.here]; rfl, ?_⟩
  rw [slotOf_relocate, h.slot]
  rfl

/-- A call that adds an item is about a registered queue. -/
theorem registered_of_addsTo {p : Thread} (ok : p.queueOk sh) (hq : (p.relocate b).addsTo = some q) :
    (sh.relocate b r).registers q := by
  cases p with
  | call k x =>
    cases x with
    | check | alloc | handle =>
      cases hq
      exact registers_relocate ok
    | add | ocAdd =>
      cases hq
      exact registers_relocate (ok.imp fun _ h => h.1)
    | _ => cases hq
  | _ => cases hq

theorem served_of_sound (h : Sound c) : Served S (b.state r c) := by
  constructor
  case accepted =>
    intro t p ch o q hp hq _ _
    obtain ⟨p', hp', rfl⟩ : ∃ p', c.threads[t]? = some p' ∧ p'.relocate b = p := by
      simpa [Inherited.state] using hp
    exact registered_of_addsTo (h.registry.threads t p' hp') hq
  case mask =>
    intro i hi
    cases hs : c.shared.wqlist i with
    | none =>
      have hclear := h.masks.unregistered i hs
      exact absurd (hclear.symm.trans hi) Bool.false_ne_true
    | some q =>
      obtain ⟨wq, hreg, _⟩ := h.registry.slots i q hs
      refine ⟨b.queue q, wq.relocate b, congrArg (Option.map b.queue) hs, ?_, fun hm => ?_⟩
      · exact queues_relocate.trans (congrArg _ hreg.here)
      · exact fun hl => (h.masks.free i q wq hs hreg.here hm).mp hi (items_relocate.mp hl)
  case ocMask =>
    intro i hi
    cases hs : c.shared.ocwq i with
    | none =>
      have hclear := h.ocMasks.unregistered i hs
      exact absurd (hclear.symm.trans hi) Bool.false_ne_true
    | some q =>
      obtain ⟨wq, hreg, _⟩ := h.registry.ocSlots i q hs
      refine ⟨b.queue q, wq.relocate b, congrArg (Option.map b.queue) hs, ?_, fun hm => ?_⟩
      · exact queues_relocate.trans (congrArg _ hreg.here)
      · have hfollows := h.ocMasks.follows i q hs fun t p hp => h.disciplined.announces_nothing hm hp
        rw [Shared.items_eq hreg.here] at hfollows
        exact fun hl => hfollows.mp hi (items_relocate.mp hl)
  case noNull => exact h.noNull

/-- Every process is a sound one behind what it has inherited. -/
theorem lineage_sound {P : Process}
    (h : Lineage S (fun P l => ownHandles P.inherited l = true) users managers P) :
    ∃ b r c, Inherited.handles b = P.inherited ∧ P.pool = b.state r c ∧ Sound c := by
  induction h with
  | start =>
    refine ⟨⟨[], [], []⟩, 0, initial users managers, rfl, ?_, sound_initial _ _⟩
    simp [Inherited.state, initial, managerInit, Shared.relocate, Thread.relocate, Caller.relocate,
      Thread.managerMain, ManagerPc.relocate]
  | step _ own hs ih =>
    obtain ⟨b, r, c, hb, hc, hsound⟩ := ih
    rw [hc] at hs
    rw [← hb] at own
    obtain ⟨r', l', d', es', hs', rfl, _⟩ := step_of_relocate own hs
    obtain ⟨p, o, mv, rfl, _⟩ := Machine.step_eq_some.mp hs'
    exact ⟨b, r', _, hb, rfl, hsound.step mv⟩
  | fork later _ alive _ _ => exact ⟨_, _, _, rfl, fork_state alive later _, fork_sound _ _ _ _⟩

theorem Lineage.run {G : Process → Tid × Choice → Prop} {P : Process} {tr : List Event}
    {d : PoolState} (h : Lineage S G users managers P)
    (hrun : Machine.Run (program S) (fun c l => G ⟨P.inherited, c⟩ l) P.pool tr d) :
    Lineage S G users managers ⟨P.inherited, d⟩ := by
  induction hrun with
  | start => exact h
  | step _ hg hs ih => exact ih.step hg hs

end Lineages

/-- In every process of a lineage in which each one adds items only to queues that it has created
itself, the calls that succeed are about registered queues, the masks name registered queues with
items, and nobody follows a null pointer. -/
theorem only_registrations_are_served (S : Settings) (users managers : Nat) (P : Process)
    (h : Lineage S (fun P l => ownHandles P.inherited l = true) users managers P) :
    Served S P.pool := by
  obtain ⟨b, r, c, _, hpool, hsound⟩ := lineage_sound h
  rw [hpool]
  exact served_of_sound hsound

/-- The child of a process with a queue creates a queue of its own and adds an item. -/
theorem own_registration_is_served : ∃ P,
    Lineage ⟨2, 2, 2, 0, false⟩ (fun P l => ownHandles P.inherited l = true) 1 0 P ∧
      P.inherited = [0] ∧ P.pool.shared.wqlistMask.getLsbD 0 = true ∧
      Served ⟨2, 2, 2, 0, false⟩ P.pool := by
  obtain ⟨tr, c, hrun, hP⟩ := Machine.exists_run (M := program ⟨2, 2, 2, 0, false⟩)
    (g := fun _ l => ownHandles [] l) (c := initial 1 0) (createFirst 0 0)
    (fun r => decide (r.1.shared.halted = none ∧ r.1.threads[0]? = some (Thread.app .user) ∧
      r.1.shared.handles = [0] ∧
      ((program ⟨2, 2, 2, 0, false⟩).exec (fun _ l => ownHandles [0] l)
        (fork 0 .user r.1.shared)
        (createFirst 0 0 ++ [(0, .request (.additem 1 (some 7) 70))] ++ steps 0 9)).any
          (fun r => r.1.shared.wqlistMask.getLsbD 0) = true)) (by decide +kernel)
  obtain ⟨halive, huser, hhandles, hany⟩ := of_decide_eq_true hP
  obtain ⟨tr', c', hrun', hbit⟩ := Machine.exists_run _ _ hany
  have hparent : Lineage ⟨2, 2, 2, 0, false⟩ (fun P l => ownHandles P.inherited l = true) 1 0
      ⟨[], c⟩ := Lineage.run .start hrun
  have hlast : Lineage ⟨2, 2, 2, 0, false⟩ (fun P l => ownHandles P.inherited l = true) 1 0
      ⟨c.shared.handles, c'⟩ :=
    (hparent.fork 0 halive huser).run (by rw [hhandles]; exact hrun')
  exact ⟨_, hlast, hhandles, hbit, only_registrations_are_served _ _ _ _ hlast⟩

/-- The child adds an item to a queue of its parent: the call succeeds, and the mask names a slot
that is empty. -/
theorem stale_handle_is_served : ∃ P,
    Lineage ⟨2, 2, 2, 0, false⟩ (fun _ _ => True) 1 0 P ∧
      P.pool.threads[0]? = some (.call .user (.add 0 ⟨0, some 7, 70, 0, 0⟩ .readIdle)) ∧
      program ⟨2, 2, 2, 0, false⟩ P.pool.shared 0 (.call .user (.add 0 ⟨0, some 7, 70, 0, 0⟩ .readIdle))
        .go = some ⟨P.pool.shared, .app .user, [], [.returned 0 0]⟩ ∧
      P.pool.shared.wqlist 0 = none ∧ P.pool.shared.wqlistMask.getLsbD 0 = true ∧
      ¬ Served ⟨2, 2, 2, 0, false⟩ P.pool := by
  obtain ⟨tr, c, hrun, hP⟩ := Machine.exists_run (M := program ⟨2, 2, 2, 0, false⟩)
    (g := fun _ _ => true) (c := initial 1 0) (createFirst 0 0)
    (fun r => decide (r.1.shared.halted = none ∧ r.1.threads[0]? = some (Thread.app .user) ∧
      ((program ⟨2, 2, 2, 0, false⟩).exec (fun _ _ => true) (fork 0 .user r.1.shared)
        ([(0, .request (.additem 0 (some 7) 70))] ++ steps 0 8)).any
          (fun r => decide (r.1.threads[0]? = some (Thread.call .user
              (.add 0 ⟨0, some 7, 70, 0, 0⟩ .readIdle)) ∧ r.1.shared.halted = none ∧
            r.1.shared.idle = 0 ∧ r.1.shared.queues.length = 1 ∧
            r.1.shared.wqlist 0 = none ∧ r.1.shared.wqlistMask.getLsbD 0 = true)) = true))
    (by decide +kernel)
  obtain ⟨halive, huser, hany⟩ := of_decide_eq_true hP
  obtain ⟨tr', d, hrun', hd⟩ := Machine.exists_run _ _ hany
  obtain ⟨hcall, hlive, hidle, hone, hslot, hbit⟩ := of_decide_eq_true hd
  dsimp only at hcall hlive hidle hone hslot hbit
  have hparent : Lineage ⟨2, 2, 2, 0, false⟩ (fun _ _ => True) 1 0 ⟨[], c⟩ :=
    Lineage.run .start hrun.free
  have hchild := (hparent.fork 0 halive huser).run hrun'.free
  obtain ⟨wq, hq⟩ : ∃ wq, d.shared.queues[0]? = some wq := ⟨_, List.getElem?_eq_getElem (by omega)⟩
  have hreturn : program ⟨2, 2, 2, 0, false⟩ d.shared 0
      (.call .user (.add 0 ⟨0, some 7, 70, 0, 0⟩ .readIdle)) .go =
        some ⟨d.shared, .app .user, [], [.returned 0 0]⟩ := by
    simp [program, callNext, withQueue, addNext, hlive, hq, hidle, emit]
  refine ⟨_, hchild, hcall, hreturn, hslot, hbit, fun h => ?_⟩
  obtain ⟨q, wq, hq, _⟩ := h.mask 0 hbit
  rw [hslot] at hq
  cases hq

end PthreadWorkqueue.Posix
