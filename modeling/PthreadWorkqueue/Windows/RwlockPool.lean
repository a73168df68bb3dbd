import PthreadWorkqueue.Windows.LinkedRefinement
import PthreadWorkqueue.Windows.RwlockRefinement

/-! The legacy manager over linked lists and over the code of its lock: what holds with sequences and an
atomic `wqlist_mtx` holds with `queue.h` and `pthread_rw_lock.h`, as long as no lock of a queue is
initialised while it is held. -/
namespace PthreadWorkqueue.Windows
open Concurrency Memory
open Posix (Work Workq Tid QId)

/-- The memory with a given state of `wqlist_mtx`. -/
def Shared.withLock (sh : Shared) (readers : Nat) (writer : Bool) : Shared :=
  { sh with readers, writer }

/-- An outcome of the manager, in a memory with a given state of `wqlist_mtx`. -/
def withLock (readers : Nat) (writer : Bool) (o : Out) : Out :=
  { o with shared := o.shared.withLock readers writer }

section Frame
variable {sh : Shared} {t : Tid} {p : Thread} {ch : Choice} {o : Out} {r : Nat} {w : Bool}

theorem appNext_frame {k : Caller} (h : appNext sh k ch = some o) :
    appNext (sh.withLock r w) k ch = some (withLock r w o) := by
  cases ch with
  | request x =>
    obtain ⟨c, hc, ho⟩ := Option.bind_eq_some_iff.mp h
    cases ho
    exact Option.bind_eq_some_iff.mpr ⟨c, by cases x <;> exact hc, rfl⟩
  | go =>
    cases k with
    | user => cases h
    | worker v => cases h; rfl
  | ok b => cases h

theorem callNext_frame {k : Caller} {x : Call} (hx : (Thread.call k x).rwCall = none)
    (h : callNext sh t k x ch = some o) :
    callNext (sh.withLock r w) t k x ch = some (withLock r w o) := by
  -- a case of `callNext` reads a queue, or tests the choice, and then makes one outcome
  cases x <;> cases ch <;> simp only [callNext, reduceCtorEq, Option.bind_eq_some_iff,
    Option.ite_none_right_eq_some] at h ⊢ <;> try cases hx
  case check q f a =>
    obtain ⟨wq, hq, h⟩ := h
    refine ⟨wq, hq, ?_⟩
    cases f with
    | none => cases h; rfl
    | some f =>
      simp only at h ⊢
      split at h
      · rename_i hv
        cases h
        rw [if_pos hv]
        rfl
      · rename_i hv
        cases h
        rw [if_neg hv]
        rfl
  case alloc => cases h; rfl
  case lock =>
    obtain ⟨wq, hq, hm, h⟩ := h
    cases h
    exact ⟨wq, hq, hm, rfl⟩
  case insert | unlock | createInsert | spinInit =>
    obtain ⟨wq, hq, h⟩ := h
    cases h
    exact ⟨wq, hq, rfl⟩
  case submit | createCheck | createAlloc =>
    split at h <;> cases h <;> simp only [*, if_true, if_false, Bool.false_eq_true] <;> rfl

theorem workerNext_frame {x : WorkerPc} (hx : (Thread.worker x).rwCall = none)
    (h : workerNext sh t x ch = some o) :
    workerNext (sh.withLock r w) t x ch = some (withLock r w o) := by
  cases x <;> cases ch <;> simp only [workerNext, reduceCtorEq, Option.bind_eq_some_iff,
    Option.ite_none_right_eq_some] at h ⊢ <;> try cases hx
  case visit i j =>
    split at h
    · rename_i hi
      rw [if_pos hi]
      cases hq : (sh.wqlist i)[j]? with
      | none =>
        rw [hq] at h
        cases h
        simp only [Shared.withLock, hq]
        rfl
      | some q =>
        rw [hq] at h
        cases h
        simp only [Shared.withLock, hq]
        rfl
    · rename_i hi
      cases h
      rw [if_neg hi]
      rfl
  case lock =>
    obtain ⟨wq, hq, hm, h⟩ := h
    cases h
    exact ⟨wq, hq, hm, rfl⟩
  case look =>
    obtain ⟨wq, hq, h⟩ := h
    refine ⟨wq, hq, ?_⟩
    cases hl : wq.itemListhead with
    | nil => rw [hl] at h; cases h; rfl
    | cons v rest => rw [hl] at h; cases h; rfl
  case unlock =>
    obtain ⟨wq, hq, h⟩ := h
    cases h
    exact ⟨wq, hq, rfl⟩
  case call | free => cases h; rfl

/-- A step that is no call of the lock does not look at it. -/
theorem program_frame (hp : p.rwCall = none) (h : program sh t p ch = some o) :
    program (sh.withLock r w) t p ch = some (withLock r w o) := by
  simp only [program, Option.ite_none_right_eq_some] at h ⊢
  refine ⟨h.1, ?_⟩
  cases p with
  | app k => exact appNext_frame h.2
  | call k x => exact callNext_frame hp h.2
  | worker x => exact workerNext_frame hp h.2

/-- The memory with linked lists, with a given state of `wqlist_mtx`. -/
def LinkedShared.withLock (sh : LinkedShared) (readers : Nat) (writer : Bool) : LinkedShared :=
  { sh with pool := sh.pool.withLock readers writer }

def linkedWithLock (readers : Nat) (writer : Bool) (o : LinkedOut) : LinkedOut :=
  { o with shared := o.shared.withLock readers writer }

variable {lsh : LinkedShared} {x : LinkedThread} {lo : LinkedOut}

theorem linkedNext_pool (hp : p.onList = true → ch ≠ .go) :
    linkedNext lsh t (.pool p) ch = (program lsh.pool t p ch).map fun o =>
      if p.uses.all lsh.live then lsh.after o else ⟨{ lsh with fault := true }, .pool p, [], []⟩ := by
  cases p with
  | app k => rfl
  | call k x => cases x <;> cases ch <;> first | rfl | exact absurd rfl (hp rfl)
  | worker x => cases x <;> cases ch <;> first | rfl | exact absurd rfl (hp rfl)

theorem statement_frame {s : Statement QId Work} {todo : List (Statement QId Work)}
    {f : List (Statement QId Work) → LinkedThread} :
    (lsh.withLock r w).statement s todo f = linkedWithLock r w (lsh.statement s todo f) := by
  have hexec : s.exec (lsh.withLock r w).live (lsh.withLock r w).links =
      s.exec lsh.live lsh.links := rfl
  unfold LinkedShared.statement
  rw [hexec]
  split <;> rfl

theorem linkedNext_frame (hx : linkedManager.calls x = none) (h : linkedNext lsh t x ch = some lo) :
    linkedNext (lsh.withLock r w) t x ch = some (linkedWithLock r w lo) := by
  have hlinks : (lsh.withLock r w).links = lsh.links := rfl
  cases x with
  | pool p =>
    by_cases hp : p.onList = true → ch ≠ .go
    · rw [linkedNext_pool hp] at h ⊢
      obtain ⟨o, ho, rfl⟩ := Option.map_eq_some_iff.mp h
      refine Option.map_eq_some_iff.mpr ⟨_, program_frame hx ho, ?_⟩
      have huses : p.uses.all (lsh.withLock r w).live = p.uses.all lsh.live := rfl
      rw [huses]
      split <;> rfl
    · simp only [ne_eq, Classical.not_imp, Decidable.not_not] at hp
      obtain ⟨hl, rfl⟩ := hp
      cases p with
      | app k => cases hl
      | call k x =>
        cases x <;> cases hl
        cases h
        rfl
      | worker x =>
        cases x <;> cases hl
        simp only [linkedNext, hlinks] at h ⊢
        split at h <;> cases h <;> rfl
  | insert k q v todo | remove i j q v todo =>
    cases todo with
    | nil => cases ch <;> cases h; rfl
    | cons s todo =>
      cases ch <;> cases h
      exact congrArg some statement_frame
  | first i j q =>
    cases ch with
    | go =>
      simp only [linkedNext, hlinks] at h ⊢
      split at h <;> cases h <;> rfl
    | _ => cases h
  | leave i j q =>
    cases ch with
    | go =>
      obtain ⟨wq, hq, h⟩ := Option.bind_eq_some_iff.mp h
      cases h
      exact Option.bind_eq_some_iff.mpr ⟨wq, hq, rfl⟩
    | _ => cases h

/-- A step over linked lists that is no call of the lock does not look at it. -/
theorem linked_frame (hx : linkedManager.calls x = none) (h : linkedProgram lsh t x ch = some lo) :
    linkedProgram (lsh.withLock r w) t x ch = some (linkedWithLock r w lo) := by
  simp only [linkedProgram, Option.ite_none_right_eq_some] at h ⊢
  exact ⟨h.1, linkedNext_frame hx h.2⟩

end Frame

/-- The state over the atomic lock as a state of the manager over linked lists. -/
def plain (d : Config (RwState LinkedShared) (RwPoint LinkedThread)) : LinkedState :=
  ⟨d.shared.mem.withLock d.shared.readers d.shared.writer, d.threads.map RwPoint.point⟩

/-- The program point of a thread, in a call of the lock or not. -/
def Point.point {π : Type} : Point π → π
  | .run p | .inCall p _ => p

/-- No lock of a queue is initialised while it is held. -/
def SpinInitsFree (c : Config (Guarded LinkedShared) (Point LinkedThread)) (l : Tid × Choice) : Prop :=
  ∀ x, c.threads[l.1]? = some (.run x) → x.point.initsFree c.shared.mem.pool

section Runs
variable {links : TailMemory QId Work} {users : Nat} {tr : List Event}
  {d : Config (RwState LinkedShared) (RwPoint LinkedThread)} {t : Tid} {p : Thread} {x : LinkedThread}
  {ch : Choice} {s : RwState LinkedShared} {sh : LinkedShared} {f : RwCall} {l : Tid × Choice}
  {o : Outcome (RwState LinkedShared) (RwPoint LinkedThread) Event}

/-- The outcome of a step over the atomic lock as one of the manager over linked lists. -/
def plainOut (o : Outcome (RwState LinkedShared) (RwPoint LinkedThread) Event) : LinkedOut :=
  ⟨o.shared.mem.withLock o.shared.readers o.shared.writer, o.pc.point,
    o.spawned.map RwPoint.point, o.events⟩

theorem calls_pool (hf : linkedManager.calls x = some f) : ∃ p, x = .pool p ∧ p.rwCall = some f := by
  cases x with
  | pool p => exact ⟨p, rfl, hf⟩
  | _ => cases hf

/-- A call of the lock, with the lock in the memory of the manager. -/
theorem linked_call (sh : LinkedShared) (mem : Shared) (p r : Thread)
    (hend : sh.fault = false ∧ sh.pool.aborted = false) (hl : p.onList = false) (hu : p.uses = none)
    (hmem : mem.queues = sh.pool.queues) (h : program sh.pool t p .go = some ⟨mem, r, [], []⟩) :
    linkedProgram sh t (.pool p) .go = some ⟨{ sh with pool := mem }, .pool r, [], []⟩ := by
  refine (if_pos hend).trans ?_
  rw [linkedNext_pool fun hp => absurd (hl.symm.trans hp) Bool.false_ne_true, h, Option.map_some, hu]
  have hlinks : ¬ sh.pool.queues.length < mem.queues.length := hmem ▸ Nat.lt_irrefl _
  simp only [Option.all_none, if_true, LinkedShared.after, if_neg hlinks, List.filterMap_nil,
    List.append_nil, List.map_nil, ← hend.1]

/-- A call of the atomic lock is a step of the manager, unless the thread says that it wants to
write. -/
theorem plain_call (hend : s.mem.fault = false ∧ s.mem.pool.aborted = false)
    (hf : linkedManager.calls x = some f) (h : linkedManager.call s x f = some o) :
    f = .wrlock ∧ o = ⟨{ s with pending := s.pending + 1 }, .waits x, [], []⟩ ∨
      linkedProgram (s.mem.withLock s.readers s.writer) t x .go = some (plainOut o) := by
  obtain ⟨p, rfl, hp⟩ := calls_pool hf
  let sh := s.mem.withLock s.readers s.writer
  unfold Thread.rwCall at hp
  split at hp <;> cases hp
  · cases h
    exact .inl ⟨rfl, rfl⟩
  · simp only [RwClient.call, Option.ite_none_right_eq_some] at h
    obtain ⟨⟨hw, -⟩, h⟩ := h
    cases h
    exact .inr (linked_call sh { sh.pool with readers := s.readers + 1 } _ _ hend rfl rfl rfl
      ((if_pos hend.2).trans (if_pos hw)))
  · cases h
    exact .inr (linked_call sh { sh.pool with writer := false } _ _ hend rfl rfl rfl (if_pos hend.2))
  · rename_i r
    cases h
    cases r <;> exact .inr (linked_call sh { sh.pool with readers := s.readers - 1 } _ _ hend rfl rfl
      rfl (if_pos hend.2))

/-- Only a step of the manager itself initialises a lock of a queue. -/
theorem plain_initsFree (hwaits : ∀ x, d.threads[l.1]? = some (.waits x) →
      linkedManager.calls x = some .wrlock)
    (hg : linkedManager.meets (fun sh x => x.point.initsFree sh.pool) d l) :
    LinkedInitsFree (plain d) l := by
  intro x hx
  have called : ∀ {f}, linkedManager.calls x = some f →
      x.point.initsFree (d.shared.mem.pool.withLock d.shared.readers d.shared.writer) := by
    intro f hf
    obtain ⟨p, rfl, hp⟩ := calls_pool hf
    unfold Thread.rwCall at hp
    split at hp <;> trivial
  have hx' : (d.threads.map RwPoint.point)[l.1]? = some x := hx
  rw [List.getElem?_map, Option.map_eq_some_iff] at hx'
  obtain ⟨y, hy, rfl⟩ := hx'
  cases y with
  | waits x => exact called (hwaits x hy)
  | run x =>
    cases hc : linkedManager.calls x with
    | none =>
      have hfree := hg x hy hc
      revert hfree
      change x.point.initsFree d.shared.mem.pool → x.point.initsFree _
      cases x.point with
      | call k z => cases z <;> exact id
      | _ => exact id
    | some f => exact called hc

/-- The program over the atomic lock is the manager over linked lists. -/
theorem plain_run (h : Machine.Run linkedManager.atomic
      (linkedManager.meets fun sh x => x.point.initsFree sh.pool)
      (RwClient.atomicStart (linkedInitial links users)) tr d) :
    Machine.Run linkedProgram LinkedInitsFree (linkedInitial links users) tr (plain d) := by
  refine h.invariant (fun tr d =>
    Machine.Run linkedProgram LinkedInitsFree (linkedInitial links users) tr (plain d)) ?_ ?_
  · have hstart : plain (RwClient.atomicStart (linkedInitial links users)) =
        linkedInitial links users := by
      refine (Config.mk.injEq ..).mpr ⟨rfl, ?_⟩
      change List.map RwPoint.point (List.map RwPoint.run _) = _
      rw [List.map_map]
      exact List.map_id _
    rw [hstart]
    exact .start
  · intro tr d l y o hr ih hg mv
    have hn := mv.next
    simp only [RwClient.atomic, Option.ite_none_right_eq_some] at hn
    obtain ⟨hend, hn⟩ := hn
    have hend : d.shared.mem.fault = false ∧ d.shared.mem.pool.aborted = false :=
      Bool.or_eq_false_iff.mp hend
    have hfree := plain_initsFree (fun x hx => RwClient.calls_of_waits hr l.1 _ hx x rfl) hg
    have hget : (plain d).threads[l.1]? = some y.point := by
      simp only [plain, List.getElem?_map, mv.here, Option.map_some]
    have go : ∀ ch, linkedProgram (plain d).shared l.1 y.point ch = some (plainOut o) →
        Machine.Run linkedProgram LinkedInitsFree (linkedInitial links users) (tr ++ o.events)
          (plain (o.apply d l.1)) := by
      intro ch hch
      refine .step ih (l := (l.1, ch)) hfree (Machine.step_eq_some.mpr
        ⟨_, plainOut o, ⟨hget, hch⟩, (Config.mk.injEq ..).mpr ⟨rfl, ?_⟩, rfl⟩)
      simp only [plain, plainOut, Outcome.apply, List.map_append, List.map_set]
    cases y with
    | run x =>
      simp only at hn
      split at hn
      · rename_i hx
        obtain ⟨o', ho', rfl⟩ := Option.map_eq_some_iff.mp hn
        refine go l.2 ((linked_frame hx ho').trans ?_)
        have hid : RwPoint.point ∘ RwPoint.run = (id : LinkedThread → LinkedThread) := rfl
        simp only [linkedWithLock, plainOut, RwClient.lift, List.map_map, hid, List.map_id]
        rfl
      · rename_i f hf
        obtain ⟨rfl, rfl⟩ | hstep := plain_call (t := l.1) hend hf hn
        · have hsame : plain ((⟨{ d.shared with pending := d.shared.pending + 1 }, .waits x, [], []⟩ :
              Outcome (RwState LinkedShared) (RwPoint LinkedThread) Event).apply d l.1) = plain d := by
            refine (Config.mk.injEq ..).mpr ⟨rfl, ?_⟩
            obtain ⟨hlt, hval⟩ := List.getElem?_eq_some_iff.mp hget
            simp only [Outcome.apply, List.append_nil, List.map_set]
            change (plain d).threads.set l.1 x = (plain d).threads
            rw [← show (plain d).threads[l.1] = x from hval, List.set_getElem_self]
          rw [List.append_nil, hsame]
          exact ih
        · exact go .go hstep
    | waits x =>
      have hw := RwClient.calls_of_waits hr l.1 _ mv.here x rfl
      obtain ⟨p, rfl, hp⟩ := calls_pool hw
      simp only [Option.ite_none_right_eq_some] at hn
      obtain ⟨hopen, hn⟩ := hn
      unfold Thread.rwCall at hp
      split at hp <;> cases hp
      cases hn
      exact go .go (linked_call (plain d).shared { (plain d).shared.pool with writer := true } _ _ hend
        rfl rfl rfl ((if_pos hend.2).trans (if_pos hopen)))

/-- A thread that is in no callback, and in no call that will submit one, is not in one either when
its call of the lock has had its effect. -/
theorem quiet_resume (hr : p.running = false) (hu : p.unsubmitted = false) :
    p.rwResume.running = false ∧ p.rwResume.unsubmitted = false := by
  unfold Thread.rwResume
  split
  · rename_i k q
    cases k <;> first | exact ⟨rfl, rfl⟩ | cases hr
  · rename_i k q
    cases k <;> first | exact ⟨rfl, rfl⟩ | cases hr
  · cases hr
  · cases hr
  · cases hr
  · exact ⟨hr, hu⟩

/-- The lock has its effect on threads that are outside of the item lists. -/
theorem seen_point (z : Point LinkedThread) : (z.seen linkedManager).point = z.point ∨
    ∃ p, z.point = .pool p ∧ (z.seen linkedManager).point = .pool p.rwResume := by
  cases z with
  | run x => exact .inl rfl
  | inCall x q =>
    have resume : ∀ b, linkedManager.resume x b = x ∨
        ∃ p, x = .pool p ∧ linkedManager.resume x b = .pool p.rwResume := fun b => by
      cases x with
      | pool p => exact .inr ⟨p, rfl, rfl⟩
      | _ => exact .inl rfl
    simp only [Point.seen]
    split
    · exact resume true
    · split
      · exact resume false
      · split <;> exact .inl rfl

theorem quiet_seen {z : Point LinkedThread} (hr : z.point.point.running = false)
    (hu : z.point.point.unsubmitted = false) :
    (z.seen linkedManager).point.point.running = false ∧
      (z.seen linkedManager).point.point.unsubmitted = false := by
  obtain hz | ⟨p, hp, hz⟩ := seen_point z <;> rw [hz]
  · exact ⟨hr, hu⟩
  · rw [hp] at hr hu
    exact quiet_resume hr hu

theorem inside_seen (z : Point LinkedThread) :
    (z.seen linkedManager).point.inside = z.point.inside := by
  obtain hz | ⟨p, hp, hz⟩ := seen_point z <;> rw [hz]
  rw [hp]
  rfl

/-- The manager over linked lists and over the functions of the lock, in every run that initialises no
lock of a queue while it is held: nobody uses the null pointer or an item that was freed, the events
are those of the manager over sequences and an atomic lock, in the same memory but for the lists and the
lock, and a queue that nobody is changing shows its sequence. So here too the pool does what it is for,
and every item has run once when every callback has finished and no call is between insert and
submission. -/
theorem pool_over_rwlock (links : TailMemory QId Work) (users : Nat) (tr : List Event)
    (c : Config (Guarded LinkedShared) (Point LinkedThread))
    (h : Machine.Run (overRwlock linkedManager) SpinInitsFree (guardedStart (linkedInitial links users))
      tr c) :
    c.shared.mem.fault = false ∧ ∃ L : QId → List Work,
      Machine.Run program InitsFree (initial users) tr
        (LinkedState.pool (plain (seen linkedManager c)) L) ∧
      (∀ q < c.shared.mem.pool.queues.length,
        (∀ y ∈ c.threads, ∀ todo, y.point.inside ≠ some (q, todo)) →
        Holds c.shared.mem.links q (L q)) ∧
      (∃ ds s, Service.start.run ds = some s ∧
        carrier.Shows (LinkedState.pool (plain (seen linkedManager c)) L) s ∧
        tr.filterMap Event.deed = ds.filter shown) ∧
      (c.number (fun y => y.point.point.running) = 0 →
        c.number (fun y => y.point.point.unsubmitted) = 0 →
        (∀ q, L q = []) ∧
        ∀ t q w, Event.insert t q w ∈ tr → tr.countP (Event.invokes (· == w)) = 1) := by
  have out : ∀ x ∈ (linkedInitial links users).threads, linkedManager.mode x = .out := fun x hx => by
    obtain ⟨p, hp, rfl⟩ := List.mem_map.mp hx
    exact initial_out users p hp
  have hplain := plain_run (seen_run (A := fun sh x => x.point.initsFree sh.pool) out
    (fun c l hg x hx => hg x hx) h)
  obtain ⟨L, hrun, hrep⟩ := represents_run hplain
  refine ⟨hrep.fault, L, hrun, fun q hq hquiet => hrep.quiet q hq fun t x hx todo => ?_,
    manager_serves hrun, fun hr hu => ?_⟩
  · obtain ⟨y, hy, rfl⟩ := List.mem_map.mp (List.mem_of_getElem? hx)
    obtain ⟨z, hz, rfl⟩ := List.mem_map.mp hy
    rw [inside_seen]
    exact hquiet z hz todo
  · have quiet : ∀ p ∈ (LinkedState.pool (plain (seen linkedManager c)) L).threads,
        p.running = false ∧ p.unsubmitted = false := by
      intro p hp
      obtain ⟨x, hx, rfl⟩ := List.mem_map.mp hp
      obtain ⟨y, hy, rfl⟩ := List.mem_map.mp hx
      obtain ⟨z, hz, rfl⟩ := List.mem_map.mp hy
      exact quiet_seen (Bool.eq_false_iff.mpr (List.countP_eq_zero.mp hr z hz))
        (Bool.eq_false_iff.mpr (List.countP_eq_zero.mp hu z hz))
    have hr' : (LinkedState.pool (plain (seen linkedManager c)) L).number Thread.running = 0 :=
      List.countP_eq_zero.mpr fun p hp => Bool.eq_false_iff.mp (quiet p hp).1
    have hu' : (LinkedState.pool (plain (seen linkedManager c)) L).number Thread.unsubmitted = 0 :=
      List.countP_eq_zero.mpr fun p hp => Bool.eq_false_iff.mp (quiet p hp).2
    exact ⟨fun q => (hrep.items q).symm.trans (items_eq_nil hrun hr' hu' q),
      fun t q w hw => invoked_once hrun hr' hu' hw⟩

/-- A thread adds an item and submits its callback, over linked lists. -/
def addLinked (t : Tid) (q : QId) (func : Nat) : List (Tid × Choice) :=
  (t, .request (.additem q (some func) 0)) :: steps t 9 ++ [(t, .ok true)]

/-- `SpinInitsFree`, as a test. -/
def spinInitsFree (c : Config (Guarded LinkedShared) (Point LinkedThread)) (l : Tid × Choice) : Bool :=
  match c.threads[l.1]? with
  | some (.run (.pool (.call _ (.spinInit q)))) => decide (c.shared.mem.pool.spinLock q = none)
  | _ => true

theorem spinInitsFree_sound {c : Config (Guarded LinkedShared) (Point LinkedThread)}
    (h : spinInitsFree c l = true) : SpinInitsFree c l := by
  intro x hx
  unfold spinInitsFree at h
  rw [hx] at h
  cases x with
  | pool p =>
    cases p with
    | call k z =>
      cases z with
      | spinInit q =>
        have hfree : c.shared.mem.pool.spinLock q = none := of_decide_eq_true h
        exact hfree
      | _ => trivial
    | _ => trivial
  | _ => trivial

/-- A queue is created, and an item goes through it, over linked lists and the functions of the lock. -/
theorem pool_over_rwlock_of_item : ∃ tr c,
    Machine.Run (overRwlock linkedManager) SpinInitsFree
      (guardedStart (linkedInitial ⟨fun _ => none, fun _ => .first 9⟩ 1)) tr c ∧
      tr.countP (Event.invokes fun _ => true) = 1 ∧
      ∀ t q w, Event.insert t q w ∈ tr → tr.countP (Event.invokes (· == w)) = 1 := by
  obtain ⟨tr, c, hrun, hP⟩ := Machine.exists_run (M := overRwlock linkedManager) (g := spinInitsFree)
    (c := guardedStart (linkedInitial ⟨fun _ => none, fun _ => .first 9⟩ 1))
    (createUpToLock 0 0 ++ steps 0 17 ++ addLinked 0 0 7 ++ steps 1 22)
    (fun r => decide (r.2.countP (Event.invokes fun _ => true) = 1 ∧
      r.1.number (fun y => y.point.point.running) = 0 ∧
      r.1.number (fun y => y.point.point.unsubmitted) = 0))
    (by decide +kernel)
  obtain ⟨hone, hr, hu⟩ := of_decide_eq_true hP
  have hrun := hrun.weaken fun _ _ => spinInitsFree_sound
  obtain ⟨-, L, -, -, -, hquiet⟩ := pool_over_rwlock _ 1 tr c hrun
  exact ⟨tr, c, hrun, hone, (hquiet hr hu).2⟩

/-- The condition is needed. A callback has the lock of a queue that is being created when
`pthread_spin_init` frees it; an item that is inserted between the two statements of its
STAILQ_REMOVE_HEAD is never called. -/
theorem item_lost_in_race : ∃ tr c,
    Machine.Free (overRwlock linkedManager)
      (guardedStart (linkedInitial ⟨fun _ => none, fun _ => .first 9⟩ 1)) tr c ∧
      c.number (fun y => y.point.point.running) = 0 ∧
      c.number (fun y => y.point.point.unsubmitted) = 0 ∧
      ∃ w, Event.insert 0 1 w ∈ tr ∧ tr.countP (Event.invokes (· == w)) = 0 := by
  obtain ⟨tr, c, hrun, hP⟩ := Machine.exists_run (M := overRwlock linkedManager) (g := fun _ _ => true)
    (c := guardedStart (linkedInitial ⟨fun _ => none, fun _ => .first 9⟩ 1))
    (createUpToLock 0 1 ++ steps 0 17 ++ addLinked 0 0 7 ++
      createUpToLock 0 0 ++ steps 0 16 ++ steps 1 8 ++ steps 0 1 ++
      addLinked 0 1 8 ++ steps 1 3 ++ addLinked 0 1 9 ++ steps 1 11 ++ steps 2 27 ++ steps 3 26)
    (fun r => decide (r.1.number (fun y => y.point.point.running) = 0 ∧
      r.1.number (fun y => y.point.point.unsubmitted) = 0 ∧
      Event.insert 0 1 ⟨2, some 9, 0, 0, 0⟩ ∈ r.2 ∧
      r.2.countP (Event.invokes (· == ⟨2, some 9, 0, 0, 0⟩)) = 0)) (by decide +kernel)
  obtain ⟨hr, hu, hw, hnone⟩ := of_decide_eq_true hP
  exact ⟨tr, c, hrun.free, hr, hu, _, hw, hnone⟩

end Runs
end PthreadWorkqueue.Windows
