import PthreadWorkqueue.Memory.Stailq
import PthreadWorkqueue.Windows.Rwlock
import PthreadWorkqueue.Windows.SpinLocks

/-! The legacy manager with its item lists as `queue.h` keeps them. The macros are carried out statement
by statement, what a callback learns about a list it reads from the links, and a callback that uses an
item which was freed is noticed. -/
namespace PthreadWorkqueue.Windows
open Concurrency Memory
open Posix (Work Workq Tid QId)

structure LinkedShared where
  /-- The memory but for the item lists, which are empty here. -/
  pool : Shared
  links : TailMemory QId Work
  freed : List Work
  /-- Set once a thread has used the null pointer or an item that was freed. -/
  fault : Bool

def LinkedShared.live (sh : LinkedShared) (w : Work) : Bool :=
  decide (w.addr < sh.pool.heap ∧ w ∉ sh.freed)

inductive LinkedThread where
  | pool (p : Thread)
  /-- In STAILQ_INSERT_TAIL, with the statements that are left. -/
  | insert (k : Caller) (q : QId) (w : Work) (todo : List (Statement QId Work))
  /-- STAILQ_EMPTY was false; STAILQ_FIRST is next. -/
  | first (i j : Nat) (q : QId)
  /-- In STAILQ_REMOVE_HEAD. -/
  | remove (i j : Nat) (q : QId) (w : Work) (todo : List (Statement QId Work))
  /-- STAILQ_FIRST was null, and the scan is over. -/
  | leave (i j : Nat) (q : QId)
  deriving DecidableEq

/-- The point of the manager. -/
def LinkedThread.point : LinkedThread → Thread
  | .pool p => p
  | .insert k q w _ => .call k (.insert q w)
  | .first i j q | .remove i j q _ _ | .leave i j q => .worker (.look i j q)

abbrev LinkedOut := Outcome LinkedShared LinkedThread Event
abbrev LinkedState := Config LinkedShared LinkedThread

/-- The item that a point uses. -/
def Thread.uses : Thread → Option Work
  | .worker (.call w) | .worker (.free w) => some w
  | _ => none

def Event.frees : Event → Option Work
  | .free _ w => some w
  | _ => none

namespace LinkedShared

/-- A step of the manager. A queue that it allocates is initialised. -/
def after (sh : LinkedShared) (o : Out) : LinkedOut where
  shared :=
    { pool := o.shared
      links := if sh.pool.queues.length < o.shared.queues.length then
        stailqInit sh.links sh.pool.queues.length else sh.links
      freed := sh.freed ++ o.events.filterMap Event.frees
      fault := false }
  pc := .pool o.pc
  spawned := o.spawned.map .pool
  events := o.events

/-- A statement of a macro, of which `todo` is the rest. -/
def statement (sh : LinkedShared) (s : Statement QId Work) (todo : List (Statement QId Work))
    (x : List (Statement QId Work) → LinkedThread) : LinkedOut :=
  match s.exec sh.live sh.links with
  | some (links, more) => ⟨{ sh with links }, x (more ++ todo), [], []⟩
  | none => ⟨{ sh with fault := true }, x (s :: todo), [], []⟩

end LinkedShared

def linkedNext (sh : LinkedShared) (t : Tid) (x : LinkedThread) (ch : Choice) : Option LinkedOut :=
  match x, ch with
  | .pool (.call k (.insert q w)), .go => some ⟨sh, .insert k q w (stailqInsertTail q w), [], []⟩
  | .insert k q w (s :: todo), .go => some (sh.statement s todo (.insert k q w))
  | .insert k q w [], .go => some ⟨sh, .pool (.call k (.unlock q)), [], [.insert t q w]⟩
  | .pool (.worker (.look i j q)), .go => match stailqFirst sh.links q with
    | none => some ⟨sh, .pool (.worker (.unlock i j q none)), [], []⟩
    | some _ => some ⟨sh, .first i j q, [], []⟩
  | .first i j q, .go => match stailqFirst sh.links q with
    | none => some ⟨sh, .leave i j q, [], []⟩
    | some w => some ⟨sh, .remove i j q w (stailqRemoveHead q), [], []⟩
  | .remove i j q w (s :: todo), .go => some (sh.statement s todo (.remove i j q w))
  | .remove i j q w [], .go => some ⟨sh, .pool (.worker (.unlock i j q (some w))), [], []⟩
  | .leave _ _ q, .go => (sh.pool.queues[q]?).bind fun wq =>
    some ⟨{ sh with pool := sh.pool.setQueue q { wq with mtx := none } },
      .pool (.worker (.rdunlock none)), [], []⟩
  | .pool p, ch => (program sh.pool t p ch).map fun o =>
    if p.uses.all sh.live then sh.after o else ⟨{ sh with fault := true }, .pool p, [], []⟩
  | _, _ => none

/-- The manager over linked lists. -/
def linkedProgram : Machine LinkedShared LinkedThread Choice Event := fun sh t x ch =>
  if sh.fault = false ∧ sh.pool.aborted = false then linkedNext sh t x ch else none

/-- The links are what the memory happens to hold. -/
def linkedInitial (links : TailMemory QId Work) (users : Nat) : LinkedState :=
  ⟨⟨(initial users).shared, links, [], false⟩, (initial users).threads.map .pool⟩

/-! What a step can do -/

/-- The points whose steps use an item list. -/
def Thread.onList : Thread → Bool
  | .call _ (.insert _ _) | .worker (.look _ _ _) => true
  | _ => false

/-- A thread is about to use the null pointer or an item that was freed. -/
def LinkedThread.faults (sh : LinkedShared) : LinkedThread → Prop
  | .pool p => ∃ w, p.uses = some w ∧ sh.live w = false
  | .insert _ _ _ (s :: _) | .remove _ _ _ _ (s :: _) => s.exec sh.live sh.links = none
  | _ => False

inductive LinkedStep (sh : LinkedShared) (t : Tid) : LinkedThread → LinkedOut → Prop where
  | fault {x} : x.faults sh → LinkedStep sh t x ⟨{ sh with fault := true }, x, [], []⟩
  | pool {p ch o} : p.onList = false → program sh.pool t p ch = some o →
      (∀ w, p.uses = some w → sh.live w = true) → LinkedStep sh t (.pool p) (sh.after o)
  /- STAILQ_INSERT_TAIL -/
  | insert {k q w} : LinkedStep sh t (.pool (.call k (.insert q w)))
      ⟨sh, .insert k q w (stailqInsertTail q w), [], []⟩
  | inserting {k q w s todo links more} : s.exec sh.live sh.links = some (links, more) →
      LinkedStep sh t (.insert k q w (s :: todo))
        ⟨{ sh with links }, .insert k q w (more ++ todo), [], []⟩
  | inserted {k q w} : LinkedStep sh t (.insert k q w [])
      ⟨sh, .pool (.call k (.unlock q)), [], [.insert t q w]⟩
  /- STAILQ_EMPTY, STAILQ_FIRST, STAILQ_REMOVE_HEAD -/
  | empty {i j q} : stailqFirst sh.links q = none → LinkedStep sh t (.pool (.worker (.look i j q)))
      ⟨sh, .pool (.worker (.unlock i j q none)), [], []⟩
  | notEmpty {i j q w} : stailqFirst sh.links q = some w →
      LinkedStep sh t (.pool (.worker (.look i j q))) ⟨sh, .first i j q, [], []⟩
  | noFirst {i j q} : stailqFirst sh.links q = none →
      LinkedStep sh t (.first i j q) ⟨sh, .leave i j q, [], []⟩
  | first {i j q w} : stailqFirst sh.links q = some w →
      LinkedStep sh t (.first i j q) ⟨sh, .remove i j q w (stailqRemoveHead q), [], []⟩
  | removing {i j q w s todo links more} : s.exec sh.live sh.links = some (links, more) →
      LinkedStep sh t (.remove i j q w (s :: todo))
        ⟨{ sh with links }, .remove i j q w (more ++ todo), [], []⟩
  | removed {i j q w} : LinkedStep sh t (.remove i j q w [])
      ⟨sh, .pool (.worker (.unlock i j q (some w))), [], []⟩
  | leave {i j q wq} : sh.pool.queues[q]? = some wq → LinkedStep sh t (.leave i j q)
      ⟨{ sh with pool := sh.pool.setQueue q { wq with mtx := none } },
        .pool (.worker (.rdunlock none)), [], []⟩

variable {sh : LinkedShared} {t : Tid} {p : Thread} {x : LinkedThread} {ch : Choice} {o : LinkedOut}
  {s : Statement QId Work} {todo : List (Statement QId Work)}
  {f : List (Statement QId Work) → LinkedThread}

theorem LinkedShared.statement_cases :
    s.exec sh.live sh.links = none ∧
      sh.statement s todo f = ⟨{ sh with fault := true }, f (s :: todo), [], []⟩ ∨
    ∃ links more, s.exec sh.live sh.links = some (links, more) ∧
      sh.statement s todo f = ⟨{ sh with links }, f (more ++ todo), [], []⟩ := by
  unfold statement
  cases h : s.exec sh.live sh.links with
  | none => exact .inl ⟨rfl, rfl⟩
  | some r => exact .inr ⟨r.1, r.2, rfl, rfl⟩

/-- The steps at an item list are not left to a choice. -/
theorem go_of_onList {sh : Shared} {o : Out} (hp : p.onList = true)
    (h : program sh t p ch = some o) : ch = .go := by
  simp only [program, Option.ite_none_right_eq_some] at h
  cases p with
  | app k => cases hp
  | call k x =>
    cases x <;> cases hp
    cases ch <;> first | rfl | cases h.2
  | worker x =>
    cases x <;> cases hp
    cases ch <;> first | rfl | cases h.2

private theorem pool_step (hp : p.onList = true → ch ≠ .go)
    (h : ((program sh.pool t p ch).map fun o =>
      if p.uses.all sh.live then sh.after o else ⟨{ sh with fault := true }, .pool p, [], []⟩) = some o) :
    LinkedStep sh t (.pool p) o := by
  obtain ⟨o', ho', rfl⟩ := Option.map_eq_some_iff.mp h
  have hlist : p.onList = false := Bool.eq_false_iff.mpr fun hl => hp hl (go_of_onList hl ho')
  split
  · rename_i hall
    refine .pool hlist ho' fun w hw => ?_
    rw [hw] at hall
    exact hall
  · rename_i hall
    refine .fault ?_
    cases hu : p.uses with
    | none =>
      rw [hu] at hall
      exact absurd rfl hall
    | some w =>
      rw [hu] at hall
      exact ⟨w, hu, Bool.eq_false_iff.mpr hall⟩

theorem linked_step (h : linkedProgram sh t x ch = some o) :
    sh.fault = false ∧ sh.pool.aborted = false ∧ LinkedStep sh t x o := by
  simp only [linkedProgram, Option.ite_none_right_eq_some] at h
  obtain ⟨⟨hf, ha⟩, h⟩ := h
  refine ⟨hf, ha, ?_⟩
  unfold linkedNext at h
  split at h
  · cases h
    exact .insert
  · cases h
    obtain ⟨hn, ho⟩ | ⟨links, more, he, ho⟩ := sh.statement_cases <;> rw [ho]
    · exact .fault hn
    · exact .inserting he
  · cases h
    exact .inserted
  · split at h <;> cases h
    · exact .empty (by assumption)
    · exact .notEmpty (by assumption)
  · split at h <;> cases h
    · exact .noFirst (by assumption)
    · exact .first (by assumption)
  · cases h
    obtain ⟨hn, ho⟩ | ⟨links, more, he, ho⟩ := sh.statement_cases <;> rw [ho]
    · exact .fault hn
    · exact .removing he
  · cases h
    exact .removed
  · obtain ⟨wq, hq, h⟩ := Option.bind_eq_some_iff.mp h
    cases h
    exact .leave hq
  · rename_i p hinsert hlook
    refine pool_step (fun hl hgo => ?_) h
    cases p with
    | app k => cases hl
    | call k x =>
      cases x <;> cases hl
      exact hinsert _ _ _ hgo rfl
    | worker x =>
      cases x <;> cases hl
      exact hlook _ _ _ hgo rfl
  · cases h

/-- The manager over linked lists, with `wqlist_mtx` outside of its memory. -/
def linkedManager : RwClient LinkedShared LinkedThread Choice Event where
  next := linkedProgram
  ended sh := sh.fault || sh.pool.aborted
  calls
    | .pool p => p.rwCall
    | _ => none
  resume
    | .pool p, _ => .pool p.rwResume
    | x, _ => x
  mode x := x.point.rwMode
  asks {x f} hc hf := by
    cases x with
    | pool p => exact manager.asks (p := p) hc hf
    | _ => cases hc
  has {x} hc := by
    cases x with
    | pool p => exact manager.has (p := p) hc
    | _ => cases hc
  granted {x f} hc := by
    cases x with
    | pool p => exact manager.granted (p := p) hc
    | _ => cases hc
  refused {x f} hc hf := by
    cases x with
    | pool p => exact manager.refused (p := p) hc hf
    | _ => cases hc
  own {s t x ch o} hc ho := by
    cases (linked_step ho).2.2 with
    | @pool p _ _ _ hstep => exact rwMode_step (program_step hstep) hc
    | _ => rfl
  fresh {s t x ch o} hc ho r hr := by
    cases (linked_step ho).2.2 with
    | pool _ hstep =>
      obtain ⟨p, hp, rfl⟩ := List.mem_map.mp hr
      rw [(program_step hstep).spawned p hp]
      rfl
    | _ => cases hr

end PthreadWorkqueue.Windows
