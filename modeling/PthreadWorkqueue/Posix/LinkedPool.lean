import PthreadWorkqueue.Memory.Stailq
import PthreadWorkqueue.Posix.Relist

/-! The pool with its item lists as `queue.h` keeps them. The macros are carried out statement by
statement, and what a thread learns about a list it reads from the links. -/
namespace PthreadWorkqueue.Posix
open Concurrency Memory

structure LinkedShared where
  /-- The memory but for the item lists, which are empty here. -/
  pool : Shared
  links : TailMemory QId Work
  /-- Set once a statement has used the null pointer or an item that was freed. -/
  fault : Bool

/-- A macro that a thread is in: its queue and its item, and the statements that are left. -/
structure InMacro where
  q : QId
  w : Work
  todo : List (Statement QId Work)
  deriving DecidableEq

structure LinkedThread where
  point : Thread
  inside : Option InMacro
  deriving DecidableEq

/-- The macro that a program point stands for. -/
def LinkedShared.macroAt (sh : LinkedShared) : Thread → Option InMacro
  | .call _ (.add q w .insert) | .call _ (.ocAdd q w .insert) | .manager _ (.stop _ _ (.insert w q)) =>
    some ⟨q, w, stailqInsertTail q w⟩
  | .worker _ (.scan _ (.remove q w)) => some ⟨q, w, stailqRemoveHead q⟩
  | .overcommit .scan =>
    sh.pool.ocwqHead.bind fun q => (stailqFirst sh.links q).map fun w => ⟨q, w, stailqRemoveHead q⟩
  | _ => none

/-- The item of a macro, which a thread that has removed it still knows. -/
def LinkedThread.known (x : LinkedThread) (q : QId) : List Work :=
  match x.inside with
  | some i => if i.q = q then [i.w] else []
  | none => []

/-- What a thread knows of the lists when it makes a step of the pool: the item of its macro, and what
STAILQ_FIRST and STAILQ_EMPTY read. -/
def LinkedShared.seenBy (sh : LinkedShared) (x : LinkedThread) (q : QId) : List Work :=
  if q < sh.pool.queues.length then x.known q ++ (stailqFirst sh.links q).toList else []

/-- A step of the pool. A queue that it allocates is initialised. -/
def LinkedShared.after (sh : LinkedShared) (o : Out) : Outcome LinkedShared LinkedThread Event where
  shared :=
    { pool := o.shared.relist fun _ => []
      links := if sh.pool.queues.length < o.shared.queues.length then
        stailqInit sh.links sh.pool.queues.length else sh.links
      fault := false }
  pc := ⟨o.pc, none⟩
  spawned := o.spawned.map fun p => ⟨p, none⟩
  events := o.events

/-- The pool over linked lists. -/
def linkedProgram (S : Settings) : Machine LinkedShared LinkedThread Choice Event := fun sh t x ch =>
  if sh.fault || sh.pool.halted.isSome then none
  else match x.inside with
    | some ⟨q, w, s :: todo⟩ =>
      if ch = .go then
        match s.exec sh.pool.live sh.links with
        | some (links, more) => some ⟨{ sh with links }, ⟨x.point, some ⟨q, w, more ++ todo⟩⟩, [], []⟩
        | none => some ⟨{ sh with fault := true }, x, [], []⟩
      else none
    | some ⟨_, _, []⟩ => (program S (sh.pool.relist (sh.seenBy x)) t x.point ch).map sh.after
    | none => match sh.macroAt x.point with
      | some i => if ch = .go then some ⟨sh, ⟨x.point, some i⟩, [], []⟩ else none
      | none => (program S (sh.pool.relist (sh.seenBy x)) t x.point ch).map sh.after

/-- The links are what the memory happens to hold. -/
def linkedInitial (links : TailMemory QId Work) (users managers : Nat) :
    Config LinkedShared LinkedThread :=
  ⟨⟨managerInit, links, false⟩, (initial users managers).threads.map fun p => ⟨p, none⟩⟩

end PthreadWorkqueue.Posix
