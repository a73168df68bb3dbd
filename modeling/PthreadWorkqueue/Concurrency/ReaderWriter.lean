import PthreadWorkqueue.Concurrency.Counting
import PthreadWorkqueue.Concurrency.Simulation

/-! Programs that use a reader-writer lock, and the lock as they want it: atomic, with at most one
writer, no reader beside a writer, and no new reader while a writer waits. -/
namespace PthreadWorkqueue.Concurrency
variable {σ π χ ε : Type}

inductive RwCall where
  | rdlock | wrlock | unlock | tryrdlock | trywrlock
  deriving DecidableEq, Repr

/-- The calls that return without the lock when it is not free. -/
def RwCall.tries : RwCall → Bool
  | .tryrdlock | .trywrlock => true
  | _ => false

/-- What a thread has of the lock. -/
inductive RwMode where
  | out | read | write
  deriving DecidableEq, Repr

/-- What the thread has when the call succeeds. -/
def RwCall.gives : RwCall → RwMode
  | .rdlock | .tryrdlock => .read
  | .wrlock | .trywrlock => .write
  | .unlock => .out

/-- A program with calls of the lock. A thread asks for the lock when it has nothing of it, and gives
back what it has. -/
structure RwClient (σ π χ ε : Type) where
  /-- The steps that are no calls. -/
  next : Machine σ π χ ε
  /-- The process has died. -/
  ended : σ → Bool
  calls : π → Option RwCall
  /-- Where the thread goes on, and whether the call has succeeded. -/
  resume : π → Bool → π
  mode : π → RwMode
  asks : ∀ {p f}, calls p = some f → f ≠ .unlock → mode p = .out
  has : ∀ {p}, calls p = some .unlock → mode p ≠ .out
  granted : ∀ {p f}, calls p = some f → mode (resume p true) = f.gives
  refused : ∀ {p f}, calls p = some f → f.tries = true → mode (resume p false) = mode p
  own : ∀ {s t p ch o}, calls p = none → next s t p ch = some o → mode o.pc = mode p
  fresh : ∀ {s t p ch o}, calls p = none → next s t p ch = some o → ∀ r ∈ o.spawned, mode r = .out

/-- The memory of a program with an atomic lock. -/
structure RwState (σ : Type) where
  mem : σ
  readers : Nat
  writer : Bool
  /-- The threads that wait to write. -/
  pending : Nat

inductive RwPoint (π : Type) where
  | run (p : π)
  /-- The thread has said that it wants to write. -/
  | waits (p : π)
  deriving DecidableEq, Repr

def RwPoint.point : RwPoint π → π
  | .run p | .waits p => p

namespace RwClient
variable (P : RwClient σ π χ ε)

/-- The outcome of a step of the program, in a larger memory. -/
def lift {σ' π' : Type} (mem : σ → σ') (run : π → π') (o : Outcome σ π ε) : Outcome σ' π' ε :=
  ⟨mem o.shared, run o.pc, o.spawned.map run, o.events⟩

/-- A call that an atomic lock carries out in one step. -/
def call (s : RwState σ) (p : π) : RwCall → Option (Outcome (RwState σ) (RwPoint π) ε)
  | .rdlock =>
    if s.writer = false ∧ s.pending = 0 then
      some ⟨{ s with readers := s.readers + 1 }, .run (P.resume p true), [], []⟩
    else none
  | .wrlock => some ⟨{ s with pending := s.pending + 1 }, .waits p, [], []⟩
  | .unlock =>
    some ⟨if P.mode p = .write then { s with writer := false }
      else { s with readers := s.readers - 1 }, .run (P.resume p true), [], []⟩
  | .tryrdlock =>
    if s.writer = false ∧ s.pending = 0 then
      some ⟨{ s with readers := s.readers + 1 }, .run (P.resume p true), [], []⟩
    else some ⟨s, .run (P.resume p false), [], []⟩
  | .trywrlock =>
    if s.readers = 0 ∧ s.writer = false then
      some ⟨{ s with writer := true }, .run (P.resume p true), [], []⟩
    else some ⟨s, .run (P.resume p false), [], []⟩

/-- The program over an atomic lock. -/
def atomic : Machine (RwState σ) (RwPoint π) χ ε := fun s t x ch =>
  if P.ended s.mem = false then
    match x with
    | .run p => match P.calls p with
      | none => (P.next s.mem t p ch).map (lift (fun m => { s with mem := m }) .run)
      | some f => P.call s p f
    | .waits p =>
      if s.readers = 0 ∧ s.writer = false then
        some ⟨{ s with pending := s.pending - 1, writer := true }, .run (P.resume p true), [], []⟩
      else none
  else none

/-- The start of the program, with nobody in the lock. -/
def atomicStart (c : Config σ π) : Config (RwState σ) (RwPoint π) :=
  ⟨⟨c.shared, 0, false, 0⟩, c.threads.map .run⟩

/-- What the program does itself meets `A`. -/
def meets (A : σ → π → Prop) (c : Config (RwState σ) (RwPoint π)) (l : Nat × χ) : Prop :=
  ∀ p, c.threads[l.1]? = some (.run p) → P.calls p = none → A c.shared.mem p

section Runs
variable {P} {s : RwState σ} {p : π} {f : RwCall} {o : Outcome (RwState σ) (RwPoint π) ε}
  {c₀ : Config σ π} {G : Config (RwState σ) (RwPoint π) → Nat × χ → Prop} {tr : List ε}
  {d : Config (RwState σ) (RwPoint π)}

/-- A call starts no thread, and only a writer stays in it. -/
theorem call_pc (h : P.call s p f = some o) :
    o.spawned = [] ∧ (o.pc = .waits p ∧ f = .wrlock ∨ ∃ ok, o.pc = .run (P.resume p ok)) := by
  cases f with
  | wrlock => cases h; exact ⟨rfl, .inl ⟨rfl, rfl⟩⟩
  | unlock => cases h; exact ⟨rfl, .inr ⟨true, rfl⟩⟩
  | rdlock =>
    simp only [call, Option.ite_none_right_eq_some] at h
    obtain ⟨-, h⟩ := h
    cases h
    exact ⟨rfl, .inr ⟨true, rfl⟩⟩
  | tryrdlock | trywrlock =>
    simp only [call] at h
    split at h <;> cases h <;> exact ⟨rfl, .inr ⟨_, rfl⟩⟩

/-- The threads that wait to write are in a call to do so. -/
theorem calls_of_waits (h : Machine.Run P.atomic G (atomicStart c₀) tr d) :
    ∀ (t : Nat) (y : RwPoint π), d.threads[t]? = some y → ∀ q, y = .waits q →
      P.calls q = some .wrlock := by
  refine h.invariant (fun _ d => ∀ (t : Nat) (y : RwPoint π), d.threads[t]? = some y →
    ∀ q, y = .waits q → P.calls q = some .wrlock) ?_ ?_
  · intro t y hy q hq
    obtain ⟨p, -, rfl⟩ := List.mem_map.mp (List.mem_of_getElem? hy)
    cases hq
  · intro tr d l y o _ ih _ mv
    have hn := mv.next
    simp only [atomic, Option.ite_none_right_eq_some] at hn
    obtain ⟨-, hn⟩ := hn
    refine Outcome.forall_apply (P := fun _ y => ∀ q, y = .waits q → P.calls q = some .wrlock) ih
      mv.here (fun _ => ?_) (fun _ _ _ _ hr => hr) ?_
    · intro q hq
      cases y with
      | run p =>
        simp only at hn
        split at hn
        · obtain ⟨o', -, rfl⟩ := Option.map_eq_some_iff.mp hn
          cases hq
        · rename_i f hf
          obtain ⟨-, ⟨hpc, rfl⟩ | ⟨ok, hpc⟩⟩ := call_pc hn <;> rw [hpc] at hq <;> cases hq
          exact hf
      | waits p =>
        simp only [Option.ite_none_right_eq_some] at hn
        obtain ⟨-, hn⟩ := hn
        cases hn
        cases hq
    · intro u r hr q hq
      cases y with
      | run p =>
        simp only at hn
        split at hn
        · obtain ⟨o', -, rfl⟩ := Option.map_eq_some_iff.mp hn
          obtain ⟨z, -, rfl⟩ := List.mem_map.mp hr
          cases hq
        · rw [(call_pc hn).1] at hr
          cases hr
      | waits p =>
        simp only [Option.ite_none_right_eq_some] at hn
        obtain ⟨-, hn⟩ := hn
        cases hn
        cases hr

end Runs
end RwClient
end PthreadWorkqueue.Concurrency
