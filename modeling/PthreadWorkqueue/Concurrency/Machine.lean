import Mathlib.Data.List.Basic
import Mathlib.Logic.Function.Iterate

/-! Threads that take turns on one shared memory. A step is made by one thread:
it changes the memory and its own local state, may start threads, and emits events. -/
namespace PthreadWorkqueue.Concurrency
variable {σ π χ ε : Type}

structure Outcome (σ π ε : Type) where
  shared : σ
  pc : π
  spawned : List π := []
  events : List ε := []

structure Config (σ π : Type) where
  shared : σ
  threads : List π

/-- The local step: memory, thread number, local state and the choice that
resolves what the scheduler, the system or the user decides. -/
abbrev Machine (σ π χ ε : Type) := σ → Nat → π → χ → Option (Outcome σ π ε)

def Outcome.apply (o : Outcome σ π ε) (c : Config σ π) (t : Nat) : Config σ π :=
  ⟨o.shared, c.threads.set t o.pc ++ o.spawned⟩

namespace Machine

def step (M : Machine σ π χ ε) (c : Config σ π) (l : Nat × χ) : Option (Config σ π × List ε) :=
  (c.threads[l.1]?).bind fun p =>
    (M c.shared l.1 p l.2).map fun o => (o.apply c l.1, o.events)

/-- A thread takes a step: the local states and the outcome behind a global step. -/
structure Moves (M : Machine σ π χ ε) (c : Config σ π) (l : Nat × χ) (o : Outcome σ π ε)
    (p : π) : Prop where
  here : c.threads[l.1]? = some p
  next : M c.shared l.1 p l.2 = some o

theorem step_eq_some {M : Machine σ π χ ε} {c d : Config σ π} {l : Nat × χ} {es : List ε} :
    M.step c l = some (d, es) ↔
      ∃ p o, M.Moves c l o p ∧ d = o.apply c l.1 ∧ es = o.events := by
  simp only [step, Option.bind_eq_some_iff, Option.map_eq_some_iff, Prod.mk.injEq]
  constructor
  · rintro ⟨p, hp, o, ho, hd, he⟩
    exact ⟨p, o, ⟨hp, ho⟩, hd.symm, he.symm⟩
  · rintro ⟨p, o, h, hd, he⟩
    exact ⟨p, h.here, o, h.next, hd.symm, he.symm⟩

/-- Runs from `c₀` with their events, every step of which meets `G` in the state before it. -/
inductive Run (M : Machine σ π χ ε) (G : Config σ π → Nat × χ → Prop) (c₀ : Config σ π) :
    List ε → Config σ π → Prop where
  | start : Run M G c₀ [] c₀
  | step {tr es c d l} : Run M G c₀ tr c → G c l → M.step c l = some (d, es) →
      Run M G c₀ (tr ++ es) d

/-- Runs whose steps are not restricted. -/
abbrev Free (M : Machine σ π χ ε) (c₀ : Config σ π) (tr : List ε) (c : Config σ π) : Prop :=
  Run M (fun _ _ => True) c₀ tr c

variable {M : Machine σ π χ ε} {G H : Config σ π → Nat × χ → Prop} {c₀ c d : Config σ π}
  {tr es : List ε}

/-- The invariant rule: true at the start and kept by every step of every thread. -/
theorem Run.invariant (I : List ε → Config σ π → Prop) (start : I [] c₀)
    (step : ∀ tr c l p o, Run M G c₀ tr c → I tr c → G c l → M.Moves c l o p →
      I (tr ++ o.events) (o.apply c l.1)) (h : Run M G c₀ tr c) : I tr c := by
  induction h with
  | start => exact start
  | step hr hg hs ih =>
    obtain ⟨p, o, hm, rfl, rfl⟩ := step_eq_some.mp hs
    exact step _ _ _ p o hr ih hg hm

theorem Run.weaken (h : Run M G c₀ tr c) (hGH : ∀ c l, G c l → H c l) : Run M H c₀ tr c := by
  induction h with
  | start => exact .start
  | step _ hg hs ih => exact .step ih (hGH _ _ hg) hs

theorem Run.free (h : Run M G c₀ tr c) : Free M c₀ tr c := h.weaken fun _ _ _ => trivial

theorem Run.append (h : Run M G c₀ tr c) (h' : Run M G c es d) : Run M G c₀ (tr ++ es) d := by
  induction h' with
  | start => simpa using h
  | step _ hg hs ih =>
    rw [← List.append_assoc]
    exact .step ih hg hs

/-- The variant rule: an event is reached if from every state that keeps the invariant a run reaches
it, or a run keeps the invariant and lowers the rank. -/
theorem exists_run_of_rank {I : List ε → Config σ π → Prop} {E : ε → Prop} (rank : Config σ π → Nat)
    (next : ∀ tr c, I tr c → ∃ es d, Run M G c es d ∧
      ((∃ e ∈ es, E e) ∨ (I (tr ++ es) d ∧ rank d < rank c)))
    (h : I tr c) : ∃ es d, Run M G c es d ∧ ∃ e ∈ es, E e := by
  induction hn : rank c using Nat.strongRecOn generalizing tr c with
  | ind n ih =>
    subst hn
    obtain ⟨es, d, hrun, done | ⟨hi, hlt⟩⟩ := next tr c h
    · exact ⟨es, d, hrun, done⟩
    · obtain ⟨fs, f, hrun', e, he, hE⟩ := ih _ hlt hi rfl
      exact ⟨_, f, hrun.append hrun', e, List.mem_append_right _ he, hE⟩

/-- The step of one thread, as a run. -/
theorem Run.move {l : Nat × χ} {o : Outcome σ π ε} {p : π} (hg : G c l) (mv : M.Moves c l o p) :
    Run M G c o.events (o.apply c l.1) := by
  have first : Run M G c ([] ++ o.events) (o.apply c l.1) :=
    .step .start hg (step_eq_some.mpr ⟨p, o, mv, rfl, rfl⟩)
  exact first

/-- Executes a schedule, checking the guard in every state it passes. -/
def exec (M : Machine σ π χ ε) (g : Config σ π → Nat × χ → Bool) :
    Config σ π → List (Nat × χ) → Option (Config σ π × List ε)
  | c, [] => some (c, [])
  | c, l :: ls =>
    if g c l then
      (M.step c l).bind fun r => (exec M g r.1 ls).map fun q => (q.1, r.2 ++ q.2)
    else none

theorem exec_run {g : Config σ π → Nat × χ → Bool} {ls : List (Nat × χ)}
    (h : M.exec g c ls = some (d, tr)) : Run M (fun c l => g c l = true) c tr d := by
  induction ls generalizing c tr with
  | nil =>
    simp only [exec, Option.some.injEq, Prod.mk.injEq] at h
    obtain ⟨rfl, rfl⟩ := h
    exact .start
  | cons l ls ih =>
    simp only [exec, Option.ite_none_right_eq_some, Option.bind_eq_some_iff,
      Option.map_eq_some_iff, Prod.mk.injEq] at h
    obtain ⟨hg, ⟨e, es⟩, hs, ⟨f, fs⟩, hr, rfl, rfl⟩ := h
    have first : Run M (fun c l => g c l = true) c ([] ++ es) e := .step .start hg hs
    exact first.append (ih hr)

/-- A run that a test on its last state and its events singles out. -/
theorem exists_run {g : Config σ π → Nat × χ → Bool} (ls : List (Nat × χ))
    (P : Config σ π × List ε → Bool) (h : (M.exec g c ls).any P = true) :
    ∃ tr d, Run M (fun c l => g c l = true) c tr d ∧ P (d, tr) = true := by
  cases he : M.exec g c ls with
  | none => simp [he] at h
  | some r =>
    rw [he] at h
    exact ⟨r.2, r.1, exec_run he, h⟩

end Machine

end PthreadWorkqueue.Concurrency
