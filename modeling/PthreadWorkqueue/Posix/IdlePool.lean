import PthreadWorkqueue.Posix.State

/-! A pool with nothing to do, one timer tick at a time: what the ramp-down is for. The manager's own
steps are related to it elsewhere. -/
namespace PthreadWorkqueue.Posix
open Concurrency

/-- The idle workers and the seconds for which they have been idle. -/
structure IdlePool where
  idle : Nat
  seconds : Nat

namespace IdlePool

/-- A tick of the timer with a threshold of `T` workers. -/
def tick (T : Nat) (s : IdlePool) : IdlePool :=
  if T < s.idle then
    let acc := s.seconds + s.idle
    if 0 < acc / workerIdleSecondsThreshold then
      ⟨s.idle - min (acc / workerIdleSecondsThreshold) (s.idle - T), 0⟩
    else ⟨s.idle, acc⟩
  else ⟨s.idle, 0⟩

/-- Less than the seconds that it takes to stop a worker. -/
def Fresh (s : IdlePool) : Prop := s.seconds < workerIdleSecondsThreshold

variable {T : Nat} {s : IdlePool}

/-- The three ways in which a tick can go. -/
theorem tick_cases (T : Nat) (s : IdlePool) :
    (s.idle ≤ T ∧ s.tick T = ⟨s.idle, 0⟩) ∨
    (T < s.idle ∧ s.seconds + s.idle < workerIdleSecondsThreshold ∧
      s.tick T = ⟨s.idle, s.seconds + s.idle⟩) ∨
    (T < s.idle ∧ ∃ m, 0 < m ∧ m ≤ s.idle - T ∧ s.tick T = ⟨s.idle - m, 0⟩) := by
  by_cases hT : T < s.idle
  · by_cases hz : 0 < (s.seconds + s.idle) / workerIdleSecondsThreshold
    · refine .inr (.inr ⟨hT, _, ?_, Nat.min_le_right _ _, by simp only [tick, if_pos hT, if_pos hz]; rfl⟩)
      exact Nat.lt_min.mpr ⟨hz, Nat.sub_pos_of_lt hT⟩
    · have hlt := (Nat.div_eq_zero_iff.mp (Nat.eq_zero_of_not_pos hz)).resolve_left (by decide)
      exact .inr (.inl ⟨hT, hlt, by simp only [tick, if_pos hT, if_neg hz]⟩)
  · exact .inl ⟨Nat.le_of_not_lt hT, by rw [tick, if_neg hT]⟩

theorem fresh_tick : (s.tick T).Fresh := by
  rcases tick_cases T s with ⟨-, he⟩ | ⟨-, hlt, he⟩ | ⟨-, m, -, -, he⟩ <;> rw [he]
  · exact Nat.succ_pos 14
  · exact hlt
  · exact Nat.succ_pos 14

theorem le_tick (h : T ≤ s.idle) : T ≤ (s.tick T).idle := by
  rcases tick_cases T s with ⟨-, he⟩ | ⟨-, -, he⟩ | ⟨-, m, -, hm, he⟩ <;> rw [he] <;> simp only
  · exact h
  · exact h
  · omega

theorem tick_le : (s.tick T).idle ≤ s.idle := by
  rcases tick_cases T s with ⟨-, he⟩ | ⟨-, -, he⟩ | ⟨-, m, -, -, he⟩
  · exact he ▸ Nat.le_refl s.idle
  · exact he ▸ Nat.le_refl s.idle
  · exact he ▸ Nat.sub_le s.idle m

variable (T s) in
/-- The pool after `k` ticks. -/
def after (k : Nat) : IdlePool := (tick T)^[k] s

theorem after_succ (k : Nat) : s.after T (k + 1) = (s.after T k).tick T :=
  Function.iterate_succ_apply' _ _ _

theorem fresh_after (hs : s.Fresh) (k : Nat) : (s.after T k).Fresh := by
  cases k with
  | zero => exact hs
  | succ k => rw [after_succ]; exact fresh_tick

theorem le_after (h : T ≤ s.idle) (k : Nat) : T ≤ (s.after T k).idle := by
  induction k with
  | zero => exact h
  | succ k ih => rw [after_succ]; exact le_tick ih

theorem after_le (k : Nat) : (s.after T k).idle ≤ s.idle := by
  induction k with
  | zero => exact Nat.le_refl _
  | succ k ih => rw [after_succ]; exact Nat.le_trans tick_le ih

end IdlePool
end PthreadWorkqueue.Posix
