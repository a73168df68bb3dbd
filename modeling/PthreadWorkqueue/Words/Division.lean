import Mathlib

/-! Signed division of machine words that are meant to be unsigned. -/
namespace PthreadWorkqueue.Words

section Quotients
variable {m n d : Nat}

/-- A negated quotient is zero only if the quotient was. -/
private theorem neg_div_eq_zero_iff (hn : n < m) (hd : 0 < d) : (m - n / d) % m = 0 ↔ n < d := by
  have hlt : n / d < m := Nat.lt_of_le_of_lt (Nat.div_le_self n d) hn
  rw [← Nat.div_eq_zero_iff_lt hd]
  generalize n / d = q at hlt ⊢
  constructor
  · intro h
    by_contra hne
    rw [Nat.mod_eq_of_lt (by omega)] at h
    omega
  · rintro rfl
    exact Nat.mod_self m

/-- The quotient of a number that counts as negative. -/
private theorem neg_div_ne (hn : n < m) (hd : 2 ≤ d) (hle : d ≤ n) (hneg : m ≤ 2 * n) :
    (m - (m - n) / d) % m ≠ n / d := by
  have hq : (m - n) / d ≤ (m - n) / 2 := Nat.div_le_div_left hd (by decide)
  have hr : n / d ≤ n / 2 := Nat.div_le_div_left hd (by decide)
  have hpos : 0 < n / d := Nat.div_pos hle (by omega)
  generalize (m - n) / d = q at hq ⊢
  generalize n / d = r at hr hpos ⊢
  by_cases hz : q = 0
  · rw [hz, Nat.sub_zero, Nat.mod_self]
    omega
  · rw [Nat.mod_eq_of_lt (by omega)]
    omega

/-- The quotient of two numbers that both count as negative. -/
private theorem complement_div_eq_iff (hn : n < m) (hd : d < m) (hneg : m ≤ 2 * n)
    (hneg' : m ≤ 2 * d) : (m - n) / (m - d) = n / d ↔ n = d := by
  rcases Nat.lt_trichotomy n d with h | rfl | h
  · have : 0 < (m - n) / (m - d) := Nat.div_pos (by omega) (by omega)
    rw [Nat.div_eq_of_lt h]
    omega
  · rw [Nat.div_self (by omega), Nat.div_self (by omega)]
    exact iff_of_true rfl rfl
  · have : 0 < n / d := Nat.div_pos (Nat.le_of_lt h) (by omega)
    rw [Nat.div_eq_of_lt (by omega : m - n < m - d)]
    omega

end Quotients

variable {w : Nat} {x y : BitVec w}

/-- Signed and unsigned division agree for divisors up to one, for equal numbers, and where the
dividend and the sum are small enough. -/
theorem sdiv_eq_udiv_iff : x.sdiv y = x / y ↔
    y.toNat ≤ 1 ∨ x = y ∨ (2 * x.toNat < 2 ^ w ∧ x.toNat + y.toNat < 2 ^ w) := by
  have hx := x.isLt
  have hy := y.isLt
  by_cases h1 : y.toNat ≤ 1
  · refine iff_of_true ?_ (.inl h1)
    rcases Nat.le_one_iff_eq_zero_or_eq_one.mp h1 with h | h
    · obtain rfl : y = 0#w := BitVec.eq_of_toNat_eq (by simpa using h)
      simp
    · obtain rfl : y = 1#w := BitVec.eq_of_toNat_eq (by
        rw [h, BitVec.toNat_ofNat, Nat.mod_eq_of_lt (by omega)])
      simp
  · rw [or_iff_right h1, ← BitVec.toNat_inj, ← BitVec.toNat_inj, BitVec.toNat_sdiv]
    have hneg : (-y).toNat = 2 ^ w - y.toNat := by
      rw [BitVec.toNat_neg, Nat.mod_eq_of_lt (by omega)]
    cases hmx : x.msb <;> cases hmy : y.msb <;>
      simp only [BitVec.msb_eq_false_iff_two_mul_lt, BitVec.msb_eq_true_iff_two_mul_ge] at hmx hmy <;>
      simp only [BitVec.udiv_eq, BitVec.toNat_udiv, BitVec.toNat_neg, hneg]
    · exact iff_of_true trivial (.inr ⟨hmx, by omega⟩)
    · rw [Nat.div_eq_of_lt (by omega : x.toNat < y.toNat), neg_div_eq_zero_iff hx (by omega)]
      omega
    · rw [Nat.mod_eq_of_lt (by omega : 2 ^ w - x.toNat < 2 ^ w)]
      have := neg_div_ne hx (by omega : 2 ≤ y.toNat) (by omega) hmx
      exact iff_of_false this (by omega)
    · rw [Nat.mod_eq_of_lt (by omega : 2 ^ w - x.toNat < 2 ^ w),
        complement_div_eq_iff hx hy hmx hmy]
      omega

end PthreadWorkqueue.Words
