import Mathlib.Data.List.Nodup
import Mathlib.Logic.Function.Basic

/-! Lists linked through the blocks of a memory, and blocks that have one owner each. -/
namespace PthreadWorkqueue.Memory
variable {α β ι : Type}

/-- The blocks from a pointer on, up to the null pointer; each has contents that satisfy `P`. -/
inductive Linked (next : β → Option α) (P : β → Prop) (h : α → Option β) :
    Option α → List α → Prop where
  | nil : Linked next P h none []
  | cons {w x l} : h w = some x → P x → Linked next P h (next x) l →
      Linked next P h (some w) (w :: l)

variable {next : β → Option α} {P : β → Prop} {h h' : α → Option β} {v : Option α} {w : α}
  {l m : List α}

theorem linked_none : Linked next P h none l ↔ l = [] := by
  constructor
  · rintro ⟨⟩
    rfl
  · rintro rfl
    exact .nil

theorem Linked.inv (hl : Linked next P h (some w) l) :
    ∃ x m, l = w :: m ∧ h w = some x ∧ P x ∧ Linked next P h (next x) m := by
  cases hl with
  | cons hw hx hm => exact ⟨_, _, rfl, hw, hx, hm⟩

/-- A list does not notice what happens to other blocks. -/
theorem Linked.frame (hl : Linked next P h v l) (same : ∀ w ∈ l, h' w = h w) :
    Linked next P h' v l := by
  induction hl with
  | nil => exact .nil
  | cons hw hx _ ih =>
    exact .cons ((same _ List.mem_cons_self).trans hw) hx
      (ih fun u hu => same u (List.mem_cons_of_mem _ hu))

theorem Linked.unique (hl : Linked next P h v l) (hm : Linked next P h v m) : l = m := by
  induction hl generalizing m with
  | nil => exact (linked_none.mp hm).symm
  | cons hw _ _ ih =>
    obtain ⟨x, m, rfl, hw', _, hm⟩ := hm.inv
    cases hw.symm.trans hw'
    rw [ih hm]

/-- No block has two owners, and none occurs twice in what its owner has. -/
structure Exclusive (own : ι → List α) : Prop where
  nodup : ∀ i, (own i).Nodup
  owner : ∀ i j w, w ∈ own i → w ∈ own j → i = j

variable [DecidableEq ι] {own : ι → List α} {i j k : ι} {a b : List α}

/-- What the owners have when two of them have got something else. -/
def assign (own : ι → List α) (i j : ι) (a b : List α) : ι → List α :=
  Function.update (Function.update own i a) j b

theorem assign_right : assign own i j a b j = b := Function.update_self ..

theorem assign_left (hij : i ≠ j) : assign own i j a b i = a := by
  rw [assign, Function.update_of_ne hij, Function.update_self]

theorem assign_other (hi : k ≠ i) (hj : k ≠ j) : assign own i j a b k = own k := by
  rw [assign, Function.update_of_ne hj, Function.update_of_ne hi]

/-- Two owners divide what they have, and what nobody had, among themselves. -/
theorem Exclusive.divide (h : Exclusive own) (hij : i ≠ j) (nodup : (a ++ b).Nodup)
    (source : ∀ w ∈ a ++ b, ∀ k, w ∈ own k → k = i ∨ k = j) : Exclusive (assign own i j a b) := by
  obtain ⟨ha, hb, hab⟩ := List.nodup_append.mp nodup
  have split : ∀ k, assign own i j a b k = a ∧ k = i ∨ assign own i j a b k = b ∧ k = j ∨
      assign own i j a b k = own k ∧ k ≠ i ∧ k ≠ j := by
    intro k
    by_cases hi : k = i
    · subst hi
      exact .inl ⟨assign_left hij, rfl⟩
    · by_cases hj : k = j
      · subst hj
        exact .inr (.inl ⟨assign_right, rfl⟩)
      · exact .inr (.inr ⟨assign_other hi hj, hi, hj⟩)
  have apart : ∀ w k, w ∈ a ++ b → k ≠ i → k ≠ j → w ∉ own k := fun w k hw hi hj hk =>
    (source w hw k hk).elim hi hj
  constructor
  · intro k
    obtain ⟨hk, -⟩ | ⟨hk, -⟩ | ⟨hk, -⟩ := split k <;> rw [hk]
    · exact ha
    · exact hb
    · exact h.nodup k
  · intro x y w hx hy
    obtain ⟨hk, hx'⟩ | ⟨hk, hx'⟩ | ⟨hk, hxi, hxj⟩ := split x <;> rw [hk] at hx <;>
      obtain ⟨hk, hy'⟩ | ⟨hk, hy'⟩ | ⟨hk, hyi, hyj⟩ := split y <;> rw [hk] at hy
    · rw [hx', hy']
    · exact absurd rfl (hab w hx w hy)
    · exact absurd hy (apart w y (List.mem_append_left b hx) hyi hyj)
    · exact absurd rfl (hab w hy w hx)
    · rw [hx', hy']
    · exact absurd hy (apart w y (List.mem_append_right a hx) hyi hyj)
    · exact absurd hx (apart w x (List.mem_append_left b hy) hxi hxj)
    · exact absurd hx (apart w x (List.mem_append_right a hy) hxi hxj)
    · exact h.owner x y w hx hy

end PthreadWorkqueue.Memory
