import PthreadWorkqueue.Concurrency.Machine
import Mathlib.Algebra.Order.BigOperators.Group.List
import Mathlib.Algebra.Order.Group.Nat
import Mathlib.Algebra.GroupWithZero.Nat
import Mathlib.Logic.Relation

/-! Counting threads. A step changes the local state of one thread, so a count over all threads
changes by what that thread and the threads it starts contribute. -/
namespace PthreadWorkqueue.Concurrency
variable {σ π χ ε : Type}

theorem sum_map_set {α : Type} (f : α → Nat) {l : List α} {i : Nat} {a : α} (b : α)
    (h : l[i]? = some a) : ((l.set i b).map f).sum + f a = (l.map f).sum + f b := by
  induction l generalizing i with
  | nil => simp at h
  | cons x l ih =>
    cases i with
    | zero =>
      simp only [List.getElem?_cons_zero, Option.some.injEq] at h
      subst h
      simp only [List.set_cons_zero, List.map_cons, List.sum_cons]
      omega
    | succ i =>
      have hi := ih (by simpa using h)
      simp only [List.set_cons_succ, List.map_cons, List.sum_cons]
      omega

theorem le_sum_map {α : Type} (f : α → Nat) {l : List α} {i : Nat} {a : α}
    (h : l[i]? = some a) : f a ≤ (l.map f).sum := by
  exact List.le_sum_of_mem (List.mem_map_of_mem (List.mem_of_getElem? h))

theorem sum_map_eq_zero {α : Type} {f : α → Nat} {l : List α} (h : ∀ a ∈ l, f a = 0) :
    (l.map f).sum = 0 := by
  refine List.sum_eq_zero fun n hn => ?_
  obtain ⟨a, ha, rfl⟩ := List.mem_map.mp hn
  exact h a ha

theorem sum_map_toNat {α : Type} (P : α → Bool) (l : List α) :
    (l.map fun a => (P a).toNat).sum = l.countP P := by
  induction l with
  | nil => rfl
  | cons a l ih =>
    rw [List.map_cons, List.sum_cons, ih, List.countP_cons]
    cases P a <;> simp [Nat.add_comm]

theorem countP_singleton_toNat {α : Type} (P : α → Bool) (a : α) : [a].countP P = (P a).toNat := by
  rw [List.countP_singleton]
  cases P a <;> rfl

/-- A weight that changes at one value changes a sum once for each time the value occurs. -/
theorem sum_map_update {α : Type} [DecidableEq α] (f : α → Nat) (a : α) (n : Nat) (l : List α) :
    (l.map (Function.update f a n)).sum + l.count a * f a = (l.map f).sum + l.count a * n := by
  induction l with
  | nil => simp
  | cons b l ih =>
    simp only [List.map_cons, List.sum_cons]
    by_cases hb : b = a
    · subst hb
      rw [List.count_cons_self, Function.update_self, Nat.add_mul, Nat.add_mul]
      omega
    · rw [List.count_cons_of_ne hb, Function.update_of_ne hb]
      omega

namespace Config

/-- The sum of a weight over all threads. -/
def total (f : π → Nat) (c : Config σ π) : Nat := (c.threads.map f).sum

/-- The number of threads whose local state satisfies a test. -/
def number (P : π → Bool) (c : Config σ π) : Nat := c.threads.countP P

/-- The number of threads that satisfy a test on their number and their local state. -/
def numberAt (P : Nat → π → Bool) (c : Config σ π) : Nat :=
  c.threads.zipIdx.countP fun x => P x.2 x.1

theorem number_eq_total (P : π → Bool) (c : Config σ π) :
    c.number P = c.total fun p => (P p).toNat :=
  (sum_map_toNat P c.threads).symm

end Config

variable {c : Config σ π} {o : Outcome σ π ε} {t u : Nat} {p r : π}

theorem Outcome.total_apply (f : π → Nat) (h : c.threads[t]? = some p) :
    (o.apply c t).total f + f p = c.total f + f o.pc + (o.spawned.map f).sum := by
  have := sum_map_set f o.pc h
  simp only [Outcome.apply, Config.total, List.map_append, List.sum_append]
  omega

/-- How a number of threads changes in a step that starts none of them. -/
theorem Outcome.number_apply {P : π → Bool} (h : c.threads[t]? = some p)
    (fresh : ∀ r ∈ o.spawned, P r = false) :
    (o.apply c t).number P + (P p).toNat = c.number P + (P o.pc).toNat := by
  have htotal := Outcome.total_apply (o := o) (fun p => (P p).toNat) h
  have hzero : (o.spawned.map fun r => (P r).toNat).sum = 0 :=
    sum_map_eq_zero fun r hr => by rw [fresh r hr]; rfl
  rw [Config.number_eq_total, Config.number_eq_total]
  omega

theorem Config.le_total (f : π → Nat) (h : c.threads[t]? = some p) : f p ≤ c.total f :=
  le_sum_map f h

/-- The threads that pass a test are counted by two tests that cover it. -/
theorem Config.number_le_add {P Q R : π → Bool}
    (h : ∀ p ∈ c.threads, P p = true → Q p = true ∨ R p = true) :
    c.number P ≤ c.number Q + c.number R := by
  unfold Config.number
  generalize c.threads = l at h
  induction l with
  | nil => exact Nat.le_refl _
  | cons p l ih =>
    have hl := ih fun r hr => h r (List.mem_cons_of_mem p hr)
    have hp := h p List.mem_cons_self
    simp only [List.countP_cons]
    cases hP : P p with
    | false => simp only [Bool.false_eq_true, if_false]; omega
    | true => rcases hp hP with hQ | hR <;> simp only [*, if_true] <;> omega

theorem Config.total_congr {f g : π → Nat} (h : ∀ p ∈ c.threads, f p = g p) :
    c.total f = c.total g := by
  rw [Config.total, Config.total, List.map_congr_left h]

theorem Config.total_lt_total {f g : π → Nat} (h : c.threads[t]? = some p) (hle : ∀ r, f r ≤ g r)
    (hlt : f p < g p) : c.total f < c.total g :=
  List.sum_lt_sum f g (fun r _ => hle r) ⟨p, List.mem_of_getElem? h, hlt⟩

theorem Outcome.get_self (h : c.threads[t]? = some p) : (o.apply c t).threads[t]? = some o.pc := by
  obtain ⟨ht, _⟩ := List.getElem?_eq_some_iff.mp h
  simp only [Outcome.apply]
  rw [List.getElem?_append_left (by simpa using ht), List.getElem?_set_self ht]

theorem Outcome.get_other (hu : u ≠ t) (h : c.threads[u]? = some r) :
    (o.apply c t).threads[u]? = some r := by
  obtain ⟨hl, _⟩ := List.getElem?_eq_some_iff.mp h
  simp only [Outcome.apply]
  rw [List.getElem?_append_left (by simpa using hl), List.getElem?_set_ne (Ne.symm hu), h]

/-- The threads after a step: the one that moved, the others, and those it started. -/
theorem Outcome.get_cases (h : c.threads[t]? = some p)
    (hr : (o.apply c t).threads[u]? = some r) :
    (u = t ∧ r = o.pc) ∨ (u ≠ t ∧ c.threads[u]? = some r) ∨
      (c.threads.length ≤ u ∧ r ∈ o.spawned) := by
  by_cases hu : u < c.threads.length
  · by_cases hut : u = t
    · subst hut
      rw [Outcome.get_self h] at hr
      exact .inl ⟨rfl, (Option.some.inj hr).symm⟩
    · have hg : c.threads[u]? = some c.threads[u] := List.getElem?_eq_getElem hu
      rw [Outcome.get_other hut hg] at hr
      exact .inr (.inl ⟨hut, hg.trans hr⟩)
  · have hl : (c.threads.set t o.pc).length ≤ u := by simpa using hu
    simp only [Outcome.apply, List.getElem?_append_right hl] at hr
    exact .inr (.inr ⟨by omega, List.mem_of_getElem? hr⟩)

/-- A thread that has a property after a step had it before, if the step neither gives it to the
thread that moves nor starts a thread with it. -/
theorem Outcome.exists_before {P : π → Prop} (h : c.threads[t]? = some p) (self : P o.pc → P p)
    (fresh : ∀ r ∈ o.spawned, ¬ P r) (hu : (o.apply c t).threads[u]? = some r) (hr : P r) :
    ∃ r', c.threads[u]? = some r' ∧ P r' := by
  obtain ⟨rfl, rfl⟩ | ⟨-, hu⟩ | ⟨-, hu⟩ := Outcome.get_cases h hu
  · exact ⟨p, h, self hr⟩
  · exact ⟨r, hu, hr⟩
  · exact absurd hr (fresh r hu)

/-- What holds of all threads after a step held before it, if it held of the thread that moves. -/
theorem Outcome.forall_before {Q : Nat → π → Prop} (h : c.threads[t]? = some p)
    (self : Q t o.pc → Q t p) (all : ∀ u r, (o.apply c t).threads[u]? = some r → Q u r) :
    ∀ u r, c.threads[u]? = some r → Q u r := by
  intro u r hu
  by_cases hut : u = t
  · subst hut
    rw [h] at hu
    cases hu
    exact self (all u o.pc (Outcome.get_self h))
  · exact all u r (Outcome.get_other hut hu)

/-- A property that the thread that moves keeps does not leave the last thread that has it. -/
theorem Outcome.exists_after {P : π → Prop} (h : c.threads[t]? = some p) (self : P p → P o.pc)
    (hex : ∃ (u : Nat) (r : π), c.threads[u]? = some r ∧ P r) :
    ∃ (u : Nat) (r : π), (o.apply c t).threads[u]? = some r ∧ P r := by
  by_contra hnone
  obtain ⟨u, r, hu, hr⟩ := hex
  have hall := Outcome.forall_before (Q := fun _ r => ¬ P r) h (fun hn hp => hn (self hp))
    fun u r hu hr => hnone ⟨u, r, hu, hr⟩
  exact hall u r hu hr

/-- At most one thread passes a test if all who pass it are the same. -/
theorem Config.number_le_of_unique {P : π → Bool} (h : c.threads[t]? = some p) {z : π}
    (hz : P z = false) (unique : ∀ u r, c.threads[u]? = some r → P r = true → u = t) :
    c.number P ≤ (P p).toNat := by
  have hset := Outcome.number_apply (P := P) (o := (⟨c.shared, z, [], []⟩ : Outcome σ π Unit)) h (by simp)
  have hnone : ((⟨c.shared, z, [], []⟩ : Outcome σ π Unit).apply c t).number P = 0 := by
    refine List.countP_eq_zero.mpr fun r hr => ?_
    obtain ⟨u, hu⟩ := List.getElem?_of_mem hr
    obtain ⟨rfl, rfl⟩ | ⟨hne, hu⟩ | ⟨_, hu⟩ := Outcome.get_cases h hu
    · simp [hz]
    · exact fun hP => hne (unique u r hu hP)
    · cases hu
  simp only [hnone, hz, Bool.toNat_false] at hset
  omega

/-- Two threads that pass a test are the same if at most one does. -/
theorem Config.eq_of_number_le_one {P : π → Bool} (hone : c.number P ≤ 1) (h : c.threads[t]? = some p)
    (hP : P p = true) {z : π} (hz : P z = false) (hr : c.threads[u]? = some r) (hR : P r = true) :
    u = t := by
  by_contra hne
  have hset := Outcome.number_apply (P := P) (o := (⟨c.shared, z, [], []⟩ : Outcome σ π Unit)) h (by simp)
  have hstay := Outcome.get_other (o := (⟨c.shared, z, [], []⟩ : Outcome σ π Unit)) hne hr
  have hpos := List.countP_pos_iff.mpr ⟨r, List.mem_of_getElem? hstay, hR⟩
  simp only [hP, hz, Bool.toNat_true, Bool.toNat_false, Config.number] at hset hone
  omega

/-- Only one thread passes a test that at most one passes. -/
theorem Config.unique_of_number_le_one {P : π → Bool} (hone : c.number P ≤ 1)
    (h : c.threads[t]? = some p) (hP : P p = true) (hr : c.threads[u]? = some r) (hR : P r = true) :
    u = t := by
  let tests : Config Unit Bool := ⟨(), c.threads.map P⟩
  have hone' : tests.number id ≤ 1 := by
    change (c.threads.map P).countP id ≤ 1
    rw [List.countP_map]
    exact hone
  refine Config.eq_of_number_le_one (z := false) hone' (p := true) (r := true) ?_ rfl rfl ?_ rfl
  · simp only [tests, List.getElem?_map, h, Option.map_some, hP]
  · simp only [tests, List.getElem?_map, hr, Option.map_some, hR]

/-- A property of each thread, kept by the step for the thread that moves, for the others and for
the threads that start. -/
theorem Outcome.forall_apply {P Q : Nat → π → Prop} (all : ∀ u r, c.threads[u]? = some r → P u r)
    (h : c.threads[t]? = some p) (self : P t p → Q t o.pc)
    (others : ∀ u r, u ≠ t → c.threads[u]? = some r → P u r → Q u r)
    (fresh : ∀ u, ∀ r ∈ o.spawned, Q u r) :
    ∀ u r, (o.apply c t).threads[u]? = some r → Q u r := by
  intro u r hr
  obtain ⟨rfl, rfl⟩ | ⟨hu, hr⟩ | ⟨_, hr⟩ := Outcome.get_cases h hr
  · exact self (all _ _ h)
  · exact others u r hu hr (all u r hr)
  · exact fresh u r hr

section Balance
variable {M : Machine σ π χ ε} {G : Config σ π → Nat × χ → Prop} {c₀ : Config σ π} {tr : List ε}

/-- A quantity of memory and events equals another one plus a count over the threads, if every
step of a thread balances. -/
theorem Machine.Run.balance (Φ Ψ : List ε → σ → Nat) (f : π → Nat)
    (start : Φ [] c₀.shared = Ψ [] c₀.shared + c₀.total f)
    (step : ∀ tr c l p o, Machine.Run M G c₀ tr c → G c l → M.Moves c l o p →
      f p + Ψ tr c.shared ≤ Φ tr c.shared →
      Φ (tr ++ o.events) o.shared + Ψ tr c.shared + f p =
        Φ tr c.shared + Ψ (tr ++ o.events) o.shared + f o.pc + (o.spawned.map f).sum)
    (h : Machine.Run M G c₀ tr c) : Φ tr c.shared = Ψ tr c.shared + c.total f := by
  refine h.invariant (fun tr c => Φ tr c.shared = Ψ tr c.shared + c.total f) start ?_
  intro tr c l p o hr ih hg hm
  have hle := Config.le_total f hm.here
  have hs := step tr c l p o hr hg hm (by omega)
  have ht := Outcome.total_apply (o := o) f hm.here
  change Φ _ o.shared = Ψ _ o.shared + _
  omega

/-- A quantity of memory is the number of threads that pass a test, if every step moves both
together. -/
theorem Machine.Run.number_eq (Φ : σ → Nat) (P : π → Bool) (start : Φ c₀.shared = c₀.number P)
    (step : ∀ tr c l p o, Machine.Run M G c₀ tr c → G c l → M.Moves c l o p →
      (P p).toNat ≤ Φ c.shared →
      Φ o.shared + (P p).toNat =
        Φ c.shared + (P o.pc).toNat + (o.spawned.map fun r => (P r).toNat).sum)
    (h : Machine.Run M G c₀ tr c) : Φ c.shared = c.number P := by
  rw [Config.number_eq_total] at start ⊢
  have := h.balance (fun _ => Φ) (fun _ _ => 0) (fun p => (P p).toNat) (by simpa using start) ?_
  · simpa using this
  · intro tr c l p o hr hg hm hle
    simpa using step tr c l p o hr hg hm (by simpa using hle)

end Balance

/-! Locks -/

/-- The memory names the holder of a lock, and the holder is the thread at a point that holds it. -/
def Owned (lock : σ → Option Nat) (holds : π → Bool) (c : Config σ π) : Prop :=
  ∀ t, lock c.shared = some t ↔ ∃ p, c.threads[t]? = some p ∧ holds p = true

/-- A step that respects a lock: a thread takes it when it is free and gives back only its own. -/
structure LockStep (lock : σ → Option Nat) (holds : π → Bool) (sh : σ) (t : Nat)
    (o : Outcome σ π ε) : Prop where
  self : lock o.shared = some t ↔ holds o.pc = true
  others : ∀ u, u ≠ t → (lock o.shared = some u ↔ lock sh = some u)
  fresh : ∀ r ∈ o.spawned, holds r = false

namespace LockStep
variable {lock : σ → Option Nat} {holds : π → Bool} {sh : σ}

theorem same (own : lock sh = some t ↔ holds p = true) (hl : lock o.shared = lock sh)
    (hp : holds o.pc = holds p) (fresh : ∀ r ∈ o.spawned, holds r = false) :
    LockStep lock holds sh t o :=
  ⟨by rw [hl, hp, own], fun u _ => by rw [hl], fresh⟩

theorem take (free : lock sh = none) (hl : lock o.shared = some t) (hp : holds o.pc = true)
    (fresh : ∀ r ∈ o.spawned, holds r = false) : LockStep lock holds sh t o :=
  ⟨by simp [hl, hp], fun u hu => by simp [hl, free, Ne.symm hu], fresh⟩

theorem give (own : lock sh = some t) (hl : lock o.shared = none) (hp : holds o.pc = false)
    (fresh : ∀ r ∈ o.spawned, holds r = false) : LockStep lock holds sh t o :=
  ⟨by simp [hl, hp], fun u hu => by simp [hl, own, Ne.symm hu], fresh⟩

end LockStep

theorem Owned.at {lock : σ → Option Nat} {holds : π → Bool} (h : Owned lock holds c)
    (hp : c.threads[t]? = some p) : lock c.shared = some t ↔ holds p = true := by
  rw [h t]
  constructor
  · rintro ⟨r, hr, hh⟩
    rw [hp] at hr
    cases hr
    exact hh
  · exact fun hh => ⟨p, hp, hh⟩

theorem Owned.apply {lock : σ → Option Nat} {holds : π → Bool} (h : Owned lock holds c)
    (hp : c.threads[t]? = some p) (hs : LockStep lock holds c.shared t o) :
    Owned lock holds (o.apply c t) := by
  intro u
  change lock o.shared = some u ↔ _
  by_cases hu : u = t
  · subst hu
    rw [hs.self, Outcome.get_self hp]
    simp
  · rw [hs.others u hu, h u]
    constructor
    · rintro ⟨r, hr, hh⟩
      exact ⟨r, Outcome.get_other hu hr, hh⟩
    · rintro ⟨r, hr, hh⟩
      obtain ⟨rfl, _⟩ | ⟨_, hr⟩ | ⟨_, hr⟩ := Outcome.get_cases hp hr
      · exact absurd rfl hu
      · exact ⟨r, hr, hh⟩
      · rw [hs.fresh r hr] at hh
        cases hh

/-- A thread tries to take a lock that another thread, or it itself, holds. -/
def WaitsFor {κ : Type} (holder : κ → σ → Option Nat) (wants : π → Option κ) (c : Config σ π)
    (t u : Nat) : Prop :=
  ∃ p l, c.threads[t]? = some p ∧ wants p = some l ∧ holder l c.shared = some u

/-- No cycle of threads wait for each other if every thread wants a lock above all that it holds. -/
theorem WaitsFor.acyclic {κ : Type} {holder : κ → σ → Option Nat} {wants : π → Option κ}
    (rank : κ → Nat)
    (order : ∀ t p l m, c.threads[t]? = some p → wants p = some l → holder m c.shared = some t →
      rank m < rank l) : ¬ Relation.TransGen (WaitsFor holder wants c) t t := by
  -- along a chain of waiting threads the ranks of the wanted locks grow
  have grows : ∀ u, Relation.TransGen (WaitsFor holder wants c) t u → ∀ p l r m,
      c.threads[t]? = some p → wants p = some l → c.threads[u]? = some r → wants r = some m →
      rank l < rank m := by
    intro u h
    induction h with
    | single h =>
      intro p l r m hp hl hr hm
      obtain ⟨p', l', hp', hl', hh⟩ := h
      rw [hp] at hp'
      cases hp'
      rw [hl] at hl'
      cases hl'
      exact order _ r m l hr hm hh
    | tail _ h ih =>
      intro p l r m hp hl hr hm
      obtain ⟨p', l', hp', hl', hh⟩ := h
      exact (ih p l p' l' hp hl hp' hl').trans (order _ r m l' hr hm hh)
  intro h
  obtain ⟨u, ⟨p, l, hp, hl, _⟩, _⟩ := Relation.TransGen.head'_iff.mp h
  exact Nat.lt_irrefl _ (grows t h p l p l hp hl hp hl)

/-! Wait sets -/

/-- The wait set of a condition variable holds each thread at most once, and only threads that
are at a waiting point. -/
structure Waiting (waitSet : σ → List Nat) (waits : π → Bool) (c : Config σ π) : Prop where
  nodup : (waitSet c.shared).Nodup
  here : ∀ t ∈ waitSet c.shared, ∃ p, c.threads[t]? = some p ∧ waits p = true

/-- A step that respects a wait set: only the thread that moves may enter it, and it is in it only
at a waiting point. -/
structure WaitStep (waitSet : σ → List Nat) (waits : π → Bool) (sh : σ) (t : Nat)
    (o : Outcome σ π ε) : Prop where
  nodup : (waitSet sh).Nodup → (waitSet o.shared).Nodup
  self : t ∈ waitSet o.shared → waits o.pc = true
  others : ∀ u, u ≠ t → u ∈ waitSet o.shared → u ∈ waitSet sh

namespace WaitStep
variable {waitSet : σ → List Nat} {waits : π → Bool} {sh : σ}

theorem same (here : t ∈ waitSet sh → waits p = true) (hw : waitSet o.shared = waitSet sh)
    (hp : waits p = true → waits o.pc = true) : WaitStep waitSet waits sh t o :=
  ⟨fun h => hw ▸ h, fun h => hp (here (hw ▸ h)), fun _ _ h => hw ▸ h⟩

theorem enter (new : t ∉ waitSet sh) (hw : waitSet o.shared = t :: waitSet sh)
    (hp : waits o.pc = true) : WaitStep waitSet waits sh t o :=
  ⟨fun h => by simp [hw, h, new], fun _ => hp, fun u hu h => by simpa [hw, hu] using h⟩

theorem shrink (here : t ∈ waitSet sh → waits p = true) (P : Nat → Bool)
    (hw : waitSet o.shared = (waitSet sh).filter P) (hp : waits p = true → waits o.pc = true) :
    WaitStep waitSet waits sh t o :=
  ⟨fun h => hw ▸ h.filter _, fun h => hp (here (List.mem_of_mem_filter (hw ▸ h))),
    fun _ _ h => List.mem_of_mem_filter (hw ▸ h)⟩

theorem gone (out : t ∉ waitSet sh) (hw : waitSet o.shared = waitSet sh) :
    WaitStep waitSet waits sh t o :=
  ⟨fun h => hw ▸ h, fun h => absurd (hw ▸ h) out, fun _ _ h => hw ▸ h⟩

end WaitStep

theorem Waiting.at {waitSet : σ → List Nat} {waits : π → Bool} (h : Waiting waitSet waits c)
    (hp : c.threads[t]? = some p) (ht : t ∈ waitSet c.shared) : waits p = true := by
  obtain ⟨r, hr, hw⟩ := h.here t ht
  rw [hp] at hr
  cases hr
  exact hw

theorem Waiting.apply {waitSet : σ → List Nat} {waits : π → Bool} (h : Waiting waitSet waits c)
    (hp : c.threads[t]? = some p) (hs : WaitStep waitSet waits c.shared t o) :
    Waiting waitSet waits (o.apply c t) where
  nodup := hs.nodup h.nodup
  here u hu := by
    by_cases hut : u = t
    · subst hut
      exact ⟨o.pc, Outcome.get_self hp, hs.self hu⟩
    · obtain ⟨r, hr, hw⟩ := h.here u (hs.others u hut hu)
      exact ⟨r, Outcome.get_other hut hr, hw⟩

theorem countP_zipIdx_add (P : π → Bool) (W : List Nat) (l : List π) (n : Nat) :
    (l.zipIdx n).countP (fun x => P x.1 && !W.contains x.2) +
      (l.zipIdx n).countP (fun x => P x.1 && W.contains x.2) = l.countP P := by
  induction l generalizing n with
  | nil => rfl
  | cons p l ih =>
    have hi := ih (n + 1)
    simp only [List.zipIdx_cons, List.countP_cons]
    cases P p <;> cases W.contains n <;> simp only [Bool.and_true, Bool.and_false, Bool.not_true,
      Bool.not_false, Bool.false_eq_true, if_true, if_false] <;> omega

theorem countP_zipIdx_mem (P : π → Bool) {W : List Nat} {l : List π} (hn : W.Nodup)
    (hw : ∀ t ∈ W, ∃ p, l[t]? = some p ∧ P p = true) :
    l.zipIdx.countP (fun x => P x.1 && W.contains x.2) = W.length := by
  rw [List.countP_eq_length_filter]
  have hperm : ((l.zipIdx.filter fun x => P x.1 && W.contains x.2).map Prod.snd).Perm W := by
    refine (List.perm_ext_iff_of_nodup ?_ hn).mpr fun t => ?_
    · have hs : ((l.zipIdx.filter fun x => P x.1 && W.contains x.2).map Prod.snd).Sublist
          (l.zipIdx.map Prod.snd) := List.filter_sublist.map _
      refine hs.nodup ?_
      rw [List.zipIdx_map_snd]
      exact List.nodup_range'
    · simp only [List.mem_map, List.mem_filter, Bool.and_eq_true, List.contains_iff_mem,
        Prod.exists, exists_eq_right, List.mem_zipIdx_iff_getElem?]
      constructor
      · rintro ⟨p, _, _, ht⟩
        exact ht
      · intro ht
        obtain ⟨p, hp, hP⟩ := hw t ht
        exact ⟨p, hp, hP, ht⟩
  simpa using hperm.length_eq

/-- The threads at a waiting point are those in the wait set and those that have left it. -/
theorem Waiting.number_eq {waitSet : σ → List Nat} {waits : π → Bool}
    (h : Waiting waitSet waits c) :
    c.numberAt (fun t p => waits p && !(waitSet c.shared).contains t) +
      (waitSet c.shared).length = c.number waits := by
  rw [← countP_zipIdx_mem waits h.nodup h.here]
  exact countP_zipIdx_add waits _ _ 0

theorem Config.numberAt_pos {P : Nat → π → Bool} (h : c.threads[t]? = some p) (hP : P t p = true) :
    0 < c.numberAt P :=
  List.countP_pos_iff.mpr ⟨(p, t), List.mem_zipIdx_iff_getElem?.mpr h, hP⟩

theorem Config.exists_of_numberAt_pos {P : Nat → π → Bool} (h : 0 < c.numberAt P) :
    ∃ t p, c.threads[t]? = some p ∧ P t p = true := by
  obtain ⟨x, hx, hP⟩ := List.countP_pos_iff.mp h
  exact ⟨x.2, x.1, List.mem_zipIdx_iff_getElem?.mp hx, hP⟩

end PthreadWorkqueue.Concurrency
