import PthreadWorkqueue.Concurrency.Counting
import Mathlib.Algebra.BigOperators.Group.Finset.Piecewise
import Mathlib.Algebra.Order.BigOperators.Group.Finset

/-! What a pool of threads is for, whatever it is made of: items are made, put into queues, taken out of
each queue in their order, called once and dropped once. -/
namespace PthreadWorkqueue.Concurrency
variable {κ α σ π χ ε : Type}

inductive Deed (κ α : Type) where
  | make (w : α)
  | enqueue (q : κ) (w : α)
  | dequeue (q : κ) (w : α)
  | call (w : α)
  | drop (w : α)
  deriving DecidableEq, Repr

/-- The items that were made, those not yet in a queue, the queues, and the dequeued items that are to be
called and to be dropped. -/
structure Service (κ α : Type) where
  made : Multiset α
  fresh : Multiset α
  waiting : κ → List α
  due : Multiset α
  held : Multiset α

namespace Service

def start : Service κ α := ⟨0, 0, fun _ => [], 0, 0⟩

variable [DecidableEq κ] [DecidableEq α]

def next (s : Service κ α) : Deed κ α → Option (Service κ α)
  | .make w => if w ∈ s.made then none else
    some { s with made := w ::ₘ s.made, fresh := w ::ₘ s.fresh }
  | .enqueue q w => if w ∈ s.fresh then
      some { s with
        fresh := s.fresh.erase w
        waiting := Function.update s.waiting q (s.waiting q ++ [w]) }
    else none
  | .dequeue q w => if (s.waiting q).head? = some w then
      some { s with
        waiting := Function.update s.waiting q (s.waiting q).tail
        due := w ::ₘ s.due
        held := w ::ₘ s.held }
    else none
  | .call w => if w ∈ s.due then some { s with due := s.due.erase w } else none
  | .drop w => if w ∈ s.held then some { s with held := s.held.erase w } else none

def run (s : Service κ α) (ds : List (Deed κ α)) : Option (Service κ α) :=
  ds.foldlM next s

theorem run_append (s : Service κ α) (ds es : List (Deed κ α)) :
    s.run (ds ++ es) = (s.run ds).bind (·.run es) := List.foldlM_append

theorem run_singleton (s : Service κ α) (d : Deed κ α) : s.run [d] = s.next d := by
  simp [run]

end Service

namespace Deed
variable [DecidableEq κ] [DecidableEq α]

def makes (w : α) : Deed κ α → Bool
  | .make x => x == w
  | _ => false

def enqueues (w : α) : Deed κ α → Bool
  | .enqueue _ x => x == w
  | _ => false

def dequeues (w : α) : Deed κ α → Bool
  | .dequeue _ x => x == w
  | _ => false

def calls (w : α) : Deed κ α → Bool
  | .call x => x == w
  | _ => false

def drops (w : α) : Deed κ α → Bool
  | .drop x => x == w
  | _ => false

def into (q : κ) : Deed κ α → Option α
  | .enqueue r w => if r = q then some w else none
  | _ => none

def outOf (q : κ) : Deed κ α → Option α
  | .dequeue r w => if r = q then some w else none
  | _ => none

end Deed

namespace Service
variable [DecidableEq κ] [DecidableEq α] {s s' : Service κ α} {ds : List (Deed κ α)} {d : Deed κ α}

/-- What the deeds up to a state say of it. -/
structure Laws (ds : List (Deed κ α)) (s : Service κ α) : Prop where
  made : ∀ w, ds.countP (Deed.makes w) = s.made.count w
  once : ∀ w, s.made.count w ≤ 1
  enqueued : ∀ w, ds.countP (Deed.makes w) = ds.countP (Deed.enqueues w) + s.fresh.count w
  waiting : ∀ (Q : Finset κ) w,
    (∑ q ∈ Q, (s.waiting q).count w) + ds.countP (Deed.dequeues w) ≤ ds.countP (Deed.enqueues w)
  order : ∀ q, ds.filterMap (Deed.into q) = ds.filterMap (Deed.outOf q) ++ s.waiting q
  called : ∀ w, ds.countP (Deed.dequeues w) = ds.countP (Deed.calls w) + s.due.count w
  dropped : ∀ w, ds.countP (Deed.dequeues w) = ds.countP (Deed.drops w) + s.held.count w

theorem Laws.start : Laws [] (start : Service κ α) := by
  constructor <;> intros <;> simp [Service.start]

/-- What a deed brings and takes. -/
structure Effect (d : Deed κ α) (s s' : Service κ α) : Prop where
  made : ∀ w, s'.made.count w = s.made.count w + (d.makes w).toNat
  once : ∀ w, d.makes w = true → s.made.count w = 0
  fresh : ∀ w, s.fresh.count w + (d.makes w).toNat = (d.enqueues w).toNat + s'.fresh.count w
  waiting : ∀ q, s.waiting q ++ (d.into q).toList = (d.outOf q).toList ++ s'.waiting q
  due : ∀ w, s.due.count w + (d.dequeues w).toNat = (d.calls w).toNat + s'.due.count w
  held : ∀ w, s.held.count w + (d.dequeues w).toNat = (d.drops w).toNat + s'.held.count w

theorem count_cons_toNat (b : Multiset α) (x w : α) :
    (x ::ₘ b).count w = b.count w + (x == w).toNat := by
  rw [Multiset.count_cons]
  by_cases hx : x = w
  · simp [hx]
  · simp [hx, Ne.symm hx]

theorem count_erase_toNat {b : Multiset α} {x : α} (hx : x ∈ b) (w : α) :
    b.count w = (x == w).toNat + (b.erase x).count w := by
  conv_lhs => rw [← Multiset.cons_erase hx]
  rw [count_cons_toNat, Nat.add_comm]

theorem next_effect (hs : s.next d = some s') : Effect d s s' := by
  cases d with
  | make w =>
    simp only [next, Option.ite_none_left_eq_some, Option.some.injEq] at hs
    obtain ⟨hw, rfl⟩ := hs
    refine ⟨count_cons_toNat _ _, ?_, fun x => ?_, fun q => List.append_nil _,
      fun _ => Nat.add_comm _ _, fun _ => Nat.add_comm _ _⟩
    · intro x hx
      cases eq_of_beq hx
      exact Multiset.count_eq_zero.mpr hw
    · rw [count_cons_toNat]
      exact (Nat.zero_add _).symm
  | enqueue q w =>
    simp only [next, Option.ite_none_right_eq_some, Option.some.injEq] at hs
    obtain ⟨hw, rfl⟩ := hs
    refine ⟨fun _ => rfl, nofun, count_erase_toNat hw, fun r => ?_, fun _ => Nat.add_comm _ _,
      fun _ => Nat.add_comm _ _⟩
    by_cases hr : q = r
    · subst hr
      simp [Deed.into, Deed.outOf]
    · simp [Deed.into, Deed.outOf, hr, Function.update_of_ne (Ne.symm hr)]
  | dequeue q w =>
    simp only [next, Option.ite_none_right_eq_some, Option.some.injEq] at hs
    obtain ⟨hw, rfl⟩ := hs
    refine ⟨fun _ => rfl, nofun, fun _ => Nat.add_comm _ _, fun r => ?_, fun x => ?_, fun x => ?_⟩
    · by_cases hr : q = r
      · subst hr
        simp [Deed.into, Deed.outOf, List.cons_head?_tail hw]
      · simp [Deed.into, Deed.outOf, hr, Function.update_of_ne (Ne.symm hr)]
    · rw [count_cons_toNat]
      exact (Nat.zero_add _).symm
    · rw [count_cons_toNat]
      exact (Nat.zero_add _).symm
  | call w =>
    simp only [next, Option.ite_none_right_eq_some, Option.some.injEq] at hs
    obtain ⟨hw, rfl⟩ := hs
    exact ⟨fun _ => rfl, nofun, fun _ => Nat.add_comm _ _, fun q => List.append_nil _,
      count_erase_toNat hw, fun _ => Nat.add_comm _ _⟩
  | drop w =>
    simp only [next, Option.ite_none_right_eq_some, Option.some.injEq] at hs
    obtain ⟨hw, rfl⟩ := hs
    exact ⟨fun _ => rfl, nofun, fun _ => Nat.add_comm _ _, fun q => List.append_nil _,
      fun _ => Nat.add_comm _ _, count_erase_toNat hw⟩

/-- Over any set of queues a deed brings in no more than what it enqueues. -/
theorem sum_into_le (d : Deed κ α) (Q : Finset κ) (w : α) :
    ∑ q ∈ Q, (d.into q).toList.count w ≤ (d.enqueues w).toNat := by
  cases d with
  | enqueue r x =>
    have hq : ∀ q ∈ Q, (Deed.into q (.enqueue r x)).toList.count w =
        if r = q then (x == w).toNat else 0 := by
      intro q _
      by_cases hr : r = q
      · simp only [Deed.into, if_pos hr, Option.toList_some, List.count_singleton]
        cases x == w <;> rfl
      · simp [Deed.into, hr]
    rw [Finset.sum_congr rfl hq, Finset.sum_ite_eq]
    split
    · exact Nat.le_refl _
    · exact Nat.zero_le _
  | _ => simp [Deed.into]

/-- A deed takes what it dequeues out of one queue. -/
theorem le_sum_outOf (d : Deed κ α) (Q : Finset κ) (w : α) :
    ∃ Q', Q ⊆ Q' ∧ (d.dequeues w).toNat ≤ ∑ q ∈ Q', (d.outOf q).toList.count w := by
  cases d with
  | dequeue r x =>
    refine ⟨insert r Q, Finset.subset_insert r Q, ?_⟩
    refine Nat.le_trans ?_
      (Finset.single_le_sum (fun _ _ => Nat.zero_le _) (Finset.mem_insert_self r Q))
    by_cases hx : x = w <;> simp [Deed.outOf, Deed.dequeues, hx]
  | _ => exact ⟨Q, Finset.Subset.refl Q, Nat.zero_le _⟩

theorem Effect.sum (h : Effect d s s') (Q : Finset κ) (w : α) :
    (∑ q ∈ Q, (s.waiting q).count w) + ∑ q ∈ Q, (d.into q).toList.count w =
      (∑ q ∈ Q, (d.outOf q).toList.count w) + ∑ q ∈ Q, (s'.waiting q).count w := by
  rw [← Finset.sum_add_distrib, ← Finset.sum_add_distrib]
  refine Finset.sum_congr rfl fun q _ => ?_
  rw [← List.count_append, h.waiting q, List.count_append]

theorem Laws.next (h : Laws ds s) (hs : s.next d = some s') : Laws (ds ++ [d]) s' := by
  have e := next_effect hs
  have count : ∀ P : Deed κ α → Bool, (ds ++ [d]).countP P = ds.countP P + (P d).toNat := by
    intro P
    rw [List.countP_append, countP_singleton_toNat]
  refine ⟨fun w => ?_, fun w => ?_, fun w => ?_, fun Q w => ?_, fun q => ?_, fun w => ?_, fun w => ?_⟩
  · rw [count, h.made, e.made]
  · rw [e.made]
    cases hm : d.makes w with
    | false => exact h.once w
    | true => rw [e.once w hm]; rfl
  · have := h.enqueued w
    have := e.fresh w
    rw [count, count]
    omega
  · obtain ⟨Q', hsub, hout⟩ := le_sum_outOf d Q w
    have := h.waiting Q' w
    have := e.sum Q' w
    have := sum_into_le d Q' w
    have mono : ∑ q ∈ Q, (s'.waiting q).count w ≤ ∑ q ∈ Q', (s'.waiting q).count w :=
      Finset.sum_le_sum_of_subset hsub
    rw [count, count]
    omega
  · have single : ∀ f : Deed κ α → Option α, [d].filterMap f = (f d).toList := fun f => by
      cases hf : f d <;> simp [hf]
    rw [List.filterMap_append, List.filterMap_append, single, single, h.order q, List.append_assoc,
      e.waiting q, List.append_assoc]
  · have := h.called w
    have := e.due w
    rw [count, count]
    omega
  · have := h.dropped w
    have := e.held w
    rw [count, count]
    omega

theorem laws (h : (start : Service κ α).run ds = some s) : Laws ds s := by
  induction ds using List.reverseRecOn generalizing s with
  | nil =>
    cases h
    exact .start
  | append_singleton ds d ih =>
    rw [run_append, Option.bind_eq_some_iff] at h
    obtain ⟨r, hr, hd⟩ := h
    rw [run_singleton] at hd
    exact (ih hr).next hd

/-- An item that was made is fresh, in a queue, or was dequeued, and only one of these. -/
theorem Laws.places (h : Laws ds s) (Q : Finset κ) (w : α) :
    (∑ q ∈ Q, (s.waiting q).count w) + ds.countP (Deed.dequeues w) + s.fresh.count w ≤ 1 := by
  have := h.made w
  have := h.once w
  have := h.enqueued w
  have := h.waiting Q w
  omega

theorem Laws.fresh_le_one (h : Laws ds s) (w : α) : s.fresh.count w ≤ 1 := by
  have := h.places ∅ w
  omega

section Places
variable {q r : κ} {w : α}

theorem Laws.waiting_nodup (h : Laws ds s) (q : κ) : (s.waiting q).Nodup := by
  refine List.nodup_iff_count_le_one.mpr fun w => ?_
  have hone := h.places {q} w
  rw [Finset.sum_singleton] at hone
  omega

theorem Laws.waiting_unique (h : Laws ds s) (hq : w ∈ s.waiting q) (hr : w ∈ s.waiting r) : q = r := by
  by_contra hne
  have hone := h.places {q, r} w
  rw [Finset.sum_pair hne] at hone
  have := List.count_pos_iff.mpr hq
  have := List.count_pos_iff.mpr hr
  omega

theorem Laws.not_waiting_of_fresh (h : Laws ds s) (hw : w ∈ s.fresh) (q : κ) : w ∉ s.waiting q := by
  intro hq
  have hone := h.places {q} w
  rw [Finset.sum_singleton] at hone
  have := List.count_pos_iff.mpr hq
  have := Multiset.count_pos.mpr hw
  omega

/-- An item that is not yet dequeued is not dropped. -/
theorem Laws.not_dropped_of_waiting (h : Laws ds s) (hw : w ∈ s.fresh ∨ w ∈ s.waiting q) :
    ds.countP (Deed.drops w) = 0 := by
  have hone := h.places {q} w
  rw [Finset.sum_singleton] at hone
  have := h.dropped w
  obtain hw | hw := hw
  · have := Multiset.count_pos.mpr hw
    omega
  · have := List.count_pos_iff.mpr hw
    omega

theorem Laws.not_dropped_of_held (h : Laws ds s) (hw : w ∈ s.held) : ds.countP (Deed.drops w) = 0 := by
  have hone := h.places ∅ w
  have := h.dropped w
  have := Multiset.count_pos.mpr hw
  omega

end Places

/-- What is fresh, waits or is held was made. -/
theorem Laws.mem_made (h : Laws ds s) {q : κ} {w : α}
    (hw : w ∈ s.fresh ∨ w ∈ s.waiting q ∨ w ∈ s.held) : w ∈ s.made := by
  have hmade := h.made w
  have := h.enqueued w
  have hwait := h.waiting {q} w
  rw [Finset.sum_singleton] at hwait
  have := h.dropped w
  refine Multiset.count_pos.mp ?_
  obtain hw | hw | hw := hw
  · have := Multiset.count_pos.mpr hw
    omega
  · have := List.count_pos_iff.mpr hw
    omega
  · have := Multiset.count_pos.mpr hw
    omega

end Service

/-! How a machine does it. -/

/-- Where the items are in the states of a machine: in the hands of a thread before they are enqueued,
in the queues, and in the hands of the thread that is to call them and to drop them. -/
structure Carrier (σ π κ α : Type) where
  fresh : π → Option α
  due : π → Option α
  held : π → Option α
  items : σ → κ → List α
  /-- The items that exist. -/
  known : σ → α → Prop

/-- What a thread has in its hands. -/
def Config.gather (f : π → Option α) (c : Config σ π) : Multiset α := c.threads.filterMap f

section Gather
variable {f : π → Option α} {c : Config σ π} {o : Outcome σ π ε} {t u : Nat} {p r : π} {w : α}

theorem Config.mem_gather (hp : c.threads[t]? = some p) (hw : f p = some w) : w ∈ c.gather f :=
  List.mem_filterMap.mpr ⟨p, List.mem_of_getElem? hp, hw⟩

/-- No two threads have an item that occurs once. -/
theorem Config.gather_unique [DecidableEq α] (hone : (c.gather f).count w ≤ 1)
    (hp : c.threads[t]? = some p) (hw : f p = some w) (hr : c.threads[u]? = some r)
    (hw' : f r = some w) : u = t := by
  have hnum : c.number (fun p => f p == some w) ≤ 1 := by
    refine Nat.le_trans (Nat.le_of_eq ?_) hone
    rw [Config.gather, Multiset.coe_count, List.count_filterMap]
    rfl
  exact Config.unique_of_number_le_one hnum hp (by rw [hw, beq_self_eq_true]) hr
    (by rw [hw', beq_self_eq_true])

theorem Outcome.gather_apply (here : c.threads[t]? = some p) (idle : ∀ r ∈ o.spawned, f r = none) :
    (o.apply c t).gather f + ((f p).toList : Multiset α) =
      c.gather f + ((f o.pc).toList : Multiset α) := by
  obtain ⟨ht, hp⟩ := List.getElem?_eq_some_iff.mp here
  have hnew : o.spawned.filterMap f = [] := List.filterMap_eq_nil_iff.mpr idle
  have hsplit : c.threads = c.threads.take t ++ p :: c.threads.drop (t + 1) := by
    rw [← hp, List.getElem_cons_drop, List.take_append_drop]
  have hset : c.threads.set t o.pc = c.threads.take t ++ o.pc :: c.threads.drop (t + 1) :=
    List.set_eq_take_append_cons_drop.trans (if_pos ht)
  have hcons : ∀ (q : π) (l : List π), (q :: l).filterMap f = (f q).toList ++ l.filterMap f := by
    intro q l
    cases hq : f q <;> simp [hq]
  have hold : c.gather f = ((c.threads.take t ++ p :: c.threads.drop (t + 1)).filterMap f : List α) :=
    congrArg (fun l : List π => (l.filterMap f : Multiset α)) hsplit
  rw [hold, Config.gather, Outcome.apply, hset]
  simp only [List.filterMap_append, hnew, hcons, List.append_nil, ← Multiset.coe_add]
  ac_rfl

theorem Outcome.gather_same (here : c.threads[t]? = some p) (idle : ∀ r ∈ o.spawned, f r = none)
    (h : f o.pc = f p) : (o.apply c t).gather f = c.gather f := by
  have := Outcome.gather_apply here idle
  rw [h] at this
  exact add_right_cancel this

theorem Outcome.gather_gain (here : c.threads[t]? = some p) (idle : ∀ r ∈ o.spawned, f r = none)
    (h : f p = none) (h' : f o.pc = some w) : (o.apply c t).gather f = w ::ₘ c.gather f := by
  have := Outcome.gather_apply here idle
  rw [h, h'] at this
  simpa [add_comm] using this

theorem Outcome.gather_lose [DecidableEq α] (here : c.threads[t]? = some p)
    (idle : ∀ r ∈ o.spawned, f r = none) (h : f p = some w) (h' : f o.pc = none) :
    w ∈ c.gather f ∧ (o.apply c t).gather f = (c.gather f).erase w := by
  have hmove := Outcome.gather_apply here idle
  rw [h, h'] at hmove
  have hcons : c.gather f = w ::ₘ (o.apply c t).gather f := by
    simpa [add_comm] using hmove.symm
  rw [hcons]
  exact ⟨Multiset.mem_cons_self _ _, (Multiset.erase_cons_head _ _).symm⟩

end Gather

namespace Carrier
variable {V : Carrier σ π κ α} {c : Config σ π} {o : Outcome σ π ε} {t : Nat} {p : π}

/-- What a step of a thread does to the items, and the deed that it is. -/
inductive Does [DecidableEq κ] (V : Carrier σ π κ α) (s : σ) (p : π) (s' : σ) (p' : π) :
    Option (Deed κ α) → Prop where
  | nothing : V.fresh p' = V.fresh p → V.due p' = V.due p → V.held p' = V.held p →
      V.items s' = V.items s → Does V s p s' p' none
  | make {w} : V.fresh p = none → V.fresh p' = some w → V.due p' = V.due p →
      V.held p' = V.held p → V.items s' = V.items s → ¬ V.known s w → V.known s' w →
      Does V s p s' p' (some (.make w))
  | enqueue {q w} : V.fresh p = some w → V.fresh p' = none → V.due p' = V.due p →
      V.held p' = V.held p →
      V.items s' = Function.update (V.items s) q (V.items s q ++ [w]) →
      Does V s p s' p' (some (.enqueue q w))
  | dequeue {q w} : V.fresh p' = V.fresh p → V.due p = none → V.due p' = some w →
      V.held p = none → V.held p' = some w → (V.items s q).head? = some w →
      V.items s' = Function.update (V.items s) q (V.items s q).tail →
      Does V s p s' p' (some (.dequeue q w))
  | call {w} : V.fresh p' = V.fresh p → V.due p = some w → V.due p' = none →
      V.held p' = V.held p → V.items s' = V.items s → Does V s p s' p' (some (.call w))
  | drop {w} : V.fresh p' = V.fresh p → V.due p' = V.due p → V.held p = some w →
      V.held p' = none → V.items s' = V.items s → Does V s p s' p' (some (.drop w))

/-- A thread without items. -/
structure Idle (V : Carrier σ π κ α) (p : π) : Prop where
  fresh : V.fresh p = none
  due : V.due p = none
  held : V.held p = none

/-- The state of a machine as one of the service. -/
structure Shows (V : Carrier σ π κ α) (c : Config σ π) (s : Service κ α) : Prop where
  fresh : s.fresh = c.gather V.fresh
  due : s.due = c.gather V.due
  held : s.held = c.gather V.held
  waiting : s.waiting = V.items c.shared
  made : ∀ w ∈ s.made, V.known c.shared w

theorem Shows.start (idle : ∀ p ∈ c.threads, V.Idle p) (items : ∀ q, V.items c.shared q = []) :
    V.Shows c .start where
  fresh := by rw [Config.gather, List.filterMap_eq_nil_iff.mpr fun p hp => (idle p hp).fresh]; rfl
  due := by rw [Config.gather, List.filterMap_eq_nil_iff.mpr fun p hp => (idle p hp).due]; rfl
  held := by rw [Config.gather, List.filterMap_eq_nil_iff.mpr fun p hp => (idle p hp).held]; rfl
  waiting := funext fun q => (items q).symm
  made _ hw := absurd hw (Multiset.notMem_zero _)

variable [DecidableEq κ] [DecidableEq α] {s : Service κ α} {d : Option (Deed κ α)}

theorem Shows.step (h : V.Shows c s) (here : c.threads[t]? = some p) (does : V.Does c.shared p o.shared o.pc d)
    (idle : ∀ r ∈ o.spawned, V.Idle r) (known : ∀ w, V.known c.shared w → V.known o.shared w) :
    ∃ s', s.run d.toList = some s' ∧ V.Shows (o.apply c t) s' := by
  have idleFresh : ∀ r ∈ o.spawned, V.fresh r = none := fun r hr => (idle r hr).fresh
  have idleDue : ∀ r ∈ o.spawned, V.due r = none := fun r hr => (idle r hr).due
  have idleHeld : ∀ r ∈ o.spawned, V.held r = none := fun r hr => (idle r hr).held
  have made : ∀ w ∈ s.made, V.known (o.apply c t).shared w := fun w hw => known w (h.made w hw)
  cases does with
  | nothing hf hd hh hi =>
    refine ⟨s, rfl, ?_, ?_, ?_, ?_, made⟩
    · rw [Outcome.gather_same here idleFresh hf, h.fresh]
    · rw [Outcome.gather_same here idleDue hd, h.due]
    · rw [Outcome.gather_same here idleHeld hh, h.held]
    · exact h.waiting.trans hi.symm
  | @make w hf hf' hd hh hi hnew hknown =>
    have hmade : w ∉ s.made := fun hw => hnew (h.made w hw)
    refine ⟨{ s with made := w ::ₘ s.made, fresh := w ::ₘ s.fresh }, ?_, ?_, ?_, ?_, ?_, ?_⟩
    · simp [Service.run, Service.next, hmade]
    · rw [Outcome.gather_gain here idleFresh hf hf', h.fresh]
    · rw [Outcome.gather_same here idleDue hd, h.due]
    · rw [Outcome.gather_same here idleHeld hh, h.held]
    · exact h.waiting.trans hi.symm
    · intro x hx
      rcases Multiset.mem_cons.mp hx with rfl | hx
      · exact hknown
      · exact made x hx
  | @enqueue q w hf hf' hd hh hi =>
    obtain ⟨hw, hlose⟩ := Outcome.gather_lose here idleFresh hf hf'
    refine ⟨{ s with
      fresh := s.fresh.erase w
      waiting := Function.update s.waiting q (s.waiting q ++ [w]) }, ?_, ?_, ?_, ?_, ?_, made⟩
    · simp [Service.run, Service.next, h.fresh, hw]
    · rw [hlose, h.fresh]
    · rw [Outcome.gather_same here idleDue hd, h.due]
    · rw [Outcome.gather_same here idleHeld hh, h.held]
    · rw [h.waiting]
      exact hi.symm
  | @dequeue q w hf hd hd' hh hh' hw hi =>
    refine ⟨{ s with
      waiting := Function.update s.waiting q (s.waiting q).tail
      due := w ::ₘ s.due
      held := w ::ₘ s.held }, ?_, ?_, ?_, ?_, ?_, made⟩
    · simp [Service.run, Service.next, h.waiting, hw]
    · rw [Outcome.gather_same here idleFresh hf, h.fresh]
    · rw [Outcome.gather_gain here idleDue hd hd', h.due]
    · rw [Outcome.gather_gain here idleHeld hh hh', h.held]
    · rw [h.waiting]
      exact hi.symm
  | @call w hf hd hd' hh hi =>
    obtain ⟨hw, hlose⟩ := Outcome.gather_lose here idleDue hd hd'
    refine ⟨{ s with due := s.due.erase w }, ?_, ?_, ?_, ?_, ?_, made⟩
    · simp [Service.run, Service.next, h.due, hw]
    · rw [Outcome.gather_same here idleFresh hf, h.fresh]
    · rw [hlose, h.due]
    · rw [Outcome.gather_same here idleHeld hh, h.held]
    · exact h.waiting.trans hi.symm
  | @drop w hf hd hh hh' hi =>
    obtain ⟨hw, hlose⟩ := Outcome.gather_lose here idleHeld hh hh'
    refine ⟨{ s with held := s.held.erase w }, ?_, ?_, ?_, ?_, ?_, made⟩
    · simp [Service.run, Service.next, h.held, hw]
    · rw [Outcome.gather_same here idleFresh hf, h.fresh]
    · rw [Outcome.gather_same here idleDue hd, h.due]
    · rw [hlose, h.held]
    · exact h.waiting.trans hi.symm

/-- The refinement rule: if each step of a machine is a deed, or none, its runs are runs of the
service, up to the deeds that no event shows. -/
theorem serves {M : Machine σ π χ ε} {G : Config σ π → Nat × χ → Prop} {c₀ : Config σ π} {tr : List ε}
    (view : ε → Option (Deed κ α)) (shown : Deed κ α → Bool) (start : V.Shows c₀ .start)
    (step : ∀ tr c l p o, Machine.Run M G c₀ tr c → M.Moves c l o p →
      ∃ d, V.Does c.shared p o.shared o.pc d ∧ o.events.filterMap view = d.toList.filter shown ∧
        (∀ r ∈ o.spawned, V.Idle r) ∧ ∀ w, V.known c.shared w → V.known o.shared w)
    (h : Machine.Run M G c₀ tr c) :
    ∃ ds s, (Service.start : Service κ α).run ds = some s ∧ V.Shows c s ∧
      tr.filterMap view = ds.filter shown := by
  refine h.invariant (fun tr c => ∃ ds s, (Service.start : Service κ α).run ds = some s ∧ V.Shows c s ∧
    tr.filterMap view = ds.filter shown) ⟨[], .start, rfl, start, rfl⟩ ?_
  rintro tr c l p o hrun ⟨ds, s, hs, hshows, hsame⟩ - mv
  obtain ⟨d, does, hview, idle, known⟩ := step tr c l p o hrun mv
  obtain ⟨s', hs', hshows'⟩ := hshows.step mv.here does idle known
  refine ⟨ds ++ d.toList, s', ?_, hshows', ?_⟩
  · rw [Service.run_append, hs]
    exact hs'
  · rw [List.filterMap_append, List.filter_append, hsame, hview]

end Carrier
end PthreadWorkqueue.Concurrency
