import PthreadWorkqueue.Posix.Order
import PthreadWorkqueue.Posix.ExitMarkers
import Mathlib.Data.List.Find

/-! The items of the non-overcommit pool in the order in which scans meet them: slot by slot, and
first in first out within a queue. -/
namespace PthreadWorkqueue.Posix
open Concurrency

namespace Shared

/-- The items of the queue in a slot. -/
def slotItems (sh : Shared) (i : Nat) : List Work := ((sh.wqlist i).map fun q => sh.items q).getD []

def scanOrder (sh : Shared) : List Work := (List.range 32).flatMap sh.slotItems

/-- The first slot with an item. -/
def front (sh : Shared) : Option Nat := (List.range 32).find? fun i => !(sh.slotItems i).isEmpty

/-- The items that a scan meets before the item `w`. -/
def before (w : Work) (sh : Shared) : List Work := sh.scanOrder.takeWhile (· != w)

def markersBefore (w : Work) (sh : Shared) : Nat := (sh.before w).countP Work.isMarker

def realBefore (w : Work) (sh : Shared) : Nat := (sh.before w).countP fun x => !x.isMarker

/-- The slot holds an item, and no slot before it holds `w`. -/
def reaches (w : Work) (sh : Shared) (i : Nat) : Bool :=
  !(sh.slotItems i).isEmpty && (List.range i).all fun j => !(sh.slotItems j).contains w

/-- The queue is in such a slot. -/
def leadsTo (w : Work) (sh : Shared) (q : QId) : Bool :=
  (List.range 32).any fun i => sh.wqlist i == some q && sh.reaches w i

end Shared

variable {S : Settings} {sh sh' : Shared} {t : Tid} {p : Thread} {o : Out} {c : PoolState}
  {q : QId} {wq : Workq} {i : Nat} {w : Work} {rest : List Work}

theorem Shared.slotItems_eq (h : sh.wqlist i = some q) : sh.slotItems i = sh.items q := by
  simp [Shared.slotItems, h]

/-- Memory with the same registry and the same items. -/
def SameItems (sh sh' : Shared) : Prop := sh'.wqlist = sh.wqlist ∧ ∀ q, sh'.items q = sh.items q

theorem SameItems.slotItems (h : SameItems sh sh') : sh'.slotItems = sh.slotItems := by
  funext i
  simp only [Shared.slotItems, h.1]
  cases sh.wqlist i with
  | none => rfl
  | some q => exact h.2 q

theorem SameItems.scanOrder (h : SameItems sh sh') : sh'.scanOrder = sh.scanOrder := by
  rw [Shared.scanOrder, Shared.scanOrder, h.slotItems]

theorem SameItems.before (h : SameItems sh sh') (w : Work) : sh'.before w = sh.before w := by
  rw [Shared.before, Shared.before, h.scanOrder]

theorem SameItems.markersBefore (h : SameItems sh sh') (w : Work) :
    sh'.markersBefore w = sh.markersBefore w := by
  rw [Shared.markersBefore, Shared.markersBefore, h.before]

theorem SameItems.realBefore (h : SameItems sh sh') (w : Work) :
    sh'.realBefore w = sh.realBefore w := by
  rw [Shared.realBefore, Shared.realBefore, h.before]

theorem SameItems.leadsTo (h : SameItems sh sh') (w : Work) : sh'.leadsTo w = sh.leadsTo w := by
  funext q
  simp only [Shared.leadsTo, Shared.reaches, h.slotItems, h.1]

theorem Shared.leadsTo_iff : sh.leadsTo w q = true ↔
    ∃ i < 32, sh.wqlist i = some q ∧ sh.reaches w i = true := by
  simp [Shared.leadsTo, List.any_eq_true]

theorem Shared.items_of_leadsTo (h : sh.leadsTo w q = true) : sh.items q ≠ [] := by
  obtain ⟨i, -, hi, hreach⟩ := Shared.leadsTo_iff.mp h
  have := (Bool.and_eq_true_iff.mp hreach).1
  rw [Shared.slotItems_eq hi] at this
  simpa using this

theorem Registry.slot_lt (hr : Registry c) (hi : c.shared.wqlist i = some q) : i < 32 := by
  obtain ⟨wq, hreg, _, hprio⟩ := hr.slots i q hi
  have := hreg.bound
  simp only [workqNumPrioqueue] at this
  omega

/-- The head of a queue leaves the order. If its slot is reached before `target`, so is the head. -/
theorem Registry.scanOrder_remove (hr : Registry c) (hi : c.shared.wqlist i = some q)
    (hl : c.shared.items q = w :: rest) (hwq : sh'.wqlist = c.shared.wqlist)
    (hitems : ∀ r, sh'.items r = if q = r then rest else c.shared.items r) :
    ∃ a b, c.shared.scanOrder = a ++ w :: b ∧ sh'.scanOrder = a ++ b ∧
      ∀ target, c.shared.reaches target i = true → target ∉ a := by
  obtain ⟨wq, hreg, _, hprio⟩ := hr.slots i q hi
  obtain ⟨n, hn⟩ := Nat.exists_eq_add_of_le (Nat.succ_le_of_lt (hr.slot_lt hi))
  have hsplit : List.range 32 = List.range i ++ i :: (List.range n).map (i + 1 + ·) := by
    rw [hn, Nat.succ_eq_add_one, List.range_add, List.range_succ, List.append_assoc, List.singleton_append]
  have hother : ∀ j, j ≠ i → sh'.slotItems j = c.shared.slotItems j := by
    intro j hj
    cases hjq : c.shared.wqlist j with
    | none => simp [Shared.slotItems, hwq, hjq]
    | some r =>
      have hjq' : sh'.wqlist j = some r := hwq ▸ hjq
      rw [Shared.slotItems_eq hjq, Shared.slotItems_eq hjq', hitems, if_neg]
      rintro rfl
      exact hj ((hr.index_eq hjq hreg.here).2.trans hprio)
  have hleft : ∀ j ∈ List.range i, j ≠ i := fun j hj => Nat.ne_of_lt (List.mem_range.mp hj)
  have hright : ∀ j ∈ (List.range n).map (i + 1 + ·), j ≠ i := by
    intro j hj
    obtain ⟨m, _, rfl⟩ := List.mem_map.mp hj
    omega
  refine ⟨(List.range i).flatMap c.shared.slotItems,
    rest ++ ((List.range n).map (i + 1 + ·)).flatMap c.shared.slotItems, ?_, ?_, fun target hreach => ?_⟩
  · rw [Shared.scanOrder, hsplit, List.flatMap_append, List.flatMap_cons, Shared.slotItems_eq hi, hl]
    rfl
  · have hi' : sh'.wqlist i = some q := hwq ▸ hi
    rw [Shared.scanOrder, hsplit, List.flatMap_append, List.flatMap_cons,
      Shared.slotItems_eq hi', hitems, if_pos rfl,
      List.flatMap_congr fun j hj => hother j (hleft j hj),
      List.flatMap_congr fun j hj => hother j (hright j hj)]
  · have hno := List.all_eq_true.mp (Bool.and_eq_true_iff.mp hreach).2
    intro hmem
    obtain ⟨j, hj, hw⟩ := List.mem_flatMap.mp hmem
    simpa [hw] using hno j hj

private theorem countP_remove {x : Work} {a b : List Work} (P : Work → Bool) (hx : x ≠ w) :
    ((a ++ b).takeWhile (· != w)).countP P ≤ ((a ++ x :: b).takeWhile (· != w)).countP P ∧
      (w ∉ a → P x = true → ((a ++ b).takeWhile (· != w)).countP P + 1 =
        ((a ++ x :: b).takeWhile (· != w)).countP P) := by
  induction a with
  | nil =>
    have hne : (x != w) = true := bne_iff_ne.mpr hx
    simp only [List.nil_append, List.takeWhile_cons, hne, if_true, List.countP_cons]
    exact ⟨Nat.le_add_right _ _, fun _ hP => by rw [if_pos hP]⟩
  | cons y a ih =>
    simp only [List.cons_append, List.takeWhile_cons]
    split
    · rw [List.countP_cons, List.countP_cons]
      refine ⟨Nat.add_le_add_right ih.1 _, fun hw hP => ?_⟩
      have := ih.2 (fun h => hw (List.mem_cons_of_mem y h)) hP
      omega
    · rename_i hy
      refine ⟨Nat.le_refl _, fun hw _ => ?_⟩
      obtain rfl : y = w := by simpa using hy
      exact absurd List.mem_cons_self hw

/-- What the dequeue of the item `x` from a slot does to the items before `w`. -/
structure Passed (w x : Work) (i : Nat) (sh sh' : Shared) : Prop where
  markers : sh'.markersBefore w ≤ sh.markersBefore w
  real : sh'.realBefore w ≤ sh.realBefore w
  marker : sh.reaches w i = true → x.isMarker = true → sh'.markersBefore w + 1 = sh.markersBefore w
  item : sh.reaches w i = true → x.isMarker = false → sh'.realBefore w + 1 = sh.realBefore w
  queued : w ∈ sh.scanOrder → w ∈ sh'.scanOrder
  length : sh'.scanOrder.length + 1 = sh.scanOrder.length

/-- Another item is dequeued. -/
theorem Registry.passed {x : Work} (hr : Registry c) (hi : c.shared.wqlist i = some q)
    (hl : c.shared.items q = x :: rest) (hx : x ≠ w) (hwq : sh'.wqlist = c.shared.wqlist)
    (hitems : ∀ r, sh'.items r = if q = r then rest else c.shared.items r) :
    Passed w x i c.shared sh' := by
  obtain ⟨a, b, ho, ho', hreach⟩ := hr.scanOrder_remove hi hl hwq hitems
  have hmark := countP_remove (w := w) (a := a) (b := b) Work.isMarker hx
  have hreal := countP_remove (w := w) (a := a) (b := b) (fun y => !y.isMarker) hx
  refine ⟨?_, ?_, fun h hm => ?_, fun h hm => ?_, fun hw => ?_, by simp [ho, ho', Nat.add_assoc]⟩
  · simpa only [Shared.markersBefore, Shared.before, ho, ho'] using hmark.1
  · simpa only [Shared.realBefore, Shared.before, ho, ho'] using hreal.1
  · simpa only [Shared.markersBefore, Shared.before, ho, ho'] using hmark.2 (hreach w h) hm
  · simpa only [Shared.realBefore, Shared.before, ho, ho'] using hreal.2 (hreach w h) (by simp [hm])
  · rw [ho, List.mem_append, List.mem_cons] at hw
    rw [ho', List.mem_append]
    rcases hw with hw | rfl | hw
    · exact .inl hw
    · exact absurd rfl hx
    · exact .inr hw

/-- No marker is before a real item, so the first item of all is real. -/
theorem Shared.first_real {x : Work} {l : List Work} (ho : sh.scanOrder = x :: l)
    (hw : w.isMarker = false) (hz : sh.markersBefore w = 0) : x.isMarker = false := by
  refine Bool.eq_false_iff.mpr fun hx => ?_
  have hne : (x != w) = true := bne_iff_ne.mpr fun he => by
    rw [← he, hx] at hw
    cases hw
  simp [Shared.markersBefore, Shared.before, ho, hne, hx] at hz

/-- While all spin locks are free, `ffs` finds the first slot with an item. -/
theorem Masks.front_eq (hm : Masks c) (hr : Registry c)
    (free : ∀ (q : QId) (wq : Workq), c.shared.queues[q]? = some wq → wq.mtx = none) :
    c.shared.front = if ffs c.shared.wqlistMask = 0 then none else some (ffs c.shared.wqlistMask - 1) := by
  have hbit : ∀ i ∈ List.range 32,
      (!(c.shared.slotItems i).isEmpty) = c.shared.wqlistMask.getLsbD i := by
    intro i _
    cases hi : c.shared.wqlist i with
    | none => simp [Shared.slotItems, hi, hm.unregistered i hi]
    | some q =>
      obtain ⟨wq, hreg, _⟩ := hr.slots i q hi
      have hp := hm.free i q wq hi hreg.here (free q wq hreg.here)
      rw [Shared.slotItems_eq hi, Shared.items_eq hreg.here, Bool.eq_iff_iff, Iff.comm]
      simpa [Pending] using hp
  rw [Shared.front, List.find?_congr hbit]
  unfold ffs
  cases (List.range 32).find? fun i => c.shared.wqlistMask.getLsbD i <;> simp

theorem Registry.scanOrder_of_item (hr : Registry c) (hq : c.shared.queues[q]? = some wq)
    (hk : wq.overcommit = false) (hw : w ∈ wq.itemListhead) : w ∈ c.shared.scanOrder := by
  rcases hr.fresh q wq hq with hs | ⟨hs, _⟩
  · simp only [Shared.slotOf, hk, Bool.false_eq_true, if_false] at hs
    have hb := hr.bound q wq hq
    simp only [workqNumPrioqueue] at hb
    refine List.mem_flatMap.mpr ⟨wq.queueprio, List.mem_range.mpr (by omega), ?_⟩
    rwa [Shared.slotItems_eq hs, Shared.items_eq hq]
  · rw [hs] at hw
    cases hw

/-- The first slot with an item holds a registered queue, whose head comes first of all. -/
theorem Registry.front_spec (hr : Registry c) (hf : c.shared.front = some i) :
    ∃ q wq w rest, c.shared.wqlist i = some q ∧ c.shared.queues[q]? = some wq ∧
      wq.itemListhead = w :: rest ∧ ∃ b, c.shared.scanOrder = w :: b := by
  obtain ⟨hne, l₁, l₂, hsplit, hempty⟩ := List.find?_eq_some_iff_append.mp hf
  have hnil : l₁.flatMap c.shared.slotItems = [] :=
    List.flatMap_eq_nil_iff.mpr fun j hj => by simpa using hempty j hj
  cases hi : c.shared.wqlist i with
  | none => simp [Shared.slotItems, hi] at hne
  | some q =>
    obtain ⟨wq, hreg, _⟩ := hr.slots i q hi
    rw [Shared.slotItems_eq hi, Shared.items_eq hreg.here] at hne
    obtain ⟨w, rest, hl⟩ := List.exists_cons_of_ne_nil (l := wq.itemListhead) (by simpa using hne)
    refine ⟨q, wq, w, rest, rfl, hreg.here, hl, rest ++ l₂.flatMap c.shared.slotItems, ?_⟩
    rw [Shared.scanOrder, hsplit, List.flatMap_append, List.flatMap_cons, hnil, Shared.slotItems_eq hi,
      Shared.items_eq hreg.here, hl]
    rfl

/-- Whatever is in the first slot with an item comes no later than `w`. -/
theorem Shared.reaches_of_front (hf : sh.front = some i) : sh.reaches w i = true := by
  obtain ⟨hne, _, hno⟩ := List.find?_range_eq_some.mp hf
  refine Bool.and_eq_true_iff.mpr ⟨hne, List.all_eq_true.mpr fun j hj => ?_⟩
  have := hno j (List.mem_range.mp hj)
  simp_all

theorem Shared.front_ne_none (h : sh.scanOrder ≠ []) : sh.front ≠ none := by
  intro hf
  refine h (List.flatMap_eq_nil_iff.mpr fun j hj => ?_)
  simpa using List.find?_eq_none.mp hf j hj

/-- The slot that a scan has chosen is not empty. -/
theorem slot_registered {G : PoolState → Nat × Choice → Prop} {users managers : Nat}
    {tr : List Event} (h : Machine.Run (program S) G (initial users managers) tr c) :
    ∀ (t : Tid) (p : Thread) (i : Nat), c.threads[t]? = some p → p.slot = some i →
      ∃ q, c.shared.wqlist i = some q := by
  refine h.invariant (fun _ c => ∀ (t : Tid) (p : Thread) (i : Nat), c.threads[t]? = some p →
    p.slot = some i → ∃ q, c.shared.wqlist i = some q) (fun t p i hp hs => ?_) ?_
  · obtain rfl | rfl := initial_threads hp <;> cases hs
  · intro tr c l p o hrun ih _ mv u r i hu hs
    have hstep := (program_step mv.next).2
    have grow : (∃ q, c.shared.wqlist i = some q) → ∃ q, o.shared.wqlist i = some q :=
      fun ⟨q, hq⟩ => ⟨q, (step_grows hstep).wqlist i q hq⟩
    obtain ⟨rfl, rfl⟩ | ⟨_, hu⟩ | ⟨_, hu⟩ := Outcome.get_cases mv.here hu
    · cases scan_slot_step hstep with
      | none hn | readSlot _ _ _ hn => rw [hn] at hs; cases hs
      | readMask _ hf hsl =>
        rw [hsl] at hs
        cases hs
        refine grow (Option.ne_none_iff_exists'.mp fun hno => ?_)
        have := (masks hrun).unregistered _ hno
        rw [(ffs_spec hf).1] at this
        cases this
      | keep _ hsl => exact grow (ih _ _ i mv.here (hsl ▸ hs))
    · exact grow (ih u r i hu hs)
    · rw [(spawned_scan hstep r hu).1] at hs
      cases hs

end PthreadWorkqueue.Posix
