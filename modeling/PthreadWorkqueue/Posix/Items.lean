import PthreadWorkqueue.Posix.Mask

/-! The item lists. A step appends an item to one list, takes the head of one list, or leaves all
lists alone, and its events tell which. -/
namespace PthreadWorkqueue.Posix
open Concurrency

/-- What the accounts of this module see of a queue. -/
def Workq.view (wq : Workq) : Bool × List Work := (wq.overcommit, wq.itemListhead)

def Event.movesItem : Event → Bool
  | .accept _ _ _ | .post _ _ _ | .dequeue _ _ _ => true
  | _ => false

inductive ListStep (sh : Shared) (t : Tid) (o : Out) : Prop where
  | keep (new : List Workq) : (∀ wq ∈ new, wq.itemListhead = []) →
      o.shared.queues.map Workq.view = (sh.queues ++ new).map Workq.view →
      (∀ e ∈ o.events, e.movesItem = false) → ListStep sh t o
  | insert {q wq w} : sh.queues[q]? = some wq →
      o.shared.queues = sh.queues.set q { wq with itemListhead := wq.itemListhead ++ [w] } →
      o.events = [.accept t q w] ∨ o.events = [.post t q w] → ListStep sh t o
  | remove {q wq w rest} : sh.queues[q]? = some wq → wq.itemListhead = w :: rest →
      o.shared.queues = sh.queues.set q { wq with itemListhead := rest } →
      o.events = [.dequeue t q w] → ListStep sh t o

variable {S : Settings} {sh : Shared} {t : Tid} {p : Thread} {ch : Choice} {o : Out}
  {c : PoolState} {q : QId} {wq wq' : Workq}

namespace ListStep

private theorem same (hq : o.shared.queues = sh.queues) (he : ∀ e ∈ o.events, e.movesItem = false) :
    ListStep sh t o :=
  .keep [] (by simp) (by simp [hq]) he

private theorem touch (hq : sh.queues[q]? = some wq) (hs : o.shared.queues = sh.queues.set q wq')
    (hv : wq'.view = wq.view) (he : ∀ e ∈ o.events, e.movesItem = false) : ListStep sh t o := by
  refine .keep [] (by simp) ?_ he
  obtain ⟨hl, rfl⟩ := List.getElem?_eq_some_iff.mp hq
  rw [hs, List.map_set, hv, List.append_nil]
  have hl' : q < (sh.queues.map Workq.view).length := by simpa using hl
  rw [← List.getElem_map Workq.view (h := hl'), List.set_getElem_self]

private theorem head (hm : Masks c) (hr : Registry c) (hp : c.threads[t]? = some p)
    (hq : c.shared.queues[q]? = some wq) {v : WorkerVars} {k : ScanKind} {w : Work}
    (hpc : p = .worker v (.scan k (.remove q w))) :
    wq.itemListhead = w :: wq.itemListhead.tail := by
  subst hpc
  have place := (Registered.place hq (hr.threads t _ hp)).1
  obtain ⟨_, hh⟩ := hm.held _ q wq t _ place hq hp rfl
  exact (List.cons_head?_tail hh).symm

end ListStep

theorem list_step (hm : Masks c) (hr : Registry c) (hp : c.threads[t]? = some p)
    (h : Step S c.shared t p ch o) : ListStep c.shared t o := by
  cases h with
  | app h => cases h <;> exact .same rfl (by simp)
  | call h =>
    cases h with
    | quiet hq | quietReturn hq => obtain ⟨_, _, _, _, rfl⟩ := hq; exact .same rfl (by simp)
    | spinLock hq | spinUnlock hq | ocSpinLock hq | ocSpinUnlock hq =>
      exact .touch hq rfl rfl (by simp)
    | register hq | ocRegister hq => exact .touch hq rfl rfl (by simp)
    | insert hq | ocInsert hq => exact .insert hq rfl (.inl rfl)
    | createAlloc => exact .keep [newWorkq _] (by simp [newWorkq]) rfl (by simp)
    | _ => exact .same rfl (by simp [Event.movesItem])
  | worker h =>
    cases h with
    | lock hq | unlock hq => exact .touch hq rfl rfl (by simp)
    | remove hq | removeLast hq => exact .remove hq (ListStep.head hm hr hp hq rfl) rfl rfl
    | exitFree | free => exact .same (by simp) (by simp [Event.movesItem])
    | _ => exact .same rfl (by simp [Event.movesItem])
  | overcommit h =>
    cases h with
    | dequeue _ _ hq hl | dequeueLast _ _ hq hl => exact .remove hq hl rfl rfl
    | free => exact .same (by simp) (by simp [Event.movesItem])
    | _ => exact .same rfl (by simp [Event.movesItem])
  | manager h =>
    cases h with
    | plain hq => obtain ⟨_, _, _, _, rfl⟩ := hq; exact .same rfl (by simp)
    | spinLock hq | spinUnlock hq => exact .touch hq rfl rfl (by simp)
    | insert hq => exact .insert hq rfl (.inr rfl)
    | _ => exact .same rfl (by simp [Event.movesItem])

/-! Totals -/

/-- The sum of a weight over all queued items; it may depend on the kind of the queue. -/
def Shared.queued (g : Bool → Work → Nat) (sh : Shared) : Nat :=
  (sh.queues.map fun wq => (wq.itemListhead.map (g wq.overcommit)).sum).sum

/-- Whether the queue is an overcommit queue. -/
def Shared.kind (sh : Shared) (q : QId) : Bool := ((sh.queues[q]?).map (·.overcommit)).getD false

/-- The weight that an event brings into the lists. -/
def Event.inflow (g : Bool → Work → Nat) (sh : Shared) : Event → Nat
  | .accept _ q w | .post _ q w => g (sh.kind q) w
  | _ => 0

/-- The weight that an event takes out of the lists. -/
def Event.outflow (g : Bool → Work → Nat) (sh : Shared) : Event → Nat
  | .dequeue _ q w => g (sh.kind q) w
  | _ => 0

theorem Shared.kind_eq (hq : sh.queues[q]? = some wq) : sh.kind q = wq.overcommit := by
  simp [Shared.kind, hq]

private theorem Shared.queued_eq_view (g : Bool → Work → Nat) (sh : Shared) :
    sh.queued g = ((sh.queues.map Workq.view).map fun v => (v.2.map (g v.1)).sum).sum := by
  rw [List.map_map]
  rfl

private theorem Shared.queued_set {sh' : Shared} (g : Bool → Work → Nat) (hq : sh.queues[q]? = some wq)
    (hs : sh'.queues = sh.queues.set q wq') :
    sh'.queued g + (wq.itemListhead.map (g wq.overcommit)).sum =
      sh.queued g + (wq'.itemListhead.map (g wq'.overcommit)).sum := by
  unfold Shared.queued
  rw [hs]
  exact sum_map_set (fun wq : Workq => (wq.itemListhead.map (g wq.overcommit)).sum) wq' hq

theorem ListStep.queued (h : ListStep sh t o) (g : Bool → Work → Nat) :
    o.shared.queued g + (o.events.map (Event.outflow g sh)).sum =
      sh.queued g + (o.events.map (Event.inflow g sh)).sum := by
  cases h with
  | keep new hn hq he =>
    have zero : (new.map fun wq => (wq.itemListhead.map (g wq.overcommit)).sum).sum = 0 :=
      sum_map_eq_zero fun wq hw => by simp [hn wq hw]
    have hout : ∀ e ∈ o.events, e.outflow g sh = 0 := fun e h => by
      cases e <;> first | rfl | cases he _ h
    have hin : ∀ e ∈ o.events, e.inflow g sh = 0 := fun e h => by
      cases e <;> first | rfl | cases he _ h
    rw [List.map_congr_left hout, List.map_congr_left hin, Shared.queued_eq_view, hq,
      ← Shared.queued_eq_view g { sh with queues := sh.queues ++ new }]
    simp only [Shared.queued, List.map_append, List.sum_append, zero]
    omega
  | @insert q wq w hq hs he =>
    have hset := Shared.queued_set g hq hs
    simp only [List.map_append, List.sum_append, List.map_cons, List.map_nil, List.sum_cons,
      List.sum_nil] at hset
    rcases he with he | he <;>
      simp only [he, List.map_cons, List.map_nil, List.sum_cons, List.sum_nil, Event.outflow,
        Event.inflow, Shared.kind_eq hq] <;> omega
  | @remove q wq w rest hq hl hs he =>
    have hset := Shared.queued_set g hq hs
    simp only [hl, List.map_cons, List.sum_cons] at hset
    simp only [he, List.map_cons, List.map_nil, List.sum_cons, List.sum_nil, Event.outflow,
      Event.inflow, Shared.kind_eq hq]
    omega

/-! Histories -/

/-- The items of one queue. -/
def Shared.items (q : QId) (sh : Shared) : List Work := ((sh.queues[q]?).map (·.itemListhead)).getD []

/-- The items that were inserted into a queue, in order. -/
def insertedInto (q : QId) (tr : List Event) : List Work :=
  tr.filterMap fun
    | .accept _ r w | .post _ r w => if r = q then some w else none
    | _ => none

/-- The items that were dequeued from a queue, in order. -/
def dequeuedFrom (q : QId) (tr : List Event) : List Work :=
  tr.filterMap fun
    | .dequeue _ r w => if r = q then some w else none
    | _ => none

theorem insertedInto_append (q : QId) (tr es : List Event) :
    insertedInto q (tr ++ es) = insertedInto q tr ++ insertedInto q es :=
  List.filterMap_append

theorem dequeuedFrom_append (q : QId) (tr es : List Event) :
    dequeuedFrom q (tr ++ es) = dequeuedFrom q tr ++ dequeuedFrom q es :=
  List.filterMap_append

theorem Shared.items_eq (hq : sh.queues[q]? = some wq) : sh.items q = wq.itemListhead := by
  simp [Shared.items, hq]

private theorem Shared.items_eq_view (q : QId) (sh : Shared) :
    sh.items q = (((sh.queues.map Workq.view)[q]?).map Prod.snd).getD [] := by
  simp [Shared.items, Workq.view, Function.comp_def]

theorem Shared.items_set {sh' : Shared} {r : QId} (hq : sh.queues[q]? = some wq)
    (hs : sh'.queues = sh.queues.set q wq') :
    sh'.items r = if q = r then wq'.itemListhead else sh.items r := by
  have hl := (List.getElem?_eq_some_iff.mp hq).1
  unfold Shared.items
  rw [hs]
  split
  · subst_vars
    simp [List.getElem?_set_self hl]
  · rw [List.getElem?_set_ne (by assumption)]

theorem Shared.items_set_same {sh' : Shared} (hq : sh.queues[q]? = some wq)
    (hs : sh'.queues = sh.queues.set q wq') (hl : wq'.itemListhead = wq.itemListhead) (r : QId) :
    sh'.items r = sh.items r := by
  rw [Shared.items_set hq hs]
  split
  · subst_vars
    rw [hl, Shared.items_eq hq]
  · rfl

/-- What a step adds at the end of a list and takes from its front. -/
theorem ListStep.items (h : ListStep sh t o) (r : QId) :
    sh.items r ++ insertedInto r o.events = dequeuedFrom r o.events ++ o.shared.items r := by
  cases h with
  | keep new hn hq he =>
    have hout : dequeuedFrom r o.events = [] := List.filterMap_eq_nil_iff.mpr fun e h => by
      cases e <;> first | rfl | cases he _ h
    have hin : insertedInto r o.events = [] := List.filterMap_eq_nil_iff.mpr fun e h => by
      cases e <;> first | rfl | cases he _ h
    rw [hout, hin, List.append_nil, List.nil_append, Shared.items_eq_view r o.shared, hq,
      ← Shared.items_eq_view r { sh with queues := sh.queues ++ new }]
    simp only [Shared.items]
    by_cases hr : r < sh.queues.length
    · rw [List.getElem?_append_left hr]
    · have hl : sh.queues.length ≤ r := Nat.le_of_not_lt hr
      rw [List.getElem?_eq_none hl, List.getElem?_append_right hl]
      cases hx : new[r - sh.queues.length]? with
      | none => rfl
      | some wq => simp [hn wq (List.mem_of_getElem? hx)]
  | @insert q wq w hq hs he =>
    rw [Shared.items_set (r := r) hq hs]
    have hi := Shared.items_eq hq
    rcases he with he | he <;> rw [he] <;> by_cases hr : q = r <;>
      simp [insertedInto, dequeuedFrom, hr, ← hi]
  | @remove q wq w rest hq hl hs he =>
    rw [Shared.items_set (r := r) hq hs, he]
    have hi := (Shared.items_eq hq).trans hl
    by_cases hr : q = r
    · subst hr
      simp [insertedInto, dequeuedFrom, hi]
    · simp [insertedInto, dequeuedFrom, hr]

variable {G : PoolState → Nat × Choice → Prop} {users managers : Nat} {tr : List Event}

theorem run_list_step {l : Tid × Choice}
    (hrun : Machine.Run (program S) G (initial users managers) tr c)
    (mv : (program S).Moves c l o p) : ListStep c.shared l.1 o :=
  list_step (masks hrun) (registry hrun) mv.here (program_step mv.next).2

/-- In every run a list holds what was inserted into it and not yet dequeued, in order. -/
theorem inserted_eq_dequeued_append_items
    (h : Machine.Run (program S) G (initial users managers) tr c) (q : QId) :
    insertedInto q tr = dequeuedFrom q tr ++ c.shared.items q := by
  refine h.invariant (fun tr c => insertedInto q tr = dequeuedFrom q tr ++ c.shared.items q) ?_ ?_
  · rfl
  · intro tr c l p o hrun ih _ mv
    have hl := (run_list_step hrun mv).items q
    rw [insertedInto_append, dequeuedFrom_append, ih, List.append_assoc, hl, List.append_assoc]
    rfl

end PthreadWorkqueue.Posix
