import PthreadWorkqueue.Posix.ReuseRefinement

/-! The accounts of the items when addresses are given out again. The place of an item is told by its
address, since no two live items have the same one. -/
namespace PthreadWorkqueue.Posix
open Concurrency

variable {S : Settings} {t : Tid} {p : Thread} {addr : Nat → Nat} {w : Work} {P : Work → Bool}
  {a c : PoolState} {users managers : Nat} {es tr : List Event} {H : List Bool}

theorem Thread.rename_fresh (p : Thread) : (p.rename addr).fresh = p.fresh.map (Work.rename addr) := by
  cases p with
  | call k x =>
    cases x with
    | add q w x => cases x <;> rfl
    | ocAdd q w x => cases x <;> rfl
    | _ => rfl
  | manager v x =>
    cases x with
    | stop i m x => cases x <;> rfl
    | _ => rfl
  | _ => rfl

theorem Thread.rename_held (p : Thread) : (p.rename addr).held = p.held.map (Work.rename addr) := by
  cases p with
  | app k => cases k <;> rfl
  | call k x => cases k <;> rfl
  | worker v x =>
    cases x with
    | scan k x => cases x <;> rfl
    | _ => rfl
  | overcommit x => cases x <;> rfl
  | manager v x => rfl

theorem Thread.rename_due (p : Thread) : (p.rename addr).due = p.due.map (Work.rename addr) := by
  cases p with
  | worker v x =>
    cases x with
    | scan k x => cases x <;> rfl
    | _ => rfl
  | overcommit x => cases x <;> rfl
  | _ => rfl

/-- The class of the items that are in a class under their addresses. -/
def under (addr : Nat → Nat) (P : Work → Bool) (w : Work) : Bool := P (w.rename addr)

theorem weight_rename (x : Option Work) : weight P (x.map (Work.rename addr)) = weight (under addr P) x := by
  cases x <;> rfl

theorem Aliases.total (h : Aliases addr a c) {f : Thread → Option Work}
    (hf : ∀ p : Thread, f (p.rename addr) = (f p).map (Work.rename addr)) :
    (c.total fun p => weight P (f p)) = a.total fun p => weight (under addr P) (f p) := by
  unfold Config.total
  rw [h.threads, List.map_map]
  refine congrArg List.sum (List.map_congr_left fun p _ => ?_)
  change weight P (f (p.rename addr)) = _
  rw [hf, weight_rename]

theorem Aliases.queued (h : Aliases addr a c) :
    c.shared.queued (fun _ w => (P w).toNat) = a.shared.queued fun _ w => (under addr P w).toNat := by
  have hsum : c.shared.queues.map (fun wq => (wq.itemListhead.map fun w => (P w).toNat).sum) =
      a.shared.queues.map fun wq => (wq.itemListhead.map fun w => (under addr P w).toNat).sum := by
    rw [h.shared]
    refine List.ext_getElem? fun q => ?_
    rw [List.getElem?_map, List.getElem?_map, getElem?_transport, Option.map_map]
    refine congrArg (Option.map · _) (funext fun wq => congrArg List.sum ?_)
    exact List.map_map ..
  exact congrArg List.sum hsum

theorem Aliases.items (h : Aliases addr a c) (q : QId) :
    c.shared.items q = (a.shared.items q).map (Work.rename addr) := by
  rw [h.shared]
  unfold Shared.items
  rw [getElem?_transport]
  cases a.shared.queues[q]? <;> rfl

/-- The accounts of a class under the addresses. -/
theorem Accounts.rename (h : Aliases addr a c) (ha : Accounts (under addr P) es a) :
    Accounts P (es.map (Event.rename addr)) c := by
  have count : ∀ f : (Work → Bool) → Event → Bool,
      (∀ e, f P (Event.rename addr e) = f (under addr P) e) →
      (es.map (Event.rename addr)).countP (f P) = es.countP (f (under addr P)) := fun f hf => by
    rw [List.countP_map]
    exact congrArg (List.countP · es) (funext hf)
  have hfresh := h.total (P := P) Thread.rename_fresh
  have hheld := h.total (P := P) Thread.rename_held
  have hdue := h.total (P := P) Thread.rename_due
  have hqueued := h.queued (P := P)
  have halloc := count Event.allocates fun e => by cases e <;> rfl
  have hinsert := count Event.inserts fun e => by cases e <;> rfl
  have hdequeue := count Event.dequeues fun e => by cases e <;> rfl
  have hinvoke := count Event.invokes fun e => by cases e <;> rfl
  have hfree := count Event.frees fun e => by cases e <;> rfl
  constructor
  · rw [halloc, hinsert, hfresh]
    exact ha.allocated
  · rw [hinsert, hqueued, hdequeue]
    exact ha.inserted
  · rw [hdequeue, hfree, hheld]
    exact ha.dequeued
  · intro real
    rw [hdequeue, hinvoke, hdue]
    exact ha.invoked fun w hw => real (w.rename addr) hw

private theorem select_rename {q r : QId} : (if r = q then some (w.rename addr) else none) =
    Option.map (Work.rename addr) (if r = q then some w else none) := by
  split <;> rfl

theorem insertedInto_rename (q : QId) :
    insertedInto q (es.map (Event.rename addr)) = (insertedInto q es).map (Work.rename addr) := by
  unfold insertedInto
  rw [List.filterMap_map, List.map_filterMap]
  refine congrArg (List.filterMap · es) (funext fun e => ?_)
  cases e <;> first | rfl | exact select_rename

theorem dequeuedFrom_rename (q : QId) :
    dequeuedFrom q (es.map (Event.rename addr)) = (dequeuedFrom q es).map (Work.rename addr) := by
  unfold dequeuedFrom
  rw [List.filterMap_map, List.map_filterMap]
  refine congrArg (List.filterMap · es) (funext fun e => ?_)
  cases e <;> first | rfl | exact select_rename

/-- The number of places in which there is an item of a class: in the hands of calls, in the queues
and in the hands of workers. -/
def PoolState.places (P : Work → Bool) (c : PoolState) : Nat :=
  (c.total fun p => weight P p.fresh) + c.shared.queued (fun _ w => (P w).toNat) +
    c.total fun p => weight P p.held

theorem Aliases.places (h : Aliases addr a c) : c.places P = a.places (under addr P) := by
  unfold PoolState.places
  rw [h.total Thread.rename_fresh, h.queued, h.total Thread.rename_held]

private theorem total_congr {Q : Work → Bool} {f : Thread → Option Work}
    (h : ∀ (t : Tid) (p : Thread) (w : Work), a.threads[t]? = some p → f p = some w → P w = Q w) :
    (a.total fun p => weight P (f p)) = a.total fun p => weight Q (f p) := by
  refine congrArg List.sum (List.map_congr_left fun p hp => ?_)
  obtain ⟨t, ht⟩ := List.mem_iff_getElem?.mp hp
  cases hf : f p with
  | none => rfl
  | some w => exact congrArg Bool.toNat (h t p w ht hf)

/-- Only the live items have places. -/
theorem places_congr {Q : Work → Bool} (h : Machine.Free (program S) (initial users managers) es a)
    (same : ∀ w, a.shared.live w = true → P w = Q w) : a.places P = a.places Q := by
  have hfresh : (a.total fun p => weight P p.fresh) = a.total fun p => weight Q p.fresh :=
    total_congr fun t p w hp hw => same w ((heap h).live_of_held (accounts _ h) hp (.inr hw))
  have hheld : (a.total fun p => weight P p.held) = a.total fun p => weight Q p.held :=
    total_congr fun t p w hp hw => same w ((heap h).live_of_held (accounts _ h) hp (.inl hw))
  have hqueued : a.shared.queued (fun _ w => (P w).toNat) = a.shared.queued fun _ w => (Q w).toNat := by
    refine congrArg List.sum (List.map_congr_left fun wq hwq => congrArg List.sum ?_)
    obtain ⟨q, hq⟩ := List.mem_iff_getElem?.mp hwq
    exact List.map_congr_left fun w hw =>
      congrArg Bool.toNat (same w ((heap h).live_of_queued (accounts _ h) hq hw))
  unfold PoolState.places
  rw [hfresh, hheld, hqueued]

/-- An item that is live has one place. -/
private theorem places_live (h : Machine.Free (program S) (initial users managers) es a) {n : Nat}
    (hn : a.shared.liveAt n = true) : a.places (atAddr n) = 1 := by
  have hlt : n < a.shared.heap.length := (List.getElem?_eq_some_iff.mp (liveAt_iff.mp hn)).1
  have hplaces := (accounts (atAddr n) h).places
  rw [(heap h).allocated n, if_pos hlt, ((heap h).live n hlt).mp (liveAt_iff.mp hn)] at hplaces
  exact hplaces.symm

private theorem places_none : a.places (fun _ => false) = 0 := by
  have hweight : ∀ x : Option Work, weight (fun _ => false) x = 0 := fun x => by cases x <;> rfl
  simp [PoolState.places, Config.total, Shared.queued, hweight]

/-- With addresses given out again: an address in use is in one place, another one in none. -/
theorem Aliases.placesAt (h : Aliases addr a c)
    (hrun : Machine.Free (program S) (initial users managers) es a) (x : Nat) :
    c.places (atAddr x) = if c.shared.liveAt x then 1 else 0 := by
  rw [h.places]
  split
  · rename_i hx
    obtain ⟨n, hn, rfl⟩ := (h.live x).mp hx
    rw [places_congr hrun (Q := atAddr n) fun w hw => ?_]
    · exact places_live hrun hn
    · exact Bool.eq_iff_iff.mpr ⟨fun he => beq_iff_eq.mpr (h.apart _ _ hw hn (beq_iff_eq.mp he)),
        fun he => beq_iff_eq.mpr (congrArg addr (beq_iff_eq.mp he))⟩
  · rename_i hx
    rw [places_congr hrun (Q := fun _ => false) fun w hw => ?_]
    · exact places_none
    · refine beq_eq_false_iff_ne.mpr fun he => hx ((h.live x).mpr ⟨w.addr, hw, he⟩)

/-- In every run in which addresses are given out again, the accounts of every class of items agree,
the lists are in the order of insertion, and an address is in one place from `witem_alloc` to
`witem_free`: held by the call that allocated the item, at one position of one queue, or held by one
worker. -/
theorem reused_items_accounted (S : Settings) (users managers : Nat) (tr : List Event) (c : PoolState)
    (h : Machine.Free (reusing S) (initial users managers) tr c) :
    (∀ P, Accounts P tr c) ∧ (∀ q, insertedInto q tr = dequeuedFrom q tr ++ c.shared.items q) ∧
      ∀ x, c.places (atAddr x) = if c.shared.liveAt x then 1 else 0 := by
  obtain ⟨names, es, a, hr⟩ := reused_run h
  have hal := hr.aliases _ (gives_given names)
  rw [hr.events _ (gives_given names)]
  refine ⟨fun P => .rename hal (accounts _ hr.run), fun q => ?_, hal.placesAt hr.run⟩
  rw [insertedInto_rename, dequeuedFrom_rename, inserted_eq_dequeued_append_items hr.run q, hal.items,
    List.map_append]

/-- The second item at an address is in its queue, and only there. -/
theorem reused_items_accounted_of_two : ∃ tr c,
    Machine.Free (reusing ⟨2, 2, 2, 0, false⟩) (initial 1 0) tr c ∧
      insertedInto 0 tr = [⟨5, some 7, 70, 0, 0⟩, ⟨5, some 8, 80, 0, 0⟩] ∧
      insertedInto 0 tr = dequeuedFrom 0 tr ++ c.shared.items 0 ∧
      PoolState.places (atAddr 5) c = 1 := by
  obtain ⟨tr, c, hrun, hP⟩ := Machine.exists_run (M := reusing ⟨2, 2, 2, 0, false⟩)
    (g := fun _ _ => true) (c := initial 1 0)
    (createFirst 0 3 ++ [(1, .value 100), (1, .value 0)] ++ startWorker 1 ++ addItemAt 0 5 7 70 ++
      steps 0 6 ++ steps 2 10 ++ steps 0 1 ++ steps 2 3 ++ addItemAt 0 5 8 80 ++ steps 0 6)
    (fun r => decide (insertedInto 0 r.2 = [⟨5, some 7, 70, 0, 0⟩, ⟨5, some 8, 80, 0, 0⟩]) &&
      r.1.shared.liveAt 5) (by decide +kernel)
  obtain ⟨h₁, h₂⟩ := Bool.and_eq_true_iff.mp hP
  obtain ⟨-, hlist, hplaces⟩ := reused_items_accounted _ _ _ tr c hrun.free
  exact ⟨tr, c, hrun.free, of_decide_eq_true h₁, hlist 0, (hplaces 5).trans (if_pos h₂)⟩

end PthreadWorkqueue.Posix
