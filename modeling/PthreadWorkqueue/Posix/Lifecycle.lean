import PthreadWorkqueue.Posix.Items
import PthreadWorkqueue.Posix.Scoreboard

/-! The life of a work item: allocated, inserted, dequeued, invoked and freed, each at most once.
The accounts are kept for any class `P` of items. -/
namespace PthreadWorkqueue.Posix
open Concurrency

/-- The item that a worker at this point has dequeued and still uses. -/
def WorkerPc.item : WorkerPc → Option Work
  | .scan _ p => match p with
    | .clear _ w => some w
    | .unlock _ r => r
    | _ => none
  | .spinReadIdle w | .spinPost w => some w
  | .spinLeave r => r
  | .waitUnlock w | .waitReadIdle w | .waitPost w | .waitTest w => some w
  | .exitDecIdle w | .exitDecCount w | .exitFree w => some w
  | .decIdle w | .invoke w | .incIdle w | .free w => some w
  | .start | .spinEnter | .waitLock | .condWait | .waiting | .exited => none

/-- The item whose callback a worker at this point is about to invoke. -/
def WorkerPc.due : WorkerPc → Option Work
  | .exitDecIdle _ | .exitDecCount _ | .exitFree _ | .incIdle _ | .free _ => none
  | p => p.item

namespace Thread

/-- The item that a call has allocated and not yet inserted. -/
def fresh : Thread → Option Work
  | .call _ c => match c with
    | .handle _ w => some w
    | .add _ w p => match p with
      | .spinLock | .testEmpty | .atomicOr | .insert => some w
      | _ => none
    | .ocAdd _ w p => match p with
      | .lockMtx | .spinLock | .insert => some w
      | _ => none
    | _ => none
  | .manager _ (.stop _ _ p) => match p with
    | .lockMtx w | .find w _ | .spinLock w _ | .atomicOr w _ | .insert w _ => some w
    | _ => none
  | _ => none

/-- The item that a worker of either pool has dequeued and not yet freed. -/
def held : Thread → Option Work
  | .app k | .call k _ => match k with
    | .worker _ w => some w
    | _ => none
  | .worker _ p => p.item
  | .overcommit p => match p with
    | .unlock w | .fetch w | .free w _ _ => some w
    | _ => none
  | .manager _ _ => none

/-- The item whose callback a worker of either pool is about to invoke. -/
def due : Thread → Option Work
  | .worker _ p => p.due
  | .overcommit p => match p with
    | .unlock w | .fetch w | .free w _ _ | .call w _ _ => some w
    | _ => none
  | _ => none

end Thread

namespace Event
variable (P : Work → Bool)

def allocates : Event → Bool
  | .alloc _ w => P w
  | _ => false

def inserts : Event → Bool
  | .accept _ _ w | .post _ _ w => P w
  | _ => false

def dequeues : Event → Bool
  | .dequeue _ _ w => P w
  | _ => false

def invokes : Event → Bool
  | .invoke _ w _ _ => P w
  | _ => false

def frees : Event → Bool
  | .free _ w => P w
  | _ => false

/-- The events that no account of items sees. -/
def plain : Event → Bool
  | .readMask _ | .returned _ _ | .workerCreateFailed _ => true
  | _ => false

end Event

/-- One for an item of the class. -/
def weight (P : Work → Bool) (w : Option Work) : Nat := (w.any P).toNat

/-- What a step does to the items of a class, as the program points and the events tell. -/
structure LifeStep (P : Work → Bool) (p : Thread) (o : Out) : Prop where
  fresh : o.events.countP (Event.allocates P) + weight P p.fresh =
    o.events.countP (Event.inserts P) + weight P o.pc.fresh
  held : o.events.countP (Event.dequeues P) + weight P p.held =
    o.events.countP (Event.frees P) + weight P o.pc.held
  due : (∀ w, P w = true → w.func ≠ none) → o.events.countP (Event.dequeues P) + weight P p.due =
    o.events.countP (Event.invokes P) + weight P o.pc.due
  spawned : ∀ r ∈ o.spawned, r.fresh = none ∧ r.held = none ∧ r.due = none

variable {S : Settings} {sh : Shared} {t : Tid} {p : Thread} {ch : Choice} {o : Out}
  {c : PoolState} {q : QId} {wq : Workq} {P : Work → Bool}

namespace LifeStep

private theorem quiet (he : o.events.all Event.plain = true) (hf : o.pc.fresh = p.fresh)
    (hh : o.pc.held = p.held) (hd : o.pc.due = p.due)
    (hs : ∀ r ∈ o.spawned, r.fresh = none ∧ r.held = none ∧ r.due = none) : LifeStep P p o := by
  have none : ∀ f : Event → Bool, (∀ e, e.plain = true → f e = false) → o.events.countP f = 0 :=
    fun f hf => List.countP_eq_zero.mpr fun e h => by
      simp [hf e (List.all_eq_true.mp he e h)]
  have ha := none (Event.allocates P) fun e h => by cases e <;> first | rfl | cases h
  have hi := none (Event.inserts P) fun e h => by cases e <;> first | rfl | cases h
  have hq := none (Event.dequeues P) fun e h => by cases e <;> first | rfl | cases h
  have hv := none (Event.invokes P) fun e h => by cases e <;> first | rfl | cases h
  have hx := none (Event.frees P) fun e h => by cases e <;> first | rfl | cases h
  exact ⟨by rw [ha, hi, hf], by rw [hq, hx, hh], fun _ => by rw [hq, hv, hd], hs⟩

private theorem single {e : Event} (he : o.events = [e])
    (hf : (e.allocates P).toNat + weight P p.fresh = (e.inserts P).toNat + weight P o.pc.fresh)
    (hh : (e.dequeues P).toNat + weight P p.held = (e.frees P).toNat + weight P o.pc.held)
    (hd : (e.dequeues P).toNat + weight P p.due = (e.invokes P).toNat + weight P o.pc.due)
    (hs : o.spawned = []) : LifeStep P p o := by
  have one : ∀ f : Event → Bool, o.events.countP f = (f e).toNat := fun f => by
    rw [he, countP_singleton_toNat]
  exact ⟨by rw [one, one, hf], by rw [one, one, hh], fun _ => by rw [one, one, hd], by simp [hs]⟩

end LifeStep

private theorem Call.plain_fresh {k : Caller} {x : Call} (h : x.plain = true) :
    (Thread.call k x).fresh = none := by
  cases x <;> first | rfl | cases h

private theorem ManagerPc.between_fresh {v : ManagerVars} {x : ManagerPc} (h : x.between = true) :
    (Thread.manager v x).fresh = none := by
  cases x <;> first | rfl | (simp only [between, beq_iff_eq] at h; subst h; rfl)

@[simp] theorem scanReturn_item (k : ScanKind) (r : Option Work) : (scanReturn k r).item = r := by
  cases k <;> cases r <;> rfl

@[simp] theorem scanReturn_due (k : ScanKind) (r : Option Work) : (scanReturn k r).due = r := by
  cases k <;> cases r <;> rfl

theorem life_step (P : Work → Bool) (h : Step S sh t p ch o) : LifeStep P p o := by
  have fresh : ∀ r ∈ o.spawned, r.fresh = none ∧ r.held = none ∧ r.due = none :=
    h.fresh ⟨rfl, rfl, rfl⟩ ⟨rfl, rfl, rfl⟩ ⟨rfl, rfl, rfl⟩
  cases h with
  | app h => cases h <;> exact .quiet rfl rfl rfl rfl fresh
  | call h =>
    cases h with
    | quiet _ hc hc' =>
      exact .quiet rfl ((Call.plain_fresh hc').trans (Call.plain_fresh hc).symm) rfl rfl fresh
    | quietReturn _ hc => exact .quiet rfl (Call.plain_fresh hc).symm rfl rfl fresh
    | error hc => exact .quiet rfl (Call.plain_fresh hc).symm rfl rfl fresh
    | alloc => exact .single rfl (Nat.add_comm _ 0) rfl rfl rfl
    | insert | ocInsert => exact .single rfl (Nat.add_comm 0 _) rfl rfl rfl
    | atomicOr _ hx => subst hx; split <;> exact .quiet rfl rfl rfl rfl fresh
    | managerStart | ocCreate => exact .quiet rfl rfl rfl rfl fresh
    | _ => exact .quiet rfl rfl rfl rfl fresh
  | worker h =>
    cases h with
    | nothing =>
      exact .quiet rfl rfl (scanReturn_item _ _) (scanReturn_due _ _) fresh
    | unlock => exact .quiet rfl rfl (scanReturn_item _ _) (scanReturn_due _ _) fresh
    | remove | removeLast => exact .single rfl rfl (Nat.add_comm _ 0) (Nat.add_comm _ 0) rfl
    | clear _ hx => subst hx; split <;> exact .quiet rfl rfl rfl rfl fresh
    | waitExit hw =>
      refine ⟨rfl, rfl, fun real => ?_, fresh⟩
      have : P _ = false := Bool.eq_false_iff.mpr fun hP => real _ hP hw
      simp [Thread.due, WorkerPc.due, WorkerPc.item, weight, this]
    | exitFree | free => exact .single rfl rfl (Nat.add_comm 0 _) rfl rfl
    | invoke => exact .single rfl rfl rfl (Nat.add_comm 0 _) rfl
    | _ => exact .quiet rfl rfl rfl rfl fresh
  | overcommit h =>
    cases h with
    | dequeue | dequeueLast => exact .single rfl rfl (Nat.add_comm _ 0) (Nat.add_comm _ 0) rfl
    | free => exact .single rfl rfl (Nat.add_comm 0 _) rfl rfl
    | call => exact .single rfl rfl rfl (Nat.add_comm 0 _) rfl
    | _ => exact .quiet rfl rfl rfl rfl fresh
  | manager h =>
    cases h with
    | plain _ hp hp' =>
      exact .quiet rfl ((ManagerPc.between_fresh hp').trans
        (ManagerPc.between_fresh (ManagerPc.plain_between hp)).symm) rfl rfl fresh
    | created =>
      exact .quiet rfl (ManagerPc.between_fresh (startReturn_between _)) rfl rfl fresh
    | decCount =>
      exact .quiet rfl (ManagerPc.between_fresh (startReturn_between _)) rfl rfl fresh
    | unlockMtx =>
      exact .quiet rfl (ManagerPc.between_fresh (stopLoop_between _ _)) rfl rfl fresh
    | alloc => exact .single rfl (Nat.add_comm _ 0) rfl rfl rfl
    | insert => exact .single rfl (Nat.add_comm 0 _) rfl rfl rfl
    | atomicOr _ hx => subst hx; split <;> exact .quiet rfl rfl rfl rfl fresh
    | _ => exact .quiet rfl rfl rfl rfl fresh

/-- The accounts of a class of items over a whole run. -/
structure Accounts (P : Work → Bool) (tr : List Event) (c : PoolState) : Prop where
  allocated : tr.countP (Event.allocates P) =
    tr.countP (Event.inserts P) + c.total fun p => weight P p.fresh
  inserted : tr.countP (Event.inserts P) =
    c.shared.queued (fun _ w => (P w).toNat) + tr.countP (Event.dequeues P)
  dequeued : tr.countP (Event.dequeues P) =
    tr.countP (Event.frees P) + c.total fun p => weight P p.held
  invoked : (∀ w, P w = true → w.func ≠ none) → tr.countP (Event.dequeues P) =
    tr.countP (Event.invokes P) + c.total fun p => weight P p.due

variable {G : PoolState → Nat × Choice → Prop} {users managers : Nat} {tr : List Event}

private theorem spawned_zero {f : Thread → Option Work} (h : ∀ r ∈ o.spawned, f r = none) :
    (o.spawned.map fun r => weight P (f r)).sum = 0 := by
  refine sum_map_eq_zero fun r hr => ?_
  rw [h r hr]
  rfl

private theorem initial_weight {f : Thread → Option Work} (hu : f (.app .user) = none)
    (hm : f .managerMain = none) : (initial users managers).total (fun p => weight P (f p)) = 0 := by
  refine sum_map_eq_zero fun r hr => ?_
  obtain ⟨u, hu'⟩ := List.getElem?_of_mem hr
  obtain rfl | rfl := initial_threads hu'
  · rw [hu]; rfl
  · rw [hm]; rfl

theorem sum_inflow (es : List Event) :
    (es.map (Event.inflow (fun _ w => (P w).toNat) sh)).sum = es.countP (Event.inserts P) := by
  rw [← sum_map_toNat]
  congr 2
  funext e
  cases e <;> rfl

theorem sum_outflow (es : List Event) :
    (es.map (Event.outflow (fun _ w => (P w).toNat) sh)).sum = es.countP (Event.dequeues P) := by
  rw [← sum_map_toNat]
  congr 2
  funext e
  cases e <;> rfl

private theorem inserted_account (P : Work → Bool)
    (h : Machine.Run (program S) G (initial users managers) tr c) :
    tr.countP (Event.inserts P) =
      c.shared.queued (fun _ w => (P w).toNat) + tr.countP (Event.dequeues P) := by
  refine h.invariant (fun tr c => tr.countP (Event.inserts P) =
    c.shared.queued (fun _ w => (P w).toNat) + tr.countP (Event.dequeues P)) rfl ?_
  intro tr c l p o hrun ih _ mv
  have hflow := (run_list_step hrun mv).queued fun _ w => (P w).toNat
  rw [sum_inflow, sum_outflow] at hflow
  rw [List.countP_append, List.countP_append]
  change _ = o.shared.queued _ + _
  omega

/-- In every run the accounts of every class of items agree. -/
theorem accounts (P : Work → Bool) (h : Machine.Run (program S) G (initial users managers) tr c) :
    Accounts P tr c where
  allocated := by
    refine h.balance (fun tr _ => tr.countP (Event.allocates P))
      (fun tr _ => tr.countP (Event.inserts P)) (fun p => weight P p.fresh) ?_ ?_
    · rw [initial_weight rfl rfl]; rfl
    · intro tr c l p o _ _ mv _
      have st := life_step P (program_step mv.next).2
      have := st.fresh
      rw [spawned_zero fun r hr => (st.spawned r hr).1]
      simp only [List.countP_append]
      omega
  inserted := inserted_account P h
  dequeued := by
    refine h.balance (fun tr _ => tr.countP (Event.dequeues P))
      (fun tr _ => tr.countP (Event.frees P)) (fun p => weight P p.held) ?_ ?_
    · rw [initial_weight rfl rfl]; rfl
    · intro tr c l p o _ _ mv _
      have st := life_step P (program_step mv.next).2
      have := st.held
      rw [spawned_zero fun r hr => (st.spawned r hr).2.1]
      simp only [List.countP_append]
      omega
  invoked real := by
    refine h.balance (fun tr _ => tr.countP (Event.dequeues P))
      (fun tr _ => tr.countP (Event.invokes P)) (fun p => weight P p.due) ?_ ?_
    · rw [initial_weight rfl rfl]; rfl
    · intro tr c l p o _ _ mv _
      have st := life_step P (program_step mv.next).2
      have := st.due real
      rw [spawned_zero fun r hr => (st.spawned r hr).2.2]
      simp only [List.countP_append]
      omega

/-! The heap -/

/-- What a step does to the heap, with the event that tells. -/
inductive HeapStep (sh : Shared) (t : Tid) (p : Thread) (o : Out) : Prop where
  | keep : o.shared.heap = sh.heap → (∀ e ∈ o.events, ∀ P, e.allocates P = false) →
      (∀ e ∈ o.events, ∀ P, e.frees P = false) → HeapStep sh t p o
  | alloc {w} : w.addr = sh.heap.length → o.shared.heap = sh.heap ++ [true] →
      o.events = [.alloc t w] → HeapStep sh t p o
  | free {w} : p.held = some w → o.shared = sh.witemFree w → o.events = [.free t w] →
      HeapStep sh t p o

private theorem HeapStep.same (hh : o.shared.heap = sh.heap)
    (he : ∀ P, (o.events.any fun e => e.allocates P || e.frees P) = false) : HeapStep sh t p o := by
  have none : ∀ e ∈ o.events, ∀ P, (e.allocates P || e.frees P) = false := fun e h P =>
    Bool.eq_false_iff.mpr (List.any_eq_false.mp (he P) e h)
  exact .keep hh (fun e h P => (Bool.or_eq_false_iff.mp (none e h P)).1)
    (fun e h P => (Bool.or_eq_false_iff.mp (none e h P)).2)

theorem heap_step (h : Step S sh t p ch o) : HeapStep sh t p o := by
  cases h with
  | app h => cases h <;> exact .same rfl fun _ => rfl
  | call h =>
    cases h with
    | quiet hq | quietReturn hq => obtain ⟨_, _, _, _, rfl⟩ := hq; exact .same rfl fun _ => rfl
    | alloc => exact .alloc rfl rfl rfl
    | _ => exact .same rfl fun _ => rfl
  | worker h =>
    cases h with
    | exitFree | free => exact .free rfl rfl rfl
    | _ => exact .same rfl fun _ => rfl
  | overcommit h =>
    cases h with
    | free => exact .free rfl rfl rfl
    | _ => exact .same rfl fun _ => rfl
  | manager h =>
    cases h with
    | plain hq => obtain ⟨_, _, _, _, rfl⟩ := hq; exact .same rfl fun _ => rfl
    | alloc => exact .alloc rfl rfl rfl
    | _ => exact .same rfl fun _ => rfl

/-- The items at an address. -/
def atAddr (a : Nat) (w : Work) : Bool := w.addr == a

/-- Each address below the end of the heap was handed out once, and is live until it is freed. -/
structure Heap (tr : List Event) (c : PoolState) : Prop where
  allocated : ∀ a, tr.countP (Event.allocates (atAddr a)) = if a < c.shared.heap.length then 1 else 0
  live : ∀ a < c.shared.heap.length,
    c.shared.heap[a]? = some true ↔ tr.countP (Event.frees (atAddr a)) = 0

/-- The places of the items of a class. -/
theorem Accounts.places (h : Accounts P tr c) : tr.countP (Event.allocates P) =
    c.total (fun p => weight P p.fresh) + c.shared.queued (fun _ w => (P w).toNat) +
      c.total (fun p => weight P p.held) + tr.countP (Event.frees P) := by
  have := h.allocated
  have := h.inserted
  have := h.dequeued
  omega

/-- An item in a call's hands, in a queue or in a worker's hands is live. -/
theorem Heap.live_of_placed {w : Work} (hh : Heap tr c) (ha : Accounts (atAddr w.addr) tr c)
    (placed : 0 < c.total (fun p => weight (atAddr w.addr) p.fresh) +
      c.shared.queued (fun _ x => (atAddr w.addr x).toNat) +
      c.total (fun p => weight (atAddr w.addr) p.held)) : c.shared.live w = true := by
  have hp := ha.places
  rw [hh.allocated w.addr] at hp
  split at hp
  · rename_i hl
    have := (hh.live w.addr hl).mpr (by omega)
    simp [Shared.live, this]
  · omega

theorem weight_self (w : Work) : weight (atAddr w.addr) (some w) = 1 := by
  simp [weight, atAddr]

theorem Heap.live_of_held {w : Work} (hh : Heap tr c) (ha : Accounts (atAddr w.addr) tr c)
    (hp : c.threads[t]? = some p) (hw : p.held = some w ∨ p.fresh = some w) :
    c.shared.live w = true := by
  refine hh.live_of_placed ha ?_
  rcases hw with hw | hw
  · have := c.le_total (fun p => weight (atAddr w.addr) p.held) hp
    simp only [hw, weight_self] at this
    omega
  · have := c.le_total (fun p => weight (atAddr w.addr) p.fresh) hp
    simp only [hw, weight_self] at this
    omega

theorem Heap.live_of_queued {w : Work} (hh : Heap tr c) (ha : Accounts (atAddr w.addr) tr c)
    (hq : c.shared.queues[q]? = some wq) (hw : w ∈ wq.itemListhead) : c.shared.live w = true := by
  refine hh.live_of_placed ha ?_
  have h₁ := le_sum_map
    (fun wq : Workq => (wq.itemListhead.map fun x => (atAddr w.addr x).toNat).sum) hq
  have h₂ : 1 ≤ (wq.itemListhead.map fun x => (atAddr w.addr x).toNat).sum :=
    List.le_sum_of_mem (List.mem_map.mpr ⟨w, hw, by simp [atAddr]⟩)
  have h₃ : c.shared.queued (fun _ x => (atAddr w.addr x).toNat) =
    (c.shared.queues.map fun wq => (wq.itemListhead.map fun x => (atAddr w.addr x).toNat).sum).sum := rfl
  omega

theorem Heap.apply (hh : Heap tr c) (ha : ∀ P, Accounts P tr c) (hp : c.threads[t]? = some p)
    (hs : HeapStep c.shared t p o) : Heap (tr ++ o.events) (o.apply c t) := by
  cases hs with
  | keep hk hal hfr =>
    have h₁ : ∀ a, o.events.countP (Event.allocates (atAddr a)) = 0 := fun a =>
      List.countP_eq_zero.mpr fun e he => by simp [hal e he]
    have h₂ : ∀ a, o.events.countP (Event.frees (atAddr a)) = 0 := fun a =>
      List.countP_eq_zero.mpr fun e he => by simp [hfr e he]
    constructor
    · intro a
      rw [List.countP_append, h₁, Nat.add_zero, hh.allocated a]
      change _ = if a < o.shared.heap.length then 1 else 0
      rw [hk]
    · intro a hl
      change o.shared.heap[a]? = _ ↔ _
      change a < o.shared.heap.length at hl
      rw [hk] at hl ⊢
      rw [List.countP_append, h₂, Nat.add_zero]
      exact hh.live a hl
  | @alloc w hw hk he =>
    constructor
    · intro a
      rw [List.countP_append, he, hh.allocated a, List.countP_singleton]
      change _ = if a < o.shared.heap.length then 1 else 0
      rw [hk, List.length_append]
      simp only [Event.allocates, atAddr, hw, List.length_singleton, beq_iff_eq]
      split <;> split <;> split <;> omega
    · intro a hl
      change o.shared.heap[a]? = _ ↔ _
      change a < o.shared.heap.length at hl
      rw [List.countP_append, he, List.countP_singleton]
      rw [hk] at hl ⊢
      simp only [Event.frees, Bool.false_eq_true, if_false, Nat.add_zero]
      by_cases hla : a < c.shared.heap.length
      · rw [List.getElem?_append_left hla]
        exact hh.live a hla
      · -- nothing was ever freed at an address that was not handed out
        have hz := (ha (atAddr a)).places
        rw [hh.allocated a, if_neg hla] at hz
        have heq : a = c.shared.heap.length := by
          simp only [List.length_append, List.length_singleton] at hl
          omega
        subst heq
        simp only [List.getElem?_append_right (Nat.le_refl _), Nat.sub_self,
          List.getElem?_cons_zero, true_iff]
        omega
  | @free w hw hk he =>
    have hlive := hh.live_of_held (ha _) hp (.inl hw)
    have hheap : o.shared.heap = c.shared.heap.set w.addr false := by
      rw [hk, Shared.witemFree, if_pos hlive]
    constructor
    · intro a
      rw [List.countP_append, he, hh.allocated a]
      change _ = if a < o.shared.heap.length then 1 else 0
      rw [hheap, List.length_set]
      rfl
    · intro a hl
      change o.shared.heap[a]? = _ ↔ _
      change a < o.shared.heap.length at hl
      rw [hheap, List.length_set] at hl
      rw [List.countP_append, he, List.countP_singleton, hheap]
      by_cases haw : w.addr = a
      · subst haw
        simp [List.getElem?_set_self hl, Event.frees, atAddr]
      · rw [List.getElem?_set_ne haw, hh.live a hl]
        simp [Event.frees, atAddr, haw]

theorem heap (h : Machine.Run (program S) G (initial users managers) tr c) : Heap tr c := by
  refine h.invariant Heap ⟨fun a => by simp [initial, managerInit], fun a ha => ?_⟩ ?_
  · simp [initial, managerInit] at ha
  · intro tr c l p o hrun hh _ mv
    exact hh.apply (fun P => accounts P hrun) mv.here (heap_step (program_step mv.next).2)

/-- How a step can end the process. -/
theorem halted_step (h : Step S sh t p ch o) (hn : sh.halted = none) :
    o.shared.halted = none ∨ (∃ x, Fault sh p x ∧ o.shared.halted = some x) ∨
      ∃ w, p.held = some w ∧ o.shared = sh.witemFree w := by
  cases h with
  | app h => cases h <;> exact .inl hn
  | call h =>
    cases h with
    | fault hf => exact .inr (.inl ⟨_, hf, rfl⟩)
    | quiet hq | quietReturn hq => obtain ⟨_, _, _, _, rfl⟩ := hq; exact .inl hn
    | _ => exact .inl hn
  | worker h =>
    cases h with
    | fault hf => exact .inr (.inl ⟨_, hf, rfl⟩)
    | exitFree | free => exact .inr (.inr ⟨_, rfl, rfl⟩)
    | _ => exact .inl hn
  | overcommit h =>
    cases h with
    | fault hf => exact .inr (.inl ⟨_, hf, rfl⟩)
    | free => exact .inr (.inr ⟨_, rfl, rfl⟩)
    | _ => exact .inl hn
  | manager h =>
    cases h with
    | fault hf => exact .inr (.inl ⟨_, hf, rfl⟩)
    | plain hq => obtain ⟨_, _, _, _, rfl⟩ := hq; exact .inl hn
    | _ => exact .inl hn

/-- No item is used or freed after it was freed. -/
def Shared.memorySafe (sh : Shared) : Prop :=
  sh.halted ≠ some .useAfterFree ∧ sh.halted ≠ some .doubleFree

private theorem Fault.memorySafe {x : Halt} (hf : Fault c.shared p x) (hh : Heap tr c)
    (ha : ∀ P, Accounts P tr c) (hp : c.threads[t]? = some p) :
    x ≠ .useAfterFree ∧ x ≠ .doubleFree := by
  have dead : ∀ w, (p.held = some w ∨ p.fresh = some w) → c.shared.live w ≠ false := fun w hw => by
    rw [hh.live_of_held (ha _) hp hw]
    nofun
  cases hf with
  | handle hl => exact absurd hl (dead _ (.inr rfl))
  | first hq hi hl => simp [hh.live_of_queued (ha _) hq (hi ▸ List.mem_cons_self)] at hl
  | waitTest hl | invoke hl | fetch hl => exact absurd hl (dead _ (.inl rfl))
  | _ => exact ⟨nofun, nofun⟩

theorem memorySafe (h : Machine.Run (program S) G (initial users managers) tr c) :
    c.shared.memorySafe := by
  refine h.invariant (fun _ c => c.shared.memorySafe) ⟨nofun, nofun⟩ ?_
  intro tr c l p o hrun _ _ mv
  obtain ⟨hn, hs⟩ := program_step mv.next
  change o.shared.memorySafe
  rcases halted_step hs hn with hk | ⟨x, hf, hx⟩ | ⟨w, hw, hk⟩
  · exact ⟨by simp [hk], by simp [hk]⟩
  · have := hf.memorySafe (heap hrun) (fun P => accounts P hrun) mv.here
    exact ⟨by simp [hx, this.1], by simp [hx, this.2]⟩
  · have hlive := (heap hrun).live_of_held (accounts _ hrun) mv.here (.inl hw)
    rw [hk, Shared.witemFree, if_pos hlive]
    exact ⟨by simp [hn], by simp [hn]⟩

/-! What the callbacks are given -/

/-- A call inserts real items, `worker_stop` inserts markers, and an overcommit worker has copied
what it calls from its item. -/
def Thread.itemOk : Thread → Prop
  | .call _ c => match c with
    | .handle _ w | .add _ w _ | .ocAdd _ w _ => w.func ≠ none
    | _ => True
  | .overcommit p => match p with
    | .free w f a | .call w f a => f = w.func ∧ a = w.funcArg
    | _ => True
  | .manager _ (.stop _ _ p) => match p with
    | .lockMtx w | .find w _ | .spinLock w _ | .atomicOr w _ | .insert w _ => w.func = none
    | _ => True
  | _ => True

def Event.itemOk : Event → Prop
  | .accept _ _ w => w.func ≠ none
  | .post _ _ w => w.func = none
  | .invoke _ w f a => w.func = some f ∧ w.funcArg = a
  | _ => True

theorem ManagerPc.between_itemOk {v : ManagerVars} {x : ManagerPc} (h : x.between = true) :
    (Thread.manager v x).itemOk := by
  cases x <;> first | trivial | (simp only [between, beq_iff_eq] at h; subst h; trivial)

theorem Call.plain_itemOk {k : Caller} {x : Call} (h : x.plain = true) :
    (Thread.call k x).itemOk := by
  cases x <;> trivial

/-- A step that inserts nothing and calls nothing back. -/
private theorem itemOk_of_silent (he : (o.events.any fun e =>
    e.inserts (fun _ => true) || e.invokes fun _ => true) = false) : ∀ e ∈ o.events, e.itemOk := by
  intro e h
  have := List.any_eq_false.mp he e h
  cases e <;> trivial

theorem itemOk_step (h : Step S sh t p ch o) (ok : p.itemOk) :
    o.pc.itemOk ∧ (∀ e ∈ o.events, e.itemOk) ∧ ∀ r ∈ o.spawned, r.itemOk := by
  have fresh : ∀ r ∈ o.spawned, r.itemOk := h.fresh trivial trivial trivial
  cases h with
  | app h => cases h <;> exact ⟨trivial, itemOk_of_silent rfl, fresh⟩
  | call h =>
    cases h with
    | fault => exact ⟨ok, itemOk_of_silent rfl, fresh⟩
    | quiet _ _ hc' => exact ⟨Call.plain_itemOk hc', itemOk_of_silent rfl, fresh⟩
    | alloc => exact ⟨nofun, itemOk_of_silent rfl, fresh⟩
    | insert | ocInsert => exact ⟨ok, List.forall_mem_singleton.mpr ok, fresh⟩
    | managerStart => exact ⟨trivial, itemOk_of_silent rfl, fresh⟩
    | ocCreate => exact ⟨ok, itemOk_of_silent rfl, fresh⟩
    | _ => exact ⟨by first | exact ok | trivial, itemOk_of_silent rfl, fresh⟩
  | worker h =>
    cases h with
    | invoke hf => exact ⟨trivial, List.forall_mem_singleton.mpr ⟨hf, rfl⟩, fresh⟩
    | _ => exact ⟨trivial, itemOk_of_silent rfl, fresh⟩
  | overcommit h =>
    cases h with
    | fault => exact ⟨ok, itemOk_of_silent rfl, fresh⟩
    | fetch => exact ⟨⟨rfl, rfl⟩, itemOk_of_silent rfl, fresh⟩
    | free => exact ⟨ok, itemOk_of_silent rfl, fresh⟩
    | call => exact ⟨trivial, List.forall_mem_singleton.mpr ⟨ok.1.symm, ok.2.symm⟩, fresh⟩
    | _ => exact ⟨trivial, itemOk_of_silent rfl, fresh⟩
  | manager h =>
    cases h with
    | plain _ _ hp' => exact ⟨ManagerPc.between_itemOk hp', itemOk_of_silent rfl, fresh⟩
    | created => exact ⟨ManagerPc.between_itemOk (startReturn_between _), itemOk_of_silent rfl, fresh⟩
    | decCount => exact ⟨ManagerPc.between_itemOk (startReturn_between _), itemOk_of_silent rfl, fresh⟩
    | unlockMtx => exact ⟨ManagerPc.between_itemOk (stopLoop_between _ _), itemOk_of_silent rfl, fresh⟩
    | alloc => exact ⟨rfl, itemOk_of_silent rfl, fresh⟩
    | insert => exact ⟨trivial, List.forall_mem_singleton.mpr ok, fresh⟩
    | atomicOr _ hx => subst hx; split <;> exact ⟨ok, itemOk_of_silent rfl, fresh⟩
    | _ => exact ⟨ok, itemOk_of_silent rfl, fresh⟩

theorem itemOk (h : Machine.Run (program S) G (initial users managers) tr c) :
    (∀ (t : Tid) (p : Thread), c.threads[t]? = some p → p.itemOk) ∧ ∀ e ∈ tr, e.itemOk := by
  refine h.invariant (fun tr c =>
    (∀ (t : Tid) (p : Thread), c.threads[t]? = some p → p.itemOk) ∧ ∀ e ∈ tr, e.itemOk)
    ⟨fun t p hp => ?_, by simp⟩ ?_
  · obtain rfl | rfl := initial_threads hp <;> trivial
  · rintro tr c l p o _ ⟨ht, he⟩ _ mv
    obtain ⟨hpc, hev, hsp⟩ := itemOk_step (program_step mv.next).2 (ht _ _ mv.here)
    refine ⟨Outcome.forall_apply ht mv.here (fun _ => hpc) (fun _ _ _ _ h => h) fun _ => hsp, ?_⟩
    intro e h
    rcases List.mem_append.mp h with h | h
    · exact he e h
    · exact hev e h

/-- The item itself. -/
def Work.is (w x : Work) : Bool := x == w

def Event.accepts (P : Work → Bool) : Event → Bool
  | .accept _ _ w => P w
  | _ => false

/-- The life of an allocated item in a run. -/
structure ExactlyOnce (tr : List Event) (c : PoolState) (w : Work) : Prop where
  /-- It has its address for itself. -/
  unique : ∀ t x, Event.alloc t x ∈ tr → x.addr = w.addr → x = w
  /-- It is in one place: held by the call that allocated it, at one position of one queue, held by
  one worker, or freed. -/
  place : (c.number fun p => p.fresh.any w.is) + c.shared.queued (fun _ x => (w.is x).toNat) +
    (c.number fun p => p.held.any w.is) + tr.countP (Event.frees w.is) = 1
  /-- It was dequeued at most once. -/
  dequeued : tr.countP (Event.dequeues w.is) ≤ 1
  /-- Once dequeued, it is with its worker until it is freed, once. -/
  freed : tr.countP (Event.dequeues w.is) =
    tr.countP (Event.frees w.is) + c.number fun p => p.held.any w.is
  /-- An accepted item is in its queue or was dequeued; nothing is lost. -/
  accepted : w.func ≠ none → tr.countP (Event.accepts w.is) =
    c.shared.queued (fun _ x => (w.is x).toNat) + tr.countP (Event.dequeues w.is)
  /-- Its callback is invoked once for each dequeue. -/
  invoked : (∃ t q, Event.accept t q w ∈ tr) → tr.countP (Event.dequeues w.is) =
    tr.countP (Event.invokes w.is) + c.number fun p => p.due.any w.is
  /-- The callback is the item's own, and so is its argument. -/
  argument : ∀ t f a, Event.invoke t w f a ∈ tr → w.func = some f ∧ w.funcArg = a
  /-- Its memory is there until it is freed. -/
  live : c.shared.live w = true ↔ tr.countP (Event.frees w.is) = 0

private theorem eq_of_countP_le_one {α : Type} {P : α → Bool} {l : List α} {a b : α}
    (h : l.countP P ≤ 1) (ha : a ∈ l) (hb : b ∈ l) (hPa : P a = true) (hPb : P b = true) : a = b := by
  rw [List.countP_eq_length_filter] at h
  have ma : a ∈ l.filter P := List.mem_filter.mpr ⟨ha, hPa⟩
  have mb : b ∈ l.filter P := List.mem_filter.mpr ⟨hb, hPb⟩
  match hl : l.filter P with
  | [] => simp [hl] at ma
  | [y] =>
    rw [hl] at ma mb
    rw [List.mem_singleton.mp ma, List.mem_singleton.mp mb]
  | _ :: _ :: _ => simp [hl] at h

private theorem Heap.allocated_le (hh : Heap tr c) (a : Nat) :
    tr.countP (Event.allocates (atAddr a)) ≤ 1 := by
  rw [hh.allocated]
  split <;> omega

/-- Two allocations at one address are one. -/
private theorem Heap.unique (hh : Heap tr c) {t u : Tid} {w x : Work} (hw : Event.alloc t w ∈ tr)
    (hx : Event.alloc u x ∈ tr) (ha : x.addr = w.addr) : x = w := by
  have := eq_of_countP_le_one (hh.allocated_le w.addr) hx hw (by simp [Event.allocates, atAddr, ha])
    (by simp [Event.allocates, atAddr])
  cases this
  rfl

private theorem Heap.allocated_one (hh : Heap tr c) {t : Tid} {w : Work}
    (hw : Event.alloc t w ∈ tr) : tr.countP (Event.allocates w.is) = 1 := by
  have hle : tr.countP (Event.allocates w.is) ≤ tr.countP (Event.allocates (atAddr w.addr)) := by
    refine List.countP_mono_left fun e _ he => ?_
    cases e <;> simp_all [Event.allocates, Work.is, atAddr]
  have := hh.allocated_le w.addr
  have : 0 < tr.countP (Event.allocates w.is) :=
    List.countP_pos_iff.mpr ⟨_, hw, by simp [Event.allocates, Work.is]⟩
  omega

/-- An item that was freed was allocated. -/
private theorem Accounts.allocated_of_freed {t : Tid} {w : Work} (ha : Accounts w.is tr c)
    (hw : Event.free t w ∈ tr) : ∃ t, Event.alloc t w ∈ tr := by
  have hf : 0 < tr.countP (Event.frees w.is) :=
    List.countP_pos_iff.mpr ⟨_, hw, by simp [Event.frees, Work.is]⟩
  have := ha.places
  have ha : 0 < tr.countP (Event.allocates w.is) := by omega
  obtain ⟨e, he, hx⟩ := List.countP_pos_iff.mp ha
  cases e <;> simp [Event.allocates, Work.is] at hx
  subst hx
  exact ⟨_, he⟩

private theorem live_iff (hh : Heap tr c) (ha : ∀ P, Accounts P tr c) {t : Tid} {w : Work}
    (hw : Event.alloc t w ∈ tr) :
    c.shared.live w = true ↔ tr.countP (Event.frees w.is) = 0 := by
  have hl : w.addr < c.shared.heap.length := by
    have hpos : 0 < tr.countP (Event.allocates (atAddr w.addr)) :=
      List.countP_pos_iff.mpr ⟨_, hw, by simp [Event.allocates, atAddr]⟩
    rw [hh.allocated] at hpos
    split at hpos <;> first | assumption | omega
  have hsame : tr.countP (Event.frees (atAddr w.addr)) = 0 ↔ tr.countP (Event.frees w.is) = 0 := by
    simp only [List.countP_eq_zero]
    refine forall_congr' fun e => forall_congr' fun he => not_congr ?_
    cases e with
    | free u x =>
      obtain ⟨v, hx⟩ := (ha x.is).allocated_of_freed he
      simp only [Event.frees, atAddr, Work.is, beq_iff_eq]
      exact ⟨fun h => hh.unique hw hx h, fun h => by rw [h]⟩
    | _ => exact Iff.rfl
  rw [← hsame, ← hh.live w.addr hl]
  simp [Shared.live]

private theorem accepts_eq_inserts (ok : ∀ e ∈ tr, e.itemOk) (real : ∀ w, P w = true → w.func ≠ none) :
    tr.countP (Event.accepts P) = tr.countP (Event.inserts P) := by
  refine List.countP_congr fun e he => ?_
  cases e with
  | post t q w =>
    have hn : w.func = none := ok _ he
    have : P w = false := Bool.eq_false_iff.mpr fun h => real w h hn
    simp [Event.accepts, Event.inserts, this]
  | _ => exact Iff.rfl

private theorem Work.is_real {w : Work} (h : w.func ≠ none) : ∀ x, w.is x = true → x.func ≠ none := by
  intro x hx
  obtain rfl : x = w := by simpa [Work.is] using hx
  exact h

theorem exactlyOnce (h : Machine.Run (program S) G (initial users managers) tr c) {t : Tid}
    {w : Work} (hw : Event.alloc t w ∈ tr) : ExactlyOnce tr c w := by
  have hh := heap h
  have ha := accounts w.is h
  obtain ⟨_, ok⟩ := itemOk h
  have hone := hh.allocated_one hw
  have number : ∀ f : Thread → Option Work,
      (c.number fun p => (f p).any w.is) = c.total fun p => weight w.is (f p) := fun f =>
    Config.number_eq_total _ _
  constructor
  · exact fun u x hx hxa => hh.unique hw hx hxa
  · rw [number, number, ← ha.places]
    exact hone
  · have := ha.places
    have := ha.dequeued
    omega
  · rw [number]
    exact ha.dequeued
  · intro real
    rw [accepts_eq_inserts ok (Work.is_real real)]
    exact ha.inserted
  · rintro ⟨u, q, hacc⟩
    rw [number]
    exact ha.invoked (Work.is_real (ok _ hacc))
  · exact fun u f a hinv => ok _ hinv
  · exact live_iff hh (fun P => accounts P h) hw

/-- In every run, every item obtained from `witem_alloc` lives exactly once, no accepted item is
lost, and no item is used after it was freed. -/
theorem items_live_exactly_once (S : Settings) (users managers : Nat) (tr : List Event)
    (c : PoolState) (h : Machine.Free (program S) (initial users managers) tr c) :
    (∀ t w, Event.alloc t w ∈ tr → ExactlyOnce tr c w) ∧
    tr.countP (Event.accepts fun _ => true) =
      c.shared.queued (fun _ w => w.func.isSome.toNat) +
        tr.countP (Event.dequeues fun w => w.func.isSome) ∧
    c.shared.memorySafe := by
  refine ⟨fun t w hw => exactlyOnce h hw, ?_, memorySafe h⟩
  obtain ⟨_, ok⟩ := itemOk h
  have hreal : tr.countP (Event.accepts fun _ => true) =
      tr.countP (Event.accepts fun w => w.func.isSome) := by
    refine List.countP_congr fun e he => ?_
    cases e with
    | accept t q w => simpa [Event.accepts, Event.itemOk, Option.isSome_iff_ne_none] using ok _ he
    | _ => exact Iff.rfl
  rw [hreal, accepts_eq_inserts ok fun w hw => Option.isSome_iff_ne_none.mp hw]
  exact (accounts (fun w => w.func.isSome) h).inserted

/-- A worker runs the callback of the first item. -/
theorem item_lives_exactly_once : ∃ tr c,
    Machine.Free (program ⟨2, 2, 2, 0, false⟩) (initial 1 0) tr c ∧
      Event.alloc 0 ⟨0, some 7, 70, 0, 0⟩ ∈ tr ∧ Event.invoke 2 ⟨0, some 7, 70, 0, 0⟩ 7 70 ∈ tr ∧
      ExactlyOnce tr c ⟨0, some 7, 70, 0, 0⟩ := by
  obtain ⟨tr, c, hrun, hP⟩ := Machine.exists_run (M := program ⟨2, 2, 2, 0, false⟩)
    (g := fun _ _ => true) (c := initial 1 0)
    (createFirst 0 3 ++ [(1, .value 100), (1, .value 0)] ++ startWorker 1 ++
      [(0, .request (.additem 0 (some 7) 70))] ++ steps 0 8 ++ steps 2 10)
    (fun r => decide (Event.alloc 0 ⟨0, some 7, 70, 0, 0⟩ ∈ r.2 ∧
      Event.invoke 2 ⟨0, some 7, 70, 0, 0⟩ 7 70 ∈ r.2)) (by decide +kernel)
  obtain ⟨ha, hi⟩ := of_decide_eq_true hP
  exact ⟨tr, c, hrun.free, ha, hi, (items_live_exactly_once _ _ _ tr c hrun.free).1 _ _ ha⟩

end PthreadWorkqueue.Posix
