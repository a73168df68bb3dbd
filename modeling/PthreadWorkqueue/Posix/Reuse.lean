import PthreadWorkqueue.Posix.Lifecycle
import PthreadWorkqueue.Posix.Transport

/-! The pool over an allocator that gives out the address of an item again once the item is freed, at
its next `witem_alloc` or later. An address that is read through an old pointer would look live. -/
namespace PthreadWorkqueue.Posix
open Concurrency

/-- There is an item at the address. -/
def Shared.liveAt (sh : Shared) (x : Nat) : Bool := sh.heap[x]? == some true

/-- `witem_alloc` with the address that the allocator picks. -/
def Shared.witemAllocAt (sh : Shared) (x : Nat) (func : Option Nat) (arg : Nat) : Shared × Work :=
  ({ sh with heap := (sh.heap ++ List.replicate (x + 1 - sh.heap.length) false).set x true },
    ⟨x, func, arg, 0, 0⟩)

theorem liveAt_iff {sh : Shared} {x : Nat} : sh.liveAt x = true ↔ sh.heap[x]? = some true :=
  beq_iff_eq

theorem liveAt_freed {l : List Bool} {x y : Nat} :
    (l.set y false)[x]? = some true ↔ x ≠ y ∧ l[x]? = some true := by
  by_cases h : y = x
  · rw [List.getElem?_set, if_pos h]
    refine iff_of_false ?_ fun hx => hx.1 h.symm
    split <;> simp
  · rw [List.getElem?_set_ne h]
    exact ⟨fun hx => ⟨Ne.symm h, hx⟩, fun hx => hx.2⟩

theorem liveAt_append {l : List Bool} {x : Nat} :
    (l ++ [true])[x]? = some true ↔ x = l.length ∨ l[x]? = some true := by
  rcases Nat.lt_trichotomy x l.length with h | h | h
  · rw [List.getElem?_append_left h]
    exact ⟨.inr, fun hx => hx.resolve_left h.ne⟩
  · simp [h]
  · rw [List.getElem?_append_right h.le, List.getElem?_eq_none_iff.mpr (by simp; omega),
      List.getElem?_eq_none_iff.mpr h.le]
    exact ⟨.inr, fun hx => hx.resolve_left h.ne'⟩

theorem liveAt_allocated {l : List Bool} {x y : Nat} :
    ((l ++ List.replicate (y + 1 - l.length) false).set y true)[x]? = some true ↔
      x = y ∨ l[x]? = some true := by
  have hlen : y < (l ++ List.replicate (y + 1 - l.length) false).length := by
    rw [List.length_append, List.length_replicate]
    omega
  by_cases h : y = x
  · subst h
    rw [List.getElem?_set_self hlen]
    exact iff_of_true rfl (.inl rfl)
  · rw [List.getElem?_set_ne h]
    by_cases hx : x < l.length
    · rw [List.getElem?_append_left hx]
      exact ⟨.inr, fun hx => hx.resolve_left (Ne.symm h)⟩
    · rw [List.getElem?_append_right (Nat.le_of_not_lt hx), List.getElem?_replicate,
        List.getElem?_eq_none_iff.mpr (Nat.le_of_not_lt hx)]
      refine iff_of_false ?_ fun hx => by cases hx.resolve_left (Ne.symm h)
      split <;> simp

/-- A call of `witem_alloc`: its arguments, and what the thread does with the item. -/
def Thread.allocs : Thread → Option (Option Nat × Nat × (Work → Thread))
  | .call k (.alloc q f a) => some (some f, a, fun w => .call k (.handle q w))
  | .manager v (.stop i m .alloc) => some (none, 0, fun w => .manager v (.stop i m (.lockMtx w)))
  | _ => none

/-- The program: the allocator may pick any address at which there is no item. -/
def reusing (S : Settings) : Machine Shared Thread Choice Event := fun sh t p ch =>
  match p.allocs with
  | some (f, a, next) => match ch with
    | .value x =>
      if sh.halted = none ∧ sh.liveAt x = false then
        let (sh', w) := sh.witemAllocAt x f a
        emit sh' (next w) (.alloc t w)
      else none
    | _ => none
  | none => program S sh t p ch

/-- The item that a point frees. -/
def Thread.frees : Thread → Option Work
  | .worker _ (.exitFree w) | .worker _ (.free w) | .overcommit (.free w _ _) => some w
  | _ => none

/-- Every item has the address that it was given; the heap is another one. -/
def naming (addr : Nat → Nat) (heap : List Bool) : Transport :=
  ⟨addr, fun _ l => l.map (Work.rename addr), fun _ => heap⟩

variable {S : Settings} {sh : Shared} {t : Tid} {p : Thread} {ch : Choice} {addr : Nat → Nat}
  {H : List Bool} {q : QId} {wq : Workq} {w : Work}

/-! Steps under other addresses -/

theorem insert_transport (wq : Workq) :
    (sh.setQueue q { wq with itemListhead := wq.itemListhead ++ [w] }).transport (naming addr H) =
      (sh.transport (naming addr H)).setQueue q { wq.transport (naming addr H) q with
        itemListhead := (wq.transport (naming addr H) q).itemListhead ++ [w.rename addr] } := by
  rw [← setQueue_transport]
  unfold Workq.transport naming
  simp only [List.map_append, List.map_cons, List.map_nil]

theorem tail_transport (wq : Workq) :
    (sh.setQueue q { wq with itemListhead := wq.itemListhead.tail }).transport (naming addr H) =
      (sh.transport (naming addr H)).setQueue q { wq.transport (naming addr H) q with
        itemListhead := (wq.transport (naming addr H) q).itemListhead.tail } := by
  rw [← setQueue_transport]
  unfold Workq.transport naming
  simp only [List.map_tail]

theorem tail_eq_nil (wq : Workq) :
    (wq.transport (naming addr H) q).itemListhead.tail = [] ↔ wq.itemListhead.tail = [] := by
  unfold Workq.transport naming
  rw [← List.map_tail, List.map_eq_nil_iff]

/-- The items that a step can look at are live under their addresses. -/
structure Sees (addr : Nat → Nat) (H : List Bool) (sh : Shared) (p : Thread) : Prop where
  derefs : ∀ w, p.derefs = some w →
    (sh.transport (naming addr H)).live (w.rename addr) = sh.live w
  queued : ∀ (q : QId) (wq : Workq) (w : Work), sh.queues[q]? = some wq → w ∈ wq.itemListhead →
    (sh.transport (naming addr H)).live (w.rename addr) = sh.live w

private theorem call_naming {k : Caller} {x : Call} (h : (Thread.call k x).onList = true) :
    callNext (sh.transport (naming addr H)) t (k.rename addr) (x.rename addr) ch =
      (callNext sh t k x ch).map (Out.transport (naming addr H)) := by
  cases x with
  | add q w x =>
    refine withQueue_transport rfl fun wq _ => ?_
    cases x with
    | testEmpty =>
      cases ch <;> try rfl
      exact ite_transport List.map_eq_nil_iff rfl rfl
    | insert =>
      cases ch <;> try rfl
      exact some_transport (insert_transport wq) rfl rfl rfl
    | _ => cases h
  | ocAdd q w x =>
    refine withQueue_transport rfl fun wq _ => ?_
    cases x with
    | insert =>
      cases ch <;> try rfl
      exact some_transport (insert_transport wq) rfl rfl rfl
    | _ => cases h
  | _ => cases h

private theorem scan_naming {v : WorkerVars} {k : ScanKind} {x : ScanPc}
    (hs : Sees addr H sh (.worker v (.scan k x))) (h : (Thread.worker v (.scan k x)).onList = true) :
    workerNext S (sh.transport (naming addr H)) t v (.scan k (x.rename addr)) ch =
      (workerNext S sh t v (.scan k x) ch).map (Out.transport (naming addr H)) := by
  cases ch <;> try rfl
  cases x with
  | first q =>
    refine withQueue_transport rfl fun wq hq => ?_
    have hlive := hs.queued q wq
    dsimp only [Workq.transport, naming]
    cases hl : wq.itemListhead with
    | nil => rfl
    | cons w l =>
      refine ite_transport Iff.rfl (ite_transport ?_ ?_ rfl) rfl
      · rw [← hlive w hq (hl ▸ List.mem_cons_self)]
        rfl
      · refine some_transport rfl (congrArg (fun x => Thread.worker v (.scan k x)) ?_) rfl rfl
        exact apply_ite (ScanPc.rename addr) ..
  | remove q w =>
    refine withQueue_transport rfl fun wq _ => some_transport (tail_transport wq) ?_ rfl rfl
    refine congrArg (fun x => Thread.worker { v with queuePriority := wq.queueprio } (.scan k x)) ?_
    exact (apply_ite (ScanPc.rename addr) ..).trans (if_congr (tail_eq_nil wq).symm rfl rfl)
  | _ => cases h

private theorem overcommit_naming :
    overcommitNext (sh.transport (naming addr H)) t .scan ch =
      (overcommitNext sh t .scan ch).map (Out.transport (naming addr H)) := by
  cases ch <;> try rfl
  refine ite_transport Iff.rfl rfl ?_
  have hsame : (sh.transport (naming addr H)).ocwq (ffs (sh.transport (naming addr H)).ocwqMask - 1) =
      sh.ocwq (ffs sh.ocwqMask - 1) := rfl
  rw [hsame]
  cases sh.ocwq (ffs sh.ocwqMask - 1) with
  | none => rfl
  | some q =>
    refine withQueue_transport rfl fun wq _ => ?_
    dsimp only [Workq.transport, naming]
    cases hl : wq.itemListhead with
    | nil => rfl
    | cons w l =>
      refine some_transport ?_ rfl rfl rfl
      have hset := @setQueue_transport sh (naming addr H) q { wq with itemListhead := l }
      cases l with
      | nil =>
        exact congrArg (fun s : Shared => { s with ocwqMask := sh.ocwqMask &&& ~~~ indexBit wq.wqlistIndex })
          hset.symm
      | cons w' l => exact hset.symm

private theorem stop_naming {v : ManagerVars} {i m : Nat} {x : StopPc}
    (h : (Thread.manager v (.stop i m x)).onList = true) :
    workerStop (sh.transport (naming addr H)) t v i m (x.rename addr) ch =
      (workerStop sh t v i m x ch).map (Out.transport (naming addr H)) := by
  cases x with
  | insert w q =>
    cases ch <;> try rfl
    exact withQueue_transport rfl fun wq _ => some_transport (insert_transport wq) rfl rfl rfl
  | _ => cases h

/-- A step that neither allocates nor frees. -/
theorem program_naming (hs : Sees addr H sh p) (hh : p.onHeap = false) :
    program S (sh.transport (naming addr H)) t (p.rename addr) ch =
      (program S sh t p ch).map (Out.transport (naming addr H)) := by
  cases hl : p.onList with
  | false => exact program_transport ⟨hl, hh, hs.derefs⟩ rfl
  | true =>
    refine ite_transport Iff.rfl ?_ rfl
    cases p with
    | app k => cases hl
    | call k x => exact call_naming hl
    | worker v x =>
      cases x with
      | scan k x => exact scan_naming hs hl
      | _ => cases hl
    | overcommit x =>
      cases x with
      | scan => exact overcommit_naming
      | _ => cases hl
    | manager v x =>
      cases x with
      | stop i m x => exact stop_naming hl
      | _ => cases hl

theorem witemFree_transport (hw : sh.live w = true)
    (hw' : (sh.transport (naming addr H)).live (w.rename addr) = true) :
    (sh.transport (naming addr H)).witemFree (w.rename addr) =
      (sh.witemFree w).transport (naming addr (H.set (addr w.addr) false)) := by
  unfold Shared.witemFree
  rw [if_pos hw, if_pos hw']
  rfl

/-- A step that frees an item. -/
theorem program_frees (hf : p.frees = some w) (hw : sh.live w = true)
    (hw' : (sh.transport (naming addr H)).live (w.rename addr) = true) :
    program S (sh.transport (naming addr H)) t (p.rename addr) ch =
      (program S sh t p ch).map (Out.transport (naming addr (H.set (addr w.addr) false))) := by
  refine ite_transport Iff.rfl ?_ rfl
  have hfree := (witemFree_transport hw hw').symm
  cases p with
  | worker v x =>
    cases x with
    | exitFree x | free x =>
      cases hf
      cases ch <;> try rfl
      exact some_transport hfree rfl rfl rfl
    | _ => cases hf
  | overcommit x =>
    cases x with
    | free x g y =>
      cases hf
      cases ch <;> try rfl
      exact some_transport hfree rfl rfl rfl
    | _ => cases hf
  | _ => cases hf

/-! The points of the heap -/

section Points
variable {f : Option Nat} {x : Nat} {next : Work → Thread} {o : Out}

theorem onHeap_eq_false (ha : p.allocs = none) (hf : p.frees = none) : p.onHeap = false := by
  unfold Thread.onHeap
  split <;> first | rfl | (cases ha; done) | cases hf

theorem allocs_rename_none (h : p.allocs = none) : (p.rename addr).allocs = none := by
  cases p with
  | call k x => cases x <;> first | rfl | cases h
  | manager v x =>
    cases x with
    | stop i m x => cases x <;> first | rfl | cases h
    | _ => rfl
  | _ => rfl

theorem allocs_rename (addr : Nat → Nat) (h : p.allocs = some (f, x, next)) : ∃ next',
    (p.rename addr).allocs = some (f, x, next') ∧ ∀ w, next' (w.rename addr) = (next w).rename addr := by
  cases p with
  | call k c =>
    cases c with
    | alloc q g y =>
      cases h
      exact ⟨_, rfl, fun w => rfl⟩
    | _ => cases h
  | manager v c =>
    cases c with
    | stop i m c =>
      cases c with
      | alloc =>
        cases h
        exact ⟨_, rfl, fun w => rfl⟩
      | _ => cases h
    | _ => cases h
  | _ => cases h

theorem program_allocs (h : p.allocs = some (f, x, next)) (hn : sh.halted = none) :
    program S sh t p .go =
      emit (sh.witemAlloc f x).1 (next (sh.witemAlloc f x).2) (.alloc t (sh.witemAlloc f x).2) := by
  refine (if_pos hn).trans ?_
  cases p with
  | call k c =>
    cases c with
    | alloc q g y =>
      cases h
      rfl
    | _ => cases h
  | manager v c =>
    cases c with
    | stop i m c =>
      cases c with
      | alloc =>
        cases h
        rfl
      | _ => cases h
    | _ => cases h
  | _ => cases h

theorem heap_plain (h : Step S sh t p ch o) (hh : p.onHeap = false) : o.shared.heap = sh.heap := by
  cases h with
  | app h => cases h <;> rfl
  | call h =>
    cases h with
    | quiet hq | quietReturn hq => obtain ⟨_, _, _, _, rfl⟩ := hq; rfl
    | alloc => cases hh
    | _ => rfl
  | worker h =>
    cases h with
    | exitFree | free => cases hh
    | _ => rfl
  | overcommit h =>
    cases h with
    | free => cases hh
    | _ => rfl
  | manager h =>
    cases h with
    | plain hq => obtain ⟨_, _, _, _, rfl⟩ := hq; rfl
    | alloc => cases hh
    | _ => rfl

theorem frees_step (h : program S sh t p ch = some o) (hf : p.frees = some w) :
    o.shared = sh.witemFree w := by
  obtain ⟨-, h⟩ := Option.ite_none_right_eq_some.mp h
  cases p with
  | worker v x =>
    cases x with
    | exitFree x | free x =>
      cases hf
      cases ch <;> cases h
      rfl
    | _ => cases hf
  | overcommit x =>
    cases x with
    | free x g y =>
      cases hf
      cases ch <;> cases h
      rfl
    | _ => cases hf
  | _ => cases hf

theorem length_heap (h : program S sh t p ch = some o) (ha : p.allocs = none) :
    o.shared.heap.length = sh.heap.length := by
  cases hf : p.frees with
  | none => rw [heap_plain (program_step h).2 (onHeap_eq_false ha hf)]
  | some w =>
    rw [frees_step h hf, Shared.witemFree]
    split
    · exact List.length_set
    · rfl

theorem held_of_frees (h : p.frees = some w) : p.held = some w := by
  unfold Thread.frees at h
  split at h <;> cases h <;> rfl

theorem placed_of_derefs (h : p.derefs = some w) : p.held = some w ∨ p.fresh = some w := by
  unfold Thread.derefs at h
  split at h <;> cases h
  · exact .inr rfl
  all_goals exact .inl rfl

end Points

end PthreadWorkqueue.Posix
