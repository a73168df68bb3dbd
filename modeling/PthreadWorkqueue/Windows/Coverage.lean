import PthreadWorkqueue.Concurrency.Counting
import PthreadWorkqueue.Windows.Steps

/-! No item is stranded: up to every place of the visiting order there are no more items than calls
that will still submit a callback and callbacks that will still come by. -/
namespace PthreadWorkqueue.Windows
open Concurrency
open Posix (Work Workq Attr Tid QId validAttr newWorkq workqNumPrioqueue)

namespace Shared
variable (sh : Shared)

def items (q : QId) : List Work := ((sh.queues[q]?).map (·.itemListhead)).getD []

/-- The queues in the order in which `wqlist_scan` visits them. -/
def visitOrder : List QId := (List.range workqNumPrioqueue).flatMap sh.wqlist

/-- The place of entry `j` of list `i` in the visiting order. -/
def position (i j : Nat) : Nat := ((List.range i).flatMap sh.wqlist).length + j

/-- The items in the first `n` queues of the visiting order. -/
def itemsBefore (n : Nat) : Nat := ((sh.visitOrder.take n).map fun q => (sh.items q).length).sum

end Shared

namespace Thread

/-- Between the insert of an item and the submission of its callback. -/
def unsubmitted : Thread → Bool
  | .call _ (.unlock _) | .call _ .submit => true
  | _ => false

/-- A callback that has not passed the first `n` queues of the visiting order. It has passed a queue
that it found empty, and it passes all of them with an item. -/
def reaches (sh : Shared) (n : Nat) : Thread → Bool
  | .worker x => match x with
    | .rdlock => true
    | .visit i j | .lock i j _ | .look i j _ => decide (sh.position i j < n)
    | .unlock i j _ none => decide (sh.position i j + 1 < n)
    | _ => false
  | _ => false

/-- Holds the lock of the lists for reading. -/
def scans : Thread → Bool
  | .worker x => match x with
    | .visit _ _ | .lock _ _ _ | .look _ _ _ | .unlock _ _ _ _ | .rdunlock _ => true
    | _ => false
  | _ => false

/-- Holds the lock of the lists for writing. -/
def writes : Thread → Bool
  | .call _ (.createInsert _) | .call _ (.wrunlock _) => true
  | _ => false

/-- About to enter the queue into its list. -/
def enters (q : QId) : Thread → Bool
  | .call _ (.wrlock r) | .call _ (.createInsert r) => r == q
  | _ => false

end Thread

variable {sh sh' : Shared} {t : Tid} {p : Thread} {o : Out} {c : PoolState} {q : QId} {wq wq' : Workq}

section Items

theorem items_setQueue (hq : sh.queues[q]? = some wq) :
    (sh.setQueue q wq').items = Function.update sh.items q wq'.itemListhead := by
  obtain ⟨hl, _⟩ := List.getElem?_eq_some_iff.mp hq
  funext r
  by_cases hr : r = q
  · subst hr
    simp [Shared.items, Shared.setQueue, hl]
  · simp [Shared.items, Shared.setQueue, Function.update_of_ne hr, List.getElem?_set_ne (Ne.symm hr)]

theorem items_eq (hq : sh.queues[q]? = some wq) : sh.items q = wq.itemListhead := by
  simp [Shared.items, hq]

theorem items_touch (hq : sh.queues[q]? = some wq) (hl : wq'.itemListhead = wq.itemListhead) :
    (sh.setQueue q wq').items = sh.items := by
  rw [items_setQueue hq, hl, ← items_eq hq, Function.update_eq_self]

theorem items_append (attr : Option Attr) :
    ({ sh with queues := sh.queues ++ [newWorkq attr] } : Shared).items = sh.items := by
  funext r
  simp only [Shared.items]
  by_cases hr : r < sh.queues.length
  · rw [List.getElem?_append_left hr]
  · rw [List.getElem?_append_right (Nat.le_of_not_lt hr),
      List.getElem?_eq_none (Nat.le_of_not_lt hr)]
    cases r - sh.queues.length with
    | zero => rfl
    | succ n => rfl

end Items

section Order

/-- A new entry at the head of one of the lists is an entry at one place of their concatenation. -/
theorem flatMap_update {α : Type} {l : List Nat} {f : Nat → List α} {i : Nat} (a : α) (hn : l.Nodup)
    (hi : i ∈ l) : ∃ A B, l.flatMap f = A ++ B ∧
      l.flatMap (Function.update f i (a :: f i)) = A ++ a :: B := by
  obtain ⟨s, r, rfl⟩ := List.append_of_mem hi
  obtain ⟨_, hr, hs⟩ := List.nodup_append.mp hn
  have hs : i ∉ s := fun h => hs i h i List.mem_cons_self rfl
  have hr : i ∉ r := (List.nodup_cons.mp hr).1
  have same : ∀ m : List Nat, i ∉ m → m.flatMap (Function.update f i (a :: f i)) = m.flatMap f := by
    intro m hm
    refine List.flatMap_congr fun x hx => Function.update_of_ne ?_ _ _
    rintro rfl
    exact hm hx
  refine ⟨s.flatMap f, f i ++ r.flatMap f, by simp, ?_⟩
  rw [List.flatMap_append, List.flatMap_cons, same s hs, same r hr, Function.update_self,
    List.cons_append]

theorem visitOrder_insert (sh : Shared) (q : QId) {i : Nat} (hi : i < workqNumPrioqueue) :
    ∃ A B, sh.visitOrder = A ++ B ∧ (sh.listInsertHead i q).visitOrder = A ++ q :: B :=
  flatMap_update q List.nodup_range (List.mem_range.mpr hi)

theorem visitOrder_get {i j : Nat} (hi : i < workqNumPrioqueue) (hj : (sh.wqlist i)[j]? = some q) :
    sh.visitOrder[sh.position i j]? = some q := by
  obtain ⟨m, hm⟩ := Nat.exists_eq_add_of_lt hi
  have hsplit : sh.visitOrder = (List.range i).flatMap sh.wqlist ++
      (sh.wqlist i ++ ((List.range m).map fun n => i + 1 + n).flatMap sh.wqlist) := by
    unfold Shared.visitOrder
    rw [show workqNumPrioqueue = i + 1 + m by omega, List.range_add, List.range_succ]
    simp
  obtain ⟨hl, _⟩ := List.getElem?_eq_some_iff.mp hj
  rw [hsplit, Shared.position, List.getElem?_append_right (Nat.le_add_right _ _),
    Nat.add_sub_cancel_left, List.getElem?_append_left hl, hj]

theorem position_next {i j : Nat} (hj : (sh.wqlist i)[j]? = none) (hle : j ≤ (sh.wqlist i).length) :
    sh.position (i + 1) 0 = sh.position i j := by
  have : j = (sh.wqlist i).length := Nat.le_antisymm hle (List.getElem?_eq_none_iff.mp hj)
  simp [Shared.position, List.range_succ, this]

theorem length_le_position {i j : Nat} (hi : workqNumPrioqueue ≤ i) :
    sh.visitOrder.length ≤ sh.position i j := by
  obtain ⟨m, rfl⟩ := Nat.exists_eq_add_of_le hi
  simp [Shared.visitOrder, Shared.position, List.range_add]
  omega

end Order

/-! The lists and who works on them -/

section Lists
variable {G : PoolState → Nat × Choice → Prop} {users : Nat} {tr : List Event}

theorem Step.spawned (h : Step sh t p o) : ∀ r ∈ o.spawned, r = .workerMain := by
  cases h <;> simp

theorem readers_step (h : Step sh t p o) (hle : p.scans.toNat ≤ sh.readers) :
    o.shared.readers + p.scans.toNat =
      sh.readers + o.pc.scans.toNat + (o.spawned.map fun r => r.scans.toNat).sum := by
  cases h with
  | nothing | rdunlock => exact Nat.sub_add_cancel hle
  | _ => rfl

theorem writer_step (h : Step sh t p o) (hle : p.writes.toNat ≤ sh.writer.toNat) :
    o.shared.writer.toNat + p.writes.toNat =
      sh.writer.toNat + o.pc.writes.toNat + (o.spawned.map fun r => r.writes.toNat).sum := by
  cases h with
  | wrlock _ hw => rw [hw]; rfl
  | wrunlock =>
    have : sh.writer.toNat = 1 := Nat.le_antisymm (Bool.toNat_le _) hle
    rw [this]
    rfl
  | _ => rfl

theorem initial_number {P : Thread → Bool} (hu : P (.app .user) = false) :
    (initial users).number P = 0 := by
  refine List.countP_eq_zero.mpr fun p hp => ?_
  rw [List.eq_of_mem_replicate hp, hu]
  exact Bool.false_ne_true

theorem readers_eq (h : Machine.Run program G (initial users) tr c) :
    c.shared.readers = c.number Thread.scans :=
  h.number_eq (·.readers) Thread.scans (initial_number rfl).symm
    fun _ _ _ _ _ _ _ mv hle => readers_step (program_step mv.next) hle

theorem writer_eq (h : Machine.Run program G (initial users) tr c) :
    c.shared.writer.toNat = c.number Thread.writes :=
  h.number_eq (·.writer.toNat) Thread.writes (initial_number rfl).symm
    fun _ _ _ _ _ _ _ mv hle => writer_step (program_step mv.next) hle

theorem exclusive (h : Machine.Run program G (initial users) tr c) :
    c.shared.writer = true → c.shared.readers = 0 := by
  refine h.invariant (fun _ c => c.shared.writer = true → c.shared.readers = 0)
    (by simp [initial]) ?_
  intro tr c l p o _ ih _ mv
  change o.shared.writer = true → o.shared.readers = 0
  have hs := program_step mv.next
  cases hs with
  | wrlock hr => exact fun _ => hr
  | wrunlock => exact nofun
  | rdlock hw =>
    intro h
    rw [hw] at h
    cases h
  | nothing | rdunlock =>
    intro h
    change c.shared.readers - 1 = 0
    rw [ih h]
  | _ => exact ih

/-- Nobody scans while a queue is entered. -/
theorem no_scan_while_writing (h : Machine.Run program G (initial users) tr c)
    (hp : c.threads[t]? = some p) (hw : p.writes = true) {u : Tid} {r : Thread}
    (hu : c.threads[u]? = some r) : r.scans = false := by
  have hone : p.writes.toNat ≤ c.number Thread.writes := by
    rw [Config.number_eq_total]
    exact c.le_total (fun r => r.writes.toNat) hp
  have hwriter : c.shared.writer = true := by
    rw [hw, ← writer_eq h] at hone
    cases hc : c.shared.writer with
    | true => rfl
    | false => rw [hc] at hone; cases hone
  have hzero := exclusive h hwriter
  rw [readers_eq h] at hzero
  exact Bool.eq_false_iff.mpr (List.countP_eq_zero.mp hzero r (List.mem_of_getElem? hu))

/-- What a thread knows about the queue that it works on. -/
def Thread.placed (sh : Shared) : Thread → Prop
  | .call _ x => match x with
    | .check q _ _ | .alloc q _ _ | .lock q _ | .insert q _ | .unlock q | .wrunlock q
    | .spinInit q => q ∈ sh.visitOrder
    | .createAlloc attr => validAttr attr = true
    | _ => True
  | .worker x => match x with
    | .visit i j => j ≤ (sh.wqlist i).length
    | .lock i j q | .look i j q | .unlock i j q _ =>
      i < workqNumPrioqueue ∧ (sh.wqlist i)[j]? = some q
    | _ => True
  | _ => True

/-- The queues in use are in the visiting order, and so are the places of the scans. -/
structure Placed (c : PoolState) : Prop where
  bound : ∀ wq ∈ c.shared.queues, wq.queueprio < workqNumPrioqueue
  handles : ∀ q ∈ c.shared.handles, q ∈ c.shared.visitOrder
  filled : ∀ q, c.shared.items q ≠ [] → q ∈ c.shared.visitOrder
  threads : ∀ (t : Tid) (p : Thread), c.threads[t]? = some p → p.placed c.shared

namespace Placed

theorem placed_congr (hw : sh'.wqlist = sh.wqlist) (p : Thread) : p.placed sh' ↔ p.placed sh := by
  have ho : sh'.visitOrder = sh.visitOrder := by simp only [Shared.visitOrder, hw]
  unfold Thread.placed
  rw [ho, hw]

/-- A step that leaves the lists alone. -/
private theorem move (h : Placed c) (hp : c.threads[t]? = some p) (hw : o.shared.wqlist = c.shared.wqlist)
    (hb : ∀ wq ∈ o.shared.queues, wq.queueprio < workqNumPrioqueue)
    (hh : ∀ q ∈ o.shared.handles, q ∈ c.shared.visitOrder)
    (hi : ∀ q, o.shared.items q ≠ [] → q ∈ c.shared.visitOrder) (hpc : o.pc.placed c.shared)
    (hsp : ∀ r ∈ o.spawned, r = .workerMain) : Placed (o.apply c t) := by
  have ho : o.shared.visitOrder = c.shared.visitOrder := by simp only [Shared.visitOrder, hw]
  refine ⟨hb, fun q hq => ?_, fun q hq => ?_, ?_⟩
  · change q ∈ o.shared.visitOrder
    rw [ho]
    exact hh q hq
  · change q ∈ o.shared.visitOrder
    rw [ho]
    exact hi q hq
  · refine Outcome.forall_apply h.threads hp (fun _ => ?_) (fun u r _ _ hr => ?_) fun u r hr => ?_
    · exact (placed_congr hw _).mpr hpc
    · exact (placed_congr hw _).mpr hr
    · rw [hsp r hr]
      trivial

private theorem bound_set (h : Placed c) (hq : c.shared.queues[q]? = some wq)
    (hprio : wq'.queueprio = wq.queueprio) :
    ∀ x ∈ c.shared.queues.set q wq', x.queueprio < workqNumPrioqueue := by
  intro x hx
  rcases List.mem_or_eq_of_mem_set hx with hx | rfl
  · exact h.bound x hx
  · rw [hprio]
    exact h.bound wq (List.mem_of_getElem? hq)

/-- A step that touches one queue, to which items may come only if it is in its list. -/
private theorem touch (h : Placed c) (hp : c.threads[t]? = some p) (hq : c.shared.queues[q]? = some wq)
    (hs : o.shared = c.shared.setQueue q wq') (hprio : wq'.queueprio = wq.queueprio)
    (hi : wq'.itemListhead ≠ [] → q ∈ c.shared.visitOrder) (hpc : o.pc.placed c.shared)
    (hsp : ∀ r ∈ o.spawned, r = .workerMain) : Placed (o.apply c t) := by
  refine h.move hp (by rw [hs]; rfl) (by rw [hs]; exact h.bound_set hq hprio) (by rw [hs]; exact h.handles)
    (fun r hr => ?_) hpc hsp
  rw [hs, items_setQueue hq] at hr
  by_cases hrq : r = q
  · subst hrq
    rw [Function.update_self] at hr
    exact hi hr
  · rw [Function.update_of_ne hrq] at hr
    exact h.filled r hr

theorem mem_visitOrder_insert {i : Nat} {r : QId} (hi : i < workqNumPrioqueue)
    (hr : r = q ∨ r ∈ sh.visitOrder) : r ∈ (sh.listInsertHead i q).visitOrder := by
  obtain ⟨A, B, h, h'⟩ := visitOrder_insert sh q hi
  rw [h] at hr
  rw [h']
  simp only [List.mem_append, List.mem_cons] at hr ⊢
  rcases hr with h | h | h
  · exact .inr (.inl h)
  · exact .inl h
  · exact .inr (.inr h)

/-- A queue is entered into its list, which nobody scans. -/
private theorem insert {k : Caller} (h : Placed c) (hp : c.threads[t]? = some (.call k (.createInsert q)))
    (hq : c.shared.queues[q]? = some wq)
    (alone : ∀ (u : Tid) (r : Thread), c.threads[u]? = some r → r.scans = false) :
    Placed ((⟨c.shared.listInsertHead wq.queueprio q, .call k (.wrunlock q), [], []⟩ : Out).apply c t) := by
  have hb := h.bound wq (List.mem_of_getElem? hq)
  refine ⟨h.bound, fun r hr => mem_visitOrder_insert hb (.inr (h.handles r hr)),
    fun r hr => mem_visitOrder_insert hb (.inr (h.filled r hr)), ?_⟩
  refine Outcome.forall_apply h.threads hp (fun _ => mem_visitOrder_insert hb (.inl rfl))
    (fun u r _ hu hr => ?_) nofun
  have hs := alone u r hu
  cases r with
  | app => trivial
  | call k' x =>
    cases x with
    | check | alloc | lock | insert | unlock | wrunlock | spinInit =>
      exact mem_visitOrder_insert hb (.inr hr)
    | createAlloc => exact hr
    | _ => trivial
  | worker x =>
    cases x with
    | visit | lock | look | unlock => cases hs
    | _ => trivial

theorem step (h : Placed c) (hp : c.threads[t]? = some p) (hs : Step c.shared t p o)
    (alone : p.writes = true → ∀ (u : Tid) (r : Thread), c.threads[u]? = some r → r.scans = false) :
    Placed (o.apply c t) := by
  have hpl := h.threads t p hp
  have hsp := hs.spawned
  cases hs with
  | additem hq => exact h.move hp rfl h.bound h.handles h.filled (h.handles _ hq) hsp
  | lock hq => exact h.touch hp hq rfl rfl (fun _ => hpl) hpl hsp
  | insert hq => exact h.touch hp hq rfl rfl (fun _ => hpl) hpl hsp
  | unlock hq => exact h.touch hp hq rfl rfl (fun _ => hpl) trivial hsp
  | createCheck hv => exact h.move hp rfl h.bound h.handles h.filled hv hsp
  | createAlloc =>
    refine h.move hp rfl (fun wq hwq => ?_) h.handles (fun q hq => h.filled q ?_) trivial hsp
    · rcases List.mem_append.mp hwq with hwq | hwq
      · exact h.bound wq hwq
      · rw [List.mem_singleton.mp hwq]
        exact Posix.newWorkq_bound hpl
    · rw [items_append] at hq
      exact hq
  | createInsert hq => exact h.insert hp hq (alone rfl)
  | @spinInit k q wq hq =>
    refine h.move hp rfl (h.bound_set hq rfl) (fun r hr => ?_) (fun r hr => h.filled r ?_) trivial hsp
    · rcases List.mem_append.mp hr with hr | hr
      · exact h.handles r hr
      · rw [List.mem_singleton.mp hr]
        exact hpl
    · have hsame : (c.shared.setQueue q { wq with mtx := none }).items = c.shared.items := items_touch hq rfl
      rwa [← hsame]
  | rdlock => exact h.move hp rfl h.bound h.handles h.filled (Nat.zero_le _) hsp
  | visit hi hj => exact h.move hp rfl h.bound h.handles h.filled ⟨hi, hj⟩ hsp
  | nextList => exact h.move hp rfl h.bound h.handles h.filled (Nat.zero_le _) hsp
  | spinLock hq | taken hq =>
    exact h.touch hp hq rfl rfl (fun hne => h.filled _ (by rwa [items_eq hq])) (by trivial) hsp
  | take hq hl =>
    exact h.touch hp hq rfl rfl (fun _ => h.filled _ (by rw [items_eq hq, hl]; exact List.cons_ne_nil _ _))
      hpl hsp
  | nextQueue hq =>
    refine h.touch hp hq rfl rfl (fun hne => h.filled _ (by rwa [items_eq hq])) ?_ hsp
    exact (List.getElem?_eq_some_iff.mp hpl.2).1
  | check | alloc | wrunlock | empty => exact h.move hp rfl h.bound h.handles h.filled hpl hsp
  | _ => exact h.move hp rfl h.bound h.handles h.filled trivial hsp

end Placed

theorem placed (h : Machine.Run program G (initial users) tr c) : Placed c := by
  refine h.invariant (fun _ c => Placed c) ⟨by simp [initial], by simp [initial],
    fun q hq => absurd rfl hq, fun t p hp => ?_⟩ ?_
  · rw [List.eq_of_mem_replicate (List.mem_of_getElem? hp)]
    trivial
  · intro tr c l p o hrun ih _ mv
    exact ih.step mv.here (program_step mv.next) fun hw _ _ hu => no_scan_while_writing hrun mv.here hw hu

/-- Every queue object is in its list, once, or its creator is about to enter it. -/
theorem enters_step (h : Step sh t p o) (hb : ∀ wq ∈ sh.queues, wq.queueprio < workqNumPrioqueue)
    (r : QId) : (decide (r < o.shared.queues.length)).toNat + sh.visitOrder.count r + (p.enters r).toNat =
      (decide (r < sh.queues.length)).toNat + o.shared.visitOrder.count r + (o.pc.enters r).toNat +
        (o.spawned.map fun x => (x.enters r).toNat).sum := by
  cases h with
  | createAlloc =>
    simp only [List.length_append, List.length_singleton, Thread.enters, List.map_nil, List.sum_nil]
    by_cases hr : r < sh.queues.length
    · have : (sh.queues.length == r) = false := beq_eq_false_iff_ne.mpr (Nat.ne_of_gt hr)
      simp [hr, Nat.lt_succ_of_lt hr, this, Shared.visitOrder]
    · by_cases he : sh.queues.length = r
      · subst he
        simp [Shared.visitOrder]
        omega
      · have : ¬ r < sh.queues.length + 1 :=
          Nat.not_lt.mpr (Nat.lt_of_le_of_ne (Nat.le_of_not_lt hr) he)
        simp [hr, this, he, Shared.visitOrder]
  | @createInsert k q wq hq =>
    obtain ⟨A, B, ho, ho'⟩ := visitOrder_insert sh q (hb wq (List.mem_of_getElem? hq))
    rw [ho, ho']
    simp only [List.count_append, List.count_cons, Thread.enters, List.map_nil, List.sum_nil]
    change (decide (r < sh.queues.length)).toNat + _ + _ = _
    cases q == r
    · simp
    · simp
      omega
  | lock | insert | unlock | spinLock | take | nextQueue | taken | spinInit =>
    simp [Shared.setQueue, Shared.visitOrder, Thread.enters]
  | _ => rfl

theorem entered (h : Machine.Run program G (initial users) tr c) (r : QId) :
    (decide (r < c.shared.queues.length)).toNat =
      c.shared.visitOrder.count r + c.number (Thread.enters r) := by
  rw [Config.number_eq_total]
  refine h.balance (fun _ sh => (decide (r < sh.queues.length)).toNat)
    (fun _ sh => sh.visitOrder.count r) (fun p => (p.enters r).toNat) ?_ ?_
  · rw [← Config.number_eq_total, initial_number rfl]
    rfl
  · intro tr c l p o hrun _ mv _
    exact enters_step (program_step mv.next) (placed hrun).bound r

end Lists

/-! The callbacks to come -/

/-- The callbacks that a thread stands for, among the first `n` queues. -/
def Thread.cover (sh : Shared) (n : Nat) (p : Thread) : Nat :=
  p.unsubmitted.toNat + (p.reaches sh n).toNat

/-- Up to every place of the visiting order there is a callback to come for every item. -/
def Covered (c : PoolState) : Prop :=
  ∀ n, c.shared.itemsBefore n ≤ c.total (Thread.cover c.shared n)

section Cover
variable {n : Nat}

theorem reaches_congr (hw : sh'.wqlist = sh.wqlist) : Thread.reaches sh' n = Thread.reaches sh n := by
  have hp : sh'.position = sh.position := by
    funext i j
    simp only [Shared.position, hw]
  funext p
  unfold Thread.reaches
  rw [hp]

theorem cover_congr (hw : sh'.wqlist = sh.wqlist) : Thread.cover sh' n = Thread.cover sh n := by
  funext p
  unfold Thread.cover
  rw [reaches_congr hw]

theorem reaches_mono {m : Nat} (h : m ≤ n) (hr : p.reaches sh m = true) : p.reaches sh n = true := by
  cases p with
  | worker x =>
    cases x with
    | rdlock => rfl
    | visit | lock | look =>
      simp only [Thread.reaches, decide_eq_true_eq] at hr ⊢
      omega
    | unlock i j q r =>
      cases r with
      | none =>
        simp only [Thread.reaches, decide_eq_true_eq] at hr ⊢
        omega
      | some w => cases hr
    | _ => cases hr
  | _ => cases hr

theorem cover_mono {m : Nat} (h : m ≤ n) (p : Thread) : p.cover sh m ≤ p.cover sh n := by
  unfold Thread.cover
  have := @reaches_mono sh p n m h
  cases hm : p.reaches sh m with
  | true => rw [this hm]
  | false => exact Nat.add_le_add_left (Nat.zero_le _) _

theorem itemsBefore_congr (hw : sh'.wqlist = sh.wqlist) (hi : sh'.items = sh.items) :
    sh'.itemsBefore n = sh.itemsBefore n := by
  simp only [Shared.itemsBefore, Shared.visitOrder, hw, hi]

/-- The items of one queue count as often as it occurs among the first `n`. -/
theorem itemsBefore_setQueue (n : Nat) (wq' : Workq) (hq : sh.queues[q]? = some wq) :
    (sh.setQueue q wq').itemsBefore n + (sh.visitOrder.take n).count q * wq.itemListhead.length =
      sh.itemsBefore n + (sh.visitOrder.take n).count q * wq'.itemListhead.length := by
  have h := sum_map_update (fun r => (sh.items r).length) q wq'.itemListhead.length
    (sh.visitOrder.take n)
  have hf : Function.update (fun r => (sh.items r).length) q wq'.itemListhead.length =
      fun r => ((sh.setQueue q wq').items r).length := by
    rw [items_setQueue hq]
    funext r
    by_cases hr : r = q
    · subst hr
      simp
    · simp [Function.update_of_ne hr]
  rw [hf, items_eq hq] at h
  exact h

theorem itemsBefore_succ {m : Nat} (hq : sh.visitOrder[m]? = some q) :
    sh.itemsBefore (m + 1) = sh.itemsBefore m + (sh.items q).length := by
  obtain ⟨hm, rfl⟩ := List.getElem?_eq_some_iff.mp hq
  simp only [Shared.itemsBefore]
  rw [List.take_succ_eq_append_getElem hm, List.map_append, List.sum_append, List.map_singleton,
    List.sum_singleton]

theorem itemsBefore_of_length_le {m : Nat} (hm : sh.visitOrder.length ≤ m) (hn : m ≤ n) :
    sh.itemsBefore n = sh.itemsBefore m := by
  simp only [Shared.itemsBefore]
  rw [List.take_of_length_le (Nat.le_trans hm hn), List.take_of_length_le hm]

/-- A new queue without items does not move items forward in the visiting order. -/
theorem itemsBefore_insert (n : Nat) {i : Nat} (hi : i < workqNumPrioqueue) (hq : sh.items q = []) :
    (sh.listInsertHead i q).itemsBefore n ≤ sh.itemsBefore n := by
  obtain ⟨A, B, ho, ho'⟩ := visitOrder_insert sh q hi
  have hitems : (sh.listInsertHead i q).items = sh.items := rfl
  simp only [Shared.itemsBefore, hitems]
  rw [ho, ho', List.take_append, List.take_append]
  cases hn : n - A.length with
  | zero => simp
  | succ m =>
    have hsub : (B.take m).Sublist (B.take (m + 1)) :=
      (List.take_prefix_take_left (Nat.le_succ m)).sublist
    have hle := (hsub.map fun r => (sh.items r).length).sum_le_sum (fun _ _ => Nat.zero_le _)
    simp only [List.take_succ_cons, List.map_append, List.map_cons, List.sum_append, List.sum_cons, hq,
      List.length_nil, Nat.zero_add]
    omega

end Cover

namespace Covered
variable {n : Nat}

/-- A step that leaves the lists alone, and that takes no callback away without its item. -/
private theorem move (h : Covered c) (hp : c.threads[t]? = some p)
    (hw : o.shared.wqlist = c.shared.wqlist)
    (hle : ∀ n, 0 < n → o.shared.itemsBefore n + p.cover c.shared n ≤ c.shared.itemsBefore n +
      o.pc.cover c.shared n + (o.spawned.map (Thread.cover c.shared n)).sum) :
    Covered (o.apply c t) := by
  intro n
  rcases Nat.eq_zero_or_pos n with rfl | hn
  · exact Nat.zero_le _
  have htotal := Outcome.total_apply (o := o) (Thread.cover c.shared n) hp
  change o.shared.itemsBefore n ≤ (o.apply c t).total (Thread.cover o.shared n)
  rw [cover_congr hw]
  have := h n
  have := hle n hn
  omega

/-- A callback that reaches only what comes after place `m` is one more than the items need, as
long as there are none between. -/
private theorem surplus (h : Covered c) (hp : c.threads[t]? = some p) {m : Nat} (hmn : m < n)
    (hm : p.cover c.shared m = 0) (hn : p.cover c.shared n = 1)
    (hsame : c.shared.itemsBefore n = c.shared.itemsBefore m) :
    c.shared.itemsBefore n + 1 ≤ c.total (Thread.cover c.shared n) := by
  have hle : ∀ r : Thread, r.cover c.shared m ≤ r.cover c.shared n := cover_mono (Nat.le_of_lt hmn)
  have hlt := Config.total_lt_total hp hle (by rw [hm, hn]; exact Nat.zero_lt_one)
  have := h m
  omega

/-- A callback goes on from place `m`, or gives up, where there is nothing. -/
private theorem pass (h : Covered c) (hp : c.threads[t]? = some p) (hsh : o.shared = c.shared)
    (hspawn : o.spawned = []) {m : Nat} (hcov : ∀ n, p.cover c.shared n = (decide (m < n)).toNat)
    (hsame : ∀ n, m < n → o.pc.cover c.shared n = 0 → c.shared.itemsBefore n = c.shared.itemsBefore m)
    (hpc : ∀ n, o.pc.cover c.shared n ≤ p.cover c.shared n) : Covered (o.apply c t) := by
  intro n
  have htotal := Outcome.total_apply (o := o) (Thread.cover c.shared n) hp
  change o.shared.itemsBefore n ≤ (o.apply c t).total (Thread.cover o.shared n)
  rw [hsh]
  rw [hspawn, List.map_nil, List.sum_nil] at htotal
  have hn := h n
  have hle := hpc n
  rw [hcov] at htotal hle
  by_cases hmn : m < n
  · rw [decide_eq_true hmn, Bool.toNat_true] at htotal hle
    by_cases hz : o.pc.cover c.shared n = 0
    · have := h.surplus hp hmn (by rw [hcov, decide_eq_false (Nat.lt_irrefl m)]; rfl)
        (by rw [hcov, decide_eq_true hmn]; rfl) (hsame n hmn hz)
      omega
    · omega
  · rw [decide_eq_false hmn, Bool.toNat_false] at htotal hle
    omega

/-- A step that touches one queue and not its items. -/
private theorem touch (h : Covered c) (hp : c.threads[t]? = some p) (hq : c.shared.queues[q]? = some wq)
    (hw : o.shared.wqlist = c.shared.wqlist) (hi : o.shared.items = (c.shared.setQueue q wq').items)
    (hl : wq'.itemListhead = wq.itemListhead)
    (hpc : ∀ n, 0 < n → p.cover c.shared n ≤ o.pc.cover c.shared n) : Covered (o.apply c t) := by
  refine h.move hp hw fun n hn => ?_
  rw [itemsBefore_congr hw (hi.trans (items_touch hq hl))]
  have := hpc n hn
  omega

/-- A step that only moves its thread. -/
private theorem keep (h : Covered c) (hp : c.threads[t]? = some p) (hw : o.shared.wqlist = c.shared.wqlist)
    (hi : o.shared.items = c.shared.items)
    (hpc : ∀ n, 0 < n → p.cover c.shared n ≤ o.pc.cover c.shared n) : Covered (o.apply c t) := by
  refine h.move hp hw fun n hn => ?_
  rw [itemsBefore_congr hw hi]
  have := hpc n hn
  omega

/-- A queue without items is entered into its list, which nobody scans. -/
private theorem insert {k : Caller} (h : Covered c) (hp : c.threads[t]? = some (.call k (.createInsert q)))
    (hb : wq.queueprio < workqNumPrioqueue) (empty : c.shared.items q = [])
    (alone : ∀ (u : Tid) (r : Thread), c.threads[u]? = some r → r.scans = false) :
    Covered ((⟨c.shared.listInsertHead wq.queueprio q, .call k (.wrunlock q), [], []⟩ : Out).apply c t) := by
  intro n
  have htotal := Outcome.total_apply
    (o := (⟨c.shared.listInsertHead wq.queueprio q, .call k (.wrunlock q), [], []⟩ : Out))
    (Thread.cover (c.shared.listInsertHead wq.queueprio q) n) hp
  have hsame : c.total (Thread.cover (c.shared.listInsertHead wq.queueprio q) n) =
      c.total (Thread.cover c.shared n) := by
    refine Config.total_congr fun r hr => ?_
    obtain ⟨u, hu⟩ := List.getElem?_of_mem hr
    have hs := alone u r hu
    cases r with
    | worker x =>
      cases x with
      | visit | lock | look | unlock => cases hs
      | _ => rfl
    | _ => rfl
  rw [hsame] at htotal
  have hle := Nat.le_trans (itemsBefore_insert n hb empty) (h n)
  change Config.total _ _ + 0 = _ + 0 + 0 at htotal
  change (c.shared.listInsertHead wq.queueprio q).itemsBefore n ≤ _
  exact Nat.le_trans hle (Nat.le_of_eq htotal.symm)

theorem step (h : Covered c) (hpl : Placed c) (hp : c.threads[t]? = some p) (hs : Step c.shared t p o)
    (once : ∀ q, c.shared.visitOrder.count q ≤ 1)
    (new : ∀ q, p.enters q = true → c.shared.visitOrder.count q = 0)
    (alone : p.writes = true → ∀ (u : Tid) (r : Thread), c.threads[u]? = some r → r.scans = false) :
    Covered (o.apply c t) := by
  have place := hpl.threads t p hp
  cases hs with
  | @insert k q w wq hq =>
    refine h.move hp rfl fun n _ => ?_
    have hset := itemsBefore_setQueue n { wq with itemListhead := wq.itemListhead ++ [w] } hq
    have hcount : (c.shared.visitOrder.take n).count q ≤ 1 :=
      Nat.le_trans ((List.take_sublist n _).count_le q) (once q)
    rw [List.length_append, List.length_singleton, Nat.mul_add, Nat.mul_one] at hset
    change (c.shared.setQueue q _).itemsBefore n + 0 ≤ _ + 1 + 0
    omega
  | submit => exact h.move hp rfl fun n _ => Nat.le_refl _
  | createAlloc => exact h.keep hp rfl (items_append _) fun _ _ => Nat.le_refl _
  | @createInsert k q wq hq =>
    refine h.insert hp (hpl.bound wq (List.mem_of_getElem? hq)) ?_ (alone rfl)
    by_contra hne
    have hpos := List.count_pos_iff.mpr (hpl.filled q hne)
    rw [new q (beq_self_eq_true q)] at hpos
    cases hpos
  | lock hq | unlock hq | spinLock hq | taken hq | spinInit hq | nextQueue hq =>
    exact h.touch hp hq rfl rfl rfl fun _ _ => Nat.le_refl _
  | rdlock =>
    refine h.keep hp rfl rfl fun n hn => ?_
    have : (Thread.worker (.visit 0 0)).reaches c.shared n = true := decide_eq_true hn
    simp only [Thread.cover, this]
    exact Nat.le_refl _
  | @nextList i j hj =>
    refine h.keep hp rfl rfl fun n _ => ?_
    simp only [Thread.cover, Thread.reaches, position_next hj place]
    exact Nat.le_refl _
  | @scanned i j hi =>
    refine h.pass hp rfl rfl (m := c.shared.position i j) (fun n => Nat.zero_add _) (fun n hn _ => ?_)
      fun _ => Nat.zero_le _
    exact itemsBefore_of_length_le (length_le_position hi) (Nat.le_of_lt hn)
  | @empty i j q wq hq hl =>
    refine h.pass hp rfl rfl (m := c.shared.position i j) (fun n => Nat.zero_add _) (fun n hn hz => ?_)
      fun n => ?_
    · -- it no longer reaches the queue that it has found empty
      have hnot : ¬ c.shared.position i j + 1 < n := by
        intro hlt
        simp [Thread.cover, Thread.unsubmitted, Thread.reaches, hlt] at hz
      obtain rfl : n = c.shared.position i j + 1 := by omega
      rw [itemsBefore_succ (visitOrder_get place.1 place.2), items_eq hq, hl]
      rfl
    · simp only [Thread.cover, Thread.unsubmitted, Thread.reaches]
      by_cases hlt : c.shared.position i j + 1 < n
      · simp [hlt, Nat.lt_of_succ_lt hlt]
      · simp [hlt]
  | @take i j q wq w rest hq hl =>
    refine h.move hp rfl fun n _ => ?_
    have hset := itemsBefore_setQueue n { wq with itemListhead := rest } hq
    rw [hl, List.length_cons, Nat.mul_add, Nat.mul_one] at hset
    dsimp only at hset
    have hmem : c.shared.position i j < n → 1 ≤ (c.shared.visitOrder.take n).count q := by
      intro hlt
      have hget := visitOrder_get place.1 place.2
      rw [← List.getElem?_take_of_lt hlt] at hget
      exact List.count_pos_iff.mpr (List.mem_of_getElem? hget)
    change (c.shared.setQueue q _).itemsBefore n + (0 + (decide _).toNat) ≤ _ + 0 + 0
    by_cases hlt : c.shared.position i j < n
    · have := hmem hlt
      rw [decide_eq_true hlt]
      simp only [Bool.toNat_true]
      omega
    · rw [decide_eq_false hlt]
      simp only [Bool.toNat_false]
      omega
  | _ => exact h.keep hp rfl rfl fun _ _ => Nat.le_refl _

end Covered

section Runs
variable {G : PoolState → Nat × Choice → Prop} {users : Nat} {tr : List Event}

theorem covered (h : Machine.Run program G (initial users) tr c) : Covered c := by
  refine h.invariant (fun _ c => Covered c) (fun n => ?_) ?_
  · have : (initial users).shared.itemsBefore n = 0 := by
      simp [initial, Shared.itemsBefore, Shared.visitOrder, Shared.items]
    omega
  · intro tr c l p o hrun ih _ mv
    refine ih.step (placed hrun) mv.here (program_step mv.next) (fun q => ?_) (fun q hq => ?_)
      fun hw _ _ hu => no_scan_while_writing hrun mv.here hw hu
    · have := entered hrun q
      have := Bool.toNat_le (decide (q < c.shared.queues.length))
      omega
    · have hone : (p.enters q).toNat ≤ c.number (Thread.enters q) := by
        rw [Config.number_eq_total]
        exact c.le_total (fun r => (r.enters q).toNat) mv.here
      rw [hq, Bool.toNat_true] at hone
      have := entered hrun q
      have := Bool.toNat_le (decide (q < c.shared.queues.length))
      omega

end Runs

/-! The life of an item -/

namespace Event
variable (P : Work → Bool)

def allocates : Event → Bool
  | .alloc _ w => P w
  | _ => false

def inserts : Event → Bool
  | .insert _ _ w => P w
  | _ => false

def invokes : Event → Bool
  | .invoke _ w => P w
  | _ => false

end Event

/-- The item that a call has allocated and not yet inserted. -/
def Thread.fresh : Thread → Option Work
  | .call _ (.lock _ w) | .call _ (.insert _ w) => some w
  | _ => none

/-- The item that a callback has taken and not yet invoked. -/
def Thread.taken : Thread → Option Work
  | .worker (.unlock _ _ _ r) | .worker (.rdunlock r) => r
  | .worker (.call w) => some w
  | _ => none

/-- The items of a class that are queued. -/
def Shared.queued (P : Work → Bool) (sh : Shared) : Nat :=
  (sh.queues.map fun wq => wq.itemListhead.countP P).sum

section Life
variable {P : Work → Bool} {G : PoolState → Nat × Choice → Prop} {users : Nat} {tr : List Event}

theorem queued_setQueue (P : Work → Bool) (wq' : Workq) (hq : sh.queues[q]? = some wq) :
    (sh.setQueue q wq').queued P + wq.itemListhead.countP P =
      sh.queued P + wq'.itemListhead.countP P :=
  sum_map_set (fun wq : Workq => wq.itemListhead.countP P) wq' hq

theorem fresh_step (P : Work → Bool) (h : Step sh t p o) :
    o.events.countP (Event.allocates P) + (p.fresh.any P).toNat =
      o.events.countP (Event.inserts P) + (o.pc.fresh.any P).toNat := by
  cases h with
  | alloc =>
    rw [countP_singleton_toNat, countP_singleton_toNat]
    exact Nat.add_comm _ 0
  | insert =>
    rw [countP_singleton_toNat, countP_singleton_toNat]
    exact Nat.add_comm 0 _
  | _ => rfl

/-- What a step does to the items of a class. -/
def TakenStep (P : Work → Bool) (sh : Shared) (p : Thread) (o : Out) : Prop :=
  o.events.countP (Event.inserts P) + sh.queued P + (p.taken.any P).toNat =
    o.shared.queued P + o.events.countP (Event.invokes P) + (o.pc.taken.any P).toNat

private theorem TakenStep.same (hi : o.events.countP (Event.inserts P) = 0)
    (hv : o.events.countP (Event.invokes P) = 0) (hq : o.shared.queued P = sh.queued P)
    (ht : o.pc.taken = p.taken) : TakenStep P sh p o := by
  unfold TakenStep
  rw [hi, hv, hq, ht]
  omega

private theorem TakenStep.touch (hi : o.events.countP (Event.inserts P) = 0)
    (hv : o.events.countP (Event.invokes P) = 0) (hq : sh.queues[q]? = some wq)
    (hs : o.shared.queued P = (sh.setQueue q wq').queued P)
    (hl : wq'.itemListhead = wq.itemListhead) (ht : o.pc.taken = p.taken) : TakenStep P sh p o := by
  have hset := queued_setQueue P wq' hq
  rw [hl] at hset
  exact .same hi hv (by omega) ht

theorem taken_step (P : Work → Bool) (h : Step sh t p o) : TakenStep P sh p o := by
  cases h with
  | @insert k q w wq hq =>
    have hset := queued_setQueue P { wq with itemListhead := wq.itemListhead ++ [w] } hq
    rw [List.countP_append, countP_singleton_toNat] at hset
    unfold TakenStep
    rw [countP_singleton_toNat, countP_singleton_toNat]
    change (P w).toNat + sh.queued P + 0 = (sh.setQueue q _).queued P + 0 + 0
    omega
  | @take i j q wq w rest hq hl =>
    have hset := queued_setQueue P { wq with itemListhead := rest } hq
    have hw : (w :: rest).countP P = (P w).toNat + rest.countP P := by
      rw [List.countP_cons]
      cases P w <;> simp [Nat.add_comm]
    rw [hl, hw] at hset
    dsimp only at hset
    change 0 + sh.queued P + 0 = (sh.setQueue q _).queued P + 0 + (P w).toNat
    omega
  | lock hq | unlock hq | spinLock hq | nextQueue hq | taken hq | spinInit hq =>
    exact .touch rfl rfl hq rfl rfl rfl
  | @createAlloc k attr =>
    refine .same rfl rfl ?_ rfl
    simp [Shared.queued, newWorkq]
  | @call w =>
    unfold TakenStep
    rw [countP_singleton_toNat, countP_singleton_toNat]
    change 0 + sh.queued P + (P w).toNat = sh.queued P + (P w).toNat + 0
    omega
  | _ => exact .same rfl rfl rfl rfl

/-- The accounts of a class of items over a whole run. -/
theorem inserted_account (P : Work → Bool) (h : Machine.Run program G (initial users) tr c) :
    tr.countP (Event.inserts P) =
      c.shared.queued P + tr.countP (Event.invokes P) + c.total fun p => (p.taken.any P).toNat := by
  refine h.balance (fun tr _ => tr.countP (Event.inserts P))
    (fun tr sh => sh.queued P + tr.countP (Event.invokes P)) (fun p => (p.taken.any P).toNat) ?_ ?_
  · rw [← Config.number_eq_total (fun p : Thread => p.taken.any P), initial_number rfl]
    rfl
  · intro tr c l p o _ _ mv _
    have hs := program_step mv.next
    have ht : _ + _ + _ = _ := taken_step P hs
    have hzero : (o.spawned.map fun r => (r.taken.any P).toNat).sum = 0 :=
      sum_map_eq_zero fun r hr => by rw [hs.spawned r hr]; rfl
    simp only [List.countP_append]
    omega

theorem allocated_account (P : Work → Bool) (h : Machine.Run program G (initial users) tr c) :
    tr.countP (Event.allocates P) =
      tr.countP (Event.inserts P) + c.total fun p => (p.fresh.any P).toNat := by
  refine h.balance (fun tr _ => tr.countP (Event.allocates P))
    (fun tr _ => tr.countP (Event.inserts P)) (fun p => (p.fresh.any P).toNat) ?_ ?_
  · rw [← Config.number_eq_total (fun p : Thread => p.fresh.any P), initial_number rfl]
    rfl
  · intro tr c l p o _ _ mv _
    have hs := program_step mv.next
    have hf := fresh_step P hs
    have hzero : (o.spawned.map fun r => (r.fresh.any P).toNat).sum = 0 :=
      sum_map_eq_zero fun r hr => by rw [hs.spawned r hr]; rfl
    simp only [List.countP_append]
    omega

/-- No address is allocated twice. -/
theorem allocated_once (h : Machine.Run program G (initial users) tr c) (a : Nat) :
    tr.countP (Event.allocates fun w => w.addr == a) = (decide (a < c.shared.heap)).toNat := by
  refine h.invariant (fun tr c =>
    tr.countP (Event.allocates fun w => w.addr == a) = (decide (a < c.shared.heap)).toNat) rfl ?_
  intro tr c l p o _ ih _ mv
  have hs := program_step mv.next
  rw [List.countP_append, ih]
  change _ = (decide (a < o.shared.heap)).toNat
  cases hs with
  | alloc =>
    rw [countP_singleton_toNat]
    simp only [Event.allocates]
    by_cases hlt : a < c.shared.heap
    · have : (c.shared.heap == a) = false := beq_eq_false_iff_ne.mpr (Nat.ne_of_gt hlt)
      simp [hlt, Nat.lt_succ_of_lt hlt, this]
    · by_cases he : c.shared.heap = a
      · simp [he]
      · have : ¬ a < c.shared.heap + 1 := by omega
        simp [hlt, this, he]
  | _ => rfl

/-- An inserted item was inserted once. -/
theorem inserted_once (h : Machine.Run program G (initial users) tr c) {w : Work} {t : Tid}
    (hw : Event.insert t q w ∈ tr) : tr.countP (Event.inserts (· == w)) = 1 := by
  have hpos : 0 < tr.countP (Event.inserts (· == w)) :=
    List.countP_pos_iff.mpr ⟨_, hw, beq_self_eq_true w⟩
  have halloc := allocated_account (· == w) h
  have hmono : tr.countP (Event.allocates (· == w)) ≤
      tr.countP (Event.allocates fun x => x.addr == w.addr) := by
    refine List.countP_mono_left fun e _ he => ?_
    cases e with
    | alloc u x =>
      have : x = w := beq_iff_eq.mp he
      simp [Event.allocates, this]
    | _ => cases he
  have hone := allocated_once h w.addr
  have := Bool.toNat_le (decide (w.addr < c.shared.heap))
  omega

end Life

/-! Quiescence -/

/-- A callback that was submitted and has not finished. -/
def Thread.running : Thread → Bool
  | .worker .exited => false
  | .worker _ | .app (.worker _) | .call (.worker _) _ => true
  | .app .user | .call .user _ => false

section Quiet
variable {G : PoolState → Nat × Choice → Prop} {users : Nat} {tr : List Event}

theorem total_cover (n : Nat) :
    c.total (Thread.cover c.shared n) =
      c.number Thread.unsubmitted + c.number (Thread.reaches c.shared n) := by
  rw [Config.number_eq_total, Config.number_eq_total]
  exact List.sum_map_add

theorem reaches_running {n : Nat} (h : p.running = false) : p.reaches sh n = false := by
  cases p with
  | worker x =>
    cases x with
    | exited => rfl
    | _ => cases h
  | _ => rfl

theorem taken_running (h : p.running = false) : p.taken = none := by
  cases p with
  | worker x =>
    cases x with
    | exited => rfl
    | _ => cases h
  | _ => rfl

theorem not_running (h : c.number Thread.running = 0) (hp : p ∈ c.threads) : p.running = false :=
  Bool.eq_false_iff.mpr (List.countP_eq_zero.mp h p hp)

/-- Without callbacks and calls that will submit one there is no item in the lists, and so none. -/
theorem items_eq_nil (h : Machine.Run program G (initial users) tr c)
    (hr : c.number Thread.running = 0) (hu : c.number Thread.unsubmitted = 0) (q : QId) :
    c.shared.items q = [] := by
  have hreach : c.number (Thread.reaches c.shared c.shared.visitOrder.length) = 0 :=
    List.countP_eq_zero.mpr fun p hp => by simp [reaches_running (not_running hr hp)]
  have hle := covered h c.shared.visitOrder.length
  rw [total_cover, hreach, hu, Shared.itemsBefore, List.take_length] at hle
  by_contra hne
  have hmem := (placed h).filled q hne
  have hzero := List.sum_eq_zero_iff.mp (Nat.le_zero.mp hle) _ (List.mem_map_of_mem hmem)
  exact hne (List.length_eq_zero_iff.mp hzero)

theorem queues_empty (h : Machine.Run program G (initial users) tr c)
    (hr : c.number Thread.running = 0) (hu : c.number Thread.unsubmitted = 0) :
    ∀ wq ∈ c.shared.queues, wq.itemListhead = [] := by
  intro wq hwq
  obtain ⟨q, hq⟩ := List.getElem?_of_mem hwq
  rw [← items_eq hq]
  exact items_eq_nil h hr hu q

theorem invoked_once (h : Machine.Run program G (initial users) tr c)
    (hr : c.number Thread.running = 0) (hu : c.number Thread.unsubmitted = 0) {w : Work}
    (hw : Event.insert t q w ∈ tr) : tr.countP (Event.invokes (· == w)) = 1 := by
  have haccount := inserted_account (· == w) h
  have hqueued : c.shared.queued (· == w) = 0 :=
    sum_map_eq_zero fun wq hwq => by rw [queues_empty h hr hu wq hwq]; rfl
  have htaken : c.total (fun p => (p.taken.any (· == w)).toNat) = 0 :=
    sum_map_eq_zero fun p hp => by rw [taken_running (not_running hr hp)]; rfl
  rw [inserted_once h hw, hqueued, htaken] at haccount
  omega

end Quiet

/-- Up to every place of the visiting order there are no more items than calls between insert and
submission and callbacks that have not passed that place. So when every callback has finished and no
call is between the two, the queues are empty and every item has run once. -/
theorem no_stranded_item (users : Nat) (tr : List Event) (c : PoolState)
    (h : Machine.Free program (initial users) tr c) :
    (∀ k, c.shared.itemsBefore (k + 1) ≤
      c.number Thread.unsubmitted + c.number (Thread.reaches c.shared (k + 1))) ∧
    (c.number Thread.running = 0 → c.number Thread.unsubmitted = 0 →
      (∀ wq ∈ c.shared.queues, wq.itemListhead = []) ∧
      ∀ t q w, Event.insert t q w ∈ tr → tr.countP (Event.invokes (· == w)) = 1) := by
  refine ⟨fun k => ?_, fun hr hu => ⟨queues_empty h hr hu, fun t q w hw => invoked_once h hr hu hw⟩⟩
  rw [← total_cover]
  exact covered h (k + 1)

/-- A callback passes the first list before an item comes there, and takes the one of the second. -/
theorem no_stranded_item_of_two : ∃ tr c,
    Machine.Free program (initial 1) tr c ∧ tr.countP (Event.invokes fun _ => true) = 2 ∧
      (∀ wq ∈ c.shared.queues, wq.itemListhead = []) ∧
      ∀ t q w, Event.insert t q w ∈ tr → tr.countP (Event.invokes (· == w)) = 1 := by
  obtain ⟨tr, c, hrun, hP⟩ := Machine.exists_run (M := program) (g := fun _ _ => true)
    (c := initial 1) (createQueue 0 0 ++ createQueue 0 1 ++ addItem 0 1 7 ++ steps 1 5 ++
      addItem 0 0 8 ++ steps 2 9 ++ steps 1 9)
    (fun r => decide (r.2.countP (Event.invokes fun _ => true) = 2 ∧
      r.1.number Thread.running = 0 ∧ r.1.number Thread.unsubmitted = 0)) (by decide +kernel)
  obtain ⟨htwo, hr, hu⟩ := of_decide_eq_true hP
  obtain ⟨hempty, honce⟩ := (no_stranded_item 1 tr c hrun.free).2 hr hu
  exact ⟨tr, c, hrun.free, htwo, hempty, honce⟩

end PthreadWorkqueue.Windows
