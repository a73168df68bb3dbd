import PthreadWorkqueue.Windows.LinkedManager
import PthreadWorkqueue.Windows.Service

/-! The manager over linked lists refines the manager over sequences in every run that initialises no
lock while it is held: no thread uses the null pointer or an item that was freed, and the links of a
queue that no macro is changing lead through its items. -/
namespace PthreadWorkqueue.Windows
open Concurrency Memory
open Posix (Work Workq Attr Tid QId newWorkq validWorkq set_relist)

/-- The memory with other item lists. -/
def Shared.relist (L : QId → List Work) (sh : Shared) : Shared :=
  { sh with queues := sh.queues.mapIdx fun q wq => wq.relist (L q) }

def Out.relist (L : QId → List Work) (o : Out) : Out := { o with shared := o.shared.relist L }

section Relist
variable {sh : Shared} {t : Tid} {p : Thread} {ch : Choice} {o : Out} {L L' : QId → List Work} {q : QId}
  {wq wq' : Workq}

theorem getElem?_relist : (sh.relist L).queues[q]? = (sh.queues[q]?).map (Workq.relist (L q)) :=
  List.getElem?_mapIdx

theorem length_relist : (sh.relist L).queues.length = sh.queues.length := List.length_mapIdx

theorem relist_relist : (sh.relist L).relist L' = sh.relist L' := by
  have hmap : (sh.queues.mapIdx fun q wq => wq.relist (L q)).mapIdx (fun q wq => wq.relist (L' q)) =
      sh.queues.mapIdx fun q wq => wq.relist (L' q) := List.mapIdx_mapIdx
  unfold Shared.relist
  rw [hmap]

theorem getElem?_of_relist (hq : sh.queues[q]? = some wq) :
    (sh.relist L).queues[q]? = some (wq.relist (L q)) := by
  rw [getElem?_relist, hq]
  rfl

/-- The lock of a queue is taken or given back. -/
theorem setMtx_relist (q : QId) (wq : Workq) (m : Option Tid) :
    (sh.relist L).setQueue q { wq.relist (L q) with mtx := m } =
      (sh.setQueue q { wq with mtx := m }).relist L := by
  unfold Shared.relist Shared.setQueue
  rw [List.mapIdx_set]
  rfl

/-- The item list of a queue is changed. -/
theorem setQueue_update (hq : sh.queues[q]? = some wq) (l : List Work) :
    (sh.relist L).setQueue q (wq.relist l) = sh.relist (Function.update L q l) := by
  unfold Shared.relist Shared.setQueue
  rw [set_relist hq]

theorem append_relist (attr : Option Attr) (hL : L sh.queues.length = []) :
    ({ sh with queues := sh.queues ++ [newWorkq attr] } : Shared).relist L =
      { sh.relist L with queues := (sh.relist L).queues ++ [newWorkq attr] } := by
  unfold Shared.relist
  dsimp only
  rw [List.mapIdx_append, List.mapIdx_singleton, Nat.zero_add, hL]
  rfl

theorem spinLock_relist : (sh.relist L).spinLock q = sh.spinLock q := by
  unfold Shared.spinLock
  rw [getElem?_relist]
  cases sh.queues[q]? <;> rfl

theorem items_relist (beyond : ∀ q, sh.queues.length ≤ q → L q = []) : (sh.relist L).items = L := by
  funext q
  unfold Shared.items
  rw [getElem?_relist]
  by_cases hq : q < sh.queues.length
  · rw [List.getElem?_eq_getElem hq]
    rfl
  · rw [List.getElem?_eq_none (Nat.le_of_not_lt hq), beyond q (Nat.le_of_not_lt hq)]
    rfl

theorem appNext_relist {k : Caller} (h : appNext sh k ch = some o) :
    appNext (sh.relist L) k ch = some (o.relist L) := by
  cases ch with
  | request x =>
    obtain ⟨c, hc, ho⟩ := Option.bind_eq_some_iff.mp h
    cases ho
    exact Option.bind_eq_some_iff.mpr ⟨c, by cases x <;> exact hc, rfl⟩
  | go =>
    cases k with
    | user => cases h
    | worker v => cases h; rfl
  | ok b => cases h

theorem callNext_relist {k : Caller} {x : Call} (hp : (Thread.call k x).onList = false)
    (hL : L sh.queues.length = []) (h : callNext sh t k x ch = some o) :
    callNext (sh.relist L) t k x ch = some (o.relist L) := by
  cases x <;> cases ch <;> simp only [callNext, reduceCtorEq, Option.bind_eq_some_iff,
    Option.ite_none_right_eq_some] at h ⊢ <;> try cases hp
  case check q f a =>
    obtain ⟨wq, hq, h⟩ := h
    refine ⟨_, getElem?_of_relist hq, ?_⟩
    have hv : validWorkq (wq.relist (L q)) = validWorkq wq := rfl
    cases f with
    | none => cases h; rfl
    | some f =>
      simp only [hv] at h ⊢
      split at h
      · rename_i hv
        cases h
        rw [if_pos hv]
        rfl
      · rename_i hv
        cases h
        rw [if_neg hv]
        rfl
  case alloc => cases h; rfl
  case lock =>
    obtain ⟨wq, hq, hm, h⟩ := h
    cases h
    exact ⟨_, getElem?_of_relist hq, hm, congrArg (goTo · _) (setMtx_relist ..)⟩
  case unlock =>
    obtain ⟨wq, hq, h⟩ := h
    cases h
    exact ⟨_, getElem?_of_relist hq, congrArg (goTo · _) (setMtx_relist ..)⟩
  case submit | createCheck =>
    split at h <;> cases h <;> simp only [*, if_true, if_false, Bool.false_eq_true] <;> rfl
  case createAlloc =>
    split at h
    · cases h
      rw [if_pos (by assumption), length_relist]
      exact congrArg (goTo · _) (append_relist _ hL).symm
    · cases h
      rw [if_neg (by assumption)]
      rfl
  case wrlock =>
    obtain ⟨hr, h⟩ := h
    cases h
    exact ⟨hr, rfl⟩
  case createInsert =>
    obtain ⟨wq, hq, h⟩ := h
    cases h
    exact ⟨_, getElem?_of_relist hq, rfl⟩
  case wrunlock => cases h; rfl
  case spinInit q =>
    obtain ⟨wq, hq, h⟩ := h
    cases h
    refine ⟨_, getElem?_of_relist hq, ?_⟩
    rw [setMtx_relist]
    rfl

theorem workerNext_relist {x : WorkerPc} (hp : (Thread.worker x).onList = false)
    (h : workerNext sh t x ch = some o) :
    workerNext (sh.relist L) t x ch = some (o.relist L) := by
  cases x <;> cases ch <;> simp only [workerNext, reduceCtorEq, Option.bind_eq_some_iff,
    Option.ite_none_right_eq_some] at h ⊢ <;> try cases hp
  case rdlock =>
    obtain ⟨hw, h⟩ := h
    cases h
    exact ⟨hw, rfl⟩
  case visit i j =>
    split at h
    · rename_i hi
      rw [if_pos hi]
      cases hq : (sh.wqlist i)[j]? with
      | none =>
        rw [hq] at h
        cases h
        simp only [Shared.relist, hq]
        rfl
      | some q =>
        rw [hq] at h
        cases h
        simp only [Shared.relist, hq]
        rfl
    · rename_i hi
      cases h
      rw [if_neg hi]
      rfl
  case lock =>
    obtain ⟨wq, hq, hm, h⟩ := h
    cases h
    exact ⟨_, getElem?_of_relist hq, hm, congrArg (goTo · _) (setMtx_relist ..)⟩
  case unlock =>
    obtain ⟨wq, hq, h⟩ := h
    cases h
    exact ⟨_, getElem?_of_relist hq, congrArg (goTo · _) (setMtx_relist ..)⟩
  case rdunlock | call | free => cases h; rfl

/-- A step that uses no item list is the same whatever is in the lists. -/
theorem program_relist (hp : p.onList = false) (hL : L sh.queues.length = [])
    (h : program sh t p ch = some o) : program (sh.relist L) t p ch = some (o.relist L) := by
  simp only [program, Option.ite_none_right_eq_some] at h ⊢
  refine ⟨h.1, ?_⟩
  cases p with
  | app k => exact appNext_relist h.2
  | call k x => exact callNext_relist hp hL h.2
  | worker x => exact workerNext_relist hp h.2

/-- At most one queue is allocated in a step. -/
theorem Step.length (h : Step sh t p o) : o.shared.queues.length = sh.queues.length ∨
    o.shared.queues.length = sh.queues.length + 1 := by
  cases h with
  | createAlloc => exact .inr List.length_append
  | _ => first | exact .inl rfl | exact .inl List.length_set

end Relist

/-- The manager that has the lists `L` in the place of the links. -/
def LinkedState.pool (c : LinkedState) (L : QId → List Work) : PoolState :=
  ⟨c.shared.pool.relist L, c.threads.map LinkedThread.point⟩

namespace LinkedThread

/-- The macro that a thread is in: its queue, and the statements that are left. -/
def inside : LinkedThread → Option (QId × List (Statement QId Work))
  | .insert _ q _ todo | .remove _ _ q _ todo => some (q, todo)
  | _ => none

/-- The list that the macro makes of `l`. -/
def makes (l : List Work) : LinkedThread → List Work
  | .insert _ _ w _ => l ++ [w]
  | _ => l.tail

/-- What a callback has learnt about the list of its queue. -/
def knows (L : QId → List Work) : LinkedThread → Prop
  | .first _ _ q => L q ≠ []
  | .remove _ _ q w _ => (L q).head? = some w
  | .leave _ _ _ => False
  | _ => True

end LinkedThread

/-- No thread is inside a macro on the queue. -/
def LinkedState.quiet (c : LinkedState) (q : QId) : Prop :=
  ∀ (t : Tid) (x : LinkedThread), c.threads[t]? = some x → ∀ todo, x.inside ≠ some (q, todo)

/-- The links show the lists, as far as no macro is changing them. -/
structure Represents (tr : List Event) (c : LinkedState) (L : QId → List Work) : Prop where
  fault : c.shared.fault = false
  bare : c.shared.pool.relist (fun _ => []) = c.shared.pool
  beyond : ∀ q, c.shared.pool.queues.length ≤ q → L q = []
  freed : ∀ w ∈ c.shared.freed, ∃ t, Event.free t w ∈ tr
  quiet : ∀ q < c.shared.pool.queues.length, c.quiet q → Holds c.shared.links q (L q)
  inside : ∀ (t : Tid) (x : LinkedThread) (q : QId) todo, c.threads[t]? = some x →
    x.inside = some (q, todo) → Midway c.shared.links q (L q) (x.makes (L q)) todo
  knows : ∀ (t : Tid) (x : LinkedThread), c.threads[t]? = some x → x.knows L

variable {users : Nat} {tr : List Event} {c : LinkedState} {L L' : QId → List Work} {t u : Tid}
  {x x' y : LinkedThread} {p : Thread} {ch : Choice} {o : Out} {q r : QId} {w z : Work}
  {s : Statement QId Work} {todo : List (Statement QId Work)} {xs : List Work} {es : List Event}

namespace LinkedThread

theorem spin_of_inside (h : x.inside = some (q, todo)) : x.point.spin = some q := by
  cases x <;> cases h <;> rfl

/-- The items that a macro meets belong to its queue or to its thread. -/
theorem mem_makes (h : x.inside = some (q, todo)) (hz : z ∈ L q ++ x.makes (L q)) :
    z ∈ L q ∨ x.point.fresh = some z := by
  obtain hl | hm := List.mem_append.mp hz
  · exact .inl hl
  · cases x <;> cases h
    · obtain hl | hw := List.mem_append.mp hm
      · exact .inl hl
      · exact .inr (congrArg some (List.mem_singleton.mp hw).symm)
    · exact .inl (List.mem_of_mem_tail hm)

theorem knows_congr (h : ∀ q, x.point.spin = some q → L' q = L q) (hx : x.knows L) : x.knows L' := by
  cases x with
  | first i j q =>
    change L' q ≠ []
    rw [h q rfl]
    exact hx
  | remove i j q w todo =>
    change (L' q).head? = some w
    rw [h q rfl]
    exact hx
  | leave i j q => exact hx
  | _ => trivial

end LinkedThread

theorem pool_thread (hx : c.threads[t]? = some x) : (c.pool L).threads[t]? = some x.point := by
  change (c.threads.map LinkedThread.point)[t]? = some x.point
  rw [List.getElem?_map, hx]
  rfl

/-- A queue that a thread works on was allocated. -/
theorem spin_lt (hrun : Machine.Run program InitsFree (initial users) tr (c.pool L))
    (hx : c.threads[t]? = some x) (hs : x.point.spin = some q) : q < c.shared.pool.queues.length := by
  have hlock := ((spinLock_owned hrun q).at (pool_thread hx)).mpr (beq_iff_eq.mpr hs)
  obtain ⟨wq, hq, -⟩ := Option.bind_eq_some_iff.mp hlock
  have hlt := (List.getElem?_eq_some_iff.mp hq).1
  exact lt_of_lt_of_eq hlt length_relist

/-- Another thread works on another queue. -/
theorem spin_ne (hrun : Machine.Run program InitsFree (initial users) tr (c.pool L))
    (hx : c.threads[t]? = some x) (hs : x.point.spin = some q) (hy : c.threads[u]? = some y)
    (hu : u ≠ t) (hr : y.point.spin = some r) : r ≠ q := fun hrq =>
  hu (spin_unique hrun (pool_thread hx) (pool_thread hy) hs (hrq ▸ hr))

namespace Represents

theorem items (h : Represents tr c L) (q : QId) : (c.pool L).shared.items q = L q :=
  congrFun (items_relist h.beyond) q

theorem nodup (h : Represents tr c L)
    (hrun : Machine.Run program InitsFree (initial users) tr (c.pool L)) (q : QId) : (L q).Nodup :=
  h.items q ▸ items_nodup hrun q

/-- What belongs to a queue does not belong to another queue or a thread. -/
theorem apart_queue (h : Represents tr c L)
    (hrun : Machine.Run program InitsFree (initial users) tr (c.pool L))
    (hx : c.threads[t]? = some x) (hr : r ≠ q) (hz : z ∈ L r) :
    ¬ (z ∈ L q ∨ x.point.fresh = some z) := by
  rintro (hq | hf)
  · exact hr (items_unique hrun ((h.items r).symm ▸ hz) ((h.items q).symm ▸ hq))
  · exact fresh_not_queued hrun (pool_thread hx) hf r ((h.items r).symm ▸ hz)

/-- What belongs to a queue or a thread does not belong to another queue or another thread. -/
theorem apart (h : Represents tr c L)
    (hrun : Machine.Run program InitsFree (initial users) tr (c.pool L))
    (hx : c.threads[t]? = some x) (hy : c.threads[u]? = some y) (hu : u ≠ t) (hr : r ≠ q)
    (hz : z ∈ L r ∨ y.point.fresh = some z) : ¬ (z ∈ L q ∨ x.point.fresh = some z) := by
  obtain hz | hz := hz
  · exact h.apart_queue hrun hx hr hz
  rintro (hq | hf)
  · exact fresh_not_queued hrun (pool_thread hy) hz q ((h.items q).symm ▸ hq)
  · exact hu (fresh_unique hrun (pool_thread hx) hf (pool_thread hy) hz)

/-- What belongs to a queue or a thread is still there. -/
theorem live (h : Represents tr c L)
    (hrun : Machine.Run program InitsFree (initial users) tr (c.pool L)) (hz : InUse (c.pool L) z) :
    c.shared.live z = true := by
  obtain ⟨hlt, hfree⟩ := hz.live hrun
  refine decide_eq_true ⟨hlt, fun hf => ?_⟩
  obtain ⟨t, ht⟩ := h.freed z hf
  exact hfree t ht

theorem nodup_makes (h : Represents tr c L)
    (hrun : Machine.Run program InitsFree (initial users) tr (c.pool L))
    (hx : c.threads[t]? = some x) (hi : x.inside = some (q, todo)) : (x.makes (L q)).Nodup := by
  cases x with
  | insert k _ w todo =>
    cases hi
    have hnot : w ∉ L q := fun hw =>
      fresh_not_queued hrun (pool_thread hx) rfl q ((h.items q).symm ▸ hw)
    change (L q ++ [w]).Nodup
    rw [← List.concat_eq_append]
    exact (List.nodup_concat _ _).mpr ⟨hnot, h.nodup hrun q⟩
  | remove i j _ w todo =>
    cases hi
    exact (h.nodup hrun q).sublist (List.tail_sublist _)
  | _ => cases hi

/-- A thread that works on a queue changes its links and its list only. -/
theorem move (h : Represents tr c L)
    (hrun : Machine.Run program InitsFree (initial users) tr (c.pool L))
    (hx : c.threads[t]? = some x) (hs : x.point.spin = some q) {links : TailMemory QId Work}
    (hels : Elsewhere q xs c.shared.links links) (hxs : ∀ z ∈ xs, z ∈ L q ∨ x.point.fresh = some z)
    (same : ∀ r ≠ q, L' r = L r)
    (inside : ∀ r todo, x'.inside = some (r, todo) → r = q ∧ Midway links q (L' q) (x'.makes (L' q)) todo)
    (outside : x'.inside = none → Holds links q (L' q)) (knows : x'.knows L') :
    Represents (tr ++ es) ((⟨{ c.shared with links }, x', [], es⟩ : LinkedOut).apply c t) L' := by
  have hlt := spin_lt hrun hx hs
  refine ⟨h.fault, h.bare, fun r hr => ?_, fun w hw => ?_, fun r hr hquiet => ?_, ?_, ?_⟩
  · have hne : r ≠ q := fun hrq => Nat.not_lt_of_ge hr (hrq ▸ hlt)
    exact (same r hne).trans (h.beyond r hr)
  · obtain ⟨u, hu⟩ := h.freed w hw
    exact ⟨u, List.mem_append_left _ hu⟩
  · by_cases hrq : r = q
    · subst hrq
      refine outside ?_
      cases hi : x'.inside with
      | none => rfl
      | some i =>
        obtain ⟨r', todo⟩ := i
        obtain ⟨rfl, -⟩ := inside r' todo hi
        exact absurd hi (hquiet t x' (Outcome.get_self hx) todo)
    · have hold : Holds c.shared.links r (L r) := h.quiet r hr fun u y hy todo hi => by
        by_cases hu : u = t
        · subst hu
          cases hx.symm.trans hy
          exact hrq (Option.some.inj ((LinkedThread.spin_of_inside hi).symm.trans hs))
        · exact hquiet u y (Outcome.get_other hu hy) todo hi
      rw [same r hrq]
      exact hold.elsewhere hels hrq fun z hz hz' => h.apart_queue hrun hx hrq hz (hxs z hz')
  · intro u y r todo hy hi
    obtain ⟨rfl, rfl⟩ | ⟨hu, hy⟩ | ⟨-, hy⟩ := Outcome.get_cases hx hy
    · obtain ⟨rfl, hmid⟩ := inside r todo hi
      exact hmid
    · have hne := spin_ne hrun hx hs hy hu (LinkedThread.spin_of_inside hi)
      rw [same r hne]
      exact (h.inside u y r todo hy hi).elsewhere hels hne fun z hz hz' =>
        h.apart hrun hx hy hu hne (LinkedThread.mem_makes hi hz) (hxs z hz')
    · cases hy
  · intro u y hy
    obtain ⟨rfl, rfl⟩ | ⟨hu, hy⟩ | ⟨-, hy⟩ := Outcome.get_cases hx hy
    · exact knows
    · exact LinkedThread.knows_congr (fun r hr => same r (spin_ne hrun hx hs hy hu hr)) (h.knows u y hy)
    · cases hy

/-- A thread brings its macro on by a statement, which uses no null pointer and no item that is gone. -/
theorem statement (h : Represents tr c L)
    (hrun : Machine.Run program InitsFree (initial users) tr (c.pool L))
    (hx : c.threads[t]? = some x) (hi : x.inside = some (q, s :: todo)) :
    ∃ links more, s.exec c.shared.live c.shared.links = some (links, more) ∧
      ∀ x' : LinkedThread, x'.inside = some (q, more ++ todo) → x'.makes (L q) = x.makes (L q) →
        x'.knows L → Represents (tr ++ []) ((⟨{ c.shared with links }, x', [], []⟩ : LinkedOut).apply c t) L := by
  have mine : ∀ z ∈ L q ++ x.makes (L q), z ∈ L q ∨ x.point.fresh = some z := fun z hz =>
    LinkedThread.mem_makes hi hz
  have alive : ∀ z ∈ L q ++ x.makes (L q), c.shared.live z = true := fun z hz =>
    h.live hrun ((mine z hz).imp (fun hq => ⟨q, (h.items q).symm ▸ hq⟩)
      fun hf => ⟨t, _, pool_thread hx, .inl hf⟩)
  obtain ⟨links, more, he, hmid, hels⟩ :=
    (h.inside t x q _ hx hi).step (h.nodup hrun q) (h.nodup_makes hrun hx hi) alive
  refine ⟨links, more, he, fun x' hi' hmakes hknows => ?_⟩
  refine h.move hrun hx (LinkedThread.spin_of_inside hi) hels mine (fun _ _ => rfl) ?_ ?_ hknows
  · intro r todo' hr
    cases hi'.symm.trans hr
    exact ⟨rfl, hmakes ▸ hmid⟩
  · intro hnone
    cases hi'.symm.trans hnone

/-- A queue that a thread works on without being in a macro shows its list. -/
theorem shows (h : Represents tr c L)
    (hrun : Machine.Run program InitsFree (initial users) tr (c.pool L))
    (hx : c.threads[t]? = some x) (hs : x.point.spin = some q) (hi : x.inside = none) :
    Holds c.shared.links q (L q) := by
  refine h.quiet q (spin_lt hrun hx hs) fun u y hy todo hj => ?_
  by_cases hu : u = t
  · subst hu
    cases hx.symm.trans hy
    cases hi.symm.trans hj
  · exact spin_ne hrun hx hs hy hu (LinkedThread.spin_of_inside hj) rfl

/-- A thread uses neither the null pointer nor an item that was freed. -/
theorem not_faults (h : Represents tr c L)
    (hrun : Machine.Run program InitsFree (initial users) tr (c.pool L))
    (hx : c.threads[t]? = some x) : ¬ x.faults c.shared := by
  have macros : ∀ {q s todo}, x.inside = some (q, s :: todo) →
      s.exec c.shared.live c.shared.links ≠ none := by
    intro q s todo hi hnone
    obtain ⟨links, more, he, -⟩ := h.statement hrun hx hi
    cases hnone.symm.trans he
  cases x with
  | pool p =>
    rintro ⟨w, hw, hdead⟩
    have hheld : p.held = some w := by
      unfold Thread.uses at hw
      split at hw <;> cases hw <;> rfl
    have hlive := h.live hrun (.inr ⟨t, p, pool_thread hx, .inr hheld⟩)
    cases hdead.symm.trans hlive
  | insert k q w todo | remove i j q w todo =>
    cases todo with
    | nil => exact id
    | cons s todo => exact macros rfl
  | first i j q | leave i j q => exact id

/-- A step of the manager that uses no item list. -/
theorem pool (h : Represents tr c L)
    (hrun : Machine.Run program InitsFree (initial users) tr (c.pool L))
    (hx : c.threads[t]? = some (.pool p)) (hp : p.onList = false)
    (ho : program c.shared.pool t p ch = some o) :
    Represents (tr ++ o.events) ((c.shared.after o).apply c t) L := by
  have hlen := (program_step ho).length
  have hbare : o.shared.relist (fun _ => []) = o.shared := by
    have hrel := program_relist (L := fun _ => []) hp rfl ho
    rw [h.bare, ho] at hrel
    exact (congrArg Outcome.shared (Option.some.inj hrel)).symm
  have hels : Elsewhere c.shared.pool.queues.length [] c.shared.links (c.shared.after o).shared.links := by
    change Elsewhere _ _ _ (if _ then _ else _)
    split
    · exact elsewhere_init _ _
    · exact ⟨fun _ _ => rfl, fun _ _ => rfl, fun _ _ => rfl⟩
  refine ⟨rfl, hbare, fun q hq => h.beyond q ?_, fun w hw => ?_, fun q hq hquiet => ?_, ?_, ?_⟩
  · have hq' : o.shared.queues.length ≤ q := hq
    omega
  · obtain hw | hw := List.mem_append.mp hw
    · obtain ⟨u, hu⟩ := h.freed w hw
      exact ⟨u, List.mem_append_left _ hu⟩
    · obtain ⟨e, he, hew⟩ := List.mem_filterMap.mp hw
      cases e <;> cases hew
      exact ⟨_, List.mem_append_right _ he⟩
  · have hq' : q < o.shared.queues.length := hq
    by_cases hnew : q = c.shared.pool.queues.length
    · subst hnew
      have hlinks : (c.shared.after o).shared.links =
          stailqInit c.shared.links c.shared.pool.queues.length := if_pos hq'
      rw [h.beyond _ (Nat.le_refl _)]
      exact hlinks ▸ holds_init _ _
    · have hold : Holds c.shared.links q (L q) := h.quiet q (by omega) fun u y hy todo hi => by
        by_cases hu : u = t
        · subst hu
          cases hx.symm.trans hy
          cases hi
        · exact hquiet u y (Outcome.get_other hu hy) todo hi
      exact hold.elsewhere hels hnew fun z _ => List.not_mem_nil
  · intro u y q todo hy hi
    obtain ⟨rfl, rfl⟩ | ⟨hu, hy⟩ | ⟨-, hy⟩ := Outcome.get_cases hx hy
    · cases hi
    · have hlt := spin_lt hrun hy (LinkedThread.spin_of_inside hi)
      exact (h.inside u y q todo hy hi).elsewhere hels (Nat.ne_of_lt hlt) fun z _ => List.not_mem_nil
    · obtain ⟨r, -, rfl⟩ := List.mem_map.mp hy
      cases hi
  · intro u y hy
    obtain ⟨rfl, rfl⟩ | ⟨hu, hy⟩ | ⟨-, hy⟩ := Outcome.get_cases hx hy
    · trivial
    · exact h.knows u y hy
    · obtain ⟨r, -, rfl⟩ := List.mem_map.mp hy
      trivial

end Represents

/-! Runs -/

/-- No lock of a queue is initialised while it is held. -/
def LinkedInitsFree (c : LinkedState) (l : Tid × Choice) : Prop :=
  ∀ x, c.threads[l.1]? = some x → x.point.initsFree c.shared.pool

theorem LinkedInitsFree.pool {l : Tid × Choice} (h : LinkedInitsFree c l) : InitsFree (c.pool L) l := by
  intro p hp
  have hp' : (c.threads.map LinkedThread.point)[l.1]? = some p := hp
  rw [List.getElem?_map, Option.map_eq_some_iff] at hp'
  obtain ⟨x, hx, rfl⟩ := hp'
  have hfree := h x hx
  revert hfree
  cases x.point with
  | call k x => cases x <;> first | exact id | exact spinLock_relist.trans
  | _ => exact id

section Steps
variable {sh : Shared} {wq : Workq} {k : Caller} {i j : Nat}

theorem program_insert (ha : sh.aborted = false) (hq : sh.queues[q]? = some wq) :
    program (sh.relist L) t (.call k (.insert q w)) .go =
      some ⟨sh.relist (Function.update L q (L q ++ [w])), .call k (.unlock q), [], [.insert t q w]⟩ := by
  refine (if_pos ha).trans ?_
  refine Option.bind_eq_some_iff.mpr ⟨_, getElem?_of_relist hq, ?_⟩
  exact congrArg (emit · _ _) (setQueue_update hq _)

theorem program_look (ha : sh.aborted = false) (hq : sh.queues[q]? = some wq) :
    program (sh.relist L) t (.worker (.look i j q)) .go =
      some ⟨sh.relist (Function.update L q (L q).tail), .worker (.unlock i j q (L q).head?), [], []⟩ := by
  refine (if_pos ha).trans ?_
  refine Option.bind_eq_some_iff.mpr ⟨_, getElem?_of_relist hq, ?_⟩
  cases hl : L q with
  | nil =>
    have hsame : Function.update L q [] = L := by rw [← hl, Function.update_eq_self]
    rw [List.tail_nil, hsame]
    simp only [Workq.relist]
    rfl
  | cons v rest =>
    simp only [Workq.relist]
    exact congrArg (goTo · _) (setQueue_update hq _)

end Steps

/-- A thread that does not move for the manager leaves it as it is. -/
theorem pool_apply (links : TailMemory QId Work) (hx : c.threads[t]? = some x)
    (hp : x'.point = x.point) :
    LinkedState.pool ((⟨{ c.shared with links }, x', [], []⟩ : LinkedOut).apply c t) L = c.pool L := by
  have hthreads : List.map LinkedThread.point (c.threads.set t x' ++ []) =
      c.threads.map LinkedThread.point := by
    obtain ⟨hlt, rfl⟩ := List.getElem?_eq_some_iff.mp hx
    have hlt' : t < (c.threads.map LinkedThread.point).length := by simpa using hlt
    rw [List.append_nil, List.map_set, hp, ← List.getElem_map LinkedThread.point (h := hlt'),
      List.set_getElem_self]
  exact (Config.mk.injEq ..).mpr ⟨rfl, hthreads⟩

/-- A step at an item list is a step of the manager. -/
theorem list_step (hrun : Machine.Run program InitsFree (initial users) tr (c.pool L))
    (hx : c.threads[t]? = some x) (hg : LinkedInitsFree c (t, ch))
    (ho : program (c.shared.pool.relist L) t x.point .go = some ⟨c.shared.pool.relist L', p, [], es⟩) :
    Machine.Run program InitsFree (initial users) (tr ++ es)
      (LinkedState.pool ((⟨c.shared, .pool p, [], es⟩ : LinkedOut).apply c t) L') := by
  have hthreads : List.map LinkedThread.point (c.threads.set t (.pool p) ++ []) =
      (c.threads.map LinkedThread.point).set t p ++ [] := by
    rw [List.append_nil, List.append_nil, List.map_set]
    rfl
  have hpool : LinkedState.pool ((⟨c.shared, .pool p, [], es⟩ : LinkedOut).apply c t) L' =
      (⟨c.shared.pool.relist L', p, [], es⟩ : Out).apply (c.pool L) t :=
    (Config.mk.injEq ..).mpr ⟨rfl, hthreads⟩
  rw [hpool]
  exact hrun.append (.move (l := (t, Choice.go)) hg.pool ⟨pool_thread hx, ho⟩)

theorem represents_initial (links : TailMemory QId Work) (users : Nat) :
    Represents [] (linkedInitial links users) fun _ => [] where
  fault := rfl
  bare := rfl
  beyond _ _ := rfl
  freed _ hw := by cases hw
  quiet q hq := by cases hq
  inside t x q todo hx hi := by
    obtain ⟨p, -, rfl⟩ := List.mem_map.mp (List.mem_of_getElem? hx)
    cases hi
  knows t x hx := by
    obtain ⟨p, -, rfl⟩ := List.mem_map.mp (List.mem_of_getElem? hx)
    trivial

theorem pool_initial (links : TailMemory QId Work) (users : Nat) :
    LinkedState.pool (linkedInitial links users) (fun _ => []) = initial users := by
  refine (Config.mk.injEq ..).mpr ⟨rfl, ?_⟩
  change List.map LinkedThread.point (List.map _ _) = _
  rw [List.map_map]
  exact List.map_id _

/-- The step lemma: a step over linked lists is a step of the manager, or one that it does not see. -/
theorem Represents.step {o : LinkedOut} (h : Represents tr c L)
    (hrun : Machine.Run program InitsFree (initial users) tr (c.pool L))
    (hx : c.threads[t]? = some x) (hg : LinkedInitsFree c (t, ch)) (ha : c.shared.pool.aborted = false)
    (hs : LinkedStep c.shared t x o) :
    ∃ L', Machine.Run program InitsFree (initial users) (tr ++ o.events)
        (LinkedState.pool (o.apply c t) L') ∧ Represents (tr ++ o.events) (o.apply c t) L' := by
  have stay : ∀ {links x'}, x'.point = x.point → Machine.Run program InitsFree (initial users) (tr ++ [])
      (LinkedState.pool ((⟨{ c.shared with links }, x', [], []⟩ : LinkedOut).apply c t) L) := by
    intro links x' hp
    rw [List.append_nil, pool_apply links hx hp]
    exact hrun
  have queue : ∀ {q}, x.point.spin = some q → ∃ wq, c.shared.pool.queues[q]? = some wq := fun hq =>
    ⟨_, List.getElem?_eq_getElem (spin_lt hrun hx hq)⟩
  have here : ∀ q, Elsewhere q [] c.shared.links c.shared.links := fun q =>
    ⟨fun _ _ => rfl, fun _ _ => rfl, fun _ _ => rfl⟩
  cases hs with
  | fault hf => exact absurd hf (h.not_faults hrun hx)
  | leave => exact (h.knows t _ hx).elim
  | @pool p ch' o hp ho =>
    have hthreads : List.map LinkedThread.point
        (c.threads.set t (.pool o.pc) ++ o.spawned.map LinkedThread.pool) =
          (c.threads.map LinkedThread.point).set t o.pc ++ o.spawned := by
      rw [List.map_append, List.map_set, List.map_map]
      exact congrArg _ (List.map_id _)
    have hpool : LinkedState.pool ((c.shared.after o).apply c t) L =
        (Out.relist L o).apply (c.pool L) t :=
      (Config.mk.injEq ..).mpr ⟨rfl, hthreads⟩
    have hrel := program_relist hp (h.beyond _ (Nat.le_refl _)) ho
    refine ⟨L, ?_, h.pool hrun hx hp ho⟩
    rw [hpool]
    exact hrun.append (.move (l := (t, ch')) hg.pool ⟨pool_thread hx, hrel⟩)
  | insert =>
    have hshow := h.shows hrun hx rfl rfl
    refine ⟨L, stay rfl, h.move hrun hx rfl (here _) nofun (fun _ _ => rfl) ?_ nofun trivial⟩
    rintro r todo ⟨⟩
    exact ⟨rfl, hshow.insertTail _⟩
  | inserting he =>
    obtain ⟨links, more, he', hrep⟩ := h.statement hrun hx rfl
    cases he.symm.trans he'
    exact ⟨L, stay rfl, hrep _ rfl rfl trivial⟩
  | @inserted k q w =>
    obtain ⟨wq, hq⟩ := queue rfl
    have hmid := h.inside t _ q [] hx rfl
    refine ⟨_, list_step hrun hx hg (program_insert ha hq), h.move hrun hx rfl (here q) nofun
      (fun r hr => Function.update_of_ne hr ..) nofun (fun _ => ?_) trivial⟩
    rw [Function.update_self]
    exact hmid.finish
  | @empty i j q hfirst =>
    obtain ⟨wq, hq⟩ := queue rfl
    have hshow := h.shows hrun hx rfl rfl
    have hl : L q = [] := List.head?_eq_none_iff.mp (hshow.first.symm.trans hfirst)
    have hlook := program_look (L := L) (t := t) (i := i) (j := j) ha hq
    rw [hl] at hlook
    refine ⟨_, list_step hrun hx hg hlook, h.move hrun hx rfl (here q) nofun
      (fun r hr => Function.update_of_ne hr ..) nofun (fun _ => ?_) trivial⟩
    rw [hl] at hshow
    rw [Function.update_self]
    exact hshow
  | @notEmpty i j q w hfirst =>
    have hshow := h.shows hrun hx rfl rfl
    refine ⟨L, stay rfl, h.move hrun hx rfl (here q) nofun (fun _ _ => rfl) nofun (fun _ => hshow) ?_⟩
    intro hl
    have hnull := hshow.first
    rw [hl] at hnull
    cases hfirst.symm.trans hnull
  | noFirst hfirst =>
    have hshow := h.shows hrun hx rfl rfl
    exact absurd (List.head?_eq_none_iff.mp (hshow.first.symm.trans hfirst)) (h.knows t _ hx)
  | @first i j q w hfirst =>
    have hshow := h.shows hrun hx rfl rfl
    have hhead : (L q).head? = some w := hshow.first.symm.trans hfirst
    refine ⟨L, stay rfl, h.move hrun hx rfl (here q) nofun (fun _ _ => rfl) ?_ nofun hhead⟩
    rintro r todo ⟨⟩
    have hcons : L q = w :: (L q).tail := (List.cons_head?_tail hhead).symm
    rw [hcons] at hshow
    have hmid := hshow.removeHead
    rw [← hcons] at hmid
    exact ⟨rfl, hmid⟩
  | removing he =>
    obtain ⟨links, more, he', hrep⟩ := h.statement hrun hx rfl
    cases he.symm.trans he'
    have hknows := h.knows t _ hx
    exact ⟨L, stay rfl, hrep _ rfl rfl hknows⟩
  | @removed i j q w =>
    obtain ⟨wq, hq⟩ := queue rfl
    have hmid := h.inside t _ q [] hx rfl
    have hhead : (L q).head? = some w := h.knows t _ hx
    have hlook := program_look (L := L) (t := t) (i := i) (j := j) ha hq
    rw [hhead] at hlook
    refine ⟨_, list_step hrun hx hg hlook, h.move hrun hx rfl (here q) nofun
      (fun r hr => Function.update_of_ne hr ..) nofun (fun _ => ?_) trivial⟩
    rw [Function.update_self]
    exact hmid.finish

/-- The run lemma: what the manager over linked lists does, the manager over sequences does, and the
links represent its lists. -/
theorem represents_run {links : TailMemory QId Work}
    (h : Machine.Run linkedProgram LinkedInitsFree (linkedInitial links users) tr c) :
    ∃ L, Machine.Run program InitsFree (initial users) tr (c.pool L) ∧ Represents tr c L := by
  refine h.invariant (fun tr c => ∃ L, Machine.Run program InitsFree (initial users) tr
    (LinkedState.pool c L) ∧ Represents tr c L) ⟨fun _ => [], ?_, represents_initial links users⟩ ?_
  · rw [pool_initial]
    exact .start
  · rintro tr c ⟨t, ch⟩ x o - ⟨L, hrun, hrep⟩ hg ⟨hx, ho⟩
    obtain ⟨-, ha, hs⟩ := linked_step ho
    exact hrep.step hrun hx hg ha hs

end PthreadWorkqueue.Windows
