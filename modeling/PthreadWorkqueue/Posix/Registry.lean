import PthreadWorkqueue.Posix.Locks

/-! The registries. A queue is entered once, in the slot of its priority and kind, and stays there;
every queue that a thread works on is registered. -/
namespace PthreadWorkqueue.Posix
open Concurrency

/-- The slot of a queue's priority and kind. -/
def Shared.slotOf (sh : Shared) (wq : Workq) : Option QId :=
  if wq.overcommit then sh.ocwq wq.queueprio else sh.wqlist wq.queueprio

/-- The queue is in its slot and knows its index. -/
structure Registered (sh : Shared) (q : QId) (wq : Workq) : Prop where
  here : sh.queues[q]? = some wq
  slot : sh.slotOf wq = some q
  index : wq.wqlistIndex = wq.queueprio
  bound : wq.queueprio < workqNumPrioqueue

/-- What the program point of a thread says about the queue it works on. -/
def Thread.queueOk (sh : Shared) : Thread → Prop
  | .call _ c => match c with
    | .check q _ _ | .alloc q _ _ | .handle q _ | .createUnlock q => ∃ wq, Registered sh q wq
    | .add q _ _ => ∃ wq, Registered sh q wq ∧ wq.overcommit = false
    | .ocAdd q _ _ => ∃ wq, Registered sh q wq ∧ wq.overcommit = true
    | .createAlloc attr => validAttr attr = true
    | _ => True
  | .worker _ (.scan _ p) => match p with
    | .lock q | .first q | .remove q _ | .clear q _ | .unlock q _ =>
      ∃ wq, Registered sh q wq ∧ wq.overcommit = false
    | _ => True
  | .manager _ (.stop _ _ p) => match p with
    | .spinLock _ q | .atomicOr _ q | .insert _ q | .spinUnlock q =>
      ∃ wq, Registered sh q wq ∧ wq.overcommit = false
    | _ => True
  | _ => True

structure Registry (c : PoolState) : Prop where
  slots : ∀ i q, c.shared.wqlist i = some q →
    ∃ wq, Registered c.shared q wq ∧ wq.overcommit = false ∧ wq.queueprio = i
  ocSlots : ∀ i q, c.shared.ocwq i = some q →
    ∃ wq, Registered c.shared q wq ∧ wq.overcommit = true ∧ wq.queueprio = i
  /-- A queue that is not registered yet is untouched. -/
  fresh : ∀ (q : QId) (wq : Workq), c.shared.queues[q]? = some wq →
    c.shared.slotOf wq = some q ∨ (wq.itemListhead = [] ∧ wq.mtx = none)
  bound : ∀ (q : QId) (wq : Workq), c.shared.queues[q]? = some wq → wq.queueprio < workqNumPrioqueue
  handles : ∀ q ∈ c.shared.handles, ∃ wq, Registered c.shared q wq
  threads : ∀ (t : Tid) (p : Thread), c.threads[t]? = some p → p.queueOk c.shared

/-- The parts of a queue that its creation fixes. -/
structure SameQueue (wq wq' : Workq) : Prop where
  queueprio : wq'.queueprio = wq.queueprio
  overcommit : wq'.overcommit = wq.overcommit
  index : wq'.wqlistIndex = wq.wqlistIndex ∨ wq'.wqlistIndex = wq.queueprio

/-- Registries and queues only grow. -/
structure Grows (sh sh' : Shared) : Prop where
  queues : ∀ (q : QId) (wq : Workq), sh.queues[q]? = some wq → ∃ wq', sh'.queues[q]? = some wq' ∧ SameQueue wq wq'
  wqlist : ∀ i q, sh.wqlist i = some q → sh'.wqlist i = some q
  ocwq : ∀ i q, sh.ocwq i = some q → sh'.ocwq i = some q

namespace Grows
variable {sh sh' : Shared} {q : QId} {wq wq' : Workq}

theorem of_eq (hq : sh'.queues = sh.queues) (hw : sh'.wqlist = sh.wqlist) (ho : sh'.ocwq = sh.ocwq) :
    Grows sh sh' :=
  ⟨fun _ wq h => ⟨wq, hq ▸ h, rfl, rfl, .inl rfl⟩, fun _ _ h => hw ▸ h, fun _ _ h => ho ▸ h⟩

theorem getElem?_set_same {l : List Workq} (hq : l[q]? = some wq) {r : QId} {w : Workq}
    (hs : SameQueue wq wq') (hr : l[r]? = some w) :
    ∃ w', (l.set q wq')[r]? = some w' ∧ SameQueue w w' := by
  obtain ⟨hl, _⟩ := List.getElem?_eq_some_iff.mp hq
  by_cases hqr : q = r
  · subst hqr
    rw [hq] at hr
    cases hr
    exact ⟨wq', List.getElem?_set_self hl, hs⟩
  · exact ⟨w, by rw [List.getElem?_set_ne hqr, hr], rfl, rfl, .inl rfl⟩

theorem of_set (hq : sh.queues[q]? = some wq) (hs : sh'.queues = sh.queues.set q wq')
    (hk : SameQueue wq wq') (hw : ∀ i r, sh.wqlist i = some r → sh'.wqlist i = some r)
    (ho : ∀ i r, sh.ocwq i = some r → sh'.ocwq i = some r) : Grows sh sh' :=
  ⟨fun r w hr => by rw [hs]; exact getElem?_set_same hq hk hr, hw, ho⟩

theorem slotOf (h : Grows sh sh') (hs : SameQueue wq wq') (hq : sh.slotOf wq = some q) :
    sh'.slotOf wq' = some q := by
  simp only [Shared.slotOf, hs.overcommit, hs.queueprio] at hq ⊢
  split
  · exact h.ocwq _ _ (by simpa [*] using hq)
  · exact h.wqlist _ _ (by simpa [*] using hq)

theorem registered (h : Grows sh sh') (hr : Registered sh q wq) :
    ∃ wq', Registered sh' q wq' ∧ SameQueue wq wq' := by
  obtain ⟨wq', hq', hs⟩ := h.queues q wq hr.here
  refine ⟨wq', ⟨hq', h.slotOf hs hr.slot, ?_, ?_⟩, hs⟩
  · rcases hs.index with hi | hi
    · rw [hi, hr.index, hs.queueprio]
    · rw [hi, hs.queueprio]
  · rw [hs.queueprio]
    exact hr.bound

theorem exists_registered (h : Grows sh sh') :
    (∃ wq, Registered sh q wq) → ∃ wq, Registered sh' q wq := by
  rintro ⟨wq, hr⟩
  obtain ⟨wq', hr', _⟩ := h.registered hr
  exact ⟨wq', hr'⟩

theorem exists_registered_kind (h : Grows sh sh') {b : Bool} :
    (∃ wq, Registered sh q wq ∧ wq.overcommit = b) → ∃ wq, Registered sh' q wq ∧ wq.overcommit = b := by
  rintro ⟨wq, hr, hb⟩
  obtain ⟨wq', hr', hs⟩ := h.registered hr
  exact ⟨wq', hr', hs.overcommit.trans hb⟩

theorem queueOk (h : Grows sh sh') {p : Thread} (hp : p.queueOk sh) : p.queueOk sh' := by
  cases p with
  | app | overcommit => trivial
  | call k c =>
    cases c <;> first
      | exact h.exists_registered hp
      | exact h.exists_registered_kind hp
      | exact hp
  | worker v p =>
    cases p <;> try exact hp
    rename_i k p
    cases p <;> first
      | exact h.exists_registered_kind hp
      | exact hp
  | manager v p =>
    cases p <;> try exact hp
    rename_i i m p
    cases p <;> first
      | exact h.exists_registered_kind hp
      | exact hp

end Grows

variable {S : Settings} {sh : Shared} {t : Tid} {p : Thread} {ch : Choice} {o : Out}

private theorem update_grows {f : Nat → Option QId} {j : Nat} {q : QId} (hj : f j = none) :
    ∀ i r, f i = some r → Function.update f j (some q) i = some r := by
  intro i r hi
  have : i ≠ j := by
    rintro rfl
    rw [hj] at hi
    cases hi
  rw [Function.update_of_ne this, hi]

theorem call_grows {k : Caller} {x : Call} (h : CallStep sh t k x ch o) : Grows sh o.shared := by
  cases h with
  | quiet hq | quietReturn hq => obtain ⟨_, _, _, _, rfl⟩ := hq; exact .of_eq rfl rfl rfl
  | createAlloc =>
    refine ⟨fun q wq hq => ⟨wq, ?_, rfl, rfl, .inl rfl⟩, fun _ _ h => h, fun _ _ h => h⟩
    obtain ⟨hl, _⟩ := List.getElem?_eq_some_iff.mp hq
    exact (List.getElem?_append_left hl).trans hq
  | register hq _ hn =>
    exact .of_set hq rfl ⟨rfl, rfl, .inr rfl⟩ (update_grows hn) (fun _ _ h => h)
  | ocRegister hq _ hn =>
    exact .of_set hq rfl ⟨rfl, rfl, .inr rfl⟩ (fun _ _ h => h) (update_grows hn)
  | spinLock hq | ocSpinLock hq | spinUnlock hq | ocSpinUnlock hq | insert hq | ocInsert hq =>
    exact .of_set hq rfl ⟨rfl, rfl, .inl rfl⟩ (fun _ _ h => h) (fun _ _ h => h)
  | _ => exact .of_eq rfl rfl rfl

theorem step_grows (h : Step S sh t p ch o) : Grows sh o.shared := by
  cases h with
  | app h => cases h <;> exact .of_eq rfl rfl rfl
  | call h => exact call_grows h
  | worker h =>
    cases h with
    | lock hq | remove hq | removeLast hq | unlock hq =>
      exact .of_set hq rfl ⟨rfl, rfl, .inl rfl⟩ (fun _ _ h => h) (fun _ _ h => h)
    | exitFree | free => exact .of_eq (by simp) (by simp) (by simp)
    | _ => exact .of_eq rfl rfl rfl
  | overcommit h =>
    cases h with
    | dequeue _ _ hq | dequeueLast _ _ hq =>
      exact .of_set hq rfl ⟨rfl, rfl, .inl rfl⟩ (fun _ _ h => h) (fun _ _ h => h)
    | free => exact .of_eq (by simp) (by simp) (by simp)
    | _ => exact .of_eq rfl rfl rfl
  | manager h =>
    cases h with
    | plain hq => obtain ⟨_, _, _, _, rfl⟩ := hq; exact .of_eq rfl rfl rfl
    | spinLock hq | insert hq | spinUnlock hq =>
      exact .of_set hq rfl ⟨rfl, rfl, .inl rfl⟩ (fun _ _ h => h) (fun _ _ h => h)
    | _ => exact .of_eq rfl rfl rfl

variable {c : PoolState}

/-- The registries after a step that enters only queues that are then registered. -/
theorem Registry.apply (hr : Registry c) (hp : c.threads[t]? = some p) (hg : Grows c.shared o.shared)
    (slots : ∀ i q, o.shared.wqlist i = some q → c.shared.wqlist i = some q ∨
      ∃ wq, Registered o.shared q wq ∧ wq.overcommit = false ∧ wq.queueprio = i)
    (ocSlots : ∀ i q, o.shared.ocwq i = some q → c.shared.ocwq i = some q ∨
      ∃ wq, Registered o.shared q wq ∧ wq.overcommit = true ∧ wq.queueprio = i)
    (queues : ∀ (q : QId) (wq : Workq), o.shared.queues[q]? = some wq →
      c.shared.queues[q]? = some wq ∨ Registered o.shared q wq ∨
        (wq.itemListhead = [] ∧ wq.mtx = none ∧ wq.queueprio < workqNumPrioqueue))
    (handles : ∀ q ∈ o.shared.handles, q ∈ c.shared.handles ∨ ∃ wq, Registered o.shared q wq)
    (self : o.pc.queueOk o.shared) (spawned : ∀ r ∈ o.spawned, r.queueOk o.shared) :
    Registry (o.apply c t) where
  slots i q hi := by
    rcases slots i q hi with h | h
    · obtain ⟨wq, hq, hk, hi⟩ := hr.slots i q h
      obtain ⟨wq', hq', hs⟩ := hg.registered hq
      exact ⟨wq', hq', hs.overcommit.trans hk, hs.queueprio.trans hi⟩
    · exact h
  ocSlots i q hi := by
    rcases ocSlots i q hi with h | h
    · obtain ⟨wq, hq, hk, hi⟩ := hr.ocSlots i q h
      obtain ⟨wq', hq', hs⟩ := hg.registered hq
      exact ⟨wq', hq', hs.overcommit.trans hk, hs.queueprio.trans hi⟩
    · exact h
  fresh q wq hq := by
    rcases queues q wq hq with h | h | h
    · rcases hr.fresh q wq h with h | h
      · exact .inl (hg.slotOf ⟨rfl, rfl, .inl rfl⟩ h)
      · exact .inr h
    · exact .inl h.slot
    · exact .inr ⟨h.1, h.2.1⟩
  bound q wq hq := by
    rcases queues q wq hq with h | h | h
    · exact hr.bound q wq h
    · exact h.bound
    · exact h.2.2
  handles q hq := by
    rcases handles q hq with h | h
    · exact hg.exists_registered (hr.handles q h)
    · exact h
  threads := Outcome.forall_apply hr.threads hp (fun _ => self)
    (fun _ _ _ _ h => hg.queueOk h) (fun _ => spawned)

/-- A step that changes no queue and enters none. -/
private theorem Registry.same (hr : Registry c) (hp : c.threads[t]? = some p)
    (hq : o.shared.queues = c.shared.queues) (hw : o.shared.wqlist = c.shared.wqlist)
    (ho : o.shared.ocwq = c.shared.ocwq) (hh : o.shared.handles = c.shared.handles)
    (self : o.pc.queueOk c.shared) (spawned : ∀ r ∈ o.spawned, r.queueOk c.shared) :
    Registry (o.apply c t) :=
  have hg : Grows c.shared o.shared := .of_eq hq hw ho
  hr.apply hp hg (fun _ _ h => .inl (hw ▸ h)) (fun _ _ h => .inl (ho ▸ h))
    (fun _ _ h => .inl (hq ▸ h)) (fun _ h => .inl (hh ▸ h)) (hg.queueOk self)
    (fun r h => hg.queueOk (spawned r h))

/-- A step on the items or the lock of one registered queue. -/
private theorem Registry.touch (hr : Registry c) (hp : c.threads[t]? = some p) {q : QId}
    {wq wq' : Workq} {b : Bool} (hq : c.shared.queues[q]? = some wq)
    (hb : ∃ wq, Registered c.shared q wq ∧ wq.overcommit = b)
    (hs : o.shared.queues = c.shared.queues.set q wq') (hk : SameQueue wq wq')
    (hw : o.shared.wqlist = c.shared.wqlist) (ho : o.shared.ocwq = c.shared.ocwq)
    (hh : o.shared.handles = c.shared.handles) (self : o.pc.queueOk c.shared)
    (spawned : o.spawned = []) : Registry (o.apply c t) := by
  have hg : Grows c.shared o.shared := .of_set hq hs hk (fun _ _ h => hw ▸ h) (fun _ _ h => ho ▸ h)
  obtain ⟨w, hreg, _⟩ := hb
  have hl := (List.getElem?_eq_some_iff.mp hq).1
  refine hr.apply hp hg (fun _ _ h => .inl (hw ▸ h)) (fun _ _ h => .inl (ho ▸ h)) ?_
    (fun _ h => .inl (hh ▸ h)) (hg.queueOk self) (by simp [spawned])
  intro r w' hr'
  by_cases hqr : q = r
  · subst hqr
    obtain ⟨w'', hreg', _⟩ := hg.registered hreg
    have := hreg'.here
    rw [hr'] at this
    cases this
    exact .inr (.inl hreg')
  · rw [hs, List.getElem?_set_ne hqr] at hr'
    exact .inl hr'

/-- The queue is entered in its slot. -/
private theorem Registry.enter (hr : Registry c) (hp : c.threads[t]? = some p) {q : QId}
    {wq : Workq} (hq : c.shared.queues[q]? = some wq)
    (hs : o.shared.queues = c.shared.queues.set q { wq with wqlistIndex := wq.queueprio })
    (hsl : o.shared.slotOf wq = some q) (hg : Grows c.shared o.shared)
    (hw : ∀ i r, o.shared.wqlist i = some r → c.shared.wqlist i = some r ∨
      (r = q ∧ i = wq.queueprio ∧ wq.overcommit = false))
    (ho : ∀ i r, o.shared.ocwq i = some r → c.shared.ocwq i = some r ∨
      (r = q ∧ i = wq.queueprio ∧ wq.overcommit = true))
    (hh : o.shared.handles = c.shared.handles) {k : Caller}
    (hpc : o.pc = .call k (.createUnlock q)) (fresh : o.spawned = []) : Registry (o.apply c t) := by
  have hl := (List.getElem?_eq_some_iff.mp hq).1
  have hreg : Registered o.shared q { wq with wqlistIndex := wq.queueprio } :=
    ⟨by rw [hs, List.getElem?_set_self hl], hsl, rfl, hr.bound q wq hq⟩
  refine hr.apply hp hg ?_ ?_ ?_ (fun _ h => .inl (hh ▸ h)) (by rw [hpc]; exact ⟨_, hreg⟩)
    (by simp [fresh])
  · intro i r hi
    refine (hw i r hi).imp id ?_
    rintro ⟨rfl, rfl, hk⟩
    exact ⟨_, hreg, hk, rfl⟩
  · intro i r hi
    refine (ho i r hi).imp id ?_
    rintro ⟨rfl, rfl, hk⟩
    exact ⟨_, hreg, hk, rfl⟩
  · intro r w hw
    by_cases hqr : q = r
    · subst hqr
      rw [hreg.here] at hw
      cases hw
      exact .inr (.inl hreg)
    · rw [hs, List.getElem?_set_ne hqr] at hw
      exact .inl hw

private theorem update_cases {f : Nat → Option QId} {i j : Nat} {q r : QId}
    (h : Function.update f j (some q) i = some r) : f i = some r ∨ (r = q ∧ i = j) := by
  by_cases hij : i = j
  · subst hij
    rw [Function.update_self] at h
    cases h
    exact .inr ⟨rfl, rfl⟩
  · rw [Function.update_of_ne hij] at h
    exact .inl h

theorem ManagerPc.between_queueOk {v : ManagerVars} {p : ManagerPc} (h : p.between = true) :
    (Thread.manager v p).queueOk sh := by
  cases p <;> first | trivial | (simp only [between, beq_iff_eq] at h; subst h; trivial)

theorem Call.plain_queueOk {k : Caller} {c : Call} (h : c.plain = true) :
    (Thread.call k c).queueOk sh := by
  cases c <;> first | cases h; done | trivial

private theorem call_registry {k : Caller} {x : Call} (hr : Registry c)
    (hp : c.threads[t]? = some (.call k x)) (h : CallStep c.shared t k x ch o)
    (fresh : ∀ r ∈ o.spawned, r.queueOk c.shared) : Registry (o.apply c t) := by
  have ok := hr.threads t _ hp
  have hg := call_grows h
  cases h with
  | quiet hq _ hc' =>
    obtain ⟨_, _, _, _, rfl⟩ := hq
    exact hr.same hp rfl rfl rfl rfl (Call.plain_queueOk hc') fresh
  | quietReturn hq =>
    obtain ⟨_, _, _, _, rfl⟩ := hq
    exact hr.same hp rfl rfl rfl rfl trivial fresh
  | handle hq hk =>
    obtain ⟨wq, hreg⟩ := ok
    have := hreg.here
    rw [hq] at this
    cases this
    exact hr.same hp rfl rfl rfl rfl ⟨_, hreg, hk⟩ fresh
  | ocHandle hq hk =>
    obtain ⟨wq, hreg⟩ := ok
    have := hreg.here
    rw [hq] at this
    cases this
    exact hr.same hp rfl rfl rfl rfl ⟨_, hreg, hk⟩ fresh
  | spinLock hq | spinUnlock hq | insert hq | ocSpinLock hq | ocSpinUnlock hq | ocInsert hq =>
    exact hr.touch hp hq ok rfl ⟨rfl, rfl, .inl rfl⟩ rfl rfl rfl ok rfl
  | createCheck hv => exact hr.same hp rfl rfl rfl rfl hv fresh
  | managerStart => exact hr.same hp rfl rfl rfl rfl trivial fresh
  | ocCreate => exact hr.same hp rfl rfl rfl rfl ok fresh
  | createAlloc =>
    refine hr.apply hp hg
      (fun _ _ h => .inl h) (fun _ _ h => .inl h) ?_ (fun _ h => .inl h) trivial (by simp)
    intro q wq hq
    simp only [List.getElem?_append] at hq
    split at hq
    · exact .inl hq
    · obtain rfl := List.mem_singleton.mp (List.mem_of_getElem? hq)
      exact .inr (.inr ⟨rfl, rfl, newWorkq_bound ok⟩)
  | register hq hk hn =>
    refine hr.enter hp hq rfl ?_ hg
      ?_ (fun _ _ h => .inl h) rfl rfl rfl
    · simp [Shared.slotOf, hk]
    · intro i r h
      exact (update_cases h).imp id fun h => ⟨h.1, h.2, hk⟩
  | ocRegister hq hk hn =>
    refine hr.enter hp hq rfl ?_ hg
      (fun _ _ h => .inl h) ?_ rfl rfl rfl
    · simp [Shared.slotOf, hk]
    · intro i r h
      exact (update_cases h).imp id fun h => ⟨h.1, h.2, hk⟩
  | createUnlock =>
    refine hr.apply hp hg (fun _ _ h => .inl h) (fun _ _ h => .inl h) (fun _ _ h => .inl h) ?_
      trivial (by simp)
    intro r hr
    rcases List.mem_append.mp hr with h | h
    · exact .inl h
    · obtain rfl := List.mem_singleton.mp h
      exact .inr (hg.exists_registered ok)
  | _ => exact hr.same hp rfl rfl rfl rfl (by first | exact ok | trivial) fresh

private theorem worker_registry {v : WorkerVars} {x : WorkerPc} (hr : Registry c)
    (hp : c.threads[t]? = some (.worker v x)) (h : WorkerStep S c.shared t v x ch o)
    (fresh : ∀ r ∈ o.spawned, r.queueOk c.shared) : Registry (o.apply c t) := by
  have ok := hr.threads t _ hp
  cases h with
  | nothing => exact hr.same hp rfl rfl rfl rfl (by rename_i k _; cases k <;> trivial) fresh
  | readSlot hs =>
    obtain ⟨wq, hreg, hk, _⟩ := hr.slots _ _ hs
    exact hr.same hp rfl rfl rfl rfl ⟨wq, hreg, hk⟩ fresh
  | lock hq | remove hq | removeLast hq =>
    exact hr.touch hp hq ok rfl ⟨rfl, rfl, .inl rfl⟩ rfl rfl rfl ok rfl
  | unlock hq =>
    exact hr.touch hp hq ok rfl ⟨rfl, rfl, .inl rfl⟩ rfl rfl rfl
      (by rename_i k _ _ r; cases k <;> cases r <;> trivial) rfl
  | clear _ hx => subst hx; split <;> exact hr.same hp rfl rfl rfl rfl ok fresh
  | exitFree | free =>
    exact hr.same hp (by simp) (by simp) (by simp) (by simp) trivial fresh
  | _ => exact hr.same hp rfl rfl rfl rfl ok fresh

private theorem manager_registry {v : ManagerVars} {x : ManagerPc} (hr : Registry c)
    (hp : c.threads[t]? = some (.manager v x)) (h : ManagerStep S c.shared t v x ch o)
    (fresh : ∀ r ∈ o.spawned, r.queueOk c.shared) : Registry (o.apply c t) := by
  have ok := hr.threads t _ hp
  cases h with
  | plain hq _ hb =>
    obtain ⟨_, _, _, _, rfl⟩ := hq
    exact hr.same hp rfl rfl rfl rfl (ManagerPc.between_queueOk hb) fresh
  | created =>
    exact hr.same hp rfl rfl rfl rfl (ManagerPc.between_queueOk (startReturn_between _)) fresh
  | decCount => exact hr.same hp rfl rfl rfl rfl (ManagerPc.between_queueOk (startReturn_between _)) fresh
  | unlockMtx => exact hr.same hp rfl rfl rfl rfl (ManagerPc.between_queueOk (stopLoop_between _ _)) fresh
  | find _ hs =>
    obtain ⟨wq, hreg, hk, _⟩ := hr.slots _ _ hs
    exact hr.same hp rfl rfl rfl rfl ⟨wq, hreg, hk⟩ fresh
  | spinLock hq | insert hq | spinUnlock hq =>
    exact hr.touch hp hq ok rfl ⟨rfl, rfl, .inl rfl⟩ rfl rfl rfl (by first | exact ok | trivial) rfl
  | atomicOr _ hx => subst hx; split <;> exact hr.same hp rfl rfl rfl rfl ok fresh
  | _ => exact hr.same hp rfl rfl rfl rfl ok fresh

theorem Registry.step (hr : Registry c) (hp : c.threads[t]? = some p)
    (h : Step S c.shared t p ch o) : Registry (o.apply c t) := by
  have fresh : ∀ r ∈ o.spawned, r.queueOk c.shared := h.fresh trivial trivial trivial
  cases h with
  | app h =>
    cases h with
    | additem hq => exact hr.same hp rfl rfl rfl rfl (hr.handles _ hq) fresh
    | _ => exact hr.same hp rfl rfl rfl rfl trivial fresh
  | call h => exact call_registry hr hp h fresh
  | worker h => exact worker_registry hr hp h fresh
  | manager h => exact manager_registry hr hp h fresh
  | overcommit h =>
    cases h with
    | dequeue _ hs hq | dequeueLast _ hs hq =>
      obtain ⟨wq, hreg, hk, _⟩ := hr.ocSlots _ _ hs
      exact hr.touch hp hq ⟨wq, hreg, hk⟩ rfl ⟨rfl, rfl, .inl rfl⟩ rfl rfl rfl trivial rfl
    | free =>
      exact hr.same hp (by simp) (by simp) (by simp) (by simp) trivial fresh
    | _ => exact hr.same hp rfl rfl rfl rfl trivial fresh

theorem registry_initial (users managers : Nat) : Registry (initial users managers) where
  slots _ _ h := by cases h
  ocSlots _ _ h := by cases h
  fresh _ _ h := by simp [initial, managerInit] at h
  bound _ _ h := by simp [initial, managerInit] at h
  handles _ h := by cases h
  threads _ _ h := by obtain rfl | rfl := initial_threads h <;> trivial

/-- In every reachable state the registries are sound. -/
theorem registry {G : PoolState → Nat × Choice → Prop} {users managers : Nat} {tr : List Event}
    (h : Machine.Run (program S) G (initial users managers) tr c) : Registry c :=
  h.invariant (fun _ c => Registry c) (registry_initial _ _)
    (fun _ _ _ _ _ _ hr _ hm => hr.step hm.here (program_step hm.next).2)

end PthreadWorkqueue.Posix
