import PthreadWorkqueue.Posix.Items

/-! The mask of the overcommit pool. Every change of it is made under `ocwq_mtx`. -/
namespace PthreadWorkqueue.Posix
open Concurrency

/-- A producer has inserted into the queue and is about to set the bit. -/
def Thread.announces (q : QId) : Thread → Bool
  | .call _ (.ocAdd r _ p) => match p with
    | .spinUnlock | .decide => q == r
    | _ => false
  | _ => false

/-- The bit of an overcommit queue follows its items, except while a producer has inserted and is
about to set the bit. -/
structure OcMasks (c : PoolState) : Prop where
  unregistered : ∀ i, c.shared.ocwq i = none → c.shared.ocwqMask.getLsbD i = false
  full : ∀ (t : Tid) (p : Thread) (q : QId), c.threads[t]? = some p → p.announces q = true →
    c.shared.items q ≠ []
  follows : ∀ i q, c.shared.ocwq i = some q →
    (∀ (t : Tid) (p : Thread), c.threads[t]? = some p → p.announces q = false) →
    Pending (c.shared.ocwqMask.getLsbD i) (c.shared.items q)

variable {S : Settings} {sh : Shared} {t : Tid} {p : Thread} {ch : Choice} {o : Out}
  {c : PoolState} {q : QId} {wq wq' : Workq}

theorem Thread.announces_holds (h : p.announces q = true) : p.holdsOcMtx = true := by
  cases p with
  | call k x =>
    cases x with
    | ocAdd r w x => cases x <;> first | rfl | cases h
    | _ => cases h
  | _ => cases h

/-- The place of an overcommit queue in the mask. -/
theorem Registered.ocPlace (hq : sh.queues[q]? = some wq)
    (h : ∃ wq, Registered sh q wq ∧ wq.overcommit = true) :
    sh.ocwq wq.wqlistIndex = some q ∧ wq.wqlistIndex < 32 ∧ wq.overcommit = true := by
  obtain ⟨wq₁, hr, hk⟩ := h
  have he := hr.here
  rw [hq] at he
  cases he
  have hs := hr.slot
  have hb := hr.bound
  simp only [Shared.slotOf, hk, if_true] at hs
  simp only [workqNumPrioqueue] at hb
  exact ⟨by rw [hr.index, hs], by rw [hr.index]; omega, hk⟩

theorem Shared.kind_regular (hq : sh.queues[q]? = some wq)
    (h : ∃ wq, Registered sh q wq ∧ wq.overcommit = false) : sh.kind q = false :=
  (Shared.kind_eq hq).trans (Registered.place hq h).2.2

theorem Shared.kind_overcommit (hq : sh.queues[q]? = some wq)
    (h : ∃ wq, Registered sh q wq ∧ wq.overcommit = true) : sh.kind q = true :=
  (Shared.kind_eq hq).trans (Registered.ocPlace hq h).2.2

theorem Registry.ocIndex_eq (hr : Registry c) {i : Nat} (hi : c.shared.ocwq i = some q)
    (hq : c.shared.queues[q]? = some wq) : i = wq.wqlistIndex ∧ i = wq.queueprio := by
  obtain ⟨wq₁, hreg, _, rfl⟩ := hr.ocSlots i q hi
  have he := hreg.here
  rw [hq] at he
  cases he
  exact ⟨hreg.index.symm, rfl⟩

theorem Registry.regular_ne (hr : Registry c) {i : Nat} {r : QId} (hi : c.shared.ocwq i = some r)
    (h : ∃ wq, Registered c.shared q wq ∧ wq.overcommit = false) : q ≠ r := by
  rintro rfl
  obtain ⟨wq₁, h₁, hk₁, _⟩ := hr.ocSlots i q hi
  obtain ⟨wq₂, h₂, hk₂⟩ := h
  have he := h₁.here
  rw [h₂.here] at he
  cases he
  rw [hk₁] at hk₂
  cases hk₂

theorem Registry.announces_slot (hr : Registry c) (hp : c.threads[t]? = some p)
    (ha : p.announces q = true) : ∃ i, c.shared.ocwq i = some q := by
  cases p with
  | call k x =>
    cases x with
    | ocAdd r w x =>
      obtain rfl : q = r := by cases x <;> simp_all [Thread.announces]
      obtain ⟨wq, hreg, hk⟩ := hr.threads t _ hp
      exact ⟨_, (Registered.ocPlace hreg.here ⟨wq, hreg, hk⟩).1⟩
    | _ => cases ha
  | _ => cases ha

/-- Two threads inside a critical section of `ocwq_mtx` are one. -/
theorem Disciplined.ocUnique (hd : Disciplined c) {u : Tid} {r : Thread}
    (hp : c.threads[t]? = some p) (ht : p.holdsOcMtx = true) (hu : c.threads[u]? = some r)
    (hr : r.holdsOcMtx = true) : u = t := by
  have h₁ := (hd.ocMtx.at hp).mpr ht
  have h₂ := (hd.ocMtx.at hu).mpr hr
  rw [h₁] at h₂
  exact (Option.some.inj h₂).symm

namespace OcMasks

/-- While a thread holds `ocwq_mtx`, every queue that it does not announce has a bit that follows
its items. -/
theorem quiet (hm : OcMasks c) (hd : Disciplined c) (hp : c.threads[t]? = some p)
    (own : p.holdsOcMtx = true) (hn : p.announces q = false) {i : Nat}
    (hi : c.shared.ocwq i = some q) :
    Pending (c.shared.ocwqMask.getLsbD i) (c.shared.items q) := by
  refine hm.follows i q hi fun u x hu => ?_
  cases hx : x.announces q with
  | false => rfl
  | true =>
    obtain rfl := hd.ocUnique hp own hu (Thread.announces_holds hx)
    rw [hp] at hu
    cases hu
    rw [← hn, ← hx]

/-- A step that touches neither the mask nor the items of an overcommit queue. -/
private theorem same (hm : OcMasks c) (hr : Registry c) (hp : c.threads[t]? = some p)
    (hb : o.shared.ocwqMask = c.shared.ocwqMask) (hw : o.shared.ocwq = c.shared.ocwq)
    (hq : ∀ i r, c.shared.ocwq i = some r → o.shared.items r = c.shared.items r)
    (self : ∀ r, o.pc.announces r = p.announces r)
    (fresh : ∀ x ∈ o.spawned, ∀ r, x.announces r = false) : OcMasks (o.apply c t) where
  unregistered i hi := by
    change o.shared.ocwqMask.getLsbD i = false
    rw [hb]
    exact hm.unregistered i (hw ▸ hi)
  full u x r hu hx := by
    change o.shared.items r ≠ []
    obtain ⟨rfl, rfl⟩ | ⟨_, hu⟩ | ⟨_, hu⟩ := Outcome.get_cases hp hu
    · rw [self r] at hx
      obtain ⟨i, hi⟩ := hr.announces_slot hp hx
      rw [hq i r hi]
      exact hm.full _ p r hp hx
    · obtain ⟨i, hi⟩ := hr.announces_slot hu hx
      rw [hq i r hi]
      exact hm.full u x r hu hx
    · rw [fresh x hu r] at hx
      cases hx
  follows i r hi hn := by
    change Pending (o.shared.ocwqMask.getLsbD i) (o.shared.items r)
    have hi' : c.shared.ocwq i = some r := hw ▸ hi
    rw [hb, hq i r hi']
    exact hm.follows i r hi' (Outcome.forall_before hp (fun hx => self r ▸ hx) hn)

/-- A step of the holder of `ocwq_mtx` on one overcommit queue and its bit. -/
private theorem touch (hm : OcMasks c) (hd : Disciplined c) (hr : Registry c)
    (hp : c.threads[t]? = some p) {j : Nat} (place : c.shared.ocwq j = some q)
    (own : p.holdsOcMtx = true) (hw : o.shared.ocwq = c.shared.ocwq)
    (hs : ∀ r, q ≠ r → o.shared.items r = c.shared.items r)
    (hb : ∀ i, i ≠ j → o.shared.ocwqMask.getLsbD i = c.shared.ocwqMask.getLsbD i)
    (only : ∀ r, q ≠ r → p.announces r = false)
    (fresh : ∀ x ∈ o.spawned, ∀ r, x.announces r = false)
    (full : ∀ r, o.pc.announces r = true → o.shared.items r ≠ [])
    (self : o.pc.announces q = false →
      Pending (o.shared.ocwqMask.getLsbD j) (o.shared.items q)) : OcMasks (o.apply c t) := by
  refine ⟨fun i hi => ?_, fun u x r hu hx => ?_, fun i r hi hn => ?_⟩
  · have hi' : c.shared.ocwq i = none := hw ▸ hi
    change o.shared.ocwqMask.getLsbD i = false
    rw [hb i (by rintro rfl; rw [place] at hi'; cases hi')]
    exact hm.unregistered i hi'
  · obtain ⟨rfl, rfl⟩ | ⟨hut, hu⟩ | ⟨_, hu⟩ := Outcome.get_cases hp hu
    · exact full r hx
    · -- no other producer is inside the section
      exact absurd (hd.ocUnique hp own hu (Thread.announces_holds hx)) hut
    · rw [fresh x hu r] at hx
      cases hx
  · have hi' : c.shared.ocwq i = some r := hw ▸ hi
    change Pending (o.shared.ocwqMask.getLsbD i) (o.shared.items r)
    by_cases hrq : r = q
    · subst hrq
      obtain ⟨wq, hreg, _, rfl⟩ := hr.ocSlots i r hi'
      obtain rfl := (hr.ocIndex_eq place hreg.here).2
      exact self (hn t o.pc (Outcome.get_self hp))
    · have hne : i ≠ j := by
        rintro rfl
        rw [place] at hi'
        cases hi'
        exact hrq rfl
      rw [hs r (Ne.symm hrq), hb i hne]
      exact hm.quiet hd hp own (only r (Ne.symm hrq)) hi'

/-- The producer sets the bit of the queue that it has filled. -/
private theorem announce (hm : OcMasks c) (hd : Disciplined c) (hr : Registry c) {k : Caller}
    {w : Work} (hp : c.threads[t]? = some (.call k (.ocAdd q w .decide)))
    (hq : c.shared.queues[q]? = some wq)
    (hreg : ∃ wq, Registered c.shared q wq ∧ wq.overcommit = true)
    (hw : o.shared.ocwq = c.shared.ocwq)
    (hb : o.shared.ocwqMask = c.shared.ocwqMask ||| indexBit wq.wqlistIndex)
    (hs : o.shared.queues = c.shared.queues) (self : ∀ r, o.pc.announces r = false)
    (fresh : ∀ x ∈ o.spawned, ∀ r, x.announces r = false) : OcMasks (o.apply c t) := by
  obtain ⟨place, hi, _⟩ := Registered.ocPlace hq hreg
  have items : ∀ r, o.shared.items r = c.shared.items r := fun r => by
    rw [Shared.items, hs]
    rfl
  refine hm.touch hd hr hp place rfl hw (fun r _ => items r) (fun i hne => ?_) (fun r hne => ?_)
    fresh (fun r h => ?_) (fun _ => ?_)
  · simp [hb, getLsbD_or_indexBit hi, hne]
  · simp [Thread.announces, Ne.symm hne]
  · rw [self r] at h
    cases h
  · have hne := hm.full t _ q hp (by simp [Thread.announces])
    simp [Pending, hb, getLsbD_or_indexBit hi, items q, hne]

/-- A step on the items or the lock of a queue of the other pool. -/
private theorem regular (hm : OcMasks c) (hr : Registry c) (hp : c.threads[t]? = some p)
    (hq : c.shared.queues[q]? = some wq)
    (hreg : ∃ wq, Registered c.shared q wq ∧ wq.overcommit = false)
    (hb : o.shared.ocwqMask = c.shared.ocwqMask) (hw : o.shared.ocwq = c.shared.ocwq)
    (hs : o.shared.queues = c.shared.queues.set q wq')
    (self : ∀ r, o.pc.announces r = p.announces r) (fresh : o.spawned = []) :
    OcMasks (o.apply c t) := by
  refine hm.same hr hp hb hw (fun i r hi => ?_) self (by simp [fresh])
  rw [Shared.items_set hq hs, if_neg (hr.regular_ne hi hreg)]

/-- A step that keeps the items of the queue it writes. -/
private theorem keep (hm : OcMasks c) (hr : Registry c) (hp : c.threads[t]? = some p)
    (hq : c.shared.queues[q]? = some wq) (hb : o.shared.ocwqMask = c.shared.ocwqMask)
    (hw : o.shared.ocwq = c.shared.ocwq) (hs : o.shared.queues = c.shared.queues.set q wq')
    (hl : wq'.itemListhead = wq.itemListhead) (self : ∀ r, o.pc.announces r = p.announces r)
    (fresh : o.spawned = []) : OcMasks (o.apply c t) :=
  hm.same hr hp hb hw (fun _ r _ => Shared.items_set_same hq hs hl r) self (by simp [fresh])

/-- A new queue is entered in an empty slot. -/
private theorem register (hm : OcMasks c) (hr : Registry c) (hp : c.threads[t]? = some p)
    (hq : c.shared.queues[q]? = some wq) (hk : wq.overcommit = true)
    (hn : c.shared.ocwq wq.queueprio = none) (hb : o.shared.ocwqMask = c.shared.ocwqMask)
    (hs : o.shared.queues = c.shared.queues.set q { wq with wqlistIndex := wq.queueprio })
    (hw : o.shared.ocwq = Function.update c.shared.ocwq wq.queueprio (some q))
    (self : ∀ r, o.pc.announces r = false) (selfBefore : ∀ r, p.announces r = false)
    (fresh : o.spawned = []) : OcMasks (o.apply c t) := by
  have hempty : wq.itemListhead = [] := by
    rcases hr.fresh q wq hq with h | h
    · simp [Shared.slotOf, hk, hn] at h
    · exact h.1
  have items := Shared.items_set_same hq hs rfl
  refine ⟨fun i hi => ?_, fun u x r hu hx => ?_, fun i r hi none => ?_⟩
  · change o.shared.ocwq i = none at hi
    change o.shared.ocwqMask.getLsbD i = false
    rw [hw] at hi
    rw [hb]
    refine hm.unregistered i ?_
    by_cases hip : i = wq.queueprio
    · rw [hip, hn]
    · rwa [Function.update_of_ne hip] at hi
  · change o.shared.items r ≠ []
    rw [items r]
    obtain ⟨rfl, rfl⟩ | ⟨_, hu⟩ | ⟨_, hu⟩ := Outcome.get_cases hp hu
    · rw [self r] at hx
      cases hx
    · exact hm.full u x r hu hx
    · simp [fresh] at hu
  · change o.shared.ocwq i = some r at hi
    change Pending (o.shared.ocwqMask.getLsbD i) (o.shared.items r)
    rw [hw] at hi
    rw [hb, items r]
    by_cases hip : i = wq.queueprio
    · subst hip
      rw [Function.update_self] at hi
      cases hi
      rw [hm.unregistered _ hn, Shared.items_eq hq, hempty]
      simp [Pending]
    · rw [Function.update_of_ne hip] at hi
      exact hm.follows i r hi (Outcome.forall_before hp (fun _ => selfBefore r) none)

end OcMasks

private theorem Call.plain_announces {k : Caller} {x : Call} (h : x.plain = true) (r : QId) :
    (Thread.call k x).announces r = false := by
  cases x <;> first | rfl | cases h

private theorem call_ocMasks {k : Caller} {x : Call} (hm : OcMasks c) (hd : Disciplined c)
    (hr : Registry c) (hp : c.threads[t]? = some (.call k x)) (h : CallStep c.shared t k x ch o)
    (fresh : ∀ x ∈ o.spawned, ∀ r, x.announces r = false) : OcMasks (o.apply c t) := by
  have ok := hr.threads t _ hp
  cases h with
  | quiet hq hc hc' =>
    obtain ⟨_, _, _, _, rfl⟩ := hq
    exact hm.same hr hp rfl rfl (fun _ _ _ => rfl)
      (fun r => (Call.plain_announces hc' r).trans (Call.plain_announces hc r).symm) fresh
  | quietReturn hq hc =>
    obtain ⟨_, _, _, _, rfl⟩ := hq
    exact hm.same hr hp rfl rfl (fun _ _ _ => rfl) (fun r => (Call.plain_announces hc r).symm) fresh
  | error hc =>
    exact hm.same hr hp rfl rfl (fun _ _ _ => rfl) (fun r => (Call.plain_announces hc r).symm) fresh
  | spinLock hq | insert hq | spinUnlock hq =>
    exact hm.regular hr hp hq ok rfl rfl rfl (fun _ => rfl) rfl
  | ocSpinLock hq | ocSpinUnlock hq => exact hm.keep hr hp hq rfl rfl rfl rfl (fun _ => rfl) rfl
  | ocInsert hq =>
    refine hm.touch hd hr hp (Registered.ocPlace hq ok).1 rfl rfl (fun r hr => ?_) (fun _ _ => rfl)
      (fun _ _ => rfl) (by simp) (fun r h => ?_) (by simp [Thread.announces])
    · rw [Shared.items_set hq rfl, if_neg hr]
    · obtain rfl : r = _ := by simpa [Thread.announces] using h
      rw [Shared.items_set hq rfl, if_pos rfl]
      simp
  | ocSignal hq | ocCreateFailed hq =>
    exact hm.announce hd hr hp hq ok rfl rfl rfl (fun _ => rfl) fresh
  | ocCreate hq =>
    exact hm.announce hd hr hp hq ok rfl rfl rfl (fun _ => rfl) fresh
  | createAlloc =>
    refine hm.same hr hp rfl rfl (fun i r hi => ?_) (fun _ => rfl) fresh
    obtain ⟨wq, hreg, _⟩ := hr.ocSlots i r hi
    unfold Shared.items
    rw [List.getElem?_append_left (List.getElem?_eq_some_iff.mp hreg.here).1]
  | managerStart =>
    exact hm.same hr hp rfl rfl (fun _ _ _ => rfl) (fun _ => rfl) fresh
  | register hq => exact hm.keep hr hp hq rfl rfl rfl rfl (fun _ => rfl) rfl
  | ocRegister hq hk hn =>
    exact hm.register hr hp hq hk hn rfl rfl rfl (fun _ => rfl) (fun _ => rfl) rfl
  | _ => exact hm.same hr hp rfl rfl (fun _ _ _ => rfl) (fun _ => rfl) fresh

theorem OcMasks.step (hm : OcMasks c) (hd : Disciplined c) (hr : Registry c)
    (hp : c.threads[t]? = some p) (h : Step S c.shared t p ch o) : OcMasks (o.apply c t) := by
  have ok := hr.threads t _ hp
  have fresh : ∀ x ∈ o.spawned, ∀ r, x.announces r = false :=
    h.fresh (fun _ => rfl) (fun _ => rfl) (fun _ => rfl)
  cases h with
  | app h => cases h <;> exact hm.same hr hp rfl rfl (fun _ _ _ => rfl) (fun _ => rfl) fresh
  | call h => exact call_ocMasks hm hd hr hp h fresh
  | worker h =>
    cases h with
    | lock hq | unlock hq | remove hq | removeLast hq =>
      exact hm.regular hr hp hq ok rfl rfl rfl (fun _ => rfl) rfl
    | exitFree | free =>
      obtain ⟨_, _, he⟩ := witemFree_eq c.shared ‹Work›
      rw [he]
      exact hm.same hr hp rfl rfl (fun _ _ _ => rfl) (fun _ => rfl) fresh
    | _ => exact hm.same hr hp rfl rfl (fun _ _ _ => rfl) (fun _ => rfl) fresh
  | overcommit h =>
    cases h with
    | dequeue hf hs hq hl hne =>
      have hb := (ffs_spec hf).1
      refine hm.touch hd hr hp hs rfl rfl (fun r hr => ?_) (fun _ _ => rfl) (fun _ _ => rfl) fresh
        (by simp [Thread.announces]) (fun _ => ?_)
      · rw [Shared.items_set hq rfl, if_neg hr]
      · rw [Shared.items_set hq rfl, if_pos rfl]
        exact ⟨fun _ => hne, fun _ => hb⟩
    | dequeueLast hf hs hq hl =>
      obtain ⟨wq, hreg, hk, _⟩ := hr.ocSlots _ _ hs
      obtain ⟨place, hi, _⟩ := Registered.ocPlace hq ⟨wq, hreg, hk⟩
      refine hm.touch hd hr hp place rfl rfl (fun r hr => ?_) (fun i hne => ?_) (fun _ _ => rfl)
        (by simp) (by simp [Thread.announces]) (fun _ => ?_)
      · rw [Shared.items_set hq rfl, if_neg hr]
      · simp [getLsbD_andNot_indexBit hi, hne]
      · rw [Shared.items_set hq rfl, if_pos rfl]
        simp [Pending, getLsbD_andNot_indexBit hi]
    | free =>
      obtain ⟨_, _, he⟩ := witemFree_eq c.shared ‹Work›
      rw [he]
      exact hm.same hr hp rfl rfl (fun _ _ _ => rfl) (fun _ => rfl) fresh
    | _ => exact hm.same hr hp rfl rfl (fun _ _ _ => rfl) (fun _ => rfl) fresh
  | manager h =>
    cases h with
    | plain hq =>
      obtain ⟨_, _, _, _, rfl⟩ := hq
      exact hm.same hr hp rfl rfl (fun _ _ _ => rfl) (fun _ => rfl) fresh
    | created =>
      exact hm.same hr hp rfl rfl (fun _ _ _ => rfl) (fun _ => rfl) fresh
    | spinLock hq | insert hq | spinUnlock hq =>
      exact hm.regular hr hp hq ok rfl rfl rfl (fun _ => rfl) rfl
    | _ => exact hm.same hr hp rfl rfl (fun _ _ _ => rfl) (fun _ => rfl) fresh

theorem ocMasks_initial (users managers : Nat) : OcMasks (initial users managers) where
  unregistered _ _ := by simp [initial, managerInit]
  full _ _ _ h hx := by obtain rfl | rfl := initial_threads h <;> cases hx
  follows _ _ h := by cases h

variable {G : PoolState → Nat × Choice → Prop} {users managers : Nat} {tr : List Event}

theorem ocMasks (h : Machine.Run (program S) G (initial users managers) tr c) : OcMasks c :=
  h.invariant (fun _ c => OcMasks c) (ocMasks_initial _ _)
    (fun _ _ _ _ _ hrun hm _ mv =>
      hm.step (disciplined hrun) (registry hrun) mv.here (program_step mv.next).2)

end PthreadWorkqueue.Posix
