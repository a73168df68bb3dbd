import PthreadWorkqueue.Posix.Registry

/-! The mask of pending queues. Its bits follow the item lists of the registered queues, up to what
the holder of a queue's spin lock is about to do. -/
namespace PthreadWorkqueue.Posix
open Concurrency

section Bits
variable {m : BitVec 32} {i j : Nat}

theorem getLsbD_indexBit (hj : j < 32) : (indexBit j).getLsbD i = decide (i = j) := by
  rw [indexBit, ← BitVec.twoPow_eq, BitVec.getLsbD_twoPow]
  simp [hj, eq_comm]

theorem getLsbD_or_indexBit (hj : j < 32) :
    (m ||| indexBit j).getLsbD i = (m.getLsbD i || decide (i = j)) := by
  rw [BitVec.getLsbD_or, getLsbD_indexBit hj]

theorem getLsbD_andNot_indexBit (hj : j < 32) :
    (m &&& ~~~ indexBit j).getLsbD i = (m.getLsbD i && !decide (i = j)) := by
  rw [BitVec.getLsbD_and, BitVec.getLsbD_not, getLsbD_indexBit hj]
  by_cases hi : i < 32
  · simp [hi]
  · simp [BitVec.getLsbD_of_ge m i (by omega)]

/-- The retry after `atomic_or` never happens. -/
theorem or_indexBit_set (hj : j < 32) : (m ||| indexBit j) &&& indexBit j ≠ 0 := by
  intro h
  have := congrArg (·.getLsbD j) h
  simp [getLsbD_indexBit hj] at this

/-- The retry after `atomic_and` never happens. -/
theorem andNot_indexBit_clear : (m &&& ~~~ indexBit j) &&& indexBit j = 0 := by
  rw [BitVec.and_assoc, BitVec.and_comm (~~~ _), BitVec.and_not_self]
  exact BitVec.and_zero

/-- `ffs` finds no bit only in the empty mask. -/
theorem ffs_eq_zero : ffs m = 0 ↔ ∀ i, m.getLsbD i = false := by
  unfold ffs
  split
  · rename_i i hi
    have := List.find?_some hi
    simp only [Nat.add_eq_zero_iff, Nat.one_ne_zero, and_false, false_iff, not_forall]
    exact ⟨i, by simpa using this⟩
  · rename_i hn
    simp only [true_iff]
    intro i
    by_cases hi : i < 32
    · simpa using List.find?_eq_none.mp hn i (List.mem_range.mpr hi)
    · exact BitVec.getLsbD_of_ge m i (by omega)

/-- `ffs` finds the least set bit. -/
theorem ffs_spec (h : ffs m ≠ 0) :
    m.getLsbD (ffs m - 1) = true ∧ ∀ j < ffs m - 1, m.getLsbD j = false := by
  unfold ffs at h ⊢
  split at h
  · rename_i i hi
    obtain ⟨hb, _, hn⟩ := List.find?_range_eq_some.mp hi
    exact ⟨hb, fun j hj => by simpa using hn j hj⟩
  · exact absurd rfl h

end Bits

/-- A bit tells whether there are items. -/
def Pending (bit : Bool) (l : List Work) : Prop := bit = true ↔ l ≠ []

/-- What a thread inside a critical section of a queue's spin lock knows of the queue's bit and of
its items. -/
def Thread.maskOk (bit : Bool) (l : List Work) : Thread → Prop
  | .call _ (.add _ _ p) => match p with
    | .testEmpty => Pending bit l
    | .atomicOr => l = []
    | .insert => bit = true
    | .spinUnlock => bit = true ∧ l ≠ []
    | _ => True
  | .worker _ (.scan _ p) => match p with
    | .first _ | .unlock _ _ => Pending bit l
    | .remove _ w => bit = true ∧ l.head? = some w
    | .clear _ _ => l = []
    | _ => True
  | .manager _ (.stop _ _ p) => match p with
    | .atomicOr _ _ => Pending bit l
    | .insert _ _ => bit = true
    | .spinUnlock _ => bit = true ∧ l ≠ []
    | _ => True
  | _ => True

/-- The bits of empty slots are clear. The bit of a queue follows its items while its spin lock is
free, and else as far as the holder knows. -/
structure Masks (c : PoolState) : Prop where
  unregistered : ∀ i, c.shared.wqlist i = none → c.shared.wqlistMask.getLsbD i = false
  free : ∀ (i : Nat) (q : QId) (wq : Workq), c.shared.wqlist i = some q →
    c.shared.queues[q]? = some wq → wq.mtx = none →
    Pending (c.shared.wqlistMask.getLsbD i) wq.itemListhead
  held : ∀ (i : Nat) (q : QId) (wq : Workq) (t : Tid) (p : Thread), c.shared.wqlist i = some q →
    c.shared.queues[q]? = some wq → c.threads[t]? = some p → p.spin = some q →
    p.maskOk (c.shared.wqlistMask.getLsbD i) wq.itemListhead

variable {S : Settings} {t : Tid} {p : Thread} {ch : Choice} {o : Out} {c : PoolState}
  {q : QId} {wq wq' : Workq}

/-- The place of a queue in the mask. -/
theorem Registered.place {sh : Shared} (hq : sh.queues[q]? = some wq)
    (h : ∃ wq, Registered sh q wq ∧ wq.overcommit = false) :
    sh.wqlist wq.wqlistIndex = some q ∧ wq.wqlistIndex < 32 ∧ wq.overcommit = false := by
  obtain ⟨wq₁, hr, hk⟩ := h
  have he := hr.here
  rw [hq] at he
  cases he
  have hs := hr.slot
  have hb := hr.bound
  simp only [Shared.slotOf, hk, Bool.false_eq_true, if_false] at hs
  simp only [workqNumPrioqueue] at hb
  exact ⟨by rw [hr.index, hs], by rw [hr.index]; omega, hk⟩

/-- A queue has one slot. -/
theorem Registry.index_eq (hr : Registry c) {i : Nat} (hi : c.shared.wqlist i = some q)
    (hq : c.shared.queues[q]? = some wq) : i = wq.wqlistIndex ∧ i = wq.queueprio := by
  obtain ⟨wq₁, hreg, _, rfl⟩ := hr.slots i q hi
  have he := hreg.here
  rw [hq] at he
  cases he
  exact ⟨hreg.index.symm, rfl⟩

theorem Registry.overcommit_ne (hr : Registry c) {i : Nat} {r : QId}
    (hi : c.shared.wqlist i = some r) (h : ∃ wq, Registered c.shared q wq ∧ wq.overcommit = true) :
    q ≠ r := by
  rintro rfl
  obtain ⟨wq₁, h₁, hk₁, _⟩ := hr.slots i q hi
  obtain ⟨wq₂, h₂, hk₂⟩ := h
  have he := h₁.here
  rw [h₂.here] at he
  cases he
  rw [hk₁] at hk₂
  cases hk₂

theorem Disciplined.mtx_eq (hd : Disciplined c) (hp : c.threads[t]? = some p)
    (hs : p.spin = some q) (hq : c.shared.queues[q]? = some wq) : wq.mtx = some t := by
  have := ((hd.spin q).at hp).mpr (by simp [Thread.holdsSpin, hs])
  simpa [Shared.spinLock, hq] using this

namespace Masks

/-- A step that touches neither the mask nor a registered queue. -/
private theorem same (hm : Masks c) (hp : c.threads[t]? = some p)
    (hb : o.shared.wqlistMask = c.shared.wqlistMask) (hw : o.shared.wqlist = c.shared.wqlist)
    (hq : ∀ i r, c.shared.wqlist i = some r → o.shared.queues[r]? = c.shared.queues[r]?)
    (self : ∀ i r, c.shared.wqlist i = some r → o.pc.spin = some r →
      p.spin = some r ∧ ∀ b l, p.maskOk b l → o.pc.maskOk b l)
    (fresh : ∀ r ∈ o.spawned, r.spin = none) : Masks (o.apply c t) where
  unregistered i hi := by
    change o.shared.wqlistMask.getLsbD i = false
    rw [hb]
    exact hm.unregistered i (hw ▸ hi)
  free i r w hi hr hf := by
    change Pending (o.shared.wqlistMask.getLsbD i) _
    have hi' : c.shared.wqlist i = some r := hw ▸ hi
    rw [hb]
    exact hm.free i r w hi' ((hq i r hi').symm.trans hr) hf
  held i r w u x hi hr hu hx := by
    change x.maskOk (o.shared.wqlistMask.getLsbD i) _
    have hi' : c.shared.wqlist i = some r := hw ▸ hi
    have hr' := (hq i r hi').symm.trans hr
    rw [hb]
    obtain ⟨rfl, rfl⟩ | ⟨_, hu⟩ | ⟨_, hu⟩ := Outcome.get_cases hp hu
    · obtain ⟨hs, hk⟩ := self i r hi' hx
      exact hk _ _ (hm.held i r w _ p hi' hr' hp hs)
    · exact hm.held i r w u x hi' hr' hu hx
    · rw [fresh x hu] at hx
      cases hx

/-- A step of the thread that takes or holds a queue's spin lock: only the queue and its bit
change. -/
private theorem touch (hm : Masks c) (hd : Disciplined c) (hr : Registry c)
    (hp : c.threads[t]? = some p) (hq : c.shared.queues[q]? = some wq)
    (hreg : ∃ wq, Registered c.shared q wq ∧ wq.overcommit = false)
    (own : wq.mtx = none ∨ wq.mtx = some t) (hs : o.shared.queues = c.shared.queues.set q wq')
    (hw : o.shared.wqlist = c.shared.wqlist)
    (hb : ∀ i, i ≠ wq.wqlistIndex →
      o.shared.wqlistMask.getLsbD i = c.shared.wqlistMask.getLsbD i)
    (free : wq'.mtx = none → Pending (o.shared.wqlistMask.getLsbD wq.wqlistIndex) wq'.itemListhead)
    (self : o.pc.spin = some q →
      o.pc.maskOk (o.shared.wqlistMask.getLsbD wq.wqlistIndex) wq'.itemListhead)
    (only : ∀ r, o.pc.spin = some r → r = q) (fresh : o.spawned = []) : Masks (o.apply c t) := by
  obtain ⟨place, _, _⟩ := Registered.place hq hreg
  have hl := (List.getElem?_eq_some_iff.mp hq).1
  have here : o.shared.queues[q]? = some wq' := by rw [hs, List.getElem?_set_self hl]
  -- the other slots hold other queues, with other bits
  have away : ∀ i r, c.shared.wqlist i = some r → r ≠ q → i ≠ wq.wqlistIndex ∧
      o.shared.queues[r]? = c.shared.queues[r]? := by
    intro i r hi hne
    refine ⟨?_, by rw [hs, List.getElem?_set_ne (Ne.symm hne)]⟩
    rintro rfl
    rw [place] at hi
    cases hi
    exact hne rfl
  refine ⟨fun i hi => ?_, fun i r w hi hr' hf => ?_, fun i r w u x hi hr' hu hx => ?_⟩
  · have hi' : c.shared.wqlist i = none := hw ▸ hi
    change o.shared.wqlistMask.getLsbD i = false
    rw [hb i (by rintro rfl; rw [place] at hi'; cases hi')]
    exact hm.unregistered i hi'
  · have hi' : c.shared.wqlist i = some r := hw ▸ hi
    change Pending (o.shared.wqlistMask.getLsbD i) _
    by_cases hrq : r = q
    · subst hrq
      obtain rfl := (hr.index_eq hi' hq).1
      rw [show (o.apply c t).shared.queues[r]? = some wq' from here] at hr'
      cases hr'
      exact free hf
    · obtain ⟨hne, hsame⟩ := away i r hi' hrq
      rw [hb i hne]
      exact hm.free i r w hi' (hsame.symm.trans hr') hf
  · have hi' : c.shared.wqlist i = some r := hw ▸ hi
    change x.maskOk (o.shared.wqlistMask.getLsbD i) _
    obtain ⟨rfl, rfl⟩ | ⟨hut, hu⟩ | ⟨_, hu⟩ := Outcome.get_cases hp hu
    · obtain rfl := only r hx
      obtain rfl := (hr.index_eq hi' hq).1
      rw [show (o.apply c u).shared.queues[r]? = some wq' from here] at hr'
      cases hr'
      exact self hx
    · by_cases hrq : r = q
      · -- another thread cannot hold the same lock
        subst hrq
        have hold := hd.mtx_eq hu hx hq
        rcases own with h | h
        · rw [h] at hold
          cases hold
        · rw [h] at hold
          exact absurd (Option.some.inj hold).symm hut
      · obtain ⟨hne, hsame⟩ := away i r hi' hrq
        rw [hb i hne]
        exact hm.held i r w u x hi' (hsame.symm.trans hr') hu hx
    · rw [fresh] at hu
      cases hu

private theorem lock (hm : Masks c) (hd : Disciplined c) (hr : Registry c)
    (hp : c.threads[t]? = some p) (hq : c.shared.queues[q]? = some wq)
    (hreg : ∃ wq, Registered c.shared q wq ∧ wq.overcommit = false) (hn : wq.mtx = none)
    {p' : Thread} (hs : p'.spin = some q) (self : ∀ b l, Pending b l → p'.maskOk b l) :
    Masks (Outcome.apply (⟨c.shared.setQueue q { wq with mtx := some t }, p', [], []⟩ : Out) c t) := by
  have known := hm.free _ _ wq (Registered.place hq hreg).1 hq hn
  refine hm.touch hd hr hp hq hreg (.inl hn) rfl rfl (fun _ _ => rfl) nofun
    (fun _ => self _ _ known) (fun r h => ?_) rfl
  rw [show p'.spin = some r from h] at hs
  exact Option.some.inj hs

private theorem unlock (hm : Masks c) (hd : Disciplined c) (hr : Registry c)
    (hp : c.threads[t]? = some p) (hq : c.shared.queues[q]? = some wq)
    (hreg : ∃ wq, Registered c.shared q wq ∧ wq.overcommit = false) (hs : p.spin = some q)
    {p' : Thread} (hs' : p'.spin = none) (free : ∀ b l, p.maskOk b l → Pending b l) :
    Masks (Outcome.apply (⟨c.shared.setQueue q { wq with mtx := none }, p', [], []⟩ : Out) c t) := by
  have known := hm.held _ _ wq _ _ (Registered.place hq hreg).1 hq hp hs
  refine hm.touch hd hr hp hq hreg (.inr (hd.mtx_eq hp hs hq)) rfl rfl (fun _ _ => rfl)
    (fun _ => free _ _ known) ?_ ?_ rfl
  · intro h
    rw [show p'.spin = some q from h] at hs'
    cases hs'
  · intro r h
    rw [show p'.spin = some r from h] at hs'
    cases hs'

/-- A step inside the critical section. -/
private theorem inside (hm : Masks c) (wq' : Workq) (hd : Disciplined c) (hr : Registry c)
    (hp : c.threads[t]? = some p) (hq : c.shared.queues[q]? = some wq)
    (hreg : ∃ wq, Registered c.shared q wq ∧ wq.overcommit = false) (hs : p.spin = some q)
    (hl : o.shared.queues = c.shared.queues.set q wq') (hmtx : wq'.mtx = wq.mtx)
    (hw : o.shared.wqlist = c.shared.wqlist)
    (hb : ∀ i, i ≠ wq.wqlistIndex →
      o.shared.wqlistMask.getLsbD i = c.shared.wqlistMask.getLsbD i)
    (hs' : o.pc.spin = some q) (fresh : o.spawned = [])
    (self : p.maskOk (c.shared.wqlistMask.getLsbD wq.wqlistIndex) wq.itemListhead →
      o.pc.maskOk (o.shared.wqlistMask.getLsbD wq.wqlistIndex) wq'.itemListhead) :
    Masks (o.apply c t) := by
  have place := (Registered.place hq hreg).1
  have own := hd.mtx_eq hp hs hq
  refine hm.touch hd hr hp hq hreg (.inr own) hl hw hb ?_
    (fun _ => self (hm.held _ _ _ _ _ place hq hp hs)) ?_ fresh
  · intro h
    rw [hmtx, own] at h
    cases h
  · intro r h
    rw [hs'] at h
    exact (Option.some.inj h).symm

/-- A step inside the critical section that changes nothing in memory. -/
private theorem look (hm : Masks c) (hd : Disciplined c) (hr : Registry c)
    (hp : c.threads[t]? = some p) (hq : c.shared.queues[q]? = some wq)
    (hreg : ∃ wq, Registered c.shared q wq ∧ wq.overcommit = false) (hs : p.spin = some q)
    {p' : Thread} (hs' : p'.spin = some q)
    (self : ∀ b, p.maskOk b wq.itemListhead → p'.maskOk b wq.itemListhead) :
    Masks (Outcome.apply (⟨c.shared, p', [], []⟩ : Out) c t) := by
  obtain ⟨hl, he⟩ := List.getElem?_eq_some_iff.mp hq
  refine hm.inside wq hd hr hp hq hreg hs ?_ rfl rfl (fun _ _ => rfl) hs' rfl (self _)
  rw [← he, List.set_getElem_self]

/-- The bit of the queue is set by `atomic_or`. -/
private theorem setBit (hm : Masks c) (hd : Disciplined c) (hr : Registry c)
    (hp : c.threads[t]? = some p) (hq : c.shared.queues[q]? = some wq)
    (hreg : ∃ wq, Registered c.shared q wq ∧ wq.overcommit = false) (hs : p.spin = some q)
    {p' : Thread} (hs' : p'.spin = some q) (self : ∀ l, p'.maskOk true l) :
    Masks (Outcome.apply (⟨{ c.shared with
      wqlistMask := c.shared.wqlistMask ||| indexBit wq.wqlistIndex }, p', [], []⟩ : Out) c t) := by
  obtain ⟨_, hi, _⟩ := Registered.place hq hreg
  obtain ⟨hl, he⟩ := List.getElem?_eq_some_iff.mp hq
  refine hm.inside wq hd hr hp hq hreg hs ?_ rfl rfl ?_ hs' rfl ?_
  · rw [← he, List.set_getElem_self]
  · intro i hne
    simp [getLsbD_or_indexBit hi, hne]
  · intro _
    simpa [getLsbD_or_indexBit hi] using self _

/-- `reset_queue_mask` clears the bit of the queue. -/
private theorem resetQueueMask (hm : Masks c) (hd : Disciplined c) (hr : Registry c)
    (hp : c.threads[t]? = some p) (hq : c.shared.queues[q]? = some wq)
    (hreg : ∃ wq, Registered c.shared q wq ∧ wq.overcommit = false) (hs : p.spin = some q)
    {p' : Thread} (hs' : p'.spin = some q) (self : ∀ b l, p.maskOk b l → p'.maskOk false l) :
    Masks (Outcome.apply (⟨{ c.shared with
      wqlistMask := c.shared.wqlistMask &&& ~~~ indexBit wq.wqlistIndex }, p', [], []⟩ : Out) c t) := by
  obtain ⟨_, hi, _⟩ := Registered.place hq hreg
  obtain ⟨hl, he⟩ := List.getElem?_eq_some_iff.mp hq
  refine hm.inside wq hd hr hp hq hreg hs ?_ rfl rfl ?_ hs' rfl ?_
  · rw [← he, List.set_getElem_self]
  · intro i hne
    simp [getLsbD_andNot_indexBit hi, hne]
  · intro h
    simpa [getLsbD_andNot_indexBit hi] using self _ _ h

/-- A step that works on an overcommit queue. -/
private theorem overcommit (hm : Masks c) (hr : Registry c) (hp : c.threads[t]? = some p)
    (hreg : ∃ wq, Registered c.shared q wq ∧ wq.overcommit = true)
    (hb : o.shared.wqlistMask = c.shared.wqlistMask) (hw : o.shared.wqlist = c.shared.wqlist)
    (hq : o.shared.queues = c.shared.queues.set q wq') (hs : ∀ r, o.pc.spin = some r → r = q)
    (fresh : o.spawned = []) : Masks (o.apply c t) := by
  refine hm.same hp hb hw (fun i r hi => ?_) (fun i r hi h => ?_) (by simp [fresh])
  · rw [hq, List.getElem?_set_ne (hr.overcommit_ne hi hreg)]
  · obtain rfl := hs r h
    exact absurd rfl (hr.overcommit_ne hi hreg)

/-- A new queue is entered in an empty slot. -/
private theorem register (hm : Masks c) (hd : Disciplined c) (hr : Registry c) (hp : c.threads[t]? = some p)
    (hq : c.shared.queues[q]? = some wq) (hk : wq.overcommit = false)
    (hn : c.shared.wqlist wq.queueprio = none) (hb : o.shared.wqlistMask = c.shared.wqlistMask)
    (hs : o.shared.queues = c.shared.queues.set q { wq with wqlistIndex := wq.queueprio })
    (hw : o.shared.wqlist = Function.update c.shared.wqlist wq.queueprio (some q))
    (hpc : o.pc.spin = none) (fresh : o.spawned = []) : Masks (o.apply c t) := by
  have hl := (List.getElem?_eq_some_iff.mp hq).1
  have hempty : wq.itemListhead = [] ∧ wq.mtx = none := by
    rcases hr.fresh q wq hq with h | h
    · simp [Shared.slotOf, hk, hn] at h
    · exact h
  have hne : ∀ i r, c.shared.wqlist i = some r → q ≠ r := by
    rintro i r hi rfl
    rw [(hr.index_eq hi hq).2, hn] at hi
    cases hi
  have slots : ∀ i r w, o.shared.wqlist i = some r → o.shared.queues[r]? = some w →
      (c.shared.wqlist i = some r ∧ c.shared.queues[r]? = some w) ∨
        (r = q ∧ w.itemListhead = [] ∧ c.shared.wqlistMask.getLsbD i = false) := by
    intro i r w hi hr
    rw [hw] at hi
    by_cases hip : i = wq.queueprio
    · subst hip
      rw [Function.update_self] at hi
      cases hi
      rw [hs, List.getElem?_set_self hl] at hr
      cases hr
      exact .inr ⟨rfl, hempty.1, hm.unregistered _ hn⟩
    · rw [Function.update_of_ne hip] at hi
      rw [hs, List.getElem?_set_ne (hne i r hi)] at hr
      exact .inl ⟨hi, hr⟩
  refine ⟨fun i hi => ?_, fun i r w hi hr' hf => ?_, fun i r w u x hi hr' hu hx => ?_⟩
  · change o.shared.wqlist i = none at hi
    change o.shared.wqlistMask.getLsbD i = false
    rw [hw] at hi
    rw [hb]
    refine hm.unregistered i ?_
    by_cases hip : i = wq.queueprio
    · rw [hip, hn]
    · rwa [Function.update_of_ne hip] at hi
  · change Pending (o.shared.wqlistMask.getLsbD i) _
    rw [hb]
    rcases slots i r w hi hr' with ⟨hi', hr''⟩ | ⟨_, hl, hbit⟩
    · exact hm.free i r w hi' hr'' hf
    · simp [Pending, hl, hbit]
  · change x.maskOk (o.shared.wqlistMask.getLsbD i) _
    rw [hb]
    obtain ⟨rfl, rfl⟩ | ⟨_, hu⟩ | ⟨_, hu⟩ := Outcome.get_cases hp hu
    · rw [hpc] at hx
      cases hx
    · -- nobody holds the lock of the new queue
      rcases slots i r w hi hr' with ⟨hi', hr''⟩ | ⟨rfl, _, _⟩
      · exact hm.held i r w u x hi' hr'' hu hx
      · have hold := hd.mtx_eq hu hx hq
        rw [hempty.2] at hold
        cases hold
    · rw [fresh] at hu
      cases hu

end Masks

theorem Call.plain_maskOk {k : Caller} {x : Call} (h : x.plain = true) (r : QId) :
    (Thread.call k x).spin ≠ some r := by
  rw [Call.plain_spin h]
  nofun

private theorem call_masks {k : Caller} {x : Call} (hm : Masks c) (hd : Disciplined c)
    (hr : Registry c) (hp : c.threads[t]? = some (.call k x)) (h : CallStep c.shared t k x ch o)
    (fresh : ∀ r ∈ o.spawned, r.spin = none) : Masks (o.apply c t) := by
  have ok := hr.threads t _ hp
  cases h with
  | fault => exact hm.same hp rfl rfl (fun _ _ _ => rfl) (fun _ _ _ h => ⟨h, fun _ _ h => h⟩) fresh
  | quiet hq _ hc' =>
    obtain ⟨_, _, _, _, rfl⟩ := hq
    exact hm.same hp rfl rfl (fun _ _ _ => rfl) (fun _ r _ h => absurd h (Call.plain_maskOk hc' r))
      fresh
  | quietReturn hq =>
    obtain ⟨_, _, _, _, rfl⟩ := hq
    exact hm.same hp rfl rfl (fun _ _ _ => rfl) nofun fresh
  | spinLock hq hn => exact hm.lock hd hr hp hq ok hn rfl fun _ _ h => h
  | testEmpty hq he => exact hm.look hd hr hp hq ok rfl rfl fun _ _ => he
  | testNonempty hq he => exact hm.look hd hr hp hq ok rfl rfl fun _ h => h.mpr he
  | atomicOr hq hx =>
    rw [if_neg (or_indexBit_set (Registered.place hq ok).2.1)] at hx
    subst hx
    exact hm.setBit hd hr hp hq ok rfl rfl fun _ => rfl
  | insert hq =>
    exact hm.inside _ hd hr hp hq ok rfl rfl rfl rfl (fun _ _ => rfl) rfl rfl
      fun h => ⟨h, by simp⟩
  | spinUnlock hq => exact hm.unlock hd hr hp hq ok rfl rfl fun _ _ h => by simp [Pending, h.1, h.2]
  | ocSpinLock hq | ocInsert hq | ocSpinUnlock hq =>
    exact hm.overcommit hr hp ok rfl rfl rfl (by simp [Thread.spin]) rfl
  | createAlloc =>
    refine hm.same hp rfl rfl (fun i r hi => ?_) nofun fresh
    obtain ⟨wq, hreg, _⟩ := hr.slots i r hi
    exact List.getElem?_append_left (List.getElem?_eq_some_iff.mp hreg.here).1
  | managerStart | ocCreate =>
    exact hm.same hp rfl rfl (fun _ _ _ => rfl) nofun fresh
  | register hq hk hn => exact hm.register hd hr hp hq hk hn rfl rfl rfl rfl rfl
  | ocRegister hq hk =>
    refine hm.same hp rfl rfl (fun i r hi => ?_) nofun fresh
    refine List.getElem?_set_ne ?_
    rintro rfl
    obtain ⟨wq₁, hreg, hk₁, _⟩ := hr.slots i _ hi
    have he := hreg.here
    rw [hq] at he
    cases he
    rw [hk] at hk₁
    cases hk₁
  | _ => exact hm.same hp rfl rfl (fun _ _ _ => rfl) nofun fresh

private theorem worker_masks {v : WorkerVars} {x : WorkerPc} (hm : Masks c) (hd : Disciplined c)
    (hr : Registry c) (hp : c.threads[t]? = some (.worker v x)) (h : WorkerStep S c.shared t v x ch o)
    (fresh : ∀ r ∈ o.spawned, r.spin = none) : Masks (o.apply c t) := by
  have ok := hr.threads t _ hp
  cases h with
  | fault => exact hm.same hp rfl rfl (fun _ _ _ => rfl) (fun _ _ _ h => ⟨h, fun _ _ h => h⟩) fresh
  | nothing =>
    exact hm.same hp rfl rfl (fun _ _ _ => rfl) (by simp [scanReturn_spin]) fresh
  | lock hq hn => exact hm.lock hd hr hp hq ok hn rfl fun _ _ h => h
  | raced hq => exact hm.look hd hr hp hq ok rfl rfl fun _ h => h
  | skip hq => exact hm.look hd hr hp hq ok rfl rfl fun _ h => h
  | first hq hl =>
    exact hm.look hd hr hp hq ok rfl rfl fun _ h => ⟨h.mpr (by simp [hl]), by simp [hl]⟩
  | remove hq hl =>
    exact hm.inside _ hd hr hp hq ok rfl rfl rfl rfl (fun _ _ => rfl) rfl rfl
      fun h => ⟨fun _ => hl, fun _ => h.1⟩
  | removeLast hq hl =>
    exact hm.inside _ hd hr hp hq ok rfl rfl rfl rfl (fun _ _ => rfl) rfl rfl fun _ => hl
  | clear hq hx =>
    rw [if_pos andNot_indexBit_clear] at hx
    subst hx
    exact hm.resetQueueMask hd hr hp hq ok rfl rfl fun _ l (h : l = []) => by
      simp [Thread.maskOk, Pending, h]
  | unlock hq => exact hm.unlock hd hr hp hq ok rfl (scanReturn_spin _ _ _) fun _ _ h => h
  | exitFree | free =>
    exact hm.same hp (by simp) (by simp) (by simp) nofun fresh
  | _ => exact hm.same hp rfl rfl (fun _ _ _ => rfl) nofun fresh

private theorem manager_masks {v : ManagerVars} {x : ManagerPc} (hm : Masks c) (hd : Disciplined c)
    (hr : Registry c) (hp : c.threads[t]? = some (.manager v x))
    (h : ManagerStep S c.shared t v x ch o) (fresh : ∀ r ∈ o.spawned, r.spin = none) :
    Masks (o.apply c t) := by
  have ok := hr.threads t _ hp
  cases h with
  | fault => exact hm.same hp rfl rfl (fun _ _ _ => rfl) (fun _ _ _ h => ⟨h, fun _ _ h => h⟩) fresh
  | plain hq _ hb =>
    obtain ⟨_, _, _, _, rfl⟩ := hq
    exact hm.same hp rfl rfl (fun _ _ _ => rfl) (by simp [ManagerPc.between_spin hb]) fresh
  | created =>
    exact hm.same hp rfl rfl (fun _ _ _ => rfl)
      (by simp [ManagerPc.between_spin (startReturn_between _)]) fresh
  | decCount =>
    exact hm.same hp rfl rfl (fun _ _ _ => rfl)
      (by simp [ManagerPc.between_spin (startReturn_between _)]) fresh
  | unlockMtx =>
    exact hm.same hp rfl rfl (fun _ _ _ => rfl)
      (by simp [ManagerPc.between_spin (stopLoop_between _ _)]) fresh
  | spinLock hq hn => exact hm.lock hd hr hp hq ok hn rfl fun _ _ h => h
  | atomicOr hq hx =>
    rw [if_neg (or_indexBit_set (Registered.place hq ok).2.1)] at hx
    subst hx
    exact hm.setBit hd hr hp hq ok rfl rfl fun _ => rfl
  | insert hq =>
    exact hm.inside _ hd hr hp hq ok rfl rfl rfl rfl (fun _ _ => rfl) rfl rfl
      fun h => ⟨h, by simp⟩
  | spinUnlock hq => exact hm.unlock hd hr hp hq ok rfl rfl fun _ _ h => by simp [Pending, h.1, h.2]
  | _ => exact hm.same hp rfl rfl (fun _ _ _ => rfl) nofun fresh

theorem Masks.step (hm : Masks c) (hd : Disciplined c) (hr : Registry c)
    (hp : c.threads[t]? = some p) (h : Step S c.shared t p ch o) : Masks (o.apply c t) := by
  have fresh : ∀ r ∈ o.spawned, r.spin = none := h.fresh rfl rfl rfl
  cases h with
  | app h => cases h <;> exact hm.same hp rfl rfl (fun _ _ _ => rfl) nofun fresh
  | call h => exact call_masks hm hd hr hp h fresh
  | worker h => exact worker_masks hm hd hr hp h fresh
  | manager h => exact manager_masks hm hd hr hp h fresh
  | overcommit h =>
    cases h with
    | dequeue _ hs | dequeueLast _ hs =>
      obtain ⟨wq, hreg, hk, _⟩ := hr.ocSlots _ _ hs
      exact hm.overcommit hr hp ⟨wq, hreg, hk⟩ rfl rfl rfl nofun rfl
    | free =>
      exact hm.same hp (by simp) (by simp) (by simp) nofun fresh
    | _ => exact hm.same hp rfl rfl (fun _ _ _ => rfl) nofun fresh

theorem masks_initial (users managers : Nat) : Masks (initial users managers) where
  unregistered _ _ := by simp [initial, managerInit]
  free _ _ _ h := by cases h
  held _ _ _ _ _ h := by cases h

variable {G : PoolState → Nat × Choice → Prop} {users managers : Nat} {tr : List Event}

/-- In every reachable state the mask follows the item lists. -/
theorem masks (h : Machine.Run (program S) G (initial users managers) tr c) : Masks c :=
  h.invariant (fun _ c => Masks c) (masks_initial _ _)
    (fun _ _ _ _ _ hrun hm _ mv =>
      hm.step (disciplined hrun) (registry hrun) mv.here (program_step mv.next).2)

/-- Also in the middle of a critical section, items are announced by the bit. -/
private theorem Thread.maskOk_announced {b : Bool} {l : List Work} (hs : p.spin = some q)
    (hoc : ∀ k w x, p ≠ .call k (.ocAdd q w x)) (h : p.maskOk b l) (hl : l ≠ []) : b = true := by
  cases p with
  | call k x =>
    cases x with
    | add r w x =>
      cases x <;> cases hs
      · exact h.mpr hl
      · exact absurd h hl
      · exact h
      · exact h.1
    | ocAdd r w x => cases x <;> cases hs <;> exact absurd rfl (hoc _ _ _)
    | _ => cases hs
  | worker v x =>
    cases x with
    | scan k x =>
      cases x <;> cases hs
      · exact h.mpr hl
      · exact h.1
      · exact absurd h hl
      · exact h.mpr hl
    | _ => cases hs
  | manager v x =>
    cases x with
    | stop i m x =>
      cases x <;> cases hs
      · exact h.mpr hl
      · exact h
      · exact h.1
    | _ => cases hs
  | app | overcommit => cases hs

theorem Masks.announced (hm : Masks c) (hd : Disciplined c) (hr : Registry c) {i : Nat}
    (hi : c.shared.wqlist i = some q) (hq : c.shared.queues[q]? = some wq)
    (hl : wq.itemListhead ≠ []) : c.shared.wqlistMask.getLsbD i = true := by
  cases hmtx : wq.mtx with
  | none => exact (hm.free i q wq hi hq hmtx).mpr hl
  | some t =>
    obtain ⟨p, hp, hs⟩ := ((hd.spin q) t).mp (by simp [Shared.spinLock, hq, hmtx])
    have hs : p.spin = some q := by simpa [Thread.holdsSpin] using hs
    refine Thread.maskOk_announced hs ?_ (hm.held i q wq t p hi hq hp hs) hl
    rintro k w x rfl
    exact hr.overcommit_ne hi (hr.threads t _ hp) rfl

/-- The bits of `wqlist_mask` announce the queued items of the non-overcommit pool. -/
theorem wqlistMask_announces_items (S : Settings) (users managers : Nat) (tr : List Event)
    (c : PoolState) (h : Machine.Free (program S) (initial users managers) tr c) (i : Nat) :
    (∀ (q : QId) (wq : Workq), c.shared.wqlist i = some q → c.shared.queues[q]? = some wq →
      wq.itemListhead ≠ [] → c.shared.wqlistMask.getLsbD i = true) ∧
    (c.shared.wqlistMask.getLsbD i = true → ∃ (q : QId) (wq : Workq), c.shared.wqlist i = some q ∧
      c.shared.queues[q]? = some wq ∧ wq.wqlistIndex = i ∧ wq.queueprio = i) ∧
    (∀ (q : QId) (wq : Workq), c.shared.wqlist i = some q → c.shared.queues[q]? = some wq →
      c.shared.wqlistMask.getLsbD i = true → wq.mtx = none → wq.itemListhead ≠ []) := by
  have hm := masks h
  have hr := registry h
  refine ⟨fun q wq hi hq hl => hm.announced (disciplined h) hr hi hq hl, fun hb => ?_,
    fun q wq hi hq hb hn => (hm.free i q wq hi hq hn).mp hb⟩
  cases hi : c.shared.wqlist i with
  | none =>
    rw [hm.unregistered i hi] at hb
    cases hb
  | some q =>
    obtain ⟨wq, hreg, _, hp⟩ := hr.slots i q hi
    exact ⟨q, wq, rfl, hreg.here, hreg.index.trans hp, hp⟩

/-- A producer has set the bit of its queue and has not yet inserted its item. -/
theorem wqlistMask_announces_items_midway : ∃ tr c,
    Machine.Free (program ⟨2, 2, 2, 0, false⟩) (initial 1 0) tr c ∧
      c.shared.wqlistMask.getLsbD 3 = true ∧
      ∃ (q : QId) (wq : Workq), c.shared.wqlist 3 = some q ∧ c.shared.queues[q]? = some wq ∧
        wq.wqlistIndex = 3 ∧ wq.queueprio = 3 := by
  obtain ⟨tr, c, hrun, hbit⟩ := Machine.exists_run (M := program ⟨2, 2, 2, 0, false⟩)
    (g := fun _ _ => true) (c := initial 1 0)
    (createFirst 0 3 ++ [(0, .request (.additem 0 (some 7) 70))] ++ steps 0 6)
    (fun r => r.1.shared.wqlistMask.getLsbD 3) (by decide +kernel)
  exact ⟨tr, c, hrun.free, hbit, (wqlistMask_announces_items _ _ _ tr c hrun.free 3).2.1 hbit⟩

end PthreadWorkqueue.Posix
