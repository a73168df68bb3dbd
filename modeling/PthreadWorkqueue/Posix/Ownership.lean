import PthreadWorkqueue.Memory.Linked
import PthreadWorkqueue.Posix.OvercommitMask
import PthreadWorkqueue.Posix.Lifecycle
import PthreadWorkqueue.Posix.Relist

/-! Who may use an item list, and which items it can meet. At most one thread is at a point that reads
or writes a given list, and an item has one owner: a queue, or the call that is about to insert it. -/
namespace PthreadWorkqueue.Posix
open Concurrency Memory

/-- The queue whose list a point reads or writes. -/
def Thread.touches (sh : Shared) : Thread → Option QId
  | .call _ (.add q _ p) => match p with
    | .testEmpty | .insert => some q
    | _ => none
  | .call _ (.ocAdd q _ .insert) => some q
  | .worker _ (.scan _ p) => match p with
    | .first q | .remove q _ => some q
    | _ => none
  | .overcommit .scan => sh.ocwqHead
  | .manager _ (.stop _ _ (.insert _ q)) => some q
  | _ => none

variable {S : Settings} {sh : Shared} {t u : Tid} {p r : Thread} {ch : Choice} {o : Out}
  {c : PoolState} {q : QId} {wq : Workq} {w : Work}

/-- The point is inside the critical section that guards the list. -/
def Thread.guards (sh : Shared) (q : QId) (p : Thread) : Prop :=
  (sh.kind q = false ∧ p.spin = some q) ∨ (sh.kind q = true ∧ p.holdsOcMtx = true)

theorem Registry.ocwqHead (hr : Registry c) (h : c.shared.ocwqHead = some q) :
    ∃ wq, Registered c.shared q wq ∧ wq.overcommit = true := by
  unfold Shared.ocwqHead at h
  split at h
  · cases h
  · obtain ⟨wq, hreg, hk, -⟩ := hr.ocSlots _ q h
    exact ⟨wq, hreg, hk⟩

private theorem guards_regular (hs : p.spin = some q)
    (h : ∃ wq, Registered sh q wq ∧ wq.overcommit = false) :
    (∃ wq, sh.queues[q]? = some wq) ∧ p.guards sh q := by
  obtain ⟨wq, hreg, hk⟩ := h
  exact ⟨⟨wq, hreg.here⟩, .inl ⟨(Shared.kind_eq hreg.here).trans hk, hs⟩⟩

private theorem guards_overcommit (hs : p.holdsOcMtx = true)
    (h : ∃ wq, Registered sh q wq ∧ wq.overcommit = true) :
    (∃ wq, sh.queues[q]? = some wq) ∧ p.guards sh q := by
  obtain ⟨wq, hreg, hk⟩ := h
  exact ⟨⟨wq, hreg.here⟩, .inr ⟨(Shared.kind_eq hreg.here).trans hk, hs⟩⟩

/-- A list that a point reads or writes is there, and guarded. -/
theorem Registry.touches (hr : Registry c) (hp : c.threads[t]? = some p)
    (h : p.touches c.shared = some q) :
    (∃ wq, c.shared.queues[q]? = some wq) ∧ p.guards c.shared q := by
  have ok := hr.threads t p hp
  cases p with
  | call k x =>
    cases x with
    | add q' w x => cases x <;> cases h <;> exact guards_regular rfl ok
    | ocAdd q' w x => cases x <;> cases h; exact guards_overcommit rfl ok
    | _ => cases h
  | worker v x =>
    cases x with
    | scan k x => cases x <;> cases h <;> exact guards_regular rfl ok
    | _ => cases h
  | overcommit x =>
    cases x with
    | scan => exact guards_overcommit rfl (hr.ocwqHead h)
    | _ => cases h
  | manager v x =>
    cases x with
    | stop i m x => cases x <;> cases h; exact guards_regular rfl ok
    | _ => cases h
  | app k => cases h

/-- Two threads at points that read or write one list are one. -/
theorem touches_unique (hd : Disciplined c) (hr : Registry c) (hp : c.threads[t]? = some p)
    (hu : c.threads[u]? = some r) (ht : p.touches c.shared = some q)
    (hut : r.touches c.shared = some q) : u = t := by
  obtain ⟨-, hg⟩ := hr.touches hp ht
  obtain ⟨-, hg'⟩ := hr.touches hu hut
  obtain ⟨hk, hs⟩ | ⟨hk, hs⟩ := hg <;> obtain ⟨hk', hs'⟩ | ⟨hk', hs'⟩ := hg'
  · have h₁ := ((hd.spin q).at hp).mpr (beq_iff_eq.mpr hs)
    have h₂ := ((hd.spin q).at hu).mpr (beq_iff_eq.mpr hs')
    exact Option.some.inj (h₂.symm.trans h₁)
  · cases hk.symm.trans hk'
  · cases hk.symm.trans hk'
  · exact hd.ocUnique hp hs hu hs'

private theorem witemFree_ocwqMask (sh : Shared) (w : Work) : (sh.witemFree w).ocwqMask = sh.ocwqMask := by
  unfold Shared.witemFree
  split <;> rfl

/-- Only the holder of `ocwq_mtx` moves overcommit workers to another queue. -/
theorem ocwqHead_step (h : Step S sh t p ch o) (hm : p.holdsOcMtx = false)
    (hq : sh.ocwqHead = some q) : o.shared.ocwqHead = some q := by
  have hmask : o.shared.ocwqMask = sh.ocwqMask := by
    cases h with
    | app h => cases h <;> rfl
    | call h =>
      cases h with
      | quiet hq | quietReturn hq => obtain ⟨_, _, _, _, rfl⟩ := hq; rfl
      | _ => first | rfl | cases hm
    | worker h =>
      cases h with
      | exitFree | free => exact witemFree_ocwqMask ..
      | _ => rfl
    | overcommit h =>
      cases h with
      | free => exact witemFree_ocwqMask ..
      | _ => first | rfl | cases hm
    | manager h =>
      cases h with
      | plain hq => obtain ⟨_, _, _, _, rfl⟩ := hq; rfl
      | _ => rfl
  unfold Shared.ocwqHead at hq ⊢
  rw [hmask]
  split at hq
  · cases hq
  · rename_i hne
    rw [if_neg hne]
    exact (step_grows h).ocwq _ q hq

/-! The items -/

/-- The items of a queue, and the item that a thread is about to insert. -/
def PoolState.owned (c : PoolState) : QId ⊕ Tid → List Work
  | .inl q => c.shared.items q
  | .inr t => ((c.threads[t]?).bind Thread.fresh).toList

variable {G : PoolState → Nat × Choice → Prop} {users managers : Nat} {tr : List Event}

/-- How often an item occurs in the queues. -/
private def occurrences (sh : Shared) (w : Work) : Nat := sh.queued fun _ x => (w.is x).toNat

private theorem occurrences_eq (sh : Shared) (w : Work) :
    occurrences sh w = (sh.queues.map fun wq => wq.itemListhead.count w).sum := by
  unfold occurrences Shared.queued
  simp only [sum_map_toNat]
  rfl

private theorem count_le (hq : sh.queues[q]? = some wq) :
    wq.itemListhead.count w ≤ occurrences sh w := by
  rw [occurrences_eq]
  exact le_sum_map (fun wq : Workq => wq.itemListhead.count w) hq

private theorem count_add_le {q' : QId} {wq' : Workq} (hq : sh.queues[q]? = some wq)
    (hq' : sh.queues[q']? = some wq') (hne : q ≠ q') :
    wq.itemListhead.count w + wq'.itemListhead.count w ≤ occurrences sh w := by
  have hset := sum_map_set (fun wq : Workq => wq.itemListhead.count w) { wq with itemListhead := [] } hq
  have hget : (sh.queues.set q { wq with itemListhead := [] })[q']? = some wq' := by
    rw [List.getElem?_set_ne hne]
    exact hq'
  have hle := le_sum_map (fun wq : Workq => wq.itemListhead.count w) hget
  rw [occurrences_eq]
  simp only [List.count_nil] at hset
  omega

private theorem mem_items (h : w ∈ sh.items q) :
    ∃ wq, sh.queues[q]? = some wq ∧ sh.items q = wq.itemListhead := by
  cases hq : sh.queues[q]? with
  | none => simp [Shared.items, hq] at h
  | some wq => exact ⟨wq, rfl, Shared.items_eq hq⟩

/-- An item occurs at most once, in the queues and in the hands of calls together. -/
private theorem spread (h : Machine.Run (program S) G (initial users managers) tr c) (w : Work) :
    c.total (fun p => weight w.is p.fresh) + occurrences c.shared w ≤ 1 := by
  have hplaces := (accounts w.is h).places
  have hle : tr.countP (Event.allocates w.is) ≤ tr.countP (Event.allocates (atAddr w.addr)) := by
    refine List.countP_mono_left fun e _ he => ?_
    cases e <;> simp_all [Event.allocates, Work.is, atAddr]
  have haddr := (heap h).allocated w.addr
  unfold occurrences
  split at haddr <;> omega

private theorem fresh_weight (hp : c.threads[t]? = some p) (hf : p.fresh = some w) :
    1 ≤ c.total fun p => weight w.is p.fresh := by
  have hle := c.le_total (fun p => weight w.is p.fresh) hp
  simpa [hf, weight, Work.is] using hle

private theorem mem_fresh (h : w ∈ c.owned (.inr t)) : ∃ p, c.threads[t]? = some p ∧ p.fresh = some w := by
  obtain ⟨p, hp, hf⟩ := Option.bind_eq_some_iff.mp (Option.mem_toList.mp h)
  exact ⟨p, hp, hf⟩

/-- The items have one owner each. -/
theorem items_exclusive (h : Machine.Run (program S) G (initial users managers) tr c) :
    Exclusive c.owned := by
  constructor
  · rintro (q | t)
    · refine List.nodup_iff_count_le_one.mpr fun w => ?_
      by_cases hw : w ∈ c.shared.items q
      · obtain ⟨wq, hq, hi⟩ := mem_items hw
        have hs := spread h w
        have hc := count_le (w := w) hq
        change (c.shared.items q).count w ≤ 1
        rw [hi]
        omega
      · exact (List.count_eq_zero.mpr hw).trans_le (Nat.zero_le 1)
    · change ((c.threads[t]?).bind Thread.fresh).toList.Nodup
      cases (c.threads[t]?).bind Thread.fresh <;> simp
  · have split : ∀ (q : QId) (t : Tid) (w : Work), w ∈ c.owned (.inl q) → w ∉ c.owned (.inr t) := by
      intro q t w hq ht
      obtain ⟨wq, hq', hi⟩ := mem_items hq
      obtain ⟨p, hp, hf⟩ := mem_fresh ht
      have hs := spread h w
      have hc := count_le (w := w) hq'
      have hpos : 0 < wq.itemListhead.count w := List.count_pos_iff.mpr (hi ▸ hq)
      have := fresh_weight hp hf
      omega
    rintro (q | t) (r | u) w hi hj
    · by_contra hne
      obtain ⟨wq, hq, hiq⟩ := mem_items hi
      obtain ⟨wq', hr, hir⟩ := mem_items hj
      have hs := spread h w
      have hc := count_add_le (w := w) hq hr fun h => hne (congrArg _ h)
      have hpos : 0 < wq.itemListhead.count w := List.count_pos_iff.mpr (hiq ▸ hi)
      have hpos' : 0 < wq'.itemListhead.count w := List.count_pos_iff.mpr (hir ▸ hj)
      omega
    · exact absurd hj (split q u w hi)
    · exact absurd hi (split r t w hj)
    · obtain ⟨p, hp, hf⟩ := mem_fresh hi
      obtain ⟨r, hr, hf'⟩ := mem_fresh hj
      refine congrArg _ (Config.unique_of_number_le_one (P := fun p => p.fresh.any w.is) ?_ hr ?_ hp ?_)
      · rw [Config.number_eq_total]
        have hs := spread h w
        change c.total (fun p => weight w.is p.fresh) ≤ 1
        omega
      · simp [hf', Work.is]
      · simp [hf, Work.is]

/-- An item that has an owner is live. -/
theorem owned_live (h : Machine.Run (program S) G (initial users managers) tr c) {i : QId ⊕ Tid}
    (hw : w ∈ c.owned i) : c.shared.live w = true := by
  cases i with
  | inl q =>
    obtain ⟨wq, hq, hi⟩ := mem_items hw
    exact (heap h).live_of_queued (accounts _ h) hq (hi ▸ hw)
  | inr t =>
    obtain ⟨p, hp, hf⟩ := mem_fresh hw
    exact (heap h).live_of_held (accounts _ h) hp (.inr hf)

end PthreadWorkqueue.Posix
