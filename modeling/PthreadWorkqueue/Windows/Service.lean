import PthreadWorkqueue.Concurrency.Service
import PthreadWorkqueue.Windows.Coverage

/-! The legacy manager does what a pool is for, and what this says of its items. -/
namespace PthreadWorkqueue.Windows
open Concurrency
open Posix (Work Workq Tid QId)

/-- The item whose callback is running. -/
def Caller.item : Caller → Option Work
  | .user => none
  | .worker w => some w

/-- The item that `worker_main` has taken and not yet freed. -/
def Thread.held : Thread → Option Work
  | .app k | .call k _ => k.item
  | .worker (.unlock _ _ _ r) | .worker (.rdunlock r) => r
  | .worker (.call w) | .worker (.free w) => some w
  | _ => none

def carrier : Carrier Shared Thread QId Work where
  fresh := Thread.fresh
  due := Thread.taken
  held := Thread.held
  items := Shared.items
  known sh w := w.addr < sh.heap

/-- What an event does to the items. -/
def Event.deed : Event → Option (Deed QId Work)
  | .alloc _ w => some (.make w)
  | .insert _ q w => some (.enqueue q w)
  | .invoke _ w => some (.call w)
  | .free _ w => some (.drop w)
  | .returned _ _ => none

/-- Every deed but the dequeue is an event. -/
def shown : Deed QId Work → Bool
  | .dequeue _ _ => false
  | _ => true

variable {sh : Shared} {t u : Tid} {p r : Thread} {o : Out} {q : QId} {wq wq' : Workq} {w : Work}
  {c : PoolState} {G : PoolState → Nat × Choice → Prop} {users : Nat} {tr : List Event}

/-- A step does one thing to the items, or nothing. -/
theorem step_does (h : Step sh t p o) : ∃ d, carrier.Does sh p o.shared o.pc d ∧
    o.events.filterMap Event.deed = d.toList.filter shown := by
  cases h with
  | alloc =>
    exact ⟨_, .make rfl rfl rfl rfl rfl (Nat.lt_irrefl _) (Nat.lt_succ_self _), rfl⟩
  | insert hq =>
    refine ⟨_, .enqueue rfl rfl rfl rfl ?_, rfl⟩
    rw [← items_eq hq]
    exact items_setQueue hq
  | @take i j q wq w rest hq hl =>
    have hi : carrier.items sh q = w :: rest := (items_eq hq).trans hl
    refine ⟨some (.dequeue q w), .dequeue rfl rfl rfl rfl rfl (by rw [hi]; rfl) ?_, rfl⟩
    rw [hi]
    exact items_setQueue hq
  | lock hq | unlock hq | spinInit hq | spinLock hq | nextQueue hq | taken hq =>
    exact ⟨none, .nothing rfl rfl rfl (items_touch hq rfl), rfl⟩
  | createAlloc => exact ⟨none, .nothing rfl rfl rfl (items_append _), rfl⟩
  | call => exact ⟨_, .call rfl rfl rfl rfl rfl, rfl⟩
  | free => exact ⟨_, .drop rfl rfl rfl rfl rfl, rfl⟩
  | _ => exact ⟨none, .nothing rfl rfl rfl rfl, rfl⟩

theorem Step.heap_le (h : Step sh t p o) : sh.heap ≤ o.shared.heap := by
  cases h with
  | alloc => exact Nat.le_succ _
  | _ => exact Nat.le_refl _

theorem initial_shows : carrier.Shows (initial users) .start := by
  refine .start (fun p hp => ?_) fun q => rfl
  rw [List.eq_of_mem_replicate hp]
  exact ⟨rfl, rfl, rfl⟩

/-- In every run the manager does, deed by deed, what a pool is for. -/
theorem manager_serves (h : Machine.Run program G (initial users) tr c) :
    ∃ ds s, Service.start.run ds = some s ∧ carrier.Shows c s ∧
      tr.filterMap Event.deed = ds.filter shown := by
  refine Carrier.serves Event.deed shown initial_shows (fun tr c l p o _ mv => ?_) h
  have hs := program_step mv.next
  obtain ⟨d, does, hview⟩ := step_does hs
  refine ⟨d, does, hview, fun r hr => ?_, fun w hw => Nat.lt_of_lt_of_le hw hs.heap_le⟩
  rw [hs.spawned r hr]
  exact ⟨rfl, rfl, rfl⟩

/-! The items of a run -/

/-- No item is twice in a queue. -/
theorem items_nodup (h : Machine.Run program G (initial users) tr c) (q : QId) :
    (c.shared.items q).Nodup := by
  obtain ⟨ds, s, hs, hshows, -⟩ := manager_serves h
  have hnodup := (Service.laws hs).waiting_nodup q
  rw [hshows.waiting] at hnodup
  exact hnodup

/-- No item is in two queues. -/
theorem items_unique (h : Machine.Run program G (initial users) tr c) {r : QId}
    (hq : w ∈ c.shared.items q) (hr : w ∈ c.shared.items r) : q = r := by
  obtain ⟨ds, s, hs, hshows, -⟩ := manager_serves h
  refine (Service.laws hs).waiting_unique (w := w) ?_ ?_ <;> rw [hshows.waiting]
  · exact hq
  · exact hr

/-- An item that a call is about to insert is in no queue. -/
theorem fresh_not_queued (h : Machine.Run program G (initial users) tr c)
    (hp : c.threads[t]? = some p) (hw : p.fresh = some w) (q : QId) : w ∉ c.shared.items q := by
  obtain ⟨ds, s, hs, hshows, -⟩ := manager_serves h
  have hfresh : w ∈ s.fresh := hshows.fresh ▸ Config.mem_gather hp hw
  have hnot := (Service.laws hs).not_waiting_of_fresh hfresh q
  rw [hshows.waiting] at hnot
  exact hnot

/-- Two calls that are about to insert an item insert different ones. -/
theorem fresh_unique (h : Machine.Run program G (initial users) tr c) (hp : c.threads[t]? = some p)
    (hw : p.fresh = some w) (hr : c.threads[u]? = some r) (hw' : r.fresh = some w) : u = t := by
  obtain ⟨ds, s, hs, hshows, -⟩ := manager_serves h
  have hone := (Service.laws hs).fresh_le_one w
  rw [hshows.fresh] at hone
  exact Config.gather_unique hone hp hw hr hw'

/-- Where an item is that was allocated and not freed. -/
def InUse (c : PoolState) (w : Work) : Prop :=
  (∃ q, w ∈ c.shared.items q) ∨
    ∃ (t : Tid) (p : Thread), c.threads[t]? = some p ∧ (p.fresh = some w ∨ p.held = some w)

/-- An item in use is allocated, and was not freed. -/
theorem InUse.live (h : Machine.Run program G (initial users) tr c) (hw : InUse c w) :
    w.addr < c.shared.heap ∧ ∀ t, Event.free t w ∉ tr := by
  obtain ⟨ds, s, hs, hshows, hview⟩ := manager_serves h
  have laws := Service.laws hs
  have place : (w ∈ s.fresh ∨ ∃ q, w ∈ s.waiting q) ∨ w ∈ s.held := by
    obtain ⟨q, hq⟩ | ⟨t, p, hp, hw | hw⟩ := hw
    · exact .inl (.inr ⟨q, hshows.waiting ▸ hq⟩)
    · exact .inl (.inl (hshows.fresh ▸ Config.mem_gather hp hw))
    · exact .inr (hshows.held ▸ Config.mem_gather hp hw)
  have hmade : w ∈ s.made ∧ ds.countP (Deed.drops w) = 0 := by
    obtain (hf | ⟨q, hq⟩) | hh := place
    · exact ⟨laws.mem_made (q := 0) (.inl hf), laws.not_dropped_of_waiting (q := 0) (.inl hf)⟩
    · exact ⟨laws.mem_made (.inr (.inl hq)), laws.not_dropped_of_waiting (.inr hq)⟩
    · exact ⟨laws.mem_made (q := 0) (.inr (.inr hh)), laws.not_dropped_of_held hh⟩
  refine ⟨hshows.made w hmade.1, fun t ht => ?_⟩
  have hdrop : Deed.drop w ∈ ds.filter shown := hview ▸ List.mem_filterMap.mpr ⟨_, ht, rfl⟩
  exact List.countP_eq_zero.mp hmade.2 _ (List.mem_filter.mp hdrop).1 (beq_self_eq_true w)

end PthreadWorkqueue.Windows
