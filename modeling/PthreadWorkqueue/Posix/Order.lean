import PthreadWorkqueue.Posix.OvercommitMask

/-! The order of dequeues: first in first out within a queue, and by priority between queues as far
as the unlocked read of the mask allows. -/
namespace PthreadWorkqueue.Posix
open Concurrency

/-- The queue that a scan has chosen. -/
def Thread.scanned : Thread → Option QId
  | .worker _ (.scan _ p) => match p with
    | .lock q | .first q | .remove q _ | .clear q _ | .unlock q _ => some q
    | _ => none
  | _ => none

/-- The slot that a scan has chosen and not yet read. -/
def Thread.slot : Thread → Option Nat
  | .worker _ (.scan _ (.readSlot idx)) => some (idx - 1)
  | _ => none

variable {S : Settings} {sh : Shared} {t : Tid} {p : Thread} {ch : Choice} {o : Out}
  {c : PoolState} {q : QId} {wq : Workq}

/-- The last read of the mask by thread `t` in the run, with the state in which it happened: every
queue in a slot below `i` was empty. -/
def MaskRead (S : Settings) (c₀ : PoolState) (t : Tid) (i : Nat) (tr : List Event) (c : PoolState) :
    Prop :=
  ∃ tr₁ c₁ ch c₂ tr₂, Machine.Free (program S) c₀ tr₁ c₁ ∧
    (program S).step c₁ (t, ch) = some (c₂, [.readMask t]) ∧ Machine.Free (program S) c₂ tr₂ c ∧
    tr = tr₁ ++ [.readMask t] ++ tr₂ ∧ .readMask t ∉ tr₂ ∧
    ∀ j < i, ∀ r, c₁.shared.wqlist j = some r → c₁.shared.items r = []

/-- A thread that has chosen a slot or a queue has read the mask for it. -/
structure Ordered (S : Settings) (c₀ : PoolState) (tr : List Event) (c : PoolState) : Prop where
  slot : ∀ (t : Tid) (p : Thread) (i : Nat), c.threads[t]? = some p → p.slot = some i →
    MaskRead S c₀ t i tr c
  scanned : ∀ (t : Tid) (p : Thread) (q : QId), c.threads[t]? = some p → p.scanned = some q →
    ∃ i, c.shared.wqlist i = some q ∧ MaskRead S c₀ t i tr c

theorem MaskRead.extend {c₀ : PoolState} {i : Nat} {tr : List Event} {l : Tid × Choice}
    (h : MaskRead S c₀ t i tr c) (mv : (program S).Moves c l o p) (hn : .readMask t ∉ o.events) :
    MaskRead S c₀ t i (tr ++ o.events) (o.apply c l.1) := by
  obtain ⟨tr₁, c₁, ch, c₂, tr₂, h₁, hs, h₂, rfl, hno, hempty⟩ := h
  refine ⟨tr₁, c₁, ch, c₂, tr₂ ++ o.events, h₁, hs, ?_, by simp, by simp [hno, hn], hempty⟩
  exact h₂.step trivial (Machine.step_eq_some.mpr ⟨p, o, mv, rfl, rfl⟩)

/-- The events of a step that reads the mask, and what the thread knows of the slot it chooses. -/
inductive ScanStep (sh : Shared) (t : Tid) (p : Thread) (o : Out) : Prop where
  | none : o.pc.slot = none → o.pc.scanned = none → ScanStep sh t p o
  | readMask : o.events = [.readMask t] → ffs sh.wqlistMask ≠ 0 →
      o.pc.slot = some (ffs sh.wqlistMask - 1) → o.pc.scanned = none → ScanStep sh t p o
  | readSlot {i q} : p.slot = some i → o.events = [] → sh.wqlist i = some q → o.pc.slot = none →
      o.pc.scanned = some q → ScanStep sh t p o
  | keep : .readMask t ∉ o.events → o.pc.slot = p.slot → o.pc.scanned = p.scanned → ScanStep sh t p o

theorem scan_slot_step (h : Step S sh t p ch o) : ScanStep sh t p o := by
  cases h with
  | app h => cases h <;> exact .none rfl rfl
  | call h => cases h <;> exact .none rfl rfl
  | overcommit h => cases h <;> exact .none rfl rfl
  | manager h => cases h <;> exact .none rfl rfl
  | worker h =>
    cases h with
    | fault => exact .keep (by simp) rfl rfl
    | nothing => rename_i k _; cases k <;> exact .none rfl rfl
    | readMask hf => exact .readMask rfl hf rfl rfl
    | readSlot hs => exact .readSlot rfl rfl hs rfl rfl
    | lock | raced | skip | first | remove | removeLast => exact .keep (by simp) rfl rfl
    | clear _ hx => subst hx; split <;> exact .keep (by simp) rfl rfl
    | unlock => rename_i k _ _ r _; cases k <;> cases r <;> exact .none rfl rfl
    | _ => exact .none rfl rfl

/-- Only a thread itself shows that it has read the mask. -/
theorem readMask_mem (h : Step S sh t p ch o) {u : Tid} (hu : .readMask u ∈ o.events) : u = t := by
  cases h with
  | app h => cases h <;> simp at hu
  | call h => cases h <;> simp at hu
  | overcommit h => cases h <;> simp at hu
  | manager h => cases h <;> simp at hu
  | worker h =>
    cases h with
    | nothing | readMask => simpa using hu
    | _ => simp at hu

theorem spawned_scan (h : Step S sh t p ch o) : ∀ r ∈ o.spawned, r.slot = none ∧ r.scanned = none :=
  h.fresh ⟨rfl, rfl⟩ ⟨rfl, rfl⟩ ⟨rfl, rfl⟩

variable {users managers : Nat} {tr : List Event} {l : Tid × Choice}

/-- The queues below the one that `ffs` chooses are empty when the mask is read. -/
theorem maskRead_now (h : Machine.Free (program S) (initial users managers) tr c)
    (mv : (program S).Moves c l o p) (he : o.events = [.readMask l.1])
    (hf : ffs c.shared.wqlistMask ≠ 0) :
    MaskRead S (initial users managers) l.1 (ffs c.shared.wqlistMask - 1) (tr ++ o.events)
      (o.apply c l.1) := by
  refine ⟨tr, c, l.2, o.apply c l.1, [], h, ?_, .start, by rw [he]; simp, by simp, fun j hj r hr => ?_⟩
  · exact Machine.step_eq_some.mpr ⟨p, o, mv, rfl, he.symm⟩
  · obtain ⟨wq, hreg, _⟩ := (registry h).slots j r hr
    rw [Shared.items_eq hreg.here]
    refine Classical.byContradiction fun hne => ?_
    have hset := (masks h).announced (disciplined h) (registry h) hr hreg.here hne
    rw [(ffs_spec hf).2 j hj] at hset
    cases hset

theorem Ordered.apply (ho : Ordered S (initial users managers) tr c)
    (h : Machine.Free (program S) (initial users managers) tr c) (mv : (program S).Moves c l o p) :
    Ordered S (initial users managers) (tr ++ o.events) (o.apply c l.1) := by
  have hs := (program_step mv.next).2
  have hg := step_grows hs
  have other : ∀ u, u ≠ l.1 → .readMask u ∉ o.events := fun u hu hm => hu (readMask_mem hs hm)
  refine ⟨fun u x i hu hx => ?_, fun u x r hu hx => ?_⟩
  · obtain ⟨rfl, rfl⟩ | ⟨hne, hu⟩ | ⟨_, hu⟩ := Outcome.get_cases mv.here hu
    · cases scan_slot_step hs with
      | none hn => rw [hn] at hx; cases hx
      | readMask he hf hsl =>
        rw [hsl] at hx
        cases hx
        exact maskRead_now h mv he hf
      | readSlot _ _ _ hn => rw [hn] at hx; cases hx
      | keep hn hsl => exact (ho.slot _ p i mv.here (hsl ▸ hx)).extend mv hn
    · exact (ho.slot u x i hu hx).extend mv (other u hne)
    · rw [(spawned_scan hs x hu).1] at hx
      cases hx
  · obtain ⟨rfl, rfl⟩ | ⟨hne, hu⟩ | ⟨_, hu⟩ := Outcome.get_cases mv.here hu
    · cases scan_slot_step hs with
      | none _ hn => rw [hn] at hx; cases hx
      | readMask _ _ _ hn => rw [hn] at hx; cases hx
      | @readSlot i q hsl he hq _ hsc =>
        rw [hsc] at hx
        cases hx
        exact ⟨i, hg.wqlist i _ hq, (ho.slot _ p i mv.here hsl).extend mv (by simp [he])⟩
      | keep hn _ hsc =>
        obtain ⟨i, hi, hm⟩ := ho.scanned _ p r mv.here (hsc ▸ hx)
        exact ⟨i, hg.wqlist i r hi, hm.extend mv hn⟩
    · obtain ⟨i, hi, hm⟩ := ho.scanned u x r hu hx
      exact ⟨i, hg.wqlist i r hi, hm.extend mv (other u hne)⟩
    · rw [(spawned_scan hs x hu).2] at hx
      cases hx

theorem ordered (h : Machine.Free (program S) (initial users managers) tr c) :
    Ordered S (initial users managers) tr c := by
  refine h.invariant (Ordered S (initial users managers)) ⟨fun t p i hp hs => ?_, fun t p q hp hs => ?_⟩
    (fun _ _ _ _ _ hrun ho _ mv => ho.apply hrun mv)
  · obtain rfl | rfl := initial_threads hp <;> cases hs
  · obtain rfl | rfl := initial_threads hp <;> cases hs

/-- The queues below the one from which an overcommit worker dequeues are empty. -/
theorem overcommit_dequeue_order (hm : OcMasks c) (hd : Disciplined c)
    (hp : c.threads[t]? = some (.overcommit .scan)) (hf : ffs c.shared.ocwqMask ≠ 0) :
    ∀ j < ffs c.shared.ocwqMask - 1, ∀ r, c.shared.ocwq j = some r → c.shared.items r = [] := by
  intro j hj r hr
  have hfollow := hm.quiet hd hp rfl rfl hr
  rw [(ffs_spec hf).2 j hj] at hfollow
  exact Classical.byContradiction fun hne => by simp [Pending, hne] at hfollow

/-- The order of dequeues in any run: each queue is first in first out; an overcommit worker
dequeues from the first queue that has items; and when a `wqlist_scan` returns an item, all queues
before it were empty when the call read the mask. -/
theorem dequeue_order (S : Settings) (users managers : Nat) (tr : List Event) (c : PoolState)
    (h : Machine.Free (program S) (initial users managers) tr c) :
    (∀ q, dequeuedFrom q tr <+: insertedInto q tr) ∧
    (∀ l x o q w, (program S).Moves c l o (.overcommit x) → .dequeue l.1 q w ∈ o.events →
      ∃ i, c.shared.ocwq i = some q ∧ ∀ j < i, ∀ r, c.shared.ocwq j = some r →
        c.shared.items r = []) ∧
    (∀ (t : Tid) (v : WorkerVars) (k : ScanKind) (q : QId) (w : Work),
      c.threads[t]? = some (.worker v (.scan k (.unlock q (some w)))) →
      ∃ i, c.shared.wqlist i = some q ∧ MaskRead S (initial users managers) t i tr c) := by
  refine ⟨fun q => ?_, fun ⟨t, ch⟩ x o q w mv he => ?_, fun t v k q w ht => ?_⟩
  · rw [inserted_eq_dequeued_append_items h q]
    exact List.prefix_append _ _
  · have hs := (program_step mv.next).2
    have hp := mv.here
    cases hs with
    | overcommit hs =>
      cases hs with
      | dequeue hf hq | dequeueLast hf hq =>
        obtain ⟨rfl, rfl⟩ : q = _ ∧ w = _ := by simpa using he
        exact ⟨_, hq, overcommit_dequeue_order (ocMasks h) (disciplined h) hp hf⟩
      | _ => simp at he
  · exact (ordered h).scanned t _ q ht rfl

/-- A worker returns the item of the second queue while the first one is empty. -/
theorem dequeue_order_second_queue : ∃ tr c,
    Machine.Free (program ⟨2, 2, 2, 0, false⟩) (initial 1 0) tr c ∧
      (∃ v w, c.threads[2]? = some (.worker v (.scan .fast (.unlock 1 (some w))))) ∧
      ∃ i, c.shared.wqlist i = some 1 ∧ MaskRead ⟨2, 2, 2, 0, false⟩ (initial 1 0) 2 i tr c := by
  obtain ⟨tr, c, hrun, hP⟩ := Machine.exists_run (M := program ⟨2, 2, 2, 0, false⟩)
    (g := fun _ _ => true) (c := initial 1 0)
    (createFirst 0 0 ++ createNextQueue 0 1 0 ++ [(1, .value 100), (1, .value 0)] ++ startWorker 1 ++
      [(0, .request (.additem 1 (some 7) 70))] ++ steps 0 8 ++ steps 2 7)
    (fun r => decide (r.1.threads[2]? = some (Thread.worker ⟨1, 1⟩
      (.scan .fast (.unlock 1 (some ⟨0, some 7, 70, 0, 0⟩)))))) (by decide +kernel)
  have ht := of_decide_eq_true hP
  exact ⟨tr, c, hrun.free, ⟨_, _, ht⟩, (dequeue_order _ _ _ tr c hrun.free).2.2 _ _ _ _ _ ht⟩

end PthreadWorkqueue.Posix
