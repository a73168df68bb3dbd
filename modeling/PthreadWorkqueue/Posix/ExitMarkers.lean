import PthreadWorkqueue.Posix.Lifecycle

/-! Exit markers: the items with a null function, which `worker_stop` posts and which send a worker
home. A marker is outstanding from its allocation until a worker has left with it. -/
namespace PthreadWorkqueue.Posix
open Concurrency

def Work.isMarker (w : Work) : Bool := w.func.isNone

theorem Work.isMarker_eq_false {w : Work} (h : w.func ≠ none) : w.isMarker = false :=
  Option.isNone_eq_false_iff.mpr (Option.isSome_iff_ne_none.mpr h)

/-- Only the slow path dequeues markers, a worker leaves with a marker, and a callback is that of a
real item. -/
def WorkerPc.markerOk : WorkerPc → Prop
  | .scan k p => match p with
    | .remove _ w | .clear _ w | .unlock _ (some w) => k.skipThreadExitEvents = true → w.func ≠ none
    | _ => True
  | .spinReadIdle w | .spinPost w | .spinLeave (some w) => w.func ≠ none
  | .decIdle w | .invoke w | .incIdle w | .free w => w.func ≠ none
  | .exitDecIdle w | .exitDecCount w | .exitFree w => w.func = none
  | _ => True

def Caller.markerOk : Caller → Prop
  | .worker _ w => w.func ≠ none
  | _ => True

namespace Thread

def markerOk : Thread → Prop
  | .app k | .call k _ => k.markerOk
  | .worker _ p => p.markerOk
  | _ => True

/-- The item with which a worker has not yet left. -/
def leaving : Thread → Option Work
  | .worker _ (.exitFree _) => none
  | p => p.held

/-- The outstanding markers in the hands of a thread. -/
def markers (p : Thread) : Nat := weight Work.isMarker p.fresh + weight Work.isMarker p.leaving

end Thread

/-- The markers in the queues. -/
def Shared.queuedMarkers (sh : Shared) : Nat := sh.queued fun _ w => w.isMarker.toNat

/-- The markers that were made and with which no worker has left. -/
def outstanding (c : PoolState) : Nat := c.shared.queuedMarkers + c.total Thread.markers

variable {S : Settings} {sh : Shared} {t : Tid} {p : Thread} {ch : Choice} {o : Out}
  {c : PoolState}

theorem scanReturn_markerOk {k : ScanKind} {r : Option Work}
    (h : ∀ w, r = some w → k.skipThreadExitEvents = true → w.func ≠ none) :
    (scanReturn k r).markerOk := by
  cases r with
  | none => cases k <;> trivial
  | some w =>
    cases k with
    | wait => trivial
    | fast | spin => exact h w rfl rfl

theorem markerOk_step (h : Step S sh t p ch o) (ok : p.markerOk) :
    o.pc.markerOk ∧ ∀ r ∈ o.spawned, r.markerOk := by
  have fresh : ∀ r ∈ o.spawned, r.markerOk := h.fresh trivial trivial trivial
  cases h with
  | app h =>
    cases h with
    | overcommitReturn => exact ⟨trivial, fresh⟩
    | _ => exact ⟨ok, fresh⟩
  | call h =>
    cases h with
    | managerStart | ocCreate => exact ⟨ok, fresh⟩
    | _ => exact ⟨ok, fresh⟩
  | worker h =>
    cases h with
    | nothing => exact ⟨scanReturn_markerOk nofun, fresh⟩
    | first _ _ hf => exact ⟨hf, fresh⟩
    | clear _ hx => subst hx; split <;> exact ⟨ok, fresh⟩
    | @unlock k q wq r =>
      refine ⟨scanReturn_markerOk ?_, fresh⟩
      rintro w rfl
      exact ok
    | waitExit hf | waitWork hf => exact ⟨hf, fresh⟩
    | spinRejected | exitFree | free => exact ⟨trivial, fresh⟩
    | _ => exact ⟨ok, fresh⟩
  | overcommit h => cases h <;> exact ⟨trivial, fresh⟩
  | manager h =>
    cases h with
    | created => exact ⟨trivial, fresh⟩
    | _ => exact ⟨trivial, fresh⟩

variable {G : PoolState → Nat × Choice → Prop} {users managers : Nat} {tr : List Event}

theorem markerOk (h : Machine.Run (program S) G (initial users managers) tr c) :
    ∀ (t : Tid) (p : Thread), c.threads[t]? = some p → p.markerOk := by
  refine h.invariant (fun _ c => ∀ (t : Tid) (p : Thread), c.threads[t]? = some p → p.markerOk)
    (fun t p hp => ?_) ?_
  · obtain rfl | rfl := initial_threads hp <;> trivial
  · intro tr c l p o _ ok _ mv
    obtain ⟨hpc, hsp⟩ := markerOk_step (program_step mv.next).2 (ok _ _ mv.here)
    exact Outcome.forall_apply ok mv.here (fun _ => hpc) (fun _ _ _ _ h => h) fun _ => hsp

/-! The markers and the workers that they are for -/

def Thread.isManager : Thread → Bool
  | .manager _ _ => true
  | _ => false

theorem Step.isManager_pc (h : Step S sh t p ch o) : o.pc.isManager = p.isManager := by
  cases h with
  | app h => cases h <;> rfl
  | call h => cases h <;> rfl
  | worker h => cases h <;> rfl
  | overcommit h => cases h <;> rfl
  | manager h => cases h <;> rfl

/-- The step gives up on a worker whose `pthread_create` has failed. -/
def Thread.givesUp : Thread → Bool
  | .manager _ (.start _ .decCount) => true
  | _ => false

/-- The markers that a step makes. -/
def made (o : Out) : Nat := o.events.countP (Event.allocates Work.isMarker)

/-- A worker that leaves takes a marker with it, and only `worker_stop` makes markers. -/
structure DrainStep (sh : Shared) (p : Thread) (o : Out) : Prop where
  markers : o.shared.queuedMarkers + o.pc.markers ≤ sh.queuedMarkers + p.markers + made o
  count : p.givesUp = false → sh.count + o.shared.queuedMarkers + o.pc.markers ≤
    o.shared.count + sh.queuedMarkers + p.markers + made o
  spawned : ∀ r ∈ o.spawned, r.markers = 0

theorem made_eq_zero (h : Step S sh t p ch o) (hp : p.isManager = false) : made o = 0 := by
  cases h with
  | app h => cases h <;> rfl
  | call h => cases h <;> rfl
  | worker h => cases h <;> rfl
  | overcommit h => cases h <;> rfl
  | manager h => cases hp

/-- `count` falls when a worker leaves and when one could not be created. -/
theorem count_step (h : Step S sh t p ch o) : sh.count ≤ o.shared.count ∨
    (∃ v w, p = .worker v (.exitDecCount w) ∧ o = ⟨{ sh with count := atomicDec sh.count },
      .worker v (.exitFree w), [], []⟩) ∨ p.givesUp = true := by
  cases h with
  | app h => cases h <;> exact .inl (Nat.le_refl _)
  | call h =>
    cases h with
    | quiet hq | quietReturn hq => obtain ⟨_, _, _, _, rfl⟩ := hq; exact .inl (Nat.le_refl _)
    | _ => exact .inl (Nat.le_refl _)
  | worker h =>
    cases h with
    | exitDecCount => exact .inr (.inl ⟨_, _, rfl, rfl⟩)
    | exitFree | free =>
      obtain ⟨_, _, he⟩ := witemFree_eq sh ‹Work›
      rw [he]
      exact .inl (Nat.le_refl _)
    | _ => exact .inl (Nat.le_refl _)
  | overcommit h =>
    cases h with
    | free =>
      obtain ⟨_, _, he⟩ := witemFree_eq sh ‹Work›
      rw [he]
      exact .inl (Nat.le_refl _)
    | _ => exact .inl (Nat.le_refl _)
  | manager h =>
    cases h with
    | plain hq => obtain ⟨_, _, _, _, rfl⟩ := hq; exact .inl (Nat.le_refl _)
    | incCount => exact .inl (Nat.le_succ _)
    | decCount => exact .inr (.inr rfl)
    | _ => exact .inl (Nat.le_refl _)

theorem Thread.markers_le (p : Thread) :
    p.markers ≤ weight Work.isMarker p.fresh + weight Work.isMarker p.held := by
  unfold Thread.markers Thread.leaving
  split
  · exact Nat.le_add_right _ _
  · exact Nat.le_refl _

theorem Thread.markers_eq (h : ∀ v w, p ≠ .worker v (.exitFree w)) :
    p.markers = weight Work.isMarker p.fresh + weight Work.isMarker p.held := by
  unfold Thread.markers Thread.leaving
  split
  · exact absurd rfl (h _ _)
  · rfl

theorem drain_step (hm : Masks c) (hr : Registry c) (hs : Scoreboard tr c)
    (hp : c.threads[t]? = some p) (ok : p.markerOk) (h : Step S c.shared t p ch o) :
    DrainStep c.shared p o := by
  have st := life_step Work.isMarker h
  have flow := (list_step hm hr hp h).queued fun _ w => w.isMarker.toNat
  rw [sum_inflow, sum_outflow] at flow
  change o.shared.queuedMarkers + _ = c.shared.queuedMarkers + _ at flow
  have hfresh := st.fresh
  have hheld := st.held
  have halloc : made o = o.events.countP (Event.allocates Work.isMarker) := rfl
  have hpc := o.pc.markers_le
  have spawned : ∀ r ∈ o.spawned, r.markers = 0 := fun r hr => by
    have := r.markers_le
    rw [(st.spawned r hr).1, (st.spawned r hr).2.1] at this
    exact Nat.le_zero.mp this
  have markers : o.shared.queuedMarkers + o.pc.markers ≤
      c.shared.queuedMarkers + p.markers + made o := by
    by_cases hx : ∃ v w, p = .worker v (.exitFree w)
    · obtain ⟨v, w, rfl⟩ := hx
      cases h with
      | worker h =>
        cases h with
        | fault => exact Nat.le_refl _
        | exitFree =>
          obtain ⟨_, _, he⟩ := witemFree_eq c.shared w
          rw [he]
          exact Nat.le_refl _
    · have := p.markers_eq fun v w he => hx ⟨v, w, he⟩
      omega
  refine ⟨markers, fun hg => ?_, spawned⟩
  rcases count_step h with hc | ⟨v, w, rfl, rfl⟩ | hx
  · omega
  · have hone : (Thread.worker v (.exitDecCount w)).markers = 1 := by
      have hf : w.func = none := ok
      simp [Thread.markers, Thread.leaving, Thread.fresh, Thread.held, WorkerPc.item, weight,
        Work.isMarker, hf]
    have hdec := atomicDec_add_one (hs.le hp).1
    change c.shared.count + c.shared.queuedMarkers + 0 ≤ atomicDec c.shared.count + _ + _ + 0
    omega
  · rw [hg] at hx
    cases hx

/-! Where markers cannot be -/

/-- The markers in the queues of the overcommit pool. -/
def Shared.overcommitMarkers (sh : Shared) : Nat := sh.queued fun b w => (b && w.isMarker).toNat

theorem overcommit_markers_step (hr : Registry c) (hp : c.threads[t]? = some p)
    (h : Step S c.shared t p ch o) (ok : ∀ e ∈ o.events, e.itemOk) (hl : ListStep c.shared t o) :
    o.shared.overcommitMarkers ≤ c.shared.overcommitMarkers := by
  have flow := hl.queued fun b w => (b && w.isMarker).toNat
  have hin : (o.events.map (Event.inflow (fun b w => (b && w.isMarker).toNat) c.shared)).sum = 0 := by
    refine sum_map_eq_zero fun e he => ?_
    cases e with
    | accept u q w =>
      have hf : w.isMarker = false := Work.isMarker_eq_false (ok _ he)
      simp [Event.inflow, hf]
    | post u q w =>
      -- worker_stop works on a queue of the registry that the workers scan
      have hq : ∃ wq, Registered c.shared q wq ∧ wq.overcommit = false := by
        have hreg := hr.threads t p hp
        cases h with
        | app h => cases h <;> simp at he
        | call h => cases h <;> simp at he
        | worker h => cases h <;> simp at he
        | overcommit h => cases h <;> simp at he
        | manager h =>
          cases h with
          | insert =>
            simp only [List.mem_singleton, Event.post.injEq] at he
            obtain ⟨_, rfl, _⟩ := he
            exact hreg
          | _ => simp at he
      obtain ⟨wq, hreg, hk⟩ := hq
      simp [Event.inflow, Shared.kind_eq hreg.here, hk]
    | _ => rfl
  change o.shared.overcommitMarkers + _ = c.shared.overcommitMarkers + _ at flow
  omega

/-- No queue of the overcommit pool ever contains a marker. -/
theorem overcommitMarkers_eq_zero (h : Machine.Run (program S) G (initial users managers) tr c) :
    c.shared.overcommitMarkers = 0 := by
  refine h.invariant (fun _ c => c.shared.overcommitMarkers = 0) rfl ?_
  intro tr c l p o hrun ih _ mv
  have hs := (program_step mv.next).2
  have := overcommit_markers_step (registry hrun) mv.here hs
    (itemOk_step hs ((itemOk hrun).1 _ _ mv.here)).2.1 (run_list_step hrun mv)
  change o.shared.overcommitMarkers = 0
  omega

theorem overcommit_item_real {q : QId} {wq : Workq} {w : Work} (h : c.shared.overcommitMarkers = 0)
    (hq : c.shared.queues[q]? = some wq) (hk : wq.overcommit = true) (hw : w ∈ wq.itemListhead) :
    w.func ≠ none := by
  intro hf
  have hsum : (wq.itemListhead.map fun w => (wq.overcommit && w.isMarker).toNat).sum ≤
      c.shared.overcommitMarkers :=
    List.le_sum_of_mem (List.mem_map.mpr ⟨wq, List.mem_of_getElem? hq, rfl⟩)
  have hone : (wq.overcommit && w.isMarker).toNat ≤
      (wq.itemListhead.map fun w => (wq.overcommit && w.isMarker).toNat).sum :=
    List.le_sum_of_mem (List.mem_map.mpr ⟨w, hw, rfl⟩)
  simp only [hk, Work.isMarker, hf, Bool.true_and, Option.isNone_none, Bool.toNat_true] at hone hsum
  omega

/-- An overcommit worker has dequeued real items only. -/
def Thread.overcommitOk : Thread → Prop
  | .overcommit p => ∀ w, (Thread.overcommit p).due = some w → w.func ≠ none
  | _ => True

theorem overcommitOk_step (hr : Registry c) (hz : c.shared.overcommitMarkers = 0)
    (h : Step S c.shared t p ch o) (ok : p.overcommitOk) : o.pc.overcommitOk := by
  have head : ∀ {i : Nat} {q : QId} {wq : Workq} {w : Work} {rest : List Work},
      c.shared.ocwq i = some q → c.shared.queues[q]? = some wq → wq.itemListhead = w :: rest →
      w.func ≠ none := by
    intro i q wq w rest hi hq hl
    obtain ⟨wq', hreg, hk, _⟩ := hr.ocSlots i q hi
    rw [hreg.here] at hq
    cases hq
    exact overcommit_item_real hz hreg.here hk (hl ▸ List.mem_cons_self)
  cases h with
  | app h =>
    cases h with
    | overcommitReturn => exact nofun
    | _ => trivial
  | call h => cases h <;> trivial
  | worker h => cases h <;> trivial
  | overcommit h =>
    cases h with
    | fault => exact ok
    | dequeue _ hi hq hl | dequeueLast _ hi hq hl =>
      intro w hw
      cases hw
      exact head hi hq hl
    | unlock | fetch | free => exact ok
    | call => trivial
    | _ => exact nofun
  | manager h => cases h <;> trivial

theorem overcommitOk (h : Machine.Run (program S) G (initial users managers) tr c) :
    ∀ (t : Tid) (p : Thread), c.threads[t]? = some p → p.overcommitOk := by
  refine h.invariant (fun _ c => ∀ (t : Tid) (p : Thread), c.threads[t]? = some p → p.overcommitOk)
    (fun t p hp => ?_) ?_
  · obtain rfl | rfl := initial_threads hp <;> trivial
  · intro tr c l p o hrun ok _ mv
    have hs := (program_step mv.next).2
    exact Outcome.forall_apply ok mv.here
      (overcommitOk_step (registry hrun) (overcommitMarkers_eq_zero hrun) hs) (fun _ _ _ _ h => h)
      fun _ => hs.fresh trivial (by rintro w ⟨⟩) trivial

/-- Nobody calls a null function. -/
theorem no_null_callback (h : Machine.Run (program S) G (initial users managers) tr c) :
    c.shared.halted ≠ some .nullFunc := by
  refine h.invariant (fun _ c => c.shared.halted ≠ some .nullFunc)
    (by simp [initial, managerInit]) ?_
  intro tr c l p o hrun _ _ mv
  obtain ⟨hn, hs⟩ := program_step mv.next
  change o.shared.halted ≠ _
  rcases halted_step hs hn with hk | ⟨x, hf, hx⟩ | ⟨w, hw, hk⟩
  · simp [hk]
  · rw [hx]
    intro he
    cases he
    cases hf with
    | nullFunc hf => exact absurd hf (markerOk hrun _ _ mv.here)
    | overcommitNullFunc =>
      have hf := ((itemOk hrun).1 _ _ mv.here).1
      exact overcommitOk hrun _ _ mv.here _ rfl hf.symm
  · have hlive := (heap hrun).live_of_held (accounts _ hrun) mv.here (.inl hw)
    simp [hk, Shared.witemFree, if_pos hlive, hn]

/-! The way out -/

namespace Thread

/-- A worker that has left. -/
def ended : Thread → Bool
  | .worker _ .exited => true
  | _ => false

/-- A worker that holds a marker. -/
def ending (p : Thread) : Bool := p.held.any Work.isMarker

end Thread

def Event.posts : Event → Bool
  | .post _ _ _ => true
  | _ => false

/-- The steps that a worker with a marker has ahead of it at most. -/
def WorkerPc.exitRank : WorkerPc → Nat
  | .scan _ (.clear _ _) => 9
  | .scan _ (.unlock _ _) => 8
  | .waitUnlock _ => 7
  | .waitReadIdle _ => 6
  | .waitPost _ => 5
  | .waitTest _ => 4
  | .exitDecIdle _ => 3
  | .exitDecCount _ => 2
  | .exitFree _ => 1
  | _ => 0

/-- A step on a worker's way out with the marker `w`: it comes closer to the two decrements, makes
one of them, or leaves. -/
inductive ExitStep (sh : Shared) (w : Work) (x : WorkerPc) (o : Out) : Prop where
  | walk {v x'} : o.pc = .worker v x' → x'.item = some w → 3 ≤ x'.exitRank →
      x'.exitRank < x.exitRank → o.shared.idle = sh.idle → o.shared.count = sh.count → ExitStep sh w x o
  | idle {v} : x = .exitDecIdle w → o.pc = .worker v (.exitDecCount w) →
      o.shared.idle + 1 = sh.idle → o.shared.count = sh.count → ExitStep sh w x o
  | count {v} : x = .exitDecCount w → o.pc = .worker v (.exitFree w) →
      o.shared.idle = sh.idle → o.shared.count + 1 = sh.count → ExitStep sh w x o
  | gone {v} : x = .exitFree w → o.pc = .worker v .exited →
      o.shared.idle = sh.idle → o.shared.count = sh.count → ExitStep sh w x o

/-- A worker that holds a marker can go on, and is on its way out. -/
theorem exit_step {v : WorkerVars} {x : WorkerPc} {w : Work}
    (h : Machine.Run (program S) G (initial users managers) tr c)
    (hp : c.threads[t]? = some (.worker v x)) (hw : x.item = some w) (hf : w.func = none)
    (alive : c.shared.halted = none) :
    ∃ o, program S c.shared t (.worker v x) .go = some o ∧ ExitStep c.shared w x o := by
  have ok := markerOk h _ _ hp
  have hlive := (heap h).live_of_held (accounts _ h) hp (.inl hw)
  have hreg := (registry h).threads _ _ hp
  obtain ⟨hc, hi, _⟩ := (scoreboard h).le hp
  have hprog : program S c.shared t (.worker v x) .go = workerNext S c.shared t v x .go := by
    simp [program, alive]
  rw [hprog]
  cases x with
  | scan k y =>
    -- only the slow path has dequeued a marker
    have slow : (k.skipThreadExitEvents = true → w.func ≠ none) → k = .wait := by
      cases k with
      | wait => exact fun _ => rfl
      | fast | spin => exact fun h => absurd hf (h rfl)
    cases y with
    | clear q w' =>
      cases hw
      obtain rfl := slow ok
      obtain ⟨wq, hq, _⟩ := hreg
      simp only [workerNext, scanNext, withQueue, hq.here, goTo, if_pos andNot_indexBit_clear]
      refine ⟨_, rfl, .walk rfl rfl ?_ ?_ rfl rfl⟩ <;> simp [WorkerPc.exitRank]
    | unlock q r =>
      cases hw
      obtain rfl := slow ok
      obtain ⟨wq, hq, _⟩ := hreg
      simp only [workerNext, scanNext, withQueue, hq.here, goTo]
      refine ⟨_, rfl, .walk rfl rfl ?_ ?_ rfl rfl⟩ <;> simp [WorkerPc.exitRank, scanReturn]
    | _ => cases hw
  | waitUnlock | waitPost =>
    cases hw
    refine ⟨_, rfl, .walk rfl rfl ?_ ?_ rfl rfl⟩ <;> simp [WorkerPc.exitRank]
  | waitReadIdle =>
    cases hw
    refine ⟨_, rfl, ?_⟩
    by_cases hone : c.shared.idle = 1
    · rw [if_pos hone]
      refine .walk rfl rfl ?_ ?_ rfl rfl <;> simp [WorkerPc.exitRank]
    · rw [if_neg hone]
      refine .walk rfl rfl ?_ ?_ rfl rfl <;> simp [WorkerPc.exitRank]
  | waitTest =>
    cases hw
    simp only [workerNext, if_pos hlive, goTo, if_pos hf]
    refine ⟨_, rfl, .walk rfl rfl ?_ ?_ rfl rfl⟩ <;> simp [WorkerPc.exitRank]
  | exitDecIdle =>
    cases hw
    exact ⟨_, rfl, .idle rfl rfl (atomicDec_add_one hi) rfl⟩
  | exitDecCount =>
    cases hw
    exact ⟨_, rfl, .count rfl rfl rfl (atomicDec_add_one hc)⟩
  | exitFree =>
    cases hw
    refine ⟨_, rfl, ?_⟩
    rw [Shared.witemFree, if_pos hlive]
    exact .gone rfl rfl rfl rfl
  | spinReadIdle | spinPost | decIdle | invoke | incIdle | free =>
    cases hw
    exact absurd hf ok
  | spinLeave r =>
    cases hw
    exact absurd hf ok
  | _ => cases hw

/-- A worker ends when it frees a marker, and only then. -/
theorem ended_step (h : Step S sh t p ch o) (ok : p.markerOk) (real : p.overcommitOk) :
    o.events.countP (Event.frees Work.isMarker) + p.ended.toNat = o.pc.ended.toNat := by
  cases h with
  | app h => cases h <;> rfl
  | call h => cases h <;> rfl
  | worker h =>
    cases h with
    | fault => exact Nat.zero_add _
    | @nothing k => cases k <;> rfl
    | @unlock k _ _ r => cases k <;> cases r <;> rfl
    | @exitFree w =>
      have hf : w.isMarker = true := Option.isNone_iff_eq_none.mpr ok
      simp [Event.frees, hf, Thread.ended]
    | @free w => simp [Event.frees, Work.isMarker_eq_false ok, Thread.ended]
    | _ => rfl
  | overcommit h =>
    cases h with
    | @free w => simp [Event.frees, Work.isMarker_eq_false (real w rfl), Thread.ended]
    | _ => rfl
  | manager h => cases h <;> rfl

theorem freed_eq_ended (h : Machine.Run (program S) G (initial users managers) tr c) :
    tr.countP (Event.frees Work.isMarker) = c.number Thread.ended := by
  rw [Config.number_eq_total]
  have := h.balance (fun tr _ => tr.countP (Event.frees Work.isMarker)) (fun _ _ => 0)
    (fun p => p.ended.toNat) ?_ ?_
  · simpa using this
  · rw [← Config.number_eq_total, initial_number rfl rfl]
    rfl
  · intro tr c l p o hrun _ mv _
    have hs := (program_step mv.next).2
    have hend := ended_step hs (markerOk hrun _ _ mv.here) (overcommitOk hrun _ _ mv.here)
    have hzero : (o.spawned.map fun r => r.ended.toNat).sum = 0 :=
      sum_map_eq_zero (hs.fresh rfl rfl rfl)
    simp only [List.countP_append]
    omega

theorem posts_eq_inserts (ok : ∀ e ∈ tr, e.itemOk) :
    tr.countP Event.posts = tr.countP (Event.inserts Work.isMarker) := by
  refine List.countP_congr fun e he => ?_
  have := ok e he
  cases e with
  | accept _ _ w => simp [Event.posts, Event.inserts, Work.isMarker_eq_false this]
  | post _ _ w => simp [Event.posts, Event.inserts, Option.isNone_iff_eq_none.mpr this, Work.isMarker]
  | _ => simp [Event.posts, Event.inserts]

private theorem go_of_item {v : WorkerVars} {x : WorkerPc} {w : Work} (hw : x.item = some w)
    (h : workerNext S sh t v x ch = some o) : ch = .go := by
  cases x <;> cases ch <;> first | rfl | cases h | cases hw

private theorem dequeued_marker {q : QId} {w : Work} (h : Step S sh t p ch o) (real : o.pc.overcommitOk)
    (he : Event.dequeue t q w ∈ o.events) (hf : w.func = none) :
    ∃ v x, o.pc = .worker v x ∧ x.item = some w := by
  cases h with
  | app h => cases h <;> simp at he
  | call h => cases h <;> simp at he
  | worker h =>
    cases h with
    | remove | removeLast =>
      simp only [List.mem_singleton, Event.dequeue.injEq] at he
      obtain ⟨_, _, rfl⟩ := he
      exact ⟨_, _, rfl, rfl⟩
    | _ => simp at he
  | overcommit h =>
    cases h with
    | dequeue | dequeueLast =>
      simp only [List.mem_singleton, Event.dequeue.injEq] at he
      obtain ⟨_, _, rfl⟩ := he
      exact absurd hf (real _ rfl)
    | _ => simp at he
  | manager h => cases h <;> simp at he

private theorem ended_by_marker (h : program S sh t p ch = some o) (ok : p.markerOk)
    (hend : o.pc.ended = true) : ∃ v w, p = .worker v (.exitFree w) ∧ w.func = none := by
  obtain ⟨alive, hs⟩ := program_step h
  simp only [program, alive, if_true] at h
  cases hs with
  | app hs => cases hs <;> cases hend
  | call hs => cases hs <;> cases hend
  | @worker v x _ _ hs =>
    cases hs with
    | exitFree => exact ⟨_, _, rfl, ok⟩
    | fault =>
      cases x with
      | exited => cases ch <;> cases h
      | _ => cases hend
    | @nothing k => cases k <;> cases hend
    | @unlock k _ _ r => cases k <;> cases r <;> cases hend
    | _ => cases hend
  | overcommit hs => cases hs <;> cases hend
  | manager hs => cases hs <;> cases hend

private theorem held_marker {w : Work} (ok : p.markerOk) (real : p.overcommitOk)
    (hw : p.held = some w) (hf : w.func = none) : ∃ v x, p = .worker v x := by
  cases p with
  | worker v x => exact ⟨v, x, rfl⟩
  | app k | call k _ =>
    cases k with
    | worker =>
      cases hw
      exact absurd hf ok
    | _ => cases hw
  | overcommit x =>
    refine absurd hf (real w ?_)
    cases x <;> first | exact hw | cases hw
  | manager => cases hw

/-- Exit markers are consumed only as exits. -/
structure MarkersExit (S : Settings) (tr : List Event) (c : PoolState) : Prop where
  /-- Nobody calls a null function. -/
  callback : c.shared.halted ≠ some .nullFunc ∧
    ∀ t w f a, Event.invoke t w f a ∈ tr → w.func = some f
  /-- A `wqlist_scan` that skips markers returns none. -/
  skipped : ∀ (t : Tid) (v : WorkerVars) (k : ScanKind) (q : QId) (w : Work),
    c.threads[t]? = some (.worker v (.scan k (.unlock q (some w)))) →
    k.skipThreadExitEvents = true → w.func ≠ none
  /-- No scan, that of the slow path included, returns a marker to `worker_main`. -/
  returned : ∀ (t : Tid) (v : WorkerVars) (w : Work),
    c.threads[t]? = some (.worker v (.decIdle w)) → w.func ≠ none
  /-- No overcommit queue contains a marker. -/
  overcommit : ∀ wq ∈ c.shared.queues, wq.overcommit = true → ∀ w ∈ wq.itemListhead, w.func ≠ none
  /-- Who dequeues a marker is a worker, which then holds it. -/
  dequeued : ∀ l p o q w, (program S).Moves c l o p → Event.dequeue l.1 q w ∈ o.events →
    w.func = none → ∃ v x, o.pc = .worker v x ∧ x.item = some w
  /-- Who holds a marker is a worker on its way out, with one decrement of `idle` and one of `count`
  ahead of it, and it can always go on. -/
  exits : ∀ (t : Tid) (p : Thread) (w : Work), c.threads[t]? = some p → p.held = some w →
    w.func = none → ∃ v x, p = .worker v x ∧
      (c.shared.halted = none → ∃ o, program S c.shared t p .go = some o) ∧
      ∀ ch o, program S c.shared t p ch = some o → ExitStep c.shared w x o
  /-- A worker ends in no other way. -/
  ended : ∀ l p o, (program S).Moves c l o p → o.pc.ended = true →
    ∃ v w, p = .worker v (.exitFree w) ∧ w.func = none
  /-- Every marker that `worker_stop` has inserted is queued, or a worker ends or has ended for it. -/
  account : c.number Thread.ended + c.number Thread.ending + c.shared.queuedMarkers =
    tr.countP Event.posts

/-- In every reachable state, exit markers are consumed only as exits. -/
theorem markers_are_consumed_as_exits (S : Settings) (users managers : Nat) (tr : List Event)
    (c : PoolState) (h : Machine.Free (program S) (initial users managers) tr c) :
    MarkersExit S tr c where
  callback := ⟨no_null_callback h, fun t w f a he => ((itemOk h).2 _ he).1⟩
  skipped t v k q w hp hk := markerOk h _ _ hp hk
  returned t v w hp := markerOk h _ _ hp
  overcommit wq hwq hk w hw := by
    obtain ⟨q, hq⟩ := List.getElem?_of_mem hwq
    exact overcommit_item_real (overcommitMarkers_eq_zero h) hq hk hw
  dequeued l p o q w mv he hf := by
    have hs := (program_step mv.next).2
    have real := overcommitOk_step (registry h) (overcommitMarkers_eq_zero h) hs
      (overcommitOk h _ _ mv.here)
    exact dequeued_marker hs real he hf
  exits t p w hp hw hf := by
    obtain ⟨v, x, rfl⟩ := held_marker (markerOk h _ _ hp) (overcommitOk h _ _ hp) hw hf
    refine ⟨v, x, rfl, fun alive => ?_, fun ch o hs => ?_⟩
    · obtain ⟨o, ho, _⟩ := exit_step h hp hw hf alive
      exact ⟨o, ho⟩
    · obtain ⟨alive, _⟩ := program_step hs
      obtain ⟨o', ho, hexit⟩ := exit_step h hp hw hf alive
      have hgo : ch = .go := by
        simp only [program, alive, if_true] at hs
        exact go_of_item hw hs
      rw [hgo, ho] at hs
      cases hs
      exact hexit
  ended l p o mv hend := by
    have hs := (program_step mv.next).2
    exact ended_by_marker mv.next (markerOk h _ _ mv.here) hend
  account := by
    have ha := accounts Work.isMarker h
    have hin := ha.inserted
    have hout := ha.dequeued
    have hheld : c.number Thread.ending = c.total fun p => weight Work.isMarker p.held :=
      Config.number_eq_total _ _
    rw [posts_eq_inserts (itemOk h).2, hin, hout, freed_eq_ended h, hheld]
    change _ + _ + c.shared.queuedMarkers = c.shared.queuedMarkers + _
    omega

/-- One of two workers is stopped and leaves. -/
theorem marker_is_consumed_as_exit : ∃ tr c,
    Machine.Free (program ⟨1, 2, 1, 0, false⟩) (initial 1 0) tr c ∧ tr.countP Event.posts = 1 ∧
      c.number Thread.ended = 1 ∧ c.shared.count = 1 ∧ MarkersExit ⟨1, 2, 1, 0, false⟩ tr c := by
  obtain ⟨tr, c, hrun, hP⟩ := Machine.exists_run (M := program ⟨1, 2, 1, 0, false⟩)
    (g := fun _ _ => true) (c := initial 1 0)
    (createFirst 0 0 ++ [(1, .value 100), (1, .value 0)] ++ startWorker 1 ++ startWorker 1 ++
      steps 2 7 ++ (List.replicate 7 (idleTick 1)).flatten ++ stopTick 1 2 ++ steps 2 14)
    (fun r => decide (r.2.countP Event.posts = 1 ∧ r.1.number Thread.ended = 1 ∧
      r.1.shared.count = 1)) (by decide +kernel)
  obtain ⟨hpost, hend, hcount⟩ := of_decide_eq_true hP
  exact ⟨tr, c, hrun.free, hpost, hend, hcount,
    markers_are_consumed_as_exits _ _ _ tr c hrun.free⟩

end PthreadWorkqueue.Posix
