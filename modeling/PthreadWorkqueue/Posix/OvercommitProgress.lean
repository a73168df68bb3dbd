import PthreadWorkqueue.Posix.Overcommit
import PthreadWorkqueue.Posix.ExitMarkers

/-! Progress of the overcommit pool by the steps of its threads alone. A thread that is still to
scan, or a signal that is still to be consumed, is enough for all queued items. -/
namespace PthreadWorkqueue.Posix
open Concurrency

variable {S : Settings} {sh : Shared} {t : Tid} {p : Thread} {ch : Choice} {o : Out}
  {c : PoolState} {q : QId} {wq : Workq} {w target : Work}

namespace Thread

/-- Of the overcommit pool, also while it runs a callback. -/
def ofOvercommit : Thread → Bool
  | .overcommit _ | .app (.overcommit _) => true
  | _ => false

/-- An overcommit thread that scans before it sleeps again or ends. -/
def ocRuns : Thread → Bool
  | .app (.overcommit _) => true
  | .overcommit p => match p with
    | .lock | .scan | .unlock _ | .fetch _ | .free _ _ _ | .call _ _ _ => true
    | .timedwait | .unlockExit | .cleanup | .exited => false
  | _ => false

/-- An upper bound on the steps before the next scan is over. -/
def ocRank : Thread → Nat
  | .app (.overcommit _) => 3
  | .overcommit p => match p with
    | .unlock _ => 7
    | .fetch _ => 6
    | .free _ _ _ => 5
    | .call _ _ _ => 4
    | .lock => 2
    | .scan | .unlockExit => 1
    | .timedwait | .cleanup | .exited => 0
  | _ => 0

end Thread

/-- What the schedule below keeps until it dequeues the item `target`. -/
structure OcHunt (target : Work) (c : PoolState) : Prop where
  alive : c.shared.halted = none
  owner : ∀ (t : Tid) (p : Thread), c.threads[t]? = some p → p.holdsOcMtx = true →
    p.ofOvercommit = true
  queued : ∃ i q, c.shared.ocwq i = some q ∧ target ∈ c.shared.items q
  awake : 0 < c.number Thread.ocRuns + c.shared.ocwqSignalCount

def ocHuntRank (c : PoolState) : Nat :=
  c.total Thread.ocRank + 2 * c.shared.ocwqSignalCount + 7 * c.shared.ocQueued

/-- The schedule goes on after a step from `c` to `d`. -/
def OcKept (target : Work) (c d : PoolState) : Prop := OcHunt target d ∧ ocHuntRank d < ocHuntRank c

namespace OcHunt

private theorem move (hI : OcHunt target c) (hp : c.threads[t]? = some p)
    (hn : o.shared.halted = none) (fresh : o.spawned = []) (self : o.pc.ofOvercommit = true)
    (hqueued : ∃ i q, o.shared.ocwq i = some q ∧ target ∈ o.shared.items q)
    (hawake : p.ocRuns.toNat + c.shared.ocwqSignalCount ≤
      o.pc.ocRuns.toNat + o.shared.ocwqSignalCount)
    (hrank : o.pc.ocRank + 2 * o.shared.ocwqSignalCount + 7 * o.shared.ocQueued <
      p.ocRank + 2 * c.shared.ocwqSignalCount + 7 * c.shared.ocQueued) :
    OcKept target c (o.apply c t) := by
  have hruns := Outcome.number_apply (P := Thread.ocRuns) (o := o) hp (by simp [fresh])
  have htotal := Outcome.total_apply (o := o) Thread.ocRank hp
  simp only [fresh, List.map_nil, List.sum_nil] at htotal
  have hpos := hI.awake
  refine ⟨⟨hn, ?_, hqueued, ?_⟩, ?_⟩
  · exact Outcome.forall_apply hI.owner hp (fun _ _ => self) (fun _ _ _ _ h => h) (by simp [fresh])
  · change 0 < _ + o.shared.ocwqSignalCount
    omega
  · change _ + 2 * o.shared.ocwqSignalCount + 7 * o.shared.ocQueued < _
    unfold ocHuntRank
    omega

/-- A step that touches no queue. -/
private theorem keep (hI : OcHunt target c) (hp : c.threads[t]? = some p)
    (hn : o.shared.halted = none) (fresh : o.spawned = []) (self : o.pc.ofOvercommit = true)
    (hw : o.shared.ocwq = c.shared.ocwq) (hq : o.shared.queues = c.shared.queues)
    (hawake : p.ocRuns.toNat + c.shared.ocwqSignalCount ≤
      o.pc.ocRuns.toNat + o.shared.ocwqSignalCount)
    (hrank : o.pc.ocRank + 2 * o.shared.ocwqSignalCount <
      p.ocRank + 2 * c.shared.ocwqSignalCount) : OcKept target c (o.apply c t) := by
  obtain ⟨i, q, hi, hmem⟩ := hI.queued
  have hqueued : o.shared.ocQueued = c.shared.ocQueued := by
    rw [Shared.ocQueued, Shared.queued, hq]
    rfl
  refine hI.move hp hn fresh self ⟨i, q, hw ▸ hi, ?_⟩ hawake (by omega)
  rwa [Shared.items, hq, ← Shared.items]

/-- The head of a queue is dequeued: the target, or another item. -/
private theorem take {rest : List Work} {i : Nat} (hI : OcHunt target c) (hr : Registry c)
    (hp : c.threads[t]? = some (.overcommit .scan)) (hn : o.shared.halted = none)
    (fresh : o.spawned = []) (hpc : o.pc = .overcommit (.unlock w))
    (hi : c.shared.ocwq i = some q) (hq : c.shared.queues[q]? = some wq)
    (hl : wq.itemListhead = w :: rest) (hw : o.shared.ocwq = c.shared.ocwq)
    (hset : o.shared.queues = c.shared.queues.set q { wq with itemListhead := rest })
    (hs : o.shared.ocwqSignalCount = c.shared.ocwqSignalCount)
    (hev : o.events = [.dequeue t q w]) :
    OcKept target c (o.apply c t) ∨ ∃ e ∈ o.events, ∃ t q, e = Event.dequeue t q target := by
  by_cases he : w = target
  · exact .inr ⟨_, by rw [hev]; exact List.mem_singleton_self _, t, q, by rw [he]⟩
  left
  obtain ⟨wq', hreg, hk, _⟩ := hr.ocSlots i q hi
  have hqueued := (ListStep.remove hq hl hset hev).queued fun b _ => b.toNat
  simp only [hev, List.map_cons, List.map_nil, List.sum_cons, List.sum_nil, Event.outflow,
    Event.inflow, Shared.kind_overcommit hq ⟨wq', hreg, hk⟩, Bool.toNat_true] at hqueued
  obtain ⟨j, r, hj, hmem⟩ := hI.queued
  refine hI.move hp hn fresh (by rw [hpc]; rfl) ⟨j, r, hw ▸ hj, ?_⟩ (by rw [hs, hpc]; exact Nat.le_refl _)
    ?_
  · rw [Shared.items_set hq hset]
    split
    · subst_vars
      rw [Shared.items_eq hq, hl] at hmem
      exact (List.mem_cons.mp hmem).resolve_left (Ne.symm he)
    · exact hmem
  · rw [hs, hpc]
    simp only [Thread.ocRank]
    unfold Shared.ocQueued
    omega

theorem ocQueued_pos (hI : OcHunt target c) (hr : Registry c) : 0 < c.shared.ocQueued := by
  obtain ⟨i, q, hi, hmem⟩ := hI.queued
  obtain ⟨wq, hreg, hk, _⟩ := hr.ocSlots i q hi
  rw [Shared.items_eq hreg.here] at hmem
  have h₁ := le_sum_map (fun wq : Workq => (wq.itemListhead.map fun _ => wq.overcommit.toNat).sum)
    hreg.here
  have h₂ : 1 ≤ (wq.itemListhead.map fun _ => wq.overcommit.toNat).sum :=
    List.le_sum_of_mem (List.mem_map.mpr ⟨target, hmem, by rw [hk]; rfl⟩)
  exact Nat.lt_of_lt_of_le h₂ h₁

/-- A step of the schedule dequeues the target, or keeps the invariant and lowers the rank. -/
theorem step {x : OcPc} (hI : OcHunt target c) (hr : Registry c) (hm : OcMasks c) (hd : Disciplined c)
    (hp : c.threads[t]? = some (.overcommit x)) (h : OvercommitStep c.shared t x ch o)
    (hn : o.shared.halted = none) (ready : x = .unlockExit ∨ (Thread.overcommit x).ocRuns = true ∨
      (x = .timedwait ∧ ch ≠ .leave ∧ 0 < c.shared.ocwqSignalCount)) :
    OcKept target c (o.apply c t) ∨ ∃ e ∈ o.events, ∃ t q, e = Event.dequeue t q target := by
  cases h with
  | fault => cases hn
  | wait hw =>
    have := OcFlow.empty_of_wait hm hd hr hp hw
    have := hI.ocQueued_pos hr
    omega
  | dequeue hf hi hq hl =>
    exact hI.take hr hp hn rfl rfl hi hq hl rfl rfl rfl rfl
  | dequeueLast hf hi hq hl =>
    exact hI.take hr hp hn rfl rfl hi hq hl rfl rfl rfl rfl
  | free =>
    obtain ⟨_, _, he⟩ := witemFree_eq c.shared ‹Work›
    rw [he] at hn ⊢
    exact .inl (hI.keep hp hn rfl rfl rfl rfl (Nat.le_refl _) (by simp [Thread.ocRank]))
  | signalled _ _ hs =>
    have hdec := atomicDec_add_one hs
    refine .inl (hI.keep hp hn rfl rfl rfl rfl ?_ ?_)
    · simp only [Thread.ocRuns, Bool.toNat_true, Bool.toNat_false]
      omega
    · simp only [Thread.ocRank]
      omega
  | timedOut _ _ hs => simp [Thread.ocRuns, hs] at ready
  | leave => simp [Thread.ocRuns] at ready
  | cleanup => simp [Thread.ocRuns] at ready
  | _ => exact .inl (hI.keep hp hn rfl rfl rfl rfl (Nat.le_refl _) (by simp [Thread.ocRank]))

end OcHunt

/-! The schedule -/

/-- A step of an overcommit thread that leaves nothing to choose: no call of the library is made, a
callback, if there is one, returns, and so does a wait that is over. -/
def OvercommitGo (c : PoolState) (l : Tid × Choice) : Prop :=
  (l.2 = .go ∨ l.2 = .ret 0) ∧ ∃ p, c.threads[l.1]? = some p ∧ p.ofOvercommit = true

section
variable {G : PoolState → Nat × Choice → Prop} {users managers : Nat} {tr : List Event}

/-- The scan of the owner of `ocwq_mtx` finds a registered queue behind every bit. -/
private theorem scan_enabled (hr : Registry c) (hm : OcMasks c) (hn : c.shared.halted = none) :
    ∃ o, ocScanNext c.shared t = some o ∧ o.shared.halted = none := by
  unfold ocScanNext
  by_cases hf : ffs c.shared.ocwqMask = 0
  · rw [if_pos hf]
    exact ⟨_, rfl, hn⟩
  · rw [if_neg hf]
    cases hs : c.shared.ocwq (ffs c.shared.ocwqMask - 1) with
    | none =>
      have := hm.unregistered _ hs
      rw [(ffs_spec hf).1] at this
      cases this
    | some q =>
      obtain ⟨wq, hreg, _⟩ := hr.ocSlots _ q hs
      simp only [withQueue, hreg.here]
      cases wq.itemListhead with
      | nil => exact ⟨_, rfl, hn⟩
      | cons w rest =>
        refine ⟨_, rfl, ?_⟩
        split <;> exact hn

/-- The step of an overcommit thread does not block, if `ocwq_mtx` is free when it takes it. -/
private theorem overcommit_enabled {x : OcPc}
    (hrun : Machine.Run (program S) G (initial users managers) tr c) (hn : c.shared.halted = none)
    (hp : c.threads[t]? = some (.overcommit x)) (ready : x = .unlockExit ∨
      (Thread.overcommit x).ocRuns = true) (free : x = .lock → c.shared.ocwqMtx = none) :
    ∃ o, program S c.shared t (.overcommit x) .go = some o ∧ o.shared.halted = none := by
  have live : ∀ w, (Thread.overcommit x).held = some w → c.shared.live w = true := fun w hw =>
    (heap hrun).live_of_held (accounts _ hrun) hp (.inl hw)
  suffices ∃ o, overcommitNext c.shared t x .go = some o ∧ o.shared.halted = none by
    obtain ⟨o, ho, hh⟩ := this
    exact ⟨o, by simp [program, hn, ho], hh⟩
  cases x with
  | lock =>
    simp only [overcommitNext, free rfl, if_true]
    exact ⟨_, rfl, hn⟩
  | scan => exact scan_enabled (registry hrun) (ocMasks hrun) hn
  | unlock w | unlockExit => exact ⟨_, rfl, hn⟩
  | fetch w =>
    simp only [overcommitNext, live w rfl, if_true]
    exact ⟨_, rfl, hn⟩
  | free w f a =>
    refine ⟨_, rfl, ?_⟩
    simp only [Shared.witemFree, live w rfl, if_true]
    exact hn
  | call w f a =>
    have hf : f = w.func := ((itemOk hrun).1 t _ hp).1
    obtain ⟨g, hg⟩ := Option.ne_none_iff_exists'.mp (overcommitOk hrun t _ hp w rfl)
    simp only [overcommitNext, hf, hg]
    exact ⟨_, rfl, hn⟩
  | timedwait | cleanup | exited => simp [Thread.ocRuns] at ready

/-- What a run of the schedule brings. -/
def OcProgresses (S : Settings) (target : Work) (c : PoolState) : Prop :=
  ∃ es d, Machine.Run (program S) OvercommitGo c es d ∧
    (OcKept target c d ∨ ∃ e ∈ es, ∃ t q, e = Event.dequeue t q target)

private theorem OcHunt.advance {x : OcPc} {ch : Choice}
    (hrun : Machine.Free (program S) (initial users managers) tr c) (hI : OcHunt target c)
    (hp : c.threads[t]? = some (.overcommit x)) (hch : ch = .go ∨ ch = .ret 0)
    (ho : program S c.shared t (.overcommit x) ch = some o) (hn : o.shared.halted = none)
    (ready : x = .unlockExit ∨ (Thread.overcommit x).ocRuns = true ∨
      (x = .timedwait ∧ ch ≠ .leave ∧ 0 < c.shared.ocwqSignalCount)) : OcProgresses S target c := by
  refine ⟨o.events, o.apply c t, .move (l := (t, ch)) ⟨hch, _, hp, rfl⟩ ⟨hp, ho⟩, ?_⟩
  cases (program_step ho).2 with
  | overcommit h => exact hI.step (registry hrun) (ocMasks hrun) (disciplined hrun) hp h hn ready

/-- The owner of `ocwq_mtx` moves on. -/
private theorem OcHunt.owned (hrun : Machine.Free (program S) (initial users managers) tr c)
    (hI : OcHunt target c) (hp : c.threads[t]? = some p) (hm : p.holdsOcMtx = true) :
    OcProgresses S target c := by
  have hof := hI.owner t p hp hm
  cases p with
  | overcommit x =>
    have ready : x = .unlockExit ∨ (Thread.overcommit x).ocRuns = true := by
      cases x <;> first | exact .inl rfl | exact .inr rfl | cases hm
    obtain ⟨o, ho, hn⟩ := overcommit_enabled hrun hI.alive hp ready fun hx => by
      rw [hx] at hm
      cases hm
    exact hI.advance hrun hp (.inl rfl) ho hn (ready.imp id .inl)
  | app => cases hm
  | _ => cases hof

/-- A thread that is still to scan moves on, when `ocwq_mtx` is free. -/
private theorem OcHunt.runner (hrun : Machine.Free (program S) (initial users managers) tr c)
    (hI : OcHunt target c) (free : c.shared.ocwqMtx = none) (hp : c.threads[t]? = some p)
    (hrunning : p.ocRuns = true) : OcProgresses S target c := by
  cases p with
  | overcommit x =>
    obtain ⟨o, ho, hn⟩ := overcommit_enabled hrun hI.alive hp (.inr hrunning) fun _ => free
    exact hI.advance hrun hp (.inl rfl) ho hn (.inr (.inl hrunning))
  | app k =>
    cases k with
    | overcommit w =>
      let o : Out := ⟨c.shared, .overcommit .lock, [], []⟩
      have ho : program S c.shared t (.app (.overcommit w)) .go = some o := by
        simp [program, hI.alive, appNext, goTo, o]
      refine ⟨_, o.apply c t, .move (l := (t, .go)) ⟨.inl rfl, _, hp, rfl⟩ ⟨hp, ho⟩, .inl ?_⟩
      exact hI.keep hp hI.alive rfl rfl rfl rfl (Nat.le_refl _) (by simp [Thread.ocRank, o])
    | _ => cases hrunning
  | _ => cases hrunning

/-- A signal is consumed, when `ocwq_mtx` is free. -/
private theorem OcHunt.signal (hrun : Machine.Free (program S) (initial users managers) tr c)
    (hI : OcHunt target c) (free : c.shared.ocwqMtx = none) (hs : 0 < c.shared.ocwqSignalCount) :
    OcProgresses S target c := by
  have hwaits := ocCounters hrun
  have hasleep := ocWaitSet_le_idle hrun
  have hsplit := (disciplined hrun).ocWait.number_eq
  obtain ⟨t, p, hp, hw⟩ := Config.exists_of_numberAt_pos (c := c)
    (P := fun t p => p.ocWaits && !c.shared.ocwqHasWork.contains t) (by omega)
  simp only [Bool.and_eq_true, Bool.not_eq_true', List.contains_eq_mem, decide_eq_false_iff_not] at hw
  obtain rfl : p = .overcommit .timedwait := by
    cases p with
    | overcommit x => cases x <;> first | rfl | cases hw.1
    | _ => cases hw.1
  have ho : program S c.shared t (.overcommit .timedwait) (.ret 0) = some
      ⟨{ c.shared with ocwqMtx := some t, ocwqSignalCount := atomicDec c.shared.ocwqSignalCount },
        .overcommit .scan, [], []⟩ := by
    simp [program, hI.alive, overcommitNext, hw.2, free, hs, goTo]
  exact hI.advance hrun hp (.inr rfl) ho hI.alive (.inr (.inr ⟨rfl, by simp, hs⟩))

theorem oc_hunt_next (hrun : Machine.Free (program S) (initial users managers) tr c)
    (hI : OcHunt target c) : OcProgresses S target c := by
  by_cases h₁ : ∃ (t : Tid) (p : Thread), c.threads[t]? = some p ∧ p.holdsOcMtx = true
  · obtain ⟨t, p, hp, hm⟩ := h₁
    exact hI.owned hrun hp hm
  have free : c.shared.ocwqMtx = none := by
    refine Option.eq_none_iff_forall_ne_some.mpr fun t ht => h₁ ?_
    obtain ⟨p, hp, hm⟩ := ((disciplined hrun).ocMtx t).mp ht
    exact ⟨t, p, hp, hm⟩
  by_cases h₂ : 0 < c.number Thread.ocRuns
  · obtain ⟨p, hmem, hrunning⟩ := List.countP_pos_iff.mp h₂
    obtain ⟨t, hp⟩ := List.getElem?_of_mem hmem
    exact hI.runner hrun free hp hrunning
  · have := hI.awake
    exact hI.signal hrun free (by omega)

/-- The schedule goes on until it dequeues the target. -/
theorem oc_hunt_target (hrun : Machine.Free (program S) (initial users managers) tr c)
    (hI : OcHunt target c) : ∃ es d, Machine.Run (program S) OvercommitGo c es d ∧
      ∃ e ∈ es, ∃ t q, e = Event.dequeue t q target := by
  refine Machine.exists_run_of_rank
    (I := fun tr c => Machine.Free (program S) (initial users managers) tr c ∧ OcHunt target c)
    ocHuntRank (fun tr c h => ?_) ⟨hrun, hI⟩
  obtain ⟨es, d, run, hes⟩ := oc_hunt_next h.1 h.2
  exact ⟨es, d, run, hes.symm.imp id fun kept => ⟨⟨h.1.append run.free, kept.1⟩, kept.2⟩⟩

end
end PthreadWorkqueue.Posix
