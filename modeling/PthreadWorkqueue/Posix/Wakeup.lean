import PthreadWorkqueue.Posix.Overcommit

/-! Wakeups of the non-overcommit pool. While a worker sleeps, every queued item is on the account
of a worker in the slow path that is awake, or of a producer that has yet to signal. -/
namespace PthreadWorkqueue.Posix
open Concurrency

/-- The scan has not dequeued an item. -/
def ScanPc.itemless : ScanPc → Bool
  | .clear _ _ | .unlock _ (some _) => false
  | _ => true

/-- The scan returns without an item. -/
def ScanPc.fails : ScanPc → Bool
  | .unlock _ none => true
  | _ => false

namespace Thread

/-- Between a list insertion and the wakeup that follows it. -/
def waking : Thread → Bool
  | .call _ (.add _ _ p) => match p with
    | .spinUnlock | .readIdle | .lockMtx | .signal => true
    | _ => false
  | .manager _ (.stop _ _ p) => match p with
    | .spinUnlock _ | .signal => true
    | _ => false
  | _ => false

/-- In the slow path without an item, awake or asleep. -/
def slow : Thread → Bool
  | .worker _ p => match p with
    | .scan k p => p.itemless && k.locked
    | .condWait | .waiting => true
    | _ => false
  | _ => false

/-- In the slow path with nothing found, about to wait. -/
def dozing : Thread → Bool
  | .worker _ p => match p with
    | .scan k p => p.fails && k.locked
    | .condWait => true
    | _ => false
  | _ => false

/-- A worker that holds no item and is scanning, about to scan, or woken if it is not asleep. -/
def seeking : Thread → Bool
  | .worker _ p => match p with
    | .start | .spinEnter | .spinLeave none | .waitLock | .waiting => true
    | .scan _ p => match p with
      | .readMask | .readSlot _ | .lock _ | .first _ | .remove _ _ => true
      | _ => false
    | _ => false
  | _ => false

end Thread

/-- The number of items on the queues of the non-overcommit pool. -/
def Shared.regularQueued (sh : Shared) : Nat := sh.queued fun b _ => (!b).toNat

/-- A slow-path scan that finds its queue empty finds all queues empty: it has not lost a race for
one item while others are waiting. -/
def racesHarmless (c : PoolState) (l : Tid × Choice) : Bool :=
  match c.threads[l.1]? with
  | some (.worker _ (.scan .wait (.first q))) =>
    !(c.shared.items q).isEmpty ||
      c.shared.queues.all fun wq => wq.overcommit || wq.itemListhead.isEmpty
  | _ => true

structure Wakeful (c : PoolState) : Prop where
  /-- While a worker sleeps, the items are on the account of others. -/
  awake : c.shared.wqlistHasWork ≠ [] →
    c.shared.regularQueued + c.shared.wqlistHasWork.length ≤
      c.number Thread.slow + c.number Thread.waking
  /-- What is queued when a worker is about to sleep has yet to be signalled. -/
  dozing : ∀ (t : Tid) (p : Thread), c.threads[t]? = some p → p.dozing = true →
    c.shared.regularQueued ≤ c.number Thread.waking

variable {S : Settings} {sh : Shared} {t : Tid} {p : Thread} {ch : Choice} {o : Out}
  {c : PoolState} {q : QId} {wq : Workq}

theorem Thread.dozing_holds (h : p.dozing = true) : p.holdsMtx = true ∧ p.countedIdle = true := by
  cases p with
  | worker v x =>
    cases x with
    | scan k x => exact ⟨(Bool.and_eq_true_iff.mp h).2, rfl⟩
    | condWait => exact ⟨rfl, rfl⟩
    | _ => cases h
  | _ => cases h

theorem Thread.slow_of_waits (h : p.waits = true) : p.slow = true := by
  cases p with
  | worker v x => cases x <;> first | rfl | cases h
  | _ => cases h

theorem Call.plain_waking {k : Caller} {x : Call} (h : x.plain = true) :
    (Thread.call k x).waking = false := by
  cases x <;> first | rfl | cases h

theorem ManagerPc.between_waking {v : ManagerVars} {x : ManagerPc} (h : x.between = true) :
    (Thread.manager v x).waking = false := by
  cases x <;> first | rfl | (simp only [between, beq_iff_eq] at h; subst h; rfl)

theorem Shared.regularQueued_eq_zero (h : ∀ (q : QId) (wq : Workq), sh.queues[q]? = some wq →
    wq.overcommit = false → wq.itemListhead = []) : sh.regularQueued = 0 := by
  refine sum_map_eq_zero fun wq hw => ?_
  obtain ⟨q, hq⟩ := List.getElem?_of_mem hw
  cases hk : wq.overcommit with
  | false => simp [h q wq hq hk]
  | true => simp

/-- A mask without a bit announces that every queue is empty. -/
theorem Masks.nothing_queued (hm : Masks c) (hd : Disciplined c) (hr : Registry c)
    (hz : ffs c.shared.wqlistMask = 0) : c.shared.regularQueued = 0 := by
  refine Shared.regularQueued_eq_zero fun q wq hq hk => ?_
  rcases hr.fresh q wq hq with hs | hs
  · simp only [Shared.slotOf, hk, Bool.false_eq_true, if_false] at hs
    refine Classical.byContradiction fun hl => ?_
    have := hm.announced hd hr hs hq hl
    rw [ffs_eq_zero.mp hz] at this
    cases this
  · exact hs.1

theorem racesHarmless_empty {v : WorkerVars} (hg : racesHarmless c (t, ch) = true)
    (hp : c.threads[t]? = some (.worker v (.scan .wait (.first q)))) (hl : c.shared.items q = []) :
    c.shared.regularQueued = 0 := by
  simp only [racesHarmless, hp, hl, List.isEmpty_nil, Bool.not_true, Bool.false_or,
    List.all_eq_true] at hg
  refine Shared.regularQueued_eq_zero fun r wq hq hk => ?_
  simpa [hk] using hg wq (List.mem_of_getElem? hq)

/-- Without an idle worker nobody is in the slow path or asleep. -/
theorem Scoreboard.nobody_waits {tr : List Event} (hs : Scoreboard tr c) (hd : Disciplined c) (hi : c.shared.idle = 0) :
    c.shared.wqlistHasWork = [] ∧
      ∀ (u : Tid) (r : Thread), c.threads[u]? = some r → r.countedIdle = false := by
  have busy : ∀ (u : Tid) (r : Thread), c.threads[u]? = some r → r.countedIdle = false := by
    intro u r hu
    have := (hs.le hu).2.1
    rw [hi] at this
    cases hx : r.countedIdle with
    | false => rfl
    | true => simp [hx] at this
  refine ⟨List.eq_nil_iff_forall_not_mem.mpr fun u hu => ?_, busy⟩
  obtain ⟨r, hr, hwait⟩ := hd.wait.here u hu
  have := busy u r hr
  cases r with
  | worker v x => cases x <;> first | cases hwait; done | cases this
  | _ => cases hwait

namespace Wakeful

/-- A step that leaves the wait set alone or shrinks it, and that pays for what it inserts. -/
private theorem calm (hw : Wakeful c) (hp : c.threads[t]? = some p)
    (fresh : ∀ r ∈ o.spawned, r.slow = false ∧ r.waking = false ∧ r.dozing = false)
    (hset : o.shared.wqlistHasWork.length ≤ c.shared.wqlistHasWork.length)
    (pay : o.shared.regularQueued + p.waking.toNat ≤ c.shared.regularQueued + o.pc.waking.toNat)
    (paySlow : o.shared.regularQueued + p.waking.toNat + p.slow.toNat ≤
      c.shared.regularQueued + o.pc.waking.toNat + o.pc.slow.toNat)
    (self : o.pc.dozing = false ∨ p.dozing = true ∨ o.shared.regularQueued = 0) :
    Wakeful (o.apply c t) := by
  have hslow := Outcome.number_apply (P := Thread.slow) hp fun r hr => (fresh r hr).1
  have hwaking := Outcome.number_apply (P := Thread.waking) hp fun r hr => (fresh r hr).2.1
  refine ⟨fun hne => ?_, fun u x hu hx => ?_⟩
  · have hne' : c.shared.wqlistHasWork ≠ [] := by
      rintro he
      rw [he, List.length_nil] at hset
      exact hne (List.length_eq_zero_iff.mp (Nat.le_zero.mp hset))
    have := hw.awake hne'
    change o.shared.regularQueued + o.shared.wqlistHasWork.length ≤ _
    omega
  · change o.shared.regularQueued ≤ _
    obtain ⟨rfl, rfl⟩ | ⟨_, hu⟩ | ⟨_, hu⟩ := Outcome.get_cases hp hu
    · rcases self with hn | hx | hz
      · rw [hn] at hx
        cases hx
      · have := hw.dozing _ p hp hx
        omega
      · omega
    · have := hw.dozing u x hu hx
      omega
    · rw [(fresh x hu).2.2] at hx
      cases hx

/-- The most common step. -/
private theorem same (hw : Wakeful c) (hp : c.threads[t]? = some p)
    (flow : o.shared.regularQueued + 0 = c.shared.regularQueued + 0)
    (hset : o.shared.wqlistHasWork = c.shared.wqlistHasWork) (hslow : o.pc.slow = p.slow)
    (hwaking : o.pc.waking = p.waking) (hdozing : o.pc.dozing = false ∨ p.dozing = true)
    (fresh : ∀ r ∈ o.spawned, r.slow = false ∧ r.waking = false ∧ r.dozing = false) :
    Wakeful (o.apply c t) := by
  refine hw.calm hp fresh (by rw [hset]) ?_ ?_ (hdozing.imp_right .inl)
  · rw [hwaking]; omega
  · rw [hwaking, hslow]; omega

/-- A worker dequeues an item. -/
private theorem take (hw : Wakeful c) (hp : c.threads[t]? = some p)
    (flow : o.shared.regularQueued + 1 = c.shared.regularQueued + 0)
    (hset : o.shared.wqlistHasWork.length ≤ c.shared.wqlistHasWork.length) (fresh : o.spawned = [])
    (hpw : p.waking = false) (how : o.pc.waking = false) (hod : o.pc.dozing = false) :
    Wakeful (o.apply c t) := by
  have := p.slow.toNat_le
  refine hw.calm hp (by simp [fresh]) hset ?_ ?_ (.inl hod)
  · rw [hpw, how]; omega
  · rw [hpw, how]; omega

/-- A signal: the producer lets go, and a sleeping worker is woken. -/
private theorem signal (hw : Wakeful c) (hd : Disciplined c) (hp : c.threads[t]? = some p)
    {woken : List Tid} (hs : signalled woken c.shared.wqlistHasWork = true)
    (hset : o.shared.wqlistHasWork = wakeUp woken c.shared.wqlistHasWork)
    (flow : o.shared.regularQueued + 0 = c.shared.regularQueued + 0) (fresh : o.spawned = [])
    (hm : p.holdsMtx = true) (hpw : p.waking = true) (hps : p.slow = false)
    (how : o.pc.waking = false) (hos : o.pc.slow = false) (hod : o.pc.dozing = false) :
    Wakeful (o.apply c t) := by
  have hslow := Outcome.number_apply (P := Thread.slow) (o := o) hp (by simp [fresh])
  have hwaking := Outcome.number_apply (P := Thread.waking) (o := o) hp (by simp [fresh])
  rw [hps, hos] at hslow
  rw [hpw, how] at hwaking
  simp only [Bool.toNat_true, Bool.toNat_false] at hslow hwaking
  have hlen := wakeUp_length hs
  rw [← hset] at hlen
  refine ⟨fun hne => ?_, fun u x hu hx => ?_⟩
  · have hpos : 0 < o.shared.wqlistHasWork.length := List.length_pos_iff.mpr hne
    have := hw.awake (List.length_pos_iff.mp (by omega))
    change o.shared.regularQueued + o.shared.wqlistHasWork.length ≤ _
    omega
  · obtain ⟨rfl, rfl⟩ | ⟨hut, hu⟩ | ⟨_, hu⟩ := Outcome.get_cases hp hu
    · rw [hod] at hx
      cases hx
    · -- a thread that is about to sleep would hold the mutex
      exact absurd (hd.mtx_unique hp hm hu (Thread.dozing_holds hx).1) hut
    · simp [fresh] at hu

/-- A producer that finds no idle worker: nobody sleeps and nobody is about to. -/
private theorem noIdle {tr : List Event} (hs : Scoreboard tr c) (hd : Disciplined c)
    (hp : c.threads[t]? = some p) (hi : c.shared.idle = 0)
    (hset : o.shared.wqlistHasWork = c.shared.wqlistHasWork) (fresh : o.spawned = [])
    (hod : o.pc.dozing = false) : Wakeful (o.apply c t) := by
  obtain ⟨hempty, busy⟩ := hs.nobody_waits hd hi
  refine ⟨fun hne => absurd (hset.trans hempty) hne, fun u x hu hx => ?_⟩
  · obtain ⟨rfl, rfl⟩ | ⟨_, hu⟩ | ⟨_, hu⟩ := Outcome.get_cases hp hu
    · rw [hod] at hx
      cases hx
    · have := (Thread.dozing_holds hx).2
      rw [busy u x hu] at this
      cases this
    · simp [fresh] at hu

/-- A worker goes to sleep. -/
private theorem condWait (hw : Wakeful c) (hd : Disciplined c) (hd' : Disciplined (o.apply c t))
    {v : WorkerVars}
    (hp : c.threads[t]? = some (.worker v .condWait)) (hpc : o.pc = .worker v .waiting)
    (flow : o.shared.regularQueued + 0 = c.shared.regularQueued + 0) (fresh : o.spawned = []) :
    Wakeful (o.apply c t) := by
  have hslow := Outcome.number_apply (P := Thread.slow) (o := o) hp (by simp [fresh])
  have hwaking := Outcome.number_apply (P := Thread.waking) (o := o) hp (by simp [fresh])
  rw [hpc] at hslow hwaking
  simp only [Thread.slow, Thread.waking, Bool.toNat_true, Bool.toNat_false] at hslow hwaking
  have hn := hw.dozing t _ hp rfl
  refine ⟨fun _ => ?_, fun u x hu hx => ?_⟩
  · -- all who sleep after the step are in the slow path
    have hsleep := hd'.wait.number_eq
    have hle : (o.apply c t).number Thread.waits ≤ (o.apply c t).number Thread.slow :=
      List.countP_mono_left fun r _ hr => Thread.slow_of_waits hr
    change o.shared.regularQueued + (o.apply c t).shared.wqlistHasWork.length ≤ _
    omega
  · obtain ⟨rfl, rfl⟩ | ⟨hut, hu⟩ | ⟨_, hu⟩ := Outcome.get_cases hp hu
    · rw [hpc] at hx
      cases hx
    · exact absurd (hd.mtx_unique hp rfl hu (Thread.dozing_holds hx).1) hut
    · simp [fresh] at hu

end Wakeful

private theorem worker_wakeful {v : WorkerVars} {x : WorkerPc} (hw : Wakeful c) (hd : Disciplined c)
    (hr : Registry c) (hm : Masks c) (hp : c.threads[t]? = some (.worker v x))
    (h : WorkerStep S c.shared t v x ch o) (hg : racesHarmless c (t, ch) = true)
    (fresh : ∀ r ∈ o.spawned, r.slow = false ∧ r.waking = false ∧ r.dozing = false) :
    Wakeful (o.apply c t) := by
  have flow := (list_step hm hr hp (.worker h)).queued fun b _ => (!b).toNat
  have hreg := hr.threads t _ hp
  have hd' := hd.apply hp (.worker h)
  cases h with
  | fault => exact hw.same hp flow rfl rfl rfl (Bool.dichotomy _) fresh
  | @nothing k hz =>
    have hn := hm.nothing_queued hd hr hz
    cases k with
    | wait => exact hw.calm hp fresh (Nat.le_refl _) (Nat.le_refl _) (Nat.le_refl _) (.inr (.inr hn))
    | _ => exact hw.same hp flow rfl rfl rfl (.inl rfl) fresh
  | @raced k q wq hq hl =>
    cases k with
    | wait =>
      have hn := racesHarmless_empty hg hp ((Shared.items_eq hq).trans hl)
      exact hw.calm hp fresh (Nat.le_refl _) (Nat.le_refl _) (Nat.le_refl _) (.inr (.inr hn))
    | _ => exact hw.same hp flow rfl rfl rfl (.inl rfl) fresh
  | @skip k _ _ _ _ _ _ hk =>
    cases k with
    | wait => cases hk
    | _ => exact hw.same hp flow rfl rfl rfl (.inl rfl) fresh
  | @unlock k _ _ r _ =>
    cases k <;> cases r <;> exact hw.same hp flow rfl rfl rfl (by simp [Thread.dozing, scanReturn,
      ScanPc.fails, ScanKind.locked]) fresh
  | remove hq | removeLast hq =>
    simp only [List.map_cons, Event.outflow, Shared.kind_regular hq hreg] at flow
    exact hw.take hp flow (Nat.le_refl _) rfl rfl rfl rfl
  | clear _ hx => subst hx; split <;> exact hw.same hp flow rfl rfl rfl (.inl rfl) fresh
  | waitLock => exact hw.calm hp fresh (Nat.le_refl _) (Nat.le_refl _) (Nat.le_succ _) (.inl rfl)
  | condWait => exact hw.condWait hd hd' hp rfl flow rfl
  | leave =>
    exact hw.calm hp fresh (List.length_filter_le _ _) (Nat.le_refl _) (Nat.le_refl _) (.inl rfl)
  | exitFree | free =>
    obtain ⟨_, _, he⟩ := witemFree_eq c.shared ‹Work›
    rw [he] at flow ⊢
    exact hw.same hp flow rfl rfl rfl (.inl rfl) fresh
  | _ => exact hw.same hp flow rfl rfl rfl (.inl rfl) fresh

theorem wakeful_step (hw : Wakeful c) {tr : List Event} (hs : Scoreboard tr c) (hd : Disciplined c)
    (hr : Registry c) (hm : Masks c) (hp : c.threads[t]? = some p) (h : Step S c.shared t p ch o)
    (hg : racesHarmless c (t, ch) = true) : Wakeful (o.apply c t) := by
  have fresh : ∀ r ∈ o.spawned, r.slow = false ∧ r.waking = false ∧ r.dozing = false :=
    h.fresh ⟨rfl, rfl, rfl⟩ ⟨rfl, rfl, rfl⟩ ⟨rfl, rfl, rfl⟩
  have flow := (list_step hm hr hp h).queued fun b _ => (!b).toNat
  have hreg := hr.threads t _ hp
  cases h with
  | app h => cases h <;> exact hw.same hp flow rfl rfl rfl (.inl rfl) fresh
  | call h =>
    cases h with
    | quiet hq hc hc' =>
      obtain ⟨_, _, _, _, rfl⟩ := hq
      exact hw.same hp flow rfl rfl (by rw [Call.plain_waking hc, Call.plain_waking hc']) (.inl rfl) fresh
    | quietReturn hq hc =>
      obtain ⟨_, _, _, _, rfl⟩ := hq
      exact hw.same hp flow rfl rfl (Call.plain_waking hc).symm (.inl rfl) fresh
    | error hc => exact hw.same hp flow rfl rfl (Call.plain_waking hc).symm (.inl rfl) fresh
    | atomicOr _ hx => subst hx; split <;> exact hw.same hp flow rfl rfl rfl (.inl rfl) fresh
    | insert hq =>
      simp only [List.map_cons, Event.inflow, Shared.kind_regular hq hreg] at flow
      refine hw.calm hp fresh (Nat.le_refl _) ?_ ?_ (.inl rfl)
      · exact Nat.le_of_eq flow
      · exact Nat.le_of_eq flow
    | ocInsert hq =>
      simp only [List.map_cons, Event.inflow, Shared.kind_overcommit hq hreg] at flow
      exact hw.same hp flow rfl rfl rfl (.inl rfl) fresh
    | noIdle hi => exact .noIdle hs hd hp hi rfl rfl rfl
    | signal hsig => exact hw.signal hd hp hsig rfl flow rfl rfl rfl rfl rfl rfl rfl
    | managerStart | ocCreate => exact hw.same hp flow rfl rfl rfl (.inl rfl) fresh
    | _ => exact hw.same hp flow rfl rfl rfl (.inl rfl) fresh
  | worker h => exact worker_wakeful hw hd hr hm hp h hg fresh
  | overcommit h =>
    cases h with
    | dequeue _ hs hq | dequeueLast _ hs hq =>
      obtain ⟨wq, hreg, hk, _⟩ := hr.ocSlots _ _ hs
      simp only [List.map_cons, Event.outflow, Shared.kind_overcommit hq ⟨wq, hreg, hk⟩] at flow
      exact hw.same hp flow rfl rfl rfl (.inl rfl) fresh
    | free =>
      obtain ⟨_, _, he⟩ := witemFree_eq c.shared ‹Work›
      rw [he] at flow ⊢
      exact hw.same hp flow rfl rfl rfl (.inl rfl) fresh
    | _ => exact hw.same hp flow rfl rfl rfl (.inl rfl) fresh
  | manager h =>
    cases h with
    | plain hq hx hx' =>
      obtain ⟨_, _, _, _, rfl⟩ := hq
      refine hw.same hp flow rfl rfl ?_ (.inl rfl) fresh
      rw [ManagerPc.between_waking hx', ManagerPc.between_waking (ManagerPc.plain_between hx)]
    | created =>
      exact hw.same hp flow rfl rfl (ManagerPc.between_waking (startReturn_between _)) (.inl rfl) fresh
    | decCount =>
      exact hw.same hp flow rfl rfl (ManagerPc.between_waking (startReturn_between _)) (.inl rfl) fresh
    | unlockMtx =>
      exact hw.same hp flow rfl rfl (ManagerPc.between_waking (stopLoop_between _ _)) (.inl rfl) fresh
    | insert hq =>
      simp only [List.map_cons, Event.inflow, Shared.kind_regular hq hreg] at flow
      refine hw.calm hp fresh (Nat.le_refl _) ?_ ?_ (.inl rfl)
      · exact Nat.le_of_eq flow
      · exact Nat.le_of_eq flow
    | signal hsig => exact hw.signal hd hp hsig rfl flow rfl rfl rfl rfl rfl rfl rfl
    | atomicOr _ hx => subst hx; split <;> exact hw.same hp flow rfl rfl rfl (.inl rfl) fresh
    | _ => exact hw.same hp flow rfl rfl rfl (.inl rfl) fresh

variable {users managers : Nat} {tr : List Event}

theorem wakeful_initial (users managers : Nat) : Wakeful (initial users managers) where
  awake h := absurd rfl h
  dozing _ _ _ _ := Nat.zero_le _

theorem wakeful (h : Machine.Run (program S) (fun c l => racesHarmless c l = true)
    (initial users managers) tr c) : Wakeful c := by
  refine h.invariant (fun _ c => Wakeful c) (wakeful_initial _ _) ?_
  intro tr c l p o hrun hw hg mv
  exact wakeful_step hw (scoreboard hrun) (disciplined hrun) (registry hrun) (masks hrun) mv.here
    (program_step mv.next).2 hg

/-- A real item waits on a queue of the non-overcommit pool. -/
def Shared.hasRealItem (sh : Shared) : Prop :=
  ∃ wq ∈ sh.queues, wq.overcommit = false ∧ ∃ w ∈ wq.itemListhead, w.func ≠ none

instance (sh : Shared) : Decidable sh.hasRealItem :=
  inferInstanceAs (Decidable (∃ wq ∈ sh.queues, wq.overcommit = false ∧
    ∃ w ∈ wq.itemListhead, w.func ≠ none))

theorem Shared.regularQueued_pos (h : sh.hasRealItem) : 0 < sh.regularQueued := by
  obtain ⟨wq, hwq, hk, w, hw, _⟩ := h
  have hsum : (wq.itemListhead.map fun _ => (!wq.overcommit).toNat).sum ≤ sh.regularQueued :=
    List.le_sum_of_mem (List.mem_map.mpr ⟨wq, hwq, rfl⟩)
  have hlen : 0 < wq.itemListhead.length := List.length_pos_of_mem hw
  simp only [hk, Bool.not_false, Bool.toNat_true, List.map_const', List.sum_replicate_nat,
    Nat.mul_one] at hsum
  omega

/-- A slow-path worker that is neither asleep nor about to sleep is looking for work. -/
theorem Thread.seeking_of_slow (hs : p.slow = true) (hd : p.dozing = false) :
    p.liveWorker = true ∧ p.inCallback = false ∧ p.seeking = true := by
  cases p with
  | worker v x =>
    cases x with
    | scan k x =>
      obtain ⟨hi, hk⟩ := Bool.and_eq_true_iff.mp hs
      simp only [dozing, hk, Bool.and_true] at hd
      cases x with
      | clear => cases hi
      | unlock q r => cases r <;> first | cases hd; done | cases hi
      | _ => exact ⟨rfl, rfl, rfl⟩
    | condWait => cases hd
    | waiting => exact ⟨rfl, rfl, rfl⟩
    | _ => cases hs
  | _ => cases hs

/-- No lost wakeup: while a worker sleeps and a real item is queued, another worker is awake and
looking for work, if no slow-path scan ever lost a race for one item while others were queued. -/
theorem no_lost_wakeup (S : Settings) (users managers : Nat) (tr : List Event) (c : PoolState)
    (h : Machine.Run (program S) (fun c l => racesHarmless c l = true) (initial users managers) tr c)
    (decided : ∀ p ∈ c.threads, p.waking = false) (item : c.shared.hasRealItem)
    (asleep : ∃ u r, c.threads[u]? = some r ∧ r.liveWorker = true ∧ u ∈ c.shared.wqlistHasWork) :
    ∃ t p, c.threads[t]? = some p ∧ p.liveWorker = true ∧ t ∉ c.shared.wqlistHasWork ∧
      p.inCallback = false ∧ p.seeking = true := by
  have hw := wakeful h
  have hitem := Shared.regularQueued_pos item
  have hnone : c.number Thread.waking = 0 :=
    List.countP_eq_zero.mpr fun p hp => by simp [decided p hp]
  have hslow : Waiting Shared.wqlistHasWork Thread.slow c := by
    refine ⟨(disciplined h).wait.nodup, fun t ht => ?_⟩
    obtain ⟨p, hp, hwait⟩ := (disciplined h).wait.here t ht
    exact ⟨p, hp, Thread.slow_of_waits hwait⟩
  obtain ⟨u, r, _, _, hu⟩ := asleep
  have hawake := hw.awake (List.ne_nil_of_mem hu)
  have hsplit := hslow.number_eq
  obtain ⟨t, p, hp, ht⟩ := Config.exists_of_numberAt_pos (c := c)
    (P := fun t p => p.slow && !c.shared.wqlistHasWork.contains t) (by omega)
  simp only [Bool.and_eq_true, Bool.not_eq_true', List.contains_eq_mem, decide_eq_false_iff_not] at ht
  have hdoze : p.dozing = false := by
    refine Bool.eq_false_iff.mpr fun hx => ?_
    have := hw.dozing t p hp hx
    omega
  obtain ⟨hlive, hcall, hseek⟩ := Thread.seeking_of_slow ht.1 hdoze
  exact ⟨t, p, hp, hlive, ht.2, hcall, hseek⟩

/-- Of two sleeping workers one is signalled for a new item. -/
theorem no_lost_wakeup_after_signal : ∃ tr c,
    Machine.Run (program ⟨2, 2, 2, 0, false⟩) (fun c l => racesHarmless c l = true) (initial 1 0) tr c ∧
      c.shared.hasRealItem ∧ 3 ∈ c.shared.wqlistHasWork ∧
      ∃ t p, c.threads[t]? = some p ∧ p.liveWorker = true ∧ t ∉ c.shared.wqlistHasWork ∧
        p.inCallback = false ∧ p.seeking = true := by
  obtain ⟨tr, c, hrun, hP⟩ := Machine.exists_run (M := program ⟨2, 2, 2, 0, false⟩)
    (g := racesHarmless) (c := initial 1 0)
    (createFirst 0 0 ++ [(1, .value 100), (1, .value 0)] ++ startWorker 1 ++ startWorker 1 ++
      steps 2 7 ++ steps 3 7 ++ [(0, .request (.additem 0 (some 7) 70))] ++ steps 0 10 ++
      [(0, .wake [2]), (0, .go)])
    (fun r => decide ((∀ p ∈ r.1.threads, p.waking = false) ∧
      (∃ wq ∈ r.1.shared.queues, wq.overcommit = false ∧ ∃ w ∈ wq.itemListhead, w.func ≠ none) ∧
      (r.1.threads[3]?).any Thread.liveWorker = true ∧ 3 ∈ r.1.shared.wqlistHasWork))
    (by decide +kernel)
  obtain ⟨decided, item, live, asleep⟩ := of_decide_eq_true hP
  obtain ⟨r, hr, hlive⟩ := (Option.any_eq_true _ _).mp live
  exact ⟨tr, c, hrun, item, asleep,
    no_lost_wakeup _ _ _ tr c hrun decided item ⟨3, r, hr, hlive, asleep⟩⟩

/-- A worker loses the race for the item of the first queue and falls asleep although the second
queue has an item; the winner is in its callback. -/
theorem wakeup_lost_in_race : ¬ ∀ (S : Settings) (users managers : Nat) (tr : List Event)
    (c : PoolState), Machine.Free (program S) (initial users managers) tr c →
    (∀ p ∈ c.threads, p.waking = false) → c.shared.hasRealItem →
    (∃ u r, c.threads[u]? = some r ∧ r.liveWorker = true ∧ u ∈ c.shared.wqlistHasWork) →
    ∃ t p, c.threads[t]? = some p ∧ p.liveWorker = true ∧ t ∉ c.shared.wqlistHasWork ∧
      p.inCallback = false := by
  intro claim
  obtain ⟨tr, c, hrun, hP⟩ := Machine.exists_run (M := program ⟨2, 2, 2, 0, false⟩)
    (g := fun _ _ => true) (c := initial 1 0)
    (createFirst 0 0 ++ createNextQueue 0 1 0 ++ [(1, .value 100), (1, .value 0)] ++
      startWorker 1 ++ startWorker 1 ++ steps 2 4 ++
      [(0, .request (.additem 0 (some 7) 70))] ++ steps 0 10 ++ [(0, .wake []), (0, .go)] ++
      [(0, .request (.additem 1 (some 8) 80))] ++ steps 0 10 ++ [(0, .wake []), (0, .go)] ++
      -- the second worker has chosen the first queue when the third takes its item
      steps 2 3 ++ steps 3 10 ++ steps 2 4)
    (fun r => decide ((∀ p ∈ r.1.threads, p.waking = false) ∧
      (∃ wq ∈ r.1.shared.queues, wq.overcommit = false ∧ ∃ w ∈ wq.itemListhead, w.func ≠ none) ∧
      (r.1.threads[2]?).any Thread.liveWorker = true ∧ r.1.shared.wqlistHasWork = [2] ∧
      (r.1.threads.zipIdx.all fun x => !x.1.liveWorker || x.2 == 2 || x.1.inCallback) = true))
    (by decide +kernel)
  obtain ⟨decided, item, live, asleep, busy⟩ := of_decide_eq_true hP
  have here : 2 ∈ c.shared.wqlistHasWork := by
    rw [show c.shared.wqlistHasWork = [2] from asleep]
    exact List.mem_singleton_self 2
  obtain ⟨r, hr, hlive⟩ := (Option.any_eq_true _ _).mp live
  obtain ⟨t, p, hp, hl, ht, hc⟩ :=
    claim _ _ _ tr c hrun.free decided item ⟨2, r, hr, hlive, here⟩
  have := List.all_eq_true.mp busy (p, t) (List.mem_zipIdx_iff_getElem?.mpr hp)
  simp only [hl, hc, Bool.not_true, Bool.false_or, Bool.or_false, beq_iff_eq] at this
  exact ht (this ▸ here)

/-! The test of `idle` before the signal -/

/-- Between the start of a slow-path scan and the wait that follows it. -/
def Thread.inSlowScan : Thread → Bool
  | .worker _ p => match p with
    | .scan k _ => k.locked
    | .condWait => true
    | _ => false
  | _ => false

/-- `pthread_cond_signal` on `wqlist_has_work`. -/
def Shared.condSignal (woken : List Tid) (sh : Shared) : Shared :=
  { sh with wqlistHasWork := wakeUp woken sh.wqlistHasWork }

/-- The points at which `manager_workqueue_additem` completes its wakeup decision: it has found no
idle worker, or it signals. -/
def AddPc.decides (sh : Shared) : AddPc → Bool
  | .readIdle => sh.idle == 0
  | .signal => true
  | _ => false

private theorem exists_woken {woken W : List Tid} (h : signalled woken W = true) (hne : W ≠ []) :
    ∃ u ∈ W, u ∉ wakeUp woken W := by
  simp only [signalled, List.isEmpty_eq_false_iff.mpr hne, Bool.false_or, List.any_eq_true] at h
  obtain ⟨u, hu, hw⟩ := h
  exact ⟨u, hu, by simp [wakeUp, List.contains_iff_mem.mp hw]⟩

theorem Thread.inSlowScan_holds (h : p.inSlowScan = true) :
    p.holdsMtx = true ∧ p.countedIdle = true := by
  cases p with
  | worker v x =>
    cases x with
    | scan k x => exact ⟨h, rfl⟩
    | condWait => exact ⟨rfl, rfl⟩
    | _ => cases h
  | _ => cases h

/-- When `manager_workqueue_additem` has decided about its wakeup, no worker is between a slow-path
scan and its wait, and a sleeping worker is signalled; a signal in place of a skip would change
nothing. -/
theorem idle_test_loses_no_wakeup (S : Settings) (users managers : Nat) (tr : List Event)
    (c : PoolState) (h : Machine.Free (program S) (initial users managers) tr c) (t : Tid)
    (k : Caller) (q : QId) (w : Work) (x : AddPc) (ch : Choice) (o : Out)
    (hp : c.threads[t]? = some (.call k (.add q w x))) (decides : x.decides c.shared = true)
    (hs : program S c.shared t (.call k (.add q w x)) ch = some o) :
    (∀ (u : Tid) (r : Thread), c.threads[u]? = some r → r.inSlowScan = false) ∧
      (c.shared.wqlistHasWork ≠ [] → x = .signal ∧
        ∃ u ∈ c.shared.wqlistHasWork, u ∉ o.shared.wqlistHasWork) ∧
      (x = .readIdle → ∀ woken, c.shared.condSignal woken = o.shared) := by
  have hd := disciplined h
  have alive := (program_step hs).1
  cases x with
  | readIdle =>
    have hi : c.shared.idle = 0 := beq_iff_eq.mp decides
    obtain ⟨hempty, busy⟩ := (scoreboard h).nobody_waits hd hi
    refine ⟨fun u r hu => Bool.eq_false_iff.mpr fun hx => ?_, fun hne => absurd hempty hne,
      fun _ woken => ?_⟩
    · have := (Thread.inSlowScan_holds hx).2
      rw [busy u r hu] at this
      cases this
    · obtain ⟨wq, hreg, _⟩ := (registry h).threads t _ hp
      simp only [program, alive, if_true, callNext, withQueue, hreg.here, addNext] at hs
      cases ch with
      | go =>
        simp only [hi, Nat.lt_irrefl, if_false, emit, Option.some.injEq] at hs
        subst hs
        simp only [Shared.condSignal, hempty, wakeUp, List.filter_nil]
        rw [← hempty]
      | _ => cases hs
  | signal =>
    refine ⟨fun u r hu => Bool.eq_false_iff.mpr fun hx => ?_, fun hne => ⟨rfl, ?_⟩,
      fun hx => by cases hx⟩
    · obtain rfl := hd.mtx_unique hp rfl hu (Thread.inSlowScan_holds hx).1
      rw [hp] at hu
      cases hu
      cases hx
    · obtain ⟨wq, hreg, _⟩ := (registry h).threads t _ hp
      simp only [program, alive, if_true, callNext, withQueue, hreg.here, addNext] at hs
      cases ch with
      | wake woken =>
        simp only [goTo, Option.ite_none_right_eq_some, Option.some.injEq] at hs
        obtain ⟨hsig, rfl⟩ := hs
        exact exists_woken hsig hne
      | _ => cases hs
  | _ => cases decides

/-- A sleeping worker is signalled for a new item. -/
theorem idle_test_loses_no_wakeup_of_one : ∃ tr c o,
    Machine.Free (program ⟨1, 1, 1, 0, false⟩) (initial 1 0) tr c ∧ c.shared.wqlistHasWork = [2] ∧
      program ⟨1, 1, 1, 0, false⟩ c.shared 0
        (.call .user (.add 0 ⟨0, some 7, 70, 0, 0⟩ .signal)) (.wake [2]) = some o ∧
      ∃ u ∈ c.shared.wqlistHasWork, u ∉ o.shared.wqlistHasWork := by
  obtain ⟨tr, c, hrun, hP⟩ := Machine.exists_run (M := program ⟨1, 1, 1, 0, false⟩)
    (g := fun _ _ => true) (c := initial 1 0)
    (createFirst 0 0 ++ [(1, .value 100), (1, .value 0)] ++ startWorker 1 ++ steps 2 7 ++
      [(0, .request (.additem 0 (some 7) 70))] ++ steps 0 10)
    (fun r => decide (
      r.1.threads[0]? = some (Thread.call .user (.add 0 ⟨0, some 7, 70, 0, 0⟩ .signal)) ∧
        r.1.shared.wqlistHasWork = [2]) &&
      (program ⟨1, 1, 1, 0, false⟩ r.1.shared 0
        (.call .user (.add 0 ⟨0, some 7, 70, 0, 0⟩ .signal)) (.wake [2])).isSome)
    (by decide +kernel)
  obtain ⟨hP, hsome⟩ := Bool.and_eq_true_iff.mp hP
  obtain ⟨hp, hw⟩ := of_decide_eq_true hP
  obtain ⟨o, ho⟩ := Option.isSome_iff_exists.mp hsome
  have := idle_test_loses_no_wakeup _ _ _ tr c hrun.free 0 _ _ _ _ _ o hp rfl ho
  have hne : c.shared.wqlistHasWork ≠ [] := by
    intro he
    rw [show c.shared.wqlistHasWork = [2] from hw] at he
    cases he
  exact ⟨tr, c, o, hrun.free, hw, ho, (this.2.1 hne).2⟩

end PthreadWorkqueue.Posix
