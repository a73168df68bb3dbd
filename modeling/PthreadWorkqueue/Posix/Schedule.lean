import PthreadWorkqueue.Posix.Hunt

/-! A schedule of the workers alone that follows a hunt to its end: first the holders of spin locks,
then the owner of `wqlist_mtx`, then whoever can move, and last a worker in the busy loop. -/
namespace PthreadWorkqueue.Posix
open Concurrency

variable {S : Settings} {sh : Shared} {t : Tid} {p : Thread} {ch : Choice} {o : Out}
  {c : PoolState} {q : QId} {wq : Workq} {w target : Work}

variable {G : PoolState → Nat × Choice → Prop} {users managers : Nat} {tr : List Event}

/-- A step of a live worker that leaves nothing to choose: no call of the library is made, and a
callback, if there is one, returns. -/
def WorkerGo (c : PoolState) (l : Tid × Choice) : Prop :=
  l.2 = .go ∧ ∃ p, c.threads[l.1]? = some p ∧ p.liveWorker = true

/-- The step of a worker at an eager point does not block, if the locks that it takes are free. -/
theorem worker_enabled {v : WorkerVars} {x : WorkerPc}
    (hrun : Machine.Run (program S) G (initial users managers) tr c) (hn : c.shared.halted = none)
    (hp : c.threads[t]? = some (.worker v x)) (eager : x.eager = true)
    (hmtx : x = .waitLock ∨ x = .waiting → c.shared.wqlistMtx = none)
    (hwait : x = .waiting → t ∉ c.shared.wqlistHasWork)
    (hlock : ∀ (k : ScanKind) (q : QId) (wq : Workq), x = .scan k (.lock q) →
      c.shared.queues[q]? = some wq → wq.mtx = none) :
    ∃ o, program S c.shared t (.worker v x) .go = some o ∧ o.shared.halted = none := by
  have live : ∀ w, (Thread.worker v x).held = some w → c.shared.live w = true := fun w hw =>
    (heap hrun).live_of_held (accounts _ hrun) hp (.inl hw)
  have ok := markerOk hrun t _ hp
  have hreg := (registry hrun).threads t _ hp
  suffices ∃ o, workerNext S c.shared t v x .go = some o ∧ o.shared.halted = none by
    obtain ⟨o, ho, hh⟩ := this
    exact ⟨o, by simp [program, hn, ho], hh⟩
  cases x with
  | scan k x =>
    cases x with
    | readMask => exact ⟨_, rfl, hn⟩
    | readSlot idx =>
      obtain ⟨q, hq⟩ := slot_registered hrun t _ _ hp rfl
      simp only [workerNext, scanNext, hq]
      exact ⟨_, rfl, hn⟩
    | lock q =>
      obtain ⟨wq, hreg, _⟩ := hreg
      simp only [workerNext, scanNext, withQueue, hreg.here, hlock k q wq rfl hreg.here, if_true]
      exact ⟨_, rfl, hn⟩
    | first q =>
      obtain ⟨wq, hreg, _⟩ := hreg
      simp only [workerNext, scanNext, withQueue, hreg.here]
      cases hl : wq.itemListhead with
      | nil => exact ⟨_, rfl, hn⟩
      | cons w rest =>
        have hlive := (heap hrun).live_of_queued (accounts _ hrun) hreg.here (hl ▸ List.mem_cons_self)
        simp only [hlive, if_true]
        split <;> exact ⟨_, rfl, hn⟩
    | remove q w | clear q w | unlock q r =>
      obtain ⟨wq, hreg, _⟩ := hreg
      simp only [workerNext, scanNext, withQueue, hreg.here]
      exact ⟨_, rfl, hn⟩
  | waitLock =>
    simp only [workerNext, hmtx (.inl rfl), if_true]
    exact ⟨_, rfl, hn⟩
  | waiting =>
    simp only [workerNext, hmtx (.inr rfl), hwait rfl, not_false_eq_true, and_self, if_true]
    exact ⟨_, rfl, hn⟩
  | waitTest w =>
    simp only [workerNext, live w rfl, if_true]
    exact ⟨_, rfl, hn⟩
  | invoke w =>
    obtain ⟨f, hf⟩ := Option.ne_none_iff_exists'.mp (show w.func ≠ none from ok)
    simp only [workerNext, live w rfl, if_true, hf]
    exact ⟨_, rfl, hn⟩
  | free w =>
    refine ⟨_, rfl, ?_⟩
    simp only [Shared.witemFree, live w rfl, if_true]
    exact hn
  | exitDecIdle | exitDecCount | exitFree | exited => cases eager
  | _ => exact ⟨_, rfl, hn⟩

/-- Holds `wqlist_mtx` or a spin lock. -/
def Thread.locking (p : Thread) : Bool := p.holdsMtx || p.spin.isSome

theorem Thread.locking_of_mtx (h : p.holdsMtx = true) : p.locking = true := by
  rw [locking, h, Bool.true_or]

theorem Thread.locking_of_spin (h : p.spin ≠ none) : p.locking = true := by
  rw [locking, Option.isSome_iff_ne_none.mpr h, Bool.or_true]

/-- The workers that are on track count, or are not needed. -/
def Spare (S : Settings) (target : Work) (c : PoolState) : Prop :=
  c.number Thread.locking ≤ 1 ∨ EnoughRoaming S target c

/-- What a run of the schedule brings. It goes on, or it has dequeued a real item; if this is not the
target, it goes on all the same. -/
structure Progresses (S : Settings) (target : Work) (c : PoolState) (es : List Event)
    (d : PoolState) : Prop where
  brings : Kept S target c d ∨ ∃ t q w, Event.dequeue t q w ∈ es ∧ w.func ≠ none ∧ (w = target ∨
    (Spare S target c → Kept S target c d))
  spare : Spare S target c → Kept S target c d → Spare S target d

/-- The holder of a spin lock has left the workers that count, or comes back to them. -/
private theorem WorkerStep.roams_of_spin {v : WorkerVars} {x : WorkerPc}
    (h : WorkerStep S sh t v x .go o) (hs : (Thread.worker v x).spin ≠ none) :
    (Thread.worker v x).roams.toNat ≤ o.pc.roams.toNat ∧
      o.shared.wqlistHasWork = sh.wqlistHasWork := by
  cases h with
  | fault => exact ⟨Nat.le_refl _, rfl⟩
  | @raced k | @skip k | @first k | @remove k | @removeLast k =>
    cases k with
    | fast | spin => exact ⟨Nat.le_refl _, rfl⟩
    | wait => exact ⟨Nat.zero_le _, rfl⟩
  | clear hq hy =>
    rw [if_pos andNot_indexBit_clear] at hy
    subst hy
    exact ⟨Nat.le_refl _, rfl⟩
  | @unlock k q wq r => cases k <;> cases r <;> exact ⟨Nat.le_refl _, rfl⟩
  | _ => exact absurd rfl hs

/-- The next step is that of a holder of a spin lock, or else of the only holder of a lock. -/
def Foremost (c : PoolState) (p : Thread) : Prop :=
  p.spin ≠ none ∨
    (c.number Thread.locking ≤ 1 ∧ (p.locking = true ∨ c.number Thread.locking = 0))

theorem Foremost.alone (h : Foremost c p) (hp : c.threads[t]? = some p)
    (spare : Spare S target c) :
    c.number (Thread.onTrack target c.shared) ≤ (p.onTrack target c.shared).toNat ∨
      EnoughRoaming S target c := by
  refine spare.imp (fun hone => ?_) id
  refine Config.number_le_of_unique (z := .app .user) hp rfl fun u r hu htrack => ?_
  have hr : r.locking = true := Thread.locking_of_mtx (Thread.onTrack_holds htrack)
  have hlock : p.locking = true := by
    rcases h with hs | ⟨_, hl | hz⟩
    · exact Thread.locking_of_spin hs
    · exact hl
    · have := List.countP_eq_zero.mp hz r (List.mem_of_getElem? hu)
      exact absurd hr this
  exact Config.eq_of_number_le_one (z := .app .user) hone hp hlock rfl hu hr

theorem Foremost.spare {v : WorkerVars} {x : WorkerPc}
    (h : Foremost c (.worker v x)) (hp : c.threads[t]? = some (.worker v x))
    (hs : WorkerStep S c.shared t v x .go o) (fresh : o.spawned = []) (spare : Spare S target c)
    (kept : Kept S target c (o.apply c t)) : Spare S target (o.apply c t) := by
  have hlock := Outcome.number_apply (P := Thread.locking) (o := o) hp (by simp [fresh])
  have hroams := Outcome.number_apply (P := Thread.roams) (o := o) hp (by simp [fresh])
  have hle := Bool.toNat_le o.pc.locking
  have hsolo : c.number Thread.locking ≤ 1 → (o.apply c t).number Thread.locking ≤ 1 := by
    intro hone
    rcases h with hspin | ⟨_, hl | hz⟩
    · have hl := Thread.locking_of_spin hspin
      simp only [hl, Bool.toNat_true] at hlock
      omega
    · simp only [hl, Bool.toNat_true] at hlock
      omega
    · omega
  rcases spare with hone | roaming
  · exact .inl (hsolo hone)
  · rcases h with hspin | ⟨hone, _⟩
    · obtain ⟨hle', hW⟩ := hs.roams_of_spin hspin
      have hneed := kept.needed
      refine .inr ?_
      change _ + o.shared.wqlistHasWork.length ≤ _
      unfold EnoughRoaming at roaming
      rw [hW]
      omega
    · exact .inl (hsolo hone)

theorem Hunt.advance {v : WorkerVars} {x : WorkerPc}
    (hrun : Machine.Free (program S) (initial users managers) tr c) (hI : Hunt S target c)
    (hp : c.threads[t]? = some (.worker v x)) (eager : x.eager = true)
    (first : Foremost c (.worker v x))
    (hmtx : x = .waitLock ∨ x = .waiting → c.shared.wqlistMtx = none)
    (hwait : x = .waiting → t ∉ c.shared.wqlistHasWork)
    (hlock : (∃ k q, x = .scan k (.lock q)) ∨ x = .scan .wait .readMask →
      ∀ (q : QId) (wq : Workq), c.shared.queues[q]? = some wq → wq.mtx = none) :
    ∃ es d, Machine.Run (program S) WorkerGo c es d ∧ Progresses S target c es d := by
  obtain ⟨o, ho, hn⟩ := worker_enabled hrun hI.alive hp eager hmtx hwait
    fun k q wq hx hq => hlock (.inl ⟨k, q, hx⟩) q wq hq
  have hlive : (Thread.worker v x).liveWorker = true := by
    cases x <;> first | rfl | cases eager
  refine ⟨o.events, o.apply c t, .move (l := (t, .go)) ⟨rfl, _, hp, hlive⟩ ⟨hp, ho⟩, ?_⟩
  cases (program_step ho).2 with
  | worker h =>
    have fresh : o.spawned = [] := by cases h <;> rfl
    refine ⟨?_, fun spare kept => first.spare hp h fresh spare kept⟩
    refine (hI.step (registry hrun) (masks hrun) (disciplined hrun) hp (markerOk hrun t _ hp) h hn
      eager fun hx => hlock (.inr hx)).imp id ?_
    rintro ⟨q, w, he, hf, hw⟩
    exact ⟨t, q, w, he, hf, hw.imp id fun kept spare => kept (first.alone hp spare)⟩

/-- A worker in the busy loop, about to look at the mask. -/
def Thread.parked : Thread → Bool
  | .worker _ (.scan k .readMask) => k.spins
  | _ => false

namespace Thread

theorem eager_of_waits (h : p.waits = true) : p.eager = true := by
  cases p with
  | worker v x => cases x <;> first | rfl | cases h
  | _ => cases h

theorem parked_of_roams (h : p.roams = true) (he : p.eager = false) : p.parked = true := by
  cases p with
  | app k => cases h.symm.trans he
  | worker v x =>
    cases x with
    | scan k x =>
      cases x with
      | readMask => cases k <;> first | rfl | cases he
      | _ => cases he
    | condWait | waitUnlock => cases he
    | _ => cases h.symm.trans he
  | _ => cases h

theorem parked_spec (h : p.parked = true) : ∃ v, p = .worker v (.scan .spin .readMask) := by
  cases p with
  | worker v x =>
    cases x with
    | scan k x =>
      cases x with
      | readMask => cases k <;> first | exact ⟨v, rfl⟩ | cases h
      | _ => cases h
    | _ => cases h
  | _ => cases h

theorem parked_sides (h : p.parked = true) : p.admitted = true ∧ p.fastSide = true := by
  obtain ⟨v, rfl⟩ := parked_spec h
  exact ⟨rfl, rfl⟩

end Thread

theorem Disciplined.spin_free (hd : Disciplined c)
    (nobody : ∀ (u : Tid) (r : Thread), c.threads[u]? = some r → r.spin = none) (q : QId) (wq : Workq)
    (hq : c.shared.queues[q]? = some wq) : wq.mtx = none := by
  refine Option.eq_none_iff_forall_ne_some.mpr fun u hu => ?_
  obtain ⟨r, hr, hs⟩ := ((hd.spin q) u).mp (by simp [Shared.spinLock, hq, hu])
  simp [Thread.holdsSpin, nobody u r hr] at hs

theorem Disciplined.mtx_free (hd : Disciplined c)
    (nobody : ∀ (u : Tid) (r : Thread), c.threads[u]? = some r → r.holdsMtx = false) :
    c.shared.wqlistMtx = none := by
  refine Option.eq_none_iff_forall_ne_some.mpr fun u hu => ?_
  obtain ⟨r, hr, hm⟩ := (hd.mtx u).mp hu
  rw [nobody u r hr] at hm
  cases hm

/-- The holder of a spin lock moves on. -/
private theorem Hunt.holder
    (hrun : Machine.Free (program S) (initial users managers) tr c) (hI : Hunt S target c)
    (hp : c.threads[t]? = some p) (hs : p.spin ≠ none) :
    ∃ es d, Machine.Run (program S) WorkerGo c es d ∧ Progresses S target c es d := by
  rcases hI.outside t p hp with hw | ⟨_, hn⟩
  · cases p with
    | worker v x =>
      cases x with
      | scan k x =>
        cases x with
        | readMask | readSlot | lock => exact absurd rfl hs
        | _ => exact hI.advance hrun hp rfl (.inl hs) nofun nofun nofun
      | _ => exact absurd rfl hs
    | _ => cases hw
  · exact absurd hn hs

/-- The holder of `wqlist_mtx` moves on, when nobody holds a spin lock. -/
private theorem Hunt.owner
    (hrun : Machine.Free (program S) (initial users managers) tr c) (hI : Hunt S target c)
    (free : ∀ (u : Tid) (r : Thread), c.threads[u]? = some r → r.spin = none)
    (hp : c.threads[t]? = some p) (hm : p.holdsMtx = true) :
    ∃ es d, Machine.Run (program S) WorkerGo c es d ∧ Progresses S target c es d := by
  have hd := disciplined hrun
  have hlock := hd.spin_free free
  have hfirst : Foremost c p := by
    refine .inr ⟨?_, .inl (Thread.locking_of_mtx hm)⟩
    refine (Config.number_le_of_unique (z := .app .user) hp rfl fun u r hu hr => ?_).trans
      (Bool.toNat_le _)
    exact hd.mtx_unique hp hm hu (by simpa [Thread.locking, free u r hu] using hr)
  rcases hI.outside t p hp with hw | ⟨hn, _⟩
  · cases p with
    | worker v x =>
      cases x with
      | scan k x =>
        refine hI.advance hrun hp ?_ hfirst nofun nofun fun _ => hlock
        cases k <;> first | cases hm; done | (cases x <;> rfl)
      | condWait | waitUnlock => exact hI.advance hrun hp rfl hfirst nofun nofun nofun
      | _ => cases hm
    | _ => cases hw
  · rw [hn] at hm
    cases hm

private theorem unlocked_of
    (free : ∀ (u : Tid) (r : Thread), c.threads[u]? = some r → r.spin = none)
    (unowned : ∀ (u : Tid) (r : Thread), c.threads[u]? = some r → r.holdsMtx = false) :
    c.number Thread.locking = 0 := by
  refine List.countP_eq_zero.mpr fun r hr => ?_
  obtain ⟨u, hu⟩ := List.getElem?_of_mem hr
  simp [Thread.locking, free u r hu, unowned u r hu]

/-- A callback returns. -/
private theorem Hunt.callback (hI : Hunt S target c) {k : Caller}
    (hp : c.threads[t]? = some (.app k)) (hk : k.isWorker = true)
    (first : c.number Thread.locking = 0) :
    ∃ es d, Machine.Run (program S) WorkerGo c es d ∧ Progresses S target c es d := by
  cases k with
  | worker v w =>
    let o : Out := ⟨c.shared, .worker v (.incIdle w), [], []⟩
    have ho : program S c.shared t (.app (.worker v w)) .go = some o := by
      simp [program, hI.alive, appNext, goTo, o]
    have hlock := Outcome.number_apply (P := Thread.locking) (o := o) hp (by simp [o])
    have hle := Bool.toNat_le o.pc.locking
    refine ⟨_, o.apply c t, .move (l := (t, .go)) ⟨rfl, _, hp, rfl⟩ ⟨hp, ho⟩, .inl ?_,
      fun _ _ => .inl (by omega)⟩
    exact hI.keep hp hI.alive rfl (fun r => by simp [o]) rfl rfl (.inl rfl) (Nat.le_refl _) (Nat.le_refl _)
      (Nat.lt_succ_self _)
  | _ => cases hk

/-- A worker moves on, when nobody holds a lock. -/
private theorem Hunt.mover
    (hrun : Machine.Free (program S) (initial users managers) tr c) (hI : Hunt S target c)
    (free : ∀ (u : Tid) (r : Thread), c.threads[u]? = some r → r.spin = none)
    (unowned : ∀ (u : Tid) (r : Thread), c.threads[u]? = some r → r.holdsMtx = false)
    (hp : c.threads[t]? = some p) (eager : p.eager = true)
    (hwait : p.waits = true → t ∉ c.shared.wqlistHasWork) :
    ∃ es d, Machine.Run (program S) WorkerGo c es d ∧ Progresses S target c es d := by
  have hd := disciplined hrun
  have hfirst := unlocked_of free unowned
  cases p with
  | app k => exact hI.callback hp eager hfirst
  | worker v x =>
    refine hI.advance hrun hp eager (.inr ⟨by omega, .inr hfirst⟩) (fun _ => hd.mtx_free unowned)
      (fun hx => hwait ?_) fun _ => hd.spin_free free
    rw [hx]
    rfl
  | _ => cases eager

/-! The end of the schedule: everybody spins or sleeps -/

private theorem go_run {l : List Thread} {sh' : Shared} {p' : Thread} {es : List Event}
    (ht : t < l.length) (hl : p.liveWorker = true)
    (ho : program S sh t p .go = some ⟨sh', p', [], es⟩) :
    Machine.Run (program S) WorkerGo ⟨sh, l.set t p⟩ es ⟨sh', l.set t p'⟩ := by
  have hp : (l.set t p)[t]? = some p := List.getElem?_set_self ht
  have go : WorkerGo ⟨sh, l.set t p⟩ (t, .go) := ⟨rfl, p, hp, hl⟩
  simpa [Outcome.apply] using Machine.Run.move go ⟨hp, ho⟩

/-- A worker in the busy loop dequeues the first item, if it is real and all spin locks are free. -/
private theorem spinner_dequeues {v : WorkerVars} {rest : List Work}
    (hn : c.shared.halted = none) (hp : c.threads[t]? = some (.worker v (.scan .spin .readMask)))
    (hf : ffs c.shared.wqlistMask ≠ 0) (hs : c.shared.wqlist (ffs c.shared.wqlistMask - 1) = some q)
    (hq : c.shared.queues[q]? = some wq) (hm : wq.mtx = none) (hl : wq.itemListhead = w :: rest)
    (hw : w.func ≠ none) (hlive : c.shared.live w = true) :
    ∃ v' y, (y = .clear q w ∨ y = .unlock q (some w)) ∧
      Machine.Run (program S) WorkerGo c [.readMask t, .dequeue t q w]
        ⟨c.shared.setQueue q { wq with mtx := some t, itemListhead := rest },
          c.threads.set t (.worker v' (.scan .spin y))⟩ := by
  obtain ⟨ht, hself⟩ := List.getElem?_eq_some_iff.mp hp
  let sh := c.shared.setQueue q { wq with mtx := some t }
  have hq' : sh.queues[q]? = some { wq with mtx := some t } :=
    List.getElem?_set_self (List.getElem?_eq_some_iff.mp hq).1
  have hn' : sh.halted = none := hn
  have hlive' : sh.live w = true := hlive
  have r₁ : Machine.Run (program S) WorkerGo
      ⟨c.shared, c.threads.set t (.worker v (.scan .spin .readMask))⟩ [.readMask t]
      ⟨c.shared, c.threads.set t (.worker v (.scan .spin (.readSlot (ffs c.shared.wqlistMask))))⟩ :=
    go_run ht rfl (by simp [program, hn, workerNext, scanNext, emit, hf])
  have r₂ : Machine.Run (program S) WorkerGo
      ⟨c.shared, c.threads.set t (.worker v (.scan .spin (.readSlot (ffs c.shared.wqlistMask))))⟩ []
      ⟨c.shared, c.threads.set t (.worker v (.scan .spin (.lock q)))⟩ :=
    go_run ht rfl (by simp [program, hn, workerNext, scanNext, goTo, hs])
  have r₃ : Machine.Run (program S) WorkerGo
      ⟨c.shared, c.threads.set t (.worker v (.scan .spin (.lock q)))⟩ []
      ⟨sh, c.threads.set t (.worker v (.scan .spin (.first q)))⟩ :=
    go_run ht rfl (by simp [program, hn, workerNext, scanNext, withQueue, goTo, hq, hm, sh])
  have r₄ : Machine.Run (program S) WorkerGo
      ⟨sh, c.threads.set t (.worker v (.scan .spin (.first q)))⟩ []
      ⟨sh, c.threads.set t (.worker v (.scan .spin (.remove q w)))⟩ :=
    go_run ht rfl (by simp [program, hn', workerNext, scanNext, withQueue, goTo, hq', hl,
      ScanKind.skipThreadExitEvents, hlive', hw])
  have r₅ : Machine.Run (program S) WorkerGo
      ⟨sh, c.threads.set t (.worker v (.scan .spin (.remove q w)))⟩ [.dequeue t q w]
      ⟨sh.setQueue q { wq with mtx := some t, itemListhead := rest }, c.threads.set t
        (.worker { v with queuePriority := wq.queueprio }
          (.scan .spin (if rest = [] then .clear q w else .unlock q (some w))))⟩ :=
    go_run ht rfl (by
      simp only [program, hn', if_true, workerNext, scanNext, withQueue, hq', hl, List.tail_cons]
      rfl)
  have run := (((r₁.append r₂).append r₃).append r₄).append r₅
  rw [← hself, List.set_getElem_self ht] at run
  refine ⟨_, _, ?_, by simpa [sh, Shared.setQueue] using run⟩
  split
  · exact .inl rfl
  · exact .inr rfl

/-- When nobody can move, the only workers that are not asleep are in the busy loop, no marker is
before the target, and one of them dequeues the first item. -/
private theorem Hunt.finish
    (hrun : Machine.Free (program S) (initial users managers) tr c) (hI : Hunt S target c)
    (free : ∀ (u : Tid) (r : Thread), c.threads[u]? = some r → r.spin = none)
    (unowned : ∀ (u : Tid) (r : Thread), c.threads[u]? = some r → r.holdsMtx = false)
    (still : ∀ (u : Tid) (r : Thread), c.threads[u]? = some r → r.eager = true →
      r.waits = true ∧ u ∈ c.shared.wqlistHasWork) :
    ∃ es d, Machine.Run (program S) WorkerGo c es d ∧ Progresses S target c es d := by
  have hr := registry hrun
  have hd := disciplined hrun
  have hlock := hd.spin_free free
  have htrack : c.number (Thread.onTrack target c.shared) = 0 := by
    refine List.countP_eq_zero.mpr fun r hmem htrack => ?_
    obtain ⟨u, hu⟩ := List.getElem?_of_mem hmem
    have := Thread.onTrack_holds htrack
    rw [unowned u r hu] at this
    cases this
  have hasleep : c.number Thread.waits = c.shared.wqlistHasWork.length := by
    have hsplit := hd.wait.number_eq
    refine Nat.le_antisymm (Nat.le_of_not_lt fun hlt => ?_) (by omega)
    obtain ⟨u, r, hu, hr⟩ := Config.exists_of_numberAt_pos (c := c)
      (P := fun t p => p.waits && !c.shared.wqlistHasWork.contains t) (by omega)
    simp only [Bool.and_eq_true, Bool.not_eq_true', List.contains_eq_mem, decide_eq_false_iff_not] at hr
    exact hr.2 (still u r hu (Thread.eager_of_waits hr.1)).2
  have hroams : c.number Thread.roams ≤ c.number Thread.parked + c.number Thread.waits := by
    refine Config.number_le_add fun r hmem hroam => ?_
    obtain ⟨u, hu⟩ := List.getElem?_of_mem hmem
    cases he : r.eager with
    | true => exact .inr (still u r hu he).1
    | false => exact .inl (Thread.parked_of_roams hroam he)
  have hspin : c.number Thread.parked ≤ c.number Thread.admitted :=
    List.countP_mono_left fun r _ h => (Thread.parked_sides h).1
  have hfast : c.number Thread.parked ≤ c.number Thread.fastSide :=
    List.countP_mono_left fun r _ h => (Thread.parked_sides h).2
  have hadmit := admitted_le hrun
  have henough := hI.enough
  unfold needed Settings.toPass at henough
  have hbefore : c.shared.markersBefore target = 0 := Classical.byContradiction fun hne => by
    rw [if_neg hne] at henough
    omega
  rw [if_pos hbefore] at henough
  obtain ⟨p, hmem, hpark⟩ := List.countP_pos_iff.mp (show 0 < c.number Thread.parked by omega)
  obtain ⟨t, hp⟩ := List.getElem?_of_mem hmem
  obtain ⟨v, rfl⟩ := Thread.parked_spec hpark
  have hfront := (masks hrun).front_eq hr hlock
  have hf : ffs c.shared.wqlistMask ≠ 0 := fun hz => by
    rw [if_pos hz] at hfront
    exact Shared.front_ne_none (List.ne_nil_of_mem hI.queued) hfront
  rw [if_neg hf] at hfront
  obtain ⟨q, wq, w, rest, hs, hq, hl, l, ho⟩ := hr.front_spec hfront
  have hw : w.isMarker = false := Shared.first_real ho hI.real hbefore
  have hreal : w.func ≠ none := fun hfunc => by simp [Work.isMarker, hfunc] at hw
  obtain ⟨v', y, hy, run⟩ := spinner_dequeues hI.alive hp hf hs hq (hlock q wq hq) hl hreal
    ((heap hrun).live_of_queued (accounts _ hrun) hq (hl ▸ List.mem_cons_self))
  let o : Out := ⟨c.shared.setQueue q { wq with mtx := some t, itemListhead := rest },
    .worker v' (.scan .spin y), [], []⟩
  have hlocks := Outcome.number_apply (P := Thread.locking) (o := o) hp (by simp [o])
  have hle := Bool.toNat_le o.pc.locking
  have hnone := unlocked_of free unowned
  have happly : o.apply c t = ⟨o.shared, c.threads.set t o.pc⟩ := by simp [Outcome.apply, o]
  rw [happly] at hlocks
  refine ⟨_, _, run, .inr ⟨t, q, w, by simp, hreal, ?_⟩, fun _ _ => .inl ?_⟩
  · refine (Classical.em (w = target)).imp id fun hne _ => ?_
    have hset : o.shared.queues =
        c.shared.queues.set q { wq with mtx := some t, itemListhead := rest } := rfl
    have kept : Kept S target c (o.apply c t) := by
      refine hI.takeReal hr hp hI.alive rfl (.inl rfl) rfl hs ((Shared.items_eq hq).trans hl) hne hw rfl
        (fun r => Shared.items_set hq hset) ?_ ?_ (fun hf => absurd hf Bool.false_ne_true) ?_
        (.inl (by rw [htrack]; exact Nat.zero_le _))
      · rcases hy with rfl | rfl <;> exact Nat.le_refl _
      · rcases hy with rfl | rfl <;> exact Nat.le_refl _
      · rcases hy with rfl | rfl <;> simp [o, Thread.rank, WorkerPc.rank, ScanPc.rank, ScanKind.rank,
          ScanKind.spins, hw]
    rwa [happly] at kept
  · change Config.number Thread.locking ⟨o.shared, c.threads.set t o.pc⟩ ≤ 1
    omega

/-- The schedule makes progress. -/
theorem hunt_next
    (hrun : Machine.Free (program S) (initial users managers) tr c) (hI : Hunt S target c) :
    ∃ es d, Machine.Run (program S) WorkerGo c es d ∧ Progresses S target c es d := by
  by_cases h₁ : ∃ (t : Tid) (p : Thread), c.threads[t]? = some p ∧ p.spin ≠ none
  · obtain ⟨t, p, hp, hs⟩ := h₁
    exact hI.holder hrun hp hs
  have free : ∀ (u : Tid) (r : Thread), c.threads[u]? = some r → r.spin = none := fun u r hu =>
    Classical.byContradiction fun hs => h₁ ⟨u, r, hu, hs⟩
  by_cases h₂ : ∃ (t : Tid) (p : Thread), c.threads[t]? = some p ∧ p.holdsMtx = true
  · obtain ⟨t, p, hp, hm⟩ := h₂
    exact hI.owner hrun free hp hm
  have unowned : ∀ (u : Tid) (r : Thread), c.threads[u]? = some r → r.holdsMtx = false :=
    fun u r hu => Bool.eq_false_iff.mpr fun hm => h₂ ⟨u, r, hu, hm⟩
  by_cases h₃ : ∃ (t : Tid) (p : Thread), c.threads[t]? = some p ∧ p.eager = true ∧
      (p.waits = true → t ∉ c.shared.wqlistHasWork)
  · obtain ⟨t, p, hp, he, hw⟩ := h₃
    exact hI.mover hrun free unowned hp he hw
  · refine hI.finish hrun free unowned fun u r hu he => ?_
    refine Classical.byContradiction fun hno => h₃ ⟨u, r, hu, he, fun hw hmem => hno ⟨hw, hmem⟩⟩

theorem hunt_succeeds
    (hrun : Machine.Free (program S) (initial users managers) tr c) (hI : Hunt S target c) :
    ∃ es d, Machine.Run (program S) WorkerGo c es d ∧ ∃ e ∈ es, e.dequeuesReal := by
  refine Machine.exists_run_of_rank
    (I := fun tr c => Machine.Free (program S) (initial users managers) tr c ∧ Hunt S target c)
    huntRank (fun tr c h => ?_) ⟨hrun, hI⟩
  obtain ⟨es, d, run, hes⟩ := hunt_next h.1 h.2
  refine ⟨es, d, run, hes.brings.symm.imp ?_ fun kept => ⟨⟨h.1.append run.free, kept.hunt⟩, kept.rank⟩⟩
  rintro ⟨t, q, w, he, hf, -⟩
  exact ⟨_, he, hf⟩

/-- The schedule goes on until it dequeues the target, when no worker on track can lose its queue. -/
theorem hunt_target
    (hrun : Machine.Free (program S) (initial users managers) tr c) (hI : Hunt S target c)
    (spare : Spare S target c) :
    ∃ es d, Machine.Run (program S) WorkerGo c es d ∧
      ∃ e ∈ es, ∃ t q, e = Event.dequeue t q target := by
  refine Machine.exists_run_of_rank
    (I := fun tr c => Machine.Free (program S) (initial users managers) tr c ∧ Hunt S target c ∧
      Spare S target c)
    huntRank (fun tr c h => ?_) ⟨hrun, hI, spare⟩
  obtain ⟨hrun, hI, spare⟩ := h
  obtain ⟨es, d, run, hes⟩ := hunt_next hrun hI
  refine ⟨es, d, run, ?_⟩
  have goes : Kept S target c d → (∃ e ∈ es, ∃ t q, e = Event.dequeue t q target) ∨
      ((Machine.Free (program S) (initial users managers) (tr ++ es) d ∧ Hunt S target d ∧
        Spare S target d) ∧ huntRank d < huntRank c) := fun kept =>
    .inr ⟨⟨hrun.append run.free, kept.hunt, hes.spare spare kept⟩, kept.rank⟩
  rcases hes.brings with kept | ⟨t, q, w, he, _, rfl | kept⟩
  · exact goes kept
  · exact .inl ⟨_, he, t, q, rfl⟩
  · exact goes (kept spare)

/-! The shorter way -/

/-- The holder of the queue's lock moves on, or else the worker that has chosen the queue. -/
theorem Facing.next (hrun : Machine.Free (program S) (initial users managers) tr c)
    (hs : Facing w c) : ∃ es d, Machine.Run (program S) WorkerGo c es d ∧
      ((∃ e ∈ es, ∃ t q, e = Event.dequeue t q w) ∨
        (Facing w d ∧ d.total Thread.rank < c.total Thread.rank)) := by
  have hr := registry hrun
  obtain ⟨t, p, hp, hface⟩ := hs.faced
  obtain ⟨v, k, y, q, rfl, hy, hhead⟩ := Thread.faces_spec hface
  have visit : ∀ {u : Tid} {v : WorkerVars} {k : ScanKind} {y : ScanPc},
      c.threads[u]? = some (.worker v (.scan k y)) → y.visits c.shared q → y.eager k = true →
      (∀ (r : QId) (wq : Workq), y = .lock r → c.shared.queues[r]? = some wq → wq.mtx = none) →
      ∃ es d, Machine.Run (program S) WorkerGo c es d ∧
        ((∃ e ∈ es, ∃ t q, e = Event.dequeue t q w) ∨
          (Facing w d ∧ d.total Thread.rank < c.total Thread.rank)) := by
    intro u v k y hu hvisit eager hlock
    obtain ⟨o, ho, hn⟩ := worker_enabled hrun hs.alive hu eager nofun nofun
      fun k' r wq hx hq => by cases hx; exact hlock r wq rfl hq
    refine ⟨o.events, o.apply c u, .move (l := (u, .go)) ⟨rfl, _, hu, rfl⟩ ⟨hu, ho⟩, ?_⟩
    cases (program_step ho).2 with
    | worker h =>
      have fresh : o.spawned = [] := by cases h <;> rfl
      refine (hs.visit hr (masks hrun) hu (markerOk hrun u _ hu) hvisit hhead h hn).imp id
        fun ⟨hs', hrank⟩ => ⟨hs', ?_⟩
      have htotal := Outcome.total_apply (o := o) Thread.rank hu
      simp only [fresh, List.map_nil, List.sum_nil] at htotal
      omega
  cases y with
  | readMask | clear | unlock => cases hy
  | readSlot | first | remove => exact visit hp (.inl hy) rfl nofun
  | lock q' =>
    obtain rfl : q' = q := Option.some.inj hy
    obtain ⟨wq, hreg, _⟩ := hr.threads t _ hp
    cases hm : wq.mtx with
    | none =>
      refine visit hp (.inl rfl) rfl fun r wq' hr' hq => ?_
      cases hr'
      cases hreg.here.symm.trans hq
      exact hm
    | some u =>
      obtain ⟨r, hu, hspin⟩ := ((disciplined hrun).spin q' u).mp (by
        simp [Shared.spinLock, hreg.here, hm])
      have hspin : r.spin = some q' := beq_iff_eq.mp hspin
      have hworker := (hs.outside u r hu).resolve_right (by simp [hspin])
      obtain ⟨v', k', y', rfl, hvisit, eager, hno⟩ := ScanPc.visits_of_spin hworker hspin
      exact visit hu hvisit eager fun r' _ hy' => absurd hy' (hno r')

/-- An item at the head of a queue that a worker has chosen is dequeued. -/
theorem faced_dequeued (hrun : Machine.Free (program S) (initial users managers) tr c)
    (hs : Facing w c) : ∃ es d, Machine.Run (program S) WorkerGo c es d ∧
      ∃ e ∈ es, ∃ t q, e = Event.dequeue t q w := by
  refine Machine.exists_run_of_rank
    (I := fun tr c => Machine.Free (program S) (initial users managers) tr c ∧ Facing w c)
    (Config.total Thread.rank) (fun tr c h => ?_) ⟨hrun, hs⟩
  obtain ⟨es, d, run, hes⟩ := h.2.next h.1
  exact ⟨es, d, run, hes.imp id fun h' => ⟨⟨h.1.append run.free, h'.1⟩, h'.2⟩⟩

end PthreadWorkqueue.Posix
