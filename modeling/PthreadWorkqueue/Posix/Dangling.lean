import PthreadWorkqueue.Posix.OvercommitMask

/-! The accesses that follow a pointer to a queue. A null pointer ends the process; no thread follows
one, because what the masks name is registered and what is registered stays. -/
namespace PthreadWorkqueue.Posix
open Concurrency

/-- The thread's next access follows a null pointer. -/
def Thread.dangles (sh : Shared) : Thread → Prop
  | .call _ c => match c with
    | .check q _ _ | .handle q _ | .add q _ _ | .ocAdd q _ _ | .createLock q | .createManager q
    | .managerStart q | .managerSet q | .createRegister q | .createUnlock q => sh.queues[q]? = none
    | _ => False
  | .worker _ (.scan _ p) => match p with
    | .readMask => False
    | .readSlot idx => sh.wqlist (idx - 1) = none
    | .lock q | .first q | .remove q _ | .clear q _ | .unlock q _ => sh.queues[q]? = none
  | .overcommit .scan => ffs sh.ocwqMask ≠ 0 ∧
    ∀ q, sh.ocwq (ffs sh.ocwqMask - 1) = some q → sh.queues[q]? = none
  | .manager _ (.stop _ _ p) => match p with
    | .spinLock _ q | .atomicOr _ q | .insert _ q | .spinUnlock q => sh.queues[q]? = none
    | _ => False
  | _ => False

/-- No outcome ends the process with an access to a queue that is not there. -/
def NoNull (x : Option Out) : Prop := ∀ o, x = some o → o.shared.halted ≠ some .nullQueue

section NullQueue
variable {S : Settings} {sh : Shared} {t : Tid} {p : Thread} {ch : Choice} {o : Out} {q : QId}
  {x y : Option Out}

namespace NoNull

theorem stuck : NoNull none := fun _ h => by cases h

theorem go (h : o.shared.halted ≠ some .nullQueue) : NoNull (some o) := by
  intro o' ho
  cases ho
  exact h

theorem ite {P : Prop} [Decidable P] (hx : NoNull x) (hy : NoNull y) :
    NoNull (if P then x else y) := by
  split
  · exact hx
  · exact hy

theorem halt {h : Halt} (hne : h ≠ .nullQueue) : NoNull (goTo (sh.halt h) p) :=
  go fun he => hne (Option.some.inj he)

theorem free {w : Work} {es : List Event} (ok : sh.halted ≠ some .nullQueue) :
    NoNull (some ⟨sh.witemFree w, p, [], es⟩) := by
  refine go ?_
  unfold Shared.witemFree
  split
  · exact ok
  · exact fun he => by cases he

theorem withQueue {f : Workq → Option Out} (hq : sh.queues[q]? ≠ none) (hf : ∀ wq, NoNull (f wq)) :
    NoNull (withQueue sh p q f) := by
  obtain ⟨wq, hwq⟩ := Option.ne_none_iff_exists'.mp hq
  rw [Posix.withQueue, hwq]
  exact hf wq

theorem addNext {k : Caller} {w : Work} {wq : Workq} {z : AddPc} (ok : sh.halted ≠ some .nullQueue) :
    NoNull (addNext sh t k q w wq z ch) := by
  cases z <;> cases ch <;> first
    | exact stuck
    | exact go ok
    | exact ite (go ok) stuck
    | exact ite (go ok) (go ok)

theorem ocAddNext {k : Caller} {w : Work} {wq : Workq} {z : OcAddPc}
    (ok : sh.halted ≠ some .nullQueue) : NoNull (ocAddNext sh t k q w wq z ch) := by
  cases z <;> cases ch <;> first
    | exact stuck
    | exact go ok
    | exact ite (go ok) stuck
    | exact ite (ite (go ok) (go ok)) stuck

theorem register_halted {wq : Workq} {sh' : Shared} (h : register sh q wq = some sh') :
    sh'.halted = sh.halted := by
  unfold register at h
  split at h <;> split at h <;> cases h <;> rfl

theorem createNext {k : Caller} {wq : Workq} {z : Call} (ok : sh.halted ≠ some .nullQueue) :
    NoNull (createNext sh t k q wq z ch) := by
  cases z <;> cases ch <;> try exact stuck
  case createLock.go => exact ite (go ok) stuck
  case createManager.go => exact ite (go ok) (go ok)
  case managerStart.ret code => exact ite (go ok) (ite (go ok) (halt (by decide)))
  case managerSet.go | createUnlock.go => exact go ok
  case createRegister.go =>
    cases hreg : register sh q wq with
    | none =>
      simp only [Posix.createNext, hreg]
      exact halt (by decide)
    | some sh' =>
      simp only [Posix.createNext, hreg]
      exact go (register_halted hreg ▸ ok)

theorem callNext {k : Caller} {z : Call} (ok : sh.halted ≠ some .nullQueue)
    (hp : ¬ (Thread.call k z).dangles sh) : NoNull (callNext sh t k z ch) := by
  cases z with
  | check q f a =>
    cases ch <;> try exact stuck
    refine withQueue hp fun wq => ?_
    cases f with
    | none => exact go ok
    | some f => exact ite (go ok) (go ok)
  | handle q w =>
    cases ch <;> try exact stuck
    exact withQueue hp fun wq => ite (go ok) (halt (by decide))
  | add q w z =>
    simp only [Posix.callNext]
    exact withQueue hp fun wq => addNext ok
  | ocAdd q w z =>
    simp only [Posix.callNext]
    exact withQueue hp fun wq => ocAddNext ok
  | createLock | createManager | managerStart | managerSet | createRegister | createUnlock =>
    simp only [Posix.callNext]
    exact withQueue hp fun wq => createNext ok
  | createCheck | createAlloc => cases ch <;> first | exact stuck | exact ite (go ok) (go ok)
  | _ => cases ch <;> first | exact stuck | exact go ok

theorem scanNext {v : WorkerVars} {k : ScanKind} {z : ScanPc} (ok : sh.halted ≠ some .nullQueue)
    (hp : ¬ (Thread.worker v (.scan k z)).dangles sh) : NoNull (scanNext sh t v k z) := by
  cases z with
  | readMask => exact go ok
  | readSlot idx =>
    obtain ⟨q, hq⟩ := Option.ne_none_iff_exists'.mp hp
    simp only [Posix.scanNext, hq]
    exact go ok
  | lock q => exact withQueue hp fun wq => ite (go ok) stuck
  | first q =>
    refine withQueue hp fun wq => ?_
    cases wq.itemListhead with
    | nil => exact go ok
    | cons w l => exact ite (ite (go ok) (halt (by decide))) (go ok)
  | remove q w | clear q w | unlock q r => exact withQueue hp fun wq => go ok

theorem workerNext {v : WorkerVars} {z : WorkerPc} (ok : sh.halted ≠ some .nullQueue)
    (hp : ¬ (Thread.worker v z).dangles sh) : NoNull (workerNext S sh t v z ch) := by
  cases z with
  | scan k z => cases ch <;> first | exact stuck | exact scanNext ok hp
  | waitLock | waiting => cases ch <;> first | exact stuck | exact ite (go ok) stuck
  | waitTest w => cases ch <;> first | exact stuck | exact ite (go ok) (halt (by decide))
  | exitFree | free => cases ch <;> first | exact stuck | exact NoNull.free ok
  | invoke w =>
    cases ch <;> try exact stuck
    refine ite ?_ (halt (by decide))
    cases w.func with
    | none => exact halt (by decide)
    | some f => exact go ok
  | _ => cases ch <;> first | exact stuck | exact go ok

theorem ocScanNext (ok : sh.halted ≠ some .nullQueue) (hp : ¬ (Thread.overcommit .scan).dangles sh) :
    NoNull (ocScanNext sh t) := by
  unfold Posix.ocScanNext
  by_cases hz : ffs sh.ocwqMask = 0
  · simp only [hz, if_true]
    exact go ok
  · obtain ⟨q, hslot, hq⟩ : ∃ q, sh.ocwq (ffs sh.ocwqMask - 1) = some q ∧ sh.queues[q]? ≠ none := by
      by_contra hnone
      exact hp ⟨hz, fun q hs => by_contra fun hq => hnone ⟨q, hs, hq⟩⟩
    simp only [hz, if_false, hslot]
    refine withQueue hq fun wq => ?_
    cases wq.itemListhead with
    | nil => exact go ok
    | cons w l =>
      refine go ?_
      dsimp only
      split <;> exact ok

theorem overcommitNext {z : OcPc} (ok : sh.halted ≠ some .nullQueue)
    (hp : ¬ (Thread.overcommit z).dangles sh) : NoNull (overcommitNext sh t z ch) := by
  cases z with
  | lock => cases ch <;> first | exact stuck | exact ite (go ok) stuck
  | scan => cases ch <;> first | exact stuck | exact ocScanNext ok hp
  | fetch w => cases ch <;> first | exact stuck | exact ite (go ok) (halt (by decide))
  | free w f a => cases ch <;> first | exact stuck | exact NoNull.free ok
  | call w f a =>
    cases ch <;> try exact stuck
    cases f with
    | none => exact halt (by decide)
    | some f => exact go ok
  | timedwait =>
    cases ch <;> first
      | exact stuck
      | exact ite (go ok) stuck
      | exact ite (ite (go ok) (ite (go ok) (halt (by decide)))) stuck
  | _ => cases ch <;> first | exact stuck | exact go ok

theorem workerStop {v : ManagerVars} {i m : Nat} {z : StopPc} (ok : sh.halted ≠ some .nullQueue)
    (hp : ¬ (Thread.manager v (.stop i m z)).dangles sh) : NoNull (workerStop sh t v i m z ch) := by
  cases z with
  | lockMtx | signal => cases ch <;> first | exact stuck | exact ite (go ok) stuck
  | find w j =>
    cases ch <;> try exact stuck
    refine ite ?_ (halt (by decide))
    cases sh.wqlist j <;> exact go ok
  | spinLock w q =>
    cases ch <;> try exact stuck
    exact withQueue hp fun wq => ite (go ok) stuck
  | atomicOr w q | insert w q | spinUnlock q =>
    cases ch <;> try exact stuck
    exact withQueue hp fun wq => go ok
  | _ => cases ch <;> first | exact stuck | exact go ok

theorem managerNext {v : ManagerVars} {z : ManagerPc} (ok : sh.halted ≠ some .nullQueue)
    (hp : ¬ (Thread.manager v z).dangles sh) : NoNull (managerNext S sh t v z ch) := by
  cases z with
  | stop i m z => exact workerStop ok hp
  | start y z => cases z <;> cases ch <;> first | exact stuck | exact go ok | exact ite (go ok) (go ok)
  | timedWait | semWait =>
    cases ch <;> first | exact stuck | exact ite (ite (go ok) stuck) (go ok)
  | rampRead | rampAdd => cases ch <;> first | exact stuck | exact ite (go ok) (go ok)
  | _ => cases ch <;> first | exact stuck | exact go ok

theorem of_not_dangles (alive : sh.halted = none) (hp : ¬ p.dangles sh) :
    NoNull (program S sh t p ch) := by
  have ok : sh.halted ≠ some .nullQueue := by
    rw [alive]
    exact fun h => by cases h
  unfold program
  rw [if_pos alive]
  cases p with
  | app k =>
    cases ch with
    | request r =>
      cases r with
      | additem q f a =>
        by_cases hq : q ∈ sh.handles
        · simp only [appNext, Request.enter, hq, if_true]
          exact go ok
        · simp only [appNext, Request.enter, hq, if_false]
          exact stuck
      | _ => exact go ok
    | go => cases k <;> first | exact stuck | exact go ok
    | _ => exact stuck
  | call k z => exact callNext ok hp
  | worker v z => exact workerNext ok hp
  | overcommit z => exact overcommitNext ok hp
  | manager v z => exact managerNext ok hp

end NoNull

end NullQueue

/-! What a thread has seen of the queue it is about to look at -/

def Thread.aimed (sh : Shared) : Thread → Prop
  | .call _ (.createLock q) | .call _ (.createManager q) | .call _ (.managerStart q)
  | .call _ (.managerSet q) | .call _ (.createRegister q) => ∃ wq, sh.queues[q]? = some wq
  | .worker _ (.scan _ (.readSlot idx)) => ∃ q, sh.wqlist (idx - 1) = some q
  | _ => True

section Aimed
variable {S : Settings} {sh sh' : Shared} {t : Tid} {p : Thread} {ch : Choice} {o : Out}
  {c : PoolState} {q : QId}

theorem Grows.aimed (h : Grows sh sh') (hp : p.aimed sh) : p.aimed sh' := by
  cases p with
  | call k x =>
    cases x with
    | createLock | createManager | managerStart | managerSet | createRegister =>
      obtain ⟨wq, hq⟩ := hp
      obtain ⟨wq', hq', _⟩ := h.queues _ wq hq
      exact ⟨wq', hq'⟩
    | _ => trivial
  | worker v x =>
    cases x with
    | scan k x =>
      cases x with
      | readSlot idx =>
        obtain ⟨q, hq⟩ := hp
        exact ⟨q, h.wqlist _ q hq⟩
      | _ => trivial
    | _ => trivial
  | _ => trivial

theorem aimed_step (hm : ∀ i, sh.wqlist i = none → sh.wqlistMask.getLsbD i = false)
    (ha : p.aimed sh) (h : Step S sh t p ch o) : o.pc.aimed o.shared := by
  cases h with
  | app h => cases h <;> trivial
  | call h =>
    cases h with
    | fault | createLock | createManager | createNoManager | managerStart | managerAgain | managerSet =>
      exact ha
    | @quiet c c' ch sh' _ _ hc => cases c' <;> trivial
    | createAlloc => exact ⟨_, List.getElem?_concat_length⟩
    | _ => trivial
  | worker h =>
    cases h with
    | fault => exact ha
    | @nothing k => cases k <;> trivial
    | @unlock k q wq r => cases k <;> cases r <;> trivial
    | clear _ hx =>
      subst hx
      split <;> trivial
    | readMask hf =>
      obtain ⟨hb, _⟩ := ffs_spec hf
      cases hs : sh.wqlist (ffs sh.wqlistMask - 1) with
      | none =>
        rw [hm _ hs] at hb
        cases hb
      | some q => exact ⟨q, hs⟩
    | _ => trivial
  | overcommit h => cases h <;> trivial
  | manager h => cases h <;> trivial

/-- The thread's next access finds a queue. -/
theorem not_dangles (hr : Registry c) (ho : OcMasks c) (hp : c.threads[t]? = some p)
    (ha : p.aimed c.shared) : ¬ p.dangles c.shared := by
  have ok := hr.threads t p hp
  have here {q : QId} (hreg : ∃ wq, Registered c.shared q wq) : ¬ c.shared.queues[q]? = none := by
    obtain ⟨wq, hreg⟩ := hreg
    rw [hreg.here]
    exact fun h => by cases h
  have kind {q : QId} {b : Bool} (hreg : ∃ wq, Registered c.shared q wq ∧ wq.overcommit = b) :
      ¬ c.shared.queues[q]? = none := here (hreg.imp fun _ h => h.1)
  have found {q : QId} (hq : ∃ wq, c.shared.queues[q]? = some wq) : ¬ c.shared.queues[q]? = none := by
    obtain ⟨wq, hq⟩ := hq
    rw [hq]
    exact fun h => by cases h
  cases p with
  | app => exact id
  | call k x =>
    cases x with
    | check | handle | createUnlock => exact here ok
    | add | ocAdd => exact kind ok
    | createLock | createManager | managerStart | managerSet | createRegister => exact found ha
    | _ => exact id
  | worker v x =>
    cases x with
    | scan k x =>
      cases x with
      | readMask => exact id
      | readSlot idx =>
        obtain ⟨q, hq⟩ := ha
        change ¬ c.shared.wqlist (idx - 1) = none
        rw [hq]
        exact fun h => by cases h
      | lock | first | remove | clear | unlock => exact kind ok
    | _ => exact id
  | overcommit x =>
    cases x with
    | scan =>
      rintro ⟨hf, hslot⟩
      obtain ⟨hb, _⟩ := ffs_spec hf
      cases hs : c.shared.ocwq (ffs c.shared.ocwqMask - 1) with
      | none =>
        rw [ho.unregistered _ hs] at hb
        cases hb
      | some q =>
        obtain ⟨wq, hreg, _⟩ := hr.ocSlots _ q hs
        exact here ⟨wq, hreg⟩ (hslot q hs)
    | _ => exact id
  | manager v x =>
    cases x with
    | stop i m x =>
      cases x with
      | spinLock | atomicOr | insert | spinUnlock => exact kind ok
      | _ => exact id
    | _ => exact id

/-- What every process of the library keeps. -/
structure Sound (c : PoolState) : Prop where
  disciplined : Disciplined c
  registry : Registry c
  masks : Masks c
  ocMasks : OcMasks c
  aimed : ∀ (t : Tid) (p : Thread), c.threads[t]? = some p → p.aimed c.shared
  noNull : c.shared.halted ≠ some .nullQueue

theorem Sound.step (h : Sound c) {l : Tid × Choice} (mv : (program S).Moves c l o p) :
    Sound (o.apply c l.1) := by
  obtain ⟨alive, hs⟩ := program_step mv.next
  refine ⟨h.disciplined.apply mv.here hs, h.registry.step mv.here hs,
    h.masks.step h.disciplined h.registry mv.here hs,
    h.ocMasks.step h.disciplined h.registry mv.here hs, ?_, ?_⟩
  · exact Outcome.forall_apply h.aimed mv.here
      (fun ha => aimed_step h.masks.unregistered ha hs)
      (fun _ _ _ _ ha => (step_grows hs).aimed ha) (fun _ => hs.fresh trivial trivial trivial)
  · have hp := not_dangles h.registry h.ocMasks mv.here (h.aimed _ _ mv.here)
    exact NoNull.of_not_dangles alive hp o mv.next

theorem sound_initial (users managers : Nat) : Sound (initial users managers) where
  disciplined := disciplined_initial _ _
  registry := registry_initial _ _
  masks := masks_initial _ _
  ocMasks := ocMasks_initial _ _
  aimed _ _ h := by obtain rfl | rfl := initial_threads h <;> trivial
  noNull := by simp [initial, managerInit]

theorem sound {G : PoolState → Nat × Choice → Prop} {users managers : Nat} {tr : List Event}
    (h : Machine.Run (program S) G (initial users managers) tr c) : Sound c :=
  h.invariant (fun _ c => Sound c) (sound_initial _ _) fun _ _ _ _ _ _ ih _ mv => ih.step mv

end Aimed

end PthreadWorkqueue.Posix
