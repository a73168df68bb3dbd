import PthreadWorkqueue.Posix.Transport

/-! What a step of the pool depends on in the item lists: the head of one list, and whether that list
is empty without it. A step that neither appends nor takes an item is the same whatever is in the
lists. -/
namespace PthreadWorkqueue.Posix
open Concurrency

/-- The memory with other item lists. -/
def Shared.relist (L : QId → List Work) (sh : Shared) : Shared :=
  { sh with queues := sh.queues.mapIdx fun q wq => wq.relist (L q) }

/-- The queue at which an overcommit worker looks. -/
def Shared.ocwqHead (sh : Shared) : Option QId :=
  if ffs sh.ocwqMask = 0 then none else sh.ocwq (ffs sh.ocwqMask - 1)

/-- The item that a point appends to a list. -/
def Thread.inserts : Thread → Option (QId × Work)
  | .call _ (.add q w .insert) | .call _ (.ocAdd q w .insert) | .manager _ (.stop _ _ (.insert w q)) =>
    some (q, w)
  | _ => none

/-- The queue whose head a point takes, if there is one. -/
def Thread.takes (sh : Shared) : Thread → Option QId
  | .worker _ (.scan _ (.remove q _)) => some q
  | .overcommit .scan => sh.ocwqHead
  | _ => none

/-- The queue whose head a point reads. -/
def Thread.reads (sh : Shared) : Thread → Option QId
  | .call _ (.add q _ .testEmpty) | .worker _ (.scan _ (.first q)) => some q
  | .overcommit .scan => sh.ocwqHead
  | _ => none

/-- What a step depends on in the lists: a head, and whether a list is empty without it. -/
def Thread.look (sh : Shared) (L : QId → List Work) (p : Thread) : Option Work × Bool :=
  ((p.reads sh).bind fun q => (L q).head?, (p.takes sh).all fun q => (L q).tail.isEmpty)

/-- The lists after a step. -/
def Thread.listsAfter (sh : Shared) (L : QId → List Work) (p : Thread) : QId → List Work :=
  match p.inserts with
  | some (q, w) => Function.update L q (L q ++ [w])
  | none => match p.takes sh with
    | some q => Function.update L q (L q).tail
    | none => L

def Out.relist (L : QId → List Work) (o : Out) : Out := { o with shared := o.shared.relist L }

variable {S : Settings} {sh : Shared} {t : Tid} {p : Thread} {ch : Choice} {L : QId → List Work}
  {q : QId} {wq : Workq}

theorem getElem?_relist : (sh.relist L).queues[q]? = (sh.queues[q]?).map (Workq.relist (L q)) :=
  List.getElem?_mapIdx

theorem relist_congr {L' : QId → List Work} (h : ∀ q < sh.queues.length, L' q = L q) :
    sh.relist L = sh.relist L' := by
  have hmap : sh.queues.mapIdx (fun q wq => wq.relist (L q)) =
      sh.queues.mapIdx fun q wq => wq.relist (L' q) := by
    refine List.mapIdx_eq_mapIdx_iff.mpr fun q hq => ?_
    rw [h q hq]
  unfold Shared.relist
  rw [hmap]

@[simp] theorem length_relist : (sh.relist L).queues.length = sh.queues.length :=
  List.length_mapIdx

theorem setQueue_update (wq : Workq) {l : List Work} (hq : sh.queues[q]? = some wq) :
    (sh.relist L).setQueue q (wq.relist l) = sh.relist (Function.update L q l) := by
  unfold Shared.relist Shared.setQueue
  rw [set_relist hq]

theorem witemFree_relist (w : Work) : (sh.relist L).witemFree w = (sh.witemFree w).relist L := by
  have hlive : (sh.relist L).live w = sh.live w := rfl
  unfold Shared.witemFree
  rw [hlive]
  split <;> rfl

section Naturality
variable {a b a' b' : Option Out}

private theorem relist_ite {c : Prop} [Decidable c] (ha : a' = a.map (Out.relist L))
    (hb : b' = b.map (Out.relist L)) :
    (if c then a' else b') = (if c then a else b).map (Out.relist L) := by
  split
  · exact ha
  · exact hb

private theorem withQueue_lists {L' : QId → List Work} {f f' : Workq → Option Out}
    (same : ∀ r ≠ q, L' r = L r)
    (h : ∀ wq, sh.queues[q]? = some wq → f' (wq.relist (L q)) = (f wq).map (Out.relist L')) :
    withQueue (sh.relist L) p q f' = (withQueue sh p q f).map (Out.relist L') := by
  unfold withQueue
  rw [getElem?_relist]
  cases hq : sh.queues[q]? with
  | none =>
    have hL : sh.relist L = sh.relist L' := relist_congr fun r hr => same r fun h =>
      (List.getElem?_eq_none_iff.mp hq).not_gt (h ▸ hr)
    rw [hL]
    rfl
  | some wq => exact h wq hq

private theorem withQueue_relist {f f' : Workq → Option Out}
    (h : ∀ wq, sh.queues[q]? = some wq → f' (wq.relist (L q)) = (f wq).map (Out.relist L)) :
    withQueue (sh.relist L) p q f' = (withQueue sh p q f).map (Out.relist L) :=
  withQueue_lists (fun _ _ => rfl) h

private theorem emit_free {w : Work} {e : Event} : emit ((sh.relist L).witemFree w) p e =
    (emit (sh.witemFree w) p e).map (Out.relist L) := by
  rw [witemFree_relist]
  rfl

/-- Only the lists change. -/
def relisting (L : QId → List Work) : Transport := ⟨id, fun q _ => L q, id⟩

private theorem transport_relisting (o : Out) : o.transport (relisting L) = o.relist L := by
  have hspawned : o.spawned.map (Thread.rename id) = o.spawned := by
    rw [funext Thread.rename_id, List.map_id']
  have hevents : o.events.map (Event.rename id) = o.events := by
    rw [funext Event.rename_id, List.map_id']
  change (⟨o.shared.relist L, o.pc.rename id, o.spawned.map (Thread.rename id),
    o.events.map (Event.rename id)⟩ : Out) = _
  rw [Thread.rename_id, hspawned, hevents]
  rfl

/-- The lists do not matter to the heap. -/
private theorem heap_relist (h : p.onHeap = true) :
    program S (sh.relist L) t p ch = (program S sh t p ch).map (Out.relist L) := by
  refine relist_ite ?_ rfl
  cases p with
  | app k => cases h
  | call k c =>
    cases c with
    | alloc q f a => cases ch <;> rfl
    | _ => cases h
  | worker v p =>
    cases p with
    | exitFree w | free w =>
      cases ch with
      | go => exact emit_free
      | _ => rfl
    | _ => cases h
  | overcommit p =>
    cases p with
    | free w f a =>
      cases ch with
      | go => exact emit_free
      | _ => rfl
    | _ => cases h
  | manager v p =>
    cases p with
    | stop i m p =>
      cases p with
      | alloc => cases ch <;> rfl
      | _ => cases h
    | _ => cases h

/-- A step that reads and writes no item list is the same whatever is in the lists. -/
theorem program_relist (h : p.onList = false) (hL : L sh.queues.length = []) :
    program S (sh.relist L) t p ch = (program S sh t p ch).map (Out.relist L) := by
  cases hh : p.onHeap with
  | true => exact heap_relist hh
  | false =>
    have hstep : program S (sh.transport (relisting L)) t (p.rename id) ch = _ :=
      program_transport ⟨h, hh, fun _ _ => rfl⟩ hL
    rw [p.rename_id] at hstep
    exact hstep.trans (congrArg (Option.map · _) (funext transport_relisting))

theorem listsAfter_plain (h : p.onList = false) : p.listsAfter sh L = L := by
  have hi : p.inserts = none := by
    unfold Thread.inserts
    split <;> first | cases h | rfl
  have ht : p.takes sh = none := by
    unfold Thread.takes
    split <;> first | cases h | rfl
  simp only [Thread.listsAfter, hi, ht]

private theorem emit_update (wq : Workq) {l : List Work} {e : Event} (hq : sh.queues[q]? = some wq) :
    emit ((sh.relist L).setQueue q (wq.relist l)) p e =
      (emit sh p e).map (Out.relist (Function.update L q l)) := by
  rw [setQueue_update wq hq]
  rfl

private theorem append_look {f f' : Workq → Option Out} {l : List Work}
    (h : ∀ wq, sh.queues[q]? = some wq →
      f' (wq.relist (L q)) = (f wq).map (Out.relist (Function.update L q l))) :
    withQueue (sh.relist L) p q f' = (withQueue sh p q f).map (Out.relist (Function.update L q l)) :=
  withQueue_lists (fun _ hr => Function.update_of_ne hr ..) h

/-- What a step depends on in the lists. -/
def Depends (S : Settings) (sh : Shared) (t : Tid) (ch : Choice) (p : Thread) : Prop :=
  ∃ F : Option Work × Bool → Option Out, ∀ L, L sh.queues.length = [] →
    program S (sh.relist L) t p ch = (F (p.look sh L)).map (Out.relist (p.listsAfter sh L))

private theorem Depends.running (next : (QId → List Work) → Option Out)
    (hp : ∀ L, program S (sh.relist L) t p ch =
      if (sh.relist L).halted = none then next L else none)
    (h : ∃ F : Option Work × Bool → Option Out, ∀ L,
      next L = (F (p.look sh L)).map (Out.relist (p.listsAfter sh L))) : Depends S sh t ch p := by
  obtain ⟨F, hF⟩ := h
  refine ⟨fun l => if sh.halted = none then F l else none, fun L _ => ?_⟩
  rw [hp L]
  exact relist_ite (hF L) rfl

private theorem call_depends {k : Caller} {c : Call} (h : (Thread.call k c).onList = true) :
    Depends S sh t ch (.call k c) := by
  cases c with
  | add q w p =>
    cases p with
    | testEmpty =>
      refine .running (fun L => callNext (sh.relist L) t k (.add q w .testEmpty) ch) (fun L => rfl) ?_
      cases ch with
      | go =>
        refine ⟨fun l => withQueue sh (.call k (.add q w .testEmpty)) q fun _ =>
          goTo sh (.call k (.add q w (if l.1 = none then .atomicOr else .insert))),
          fun L => withQueue_relist fun wq _ => ?_⟩
        change (if L q = [] then _ else _) = _
        simp only [Thread.look, Thread.reads, Option.bind_some, List.head?_eq_none_iff]
        split <;> rfl
      | _ => exact ⟨fun _ => withQueue sh _ q fun _ => none, fun L => withQueue_relist fun wq _ => rfl⟩
    | insert =>
      refine .running (fun L => callNext (sh.relist L) t k (.add q w .insert) ch) (fun L => rfl) ?_
      cases ch with
      | go =>
        exact ⟨fun _ => withQueue sh (.call k (.add q w .insert)) q fun _ =>
          emit sh (.call k (.add q w .spinUnlock)) (.accept t q w),
          fun L => append_look fun wq hq => emit_update wq hq⟩
      | _ => exact ⟨fun _ => withQueue sh _ q fun _ => none, fun L => append_look fun wq _ => rfl⟩
    | _ => cases h
  | ocAdd q w p =>
    cases p with
    | insert =>
      refine .running (fun L => callNext (sh.relist L) t k (.ocAdd q w .insert) ch) (fun L => rfl) ?_
      cases ch with
      | go =>
        exact ⟨fun _ => withQueue sh (.call k (.ocAdd q w .insert)) q fun _ =>
          emit sh (.call k (.ocAdd q w .spinUnlock)) (.accept t q w),
          fun L => append_look fun wq hq => emit_update wq hq⟩
      | _ => exact ⟨fun _ => withQueue sh _ q fun _ => none, fun L => append_look fun wq _ => rfl⟩
    | _ => cases h
  | _ => cases h

private theorem scan_depends {v : WorkerVars} {k : ScanKind} {p : ScanPc}
    (h : (Thread.worker v (.scan k p)).onList = true) : Depends S sh t ch (.worker v (.scan k p)) := by
  refine .running (fun L => workerNext S (sh.relist L) t v (.scan k p) ch) (fun L => rfl) ?_
  cases ch with
  | go =>
    cases p with
    | first q =>
      refine ⟨fun l => withQueue sh (.worker v (.scan k (.first q))) q fun _ =>
        l.1.elim (goTo sh (.worker v (.scan k (.unlock q none)))) fun w =>
          if k.skipThreadExitEvents then
            if sh.live w then
              goTo sh (.worker v (.scan k (if w.func = none then .unlock q none else .remove q w)))
            else goTo (sh.halt .useAfterFree) (.worker v (.scan k (.first q)))
          else goTo sh (.worker v (.scan k (.remove q w))), fun L => withQueue_relist fun wq _ => ?_⟩
      dsimp only [Workq.relist, Thread.look, Thread.reads, Option.bind_some]
      cases L q with
      | nil => rfl
      | cons w l => exact relist_ite (relist_ite rfl rfl) rfl
    | remove q w =>
      refine ⟨fun l => withQueue sh (.worker v (.scan k (.remove q w))) q fun wq =>
        emit sh (.worker { v with queuePriority := wq.queueprio }
          (.scan k (if l.2 then .clear q w else .unlock q (some w)))) (.dequeue t q w),
        fun L => append_look fun wq hq => ?_⟩
      refine Eq.trans ?_ (emit_update wq hq)
      change emit _ (.worker _ (.scan k (if (L q).tail = [] then _ else _))) _ =
        emit _ (.worker _ (.scan k (if (L q).tail.isEmpty then _ else _))) _
      simp only [List.isEmpty_iff]
      rfl
    | _ => cases h
  | _ => exact ⟨fun _ => none, fun L => rfl⟩

/-- An overcommit worker goes to sleep. -/
private def ocWait (sh : Shared) (t : Tid) : Option Out :=
  goTo { sh with
      ocwqIdleThreads := sh.ocwqIdleThreads + 1
      ocwqMtx := none
      ocwqHasWork := t :: sh.ocwqHasWork }
    (.overcommit .timedwait)

private theorem overcommit_depends : Depends S sh t ch (.overcommit .scan) := by
  refine .running (fun L => overcommitNext (sh.relist L) t .scan ch) (fun L => rfl) ?_
  cases ch with
  | go =>
    have hnone : ∀ L, sh.ocwqHead = none → (Thread.overcommit .scan).listsAfter sh L = L := fun L h => by
      simp only [Thread.listsAfter, Thread.inserts, Thread.takes, h]
    by_cases hm : ffs sh.ocwqMask = 0
    · have hh : sh.ocwqHead = none := if_pos hm
      refine ⟨fun _ => ocWait sh t, fun L => ?_⟩
      rw [hnone L hh]
      exact if_pos hm
    · have hh : sh.ocwqHead = sh.ocwq (ffs sh.ocwqMask - 1) := if_neg hm
      cases hq : sh.ocwq (ffs sh.ocwqMask - 1) with
      | none =>
        refine ⟨fun _ => goTo (sh.halt .nullQueue) (.overcommit .scan), fun L => ?_⟩
        rw [hnone L (hh.trans hq)]
        refine (if_neg hm).trans ?_
        have hnull : (sh.relist L).ocwq (ffs (sh.relist L).ocwqMask - 1) = none := hq
        rw [hnull]
        rfl
      | some q =>
        refine ⟨fun l => withQueue sh (.overcommit .scan) q fun wq => l.1.elim (ocWait sh t) fun w =>
          emit (if l.2 then { sh with ocwqMask := sh.ocwqMask &&& ~~~ indexBit wq.wqlistIndex } else sh)
            (.overcommit (.unlock w)) (.dequeue t q w), fun L => ?_⟩
        have hlook : (Thread.overcommit .scan).look sh L = ((L q).head?, (L q).tail.isEmpty) := by
          simp only [Thread.look, Thread.reads, Thread.takes, hh, hq, Option.bind_some, Option.all_some]
        have hlists : (Thread.overcommit .scan).listsAfter sh L = Function.update L q (L q).tail := by
          simp only [Thread.listsAfter, Thread.inserts, Thread.takes, hh, hq]
        rw [hlook, hlists]
        refine (if_neg hm).trans ?_
        have hhead : (sh.relist L).ocwq (ffs (sh.relist L).ocwqMask - 1) = some q := hq
        rw [hhead]
        refine append_look fun wq hwq => ?_
        dsimp only [Workq.relist]
        cases hl : L q with
        | nil =>
          have hsame : Function.update L q [] = L := by rw [← hl, Function.update_eq_self]
          rw [List.tail_nil, hsame]
          rfl
        | cons w l =>
          rw [List.head?_cons, List.tail_cons]
          cases l with
          | nil =>
            change emit { (sh.relist L).setQueue q (wq.relist []) with
              ocwqMask := sh.ocwqMask &&& ~~~ indexBit wq.wqlistIndex } _ _ = _
            rw [setQueue_update wq hwq]
            rfl
          | cons w' l => exact emit_update wq hwq
  | _ => exact ⟨fun _ => none, fun L => rfl⟩

private theorem stop_depends {v : ManagerVars} {i m : Nat} {p : StopPc}
    (h : (Thread.manager v (.stop i m p)).onList = true) :
    Depends S sh t ch (.manager v (.stop i m p)) := by
  refine .running (fun L => workerStop (sh.relist L) t v i m p ch) (fun L => rfl) ?_
  cases p with
  | insert w q =>
    cases ch with
    | go =>
      exact ⟨fun _ => withQueue sh (.manager v (.stop i m (.insert w q))) q fun _ =>
        emit sh (.manager v (.stop i m (.spinUnlock q))) (.post t q w),
        fun L => append_look fun wq hq => emit_update wq hq⟩
    | _ => exact ⟨fun _ => none, fun L => rfl⟩
  | _ => cases h

/-- Every step depends on the lists through its look only. -/
theorem program_look (S : Settings) (sh : Shared) (t : Tid) (p : Thread) (ch : Choice) :
    Depends S sh t ch p := by
  cases h : p.onList with
  | false =>
    refine ⟨fun _ => program S sh t p ch, fun L hL => ?_⟩
    rw [listsAfter_plain h]
    exact program_relist h hL
  | true =>
    cases p with
    | app k => cases h
    | call k c => exact call_depends h
    | worker v p =>
      cases p with
      | scan k p => exact scan_depends h
      | _ => cases h
    | overcommit p =>
      cases p with
      | scan => exact overcommit_depends
      | _ => cases h
    | manager v p =>
      cases p with
      | stop i m p => exact stop_depends h
      | _ => cases h

end Naturality

end PthreadWorkqueue.Posix
