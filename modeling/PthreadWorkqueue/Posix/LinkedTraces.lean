import PthreadWorkqueue.Posix.LinkedRefinement

/-! Whole runs of the pool over linked lists: they have the traces of the pool over sequences, all of
them, and the links hold what the traces say. -/
namespace PthreadWorkqueue.Posix
open Concurrency Memory

variable {S : Settings} {t : Tid} {p : Thread} {x : LinkedThread} {ch : Choice} {o : Out}
  {c : LinkedState} {L : QId → List Work} {q : QId} {w : Work} {i : InMacro}
  {users managers : Nat} {tr : List Event}

/-- A thread that is ready makes the step of the pool that it sees. -/
theorem linkedProgram_ready (hf : c.shared.fault = false) (hh : c.shared.pool.halted = none)
    (hready : x.Ready c.shared)
    (hs : program S (c.shared.pool.relist (c.shared.seenBy x)) t x.point ch = some o) :
    linkedProgram S c.shared t x ch = some (c.shared.after o) := by
  have hgo : (c.shared.fault || c.shared.pool.halted.isSome) = false := by rw [hf, hh]; rfl
  unfold linkedProgram
  rw [hgo, if_neg Bool.false_ne_true]
  split
  · rename_i q w s todo hi
    cases hready.done _ hi
  · rw [hs]
    rfl
  · rename_i hi
    rw [hready.begun hi, hs]
    rfl

/-- A thread in a macro can go on until nothing of it is left. -/
theorem Represents.finish {todo : List (Statement QId Work)} (h : Represents c L)
    (hrun : Machine.Free (program S) (initial users managers) tr (c.pool L))
    (hh : c.shared.pool.halted = none) (hx : c.threads[t]? = some x)
    (hi : x.inside = some ⟨q, w, todo⟩) :
    ∃ d : LinkedState, Machine.Free (linkedProgram S) c [] d ∧ d.pool L = c.pool L ∧
      Represents d L ∧ d.shared.pool = c.shared.pool ∧
      d.threads[t]? = some ⟨x.point, some ⟨q, w, []⟩⟩ ∧ ∀ u ≠ t, d.threads[u]? = c.threads[u]? := by
  induction hn : (todo.map Statement.weight).sum using Nat.strongRecOn generalizing c x todo with
  | ind n ih =>
    cases todo with
    | nil =>
      obtain ⟨point, inside⟩ := x
      cases hi
      exact ⟨c, .start, rfl, h, rfl, hx, fun _ _ => rfl⟩
    | cons s todo =>
      obtain ⟨links, more, he, hR⟩ := h.statement hrun hx hi
      have hgo : (c.shared.fault || c.shared.pool.halted.isSome) = false := by rw [h.fault, hh]; rfl
      have mv : (linkedProgram S).Moves c (t, .go)
          ⟨{ c.shared with links }, ⟨x.point, some ⟨q, w, more ++ todo⟩⟩, [], []⟩ x := by
        refine ⟨hx, ?_⟩
        unfold linkedProgram
        dsimp only
        rw [hgo, if_neg Bool.false_ne_true, hi]
        dsimp only
        rw [if_pos rfl, he]
      have hpool := pool_apply (L := L) links (some ⟨q, w, more ++ todo⟩) hx
      have hlt : ((more ++ todo).map Statement.weight).sum < n := by
        have := exec_weight he
        rw [← hn, List.map_append, List.sum_append, List.map_cons, List.sum_cons]
        omega
      obtain ⟨d, hd, hdp, hdR, hds, hdt, hdu⟩ := ih _ hlt hR (hpool.symm ▸ hrun) hh
        (Outcome.get_self hx) rfl rfl
      refine ⟨d, (Machine.Run.move trivial mv).append hd, hdp.trans hpool, hdR, hds, hdt, fun u hu => ?_⟩
      rw [hdu u hu]
      change (c.threads.set t _ ++ [])[u]? = _
      rw [List.append_nil, List.getElem?_set_ne (Ne.symm hu)]

/-- A thread that is in no macro can go on, without a step of the pool, until it is ready for one. -/
theorem Represents.prepare (h : Represents c L)
    (hrun : Machine.Free (program S) (initial users managers) tr (c.pool L))
    (hh : c.shared.pool.halted = none) (hx : c.threads[t]? = some x) (hi : x.inside = none) :
    ∃ (d : LinkedState) (y : LinkedThread), Machine.Free (linkedProgram S) c [] d ∧
      d.pool L = c.pool L ∧ Represents d L ∧ d.shared.pool = c.shared.pool ∧
      d.threads[t]? = some y ∧ y.point = x.point ∧ y.Ready d.shared ∧
      ∀ u ≠ t, d.threads[u]? = c.threads[u]? := by
  cases hm : c.shared.macroAt x.point with
  | none =>
    have hready : x.Ready c.shared := ⟨fun i hi' => (by cases hi.symm.trans hi'), fun _ => hm⟩
    exact ⟨c, x, .start, rfl, h, rfl, hx, rfl, hready, fun _ _ => rfl⟩
  | some i =>
    have hgo : (c.shared.fault || c.shared.pool.halted.isSome) = false := by rw [h.fault, hh]; rfl
    have mv : (linkedProgram S).Moves c (t, .go) ⟨c.shared, ⟨x.point, some i⟩, [], []⟩ x := by
      refine ⟨hx, ?_⟩
      unfold linkedProgram
      dsimp only
      rw [hgo, if_neg Bool.false_ne_true, hi]
      dsimp only
      rw [hm]
      exact if_pos rfl
    have hpool := pool_apply (L := L) c.shared.links (some i) hx
    obtain ⟨d, hd, hdp, hdR, hds, hdt, hdu⟩ := (h.begin hrun hx hi hm).finish (hpool.symm ▸ hrun) hh
      (Outcome.get_self hx) rfl
    refine ⟨d, _, (Machine.Run.move trivial mv).append hd, hdp.trans hpool, hdR, hds, hdt, rfl,
      ⟨fun j hj => (by cases hj; rfl), fun hj => (by cases hj)⟩, fun u hu => ?_⟩
    rw [hdu u hu]
    change (c.threads.set t _ ++ [])[u]? = _
    rw [List.append_nil, List.getElem?_set_ne (Ne.symm hu)]

/-- The queues that the threads of a ready pool see are those of the pool over sequences. -/
theorem Represents.step_of_pool {a : Out} (h : Represents c L)
    (hrun : Machine.Free (program S) (initial users managers) tr (c.pool L))
    (hx : c.threads[t]? = some x) (hready : x.Ready c.shared)
    (hs : program S (c.pool L).shared t x.point ch = some a) :
    ∃ o, program S (c.shared.pool.relist (c.shared.seenBy x)) t x.point ch = some o := by
  obtain ⟨F, hF⟩ := program_look S c.shared.pool t x.point ch
  have hV := hF (c.shared.seenBy x) (if_neg (Nat.lt_irrefl _))
  have hL := hF L (h.beyond _ (Nat.le_refl _))
  obtain ⟨o, ho, -⟩ := Option.map_eq_some_iff.mp (hL.symm.trans hs)
  rw [h.look hrun hx hready, ho] at hV
  exact ⟨_, hV⟩

/-- What the pool over sequences does, the pool over linked lists can do. -/
theorem linked_run {a : PoolState} (links : TailMemory QId Work)
    (h : Machine.Free (program S) (initial users managers) tr a) :
    ∃ (c : LinkedState) (L : QId → List Work),
      Machine.Free (linkedProgram S) (linkedInitial links users managers) tr c ∧ c.pool L = a ∧
      Represents c L ∧ ∀ (u : Tid) (y : LinkedThread), c.threads[u]? = some y → y.inside = none := by
  refine h.invariant (fun tr a => ∃ (c : LinkedState) (L : QId → List Work),
    Machine.Free (linkedProgram S) (linkedInitial links users managers) tr c ∧ c.pool L = a ∧
    Represents c L ∧ ∀ (u : Tid) (y : LinkedThread), c.threads[u]? = some y → y.inside = none) ?_ ?_
  · refine ⟨linkedInitial links users managers, fun _ => [], .start, pool_initial links users managers,
      represents_initial links users managers, fun u y hy => ?_⟩
    obtain ⟨p, -, rfl⟩ := List.mem_map.mp (List.mem_of_getElem? hy)
    rfl
  · rintro tr a ⟨t, ch⟩ p o hrun ⟨c, L, hc, rfl, hR, hidle⟩ - mv
    obtain ⟨x, hx, rfl⟩ : ∃ x, c.threads[t]? = some x ∧ x.point = p := by
      have hp : (c.threads.map LinkedThread.point)[t]? = some p := mv.here
      rw [List.getElem?_map] at hp
      exact Option.map_eq_some_iff.mp hp
    have hh : c.shared.pool.halted = none := (program_step mv.next).1
    obtain ⟨d, y, hd, hdp, hdR, hds, hy, hpoint, hready, hothers⟩ := hR.prepare hrun hh hx (hidle t x hx)
    have hrun' : Machine.Free (program S) (initial users managers) tr (d.pool L) := hdp.symm ▸ hrun
    have hnext : program S (d.pool L).shared t y.point ch = some o := by
      rw [hdp, hpoint]
      exact mv.next
    obtain ⟨o', ho'⟩ := hdR.step_of_pool hrun' hy hready hnext
    have hstep := linkedProgram_ready hdR.fault (hds ▸ hh) hready ho'
    obtain ⟨L', o₁, mv₁, he, hpool, hR'⟩ := hdR.poolStep hrun' hy hready ho'
    obtain rfl : o₁ = o := Option.some.inj (mv₁.next.symm.trans hnext)
    refine ⟨_, L', ?_, hpool.trans (by rw [hdp]), hR', fun u z hz => ?_⟩
    · have hmoves : (linkedProgram S).Moves d (t, ch) (d.shared.after o') y := ⟨hy, hstep⟩
      rw [he]
      exact (List.append_nil tr ▸ hc.append hd).append (.move trivial hmoves)
    · obtain ⟨-, rfl⟩ | ⟨hu, hz⟩ | ⟨-, hz⟩ := Outcome.get_cases hy hz
      · rfl
      · exact hidle u z ((hothers u hu) ▸ hz)
      · obtain ⟨p, -, rfl⟩ := List.mem_map.mp hz
        rfl

/-- The traces of the pool over linked lists are those of the pool over sequences: what an observer
sees does not tell how the lists are kept. -/
theorem linked_traces (S : Settings) (links : TailMemory QId Work) (users managers : Nat)
    (tr : List Event) :
    (∃ c, Machine.Free (linkedProgram S) (linkedInitial links users managers) tr c) ↔
      ∃ a, Machine.Free (program S) (initial users managers) tr a := by
  constructor
  · rintro ⟨c, h⟩
    obtain ⟨L, hrun, -⟩ := represents_run h
    exact ⟨_, hrun⟩
  · rintro ⟨a, h⟩
    obtain ⟨c, -, hc, -⟩ := linked_run links h
    exact ⟨c, hc⟩

/-- The links of a queue that no thread is changing lead, from STAILQ_FIRST on, through the items that
were inserted into it and not yet dequeued, in the order of their insertion, to the link that
`stqh_last` points to; these items are live, and none of them comes twice. -/
theorem links_hold_waiting_items (S : Settings) (links : TailMemory QId Work) (users managers : Nat)
    (tr : List Event) (c : LinkedState) (q : QId)
    (h : Machine.Free (linkedProgram S) (linkedInitial links users managers) tr c)
    (hq : q < c.shared.pool.queues.length) (quiet : c.quiet q) :
    ∃ l, Holds c.shared.links q l ∧ insertedInto q tr = dequeuedFrom q tr ++ l ∧ l.Nodup ∧
      ∀ w ∈ l, c.shared.pool.live w = true := by
  obtain ⟨L, hrun, hR⟩ := represents_run h
  have hitems : (c.pool L).shared.items q = L q := hR.items q
  refine ⟨L q, hR.quiet q hq quiet, ?_, hitems ▸ (items_exclusive hrun).nodup (.inl q), fun w hw => ?_⟩
  · rw [inserted_eq_dequeued_append_items hrun q, hitems]
  · have hown : w ∈ (c.pool L).owned (.inl q) := by
      change w ∈ (c.pool L).shared.items q
      rwa [hitems]
    exact owned_live hrun hown

/-- Two items wait in a queue. -/
theorem links_hold_two_items : ∃ tr c l,
    Machine.Free (linkedProgram ⟨2, 2, 2, 0, false⟩) (linkedInitial ⟨fun _ => none, fun _ => .first 9⟩ 1 0) tr c ∧
      insertedInto 0 tr = [⟨0, some 7, 70, 0, 0⟩, ⟨1, some 8, 80, 0, 0⟩] ∧ dequeuedFrom 0 tr = [] ∧
      Holds c.shared.links 0 l ∧ insertedInto 0 tr = dequeuedFrom 0 tr ++ l := by
  obtain ⟨tr, c, hrun, hP⟩ := Machine.exists_run (M := linkedProgram ⟨2, 2, 2, 0, false⟩)
    (g := fun _ _ => true) (c := linkedInitial ⟨fun _ => none, fun _ => .first 9⟩ 1 0)
    (createFirst 0 3 ++ [(0, .request (.additem 0 (some 7) 70))] ++ steps 0 13 ++
      [(0, .request (.additem 0 (some 8) 80))] ++ steps 0 12)
    (fun r => decide (r.1.shared.pool.queues.length = 1 ∧ (∀ x ∈ r.1.threads, x.inside = none) ∧
      insertedInto 0 r.2 = [⟨0, some 7, 70, 0, 0⟩, ⟨1, some 8, 80, 0, 0⟩] ∧ dequeuedFrom 0 r.2 = []))
    (by decide +kernel)
  obtain ⟨hlen, hidle, hins, hdeq⟩ := of_decide_eq_true hP
  have hquiet : LinkedState.quiet c 0 := fun t x i hx hi => by
    cases (hidle x (List.mem_of_getElem? hx)).symm.trans hi
  obtain ⟨l, hl, hfifo, -⟩ := links_hold_waiting_items _ _ _ _ tr c 0 hrun.free (hlen ▸ Nat.one_pos) hquiet
  exact ⟨tr, c, l, hrun.free, hins, hdeq, hl, hfifo⟩

end PthreadWorkqueue.Posix
