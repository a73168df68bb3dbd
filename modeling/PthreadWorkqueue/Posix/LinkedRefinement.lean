import PthreadWorkqueue.Posix.LinkedPool
import PthreadWorkqueue.Posix.Ownership

/-! The pool over linked lists refines the pool over sequences of items: no macro uses the null pointer
or an item that was freed, and the links of a queue that no macro is changing lead through its items. -/
namespace PthreadWorkqueue.Posix
open Concurrency Memory

abbrev LinkedState := Config LinkedShared LinkedThread

/-- The pool that has the lists `L` in the place of the links. -/
def LinkedState.pool (c : LinkedState) (L : QId → List Work) : PoolState :=
  ⟨c.shared.pool.relist L, c.threads.map LinkedThread.point⟩

/-- A thread inside a macro is at the point of the macro. -/
def LinkedThread.at (sh : Shared) (L : QId → List Work) (x : LinkedThread) (i : InMacro) : Prop :=
  x.point.inserts = some (i.q, i.w) ∨ x.point.takes sh = some i.q ∧ (L i.q).head? = some i.w

/-- The links show the lists, as far as no macro is changing them. -/
structure Represents (c : LinkedState) (L : QId → List Work) : Prop where
  fault : c.shared.fault = false
  bare : c.shared.pool.relist (fun _ => []) = c.shared.pool
  beyond : ∀ q, c.shared.pool.queues.length ≤ q → L q = []
  quiet : ∀ q < c.shared.pool.queues.length,
    (∀ (t : Tid) (x : LinkedThread) (i : InMacro), c.threads[t]? = some x → x.inside = some i → i.q ≠ q) →
    Holds c.shared.links q (L q)
  inside : ∀ (t : Tid) (x : LinkedThread) (i : InMacro), c.threads[t]? = some x → x.inside = some i →
    x.at c.shared.pool L i ∧
      Midway c.shared.links i.q (L i.q) (x.point.listsAfter c.shared.pool L i.q) i.todo

variable {S : Settings} {sh : Shared} {t u : Tid} {p : Thread} {x y : LinkedThread} {ch : Choice} {o : Out}
  {c : LinkedState} {L : QId → List Work} {q : QId} {w : Work} {i : InMacro}

theorem inserts_touches (h : p.inserts = some (q, w)) : p.touches sh = some q ∧ p.takes sh = none := by
  unfold Thread.inserts at h
  split at h <;> cases h <;> exact ⟨rfl, rfl⟩

theorem inserts_fresh (h : p.inserts = some (q, w)) : p.fresh = some w := by
  unfold Thread.inserts at h
  split at h <;> cases h <;> rfl

theorem takes_touches (h : p.takes sh = some q) : p.touches sh = some q ∧ p.inserts = none := by
  unfold Thread.takes at h
  split at h <;> first | exact ⟨h, rfl⟩ | cases h

theorem reads_touches (h : p.reads sh = some q) : p.touches sh = some q := by
  unfold Thread.reads at h
  split at h <;> first | exact h | cases h

theorem LinkedThread.at.touches (h : x.at sh L i) : x.point.touches sh = some i.q :=
  h.elim (fun h => (inserts_touches h).1) fun h => (takes_touches h.1).1

theorem listsAfter_inserts (h : p.inserts = some (q, w)) :
    p.listsAfter sh L = Function.update L q (L q ++ [w]) := by
  simp only [Thread.listsAfter, h]

theorem listsAfter_takes (h : p.takes sh = some q) :
    p.listsAfter sh L = Function.update L q (L q).tail := by
  simp only [Thread.listsAfter, (takes_touches h).2, h]

/-- A step changes the list that its point touches, and no other. -/
theorem listsAfter_of_ne (h : p.touches sh ≠ some q) : p.listsAfter sh L q = L q := by
  cases hi : p.inserts with
  | some r =>
    obtain ⟨r, w⟩ := r
    rw [listsAfter_inserts hi]
    exact Function.update_of_ne (fun hq => h (by rw [hq]; exact (inserts_touches hi).1)) ..
  | none =>
    cases ht : p.takes sh with
    | some r =>
      rw [listsAfter_takes ht]
      exact Function.update_of_ne (fun hq => h (by rw [hq]; exact (takes_touches ht).1)) ..
    | none => simp only [Thread.listsAfter, hi, ht]

/-- The items that a macro meets belong to its queue or to its thread. -/
theorem LinkedThread.at.footprint (h : x.at sh L i) {z : Work}
    (hz : z ∈ L i.q ++ x.point.listsAfter sh L i.q) : z ∈ L i.q ∨ x.point.fresh = some z := by
  obtain hl | ha := List.mem_append.mp hz
  · exact .inl hl
  obtain hi | ⟨ht, -⟩ := h
  · rw [listsAfter_inserts hi, Function.update_self, List.mem_append, List.mem_singleton] at ha
    obtain ha | rfl := ha
    · exact .inl ha
    · exact .inr (inserts_fresh hi)
  · rw [listsAfter_takes ht, Function.update_self] at ha
    exact .inl (List.mem_of_mem_tail ha)

/-! What the pool over sequences says about the lists -/

theorem items_relist (q : QId) : (sh.relist L).items q = if q < sh.queues.length then L q else [] := by
  unfold Shared.items
  rw [getElem?_relist]
  split
  · rename_i h
    rw [List.getElem?_eq_getElem h]
    rfl
  · rename_i h
    rw [List.getElem?_eq_none (Nat.le_of_not_lt h)]
    rfl

variable {users managers : Nat} {tr : List Event}

theorem Represents.items (h : Represents c L) (q : QId) : (c.pool L).owned (.inl q) = L q := by
  refine (items_relist q).trans ?_
  split
  · rfl
  · rename_i hq
    exact (h.beyond q (Nat.le_of_not_lt hq)).symm

theorem pool_thread (hx : c.threads[t]? = some x) : (c.pool L).threads[t]? = some x.point := by
  change (c.threads.map LinkedThread.point)[t]? = some x.point
  rw [List.getElem?_map, hx]
  rfl

theorem mem_owned_fresh (hx : c.threads[t]? = some x) (hf : x.point.fresh = some w) :
    w ∈ (c.pool L).owned (.inr t) := by
  change w ∈ (((c.pool L).threads[t]?).bind Thread.fresh).toList
  rw [pool_thread hx, Option.bind_some, hf]
  exact List.mem_singleton_self w

/-- The items that a macro meets belong to its queue or to its thread. -/
theorem Represents.footprint (h : Represents c L) (hx : c.threads[t]? = some x)
    (hat : x.at c.shared.pool L i) {z : Work}
    (hz : z ∈ L i.q ++ x.point.listsAfter c.shared.pool L i.q) :
    z ∈ (c.pool L).owned (.inl i.q) ∨ z ∈ (c.pool L).owned (.inr t) := by
  exact (hat.footprint hz).imp (fun hl => (h.items i.q).symm ▸ hl) (mem_owned_fresh hx)

/-- Two threads touch different lists. -/
theorem touches_ne (hrun : Machine.Free (program S) (initial users managers) tr (c.pool L))
    (hx : c.threads[t]? = some x) (hy : c.threads[u]? = some y) (hne : u ≠ t)
    (ht : x.point.touches c.shared.pool = some q) : y.point.touches c.shared.pool ≠ some q := fun hu =>
  hne (touches_unique (disciplined hrun) (registry hrun) (pool_thread hx) (pool_thread hy) ht hu)

/-- No item is twice in a list that a macro makes. -/
theorem Represents.nodup_after (h : Represents c L)
    (hrun : Machine.Free (program S) (initial users managers) tr (c.pool L))
    (hx : c.threads[t]? = some x) (hat : x.at c.shared.pool L i) :
    (x.point.listsAfter c.shared.pool L i.q).Nodup := by
  have hex := items_exclusive hrun
  have hl : (L i.q).Nodup := h.items i.q ▸ hex.nodup (.inl i.q)
  obtain hins | ⟨ht, -⟩ := hat
  · have hnot : i.w ∉ L i.q := fun hw => by
      cases hex.owner (.inl i.q) (.inr t) i.w ((h.items i.q).symm ▸ hw)
        (mem_owned_fresh hx (inserts_fresh hins))
    rw [listsAfter_inserts hins, Function.update_self]
    rw [← List.concat_eq_append]
    exact (List.nodup_concat _ _).mpr ⟨hnot, hl⟩
  · rw [listsAfter_takes ht, Function.update_self]
    exact hl.sublist (List.tail_sublist _)

/-- A thread brings its macro on by a statement, which uses no null pointer and no item that is gone. -/
theorem Represents.statement (h : Represents c L)
    (hrun : Machine.Free (program S) (initial users managers) tr (c.pool L))
    (hx : c.threads[t]? = some x) {s : Statement QId Work} {todo : List (Statement QId Work)}
    (hi : x.inside = some ⟨q, w, s :: todo⟩) :
    ∃ links more, s.exec c.shared.pool.live c.shared.links = some (links, more) ∧
      Represents ((⟨{ c.shared with links }, ⟨x.point, some ⟨q, w, more ++ todo⟩⟩, [], []⟩ :
        Outcome LinkedShared LinkedThread Event).apply c t) L := by
  obtain ⟨hat, hmid⟩ := h.inside t x _ hx hi
  have hex := items_exclusive hrun
  have mine : ∀ z ∈ L q ++ x.point.listsAfter c.shared.pool L q,
      z ∈ (c.pool L).owned (.inl q) ∨ z ∈ (c.pool L).owned (.inr t) := fun z hz => h.footprint hx hat hz
  have alive : ∀ z ∈ L q ++ x.point.listsAfter c.shared.pool L q, c.shared.pool.live z = true :=
    fun z hz => (mine z hz).elim (owned_live hrun) (owned_live hrun)
  have hl : (L q).Nodup := h.items q ▸ hex.nodup (.inl q)
  have hk := h.nodup_after hrun hx hat
  have others : ∀ k, k ≠ .inl q → k ≠ .inr t → ∀ z ∈ (c.pool L).owned k,
      z ∉ L q ++ x.point.listsAfter c.shared.pool L q := fun k hq ht z hz hz' =>
    (mine z hz').elim (fun hm => hq (hex.owner _ _ z hz hm)) fun hm => ht (hex.owner _ _ z hz hm)
  obtain ⟨links, more, he, hm, hels⟩ := hmid.step hl hk alive
  refine ⟨links, more, he, h.fault, h.bare, h.beyond, fun r hr hquiet => ?_, fun u y j hy hj => ?_⟩
  · have hne : q ≠ r := hquiet t _ _ (Outcome.get_self hx) rfl
    have hold : Holds c.shared.links r (L r) := h.quiet r hr fun u y j hy hj => by
      by_cases hu : u = t
      · subst hu
        cases hx.symm.trans hy
        cases hi.symm.trans hj
        exact hne
      · exact hquiet u y j (Outcome.get_other hu hy) hj
    exact hold.elsewhere hels hne.symm fun z hz =>
      others (.inl r) (fun h => hne (Sum.inl.inj h).symm) (by simp) z ((h.items r).symm ▸ hz)
  · obtain ⟨rfl, rfl⟩ | ⟨hu, hy⟩ | ⟨-, hy⟩ := Outcome.get_cases hx hy
    · cases hj
      exact ⟨hat, hm⟩
    · obtain ⟨hat', hmid'⟩ := h.inside u y j hy hj
      have hne : j.q ≠ q := fun hjq => touches_ne hrun hx hy hu hat.touches (hjq ▸ hat'.touches)
      refine ⟨hat', hmid'.elsewhere hels hne fun z hz => ?_⟩
      obtain hz | hz := h.footprint hy hat' hz
      · exact others _ (fun h => hne (Sum.inl.inj h)) (by simp) z hz
      · exact others _ (by simp) (fun h => hu (Sum.inr.inj h)) z hz
    · cases hy

/-- A queue that a thread is about to read or to change, and has not begun to, shows its list. -/
theorem Represents.shows (h : Represents c L)
    (hrun : Machine.Free (program S) (initial users managers) tr (c.pool L))
    (hx : c.threads[t]? = some x) (hi : x.inside = none) (ht : x.point.touches c.shared.pool = some q) :
    Holds c.shared.links q (L q) := by
  obtain ⟨⟨wq, hq⟩, -⟩ := (registry hrun).touches (pool_thread hx) ht
  refine h.quiet q ?_ fun u y j hy hj hjq => ?_
  · have hl : (c.pool L).shared.queues.length = c.shared.pool.queues.length := length_relist
    exact hl ▸ (List.getElem?_eq_some_iff.mp hq).1
  · by_cases hu : u = t
    · subst hu
      cases hx.symm.trans hy
      cases hi.symm.trans hj
    · exact touches_ne hrun hx hy hu ht (hjq ▸ (h.inside u y j hy hj).1.touches)

/-- The macro that a thread begins is the one of its point. -/
theorem Represents.macroAt (h : Represents c L)
    (hrun : Machine.Free (program S) (initial users managers) tr (c.pool L))
    (hx : c.threads[t]? = some x) (hi : x.inside = none) (hm : c.shared.macroAt x.point = some i) :
    x.point.inserts = some (i.q, i.w) ∧ i.todo = stailqInsertTail i.q i.w ∨
      x.point.takes c.shared.pool = some i.q ∧ (L i.q).head? = some i.w ∧
        i.todo = stailqRemoveHead i.q := by
  unfold LinkedShared.macroAt at hm
  split at hm
  · rename_i hp
    cases hm
    exact .inl ⟨by rw [hp]; rfl, rfl⟩
  · rename_i hp
    cases hm
    exact .inl ⟨by rw [hp]; rfl, rfl⟩
  · rename_i hp
    cases hm
    exact .inl ⟨by rw [hp]; rfl, rfl⟩
  · rename_i v k r w hp
    cases hm
    refine .inr ⟨by rw [hp]; rfl, ?_, rfl⟩
    have hpt := pool_thread (L := L) hx
    rw [hp] at hpt
    obtain ⟨⟨wq, hq⟩, -⟩ := (registry hrun).touches (q := r) hpt rfl
    have place := (Registered.place hq ((registry hrun).threads t _ hpt)).1
    obtain ⟨-, hhead⟩ := (masks hrun).held _ r wq t _ place hq hpt rfl
    have hitems := h.items r
    rw [← (Shared.items_eq hq).symm.trans hitems]
    exact hhead
  · rename_i hp
    obtain ⟨q, hq, hf⟩ := Option.bind_eq_some_iff.mp hm
    obtain ⟨w, hw, rfl⟩ := Option.map_eq_some_iff.mp hf
    have ht : x.point.takes c.shared.pool = some q := by rw [hp]; exact hq
    have hshow := h.shows hrun hx hi (takes_touches ht).1
    exact .inr ⟨ht, hshow.first.symm.trans hw, rfl⟩
  · cases hm

/-- A thread begins a macro. -/
theorem Represents.begin (h : Represents c L)
    (hrun : Machine.Free (program S) (initial users managers) tr (c.pool L))
    (hx : c.threads[t]? = some x) (hi : x.inside = none) (hm : c.shared.macroAt x.point = some i) :
    Represents ((⟨c.shared, ⟨x.point, some i⟩, [], []⟩ :
      Outcome LinkedShared LinkedThread Event).apply c t) L := by
  have hmac := h.macroAt hrun hx hi hm
  have hat : (⟨x.point, some i⟩ : LinkedThread).at c.shared.pool L i :=
    hmac.imp And.left fun h => ⟨h.1, h.2.1⟩
  have hshow := h.shows hrun hx hi hat.touches
  have hmid : Midway c.shared.links i.q (L i.q) (x.point.listsAfter c.shared.pool L i.q) i.todo := by
    obtain ⟨hins, htodo⟩ | ⟨ht, hhead, htodo⟩ := hmac
    · rw [listsAfter_inserts hins, Function.update_self, htodo]
      exact hshow.insertTail i.w
    · have hcons : L i.q = i.w :: (L i.q).tail := (List.cons_head?_tail hhead).symm
      rw [listsAfter_takes ht, Function.update_self, htodo]
      rw [hcons] at hshow ⊢
      exact hshow.removeHead
  refine ⟨h.fault, h.bare, h.beyond, fun r hr hquiet => h.quiet r hr fun u y j hy hj => ?_,
    fun u y j hy hj => ?_⟩
  · by_cases hu : u = t
    · subst hu
      cases hx.symm.trans hy
      cases hi.symm.trans hj
    · exact hquiet u y j (Outcome.get_other hu hy) hj
  · obtain ⟨rfl, rfl⟩ | ⟨hu, hy⟩ | ⟨-, hy⟩ := Outcome.get_cases hx hy
    · cases hj
      exact ⟨hat, hmid⟩
    · exact h.inside u y j hy hj
    · cases hy

/-! A step of the pool -/

theorem look_congr {V : QId → List Work}
    (hr : ∀ q, p.reads sh = some q → (V q).head? = (L q).head?)
    (ht : ∀ q, p.takes sh = some q → (V q).tail.isEmpty = (L q).tail.isEmpty) :
    p.look sh V = p.look sh L := by
  have hfst : ((p.reads sh).bind fun q => (V q).head?) = (p.reads sh).bind fun q => (L q).head? := by
    cases h : p.reads sh with
    | none => rfl
    | some q => exact hr q h
  have hsnd : ((p.takes sh).all fun q => (V q).tail.isEmpty) =
      (p.takes sh).all fun q => (L q).tail.isEmpty := by
    cases h : p.takes sh with
    | none => rfl
    | some q => exact ht q h
  exact Prod.ext hfst hsnd

theorem reads_of_takes {r : QId} (h : p.takes sh = some q) (hr : p.reads sh = some r) : r = q := by
  have h₁ := (takes_touches h).1
  rw [reads_touches hr] at h₁
  exact Option.some.inj h₁

theorem reads_of_inserts (h : p.inserts = some (q, w)) : p.reads sh = none := by
  unfold Thread.inserts at h
  split at h <;> cases h <;> rfl

/-- A thread that makes a step of the pool has nothing left to do for a macro. -/
structure LinkedThread.Ready (sh : LinkedShared) (x : LinkedThread) : Prop where
  done : ∀ i, x.inside = some i → i.todo = []
  begun : x.inside = none → sh.macroAt x.point = none

theorem seenBy_eq (hq : q < c.shared.pool.queues.length) :
    c.shared.seenBy x q = x.known q ++ (stailqFirst c.shared.links q).toList := if_pos hq

theorem touched_lt
    (hrun : Machine.Free (program S) (initial users managers) tr (c.pool L))
    (hx : c.threads[t]? = some x) (ht : x.point.touches c.shared.pool = some q) :
    q < c.shared.pool.queues.length := by
  obtain ⟨⟨wq, hq⟩, -⟩ := (registry hrun).touches (pool_thread hx) ht
  have hl : (c.pool L).shared.queues.length = c.shared.pool.queues.length := length_relist
  exact hl ▸ (List.getElem?_eq_some_iff.mp hq).1

/-- A thread that takes the head of a list and is in no macro has found the list empty. -/
theorem Represents.empty (h : Represents c L)
    (hrun : Machine.Free (program S) (initial users managers) tr (c.pool L))
    (hx : c.threads[t]? = some x) (hi : x.inside = none) (hm : c.shared.macroAt x.point = none)
    (ht : x.point.takes c.shared.pool = some q) : stailqFirst c.shared.links q = none ∧ L q = [] := by
  have hshow := h.shows hrun hx hi (takes_touches ht).1
  have hfirst : stailqFirst c.shared.links q = none := by
    unfold Thread.takes at ht
    split at ht
    · rename_i hp
      rw [hp] at hm
      cases hm
    · rename_i hp
      rw [hp] at hm
      have hbind : (c.shared.pool.ocwqHead.bind fun q => (stailqFirst c.shared.links q).map fun w =>
        InMacro.mk q w (stailqRemoveHead q)) = none := hm
      rw [ht, Option.bind_some] at hbind
      exact Option.map_eq_none_iff.mp hbind
    · cases ht
  exact ⟨hfirst, List.head?_eq_none_iff.mp (hshow.first.symm.trans hfirst)⟩

/-- What a thread reads from the links is what it would read from the lists. -/
theorem Represents.look (h : Represents c L)
    (hrun : Machine.Free (program S) (initial users managers) tr (c.pool L))
    (hx : c.threads[t]? = some x) (hready : x.Ready c.shared) :
    x.point.look c.shared.pool (c.shared.seenBy x) = x.point.look c.shared.pool L := by
  cases hi : x.inside with
  | some i =>
    obtain ⟨hat, hmid⟩ := h.inside t x i hx hi
    rw [hready.done i hi] at hmid
    have hq := seenBy_eq (x := x) (touched_lt hrun hx hat.touches)
    have hknown : x.known i.q = [i.w] := by simp only [LinkedThread.known, hi, if_true]
    obtain hins | ⟨ht, hhead⟩ := hat
    · exact look_congr (fun q hr => by rw [reads_of_inserts hins] at hr; cases hr)
        fun q ht => by rw [(inserts_touches hins).2] at ht; cases ht
    · have hfirst : stailqFirst c.shared.links i.q = (L i.q).tail.head? := by
        have := hmid.finish.first
        rwa [listsAfter_takes ht, Function.update_self] at this
      rw [hknown, hfirst] at hq
      refine look_congr (fun q hr => ?_) fun q hq' => ?_
      · rw [reads_of_takes ht hr, hq, hhead]
        rfl
      · rw [Option.some.inj (hq'.symm.trans ht), hq]
        cases (L i.q).tail <;> rfl
  | none =>
    have hknown : ∀ q, x.known q = [] := fun q => by simp only [LinkedThread.known, hi]
    refine look_congr (fun q hr => ?_) fun q ht => ?_
    · have ht := reads_touches hr
      have hshow := h.shows hrun hx hi ht
      rw [seenBy_eq (touched_lt hrun hx ht), hknown, stailqFirst, hshow.first]
      cases L q <;> rfl
    · obtain ⟨hfirst, hl⟩ := h.empty hrun hx hi (hready.begun hi) ht
      rw [seenBy_eq (touched_lt hrun hx (takes_touches ht).1), hknown, hfirst, hl]
      rfl

/-- At most one queue is allocated in a step. -/
theorem length_step (h : Step S sh t p ch o) :
    o.shared.queues.length = sh.queues.length ∨ o.shared.queues.length = sh.queues.length + 1 := by
  cases h with
  | app h => cases h <;> exact .inl rfl
  | call h =>
    cases h with
    | quiet hq | quietReturn hq => obtain ⟨_, _, _, _, rfl⟩ := hq; exact .inl rfl
    | createAlloc => exact .inr List.length_append
    | _ => first | exact .inl rfl | exact .inl List.length_set
  | worker h =>
    cases h with
    | exitFree | free => exact .inl (by simp)
    | _ => first | exact .inl rfl | exact .inl List.length_set
  | overcommit h =>
    cases h with
    | free => exact .inl (by simp)
    | _ => first | exact .inl rfl | exact .inl List.length_set
  | manager h =>
    cases h with
    | plain hq => obtain ⟨_, _, _, _, rfl⟩ := hq; exact .inl rfl
    | _ => first | exact .inl rfl | exact .inl List.length_set

theorem relist_relist {L' : QId → List Work} : (sh.relist L).relist L' = sh.relist L' := by
  have hmap : (sh.queues.mapIdx fun q wq => wq.relist (L q)).mapIdx (fun q wq => wq.relist (L' q)) =
      sh.queues.mapIdx fun q wq => wq.relist (L' q) := List.mapIdx_mapIdx
  unfold Shared.relist
  rw [hmap]

/-- A step that is not in a macro, and does not come from one, leaves the lists alone. -/
theorem Represents.unchanged (h : Represents c L)
    (hrun : Machine.Free (program S) (initial users managers) tr (c.pool L))
    (hx : c.threads[t]? = some x) (hready : x.Ready c.shared)
    (hq : ∀ i, x.inside = some i → i.q ≠ q) : x.point.listsAfter c.shared.pool L q = L q := by
  cases hi : x.inside with
  | some i =>
    have ht := (h.inside t x i hx hi).1.touches
    exact listsAfter_of_ne fun hq' => hq i hi (Option.some.inj (ht.symm.trans hq'))
  | none =>
    have hm := hready.begun hi
    cases hins : x.point.inserts with
    | some r =>
      unfold Thread.inserts at hins
      split at hins
      all_goals first | (rename_i hp; rw [hp] at hm; cases hm) | cases hins
    | none =>
      cases ht : x.point.takes c.shared.pool with
      | some r =>
        have hl := (h.empty hrun hx hi hm ht).2
        rw [listsAfter_takes ht, hl, List.tail_nil, ← hl, Function.update_eq_self]
      | none => simp only [Thread.listsAfter, hins, ht]

/-- The pool of a step over linked lists is the pool of the step over sequences. -/
theorem pool_after {L' : QId → List Work} {V : QId → List Work} :
    LinkedState.pool ((c.shared.after (o.relist V)).apply c t) L' = (o.relist L').apply (c.pool L) t := by
  have hshared : (((o.shared.relist V).relist fun _ => []).relist L') = o.shared.relist L' := by
    rw [relist_relist, relist_relist]
  have hthreads : List.map LinkedThread.point
      (c.threads.set t ⟨o.pc, none⟩ ++ o.spawned.map fun p => ⟨p, none⟩) = (c.threads.map LinkedThread.point).set t o.pc ++ o.spawned := by
    rw [List.map_append, List.map_set, List.map_map]
    exact congrArg _ (List.map_id _)
  exact (Config.mk.injEq ..).mpr ⟨hshared, hthreads⟩

/-- The queue whose head another thread takes stays the same. -/
theorem takes_step {o₀ : Out} {L' : QId → List Work}
    (hrun : Machine.Free (program S) (initial users managers) tr (c.pool L))
    (hx : c.threads[t]? = some x) (hs : Step S (c.pool L).shared t x.point ch (o₀.relist L'))
    (hy : c.threads[u]? = some y) (hu : u ≠ t) (ht : y.point.takes c.shared.pool = some q) :
    y.point.takes o₀.shared = some q := by
  have hpt := pool_thread (L := L) hy
  cases hp : y.point with
  | worker v z =>
    rw [hp] at ht
    cases z with
    | scan k z =>
      cases z with
      | remove r w => exact ht
      | _ => cases ht
    | _ => cases ht
  | overcommit z =>
    rw [hp] at ht hpt
    cases z with
    | scan =>
      have hm : x.point.holdsOcMtx = false := Bool.eq_false_iff.mpr fun hm =>
        hu ((disciplined hrun).ocUnique (pool_thread hx) hm hpt rfl)
      have hhead : (c.pool L).shared.ocwqHead = some q := ht
      have hnew := ocwqHead_step hs hm hhead
      exact hnew
    | _ => cases ht
  | _ => rw [hp] at ht; cases ht

/-- Another thread that is in a macro stays at the point of its macro, and has the same left to do. -/
theorem LinkedThread.at.other {o₀ : Out} {L' : QId → List Work}
    (hrun : Machine.Free (program S) (initial users managers) tr (c.pool L))
    (hx : c.threads[t]? = some x) (hs : Step S (c.pool L).shared t x.point ch (o₀.relist L'))
    (hy : c.threads[u]? = some y) (hu : u ≠ t) (hat : y.at c.shared.pool L i) (hl : L' i.q = L i.q) :
    y.at o₀.shared L' i ∧
      y.point.listsAfter o₀.shared L' i.q = y.point.listsAfter c.shared.pool L i.q := by
  obtain hins | ⟨ht, hhead⟩ := hat
  · refine ⟨.inl hins, ?_⟩
    rw [listsAfter_inserts hins, listsAfter_inserts hins, Function.update_self, Function.update_self, hl]
  · have ht' := takes_step hrun hx hs hy hu ht
    refine ⟨.inr ⟨ht', hl ▸ hhead⟩, ?_⟩
    rw [listsAfter_takes ht, listsAfter_takes ht', Function.update_self, Function.update_self, hl]

/-- A step of the pool leaves the links of the queues that are there as they are. -/
theorem after_links : Elsewhere c.shared.pool.queues.length [] c.shared.links
    (c.shared.after o).shared.links := by
  change Elsewhere _ _ _ (if _ then _ else _)
  split
  · exact elsewhere_init _ _
  · exact ⟨fun _ _ => rfl, fun _ _ => rfl, fun _ _ => rfl⟩

theorem after_links_new (h : c.shared.pool.queues.length < o.shared.queues.length) :
    (c.shared.after o).shared.links = stailqInit c.shared.links c.shared.pool.queues.length :=
  if_pos h

/-- A step of the pool over linked lists is a step of the pool over sequences. -/
theorem Represents.poolStep (h : Represents c L)
    (hrun : Machine.Free (program S) (initial users managers) tr (c.pool L))
    (hx : c.threads[t]? = some x) (hready : x.Ready c.shared)
    (hs : program S (c.shared.pool.relist (c.shared.seenBy x)) t x.point ch = some o) :
    ∃ L' o', (program S).Moves (c.pool L) (t, ch) o' x.point ∧ o'.events = o.events ∧
      LinkedState.pool ((c.shared.after o).apply c t) L' = o'.apply (c.pool L) t ∧
      Represents ((c.shared.after o).apply c t) L' := by
  obtain ⟨F, hF⟩ := program_look S c.shared.pool t x.point ch
  have hV := hF (c.shared.seenBy x) (if_neg (Nat.lt_irrefl _))
  have hL := hF L (h.beyond _ (Nat.le_refl _))
  rw [hs, h.look hrun hx hready] at hV
  obtain ⟨o₀, hF, rfl⟩ := Option.map_eq_some_iff.mp hV.symm
  rw [hF] at hL
  let L' := x.point.listsAfter c.shared.pool L
  have mv : (program S).Moves (c.pool L) (t, ch) (o₀.relist L') x.point := ⟨pool_thread hx, hL⟩
  have hstep := (program_step mv.next).2
  have hlen : o₀.shared.queues.length = c.shared.pool.queues.length ∨
      o₀.shared.queues.length = c.shared.pool.queues.length + 1 := by
    have := length_step hstep
    simpa [Out.relist, LinkedState.pool] using this
  let V := x.point.listsAfter c.shared.pool (c.shared.seenBy x)
  have hrel : (o₀.relist V).shared.queues.length = o₀.shared.queues.length := length_relist
  have hnew : ((c.shared.after (o₀.relist V)).apply c t).shared.pool.queues.length =
      (o₀.relist V).shared.queues.length := length_relist
  have hbeyond : ∀ q, c.shared.pool.queues.length ≤ q → L' q = [] := fun q hq =>
    (listsAfter_of_ne fun ht => Nat.not_lt_of_ge hq (touched_lt hrun hx ht)).trans (h.beyond q hq)
  refine ⟨L', o₀.relist L', mv, rfl, pool_after, rfl, relist_relist,
    fun q hq => hbeyond q (by rw [hnew, hrel] at hq; omega),
    fun q hq hquiet => ?_, fun u y j hy hj => ?_⟩
  · obtain rfl | hne := eq_or_ne q c.shared.pool.queues.length
    · rw [hbeyond _ (Nat.le_refl _)]
      rw [hnew] at hq
      have hinit := after_links_new (o := o₀.relist V) hq
      exact hinit ▸ holds_init _ _
    · have hlt : q < c.shared.pool.queues.length := by
        rw [hnew, hrel] at hq
        omega
      have hold : Holds c.shared.links q (L' q) := by
        by_cases hi : ∃ i, x.inside = some i ∧ i.q = q
        · obtain ⟨i, hi, rfl⟩ := hi
          have hmid := (h.inside t x i hx hi).2
          rw [hready.done i hi] at hmid
          exact hmid.finish
        · have hi : ∀ i, x.inside = some i → i.q ≠ q := fun i h hq => hi ⟨i, h, hq⟩
          have hsame : L' q = L q := h.unchanged hrun hx hready hi
          rw [hsame]
          refine h.quiet q hlt fun u y j hy hj => ?_
          by_cases hu : u = t
          · subst hu
            cases hx.symm.trans hy
            exact hi j hj
          · exact hquiet u y j (Outcome.get_other hu hy) hj
      exact hold.elsewhere after_links hne fun z _ => List.not_mem_nil
  · obtain ⟨rfl, rfl⟩ | ⟨hu, hy⟩ | ⟨-, hy⟩ := Outcome.get_cases hx hy
    · cases hj
    · obtain ⟨hat, hmid⟩ := h.inside u y j hy hj
      have hl : L' j.q = L j.q :=
        listsAfter_of_ne fun ht => touches_ne hrun hx hy hu ht hat.touches
      obtain ⟨hat', hafter⟩ := hat.other hrun hx hstep hy hu hl
      have hne : j.q ≠ c.shared.pool.queues.length := Nat.ne_of_lt (touched_lt hrun hy hat.touches)
      refine ⟨hat', ?_⟩
      have hmid' := hmid.elsewhere (after_links (o := o₀.relist V)) hne fun z _ => List.not_mem_nil
      rw [← hafter, ← hl] at hmid'
      exact hmid'
    · obtain ⟨p, -, rfl⟩ := List.mem_map.mp hy
      cases hj

/-! Runs -/

theorem represents_initial (links : TailMemory QId Work) (users managers : Nat) :
    Represents (linkedInitial links users managers) fun _ => [] where
  fault := rfl
  bare := rfl
  beyond _ _ := rfl
  quiet q hq := by cases hq
  inside t x i hx hi := by
    have hx' : ((initial users managers).threads.map fun p => (⟨p, none⟩ : LinkedThread))[t]? = some x := hx
    rw [List.getElem?_map] at hx'
    obtain ⟨p, -, rfl⟩ := Option.map_eq_some_iff.mp hx'
    cases hi

theorem pool_initial (links : TailMemory QId Work) (users managers : Nat) :
    LinkedState.pool (linkedInitial links users managers) (fun _ => []) = initial users managers := by
  refine (Config.mk.injEq ..).mpr ⟨rfl, ?_⟩
  change List.map LinkedThread.point (List.map _ _) = _
  rw [List.map_map]
  exact List.map_id _

/-- A thread that does not move for the pool leaves it as it is. -/
theorem pool_apply (links : TailMemory QId Work) (inside : Option InMacro) (hx : c.threads[t]? = some x) :
    LinkedState.pool ((⟨{ c.shared with links }, ⟨x.point, inside⟩, [], []⟩ :
      Outcome LinkedShared LinkedThread Event).apply c t) L = c.pool L := by
  have hthreads : List.map LinkedThread.point (c.threads.set t ⟨x.point, inside⟩ ++ []) =
      c.threads.map LinkedThread.point := by
    obtain ⟨hl, rfl⟩ := List.getElem?_eq_some_iff.mp hx
    have hl' : t < (c.threads.map LinkedThread.point).length := by simpa using hl
    rw [List.append_nil, List.map_set]
    dsimp only
    rw [← List.getElem_map LinkedThread.point (h := hl'), List.set_getElem_self]
  exact (Config.mk.injEq ..).mpr ⟨rfl, hthreads⟩

theorem free_after (hrun : Machine.Free (program S) (initial users managers) tr (c.pool L))
    {L' : QId → List Work} {o' : Out} {d : LinkedState}
    (mv : (program S).Moves (c.pool L) (t, ch) o' x.point) (he : o'.events = o.events)
    (hd : d.pool L' = o'.apply (c.pool L) t) :
    Machine.Free (program S) (initial users managers) (tr ++ o.events) (d.pool L') := by
  rw [hd, ← he]
  exact hrun.append (.move trivial mv)

/-- The run lemma: what the pool over linked lists does, the pool over sequences does, and the links
represent its lists. -/
theorem represents_run {links : TailMemory QId Work}
    (h : Machine.Free (linkedProgram S) (linkedInitial links users managers) tr c) :
    ∃ L, Machine.Free (program S) (initial users managers) tr (c.pool L) ∧ Represents c L := by
  refine h.invariant (fun tr c => ∃ L, Machine.Free (program S) (initial users managers) tr
    (LinkedState.pool c L) ∧ Represents c L) ⟨fun _ => [], ?_, represents_initial links users managers⟩ ?_
  · rw [pool_initial]
    exact .start
  · rintro tr c ⟨t, ch⟩ x o - ⟨L, hrun, hR⟩ - ⟨hx, hs⟩
    dsimp only at hx hs ⊢
    unfold linkedProgram at hs
    split at hs
    · cases hs
    split at hs
    · rename_i q w s todo hi
      split at hs
      · obtain ⟨links, more, he, hR'⟩ := hR.statement hrun hx hi
        rw [he] at hs
        cases hs
        refine ⟨L, ?_, hR'⟩
        rw [List.append_nil, pool_apply _ _ hx]
        exact hrun
      · cases hs
    · rename_i q w hi
      obtain ⟨o', ho', rfl⟩ := Option.map_eq_some_iff.mp hs
      have hready : x.Ready c.shared := ⟨fun i hi' => (by cases hi.symm.trans hi'; rfl),
        fun hi' => (by cases hi.symm.trans hi')⟩
      obtain ⟨L', o₁, mv, he, hpool, hR'⟩ := hR.poolStep hrun hx hready ho'
      exact ⟨L', free_after hrun mv he hpool, hR'⟩
    · rename_i hi
      split at hs
      · rename_i i hm
        split at hs
        · cases hs
          refine ⟨L, ?_, hR.begin hrun hx hi hm⟩
          rw [List.append_nil]
          exact (pool_apply c.shared.links _ hx).symm ▸ hrun
        · cases hs
      · rename_i hm
        obtain ⟨o', ho', rfl⟩ := Option.map_eq_some_iff.mp hs
        have hready : x.Ready c.shared := ⟨fun i hi' => (by cases hi.symm.trans hi'), fun _ => hm⟩
        obtain ⟨L', o₁, mv, he, hpool, hR'⟩ := hR.poolStep hrun hx hready ho'
        exact ⟨L', free_after hrun mv he hpool, hR'⟩

/-- No thread is inside a macro on the queue. -/
def LinkedState.quiet (c : LinkedState) (q : QId) : Prop :=
  ∀ (t : Tid) (x : LinkedThread) (i : InMacro), c.threads[t]? = some x → x.inside = some i → i.q ≠ q

/-- Whatever the order of the steps and of the statements of the macros, the pool over linked lists
never uses the null pointer or an item that was freed in a macro, and shows the events of the pool over
sequences, with the same threads and the same memory; and a queue that no thread is changing holds the
sequence of its items. -/
theorem linked_pool_refines (S : Settings) (links : TailMemory QId Work) (users managers : Nat)
    (tr : List Event) (c : LinkedState)
    (h : Machine.Free (linkedProgram S) (linkedInitial links users managers) tr c) :
    c.shared.fault = false ∧ ∃ a, Machine.Free (program S) (initial users managers) tr a ∧
      a.threads = c.threads.map LinkedThread.point ∧
      a.shared.relist (fun _ => []) = c.shared.pool ∧
      ∀ q < c.shared.pool.queues.length, c.quiet q → Holds c.shared.links q (a.shared.items q) := by
  obtain ⟨L, hrun, hR⟩ := represents_run h
  refine ⟨hR.fault, _, hrun, rfl, relist_relist.trans hR.bare, fun q hq hquiet => ?_⟩
  have hitems : (c.pool L).shared.items q = L q := hR.items q
  rw [hitems]
  exact hR.quiet q hq hquiet

/-- An item goes through the lists. -/
theorem linked_pool_refines_of_item : ∃ tr c a,
    Machine.Free (linkedProgram ⟨2, 2, 2, 0, false⟩) (linkedInitial ⟨fun _ => none, fun _ => .first 9⟩ 1 0) tr c ∧
      Event.invoke 2 ⟨0, some 7, 70, 0, 0⟩ 7 70 ∈ tr ∧
      Machine.Free (program ⟨2, 2, 2, 0, false⟩) (initial 1 0) tr a := by
  obtain ⟨tr, c, hrun, hP⟩ := Machine.exists_run (M := linkedProgram ⟨2, 2, 2, 0, false⟩)
    (g := fun _ _ => true) (c := linkedInitial ⟨fun _ => none, fun _ => .first 9⟩ 1 0)
    (createFirst 0 3 ++ [(1, .value 100), (1, .value 0)] ++ startWorker 1 ++
      [(0, .request (.additem 0 (some 7) 70))] ++ steps 0 12 ++ steps 2 13)
    (fun r => decide (Event.invoke 2 ⟨0, some 7, 70, 0, 0⟩ 7 70 ∈ r.2)) (by decide +kernel)
  obtain ⟨-, a, ha, -⟩ := linked_pool_refines _ _ _ _ tr c hrun.free
  exact ⟨tr, c, a, hrun.free, of_decide_eq_true hP, ha⟩

end PthreadWorkqueue.Posix
