import PthreadWorkqueue.Cache.Calls
import PthreadWorkqueue.Concurrency.Simulation

/-! The allocator of type 3 does nothing that the one of type 1 could not do. To the program, an item
goes back to the heap when `witem_free` is called, and comes from `malloc` when it leaves a list. -/
namespace PthreadWorkqueue.Cache
open Concurrency Memory
open Posix (Tid)

def ItemStore.work? : ItemStore → Option Store
  | .work s => some s
  | .wiNext _ => none

/-- The thread as it is with type 1. -/
def Thread.plain : Thread → PlainPc
  | ⟨_, .app⟩ | ⟨_, .cleanup _⟩ | ⟨_, .release _ _⟩ => .app
  | ⟨_, .recycle f a _⟩ | ⟨_, .malloc f a⟩ => .malloc f a
  | ⟨_, .store w ss (.alloc f a)⟩ => .store w (ss.filterMap ItemStore.work?) f a
  | ⟨_, .store w _ .free⟩ => .freed w

/-- The item that `witem_alloc` is about to return. -/
def Thread.allocating : Thread → Option Addr
  | ⟨_, .store w _ (.alloc _ _)⟩ => some w
  | _ => none

/-- The items that are allocated with type 1 as well. -/
def Held (c : Config (Shared Item) Thread) (w : Addr) : Prop :=
  w ∈ c.shared.live ∨ ∃ (t : Tid) (p : Thread), c.threads[t]? = some p ∧ p.allocating = some w

/-- The state `d` of the program over type 1 that goes with a state over type 3. -/
structure Matches (c : Config (Shared Item) Thread) (d : Config (Shared Work) PlainPc) : Prop where
  running : d.shared.halted = none
  live : d.shared.live = c.shared.live
  threads : d.threads = c.threads.map Thread.plain
  held : ∀ w, Held c w → d.shared.heap w = (c.shared.heap w).map Item.toWork
  free : ∀ w, ¬ Held c w → d.shared.heap w = none

/-- The part of the program and one thread in `Held`. -/
def Mine (sh : Shared Item) (p : Thread) (w : Addr) : Prop :=
  w ∈ sh.live ∨ p.allocating = some w

/-- The memory of type 1 follows a step of a thread. -/
structure Follows (sh : Shared Item) (p : Thread) (s : Shared Work) (o : Out) (s' : Shared Work) :
    Prop where
  running : s'.halted = none
  live : s'.live = o.shared.live
  held : ∀ w, Mine o.shared o.pc w → s'.heap w = (o.shared.heap w).map Item.toWork
  gone : ∀ w, ¬ Mine o.shared o.pc w → Mine sh p w → s'.heap w = none
  other : ∀ w, ¬ Mine o.shared o.pc w → ¬ Mine sh p w → s'.heap w = s.heap w

variable {sh : Shared Item} {s s' : Shared Work} {t : Tid} {p : Thread}
  {ch : Choice Item} {o : Out} {w : Addr} {l l' : List Addr} {c : Config (Shared Item) Thread}
  {d : Config (Shared Work) PlainPc} {own : Option Tid → List Addr} {tr : List Event} {n : Nat}

theorem Owns.allocating_mem {h : Addr → Option Item} (ho : Owns h p l)
    (hw : p.allocating = some w) : w ∈ l := by
  cases ho with
  | @store _ _ _ k =>
    cases k <;> cases hw
    exact List.mem_cons_self
  | _ => cases hw

theorem Owns.mine_mem (ho : Owns sh.heap p l) (hw : Mine sh p w) : w ∈ sh.live ++ l :=
  List.mem_append.mpr (hw.imp_right ho.allocating_mem)

/-- What another thread is about to return is neither the program's nor this thread's. -/
theorem Partition.not_mine {u : Tid} {q : Thread} (hp : Partition c own)
    (here : c.threads[t]? = some p) (hu : u ≠ t) (hq : c.threads[u]? = some q)
    (hw : q.allocating = some w) : ¬ Mine c.shared p w := fun hm =>
  hp.not_mem hu ((hp.threads u q hq).allocating_mem hw) ((hp.threads t p here).mine_mem hm)

theorem Held.other (hw : Held c w) (here : c.threads[t]? = some p) (hm : ¬ Mine c.shared p w) :
    ∃ (u : Tid) (q : Thread), u ≠ t ∧ c.threads[u]? = some q ∧ q.allocating = some w := by
  obtain ⟨u, q, hu, hq⟩ := hw.resolve_left fun hlive => hm (.inl hlive)
  refine ⟨u, q, ?_, hu, hq⟩
  rintro rfl
  cases here.symm.trans hu
  exact hm (.inr hq)

/-- The framing rule of the simulation. -/
theorem Matches.apply (hm : Matches c d) (hp : Partition c own) (here : c.threads[t]? = some p)
    (k : Kept c.shared p (own (some t)) o l') (hf : Follows c.shared p d.shared o s') :
    Matches (o.apply c t) ⟨s', d.threads.set t o.pc.plain ++ o.spawned.map Thread.plain⟩ := by
  refine ⟨hf.running, hf.live, ?_, ?_, ?_⟩
  · simp only [Outcome.apply, List.map_append, List.map_set, hm.threads]
  · intro w hw
    by_cases hmine : Mine o.shared o.pc w
    · exact hf.held w hmine
    · obtain ⟨u, q, hu, hq⟩ := hw.resolve_left fun hlive => hmine (.inl hlive)
      obtain ⟨rfl, rfl⟩ | ⟨hne, hu⟩ | ⟨_, hfresh⟩ := Outcome.get_cases here hu
      · exact absurd (.inr hq) hmine
      · have hmem := (hp.threads u q hu).allocating_mem hq
        rw [hf.other w hmine (hp.not_mine here hne hu hq), hm.held w (.inr ⟨u, q, hu, hq⟩)]
        exact congrArg _ (k.frame w (hp.not_mem hne hmem) (hp.allocated _ w hmem)).symm
      · rw [k.fresh q hfresh] at hq
        cases hq
  · intro w hw
    have hmine : ¬ Mine o.shared o.pc w := fun hmine =>
      hw (hmine.imp_right fun hq => ⟨t, o.pc, Outcome.get_self here, hq⟩)
    by_cases hbefore : Mine c.shared p w
    · exact hf.gone w hmine hbefore
    · rw [hf.other w hmine hbefore]
      refine hm.free w fun hheld => ?_
      obtain ⟨u, q, hne, hu, hq⟩ := hheld.other here hbefore
      exact hw (.inr ⟨u, q, Outcome.get_other hne hu, hq⟩)

/-- Before a step of a thread: the memories agree on what the program and the thread have, and what
is only on the thread's list is free with type 1. -/
structure Agrees (sh : Shared Item) (p : Thread) (l : List Addr) (s : Shared Work) : Prop where
  running : s.halted = none
  live : s.live = sh.live
  held : ∀ w, Mine sh p w → s.heap w = (sh.heap w).map Item.toWork
  list : ∀ w ∈ l, ¬ Mine sh p w → s.heap w = none
  unallocated : ∀ w, sh.heap w = none → s.heap w = none

theorem Matches.agrees (hm : Matches c d) (hp : Partition c own) (here : c.threads[t]? = some p) :
    Agrees c.shared p (own (some t)) d.shared where
  running := hm.running
  live := hm.live
  held w hw := hm.held w (hw.imp_right fun hq => ⟨t, p, here, hq⟩)
  list w hw hmine := hm.free w fun hheld => by
    obtain ⟨u, q, hne, hu, hq⟩ := hheld.other here hmine
    exact hp.not_mem hne ((hp.threads u q hu).allocating_mem hq) (List.mem_append_right _ hw)
  unallocated w hw := by
    by_cases hheld : Held c w
    · rw [hm.held w hheld, hw]
      rfl
    · exact hm.free w hheld

/-- An item of the program or the thread has the same contents with type 1. -/
theorem Agrees.contents {x : Item} (hag : Agrees sh p l s) (hm : Mine sh p w)
    (hx : sh.heap w = some x) : s.heap w = some x.toWork := by
  rw [hag.held w hm, hx]
  rfl

/-- A step after which the program and the thread have what they had. -/
theorem Follows.same (hag : Agrees sh p l s) (hrun : s'.halted = none)
    (hlive : s'.live = o.shared.live) (hheap : s'.heap = s.heap)
    (mine : ∀ w, Mine o.shared o.pc w ↔ Mine sh p w)
    (keep : ∀ w, Mine sh p w →
      (o.shared.heap w).map Item.toWork = (sh.heap w).map Item.toWork) : Follows sh p s o s' where
  running := hrun
  live := hlive
  held w hw := by
    have hw' := (mine w).mp hw
    rw [hheap, hag.held w hw', keep w hw']
  gone w hw hw' := absurd ((mine w).mpr hw') hw
  other w _ _ := congrFun hheap w

/-- A step that leaves the memory alone. -/
theorem Follows.quiet {q : Thread} {sp : List Thread} {es : List Event} (hag : Agrees sh p l s)
    (hq : q.allocating = p.allocating) : Follows sh p s ⟨sh, q, sp, es⟩ s :=
  .same hag hag.running hag.live rfl (fun w => by rw [Mine, Mine, hq]) fun _ _ => rfl

/-- A step that writes to an item, which the thread has afterwards. -/
theorem Follows.put {y : Work} (hag : Agrees sh p l s) (hlive : o.shared.live = sh.live)
    (mine : ∀ u, Mine o.shared o.pc u ↔ Mine sh p u ∨ u = w)
    (hw : (o.shared.heap w).map Item.toWork = some y)
    (keep : ∀ u, u ≠ w → o.shared.heap u = sh.heap u) : Follows sh p s o (s.put w y) where
  running := hag.running
  live := hag.live.trans hlive.symm
  held u hu := by
    by_cases huw : u = w
    · rw [huw, hw]
      exact Function.update_self ..
    · rw [keep u huw, ← hag.held u (((mine u).mp hu).resolve_right huw)]
      exact Function.update_of_ne huw ..
  gone u hu hu' := absurd ((mine u).mpr (.inl hu')) hu
  other u hu _ := Function.update_of_ne (fun huw => hu ((mine u).mpr (.inr huw))) ..

theorem plain_alloc {f a : Option Nat} (hrun : s.halted = none) :
    plain s t .app (.alloc f a) = some ⟨s, .malloc f a, [], [.called t f a]⟩ := by
  simp [plain, plainNext, hrun]

theorem plain_freed (hrun : s.halted = none) :
    plain s t (.freed w) .go = some ⟨s, .app, [], [.freed t w]⟩ := by
  simp [plain, plainNext, hrun]

/-- `malloc` may return any block that is not allocated. -/
theorem plain_malloc {f a : Option Nat} {y : Work} (hrun : s.halted = none)
    (hw : s.heap w = none) : plain s t (.malloc f a) (.block (some (w, y))) =
      some ⟨s.put w y, .store w (initStores ++ callStores f a) f a, [], []⟩ := by
  simp [plain, plainNext, hrun, hw]

theorem plain_store {st : Store} {ss : List Store} {f a : Option Nat} {y : Work}
    (hrun : s.halted = none) (hy : s.heap w = some y) :
    plain s t (.store w (st :: ss) f a) .go =
      some ⟨s.put w (st.run y), .store w ss f a, [], []⟩ := by
  simp [plain, plainNext, hrun, Shared.access_some hy]

/-- Several stores of `witem_alloc`. -/
theorem plain_stores {ts : List PlainPc} {c₀ : Config (Shared Work) PlainPc} {f a : Option Nat}
    {y : Work} {ss : List Store} (rest : List Store) (hrun : s.halted = none) (ht : t < ts.length)
    (h : Machine.Free plain c₀ tr ⟨s.put w y, ts.set t (.store w (ss ++ rest) f a)⟩) :
    Machine.Free plain c₀ tr
      ⟨s.put w (ss.foldl (fun y st => st.run y) y), ts.set t (.store w rest f a)⟩ := by
  induction ss generalizing y with
  | nil => exact h
  | cons st ss ih =>
    have next := h.go_on ht (plain_store hrun Shared.put_self)
    rw [List.append_nil, Shared.put_put] at next
    exact ih next

/-- A run of the thread over type 1 that answers a step of it over type 3 and looks the same. -/
structure Answers (t : Tid) (ts : List PlainPc) (sh : Shared Item) (p : Thread) (s : Shared Work)
    (o : Out) (s' : Shared Work) (es : List Event) : Prop where
  run : Machine.Free plain ⟨s, ts.set t p.plain⟩ es
    ⟨s', ts.set t o.pc.plain ++ o.spawned.map Thread.plain⟩
  same : es.filterMap Event.visible = o.events.filterMap Event.visible
  follows : Follows sh p s o s'

section
variable {ts : List PlainPc} {q : Thread} {es fs : List Event} {sh' : Shared Item}

theorem Answers.alone (run : Machine.Free plain ⟨s, ts.set t p.plain⟩ es ⟨s', ts.set t q.plain⟩)
    (same : es.filterMap Event.visible = fs.filterMap Event.visible)
    (follows : Follows sh p s ⟨sh', q, [], fs⟩ s') : Answers t ts sh p s ⟨sh', q, [], fs⟩ s' es where
  run := by simpa using run
  same := same
  follows := follows

/-- A step that type 1 does not make. -/
theorem Answers.stutter (hq : q.plain = p.plain) (hfs : fs.filterMap Event.visible = [])
    (follows : Follows sh p s ⟨sh', q, [], fs⟩ s) : Answers t ts sh p s ⟨sh', q, [], fs⟩ s [] := by
  refine .alone ?_ hfs.symm follows
  rw [hq]
  exact .start

/-- A step that type 1 makes too. -/
theorem Answers.step (ch : Choice Work) (ht : t < ts.length)
    (hs : plain s t p.plain ch = some ⟨s', q.plain, [], fs⟩)
    (follows : Follows sh p s ⟨sh', q, [], fs⟩ s') : Answers t ts sh p s ⟨sh', q, [], fs⟩ s' fs :=
  .alone (Machine.Run.start.go_on ht hs) rfl follows

end

section
variable {ts : List PlainPc} {key : Option Addr} {f a : Option Nat} {x : Item}

/-- `witem_free` of type 3 only starts; that of type 1 gives the block back at once. -/
theorem Agrees.callFree (hag : Agrees sh ⟨key, .app⟩ l s) (ha : Apart sh l) (hw : w ∈ sh.live)
    (hx : sh.heap w = some x) (ht : t < ts.length) :
    ∃ s' es, Answers t ts sh ⟨key, .app⟩ s
      ⟨{ sh with live := sh.live.erase w }, ⟨key, .store w (freeStores key) .free⟩, [],
        [.freeing t w]⟩ s' es := by
  have hrun := hag.running
  have hsx := hag.contents (.inl hw) hx
  let s₁ : Shared Work := { s with live := s.live.erase w }
  let s₂ : Shared Work := { s₁ with heap := Function.update s.heap w none }
  have call : plain s t .app (.free w) = some ⟨s₁, .free w, [], [.freeing t w]⟩ := by
    simp [plain, plainNext, hrun, hag.live, hw, s₁]
  have back : plain s₁ t (.free w) .go = some ⟨s₂, .freed w, [], [.released t w]⟩ := by
    simp [plain, plainNext, hrun, Shared.release, hsx, s₁, s₂]
  have herase : ∀ u, u ∈ sh.live.erase w ↔ u ≠ w ∧ u ∈ sh.live := fun u =>
    (List.nodup_append.mp ha.nodup).1.mem_erase_iff
  refine ⟨s₂, _, .alone ((Machine.Run.start.go_on ht call).go_on ht back) rfl
    ⟨hrun, congrArg (·.erase w) hag.live, ?_, ?_, ?_⟩⟩
  · intro u hu
    obtain ⟨hne, hlive⟩ := (herase u).mp (hu.resolve_right nofun)
    rw [← hag.held u (.inl hlive)]
    exact Function.update_of_ne hne ..
  · intro u hu hu'
    have hsame : u = w := by
      by_contra hne
      exact hu (.inl ((herase u).mpr ⟨hne, hu'.resolve_right nofun⟩))
    rw [hsame]
    exact Function.update_self ..
  · intro u _ hu
    have hne : u ≠ w := fun he => hu (.inl (he ▸ hw))
    exact Function.update_of_ne hne ..

/-- An item that leaves a list comes from `malloc` with type 1, with what it has in it. -/
theorem Agrees.recycle (hag : Agrees sh ⟨key, .recycle f a w⟩ l s) (ha : Apart sh l) (hw : w ∈ l)
    (hx : sh.heap w = some x) (hclean : x.Clean) (ht : t < ts.length) :
    ∃ s' es, Answers t ts sh ⟨key, .recycle f a w⟩ s
      ⟨sh, ⟨x.wiNext, .store w ((callStores f a).map .work) (.alloc f a)⟩, [], []⟩ s' es := by
  have hnone : s.heap w = none := by
    refine hag.list w hw fun hmine => ?_
    exact ha.live_ne (hmine.resolve_right nofun) hw rfl
  have malloc := plain_malloc (t := t) (y := x.toWork) (f := f) (a := a) hag.running hnone
  have run := plain_stores (callStores f a) hag.running ht (Machine.Run.start.go_on ht malloc)
  have hinit : initStores.foldl (fun y st => st.run y) x.toWork = x.toWork := by
    rw [hclean]
    rfl
  rw [hinit] at run
  have mine : ∀ u, u ∈ sh.live ∨ some w = some u ↔ (u ∈ sh.live ∨ none = some u) ∨ u = w := by
    simp [eq_comm]
  exact ⟨_, _, .alone run rfl (.put hag rfl mine (by rw [hx]; rfl) fun _ _ => rfl)⟩

/-- A store of `witem_alloc` is one of type 1 too, unless it is to `wi_next`. -/
theorem Agrees.allocStore {st : ItemStore} {ss : List ItemStore}
    (hag : Agrees sh ⟨key, .store w (st :: ss) (.alloc f a)⟩ l s) (hx : sh.heap w = some x)
    (ht : t < ts.length) :
    ∃ s' es, Answers t ts sh ⟨key, .store w (st :: ss) (.alloc f a)⟩ s
      ⟨sh.put w (st.run x), ⟨key, .store w ss (.alloc f a)⟩, [], []⟩ s' es := by
  have hput : (sh.put w (st.run x)).heap w = some (st.run x) := Shared.put_self
  cases st with
  | work st =>
    have hsx := hag.contents (.inr rfl) hx
    have mine : ∀ u, u ∈ sh.live ∨ some w = some u ↔ (u ∈ sh.live ∨ some w = some u) ∨ u = w := by
      simp [eq_comm]
    exact ⟨_, _, .step _ ht (plain_store hag.running hsx)
      (.put hag rfl mine (by rw [hput]; rfl) fun u hu => Function.update_of_ne hu ..)⟩
  | wiNext v =>
    refine ⟨s, _, .stutter rfl rfl (.same hag hag.running hag.live rfl (fun _ => Iff.rfl) ?_)⟩
    intro u _
    by_cases hu : u = w
    · rw [hu, hput, hx]
      rfl
    · exact congrArg _ (Function.update_of_ne hu ..)

/-- What `witem_free` and `witem_cache_cleanup` do to an item of the thread is not seen with
type 1. -/
theorem Agrees.hidden {q : Thread} {es : List Event} {y : Option Item} (hag : Agrees sh p l s)
    (ha : Apart sh l) (hw : w ∈ l) (hp : p.allocating = none) (hq : q.allocating = none)
    (hplain : q.plain = p.plain) (hes : es.filterMap Event.visible = []) :
    ∃ s' es', Answers t ts sh p s
      ⟨{ sh with heap := Function.update sh.heap w y }, q, [], es⟩ s' es' := by
  refine ⟨s, _, .stutter hplain hes (.same hag hag.running hag.live rfl ?_ ?_)⟩
  · intro u
    rw [Mine, Mine, hp, hq]
  · intro u hu
    rw [Mine, hp] at hu
    have hne : u ≠ w := (ha.live_ne (hu.resolve_right nofun) hw).symm
    exact congrArg _ (Function.update_of_ne hne ..)

end

/-- Each step of a thread over type 3 has its answer. -/
theorem Agrees.step {ts : List PlainPc} (hag : Agrees sh p l s) (ho : Owns sh.heap p l)
    (ha : Apart sh l) (st : Step sh t p ch o) (ht : t < ts.length) :
    ∃ s' es, Answers t ts sh p s o s' es := by
  have hrun := hag.running
  have hlive := hag.live
  cases st with
  | fault hw hnone => exact absurd hnone (ho.no_fault ha hw)
  | callRecycle | callMalloc => exact ⟨s, _, .step _ ht (plain_alloc hrun) (.quiet hag rfl)⟩
  | @callFree key w hw =>
    obtain ⟨x, hx⟩ := Option.ne_none_iff_exists'.mp (ha.allocated w (List.mem_append_left l hw))
    exact hag.callFree ha hw hx ht
  | @use key w st x hw hx =>
    have hsx := hag.contents (.inl hw) hx
    have hs : plain s t .app (.store w st) =
        some ⟨s.put w (st.run x.toWork), .app, [], [.stored t w st]⟩ := by
      simp [plain, plainNext, hrun, hlive, hw, Shared.access_some hsx]
    have mine : ∀ u, Mine sh ⟨key, .app⟩ u ↔ Mine sh ⟨key, .app⟩ u ∨ u = w :=
      fun u => (or_iff_left_of_imp fun hu => .inl (hu ▸ hw)).symm
    exact ⟨_, _, .step _ ht hs
      (.put hag rfl mine (by rw [Shared.put_self]; rfl) fun u hu => Function.update_of_ne hu ..)⟩
  | @load key w x hw hx =>
    have hsx := hag.contents (.inl hw) hx
    have hs : plain s t .app (.load w) = some ⟨s, .app, [], [.loaded t w x.toWork]⟩ := by
      simp [plain, plainNext, hrun, hlive, hw, Shared.access_some hsx]
    exact ⟨s, _, .step _ ht hs (.quiet hag rfl)⟩
  | create =>
    have hs : plain s t .app .create = some ⟨s, .app, [.app], [.created t]⟩ := by
      simp [plain, plainNext, hrun]
    have hget : (ts.set t .app)[t]? = some .app := List.getElem?_set_self ht
    have run := Machine.Run.move (G := fun _ _ => True) (c := ⟨s, ts.set t .app⟩)
      (l := (t, Choice.create)) trivial ⟨hget, hs⟩
    rw [Outcome.apply, List.set_set] at run
    exact ⟨s, _, run, rfl, .quiet hag rfl⟩
  | exit | exitEmpty =>
    have hs : plain s t .app .exit = some ⟨s, .app, [], [.exited t]⟩ := by
      simp [plain, plainNext, hrun]
    exact ⟨s, _, .step _ ht hs (.quiet hag rfl)⟩
  | @recycle key f a w x hx =>
    cases ho with
    | recycle hc =>
      obtain ⟨y, m, rfl, hy, hclean, _⟩ := hc.inv
      cases hx.symm.trans hy
      exact hag.recycle ha List.mem_cons_self hx hclean ht
  | retry => exact ⟨s, _, .stutter rfl rfl (.quiet hag rfl)⟩
  | @malloc key f a w x hw =>
    have hs := plain_malloc (t := t) (y := x.toWork) (f := f) (a := a) hrun (hag.unallocated w hw)
    have mine : ∀ u, u ∈ sh.live ∨ some w = some u ↔ (u ∈ sh.live ∨ none = some u) ∨ u = w := by
      simp [eq_comm]
    exact ⟨_, _, .step _ ht hs
      (.put hag rfl mine (by rw [Shared.put_self]; rfl) fun u hu => Function.update_of_ne hu ..)⟩
  | @store key w st ss k x hx =>
    cases k with
    | alloc f a => exact hag.allocStore hx ht
    | free => exact hag.hidden ha (ho.hand_mem rfl) rfl rfl rfl rfl
  | @allocated key w f a x hx =>
    have hsx := hag.contents (.inr rfl) hx
    have hs : plain s t (.store w [] f a) .go =
        some ⟨{ s with live := w :: s.live }, .app, [], [.allocated t f a w x.toWork]⟩ := by
      simp [plain, plainNext, hrun, Shared.access_some hsx]
    have mine : ∀ u, u ∈ w :: sh.live ∨ none = some u ↔ u ∈ sh.live ∨ some w = some u := by
      simp [eq_comm, or_comm]
    exact ⟨_, _, .step _ ht hs
      (.same hag hrun (congrArg (w :: ·) hlive) rfl mine fun _ _ => rfl)⟩
  | freed | leaked => exact ⟨s, _, .step _ ht (plain_freed hrun) (.quiet hag rfl)⟩
  | cleaned | visit => exact ⟨s, _, .stutter rfl rfl (.quiet hag rfl)⟩
  | release => exact hag.hidden ha (ho.hand_mem rfl) rfl rfl rfl rfl

theorem Matches.start : Matches (initial newThread n) (initial .app n) where
  running := rfl
  live := rfl
  threads := by
    rw [initial, initial, List.map_replicate]
    rfl
  held _ _ := rfl
  free _ _ := rfl

/-- Every run over type 3 looks like a run over type 1. -/
theorem cached_simulates (h : Machine.Free cached (initial newThread n) tr c) :
    ∃ tr' d, Machine.Free plain (initial .app n) tr' d ∧
      tr'.filterMap Event.visible = tr.filterMap Event.visible := by
  suffices hs : ∃ tr' d, Machine.Free plain (initial .app n) tr' d ∧
      tr'.filterMap Event.visible = tr.filterMap Event.visible ∧ Matches c d by
    obtain ⟨tr', d, hd, hview, -⟩ := hs
    exact ⟨tr', d, hd, hview⟩
  refine h.simulate Matches Event.visible Event.visible .start ?_
  rintro tr c ⟨t, ch⟩ p o d hr hm - mv
  obtain ⟨own, hp⟩ := Partition.run hr
  obtain ⟨ho, st, l', k, -⟩ := hp.step mv
  have hget : d.threads[t]? = some p.plain := by
    rw [hm.threads, List.getElem?_map, mv.here]
    rfl
  obtain ⟨ht, hself⟩ := List.getElem?_eq_some_iff.mp hget
  obtain ⟨s', es, run, same, follows⟩ := (hm.agrees hp mv.here).step ho hp.apart st ht
  have hset : d.threads.set t p.plain = d.threads := by
    rw [← hself, List.set_getElem_self]
  rw [hset] at run
  exact ⟨es, _, run, same, hm.apply hp mv.here k follows⟩

/-- In every run over the item cache the lists of the threads stay apart; `witem_alloc` returns, with an
item that the program does not have and that is as `malloc` and the stores of type 1 make it;
`witem_free` returns; a thread that ends passes its list to `free`; and the program sees what it could
see over type 1. -/
theorem cache_behaves_like_malloc (n : Nat) (tr : List Event) (c : Config (Shared Item) Thread)
    (h : Machine.Free cached (initial newThread n) tr c) :
    c.shared.halted = none ∧
      (∃ chain, Chains c chain) ∧
      (∀ l p o t f a w x, cached.Moves c l o p → .allocated t f a w x ∈ o.events →
        w ∉ c.shared.live ∧ x = freshWork f a) ∧
      (∀ t p o f a, cached.Moves c (t, .alloc f a) o p → ∀ as d,
        Machine.Run cached.acts (InCall t) (o.apply c t) as d → Allocates t f a as d) ∧
      (∀ t p o w, cached.Moves c (t, .free w) o p → ∀ as d,
        Machine.Run cached.acts (InCall t) (o.apply c t) as d → Returns t 7 as d) ∧
      (∀ t p o l, cached.Moves c (t, .exit) o p → Chain c.shared.heap p.key l → ∀ as d,
        Machine.Run cached.acts (InCall t) (o.apply c t) as d → Ends t l as d) ∧
      ∃ tr' d, Machine.Free plain (initial .app n) tr' d ∧
        tr'.filterMap Event.visible = tr.filterMap Event.visible := by
  obtain ⟨own, hp⟩ := Partition.run h
  refine ⟨hp.running, hp.chains, ?_, ?_, ?_, ?_, cached_simulates h⟩
  · rintro ⟨u, ch⟩ p o t f a w x mv he
    obtain ⟨ho, st, -⟩ := hp.step mv
    exact st.allocated_fresh ho hp.apart he
  · exact fun t p o f a mv as d hrun => alloc_allocates hp mv hrun
  · exact fun t p o w mv as d hrun => free_returns hp mv hrun
  · exact fun t p o l mv hl as d hrun => exit_ends hp mv hl hrun

/-- One thread gets an item from `malloc`, the other frees it, gets it from its list, frees it again and
ends. -/
theorem cache_behaves_like_malloc_of_two : ∃ tr c,
    Machine.Free cached (initial newThread 2) tr c ∧
      .allocated 0 (some 7) none 5 (freshWork (some 7) none) ∈ tr ∧
      .allocated 1 (some 8) (some 3) 5 (freshWork (some 8) (some 3)) ∈ tr ∧ .released 1 5 ∈ tr ∧
      c.shared.halted = none ∧ (∃ chain, Chains c chain) ∧
      ∃ tr' d, Machine.Free plain (initial .app 2) tr' d ∧
        tr'.filterMap Event.visible = tr.filterMap Event.visible := by
  obtain ⟨tr, c, hrun, hP⟩ := Machine.exists_run (M := cached) (g := fun _ _ => true)
    (c := initial newThread 2)
    ((0, .alloc (some 7) none) :: (0, .block none) ::
      (0, .block (some (5, ⟨⟨some 1, some 2, none, 3, 4⟩, some 6⟩))) :: steps 0 6 ++ freeItem 1 5 ++
      (1, .alloc (some 8) (some 3)) :: steps 1 4 ++ freeItem 1 5 ++ (1, .exit) :: steps 1 3)
    (fun r => decide (.allocated 0 (some 7) none 5 (freshWork (some 7) none) ∈ r.2 ∧
      .allocated 1 (some 8) (some 3) 5 (freshWork (some 8) (some 3)) ∈ r.2 ∧ .released 1 5 ∈ r.2))
    (by decide +kernel)
  obtain ⟨h₁, h₂, h₃⟩ := of_decide_eq_true hP
  obtain ⟨hrunning, hchains, -, -, -, -, hsim⟩ := cache_behaves_like_malloc 2 tr c hrun.free
  exact ⟨tr, c, hrun.free, h₁, h₂, h₃, hrunning, hchains, hsim⟩

end PthreadWorkqueue.Cache
