import PthreadWorkqueue.Posix.Reuse

/-! An allocator that gives addresses out again does not change what the pool does: every run is a run
of the pool in which every item has an address of its own, under other names. -/
namespace PthreadWorkqueue.Posix
open Concurrency

/-- The state `c` is the state `a` of the pool that never gives an address out again, under the
addresses that its items were given. -/
structure Aliases (addr : Nat → Nat) (a c : PoolState) : Prop where
  shared : c.shared = a.shared.transport (naming addr c.shared.heap)
  threads : c.threads = a.threads.map (Thread.rename addr)
  live : ∀ x, c.shared.liveAt x = true ↔ ∃ n, a.shared.liveAt n = true ∧ addr n = x
  apart : ∀ m n, a.shared.liveAt m = true → a.shared.liveAt n = true → addr m = addr n → m = n

variable {S : Settings} {t : Tid} {p : Thread} {ch : Choice} {addr : Nat → Nat} {w : Work} {o : Out}
  {a c : PoolState} {users managers : Nat} {es tr : List Event}

theorem Aliases.thread (h : Aliases addr a c) {r : Thread} (hr : c.threads[t]? = some r) :
    ∃ p, a.threads[t]? = some p ∧ p.rename addr = r := by
  rw [h.threads, List.getElem?_map] at hr
  exact Option.map_eq_some_iff.mp hr

theorem Aliases.halted (h : Aliases addr a c) : c.shared.halted = a.shared.halted := by
  have hsh := congrArg Shared.halted h.shared
  exact hsh

/-- A live item is live under its address. -/
theorem Aliases.alive (h : Aliases addr a c) (hw : a.shared.live w = true) :
    (a.shared.transport (naming addr c.shared.heap)).live (w.rename addr) = true :=
  (h.live (addr w.addr)).mpr ⟨w.addr, hw, rfl⟩

theorem Aliases.sees (h : Aliases addr a c)
    (hrun : Machine.Free (program S) (initial users managers) es a) (hp : a.threads[t]? = some p) :
    Sees addr c.shared.heap a.shared p where
  derefs w hw := by
    have hlive := (heap hrun).live_of_held (accounts _ hrun) hp (placed_of_derefs hw)
    rw [hlive, h.alive hlive]
  queued q wq w hq hw := by
    have hlive := (heap hrun).live_of_queued (accounts _ hrun) hq hw
    rw [hlive, h.alive hlive]

/-- The framing rule: what the threads become, and what is live afterwards. -/
theorem Aliases.apply {d : Out} (h : Aliases addr a c)
    (hd : d = o.transport (naming addr d.shared.heap))
    (live : ∀ x, d.shared.liveAt x = true ↔ ∃ n, o.shared.liveAt n = true ∧ addr n = x)
    (apart : ∀ m n, o.shared.liveAt m = true → o.shared.liveAt n = true → addr m = addr n → m = n) :
    Aliases addr (o.apply a t) (d.apply c t) where
  shared := congrArg Outcome.shared hd
  threads := by
    have hpc : d.pc = o.pc.rename addr := congrArg Outcome.pc hd
    have hsp : d.spawned = o.spawned.map (Thread.rename addr) := congrArg Outcome.spawned hd
    simp only [Outcome.apply, hpc, hsp, h.threads, List.map_append, List.map_set]
  live := live
  apart := apart

/-- A step that neither allocates nor frees. -/
theorem Aliases.plain {d : Out} (h : Aliases addr a c)
    (hrun : Machine.Free (program S) (initial users managers) es a) (hp : a.threads[t]? = some p)
    (hh : p.onHeap = false) (ho : program S a.shared t p ch = some o)
    (hd : program S c.shared t (p.rename addr) ch = some d) :
    Aliases addr (o.apply a t) (d.apply c t) ∧ d.events = o.events.map (Event.rename addr) := by
  have hstep : program S (a.shared.transport (naming addr c.shared.heap)) t (p.rename addr) ch = _ :=
    program_naming (h.sees hrun hp) hh
  rw [← h.shared, hd, ho] at hstep
  obtain rfl := Option.some.inj hstep
  have hheap := heap_plain (program_step ho).2 hh
  refine ⟨h.apply rfl (fun x => ?_) fun m n => ?_, rfl⟩
  · change c.shared.liveAt x = true ↔ _
    rw [h.live x]
    unfold Shared.liveAt
    rw [hheap]
  · unfold Shared.liveAt
    rw [hheap]
    exact h.apart m n

/-- A step that frees an item: its address is free as well, because no other live item has it. -/
theorem Aliases.free {d : Out} (h : Aliases addr a c)
    (hrun : Machine.Free (program S) (initial users managers) es a) (hp : a.threads[t]? = some p)
    (hf : p.frees = some w) (ho : program S a.shared t p ch = some o)
    (hd : program S c.shared t (p.rename addr) ch = some d) :
    Aliases addr (o.apply a t) (d.apply c t) ∧ d.events = o.events.map (Event.rename addr) := by
  have hlive := (heap hrun).live_of_held (accounts _ hrun) hp (.inl (held_of_frees hf))
  have hstep : program S (a.shared.transport (naming addr c.shared.heap)) t (p.rename addr) ch = _ :=
    program_frees hf hlive (h.alive hlive)
  rw [← h.shared, hd, ho] at hstep
  obtain rfl := Option.some.inj hstep
  have hsh := frees_step ho hf
  have hheap : o.shared.heap = a.shared.heap.set w.addr false := by
    rw [hsh, Shared.witemFree, if_pos hlive]
  have hmem : ∀ n, o.shared.liveAt n = true ↔ n ≠ w.addr ∧ a.shared.liveAt n = true := fun n => by
    rw [liveAt_iff, hheap, liveAt_freed, liveAt_iff]
  refine ⟨h.apply rfl (fun x => ?_) fun m n hm hn => ?_, rfl⟩
  · rw [liveAt_iff]
    change (c.shared.heap.set (addr w.addr) false)[x]? = some true ↔ _
    rw [liveAt_freed, ← liveAt_iff, h.live x]
    constructor
    · rintro ⟨hne, n, hn, rfl⟩
      exact ⟨n, (hmem n).mpr ⟨fun he => hne (congrArg addr he), hn⟩, rfl⟩
    · rintro ⟨n, hn, rfl⟩
      obtain ⟨hne, hn⟩ := (hmem n).mp hn
      exact ⟨fun he => hne (h.apart _ _ hn hlive he), n, hn, rfl⟩
  · exact h.apart m n ((hmem m).mp hm).2 ((hmem n).mp hn).2

/-- A step that allocates an item at an address that is not in use. -/
theorem Aliases.alloc {f : Option Nat} {g x : Nat} {next next' : Work → Thread}
    (h : Aliases addr a c) (hn : ∀ w : Work, next' (w.rename addr) = (next w).rename addr)
    (hx : addr a.shared.heap.length = x) (hfree : c.shared.liveAt x = false) :
    let o : Out := ⟨(a.shared.witemAlloc f g).1, next (a.shared.witemAlloc f g).2, [],
      [.alloc t (a.shared.witemAlloc f g).2]⟩
    let d : Out := ⟨(c.shared.witemAllocAt x f g).1, next' (c.shared.witemAllocAt x f g).2, [],
      [.alloc t (c.shared.witemAllocAt x f g).2]⟩
    Aliases addr (o.apply a t) (d.apply c t) ∧ d.events = o.events.map (Event.rename addr) := by
  intro o d
  have hw : (a.shared.witemAlloc f g).2.rename addr = (c.shared.witemAllocAt x f g).2 := by
    unfold Work.rename Shared.witemAlloc Shared.witemAllocAt
    rw [hx]
  have hmem : ∀ n, o.shared.liveAt n = true ↔ n = a.shared.heap.length ∨ a.shared.liveAt n = true :=
    fun n => by rw [liveAt_iff, liveAt_iff]; exact liveAt_append
  have hfresh : ∀ n, a.shared.liveAt n = true → addr n ≠ x := fun n hn he => by
    rw [(h.live x).mpr ⟨n, hn, he⟩] at hfree
    cases hfree
  have hd : d = o.transport (naming addr d.shared.heap) := by
    have hsh : d.shared = o.shared.transport (naming addr d.shared.heap) :=
      congrArg (fun s : Shared => { s with heap := d.shared.heap }) h.shared
    have hpc : (next (a.shared.witemAlloc f g).2).rename addr = next' (c.shared.witemAllocAt x f g).2 := by
      rw [← hn, hw]
    exact Option.some.inj (some_transport hsh.symm hpc rfl (congrArg (fun w => [Event.alloc t w]) hw))
  refine ⟨h.apply hd (fun y => ?_) fun m n hm hn he => ?_, congrArg Outcome.events hd⟩
  · rw [liveAt_iff]
    refine liveAt_allocated.trans ?_
    rw [← liveAt_iff, h.live y]
    constructor
    · rintro (rfl | ⟨n, hn, rfl⟩)
      · exact ⟨_, (hmem _).mpr (.inl rfl), hx⟩
      · exact ⟨n, (hmem n).mpr (.inr hn), rfl⟩
    · rintro ⟨n, hn, rfl⟩
      obtain rfl | hn := (hmem n).mp hn
      · exact .inl hx
      · exact .inr ⟨n, hn, rfl⟩
  · obtain rfl | hm := (hmem m).mp hm <;> obtain rfl | hn := (hmem n).mp hn
    · rfl
    · exact absurd (he.symm.trans hx) (hfresh n hn)
    · exact absurd (he.trans hx) (hfresh m hm)
    · exact h.apart m n hm hn he

/-- The pool that never gives an address out again makes the step too. -/
theorem Aliases.answer {d : Out} (h : Aliases addr a c)
    (hrun : Machine.Free (program S) (initial users managers) es a) (hp : a.threads[t]? = some p)
    (hal : p.allocs = none) (hd : program S c.shared t (p.rename addr) ch = some d) :
    ∃ o, program S a.shared t p ch = some o := by
  rw [h.shared] at hd
  cases hf : p.frees with
  | none =>
    rw [program_naming (h.sees hrun hp) (onHeap_eq_false hal hf)] at hd
    obtain ⟨o, ho, -⟩ := Option.map_eq_some_iff.mp hd
    exact ⟨o, ho⟩
  | some w =>
    have hlive := (heap hrun).live_of_held (accounts _ hrun) hp (.inl (held_of_frees hf))
    rw [program_frees hf hlive (h.alive hlive)] at hd
    obtain ⟨o, ho, -⟩ := Option.map_eq_some_iff.mp hd
    exact ⟨o, ho⟩

theorem Aliases.step {d : Out} (h : Aliases addr a c)
    (hrun : Machine.Free (program S) (initial users managers) es a) (hp : a.threads[t]? = some p)
    (hal : p.allocs = none) (ho : program S a.shared t p ch = some o)
    (hd : program S c.shared t (p.rename addr) ch = some d) :
    Aliases addr (o.apply a t) (d.apply c t) ∧ d.events = o.events.map (Event.rename addr) := by
  cases hf : p.frees with
  | none => exact h.plain hrun hp (onHeap_eq_false hal hf) ho hd
  | some w => exact h.free hrun hp hf ho hd

theorem aliases_initial (addr : Nat → Nat) :
    Aliases addr (initial users managers) (initial users managers) where
  shared := rfl
  threads := by
    unfold initial
    rw [List.map_append, List.map_replicate, List.map_replicate]
    rfl
  live x := by
    refine iff_of_false ?_ ?_
    · rw [liveAt_iff]
      exact fun h => by cases h
    · rintro ⟨n, hn, -⟩
      rw [liveAt_iff] at hn
      cases hn
  apart m n hm := by
    rw [liveAt_iff] at hm
    cases hm

/-- The items were given these addresses, in the order of their allocation. -/
def Gives (names : List Nat) (addr : Nat → Nat) : Prop := ∀ n x, names[n]? = some x → addr n = x

/-- The addresses as a function. -/
def given (names : List Nat) (n : Nat) : Nat := names[n]?.getD 0

theorem gives_given (names : List Nat) : Gives names (given names) := fun n x hx => by
  rw [given, hx]
  rfl

/-- What the pool that never gives an address out again has done. An item keeps its address in
`names`; what `addr` says of the items to come makes no difference. -/
structure Reused (S : Settings) (users managers : Nat) (tr : List Event) (c : PoolState)
    (names : List Nat) (es : List Event) (a : PoolState) : Prop where
  run : Machine.Free (program S) (initial users managers) es a
  length : names.length = a.shared.heap.length
  aliases : ∀ addr, Gives names addr → Aliases addr a c
  events : ∀ addr, Gives names addr → tr = es.map (Event.rename addr)

theorem Reused.step {names : List Nat} {d : Out} {r : Thread}
    (h : Reused S users managers tr c names es a) (mv : (reusing S).Moves c (t, ch) d r) :
    ∃ names' es' a', Reused S users managers (tr ++ d.events) (d.apply c t) names' es' a' := by
  obtain ⟨hr, hs⟩ := mv
  dsimp only at hr hs
  obtain ⟨p, hp, rfl⟩ := (h.aliases _ (gives_given names)).thread hr
  -- the thread is the same under all functions that agree with the addresses given
  have hsame : ∀ addr, Gives names addr → p.rename (given names) = p.rename addr := fun addr ha => by
    rw [(h.aliases addr ha).threads, List.getElem?_map, hp] at hr
    exact (Option.some.inj hr).symm
  unfold reusing at hs
  cases hal : p.allocs with
  | none =>
    rw [allocs_rename_none hal] at hs
    dsimp only at hs
    obtain ⟨o, ho⟩ := (h.aliases _ (gives_given names)).answer h.run hp hal hs
    have next : ∀ addr, Gives names addr → Aliases addr (o.apply a t) (d.apply c t) ∧
        d.events = o.events.map (Event.rename addr) := fun addr ha =>
      (h.aliases addr ha).step h.run hp hal ho (hsame addr ha ▸ hs)
    have mv : (program S).Moves a (t, ch) o p := ⟨hp, ho⟩
    refine ⟨names, es ++ o.events, o.apply a t, h.run.append (.move trivial mv),
      h.length.trans (length_heap ho hal).symm, fun addr ha => (next addr ha).1, fun addr ha => ?_⟩
    rw [List.map_append, h.events addr ha, (next addr ha).2]
  | some x =>
    obtain ⟨f, g, next⟩ := x
    obtain ⟨next', hal', -⟩ := allocs_rename (given names) hal
    rw [hal'] at hs
    cases ch <;> try cases hs
    rename_i x
    obtain ⟨⟨hn, hfree⟩, hd⟩ := Option.ite_none_right_eq_some.mp hs
    cases hd
    have hn' : a.shared.halted = none := (h.aliases _ (gives_given names)).halted.symm.trans hn
    have more : ∀ addr, Gives (names ++ [x]) addr →
        Gives names addr ∧ addr a.shared.heap.length = x := fun addr ha => by
      refine ⟨fun n y hy => ha n y ?_, ha _ x ?_⟩
      · rw [List.getElem?_append_left (List.getElem?_eq_some_iff.mp hy).1]
        exact hy
      · rw [← h.length]
        exact List.getElem?_concat_length
    have hnext : ∀ addr, Gives names addr → ∀ w : Work, next' (w.rename addr) = (next w).rename addr :=
      fun addr ha => by
        obtain ⟨next'', hal'', hn''⟩ := allocs_rename addr hal
        rw [← hsame addr ha, hal'] at hal''
        cases hal''
        exact hn''
    have step : ∀ addr, Gives (names ++ [x]) addr → _ := fun addr ha =>
      (h.aliases addr (more addr ha).1).alloc (t := t) (f := f) (g := g) (hnext addr (more addr ha).1)
        (more addr ha).2 hfree
    have mv : (program S).Moves a (t, .go) _ p := ⟨hp, program_allocs hal hn'⟩
    refine ⟨names ++ [x], es ++ [.alloc t (a.shared.witemAlloc f g).2], _,
      h.run.append (.move trivial mv), ?_, fun addr ha => (step addr ha).1, fun addr ha => ?_⟩
    · change (names ++ [x]).length = (a.shared.heap ++ [true]).length
      rw [List.length_append, List.length_append, h.length]
      rfl
    · rw [List.map_append, ← h.events addr (more addr ha).1]
      exact congrArg (tr ++ ·) (step addr ha).2

theorem reused_run (h : Machine.Free (reusing S) (initial users managers) tr c) :
    ∃ names es a, Reused S users managers tr c names es a := by
  refine h.invariant (fun tr c => ∃ names es a, Reused S users managers tr c names es a)
    ⟨[], [], _, .start, rfl, fun addr _ => aliases_initial addr, fun _ _ => rfl⟩ ?_
  rintro tr c ⟨t, ch⟩ p o - ⟨names, es, a, hr⟩ - mv
  exact hr.step mv

/-- Whatever addresses the allocator gives out, as long as there is no item at them: a run is a run of
the pool in which every item has an address of its own, with the items under the addresses that they
were given. No two live items have one address, and no freed item is used or freed again. -/
theorem reuse_refines (S : Settings) (users managers : Nat) (tr : List Event) (c : PoolState)
    (h : Machine.Free (reusing S) (initial users managers) tr c) :
    c.shared.memorySafe ∧ ∃ addr es a, Machine.Free (program S) (initial users managers) es a ∧
      tr = es.map (Event.rename addr) ∧ Aliases addr a c := by
  obtain ⟨names, es, a, hr⟩ := reused_run h
  have hal := hr.aliases _ (gives_given names)
  refine ⟨?_, given names, es, a, hr.run, hr.events _ (gives_given names), hal⟩
  unfold Shared.memorySafe
  rw [hal.halted]
  exact memorySafe hr.run

/-- A thread adds an item that is allocated at the given address. -/
def addItemAt (t : Tid) (x func arg : Nat) : List (Tid × Choice) :=
  [(t, .request (.additem 0 (some func) arg)), (t, .go), (t, .value x)]

/-- The address of the first item is that of the second one too. -/
theorem reuse_refines_of_two : ∃ tr c,
    Machine.Free (reusing ⟨2, 2, 2, 0, false⟩) (initial 1 0) tr c ∧
      Event.alloc 0 ⟨5, some 7, 70, 0, 0⟩ ∈ tr ∧ Event.alloc 0 ⟨5, some 8, 80, 0, 0⟩ ∈ tr ∧
      c.shared.memorySafe := by
  obtain ⟨tr, c, hrun, hP⟩ := Machine.exists_run (M := reusing ⟨2, 2, 2, 0, false⟩)
    (g := fun _ _ => true) (c := initial 1 0)
    (createFirst 0 3 ++ [(1, .value 100), (1, .value 0)] ++ startWorker 1 ++ addItemAt 0 5 7 70 ++
      steps 0 6 ++ steps 2 10 ++ steps 0 1 ++ steps 2 3 ++ addItemAt 0 5 8 80)
    (fun r => decide (Event.alloc 0 ⟨5, some 7, 70, 0, 0⟩ ∈ r.2 ∧
      Event.alloc 0 ⟨5, some 8, 80, 0, 0⟩ ∈ r.2)) (by decide +kernel)
  obtain ⟨h₁, h₂⟩ := of_decide_eq_true hP
  exact ⟨tr, c, hrun.free, h₁, h₂, (reuse_refines _ _ _ tr c hrun.free).1⟩

end PthreadWorkqueue.Posix
