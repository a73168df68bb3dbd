import PthreadWorkqueue.Windows.RwlockInvariant

/-! Somebody gets on: when no thread that is outside of the calls has the lock, some call returns. -/
namespace PthreadWorkqueue.Windows
open Concurrency
open Posix (Tid atomicDec)

/-- Steps that one thread takes in a call while no other thread moves. -/
inductive Alone (t : Tid) : Rwlock → RwlockPc → Rwlock → RwlockPc ⊕ Bool → Prop where
  | one {l x} : Alone t l x (rwlockNext l t x).1 (rwlockNext l t x).2
  | more {l x x' l' r} : (rwlockNext l t x).2 = .inl x' → Alone t (rwlockNext l t x).1 x' l' r →
      Alone t l x l' r

/-- Alone, the thread returns from its call: with 0, but for the variants that try. -/
def Returns (t : Tid) (f : RwCall) (l : Rwlock) (x : RwlockPc) : Prop :=
  ∃ l' ok, Alone t l x l' (.inr ok) ∧ (ok || f.tries) = true

/-- Alone, the thread gives back the spin lock to try again. -/
def Retries (t : Tid) (l : Rwlock) (x : RwlockPc) : Prop :=
  ∃ l' q, Alone t l x l' (.inl (.exchange q)) ∧ l'.mtx = false

section Alone
variable {t : Tid} {f : RwCall} {l : Rwlock} {x z : RwlockPc} {q : SectionPc}

theorem Returns.more (hn : (rwlockNext l t x).2 = .inl z)
    (h : Returns t f (rwlockNext l t x).1 z) : Returns t f l x := by
  obtain ⟨l', ok, ha, hok⟩ := h
  exact ⟨l', ok, .more hn ha, hok⟩

theorem Retries.more (hn : (rwlockNext l t x).2 = .inl z)
    (h : Retries t (rwlockNext l t x).1 z) : Retries t l x := by
  obtain ⟨l', r, ha, hr⟩ := h
  exact ⟨l', r, .more hn ha, hr⟩

theorem returns_leave {ok : Bool} (h : (ok || f.tries) = true) :
    Returns t f l (.locked (.leave ok)) :=
  ⟨_, ok, .one, h⟩

theorem returns_setWId : Returns t f l (.locked .setWId) := .more rfl (returns_leave rfl)
theorem returns_incWCt : Returns t f l (.locked .incWCt) := .more rfl returns_setWId
theorem returns_decWPending : Returns t f l (.locked .decWPending) := .more rfl returns_incWCt
theorem returns_incRCt : Returns t f l (.locked .incRCt) := .more rfl (returns_leave rfl)
theorem returns_decRCt : Returns t f l (.locked .decRCt) := .more rfl (returns_leave rfl)
theorem returns_decWCt : Returns t f l (.locked .decWCt) := .more rfl (returns_leave rfl)
theorem returns_clearWId : Returns t f l (.locked .clearWId) := .more rfl returns_decWCt

theorem returns_testWId : Returns t f l (.locked .testWId) := by
  by_cases hw : l.wId = some t
  · exact .more (z := .locked .clearWId) (by simp only [rwlockNext, if_pos hw]) returns_clearWId
  · exact .more (z := .locked .decRCt) (by simp only [rwlockNext, if_neg hw]) returns_decRCt

theorem retries_retryRead : Retries t l (.locked .retryRead) := ⟨_, _, .one, rfl⟩
theorem retries_retryWrite : Retries t l (.locked .retryWrite) := ⟨_, _, .one, rfl⟩

/-- A test of a variant that tries returns when it fails, another one tries again. -/
theorem ends_refuse (tries : Bool) (hf : tries = true → f.tries = true)
    (h : Retries t l (.locked q)) :
    Returns t f l (.locked (refuse tries q)) ∨ Retries t l (.locked (refuse tries q)) := by
  cases tries with
  | true => exact .inl (returns_leave (hf rfl))
  | false => exact .inr h

theorem returns_read {tries : Bool} (hw : l.wCt = 0) (hp : l.wPending = 0) :
    Returns t f l (.locked (.testWCt tries)) := by
  have hsecond : Returns t f l (.locked (.testWPending tries)) :=
    .more (z := .locked .incRCt)
      (by simp only [rwlockNext, hp, ne_eq, not_true_eq_false, if_false]) returns_incRCt
  exact .more (z := .locked (.testWPending tries))
    (by simp only [rwlockNext, hw, Nat.lt_irrefl, if_false]) hsecond

theorem returns_testNoWriter {tries : Bool} (hw : l.wCt = 0) :
    Returns t f l (.locked (.testNoWriter tries)) := by
  cases tries with
  | true =>
    exact .more (z := .locked .incWCt)
      (by simp only [rwlockNext, hw, Nat.lt_irrefl, if_false, if_true]) returns_incWCt
  | false =>
    exact .more (z := .locked .decWPending)
      (by simp only [rwlockNext, hw, Nat.lt_irrefl, if_false, Bool.false_eq_true]) returns_decWPending

theorem returns_write {tries : Bool} (hr : l.rCt = 0) (hw : l.wCt = 0) :
    Returns t f l (.locked (.testRCt tries)) :=
  .more (z := .locked (.testNoWriter tries))
    (by simp only [rwlockNext, hr, Nat.lt_irrefl, if_false]) (returns_testNoWriter hw)

theorem returns_incWPending (hr : l.rCt = 0) (hw : l.wCt = 0) :
    Returns t f l (.locked .incWPending) :=
  .more rfl (returns_write (l := { l with wPending := l.wPending + 1 }) hr hw)

theorem ends_testWPending {tries : Bool} (hof : (SectionPc.testWPending tries).of f = true) :
    Returns t f l (.locked (.testWPending tries)) ∨ Retries t l (.locked (.testWPending tries)) := by
  have hf : f = if tries then .tryrdlock else .rdlock := eq_of_beq hof
  by_cases hp : l.wPending = 0
  · exact .inl (.more (z := .locked .incRCt)
      (by simp only [rwlockNext, hp, ne_eq, not_true_eq_false, if_false]) returns_incRCt)
  · have hn : (rwlockNext l t (.locked (.testWPending tries))).2 =
        .inl (.locked (refuse tries .retryRead)) := by
      simp only [rwlockNext, if_pos hp]
    exact (ends_refuse tries (fun ht => by rw [hf, ht]; rfl) retries_retryRead).imp (.more hn) (.more hn)

theorem ends_testWCt {tries : Bool} (hof : (SectionPc.testWCt tries).of f = true) :
    Returns t f l (.locked (.testWCt tries)) ∨ Retries t l (.locked (.testWCt tries)) := by
  have hf : f = if tries then .tryrdlock else .rdlock := eq_of_beq hof
  by_cases hw : 0 < l.wCt
  · have hn : (rwlockNext l t (.locked (.testWCt tries))).2 =
        .inl (.locked (refuse tries .retryRead)) := by
      simp only [rwlockNext, if_pos hw]
    exact (ends_refuse tries (fun ht => by rw [hf, ht]; rfl) retries_retryRead).imp (.more hn) (.more hn)
  · have hn : (rwlockNext l t (.locked (.testWCt tries))).2 =
        .inl (.locked (.testWPending tries)) := by
      simp only [rwlockNext, if_neg hw]
    exact (ends_testWPending hof).imp (.more hn) (.more hn)

theorem ends_testNoWriter {tries : Bool} (hof : (SectionPc.testNoWriter tries).of f = true) :
    Returns t f l (.locked (.testNoWriter tries)) ∨ Retries t l (.locked (.testNoWriter tries)) := by
  have hf : f = if tries then .trywrlock else .wrlock := eq_of_beq hof
  by_cases hw : 0 < l.wCt
  · have hn : (rwlockNext l t (.locked (.testNoWriter tries))).2 =
        .inl (.locked (refuse tries .retryWrite)) := by
      simp only [rwlockNext, if_pos hw]
    exact (ends_refuse tries (fun ht => by rw [hf, ht]; rfl) retries_retryWrite).imp (.more hn) (.more hn)
  · exact .inl (returns_testNoWriter (Nat.eq_zero_of_not_pos hw))

theorem ends_testRCt {tries : Bool} (hof : (SectionPc.testRCt tries).of f = true) :
    Returns t f l (.locked (.testRCt tries)) ∨ Retries t l (.locked (.testRCt tries)) := by
  have hf : f = if tries then .trywrlock else .wrlock := eq_of_beq hof
  by_cases hr : 0 < l.rCt
  · have hn : (rwlockNext l t (.locked (.testRCt tries))).2 =
        .inl (.locked (refuse tries .retryWrite)) := by
      simp only [rwlockNext, if_pos hr]
    exact (ends_refuse tries (fun ht => by rw [hf, ht]; rfl) retries_retryWrite).imp (.more hn) (.more hn)
  · have hn : (rwlockNext l t (.locked (.testRCt tries))).2 =
        .inl (.locked (.testNoWriter tries)) := by
      simp only [rwlockNext, if_neg hr]
    exact (ends_testNoWriter hof).imp (.more hn) (.more hn)

/-- With the spin lock the thread returns, or gives it back. -/
theorem ends_locked (hof : q.of f = true) :
    Returns t f l (.locked q) ∨ Retries t l (.locked q) := by
  cases q with
  | testWCt tries => exact ends_testWCt hof
  | testWPending tries => exact ends_testWPending hof
  | incRCt => exact .inl returns_incRCt
  | incWPending =>
    have hf : f = .wrlock := eq_of_beq hof
    have htest : (SectionPc.testRCt false).of f = true := by rw [hf]; rfl
    exact (ends_testRCt htest).imp (.more rfl) (.more rfl)
  | testRCt tries => exact ends_testRCt hof
  | testNoWriter tries => exact ends_testNoWriter hof
  | decWPending => exact .inl returns_decWPending
  | incWCt => exact .inl returns_incWCt
  | setWId => exact .inl returns_setWId
  | testWId => exact .inl returns_testWId
  | clearWId => exact .inl returns_clearWId
  | decWCt => exact .inl returns_decWCt
  | decRCt => exact .inl returns_decRCt
  | retryRead => exact .inr retries_retryRead
  | retryWrite => exact .inr retries_retryWrite
  | leave ok => exact .inl (returns_leave hof)

/-- A thread takes a spin lock that is free. -/
theorem returns_exchange (hm : l.mtx = false)
    (h : Returns t f { l with mtx := true } (.locked q)) : Returns t f l (.exchange q) := by
  refine .more (z := .locked q) (by rw [exchange_free hm]) ?_
  rw [exchange_free hm]
  exact h

theorem returns_spin (hm : l.mtx = false)
    (h : Returns t f { l with mtx := true } (.locked q)) : Returns t f l (.spin q) := by
  refine .more (z := .exchange q) (by rw [spin_free hm]) ?_
  rw [spin_free hm]
  exact returns_exchange hm h

end Alone

section Runs
variable {σ π χ ε : Type} {P : RwClient σ π χ ε} {c₀ : Config σ π} {tr : List ε}
  {c d : Config (Guarded σ) (Point π)} {t : Tid} {p : π} {x : RwlockPc} {l' : Rwlock}
  {r : RwlockPc ⊕ Bool} {f : RwCall} {q : SectionPc}

/-- The step is one of a thread in a call. -/
def InCall (c : Config (Guarded σ) (Point π)) (l : Tid × χ) : Prop :=
  ∃ p x, c.threads[l.1]? = some (.inCall p x)

/-- A thread in a call can always move. -/
theorem inCall_move (ch : χ) (hend : P.ended c.shared.mem = false)
    (hy : c.threads[t]? = some (.inCall p x)) :
    Machine.Run (overRwlock P) InCall c [] ((callStep P c.shared t p x).apply c t) :=
  Machine.Run.move (M := overRwlock P) (l := (t, ch)) ⟨p, x, hy⟩ ⟨hy, if_pos hend⟩

/-- What a thread does alone it can do in any state. -/
theorem Alone.run (ch : χ) {l : Rwlock} (h : Alone t l x l' r) (hl : c.shared.lock = l)
    (hend : P.ended c.shared.mem = false) (hy : c.threads[t]? = some (.inCall p x)) :
    ∃ d, Machine.Run (overRwlock P) InCall c [] d ∧ d.shared = { c.shared with lock := l' } ∧
      d.threads[t]? = some (.after P p r) ∧ ∀ u, u ≠ t → d.threads[u]? = c.threads[u]? := by
  have others : ∀ (c : Config (Guarded σ) (Point π)) (x : RwlockPc) (u : Tid), u ≠ t →
      ((callStep (ε := ε) P c.shared t p x).apply c t).threads[u]? = c.threads[u]? := by
    intro c x u hu
    simp only [Outcome.apply, callStep, List.append_nil]
    exact List.getElem?_set_ne (Ne.symm hu)
  induction h generalizing c with
  | @one l x =>
    subst hl
    exact ⟨_, inCall_move ch hend hy, rfl, Outcome.get_self hy, others c x⟩
  | @more l x x' l' r hn _ ih =>
    subst hl
    have hself : ((callStep (ε := ε) P c.shared t p x).apply c t).threads[t]? =
        some (.inCall p x') := by
      rw [Outcome.get_self hy, callStep, hn]
      rfl
    obtain ⟨d, hrun, hs, ht, hu⟩ :=
      ih (c := (callStep P c.shared t p x).apply c t) rfl hend hself
    refine ⟨d, (inCall_move ch hend hy).append hrun, hs, ht, fun u hne => ?_⟩
    rw [hu u hne, others c x u hne]

/-- When nobody is in a section the threads in calls are about to enter one. -/
theorem begin_cases (ha : Accounts P c) (hm : c.shared.lock.mtx = false)
    (hy : c.threads[t]? = some (.inCall p x)) :
    ∃ f q, P.calls p = some f ∧ (x = .exchange q ∨ x = .spin q) ∧ q.begins = true ∧ q.of f = true := by
  obtain ⟨⟨f, hf, hof⟩, -⟩ := ha.fits t _ hy
  cases x with
  | exchange q => exact ⟨f, q, hf, .inl rfl, Bool.and_eq_true_iff.mp hof⟩
  | spin q => exact ⟨f, q, hf, .inr rfl, Bool.and_eq_true_iff.mp hof⟩
  | locked q =>
    have hzero := ha.busy
    rw [hm] at hzero
    exact absurd rfl (List.countP_eq_zero.mp hzero.symm _ (List.mem_of_getElem? hy))

theorem returns_begin {l : Rwlock} (hm : l.mtx = false) (hx : x = .exchange q ∨ x = .spin q)
    (h : Returns t f { l with mtx := true } (.locked q)) : Returns t f l x := by
  obtain rfl | rfl := hx
  · exact returns_exchange hm h
  · exact returns_spin hm h

/-- Nobody has the lock if nobody does outside of the calls and no call gives it back. -/
theorem nobody_has (ha : Accounts P c) (hm : c.shared.lock.mtx = false)
    (idle : ∀ p, .run p ∈ c.threads → P.mode p = .out)
    (hu : ∀ (u : Tid) q z, c.threads[u]? = some (.inCall q z) → P.calls q ≠ some .unlock) :
    c.shared.lock.rCt = 0 ∧ c.shared.lock.wCt = 0 := by
  have out : ∀ y ∈ c.threads, y.mode P = .out := by
    intro y hy
    obtain ⟨u, hu'⟩ := List.getElem?_of_mem hy
    cases y with
    | run p => exact idle p hy
    | inCall q z =>
      obtain ⟨f, q', hf, hz, hb, -⟩ := begin_cases ha hm hu'
      have hd : z.done = false := by obtain rfl | rfl := hz <;> rfl
      rw [mode_inCall hf, hd]
      exact P.asks hf fun hfu => hu u q z hu' (hfu ▸ hf)
  constructor
  · rw [ha.readers]
    exact List.countP_eq_zero.mpr fun y hy => by rw [Point.reads, out y hy]; exact Bool.false_ne_true
  · rw [ha.writers]
    exact List.countP_eq_zero.mpr fun y hy => by rw [Point.writes, out y hy]; exact Bool.false_ne_true

/-- When nobody is in a section, and nobody has the lock outside of the calls, some thread returns
alone: one that gives back, or else a writer, or else a reader. -/
theorem someone_returns (ha : Accounts P c) (hm : c.shared.lock.mtx = false)
    (idle : ∀ p, .run p ∈ c.threads → P.mode p = .out)
    (hy : c.threads[t]? = some (.inCall p x)) :
    ∃ u q z f, c.threads[u]? = some (.inCall q z) ∧ P.calls q = some f ∧
      Returns u f c.shared.lock z := by
  by_cases hgive : ∃ (u : Tid) (q : π) (z : RwlockPc), c.threads[u]? = some (.inCall q z) ∧
      P.calls q = some .unlock
  · obtain ⟨u, q, z, hz, hq⟩ := hgive
    obtain ⟨f, q', hf, hz', hb, hof⟩ := begin_cases ha hm hz
    obtain rfl : f = .unlock := Option.some.inj (hf.symm.trans hq)
    refine ⟨u, q, z, _, hz, hq, returns_begin hm hz' ?_⟩
    cases q' with
    | testWId => exact returns_testWId
    | testWCt tries => cases tries <;> cases hof
    | testRCt tries => cases tries <;> cases hof
    | incWPending => cases hof
    | _ => cases hb
  have hnone : ∀ (u : Tid) q z, c.threads[u]? = some (.inCall q z) → P.calls q ≠ some .unlock :=
    fun u q z hz hq => hgive ⟨u, q, z, hz, hq⟩
  obtain ⟨hr, hw⟩ := nobody_has ha hm idle hnone
  by_cases hwrite : ∃ (u : Tid) (q : π) (z : RwlockPc) (f : RwCall),
      c.threads[u]? = some (.inCall q z) ∧ P.calls q = some f ∧ f.gives = .write
  · obtain ⟨u, q, z, f, hz, hq, hg⟩ := hwrite
    obtain ⟨f', q', hf, hz', hb, hof⟩ := begin_cases ha hm hz
    obtain rfl : f' = f := Option.some.inj (hf.symm.trans hq)
    refine ⟨u, q, z, _, hz, hq, returns_begin hm hz' ?_⟩
    cases q' with
    | incWPending => exact returns_incWPending hr hw
    | testRCt tries => exact returns_write hr hw
    | testWCt tries =>
      have hf' : f' = if tries then .tryrdlock else .rdlock := eq_of_beq hof
      cases tries <;> rw [hf'] at hg <;> cases hg
    | testWId =>
      have hf' : f' = .unlock := eq_of_beq hof
      rw [hf'] at hg
      cases hg
    | _ => cases hb
  · have hpending : c.shared.lock.wPending = 0 := by
      rw [ha.pending]
      refine List.countP_eq_zero.mpr fun y hmem hpend => ?_
      obtain ⟨u, hu⟩ := List.getElem?_of_mem hmem
      cases y with
      | run q => cases hpend
      | inCall q z =>
        obtain ⟨f, q', hf, hz', hb, hof⟩ := begin_cases ha hm hu
        refine hwrite ⟨u, q, z, f, hu, hf, ?_⟩
        have hp : q'.pends = true := by obtain rfl | rfl := hz' <;> exact hpend
        cases q' with
        | testRCt tries =>
          have hf' : f = if tries then .trywrlock else .wrlock := eq_of_beq hof
          rw [hf']
          cases tries <;> rfl
        | testWCt | incWPending | testWId => cases hp
        | _ => cases hb
    obtain ⟨f, q', hf, hx, hb, hof⟩ := begin_cases ha hm hy
    refine ⟨t, p, x, f, hy, hf, returns_begin hm hx ?_⟩
    cases q' with
    | testWCt tries => exact returns_read hw hpending
    | incWPending =>
      have hf' : f = .wrlock := eq_of_beq hof
      exact absurd ⟨t, p, x, f, hy, hf, by rw [hf']; rfl⟩ hwrite
    | testRCt tries =>
      have hf' : f = if tries then .trywrlock else .wrlock := eq_of_beq hof
      exact absurd ⟨t, p, x, f, hy, hf, by rw [hf']; cases tries <;> rfl⟩ hwrite
    | testWId => exact absurd (eq_of_beq hof ▸ hf) (hnone t p x hy)
    | _ => cases hb

/-- From every state that can be reached, if some thread is in a call and no thread that is outside of
one has the lock, the threads in calls can go on until one of them returns; and it returns 0, but for
the variants that try. -/
theorem some_call_returns (P : RwClient σ π χ ε) (ch : χ) (c₀ : Config σ π) (tr : List ε)
    (c : Config (Guarded σ) (Point π)) (t : Tid) (p : π) (x : RwlockPc)
    (start : ∀ p ∈ c₀.threads, P.mode p = .out)
    (h : Machine.Free (overRwlock P) (guardedStart c₀) tr c) (hend : P.ended c.shared.mem = false)
    (idle : ∀ p, .run p ∈ c.threads → P.mode p = .out)
    (hy : c.threads[t]? = some (.inCall p x)) :
    ∃ (d : Config (Guarded σ) (Point π)) (u : Tid) (q : π) (z : RwlockPc) (f : RwCall) (ok : Bool),
      c.threads[u]? = some (.inCall q z) ∧ P.calls q = some f ∧
      Machine.Run (overRwlock P) InCall c [] d ∧ d.threads[u]? = some (.run (P.resume q ok)) ∧
      (ok || f.tries) = true := by
  have ha := accounts start h
  cases hm : c.shared.lock.mtx with
  | false =>
    obtain ⟨u, q, z, f, hz, hq, l', ok, halone, hok⟩ := someone_returns ha hm idle hy
    obtain ⟨d, hrun, -, hd, -⟩ := halone.run ch rfl hend hz
    exact ⟨d, u, q, z, f, ok, hz, hq, hrun, hd, hok⟩
  | true =>
    have hpos : 0 < c.number Point.inside := by rw [← ha.busy, hm]; exact Nat.one_pos
    obtain ⟨y, hmem, hin⟩ := List.countP_pos_iff.mp hpos
    obtain ⟨u, hu⟩ := List.getElem?_of_mem hmem
    cases y with
    | run q => cases hin
    | inCall q z =>
      cases z with
      | exchange z => cases hin
      | spin z => cases hin
      | locked z =>
        obtain ⟨⟨f, hf, hof⟩, -⟩ := ha.fits u _ hu
        obtain ⟨l', ok, halone, hok⟩ | ⟨l', z', halone, hfree⟩ :=
          ends_locked (t := u) (l := c.shared.lock) hof
        · obtain ⟨d, hrun, -, hd, -⟩ := halone.run ch rfl hend hu
          exact ⟨d, u, q, _, f, ok, hu, hf, hrun, hd, hok⟩
        · -- the thread tries again; then nobody is in a section
          obtain ⟨d, hrun, hs, hd, hother⟩ := halone.run ch rfl hend hu
          have had : Accounts P d := accounts start (h.append hrun.free)
          have hidle : ∀ p, .run p ∈ d.threads → P.mode p = .out := by
            intro p hp
            obtain ⟨v, hv⟩ := List.getElem?_of_mem hp
            by_cases hvu : v = u
            · rw [hvu, hd] at hv
              cases hv
            · rw [hother v hvu] at hv
              exact idle p (List.mem_of_getElem? hv)
          obtain ⟨v, q', z'', f', hz, hq, l'', ok, halone', hok⟩ :=
            someone_returns had (by rw [hs]; exact hfree) hidle hd
          obtain ⟨e, hrun', -, he, -⟩ := halone'.run ch rfl (by rw [hs]; exact hend) hz
          have hv : ∃ z, c.threads[v]? = some (.inCall q' z) := by
            by_cases hvu : v = u
            · rw [hvu, hd] at hz
              cases hz
              exact ⟨_, hvu ▸ hu⟩
            · exact ⟨z'', by rw [← hother v hvu]; exact hz⟩
          obtain ⟨z₀, hz₀⟩ := hv
          exact ⟨e, v, q', z₀, f', ok, hz₀, hq, hrun.append hrun', he, hok⟩

/-- Two threads want to write: one is in its section, the other one spins. -/
theorem some_call_returns_of_two : ∃ tr c,
    Machine.Free (overRwlock manager) (guardedStart (initial 2)) tr c ∧ c.shared.lock.mtx = true ∧
      ∃ (d : Config (Guarded Shared) (Point Thread)) (u : Tid) (q : Thread) (ok : Bool),
        Machine.Run (overRwlock manager) InCall c [] d ∧
          d.threads[u]? = some (.run (manager.resume q ok)) := by
  obtain ⟨tr, c, hrun, hP⟩ := Machine.exists_run (M := overRwlock manager) (g := fun _ _ => true)
    (c := guardedStart (initial 2)) (createUpToLock 0 0 ++ steps 0 4 ++ createUpToLock 1 1 ++ steps 1 2)
    (fun r => decide (r.1.shared.lock.mtx = true ∧ r.1.shared.mem.aborted = false ∧
      r.1.threads = [.inCall (.call .user (.wrlock 0)) (.locked (.testNoWriter false)),
        .inCall (.call .user (.wrlock 1)) (.spin .incWPending)])) (by decide +kernel)
  obtain ⟨hm, hend, hth⟩ := of_decide_eq_true hP
  have idle : ∀ p, .run p ∈ c.threads → manager.mode p = .out := by
    intro p hp
    rw [hth] at hp
    simp at hp
  obtain ⟨d, u, q, -, -, ok, -, -, hd, hu, -⟩ := some_call_returns manager .go _ tr c 0 _ _
    (initial_out 2) hrun.free hend idle (by rw [hth]; rfl)
  exact ⟨tr, c, hrun.free, hm, d, u, q, ok, hd, hu⟩

end Runs
end PthreadWorkqueue.Windows
