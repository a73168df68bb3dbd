import PthreadWorkqueue.Windows.RwlockInvariant

/-! The lock is atomic for every program: a call takes effect in one step of its section, and what the
program does over the functions of the lock it does over the atomic lock. -/
namespace PthreadWorkqueue.Windows
open Concurrency
open Posix (Tid atomicDec)

variable {σ π χ ε : Type} (P : RwClient σ π χ ε)

namespace Point

/-- The thread has said that it wants to write, and has not become the writer. -/
def waiting : Point π → Bool
  | .run _ => false
  | .inCall p x => x.pends || (x == .locked .incWCt && P.calls p == some .wrlock)

/-- The point as the atomic lock has it. -/
def seen : Point π → RwPoint π
  | .run p => .run p
  | .inCall p x =>
    if x.done then .run (P.resume p true)
    else if x = .locked (.leave false) then .run (P.resume p false)
    else if waiting P (.inCall p x) then .waits p
    else .run p

end Point

/-- The state as the atomic lock has it. -/
def seen (c : Config (Guarded σ) (Point π)) : Config (RwState σ) (RwPoint π) :=
  ⟨⟨c.shared.mem, c.shared.lock.rCt, decide (c.shared.lock.wCt ≠ 0), c.number (Point.waiting P)⟩,
    c.threads.map (Point.seen P)⟩

/-- What a step is over the atomic lock: a step of the same thread, or nothing. -/
inductive Seen (c : Config (Guarded σ) (Point π)) (t : Tid) (y : Point π) (ch : χ)
    (o : Outcome (Guarded σ) (Point π) ε) : Prop where
  | step : (∀ q, y.seen P = .run q → P.calls q = none → y = .run q) →
      P.atomic (seen P c).shared t (y.seen P) ch =
      some ⟨(seen P (o.apply c t)).shared, o.pc.seen P, o.spawned.map (Point.seen P), o.events⟩ →
      Seen c t y ch o
  | stutter : (seen P (o.apply c t)).shared = (seen P c).shared → o.pc.seen P = y.seen P →
      o.spawned = [] → o.events = [] → Seen c t y ch o

variable {P} {c : Config (Guarded σ) (Point π)} {t : Tid} {y : Point π} {ch : χ} {p : π} {x : RwlockPc}
  {o : Outcome (Guarded σ) (Point π) ε} {f : RwCall}

section Call

theorem waiting_inCall (h : P.calls p = some f) :
    (Point.inCall p x).waiting P = (x.pends || (x == .locked .incWCt && f == .wrlock)) := by
  rw [Point.waiting, h]
  rfl

theorem seen_inCall (h : P.calls p = some f) :
    (Point.inCall p x).seen P =
      if x.done then .run (P.resume p true)
      else if x = .locked (.leave false) then .run (P.resume p false)
      else if x.pends || (x == .locked .incWCt && f == .wrlock) then .waits p
      else .run p := by
  rw [Point.seen, waiting_inCall h]

/-- The atomic lock after a step in a call. -/
theorem seen_callStep (hy : c.threads[t]? = some y) {w : Bool}
    (hw : (Point.after P p (rwlockNext c.shared.lock t x).2).waiting P = w) :
    ∃ n, n + (y.waiting P).toNat = c.number (Point.waiting P) + w.toNat ∧
      (seen P ((callStep (ε := ε) P c.shared t p x).apply c t)).shared =
        ⟨c.shared.mem, (rwlockNext c.shared.lock t x).1.rCt,
          decide ((rwlockNext c.shared.lock t x).1.wCt ≠ 0), n⟩ := by
  have hnum := Outcome.number_apply (P := Point.waiting P) (o := callStep (ε := ε) P c.shared t p x) hy
    (by simp [callStep])
  refine ⟨_, ?_, rfl⟩
  rw [hnum, ← hw]
  rfl

/-- A step in a call that the atomic lock does not see. -/
theorem seen_stays (hy : c.threads[t]? = some (.inCall p x))
    (hr : (rwlockNext c.shared.lock t x).1.rCt = c.shared.lock.rCt)
    (hw : (rwlockNext c.shared.lock t x).1.wCt = c.shared.lock.wCt)
    (hwait : (Point.after P p (rwlockNext c.shared.lock t x).2).waiting P = (Point.inCall p x).waiting P)
    (hseen : (Point.after P p (rwlockNext c.shared.lock t x).2).seen P = (Point.inCall p x).seen P) :
    Seen P c t (.inCall p x) ch (callStep P c.shared t p x) := by
  obtain ⟨n, hn, hs⟩ := seen_callStep (ε := ε) hy hwait
  refine .stutter ?_ hseen rfl rfl
  rw [hs, hr, hw, Nat.add_right_cancel hn]
  rfl

theorem seen_exchange {q : SectionPc} (h : Here P c.shared.lock t p (.exchange q) f)
    (hy : c.threads[t]? = some (.inCall p (.exchange q))) :
    Seen P c t (.inCall p (.exchange q)) ch (callStep P c.shared t p (.exchange q)) := by
  have hb : q.begins = true := (Bool.and_eq_true_iff.mp h.belongs).1
  cases hm : c.shared.lock.mtx with
  | true => apply seen_stays hy <;> rw [exchange_busy hm] <;> rfl
  | false =>
    apply seen_stays hy <;> rw [exchange_free hm]
    all_goals cases q <;> cases hb <;> rfl

theorem seen_spin {q : SectionPc} (hy : c.threads[t]? = some (.inCall p (.spin q))) :
    Seen P c t (.inCall p (.spin q)) ch (callStep P c.shared t p (.spin q)) := by
  cases hm : c.shared.lock.mtx with
  | true => apply seen_stays hy <;> rw [spin_busy hm] <;> rfl
  | false => apply seen_stays hy <;> rw [spin_free hm] <;> rfl

/-- A step in a call in which the atomic lock carries out the call, or a part of it. -/
theorem seen_effect {w : Bool} (hy : c.threads[t]? = some (.inCall p x)) (hf : P.calls p = some f)
    (hd : x.done = false) (hl : x ≠ .locked (.leave false))
    (hw : (Point.after P p (rwlockNext c.shared.lock t x).2).waiting P = w)
    (h : ∀ n, n + ((Point.inCall p x).waiting P).toNat = c.number (Point.waiting P) + w.toNat →
      P.atomic (seen P c).shared t ((Point.inCall p x).seen P) ch =
        some ⟨⟨c.shared.mem, (rwlockNext c.shared.lock t x).1.rCt,
          decide ((rwlockNext c.shared.lock t x).1.wCt ≠ 0), n⟩,
          (Point.after P p (rwlockNext c.shared.lock t x).2).seen P, [], []⟩) :
    Seen P c t (.inCall p x) ch (callStep P c.shared t p x) := by
  obtain ⟨n, hn, hs⟩ := seen_callStep (ε := ε) hy hw
  refine .step (fun q hq hnone => ?_) ?_
  · rw [Point.seen, hd, if_neg Bool.false_ne_true, if_neg hl] at hq
    split at hq <;> cases hq
    cases hf.symm.trans hnone
  · rw [hs]
    exact h n hn

theorem atomic_call {s : RwState σ} (hend : P.ended s.mem = false) (hf : P.calls p = some f) :
    P.atomic s t (.run p) ch = P.call s p f := by
  simp only [RwClient.atomic, hend, if_true, hf]

/-- When a reader is admitted nobody waits to write. -/
theorem no_waiting (ha : Accounts P c) (hy : c.threads[t]? = some (.inCall p (.locked .incRCt)))
    (hw : c.shared.lock.wPending = 0) : c.number (Point.waiting P) = 0 := by
  refine List.countP_eq_zero.mpr fun r hr hwait => ?_
  obtain ⟨u, hu⟩ := List.getElem?_of_mem hr
  cases r with
  | run q => cases hwait
  | inCall q z =>
    obtain hp | hz := Bool.or_eq_true_iff.mp hwait
    · have hpos : 0 < c.number Point.pends := List.countP_pos_iff.mpr ⟨_, hr, hp⟩
      rw [← ha.pending] at hpos
      omega
    · have hz' : z = .locked .incWCt := eq_of_beq (Bool.and_eq_true_iff.mp hz).1
      subst hz'
      have hut := Config.unique_of_number_le_one (ha.busy ▸ Bool.toNat_le _) hy rfl hu rfl
      rw [hut, hy] at hu
      cases hu

theorem seen_incRCt (hend : P.ended c.shared.mem = false) (ha : Accounts P c)
    (h : Here P c.shared.lock t p (.locked .incRCt) f)
    (hy : c.threads[t]? = some (.inCall p (.locked .incRCt))) :
    Seen P c t (.inCall p (.locked .incRCt)) ch (callStep P c.shared t p (.locked .incRCt)) := by
  obtain ⟨hw, hp⟩ := h.knows
  have hzero := no_waiting ha hy hp
  refine seen_effect hy h.calls rfl (by simp) rfl fun n hn => ?_
  have hseen : (Point.inCall p (.locked .incRCt)).seen P = .run p := rfl
  have hn' : n = c.number (Point.waiting P) := hn
  have hgives : f = .rdlock ∨ f = .tryrdlock := by
    have := h.belongs
    cases f <;> first | exact .inl rfl | exact .inr rfl | cases this
  have hopen : (seen P c).shared.writer = false ∧ (seen P c).shared.pending = 0 :=
    ⟨by simp [seen, hw], hzero⟩
  rw [hseen, atomic_call hend h.calls, hn']
  obtain rfl | rfl := hgives <;> simp only [RwClient.call, if_pos hopen] <;> rfl

theorem seen_incWCt (hend : P.ended c.shared.mem = false)
    (h : Here P c.shared.lock t p (.locked .incWCt) f)
    (hy : c.threads[t]? = some (.inCall p (.locked .incWCt))) :
    Seen P c t (.inCall p (.locked .incWCt)) ch (callStep P c.shared t p (.locked .incWCt)) := by
  obtain ⟨hr, hw⟩ := h.knows
  refine seen_effect hy h.calls rfl (by simp) rfl fun n hn => ?_
  have hone : incByte c.shared.lock.wCt = 1 := by rw [hw]; rfl
  have hgives : f = .wrlock ∨ f = .trywrlock := by
    have := h.belongs
    cases f <;> first | exact .inl rfl | exact .inr rfl | cases this
  have hopen : (seen P c).shared.readers = 0 ∧ (seen P c).shared.writer = false :=
    ⟨hr, by simp [seen, hw]⟩
  have hwrites : decide ((rwlockNext c.shared.lock t (.locked .incWCt)).1.wCt ≠ 0) = true := by
    simp only [rwlockNext, hone]; rfl
  rw [waiting_inCall h.calls] at hn
  rw [seen_inCall h.calls, hwrites]
  obtain rfl | rfl := hgives
  · have hn' : n = c.number (Point.waiting P) - 1 := Nat.eq_sub_of_add_eq hn
    have hseen : P.atomic (seen P c).shared t (.waits p) ch =
        some ⟨{ (seen P c).shared with pending := (seen P c).shared.pending - 1, writer := true },
          .run (P.resume p true), [], []⟩ := by
      simp only [RwClient.atomic, if_pos hopen]
      exact if_pos hend
    rw [hn']
    exact hseen
  · have hn' : n = c.number (Point.waiting P) := hn
    have hseen : P.atomic (seen P c).shared t (.run p) ch =
        some ⟨{ (seen P c).shared with writer := true }, .run (P.resume p true), [], []⟩ := by
      rw [atomic_call hend h.calls, RwClient.call, if_pos hopen]
    rw [hn']
    exact hseen

theorem seen_decRCt (hend : P.ended c.shared.mem = false)
    (h : Here P c.shared.lock t p (.locked .decRCt) f)
    (hy : c.threads[t]? = some (.inCall p (.locked .decRCt))) :
    Seen P c t (.inCall p (.locked .decRCt)) ch (callStep P c.shared t p (.locked .decRCt)) := by
  have hf : f = .unlock := eq_of_beq h.belongs
  subst hf
  have hread : P.mode p = .read := h.knows
  have hpos : 0 < c.shared.lock.rCt := by
    have := h.readers
    rw [Point.reads, mode_inCall h.calls, hread] at this
    exact this
  refine seen_effect hy h.calls rfl (by simp) rfl fun n hn => ?_
  have hn' : n = c.number (Point.waiting P) := hn
  have hseen : (Point.inCall p (.locked .decRCt)).seen P = .run p := rfl
  have hdec : (rwlockNext c.shared.lock t (.locked .decRCt)).1.rCt = c.shared.lock.rCt - 1 :=
    if_neg (Nat.ne_of_gt hpos)
  rw [hseen, atomic_call hend h.calls, hn', hdec, RwClient.call, hread]
  rfl

theorem seen_decWCt (hend : P.ended c.shared.mem = false)
    (h : Here P c.shared.lock t p (.locked .decWCt) f)
    (hy : c.threads[t]? = some (.inCall p (.locked .decWCt))) :
    Seen P c t (.inCall p (.locked .decWCt)) ch (callStep P c.shared t p (.locked .decWCt)) := by
  have hf : f = .unlock := eq_of_beq h.belongs
  subst hf
  have hwrite : P.mode p = .write := h.knows
  have hone : c.shared.lock.wCt = 1 := by
    have := h.writers
    rw [Point.writes, mode_inCall h.calls, hwrite] at this
    exact Nat.le_antisymm h.single this
  refine seen_effect hy h.calls rfl (by simp) rfl fun n hn => ?_
  have hn' : n = c.number (Point.waiting P) := hn
  have hseen : (Point.inCall p (.locked .decWCt)).seen P = .run p := rfl
  have hdec : decide ((rwlockNext c.shared.lock t (.locked .decWCt)).1.wCt ≠ 0) = false := by
    simp only [rwlockNext, hone]; rfl
  rw [hseen, atomic_call hend h.calls, hn', hdec, RwClient.call, hwrite]
  rfl

theorem seen_incWPending (hend : P.ended c.shared.mem = false)
    (h : Here P c.shared.lock t p (.locked .incWPending) f)
    (hy : c.threads[t]? = some (.inCall p (.locked .incWPending))) :
    Seen P c t (.inCall p (.locked .incWPending)) ch (callStep P c.shared t p (.locked .incWPending)) := by
  have hf : f = .wrlock := eq_of_beq h.belongs
  subst hf
  refine seen_effect hy h.calls rfl (by simp) rfl fun n hn => ?_
  have hn' : n = c.number (Point.waiting P) + 1 := hn
  have hseen : (Point.inCall p (.locked .incWPending)).seen P = .run p := rfl
  rw [hseen, atomic_call hend h.calls, hn']
  rfl

/-- The `try` variant of a reader is refused. -/
theorem seen_refuseRead {q : SectionPc} (hend : P.ended c.shared.mem = false)
    (hf : P.calls p = some .tryrdlock) (hy : c.threads[t]? = some (.inCall p (.locked q)))
    (hp : q.pends = false) (hd : (RwlockPc.locked q).done = false) (hq : q ≠ .leave false)
    (hn : rwlockNext c.shared.lock t (.locked q) =
      (c.shared.lock, .inl (.locked (.leave false))))
    (hclosed : ¬ ((seen P c).shared.writer = false ∧ (seen P c).shared.pending = 0)) :
    Seen P c t (.inCall p (.locked q)) ch (callStep P c.shared t p (.locked q)) := by
  have hwait : (Point.inCall p (.locked q)).waiting P = false := by
    rw [waiting_inCall hf, RwlockPc.pends, hp]
    exact Bool.and_false _
  have hseen : (Point.inCall p (.locked q)).seen P = .run p := by
    rw [Point.seen, hd, if_neg Bool.false_ne_true, if_neg (by simpa using hq), hwait,
      if_neg Bool.false_ne_true]
  refine seen_effect (w := false) hy hf hd (by simpa using hq) (by rw [hn]; rfl) fun n hnum => ?_
  rw [hwait] at hnum
  have hn' : n = c.number (Point.waiting P) := hnum
  rw [hseen, atomic_call hend hf, hn, hn', RwClient.call, if_neg hclosed]
  rfl

theorem seen_refuseWrite {q : SectionPc} (hend : P.ended c.shared.mem = false)
    (hf : P.calls p = some .trywrlock) (hy : c.threads[t]? = some (.inCall p (.locked q)))
    (hp : q.pends = false) (hd : (RwlockPc.locked q).done = false) (hq : q ≠ .leave false)
    (hn : rwlockNext c.shared.lock t (.locked q) =
      (c.shared.lock, .inl (.locked (.leave false))))
    (hclosed : ¬ ((seen P c).shared.readers = 0 ∧ (seen P c).shared.writer = false)) :
    Seen P c t (.inCall p (.locked q)) ch (callStep P c.shared t p (.locked q)) := by
  have hwait : (Point.inCall p (.locked q)).waiting P = false := by
    rw [waiting_inCall hf, RwlockPc.pends, hp]
    exact Bool.and_false _
  have hseen : (Point.inCall p (.locked q)).seen P = .run p := by
    rw [Point.seen, hd, if_neg Bool.false_ne_true, if_neg (by simpa using hq), hwait,
      if_neg Bool.false_ne_true]
  refine seen_effect (w := false) hy hf hd (by simpa using hq) (by rw [hn]; rfl) fun n hnum => ?_
  rw [hwait] at hnum
  have hn' : n = c.number (Point.waiting P) := hnum
  rw [hseen, atomic_call hend hf, hn, hn', RwClient.call, if_neg hclosed]
  rfl

/-- The writers that wait are among those that the atomic lock has. -/
theorem pending_le (ha : Accounts P c) : c.shared.lock.wPending ≤ (seen P c).shared.pending := by
  rw [ha.pending]
  refine List.countP_mono_left fun y _ hy => ?_
  cases y with
  | run q => cases hy
  | inCall q z => exact Bool.or_eq_true_iff.mpr (.inl hy)

theorem seen_testWCt {tries : Bool} (hend : P.ended c.shared.mem = false)
    (h : Here P c.shared.lock t p (.locked (.testWCt tries)) f)
    (hy : c.threads[t]? = some (.inCall p (.locked (.testWCt tries)))) :
    Seen P c t (.inCall p (.locked (.testWCt tries))) ch
      (callStep P c.shared t p (.locked (.testWCt tries))) := by
  have hf : f = if tries then .tryrdlock else .rdlock := eq_of_beq h.belongs
  have hc := h.calls
  rw [hf] at hc
  by_cases hw : 0 < c.shared.lock.wCt
  · have hn : rwlockNext c.shared.lock t (.locked (.testWCt tries)) =
        (c.shared.lock, .inl (.locked (refuse tries .retryRead))) := by
      simp only [rwlockNext, if_pos hw]
    cases tries with
    | true =>
      refine seen_refuseRead hend hc hy rfl rfl (fun h => by cases h) hn fun hopen => ?_
      have := of_decide_eq_false hopen.1
      omega
    | false => apply seen_stays hy <;> rw [hn] <;> rfl
  · have hn : rwlockNext c.shared.lock t (.locked (.testWCt tries)) =
        (c.shared.lock, .inl (.locked (.testWPending tries))) := by
      simp only [rwlockNext, if_neg hw]
    apply seen_stays hy <;> rw [hn] <;> rfl

theorem seen_testWPending {tries : Bool} (hend : P.ended c.shared.mem = false) (ha : Accounts P c)
    (h : Here P c.shared.lock t p (.locked (.testWPending tries)) f)
    (hy : c.threads[t]? = some (.inCall p (.locked (.testWPending tries)))) :
    Seen P c t (.inCall p (.locked (.testWPending tries))) ch
      (callStep P c.shared t p (.locked (.testWPending tries))) := by
  have hf : f = if tries then .tryrdlock else .rdlock := eq_of_beq h.belongs
  have hc := h.calls
  rw [hf] at hc
  by_cases hw : c.shared.lock.wPending = 0
  · have hn : rwlockNext c.shared.lock t (.locked (.testWPending tries)) =
        (c.shared.lock, .inl (.locked .incRCt)) := by
      simp only [rwlockNext, hw, ne_eq, not_true_eq_false, if_false]
    apply seen_stays hy <;> rw [hn] <;> rfl
  · have hn : rwlockNext c.shared.lock t (.locked (.testWPending tries)) =
        (c.shared.lock, .inl (.locked (refuse tries .retryRead))) := by
      simp only [rwlockNext, if_pos hw]
    cases tries with
    | true =>
      refine seen_refuseRead hend hc hy rfl rfl (fun h => by cases h) hn fun hopen => ?_
      have := pending_le ha
      omega
    | false => apply seen_stays hy <;> rw [hn] <;> rfl

theorem seen_testRCt {tries : Bool} (hend : P.ended c.shared.mem = false)
    (h : Here P c.shared.lock t p (.locked (.testRCt tries)) f)
    (hy : c.threads[t]? = some (.inCall p (.locked (.testRCt tries)))) :
    Seen P c t (.inCall p (.locked (.testRCt tries))) ch
      (callStep P c.shared t p (.locked (.testRCt tries))) := by
  have hf : f = if tries then .trywrlock else .wrlock := eq_of_beq h.belongs
  have hc := h.calls
  rw [hf] at hc
  by_cases hr : 0 < c.shared.lock.rCt
  · have hn : rwlockNext c.shared.lock t (.locked (.testRCt tries)) =
        (c.shared.lock, .inl (.locked (refuse tries .retryWrite))) := by
      simp only [rwlockNext, if_pos hr]
    cases tries with
    | true =>
      refine seen_refuseWrite hend hc hy rfl rfl (fun h => by cases h) hn fun hopen => ?_
      have : c.shared.lock.rCt = 0 := hopen.1
      omega
    | false => apply seen_stays hy <;> rw [hn] <;> rfl
  · have hn : rwlockNext c.shared.lock t (.locked (.testRCt tries)) =
        (c.shared.lock, .inl (.locked (.testNoWriter tries))) := by
      simp only [rwlockNext, if_neg hr]
    apply seen_stays hy <;> rw [hn] <;> rfl

theorem seen_testNoWriter {tries : Bool} (hend : P.ended c.shared.mem = false)
    (h : Here P c.shared.lock t p (.locked (.testNoWriter tries)) f)
    (hy : c.threads[t]? = some (.inCall p (.locked (.testNoWriter tries)))) :
    Seen P c t (.inCall p (.locked (.testNoWriter tries))) ch
      (callStep P c.shared t p (.locked (.testNoWriter tries))) := by
  have hf : f = if tries then .trywrlock else .wrlock := eq_of_beq h.belongs
  have hc := h.calls
  rw [hf] at hc
  by_cases hw : 0 < c.shared.lock.wCt
  · have hn : rwlockNext c.shared.lock t (.locked (.testNoWriter tries)) =
        (c.shared.lock, .inl (.locked (refuse tries .retryWrite))) := by
      simp only [rwlockNext, if_pos hw]
    cases tries with
    | true =>
      refine seen_refuseWrite hend hc hy rfl rfl (fun h => by cases h) hn fun hopen => ?_
      have := of_decide_eq_false hopen.2
      omega
    | false => apply seen_stays hy <;> rw [hn] <;> rfl
  · have hn : rwlockNext c.shared.lock t (.locked (.testNoWriter tries)) =
        (c.shared.lock, .inl (.locked (if tries then .incWCt else .decWPending))) := by
      simp only [rwlockNext, if_neg hw]
    cases tries with
    | true =>
      apply seen_stays hy <;> rw [hn]
      · change (Point.inCall p (.locked .incWCt)).waiting P = _
        rw [waiting_inCall hc, waiting_inCall hc]
        rfl
      · change (Point.inCall p (.locked .incWCt)).seen P = _
        rw [seen_inCall hc, seen_inCall hc]
        rfl
    | false => apply seen_stays hy <;> rw [hn] <;> rfl

theorem seen_locked {q : SectionPc} (hend : P.ended c.shared.mem = false) (ha : Accounts P c)
    (h : Here P c.shared.lock t p (.locked q) f)
    (hy : c.threads[t]? = some (.inCall p (.locked q))) :
    Seen P c t (.inCall p (.locked q)) ch (callStep P c.shared t p (.locked q)) := by
  cases q with
  | testWCt tries => exact seen_testWCt hend h hy
  | testWPending tries => exact seen_testWPending hend ha h hy
  | incRCt => exact seen_incRCt hend ha h hy
  | incWPending => exact seen_incWPending hend h hy
  | testRCt tries => exact seen_testRCt hend h hy
  | testNoWriter tries => exact seen_testNoWriter hend h hy
  | decWPending =>
    have hf : f = .wrlock := eq_of_beq h.belongs
    subst hf
    refine seen_stays hy rfl rfl ?_ ?_
    · change (Point.inCall p (.locked .incWCt)).waiting P = _
      rw [waiting_inCall h.calls, waiting_inCall h.calls]
      rfl
    · change (Point.inCall p (.locked .incWCt)).seen P = _
      rw [seen_inCall h.calls, seen_inCall h.calls]
      rfl
  | incWCt => exact seen_incWCt hend h hy
  | setWId => exact seen_stays hy rfl rfl rfl rfl
  | testWId =>
    have hn : ∃ q', (q' = .clearWId ∨ q' = .decRCt) ∧
        rwlockNext c.shared.lock t (.locked .testWId) = (c.shared.lock, .inl (.locked q')) := by
      by_cases hw : c.shared.lock.wId = some t
      · exact ⟨.clearWId, .inl rfl, by simp only [rwlockNext, if_pos hw]⟩
      · exact ⟨.decRCt, .inr rfl, by simp only [rwlockNext, if_neg hw]⟩
    obtain ⟨q', rfl | rfl, hn⟩ := hn <;> apply seen_stays hy <;> rw [hn] <;> rfl
  | clearWId => exact seen_stays hy rfl rfl rfl rfl
  | decWCt => exact seen_decWCt hend h hy
  | decRCt => exact seen_decRCt hend h hy
  | retryRead => exact seen_stays hy rfl rfl rfl rfl
  | retryWrite => exact seen_stays hy rfl rfl rfl rfl
  | leave ok => cases ok <;> exact seen_stays hy rfl rfl rfl rfl

end Call

section Runs
variable {c₀ : Config σ π} {G : Config (Guarded σ) (Point π) → Nat × χ → Prop} {tr : List ε}

/-- Every step is one over the atomic lock, or nothing. -/
theorem seen_step (hend : P.ended c.shared.mem = false) (ha : Accounts P c)
    (hy : c.threads[t]? = some y) (hs : OverStep P c.shared t ch y o) : Seen P c t y ch o := by
  cases hs with
  | @next p o hp ho =>
    refine .step (fun q hq _ => congrArg Point.run (RwPoint.run.inj hq)) ?_
    have hnum := Outcome.number_apply (P := Point.waiting P)
      (o := RwClient.lift (fun m => { c.shared with mem := m }) .run o) hy fun r hr => by
        obtain ⟨q, -, rfl⟩ := List.mem_map.mp hr
        rfl
    have hsame : ((RwClient.lift (fun m => { c.shared with mem := m }) Point.run o).apply c t).number
        (Point.waiting P) = c.number (Point.waiting P) := hnum
    have hseen : (Point.run p).seen P = .run p := rfl
    rw [hseen]
    simp only [RwClient.atomic, hp, seen, hsame]
    rw [if_pos hend, ho]
    simp only [Option.map_some, RwClient.lift, List.map_map]
    rfl
  | @enter p f hf =>
    have hnum := Outcome.number_apply (P := Point.waiting P)
      (o := (⟨c.shared, .inCall p (entry f), [], []⟩ : Outcome (Guarded σ) (Point π) ε)) hy (by simp)
    have hw : (Point.inCall p (entry f)).waiting P = false := by cases f <;> rfl
    refine .stutter ?_ (by cases f <;> rfl) rfl rfl
    have hsame : ((⟨c.shared, .inCall p (entry f), [], []⟩ : Outcome (Guarded σ) (Point π) ε).apply c
        t).number (Point.waiting P) = c.number (Point.waiting P) := by
      rw [hw] at hnum
      exact hnum
    simp only [seen, hsame]
    rfl
  | @inCall p x =>
    obtain ⟨f, hhere⟩ := ha.here hy
    cases x with
    | exchange q => exact seen_exchange hhere hy
    | spin q => exact seen_spin hy
    | locked q => exact seen_locked hend ha hhere hy

theorem seen_start : seen P (guardedStart c₀) = RwClient.atomicStart c₀ := by
  have hnone : (guardedStart c₀).number (Point.waiting P) = 0 := by
    refine List.countP_eq_zero.mpr fun y hy => ?_
    obtain ⟨p, -, rfl⟩ := List.mem_map.mp hy
    exact Bool.false_ne_true
  rw [seen, hnone, RwClient.atomicStart, guardedStart, List.map_map]
  rfl

/-- The run lemma: what the program does itself, it does over the atomic lock in the same memory. -/
theorem seen_run {A : σ → π → Prop} (start : ∀ p ∈ c₀.threads, P.mode p = .out)
    (hG : ∀ c l, G c l → ∀ p, c.threads[l.1]? = some (.run p) → A c.shared.mem p)
    (h : Machine.Run (overRwlock P) G (guardedStart c₀) tr c) :
    Machine.Run P.atomic (P.meets A) (RwClient.atomicStart c₀) tr (seen P c) := by
  refine h.invariant
    (fun tr c => Machine.Run P.atomic (P.meets A) (RwClient.atomicStart c₀) tr (seen P c)) ?_ ?_
  · rw [seen_start]
    exact .start
  · intro tr c l y o hr ih hg mv
    obtain ⟨hend, hs⟩ := overRwlock_cases mv.next
    have hget : (seen P c).threads[l.1]? = some (y.seen P) := by
      simp only [seen, List.getElem?_map, mv.here, Option.map_some]
    have hthreads : (seen P (o.apply c l.1)).threads =
        (seen P c).threads.set l.1 (o.pc.seen P) ++ o.spawned.map (Point.seen P) := by
      simp only [seen, Outcome.apply, List.map_append, List.map_set]
    obtain ⟨hown, hstep⟩ | ⟨hshared, hpc, hspawned, hevents⟩ :=
      seen_step hend (accounts start hr) mv.here hs
    · have hmeets : P.meets A (seen P c) l := fun q hq hnone => by
        rw [hget, Option.some.injEq] at hq
        exact hG c l hg q (mv.here.trans (congrArg some (hown q hq hnone)))
      exact .step ih hmeets (Machine.step_eq_some.mpr ⟨_, _, ⟨hget, hstep⟩,
        (Config.mk.injEq ..).mpr ⟨rfl, hthreads⟩, rfl⟩)
    · have hsame : seen P (o.apply c l.1) = seen P c := by
        have hths : (seen P (o.apply c l.1)).threads = (seen P c).threads := by
          rw [hthreads, hpc, hspawned, List.map_nil, List.append_nil]
          obtain ⟨hlt, hval⟩ := List.getElem?_eq_some_iff.mp hget
          rw [← hval, List.set_getElem_self]
        exact (Config.mk.injEq ..).mpr ⟨hshared, hths⟩
      rw [hevents, List.append_nil, hsame]
      exact ih

/-- What a program does over the functions of the lock, whatever the order of the steps, it does over
the atomic lock: with the same events, and with the same memory and the same threads in the end. -/
theorem rwlock_refines_atomic (P : RwClient σ π χ ε) (c₀ : Config σ π) (tr : List ε)
    (c : Config (Guarded σ) (Point π)) (start : ∀ p ∈ c₀.threads, P.mode p = .out)
    (h : Machine.Free (overRwlock P) (guardedStart c₀) tr c) :
    Machine.Free P.atomic (RwClient.atomicStart c₀) tr (seen P c) :=
  (seen_run (A := fun _ _ => True) start (fun _ _ _ _ _ => trivial) h).free

/-- Two threads create a queue each; the second one waits for the first. -/
theorem rwlock_refines_atomic_of_two : ∃ tr c,
    Machine.Free (overRwlock manager) (guardedStart (initial 2)) tr c ∧
      c.shared.mem.handles = [0, 1] ∧
      Machine.Free manager.atomic (RwClient.atomicStart (initial 2)) tr (seen manager c) := by
  obtain ⟨tr, c, hrun, hP⟩ := Machine.exists_run (M := overRwlock manager) (g := fun _ _ => true)
    (c := guardedStart (initial 2)) (createUpToLock 0 0 ++ steps 0 9 ++ createUpToLock 1 1 ++
      steps 1 6 ++ steps 0 8 ++ steps 1 15)
    (fun r => decide (r.1.shared.mem.handles = [0, 1])) (by decide +kernel)
  exact ⟨tr, c, hrun.free, of_decide_eq_true hP,
    rwlock_refines_atomic manager _ tr c (initial_out 2) hrun.free⟩

end Runs
end PthreadWorkqueue.Windows
