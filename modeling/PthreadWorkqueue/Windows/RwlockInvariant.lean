import PthreadWorkqueue.Windows.Rwlock

/-! What the fields of the lock count: the threads that have it, those that wait to write and the one
that is in a section of its spin lock. -/
namespace PthreadWorkqueue.Windows
open Concurrency
open Posix (Tid atomicDec)

/-- The points at which a section begins. -/
def SectionPc.begins : SectionPc → Bool
  | .testWCt _ | .incWPending | .testRCt _ | .testWId => true
  | _ => false

/-- The points of a function. -/
def SectionPc.of (f : RwCall) : SectionPc → Bool
  | .testWCt tries | .testWPending tries => f == if tries then .tryrdlock else .rdlock
  | .testRCt tries | .testNoWriter tries => f == if tries then .trywrlock else .wrlock
  | .incRCt => f.gives == .read
  | .incWCt | .setWId => f.gives == .write
  | .retryRead => f == .rdlock
  | .incWPending | .decWPending | .retryWrite => f == .wrlock
  | .testWId | .clearWId | .decWCt | .decRCt => f == .unlock
  | .leave ok => ok || f.tries

/-- Between `w_pending++` and `w_pending--`. -/
def SectionPc.pends : SectionPc → Bool
  | .testRCt tries | .testNoWriter tries => !tries
  | .retryWrite | .decWPending => true
  | _ => false

/-- What the tests of the section have shown; `m` is what the thread has of the lock. -/
def SectionPc.knows (l : Rwlock) (m : RwMode) : SectionPc → Prop
  | .testWPending _ => l.wCt = 0
  | .incRCt => l.wCt = 0 ∧ l.wPending = 0
  | .testNoWriter _ => l.rCt = 0
  | .decWPending | .incWCt => l.rCt = 0 ∧ l.wCt = 0
  | .clearWId | .decWCt => m = .write
  | .decRCt => m = .read
  | _ => True

namespace RwlockPc

def of (f : RwCall) : RwlockPc → Bool
  | .exchange q | .spin q => q.begins && q.of f
  | .locked q => q.of f

/-- The thread has the spin lock. -/
def inside : RwlockPc → Bool
  | .locked _ => true
  | _ => false

/-- The call has had its effect. -/
def done : RwlockPc → Bool
  | .locked .setWId | .locked (.leave true) => true
  | _ => false

def pends : RwlockPc → Bool
  | .exchange q | .spin q | .locked q => q.pends

def knows (l : Rwlock) (m : RwMode) : RwlockPc → Prop
  | .locked q => q.knows l m
  | _ => True

end RwlockPc

namespace Point
variable {σ π χ ε : Type} (P : RwClient σ π χ ε)

/-- What the thread has of the lock. -/
def mode : Point π → RwMode
  | .run p => P.mode p
  | .inCall p x => if x.done then ((P.calls p).map RwCall.gives).getD .out else P.mode p

def reads (y : Point π) : Bool := y.mode P == .read
def writes (y : Point π) : Bool := y.mode P == .write

/-- A writer whose number is not in `w_id`: not yet, or no longer. -/
def unnamed : Point π → Bool
  | .inCall _ (.locked .setWId) | .inCall _ (.locked .decWCt) => true
  | _ => false

/-- The writer whose number is in `w_id`. -/
def named (y : Point π) : Bool := y.writes P && !y.unnamed

def inside : Point π → Bool
  | .run _ => false
  | .inCall _ x => x.inside

def pends : Point π → Bool
  | .run _ => false
  | .inCall _ x => x.pends

/-- The point belongs to the call, and what it has tested is so. -/
def Fits (l : Rwlock) : Point π → Prop
  | .run _ => True
  | .inCall p x => (∃ f, P.calls p = some f ∧ x.of f = true) ∧ x.knows l (P.mode p)

end Point

variable {σ π χ ε : Type} {P : RwClient σ π χ ε}

/-- The fields of the lock as numbers of threads. -/
structure Accounts (P : RwClient σ π χ ε) (c : Config (Guarded σ) (Point π)) : Prop where
  busy : c.shared.lock.mtx.toNat = c.number Point.inside
  readers : c.shared.lock.rCt = c.number (Point.reads P)
  writers : c.shared.lock.wCt = c.number (Point.writes P)
  pending : c.shared.lock.wPending = c.number Point.pends
  holder : Owned (fun s : Guarded σ => s.lock.wId) (Point.named P) c
  fits : ∀ (t : Tid) (y : Point π), c.threads[t]? = some y → y.Fits P c.shared.lock
  single : c.shared.lock.wCt ≤ 1
  apart : c.shared.lock.wCt = 0 ∨ c.shared.lock.rCt = 0

/-- What a thread in a call sees of the accounts. -/
structure Here (P : RwClient σ π χ ε) (l : Rwlock) (t : Tid) (p : π) (x : RwlockPc) (f : RwCall) :
    Prop where
  calls : P.calls p = some f
  belongs : x.of f = true
  knows : x.knows l (P.mode p)
  busy : x.inside.toNat ≤ l.mtx.toNat
  readers : ((Point.inCall p x).reads P).toNat ≤ l.rCt
  writers : ((Point.inCall p x).writes P).toNat ≤ l.wCt
  pending : x.pends.toNat ≤ l.wPending
  holder : l.wId = some t ↔ (Point.inCall p x).named P = true
  alone : (Point.inCall p x).writes P = true → ∀ u, l.wId = some u → u = t
  single : l.wCt ≤ 1
  apart : l.wCt = 0 ∨ l.rCt = 0

section Call
variable {l : Rwlock} {t : Tid} {p : π} {x : RwlockPc} {f : RwCall}


/-- The mode of a thread in a call, by whether the call has had its effect. -/
theorem mode_inCall (h : P.calls p = some f) :
    (Point.inCall p x).mode P = if x.done then f.gives else P.mode p := by
  rw [Point.mode, h]
  rfl

/-- A thread that asks for the lock has nothing of it. -/
theorem mode_asks (h : P.calls p = some f) (hf : f.gives ≠ .out) : P.mode p = .out :=
  P.asks h fun hu => by rw [hu] at hf; exact hf rfl

/-- How a step moves the fields together with what the thread has. -/
structure Moved (P : RwClient σ π χ ε) (l : Rwlock) (y : Point π) (l' : Rwlock) (y' : Point π) :
    Prop where
  busy : l'.mtx.toNat + y.inside.toNat = l.mtx.toNat + y'.inside.toNat
  readers : l'.rCt + (y.reads P).toNat = l.rCt + (y'.reads P).toNat
  writers : l'.wCt + (y.writes P).toNat = l.wCt + (y'.writes P).toNat
  pending : l'.wPending + y.pends.toNat = l.wPending + y'.pends.toNat
  fits : y'.Fits P l'
  single : l'.wCt ≤ 1
  apart : l'.wCt = 0 ∨ l'.rCt = 0

theorem exchange_free {q : SectionPc} (h : l.mtx = false) :
    rwlockNext l t (.exchange q) = ({ l with mtx := true }, .inl (.locked q)) := by
  simp only [rwlockNext, h, Bool.false_eq_true, if_false]

theorem exchange_busy {q : SectionPc} (h : l.mtx = true) :
    rwlockNext l t (.exchange q) = (l, .inl (.spin q)) := by
  simp only [rwlockNext, h, if_true]

theorem spin_free {q : SectionPc} (h : l.mtx = false) :
    rwlockNext l t (.spin q) = (l, .inl (.exchange q)) := by
  simp only [rwlockNext, h, Bool.false_eq_true, if_false]

theorem spin_busy {q : SectionPc} (h : l.mtx = true) :
    rwlockNext l t (.spin q) = (l, .inl (.spin q)) := by
  simp only [rwlockNext, h, if_true]

theorem moved_exchange {q : SectionPc} (h : Here P l t p (.exchange q) f) :
    Moved P l (.inCall p (.exchange q)) (rwlockNext l t (.exchange q)).1
      (.after P p (rwlockNext l t (.exchange q)).2) := by
  have hof := h.belongs
  obtain ⟨hb, hq⟩ := Bool.and_eq_true_iff.mp hof
  cases hm : l.mtx with
  | true =>
    rw [exchange_busy hm]
    exact ⟨rfl, rfl, rfl, rfl, ⟨⟨f, h.calls, hof⟩, trivial⟩, h.single, h.apart⟩
  | false =>
    rw [exchange_free hm]
    cases q <;> cases hb <;>
      exact ⟨by rw [hm]; rfl, rfl, rfl, rfl, ⟨⟨f, h.calls, hq⟩, trivial⟩, h.single, h.apart⟩

theorem moved_spin {q : SectionPc} (h : Here P l t p (.spin q) f) :
    Moved P l (.inCall p (.spin q)) (rwlockNext l t (.spin q)).1
      (.after P p (rwlockNext l t (.spin q)).2) := by
  have hfits : (∃ f, P.calls p = some f ∧ RwlockPc.of f (.spin q) = true) ∧ True :=
    ⟨⟨f, h.calls, h.belongs⟩, trivial⟩
  cases hm : l.mtx with
  | true =>
    rw [spin_busy hm]
    exact ⟨rfl, rfl, rfl, rfl, hfits, h.single, h.apart⟩
  | false =>
    rw [spin_free hm]
    exact ⟨rfl, rfl, rfl, rfl, hfits, h.single, h.apart⟩

/-- A test moves on in the section, knowing its result. -/
theorem moved_test {q q' : SectionPc} (h : Here P l t p (.locked q) f)
    (hd : (RwlockPc.locked q).done = false) (hd' : (RwlockPc.locked q').done = false)
    (hp : q'.pends = q.pends) (hof : q'.of f = true) (hk : q'.knows l (P.mode p)) :
    Moved P l (.inCall p (.locked q)) l (.inCall p (.locked q')) := by
  have hmode : (Point.inCall p (.locked q')).mode P = (Point.inCall p (.locked q)).mode P := by
    rw [mode_inCall h.calls, mode_inCall h.calls, hd, hd']
  refine ⟨rfl, ?_, ?_, ?_, ⟨⟨f, h.calls, hof⟩, hk⟩, h.single, h.apart⟩
  · rw [Point.reads, Point.reads, hmode]
  · rw [Point.writes, Point.writes, hmode]
  · exact congrArg (fun b => l.wPending + Bool.toNat b) hp.symm

theorem moved_readTest {tries : Bool} (h : Here P l t p (.locked (.testWCt tries)) f) :
    Moved P l (.inCall p (.locked (.testWCt tries))) (rwlockNext l t (.locked (.testWCt tries))).1
      (.after P p (rwlockNext l t (.locked (.testWCt tries))).2) := by
  have hf : f = if tries then .tryrdlock else .rdlock := eq_of_beq h.belongs
  subst hf
  by_cases hw : 0 < l.wCt
  · simp only [rwlockNext, if_pos hw, Point.after]
    cases tries <;> exact moved_test h rfl rfl rfl rfl trivial
  · simp only [rwlockNext, if_neg hw, Point.after]
    exact moved_test h rfl rfl rfl h.belongs (Nat.eq_zero_of_not_pos hw)

theorem moved_pendingTest {tries : Bool} (h : Here P l t p (.locked (.testWPending tries)) f) :
    Moved P l (.inCall p (.locked (.testWPending tries))) (rwlockNext l t (.locked (.testWPending tries))).1
      (.after P p (rwlockNext l t (.locked (.testWPending tries))).2) := by
  have hf : f = if tries then .tryrdlock else .rdlock := eq_of_beq h.belongs
  subst hf
  by_cases hw : l.wPending = 0
  · simp only [rwlockNext, hw, ne_eq, not_true_eq_false, if_false, Point.after]
    cases tries <;> exact moved_test h rfl rfl rfl rfl ⟨h.knows, hw⟩
  · simp only [rwlockNext, ne_eq, hw, not_false_eq_true, if_true, Point.after]
    cases tries <;> exact moved_test h rfl rfl rfl rfl trivial

theorem moved_writeTest {tries : Bool} (h : Here P l t p (.locked (.testRCt tries)) f) :
    Moved P l (.inCall p (.locked (.testRCt tries))) (rwlockNext l t (.locked (.testRCt tries))).1
      (.after P p (rwlockNext l t (.locked (.testRCt tries))).2) := by
  have hf : f = if tries then .trywrlock else .wrlock := eq_of_beq h.belongs
  subst hf
  by_cases hr : 0 < l.rCt
  · simp only [rwlockNext, if_pos hr, Point.after]
    cases tries <;> exact moved_test h rfl rfl rfl rfl trivial
  · simp only [rwlockNext, if_neg hr, Point.after]
    exact moved_test h rfl rfl rfl h.belongs (Nat.eq_zero_of_not_pos hr)

theorem moved_writerTest {tries : Bool} (h : Here P l t p (.locked (.testNoWriter tries)) f) :
    Moved P l (.inCall p (.locked (.testNoWriter tries))) (rwlockNext l t (.locked (.testNoWriter tries))).1
      (.after P p (rwlockNext l t (.locked (.testNoWriter tries))).2) := by
  have hf : f = if tries then .trywrlock else .wrlock := eq_of_beq h.belongs
  subst hf
  by_cases hw : 0 < l.wCt
  · simp only [rwlockNext, if_pos hw, Point.after]
    cases tries <;> exact moved_test h rfl rfl rfl rfl trivial
  · simp only [rwlockNext, if_neg hw, Point.after]
    cases tries <;> exact moved_test h rfl rfl rfl rfl ⟨h.knows, Nat.eq_zero_of_not_pos hw⟩

/-- The thread that gives back learns from `w_id` whether it is the writer. -/
theorem moved_idTest (h : Here P l t p (.locked .testWId) f) :
    Moved P l (.inCall p (.locked .testWId)) (rwlockNext l t (.locked .testWId)).1
      (.after P p (rwlockNext l t (.locked .testWId)).2) := by
  have hnamed : (Point.inCall p (.locked .testWId)).named P = (P.mode p == .write) :=
    Bool.and_true _
  have hid := h.holder
  rw [hnamed, beq_iff_eq] at hid
  by_cases hw : l.wId = some t
  · simp only [rwlockNext, if_pos hw, Point.after]
    exact moved_test h rfl rfl rfl h.belongs (hid.mp hw)
  · simp only [rwlockNext, if_neg hw, Point.after]
    refine moved_test h rfl rfl rfl h.belongs ?_
    have hf : f = .unlock := eq_of_beq h.belongs
    have hout := P.has (hf ▸ h.calls)
    cases hm : P.mode p with
    | out => exact absurd hm hout
    | read => rfl
    | write => exact absurd (hid.mpr hm) hw

/-- A step that changes what the thread has, or the field that it is counted in. -/
theorem moved_effect {q q' : SectionPc} {l' : Rwlock} (h : Here P l t p (.locked q) f)
    (hm : l'.mtx = l.mtx)
    (readers : l'.rCt + ((Point.inCall p (.locked q)).reads P).toNat =
      l.rCt + ((Point.inCall p (.locked q')).reads P).toNat)
    (writers : l'.wCt + ((Point.inCall p (.locked q)).writes P).toNat =
      l.wCt + ((Point.inCall p (.locked q')).writes P).toNat)
    (pending : l'.wPending + q.pends.toNat = l.wPending + q'.pends.toNat)
    (hof : q'.of f = true) (hk : q'.knows l' (P.mode p)) (single : l'.wCt ≤ 1)
    (apart : l'.wCt = 0 ∨ l'.rCt = 0) :
    Moved P l (.inCall p (.locked q)) l' (.inCall p (.locked q')) :=
  ⟨by rw [hm]; rfl, readers, writers, pending, ⟨⟨f, h.calls, hof⟩, hk⟩, single, apart⟩

theorem moved_locked {q : SectionPc} (h : Here P l t p (.locked q) f) :
    Moved P l (.inCall p (.locked q)) (rwlockNext l t (.locked q)).1
      (.after P p (rwlockNext l t (.locked q)).2) := by
  have hof := h.belongs
  have hmtx : l.mtx = true := by
    have := h.busy
    cases hm : l.mtx with
    | true => rfl
    | false => rw [hm] at this; cases this
  have mode : ∀ q', (Point.inCall p (.locked q')).mode P =
      if (RwlockPc.locked q').done then f.gives else P.mode p := fun _ => mode_inCall h.calls
  cases q with
  | testWCt tries => exact moved_readTest h
  | testWPending tries => exact moved_pendingTest h
  | testRCt tries => exact moved_writeTest h
  | testNoWriter tries => exact moved_writerTest h
  | testWId => exact moved_idTest h
  | incRCt =>
    have hg : f.gives = .read := eq_of_beq hof
    have hout := mode_asks h.calls (by rw [hg]; exact nofun)
    obtain ⟨hw, -⟩ := h.knows
    refine moved_effect h rfl ?_ ?_ rfl rfl trivial h.single (.inl hw)
    · simp only [Point.reads, mode, hg, hout]; rfl
    · simp only [Point.writes, mode, hg, hout]; rfl
  | incWPending =>
    exact moved_effect h rfl rfl rfl rfl hof trivial h.single h.apart
  | decWPending =>
    have hpos : 0 < l.wPending := h.pending
    refine moved_effect h rfl rfl rfl ?_ (by rw [eq_of_beq hof]; rfl) h.knows h.single h.apart
    change atomicDec l.wPending + 1 = l.wPending + 0
    rw [atomicDec, if_neg (Nat.ne_of_gt hpos)]
    omega
  | incWCt =>
    have hg : f.gives = .write := eq_of_beq hof
    have hout := mode_asks h.calls (by rw [hg]; exact nofun)
    obtain ⟨hr, hw⟩ := h.knows
    have hone : incByte l.wCt = 1 := by rw [hw]; rfl
    refine moved_effect h rfl ?_ ?_ rfl hof trivial (Nat.le_of_eq hone) (.inr hr)
    · simp only [Point.reads, mode, hg, hout]; rfl
    · simp only [rwlockNext, Point.writes, mode, hg, hout, hw]; rfl
  | setWId => exact moved_effect h rfl rfl rfl rfl rfl trivial h.single h.apart
  | clearWId => exact moved_effect h rfl rfl rfl rfl hof h.knows h.single h.apart
  | decWCt =>
    have hf : f = .unlock := eq_of_beq hof
    have hwrite : P.mode p = .write := h.knows
    have hpos : 0 < l.wCt := by
      have := h.writers
      rw [Point.writes, mode, hwrite] at this
      exact this
    have hone : l.wCt = 1 := Nat.le_antisymm h.single hpos
    have hzero : decByte l.wCt = 0 := by rw [hone]; rfl
    refine moved_effect h rfl ?_ ?_ rfl rfl trivial (Nat.le_of_eq hzero |>.trans (Nat.zero_le 1)) (.inl hzero)
    · simp only [Point.reads, mode, hwrite, hf]; rfl
    · simp only [rwlockNext, Point.writes, mode, hwrite, hf, hone]; rfl
  | decRCt =>
    have hf : f = .unlock := eq_of_beq hof
    have hread : P.mode p = .read := h.knows
    have hpos : 0 < l.rCt := by
      have := h.readers
      rw [Point.reads, mode, hread] at this
      exact this
    have hw : l.wCt = 0 := h.apart.resolve_right (Nat.ne_of_gt hpos)
    refine moved_effect h rfl ?_ ?_ rfl rfl trivial h.single (.inl hw)
    · simp only [Point.reads, mode, hread, hf]
      change atomicDec l.rCt + 1 = l.rCt + 0
      rw [atomicDec, if_neg (Nat.ne_of_gt hpos)]
      omega
    · simp only [Point.writes, mode, hread, hf]; rfl
  | retryRead =>
    exact ⟨by rw [hmtx]; rfl, rfl, rfl, rfl, ⟨⟨f, h.calls, by rw [eq_of_beq hof]; rfl⟩, trivial⟩,
      h.single, h.apart⟩
  | retryWrite =>
    exact ⟨by rw [hmtx]; rfl, rfl, rfl, rfl, ⟨⟨f, h.calls, by rw [eq_of_beq hof]; rfl⟩, trivial⟩,
      h.single, h.apart⟩
  | leave ok =>
    have hmode : (Point.run (P.resume p ok)).mode P = (Point.inCall p (.locked (.leave ok))).mode P := by
      rw [mode]
      cases ok with
      | true => exact P.granted h.calls
      | false => exact P.refused h.calls hof
    refine ⟨by rw [hmtx]; rfl, ?_, ?_, rfl, trivial, h.single, h.apart⟩
    · simp only [rwlockNext, Point.after, Point.reads, hmode]
    · simp only [rwlockNext, Point.after, Point.writes, hmode]

theorem moved (h : Here P l t p x f) :
    Moved P l (.inCall p x) (rwlockNext l t x).1 (.after P p (rwlockNext l t x).2) := by
  cases x with
  | exchange q => exact moved_exchange h
  | spin q => exact moved_spin h
  | locked q => exact moved_locked h

theorem named_next {y : Point π} {l' : Rwlock} (h : Moved P l (.inCall p x) l' y) (hw : l'.wCt = l.wCt)
    (hx : (Point.inCall p x).unnamed = false) (hy : y.unnamed = false) :
    y.named P = (Point.inCall p x).named P := by
  have hm := h.writers
  rw [hw] at hm
  have hwrites : y.writes P = (Point.inCall p x).writes P := by
    cases hy : y.writes P <;> cases hx : (Point.inCall p x).writes P <;> simp_all
  rw [Point.named, Point.named, hwrites, hx, hy]

/-- The step takes `w_id`, gives it back or leaves it, as the thread becomes the writer that it
names, stops being it or stays what it was. -/
theorem holder_step {s : Guarded σ} (h : Here P s.lock t p x f) :
    LockStep (ε := ε) (fun s : Guarded σ => s.lock.wId) (Point.named P) s t (callStep P s t p x) := by
  have hid := h.holder
  have hof := h.belongs
  have hm := moved h
  have fresh : ∀ r ∈ (callStep (ε := ε) P s t p x).spawned, r.named P = false := by simp [callStep]
  have same : (rwlockNext s.lock t x).1.wId = s.lock.wId → (rwlockNext s.lock t x).1.wCt = s.lock.wCt →
      (Point.inCall p x).unnamed = false → (Point.after P p (rwlockNext s.lock t x).2).unnamed = false →
      LockStep (ε := ε) (fun s : Guarded σ => s.lock.wId) (Point.named P) s t (callStep P s t p x) :=
    fun hl hw hx hy => .same hid hl (named_next hm hw hx hy) fresh
  cases x with
  | exchange q =>
    have hb : q.begins = true := (Bool.and_eq_true_iff.mp hof).1
    cases hl : s.lock.mtx with
    | false =>
      rw [exchange_free hl] at same
      exact same rfl rfl rfl (by cases q <;> cases hb <;> rfl)
    | true =>
      rw [exchange_busy hl] at same
      exact same rfl rfl rfl rfl
  | spin q =>
    cases hl : s.lock.mtx with
    | false =>
      rw [spin_free hl] at same
      exact same rfl rfl rfl rfl
    | true =>
      rw [spin_busy hl] at same
      exact same rfl rfl rfl rfl
  | locked q =>
    cases q with
    | testWCt tries | testWPending tries | testRCt tries | testNoWriter tries =>
      refine same rfl rfl rfl ?_
      simp only [rwlockNext, Point.after]
      split
      · cases tries <;> rfl
      · cases tries <;> rfl
    | testWId =>
      refine same rfl rfl rfl ?_
      simp only [rwlockNext, Point.after]
      split <;> rfl
    | incRCt | incWPending | decWPending | decRCt | retryRead | retryWrite | leave =>
      exact same rfl rfl rfl rfl
    | incWCt =>
      have hg : f.gives = .write := eq_of_beq hof
      have hout := mode_asks h.calls (by rw [hg]; exact nofun)
      refine .same hid rfl ?_ fresh
      have hbefore : (Point.inCall p (.locked .incWCt)).named P = false := by
        rw [Point.named, Point.writes, mode_inCall h.calls, hout]; rfl
      rw [hbefore]
      exact Bool.and_false _
    | setWId =>
      have hwrites : (Point.inCall p (.locked .setWId)).writes P = true := by
        rw [Point.writes, mode_inCall h.calls]
        exact hof
      have hnone : s.lock.wId = none := by
        cases hw : s.lock.wId with
        | none => rfl
        | some u =>
          have hu := h.alone hwrites u hw
          rw [hu] at hw
          have := hid.mp hw
          rw [Point.named, Point.unnamed, Bool.not_true, Bool.and_false] at this
          cases this
      refine .take hnone rfl ?_ fresh
      have hafter : (Point.inCall p (.locked (.leave true))).writes P = true := by
        rw [Point.writes, mode_inCall h.calls]
        exact hof
      exact (Bool.and_true _).trans hafter
    | clearWId =>
      have hwrite : P.mode p = .write := h.knows
      refine .give (hid.mpr ?_) rfl (Bool.and_false _) fresh
      rw [Point.named, Point.writes, mode_inCall h.calls, hwrite]
      rfl
    | decWCt =>
      have hf : f = .unlock := eq_of_beq hof
      refine .same hid rfl ?_ fresh
      have hbefore : (Point.inCall p (.locked .decWCt)).named P = false := Bool.and_false _
      rw [hbefore]
      change (Point.inCall p (.locked (.leave true))).named P = false
      rw [Point.named, Point.writes, mode_inCall h.calls, hf]
      rfl

end Call

/-! Runs -/

section Runs
variable {c₀ : Config σ π} {G : Config (Guarded σ) (Point π) → Nat × χ → Prop} {tr : List ε}
  {c : Config (Guarded σ) (Point π)} {s : Guarded σ} {t : Tid} {y : Point π} {ch : χ}
  {o : Outcome (Guarded σ) (Point π) ε}

/-- What a step can be: one of the program, the start of a call, or a step in a call. -/
inductive OverStep (P : RwClient σ π χ ε) (s : Guarded σ) (t : Tid) (ch : χ) :
    Point π → Outcome (Guarded σ) (Point π) ε → Prop where
  | next {p o} : P.calls p = none → P.next s.mem t p ch = some o →
      OverStep P s t ch (.run p) (RwClient.lift (fun m => { s with mem := m }) .run o)
  | enter {p f} : P.calls p = some f → OverStep P s t ch (.run p) ⟨s, .inCall p (entry f), [], []⟩
  | inCall {p x} : OverStep P s t ch (.inCall p x) (callStep P s t p x)

theorem overRwlock_cases (h : overRwlock P s t y ch = some o) :
    P.ended s.mem = false ∧ OverStep P s t ch y o := by
  simp only [overRwlock, Option.ite_none_right_eq_some] at h
  obtain ⟨hend, h⟩ := h
  refine ⟨hend, ?_⟩
  cases y with
  | run p =>
    simp only at h
    split at h
    · obtain ⟨o', ho', rfl⟩ := Option.map_eq_some_iff.mp h
      exact .next (by assumption) ho'
    · cases h
      exact .enter (by assumption)
  | inCall p x =>
    cases h
    exact .inCall

/-- A point that is outside of a section does not depend on the lock. -/
theorem fits_outside {l l' : Rwlock} (h : y.Fits P l) (hy : y.inside = false) : y.Fits P l' := by
  cases y with
  | run p => trivial
  | inCall p x =>
    cases x with
    | exchange q => exact h
    | spin q => exact h
    | locked q => cases hy

theorem Accounts.here {p : π} {x : RwlockPc} (h : Accounts P c)
    (hy : c.threads[t]? = some (.inCall p x)) : ∃ f, Here P c.shared.lock t p x f := by
  obtain ⟨⟨f, hf, hof⟩, hk⟩ := h.fits t _ hy
  have count : ∀ T : Point π → Bool, (T (.inCall p x)).toNat ≤ c.number T := by
    intro T
    rw [Config.number_eq_total]
    exact c.le_total (fun y => (T y).toNat) hy
  refine ⟨f, hf, hof, hk, h.busy ▸ count Point.inside, h.readers ▸ count (Point.reads P),
    h.writers ▸ count (Point.writes P), h.pending ▸ count Point.pends, h.holder.at hy, ?_,
    h.single, h.apart⟩
  intro hw u hu
  obtain ⟨r, hr, hn⟩ := (h.holder u).mp hu
  exact Config.unique_of_number_le_one (h.writers ▸ h.single) hy hw hr (Bool.and_eq_true_iff.mp hn).1

/-- The three kinds of steps keep fields and points together. -/
theorem Accounts.moved (h : Accounts P c) (hy : c.threads[t]? = some y)
    (hs : OverStep P c.shared t ch y o) : Moved P c.shared.lock y o.shared.lock o.pc := by
  cases hs with
  | @next p o hp ho =>
    have hm : P.mode o.pc = P.mode p := P.own hp ho
    refine ⟨rfl, ?_, ?_, rfl, trivial, h.single, h.apart⟩
    · simp only [RwClient.lift, Point.reads, Point.mode, hm]
    · simp only [RwClient.lift, Point.writes, Point.mode, hm]
  | @enter p f hf =>
    refine ⟨?_, ?_, ?_, ?_, ⟨⟨f, hf, ?_⟩, ?_⟩, h.single, h.apart⟩
    all_goals cases f <;> first | rfl | trivial
  | inCall =>
    obtain ⟨f, hhere⟩ := h.here hy
    exact Windows.moved hhere

theorem Accounts.holderStep (h : Accounts P c) (hy : c.threads[t]? = some y)
    (hs : OverStep P c.shared t ch y o) :
    LockStep (fun s : Guarded σ => s.lock.wId) (Point.named P) c.shared t o := by
  have hid := h.holder.at hy
  cases hs with
  | @next p o hp ho =>
    refine .same hid rfl ?_ ?_
    · simp only [RwClient.lift, Point.named, Point.writes, Point.mode, P.own hp ho]
      rfl
    · intro r hr
      obtain ⟨q, hq, rfl⟩ := List.mem_map.mp hr
      simp only [Point.named, Point.writes, Point.mode, P.fresh hp ho q hq]
      rfl
  | @enter p f hf => exact .same hid rfl (by cases f <;> rfl) (by simp)
  | inCall =>
    obtain ⟨f, hhere⟩ := h.here hy
    exact holder_step hhere

/-- A thread that is started has nothing of the lock. -/
theorem fresh_out (hs : OverStep P s t ch y o) :
    ∀ r ∈ o.spawned, ∃ p, r = .run p ∧ P.mode p = .out := by
  cases hs with
  | @next p o hp ho =>
    intro r hr
    obtain ⟨q, hq, rfl⟩ := List.mem_map.mp hr
    exact ⟨q, rfl, P.fresh hp ho q hq⟩
  | enter => simp
  | inCall => simp [callStep]

/-- While a thread is in a section no other one changes the lock. -/
theorem lock_held (hs : OverStep P s t ch y o) (hy : y.inside = false) (hm : s.lock.mtx = true) :
    o.shared.lock = s.lock := by
  cases hs with
  | next => rfl
  | enter => rfl
  | @inCall p x =>
    change (rwlockNext s.lock t x).1 = s.lock
    cases x with
    | exchange q => rw [exchange_busy hm]
    | spin q => rw [spin_busy hm]
    | locked q => cases hy

/-- The accounts with a field moved along with the threads. -/
theorem number_step {Φ Φ' : Nat} {T : Point π → Bool} (h : Φ = c.number T)
    (hy : c.threads[t]? = some y) (hm : Φ' + (T y).toNat = Φ + (T o.pc).toNat)
    (fresh : ∀ r ∈ o.spawned, T r = false) : Φ' = (o.apply c t).number T := by
  have := Outcome.number_apply hy fresh
  omega

theorem Accounts.step (h : Accounts P c) (hy : c.threads[t]? = some y)
    (hs : OverStep P c.shared t ch y o) : Accounts P (o.apply c t) := by
  have hm := h.moved hy hs
  have fresh : ∀ T : Point π → Bool, (∀ p, P.mode p = .out → T (.run p) = false) →
      ∀ r ∈ o.spawned, T r = false := by
    intro T hT r hr
    obtain ⟨p, rfl, hp⟩ := fresh_out hs r hr
    exact hT p hp
  refine ⟨number_step h.busy hy hm.busy (fresh _ fun _ _ => rfl),
    number_step h.readers hy hm.readers (fresh _ fun p hp => ?_),
    number_step h.writers hy hm.writers (fresh _ fun p hp => ?_),
    number_step h.pending hy hm.pending (fresh _ fun _ _ => rfl),
    h.holder.apply hy (h.holderStep hy hs), ?_, hm.single, hm.apart⟩
  · simp only [Point.reads, Point.mode, hp]
    rfl
  · simp only [Point.writes, Point.mode, hp]
    rfl
  · -- what another thread has tested stays so, since it is in the section
    refine Outcome.forall_apply (P := fun _ y => y.Fits P c.shared.lock) h.fits hy (fun _ => hm.fits)
      ?_ ?_
    · intro u r hu hr hfit
      cases hin : r.inside with
      | false => exact fits_outside hfit hin
      | true =>
        have hone : c.number Point.inside ≤ 1 := h.busy ▸ Bool.toNat_le _
        have hout : y.inside = false := by
          cases hy' : y.inside with
          | false => rfl
          | true => exact absurd (Config.unique_of_number_le_one hone hy hy' hr hin) hu
        have hpos : 0 < c.number Point.inside :=
          List.countP_pos_iff.mpr ⟨r, List.mem_of_getElem? hr, hin⟩
        rw [← h.busy] at hpos
        have hmtx : c.shared.lock.mtx = true := by
          cases hm : c.shared.lock.mtx with
          | true => rfl
          | false => rw [hm] at hpos; cases hpos
        have hsame : (o.apply c t).shared.lock = c.shared.lock := lock_held hs hout hmtx
        rw [hsame]
        exact hfit
    · intro u r hr
      obtain ⟨p, rfl, -⟩ := fresh_out hs r hr
      trivial

theorem accounts (start : ∀ p ∈ c₀.threads, P.mode p = .out)
    (h : Machine.Run (overRwlock P) G (guardedStart c₀) tr c) : Accounts P c := by
  refine h.invariant (fun _ c => Accounts P c) ?_ ?_
  · have none : ∀ T : Point π → Bool, (∀ p, P.mode p = .out → T (.run p) = false) →
        0 = (guardedStart c₀).number T := by
      intro T hT
      refine (List.countP_eq_zero.mpr fun y hy => ?_).symm
      obtain ⟨p, hp, rfl⟩ := List.mem_map.mp hy
      rw [hT p (start p hp)]
      exact Bool.false_ne_true
    have hreads : ∀ p, P.mode p = .out → (Point.run p).reads P = false := fun p hp => by
      simp only [Point.reads, Point.mode, hp]; rfl
    have hwrites : ∀ p, P.mode p = .out → (Point.run p).writes P = false := fun p hp => by
      simp only [Point.writes, Point.mode, hp]; rfl
    refine ⟨none _ fun _ _ => rfl, none _ hreads, none _ hwrites, none _ fun _ _ => rfl, ?_, ?_,
      Nat.zero_le 1, .inl rfl⟩
    · intro t
      refine iff_of_false (by simp [guardedStart, Rwlock.init]) ?_
      rintro ⟨y, hy, hn⟩
      obtain ⟨p, hp, rfl⟩ := List.mem_map.mp (List.mem_of_getElem? hy)
      rw [Point.named, hwrites p (start p hp)] at hn
      cases hn
    · intro t y hy
      obtain ⟨p, -, rfl⟩ := List.mem_map.mp (List.mem_of_getElem? hy)
      trivial
  · intro tr c l y o _ ih _ mv
    exact ih.step mv.here (overRwlock_cases mv.next).2

/-- Nobody has the lock beside a writer, and the fields of the lock are the numbers of its readers,
of its writers and of the threads that wait to write; `w_id` is the writer, when no thread is in a
section. -/
theorem rwlock_excludes (P : RwClient σ π χ ε) (c₀ : Config σ π) (tr : List ε)
    (c : Config (Guarded σ) (Point π)) (start : ∀ p ∈ c₀.threads, P.mode p = .out)
    (h : Machine.Free (overRwlock P) (guardedStart c₀) tr c) :
    (∀ (t u : Tid) (y z : Point π), c.threads[t]? = some y → c.threads[u]? = some z → y.mode P = .write →
      z.mode P ≠ .out → t = u) ∧
    c.shared.lock.rCt = c.number (Point.reads P) ∧ c.shared.lock.wCt = c.number (Point.writes P) ∧
    c.shared.lock.wPending = c.number Point.pends ∧
    (c.shared.lock.mtx = false → ∀ t,
      c.shared.lock.wId = some t ↔ ∃ y, c.threads[t]? = some y ∧ y.mode P = .write) := by
  have ha := accounts start h
  refine ⟨?_, ha.readers, ha.writers, ha.pending, ?_⟩
  · intro t u y z hy hz hw hz'
    have hone : c.number (Point.writes P) ≤ 1 := ha.writers ▸ ha.single
    have hyw : y.writes P = true := beq_iff_eq.mpr hw
    cases hzm : z.mode P with
    | out => exact absurd hzm hz'
    | write => exact Config.unique_of_number_le_one hone hz (beq_iff_eq.mpr hzm) hy hyw
    | read =>
      have hwpos : 0 < c.number (Point.writes P) :=
        List.countP_pos_iff.mpr ⟨y, List.mem_of_getElem? hy, hyw⟩
      have hrpos : 0 < c.number (Point.reads P) :=
        List.countP_pos_iff.mpr ⟨z, List.mem_of_getElem? hz, beq_iff_eq.mpr hzm⟩
      have := ha.apart
      rw [ha.writers, ha.readers] at this
      omega
  · intro hm t
    rw [ha.holder t]
    refine exists_congr fun y => and_congr_right fun hy => ?_
    have hout : y.inside = false := by
      have hzero := ha.busy
      rw [hm] at hzero
      exact Bool.eq_false_iff.mpr (List.countP_eq_zero.mp hzero.symm y (List.mem_of_getElem? hy))
    have hun : y.unnamed = false := by
      unfold Point.unnamed
      split
      · cases hout
      · cases hout
      · rfl
    rw [Point.named, hun, Bool.not_false, Bool.and_true, Point.writes, beq_iff_eq]

theorem initial_out (users : Nat) : ∀ p ∈ (initial users).threads, manager.mode p = .out := by
  intro p hp
  rw [List.eq_of_mem_replicate hp]
  rfl

/-- A thread that creates a queue has the lock, and another one waits for it. -/
theorem rwlock_excludes_of_two : ∃ tr c,
    Machine.Free (overRwlock manager) (guardedStart (initial 2)) tr c ∧
      c.shared.lock.wCt = 1 ∧ c.shared.lock.wPending = 1 ∧
      (∀ (t u : Tid) (y z : Point Thread), c.threads[t]? = some y → c.threads[u]? = some z →
        y.mode manager = .write → z.mode manager ≠ .out → t = u) := by
  obtain ⟨tr, c, hrun, hP⟩ := Machine.exists_run (M := overRwlock manager) (g := fun _ _ => true)
    (c := guardedStart (initial 2)) (createUpToLock 0 0 ++ steps 0 9 ++ createUpToLock 1 1 ++ steps 1 6)
    (fun r => decide (r.1.shared.lock.wCt = 1 ∧ r.1.shared.lock.wPending = 1)) (by decide +kernel)
  obtain ⟨hw, hp⟩ := of_decide_eq_true hP
  exact ⟨tr, c, hrun.free, hw, hp, (rwlock_excludes manager _ tr c (initial_out 2) hrun.free).1⟩

theorem rCt_next {l : Rwlock} (x : RwlockPc) :
    (rwlockNext l t x).1.rCt = l.rCt ∨ x = .locked .incRCt ∨ x = .locked .decRCt := by
  cases x with
  | exchange q =>
    simp only [rwlockNext]
    split <;> exact .inl rfl
  | spin q => exact .inl rfl
  | locked q =>
    cases q with
    | incRCt => exact .inr (.inl rfl)
    | decRCt => exact .inr (.inr rfl)
    | _ => exact .inl rfl

/-- No thread becomes a reader in a step from a state in which a writer waits. -/
theorem reader_before (ha : Accounts P c) (hy : c.threads[t]? = some y)
    (hs : OverStep P c.shared t ch y o) (hw : 0 < c.shared.lock.wPending)
    (hr : o.pc.reads P = true) : y.reads P = true := by
  have hm := (ha.moved hy hs).readers
  cases hreads : y.reads P with
  | true => rfl
  | false =>
    rw [hreads, hr, Bool.toNat_false, Bool.toNat_true] at hm
    cases hs with
    | next => exact absurd hm (Nat.ne_of_lt (Nat.lt_succ_self _))
    | enter => exact absurd hm (Nat.ne_of_lt (Nat.lt_succ_self _))
    | @inCall p x =>
      obtain ⟨f, hhere⟩ := ha.here hy
      obtain hl | rfl | rfl := rCt_next (l := c.shared.lock) (t := t) x
      · change (rwlockNext c.shared.lock t x).1.rCt + 0 = _ at hm
        omega
      · obtain ⟨-, hzero⟩ := hhere.knows
        omega
      · have hread : P.mode p = .read := hhere.knows
        rw [Point.reads, mode_inCall hhere.calls, hread] at hreads
        cases hreads

/-- While a writer waits the readers only leave: whoever is a reader at the end of a part of a run, in
all of which some thread waits to write, has been one at its beginning. -/
theorem waiting_writer_stops_readers (P : RwClient σ π χ ε) (c₀ : Config σ π) (tr es : List ε)
    (c d : Config (Guarded σ) (Point π)) (start : ∀ p ∈ c₀.threads, P.mode p = .out)
    (h : Machine.Free (overRwlock P) (guardedStart c₀) tr c)
    (waits : Machine.Run (overRwlock P) (fun c _ => 0 < c.number Point.pends) c es d) :
    ∀ (t : Tid) (y : Point π), d.threads[t]? = some y → y.mode P = .read →
      ∃ z, c.threads[t]? = some z ∧ z.mode P = .read := by
  suffices hk : (∃ tr, Machine.Free (overRwlock P) (guardedStart c₀) tr d) ∧
      ∀ (t : Tid) (y : Point π), d.threads[t]? = some y → y.reads P = true →
        ∃ z, c.threads[t]? = some z ∧ z.reads P = true by
    intro t y hy hr
    obtain ⟨z, hz, hzr⟩ := hk.2 t y hy (beq_iff_eq.mpr hr)
    exact ⟨z, hz, beq_iff_eq.mp hzr⟩
  refine waits.invariant (fun _ d => (∃ tr, Machine.Free (overRwlock P) (guardedStart c₀) tr d) ∧
    ∀ (t : Tid) (y : Point π), d.threads[t]? = some y → y.reads P = true →
      ∃ z, c.threads[t]? = some z ∧ z.reads P = true)
    ⟨⟨tr, h⟩, fun t y hy hr => ⟨y, hy, hr⟩⟩ ?_
  rintro - d l y o - ⟨⟨tr, hd⟩, ih⟩ hg mv
  have hs := (overRwlock_cases mv.next).2
  have ha := accounts start hd
  refine ⟨⟨_, hd.append (.move trivial mv)⟩, fun t z hz hr => ?_⟩
  obtain ⟨rfl, rfl⟩ | ⟨-, hz⟩ | ⟨-, hz⟩ := Outcome.get_cases mv.here hz
  · exact ih _ y mv.here (reader_before ha mv.here hs (ha.pending ▸ hg) hr)
  · exact ih t z hz hr
  · obtain ⟨p, rfl, hp⟩ := fresh_out hs z hz
    simp only [Point.reads, Point.mode, hp] at hr
    cases hr

/-- A callback reads the lists while a thread that creates a queue waits. -/
theorem waiting_writer_stops_readers_of_scan : ∃ tr es c d,
    Machine.Free (overRwlock manager) (guardedStart (initial 2)) tr c ∧
      Machine.Run (overRwlock manager) (fun c _ => 0 < c.number Point.pends) c es d ∧
      d.shared.lock.rCt = 1 ∧ ∀ (t : Tid) (y : Point Thread), d.threads[t]? = some y →
        y.mode manager = .read → ∃ z, c.threads[t]? = some z ∧ z.mode manager = .read := by
  obtain ⟨tr, c, hrun, hP⟩ := Machine.exists_run (M := overRwlock manager) (g := fun _ _ => true)
    (c := guardedStart (initial 2)) (createUpToLock 0 0 ++ steps 0 17 ++ addItem 0 0 7 ++ steps 2 6 ++
      createUpToLock 1 1 ++ steps 1 3)
    (fun r => ((overRwlock manager).exec (fun c _ => decide (0 < c.number Point.pends)) r.1
      (steps 1 2 ++ steps 2 2)).any
        fun e : Config (Guarded Shared) (Point Thread) × List Event => e.1.shared.lock.rCt == 1)
    (by decide +kernel)
  obtain ⟨es, d, hes, hQ⟩ := Machine.exists_run (M := overRwlock manager) _ _ hP
  have hwaits := hes.weaken fun _ _ hg => of_decide_eq_true hg
  exact ⟨tr, es, c, d, hrun.free, hwaits, beq_iff_eq.mp hQ,
    waiting_writer_stops_readers manager _ tr es c d (initial_out 2) hrun.free hwaits⟩

end Runs
end PthreadWorkqueue.Windows
