import PthreadWorkqueue.Words.Division

/-! The length of the run queue on Solaris, sampled from two counters of the kernel that only ever
grow and wrap at 2^32. -/
namespace PthreadWorkqueue.Solaris

/-- What one call meets: the kstat function that fails, or a sample and whether `kstat_close`
succeeds. -/
inductive Kstat where
  | openFails
  | lookupFails
  | readFails
  | sample (runque updates : UInt32) (closed : Bool)
  deriving DecidableEq, Repr

/-- The call fails before or at `kstat_read`. -/
def Kstat.fails : Kstat → Bool
  | .sample _ _ _ => false
  | _ => true

/-- The static variables of the file. -/
structure Previous where
  previousRunque : Int32
  previousUpdates : Int32
  deriving DecidableEq, Repr

def Previous.init : Previous := ⟨0, 0⟩

/-- The quotient of two `int`s; there is none where it overflows. -/
def intQuotient (x y : Int32) : Option Int32 :=
  if x = Int32.minValue ∧ y = -1 then none else some (x / y)

/-- `run_queue`, from the differences that the static variables hold at that point. -/
def Previous.runQueue (delta : Previous) : Option UInt32 :=
  if delta.previousUpdates ≠ 0 then
    (intQuotient delta.previousRunque delta.previousUpdates).map Int32.toUInt32
  else some 0

/-- `solaris_get_runqueue_length`: the static variables hold the differences first, then the sample. -/
def solarisGetRunqueueLength (prev : Previous) : Kstat → Option (Previous × UInt32)
  | .openFails | .lookupFails | .readFails => some (prev, 0)
  | .sample runque updates closed =>
    let delta : Previous := ⟨(runque - prev.previousRunque.toUInt32).toInt32,
      (updates - prev.previousUpdates.toUInt32).toInt32⟩
    delta.runQueue.map fun runQueue =>
      (⟨runque.toInt32, updates.toInt32⟩, if closed then runQueue else 0)

/-- The static variables after some calls. -/
def calls : Previous → List Kstat → Option Previous
  | prev, [] => some prev
  | prev, k :: ks => do
    let (next, _) ← solarisGetRunqueueLength prev k
    calls next ks

/-- The counters as the last call read them whose `kstat_read` succeeded. -/
def lastSample : UInt32 × UInt32 → List Kstat → UInt32 × UInt32
  | last, [] => last
  | _, .sample runque updates _ :: ks => lastSample (runque, updates) ks
  | last, _ :: ks => lastSample last ks

/-- The static variables hold a sample. -/
def Previous.of (last : UInt32 × UInt32) : Previous := ⟨last.1.toInt32, last.2.toInt32⟩

/-- The mean length of the run queue over some updates. -/
def meanLength (runque updates : UInt32) : Nat :=
  if updates = 0 then 0 else runque.toNat / updates.toNat

variable {prev next : Previous} {k : Kstat} {ks : List Kstat} {last : UInt32 × UInt32}
  {runque updates length : UInt32} {closed : Bool}

/-- A call that reads the counters leaves them in the static variables. -/
theorem next_of_sample
    (h : solarisGetRunqueueLength prev (.sample runque updates closed) = some (next, length)) :
    next = .of (runque, updates) := by
  simp only [solarisGetRunqueueLength, Option.map_eq_some_iff, Prod.mk.injEq] at h
  obtain ⟨_, -, rfl, -⟩ := h
  rfl

/-- After any calls the static variables hold the last sample. -/
theorem calls_eq (h : calls (.of last) ks = some prev) : prev = .of (lastSample last ks) := by
  induction ks generalizing last with
  | nil =>
    cases h
    rfl
  | cons k ks ih =>
    simp only [calls, Option.bind_eq_bind, Option.bind_eq_some_iff] at h
    obtain ⟨⟨next, length⟩, hk, h⟩ := h
    cases k with
    | sample runque updates closed =>
      rw [next_of_sample hk] at h
      exact ih h
    | openFails | lookupFails | readFails =>
      cases hk
      exact ih h

/-- The ratio of two differences is what it should be exactly where signed and unsigned division
agree. -/
theorem runQueue_iff (dr du : UInt32) :
    (∃ v, (Previous.of (dr, du)).runQueue = some v ∧ v.toNat = meanLength dr du) ↔
      du.toNat ≤ 1 ∨ dr = du ∨ (dr.toNat < 2 ^ 31 ∧ dr.toNat + du.toNat < 2 ^ 32) := by
  by_cases hu : du = 0
  · subst hu
    exact iff_of_true ⟨0, rfl, rfl⟩ (.inl (Nat.zero_le 1))
  have hne : (Previous.of (dr, du)).previousUpdates ≠ 0 := fun h => hu (congrArg Int32.toUInt32 h)
  rw [Previous.runQueue, if_pos hne, meanLength, if_neg hu, intQuotient, Previous.of]
  by_cases htrap : dr.toInt32 = Int32.minValue ∧ du.toInt32 = -1
  · -- the quotient overflows
    obtain rfl : dr = Int32.minValue.toUInt32 := congrArg Int32.toUInt32 htrap.1
    obtain rfl : du = (-1 : Int32).toUInt32 := congrArg Int32.toUInt32 htrap.2
    rw [if_pos htrap]
    exact iff_of_false (by rintro ⟨v, hv, -⟩; cases hv) (by decide)
  · rw [if_neg htrap]
    have hdiv := Words.sdiv_eq_udiv_iff (x := dr.toBitVec) (y := du.toBitVec)
    have hhalf : 2 * dr.toNat < 2 ^ 32 ↔ dr.toNat < 2 ^ 31 := by omega
    rw [← BitVec.toNat_inj, BitVec.toNat_udiv, UInt32.toBitVec_inj] at hdiv
    rw [← hhalf]
    refine Iff.trans ?_ hdiv
    constructor
    · rintro ⟨v, hq, hv⟩
      cases hq
      exact hv
    · intro hv
      exact ⟨_, rfl, hv⟩

/-- In every sequence of calls: a call that fails up to `kstat_read` leaves the static variables as
they were, and a call in which everything succeeds returns the ratio of the increases since the last
sample exactly if the increases are small enough, equal, or of at most one update. -/
theorem sampled_length_iff (ks : List Kstat) (prev : Previous) (h : calls .init ks = some prev) :
    (∀ k, k.fails = true → solarisGetRunqueueLength prev k = some (prev, 0)) ∧
    ∀ runque updates dr du : UInt32, dr = runque - (lastSample (0, 0) ks).1 →
      du = updates - (lastSample (0, 0) ks).2 →
      ((∃ next v, solarisGetRunqueueLength prev (.sample runque updates true) = some (next, v) ∧
          v.toNat = meanLength dr du) ↔
        du.toNat ≤ 1 ∨ dr = du ∨ (dr.toNat < 2 ^ 31 ∧ dr.toNat + du.toNat < 2 ^ 32)) := by
  constructor
  · intro k hk
    cases k <;> first | rfl | cases hk
  · rintro runque updates _ _ rfl rfl
    rw [← runQueue_iff, show prev = .of (lastSample (0, 0) ks) from calls_eq h]
    simp only [solarisGetRunqueueLength, Option.map_eq_some_iff, Prod.mk.injEq, if_true]
    constructor
    · rintro ⟨_, v, ⟨_, hv, -, rfl⟩, hmean⟩
      exact ⟨_, hv, hmean⟩
    · rintro ⟨v, hv, hmean⟩
      exact ⟨_, v, ⟨v, hv, rfl, rfl⟩, hmean⟩

/-- A call after a sample and a failed read. -/
theorem sampled_length_after_failure :
    solarisGetRunqueueLength (.of (100, 50)) .readFails = some (.of (100, 50), 0) ∧
      ∃ next v, solarisGetRunqueueLength (.of (100, 50)) (.sample 250 100 true) = some (next, v) ∧
        v.toNat = 3 := by
  obtain ⟨hfail, hsample⟩ := sampled_length_iff [.sample 100 50 true, .readFails] (.of (100, 50)) rfl
  obtain ⟨next, v, hv, hmean⟩ := (hsample 250 100 150 50 rfl rfl).mpr (.inr (.inr (by decide)))
  exact ⟨hfail _ rfl, next, v, hv, hmean⟩

/-- The first call finds a sum of 3000000000 over 2000000 updates, and its mean of 1500 comes out
negative. -/
theorem sampled_length_of_first_call :
    solarisGetRunqueueLength .init (.sample 3000000000 2000000 true) =
      some (⟨-1294967296, 2000000⟩, 4294966649) ∧ meanLength 3000000000 2000000 = 1500 := by
  decide +kernel

end PthreadWorkqueue.Solaris
