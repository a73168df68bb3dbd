import PthreadWorkqueue.Posix.Program

/-! `manager_peek` against the pool that it samples. It reads the number of idle workers up to three
times without a lock, so that the reads of one call need not agree. -/
namespace PthreadWorkqueue.Posix
open Concurrency

section Peek
variable (workerIdleThreshold workerMin ocwqIdleThreads : UInt32) (idle : Nat → UInt32)

/-- The idle workers beyond a watermark; the successive reads of `idle` return `idle 0`, `idle 1`
and `idle 2`. -/
def peekIdle : UInt64 :=
  let rv := (idle 0).toUInt64
  if workerIdleThreshold < idle 1 then rv - workerIdleThreshold.toUInt64
  else if workerMin < idle 2 then rv - workerMin.toUInt64
  else rv

/-- `manager_peek`; an invalid key aborts. -/
def managerPeek (key : String) : Option UInt64 :=
  if key = "combined_idle" then
    some (peekIdle workerIdleThreshold workerMin idle + ocwqIdleThreads.toUInt64)
  else if key = "idle" then some (peekIdle workerIdleThreshold workerMin idle)
  else if key = "ocomm_idle" then some ocwqIdleThreads.toUInt64
  else none

/-- The reads of `idle` that a call makes. -/
def peekReads : List UInt32 :=
  [idle 0, idle 1] ++ if workerIdleThreshold < idle 1 then [] else [idle 2]

/-- The call returns at most `extra` more than the largest of its reads. -/
def PeekBounded (key : String) (extra : Nat) : Prop :=
  ∃ v, managerPeek workerIdleThreshold workerMin ocwqIdleThreads idle key = some v ∧
    ∃ r ∈ peekReads workerIdleThreshold idle, v.toNat ≤ r.toNat + extra

/-- The first read, with `extra` added, is no less than the watermark that the later reads select. -/
def PeekCovered (extra : Nat) : Prop :=
  if workerIdleThreshold < idle 1 then workerIdleThreshold.toNat ≤ (idle 0).toNat + extra
  else workerMin < idle 2 → workerMin.toNat ≤ (idle 0).toNat + extra

private theorem toUInt64_zero : (0 : UInt32).toUInt64 = 0 := rfl

/-- A small difference modulo 2^64 to which something small is added stays small exactly if the first
number is no less than the second after the addition. -/
private theorem sub_add_le_iff {r w e : UInt32} {rs : List UInt32} (hr : r ∈ rs) :
    (∃ q ∈ rs, (r.toUInt64 - w.toUInt64 + e.toUInt64).toNat ≤ q.toNat + e.toNat) ↔
      w.toNat ≤ r.toNat + e.toNat := by
  have hw := w.toNat_lt
  have he := e.toNat_lt
  have hlt := r.toNat_lt
  rw [UInt64.toNat_add, UInt64.toNat_sub]
  simp only [UInt32.toNat_toUInt64]
  constructor
  · rintro ⟨q, -, hq⟩
    have := q.toNat_lt
    omega
  · intro h
    exact ⟨r, hr, by omega⟩

private theorem peekIdle_bounded (extra : UInt32) :
    (∃ r ∈ peekReads workerIdleThreshold idle,
      (peekIdle workerIdleThreshold workerMin idle + extra.toUInt64).toNat ≤ r.toNat + extra.toNat) ↔
    PeekCovered workerIdleThreshold workerMin idle extra.toNat := by
  have hmem : idle 0 ∈ peekReads workerIdleThreshold idle :=
    List.mem_append_left _ List.mem_cons_self
  unfold peekIdle PeekCovered
  split
  · exact sub_add_le_iff hmem
  · split
    · rw [forall_prop_of_true ‹_›]
      exact sub_add_le_iff hmem
    · -- without a watermark nothing is subtracted
      rw [forall_prop_of_false ‹_›, iff_true]
      have := (sub_add_le_iff (w := 0) (e := extra) hmem).mpr (Nat.zero_le _)
      rwa [toUInt64_zero, UInt64.sub_zero] at this

/-- For all sequences of reads and both watermarks: "idle" is at most the largest read exactly if the
first read is no less than the watermark that the later reads select, and with "combined_idle" the
idle overcommit workers count as well. -/
theorem peek_bounded_iff :
    (PeekBounded workerIdleThreshold workerMin ocwqIdleThreads idle "idle" 0 ↔
      PeekCovered workerIdleThreshold workerMin idle 0) ∧
    (PeekBounded workerIdleThreshold workerMin ocwqIdleThreads idle "combined_idle"
        ocwqIdleThreads.toNat ↔
      PeekCovered workerIdleThreshold workerMin idle ocwqIdleThreads.toNat) := by
  have value : ∀ {v : UInt64} {P : UInt64 → Prop}, (∃ x, some v = some x ∧ P x) ↔ P v := by simp
  constructor
  · have h := peekIdle_bounded workerIdleThreshold workerMin idle 0
    rw [toUInt64_zero, UInt64.add_zero] at h
    exact value.trans h
  · exact value.trans (peekIdle_bounded workerIdleThreshold workerMin idle ocwqIdleThreads)

end Peek

/-- On four processors the manager starts its workers between the first two reads of a call. -/
theorem peek_wraps : ∃ tr es c d, Machine.Free (program ⟨4, 4, 2, 0, false⟩) (initial 1 0) tr c ∧
    Machine.Free (program ⟨4, 4, 2, 0, false⟩) c es d ∧ ∃ idle : Nat → UInt32,
      (idle 0).toNat = c.shared.idle ∧ (idle 1).toNat = d.shared.idle ∧
      managerPeek 2 4 0 idle "idle" = some 18446744073709551614 ∧ ¬ PeekBounded 2 4 0 idle "idle" 0 ∧
      ¬ PeekBounded 2 4 0 idle "combined_idle" 0 := by
  obtain ⟨tr, c, hrun, hP⟩ := Machine.exists_run (M := program ⟨4, 4, 2, 0, false⟩)
    (g := fun _ _ => true) (c := initial 1 0) (createFirst 0 0 ++ [(1, .value 100), (1, .value 0)])
    (fun r => decide (r.1.shared.idle = 0) && ((program ⟨4, 4, 2, 0, false⟩).exec (fun _ _ => true) r.1
      (startWorker 1 ++ startWorker 1 ++ startWorker 1)).any fun q : PoolState × List Event =>
        decide (q.1.shared.idle = 3))
    (by decide +kernel)
  obtain ⟨hc, hsome⟩ := (Bool.and_eq_true _ _).mp hP
  obtain ⟨es, d, hrun', hd⟩ := Machine.exists_run _ _ hsome
  have hreads : (peekReads 2 fun n => if n = 0 then 0 else 3).all (fun r => decide (r.toNat ≤ 3)) =
      true := by decide +kernel
  refine ⟨tr, es, c, d, hrun.free, hrun'.free, fun n => if n = 0 then 0 else 3,
    (of_decide_eq_true hc).symm, (of_decide_eq_true hd).symm, by decide +kernel, ?_, ?_⟩ <;>
  · rintro ⟨v, hv, r, hr, hle⟩
    obtain rfl := Option.some.inj hv
    have := of_decide_eq_true (List.all_eq_true.mp hreads r hr)
    have := Nat.le_trans hle (Nat.add_le_add_right this 0)
    exact absurd this (by decide +kernel)

end PthreadWorkqueue.Posix
