import PthreadWorkqueue.Posix.Scoreboard

/-! The workers inside `wqlist_scan_spin` and the counter that limits the busy loop. -/
namespace PthreadWorkqueue.Posix
open Concurrency

variable {S : Settings} {sh : Shared} {t : Tid} {p : Thread} {ch : Choice} {o : Out} {c : PoolState}

def ScanKind.spins : ScanKind → Bool
  | .spin => true
  | .fast | .wait => false

/-- Between the increment and the decrement of `current_threads_spinning`. -/
def Thread.spinning : Thread → Bool
  | .worker _ p => match p with
    | .scan k _ => k.spins
    | .spinReadIdle _ | .spinPost _ | .spinLeave _ => true
    | _ => false
  | _ => false

/-- Let into the busy loop. -/
def Thread.admitted : Thread → Bool
  | .worker _ p => match p with
    | .scan k _ => k.spins
    | .spinReadIdle _ | .spinPost _ | .spinLeave (some _) => true
    | _ => false
  | _ => false

/-- Inside the while loop of `wqlist_scan_spin`. -/
def Thread.busy : Thread → Bool
  | .worker _ (.scan k _) => k.spins
  | _ => false

theorem Thread.busy_admitted (h : p.busy = true) : p.admitted = true := by
  cases p with
  | worker v x => cases x <;> first | exact h | cases h
  | _ => cases h

/-- A step moves the counter with the spinners, and lets one in only below the limit. -/
structure SpinStep (S : Settings) (sh : Shared) (p : Thread) (o : Out) : Prop where
  count : o.shared.currentThreadsSpinning + p.spinning.toNat =
    sh.currentThreadsSpinning + o.pc.spinning.toNat
  admitted : o.pc.admitted = true → p.admitted = true ∨
    sh.currentThreadsSpinning + 1 ≤ S.pwqSpinThreads
  spawned : ∀ r ∈ o.spawned, r.spinning = false ∧ r.admitted = false

namespace SpinStep

private theorem same (hc : o.shared.currentThreadsSpinning = sh.currentThreadsSpinning)
    (hs : o.pc.spinning = p.spinning) (ha : o.pc.admitted = true → p.admitted = true)
    (fresh : ∀ r ∈ o.spawned, r.spinning = false ∧ r.admitted = false) : SpinStep S sh p o :=
  ⟨by rw [hc, hs], fun h => .inl (ha h), fresh⟩

end SpinStep

theorem spin_count_step (h : Step S sh t p ch o)
    (hle : p.spinning.toNat ≤ sh.currentThreadsSpinning) : SpinStep S sh p o := by
  have fresh : ∀ r ∈ o.spawned, r.spinning = false ∧ r.admitted = false :=
    h.fresh ⟨rfl, rfl⟩ ⟨rfl, rfl⟩ ⟨rfl, rfl⟩
  cases h with
  | app h => cases h <;> exact .same rfl rfl nofun fresh
  | call h =>
    cases h with
    | quiet hq | quietReturn hq => obtain ⟨_, _, _, _, rfl⟩ := hq; exact .same rfl rfl nofun fresh
    | managerStart | ocCreate => exact .same rfl rfl nofun fresh
    | _ => exact .same rfl rfl nofun fresh
  | worker h =>
    cases h with
    | @nothing k => cases k <;> exact .same rfl rfl id fresh
    | @unlock k _ _ r => cases k <;> cases r <;> exact .same rfl rfl id fresh
    | spin hs => exact ⟨rfl, fun _ => .inr hs, fresh⟩
    | noSpin => exact ⟨rfl, nofun, fresh⟩
    | spinFound | spinRejected => exact ⟨atomicDec_add_one hle, nofun, fresh⟩
    | exitFree | free =>
      obtain ⟨_, _, he⟩ := witemFree_eq sh ‹Work›
      rw [he]
      exact .same rfl rfl nofun fresh
    | _ => exact .same rfl rfl id fresh
  | overcommit h =>
    cases h with
    | free =>
      obtain ⟨_, _, he⟩ := witemFree_eq sh ‹Work›
      rw [he]
      exact .same rfl rfl nofun fresh
    | _ => exact .same rfl rfl nofun fresh
  | manager h =>
    cases h with
    | plain hq => obtain ⟨_, _, _, _, rfl⟩ := hq; exact .same rfl rfl nofun fresh
    | created => exact .same rfl rfl nofun fresh
    | _ => exact .same rfl rfl nofun fresh

variable {G : PoolState → Nat × Choice → Prop} {users managers : Nat} {tr : List Event}

theorem spinning_eq (h : Machine.Run (program S) G (initial users managers) tr c) :
    c.shared.currentThreadsSpinning = c.number Thread.spinning := by
  refine h.number_eq Shared.currentThreadsSpinning Thread.spinning (initial_number rfl rfl).symm ?_
  intro tr c l p o _ _ mv hle
  have st := spin_count_step (program_step mv.next).2 hle
  have hzero : (o.spawned.map fun r => r.spinning.toNat).sum = 0 :=
    sum_map_eq_zero fun r hr => by rw [(st.spawned r hr).1]; rfl
  rw [hzero]
  exact st.count

/-- No more than PWQ_SPIN_THREADS workers are in the busy loop. -/
theorem admitted_le (h : Machine.Run (program S) G (initial users managers) tr c) :
    c.number Thread.admitted ≤ S.pwqSpinThreads := by
  refine h.invariant (fun _ c => c.number Thread.admitted ≤ S.pwqSpinThreads) ?_ ?_
  · rw [initial_number rfl rfl]
    exact Nat.zero_le _
  · intro tr c l p o hrun ih _ mv
    have hcount := spinning_eq hrun
    have hle : c.number Thread.admitted ≤ c.number Thread.spinning := by
      refine List.countP_mono_left fun r _ hr => ?_
      cases r with
      | worker v x => cases x <;> first | exact hr | rfl
      | _ => cases hr
    have hself : p.spinning.toNat ≤ c.shared.currentThreadsSpinning := by
      rw [hcount, Config.number_eq_total]
      exact c.le_total (fun r => r.spinning.toNat) mv.here
    have st := spin_count_step (program_step mv.next).2 hself
    have hnum := Outcome.number_apply (P := Thread.admitted) (o := o) mv.here
      fun r hr => (st.spawned r hr).2
    cases hx : o.pc.admitted with
    | false => simp only [hx, Bool.toNat_false] at hnum; omega
    | true =>
      simp only [hx, Bool.toNat_true] at hnum
      rcases st.admitted hx with hp | hs
      · simp only [hp, Bool.toNat_true] at hnum
        omega
      · omega

/-- The counter is the number of workers between its increment and its decrement in
`wqlist_scan_spin`, no decrement finds zero, and the busy loop holds no more workers than allowed. -/
theorem spin_limit (S : Settings) (users managers : Nat) (tr : List Event) (c : PoolState)
    (h : Machine.Free (program S) (initial users managers) tr c) :
    c.shared.currentThreadsSpinning = c.number Thread.spinning ∧
      (∀ (t : Tid) v r, c.threads[t]? = some (Thread.worker v (.spinLeave r)) →
        0 < c.shared.currentThreadsSpinning) ∧
      c.number Thread.busy ≤ S.pwqSpinThreads := by
  have hcount := spinning_eq h
  refine ⟨hcount, fun t v r hp => ?_, ?_⟩
  · rw [hcount]
    exact List.countP_pos_iff.mpr ⟨_, List.mem_of_getElem? hp, rfl⟩
  · calc c.number Thread.busy
      _ ≤ c.number Thread.admitted := List.countP_mono_left fun _ _ => Thread.busy_admitted
      _ ≤ S.pwqSpinThreads := admitted_le h

/-- One of two workers spins while the other, which was rejected, still counts. -/
theorem spin_limit_of_one : ∃ tr c,
    Machine.Free (program ⟨1, 2, 2, 1, false⟩) (initial 1 0) tr c ∧
      c.number Thread.spinning = 2 ∧ c.shared.currentThreadsSpinning = 2 ∧
      c.number Thread.busy ≤ 1 := by
  obtain ⟨tr, c, hrun, hP⟩ := Machine.exists_run (M := program ⟨1, 2, 2, 1, false⟩)
    (g := fun _ _ => true) (c := initial 1 0)
    (createFirst 0 0 ++ [(1, .value 100), (1, .value 0)] ++ startWorker 1 ++ startWorker 1 ++
      steps 2 3 ++ steps 3 3)
    (fun r => decide (r.1.number Thread.spinning = 2)) (by decide +kernel)
  obtain ⟨hcount, -, hle⟩ := spin_limit _ _ _ tr c hrun.free
  exact ⟨tr, c, hrun.free, of_decide_eq_true hP, hcount.trans (of_decide_eq_true hP), hle⟩

end PthreadWorkqueue.Posix
