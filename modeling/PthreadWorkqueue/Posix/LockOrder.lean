import PthreadWorkqueue.Posix.Locks

/-! The order of the locks: a queue's spin lock is taken under one of the two mutexes or under
none, a mutex under no lock at all. -/
namespace PthreadWorkqueue.Posix
open Concurrency

inductive Lock where
  | wqlistMtx
  | ocwqMtx
  | spin (q : QId)
  deriving DecidableEq, Repr

def Lock.rank : Lock → Nat
  | .wqlistMtx | .ocwqMtx => 0
  | .spin _ => 1

def Shared.holder : Lock → Shared → Option Tid
  | .wqlistMtx, sh => sh.wqlistMtx
  | .ocwqMtx, sh => sh.ocwqMtx
  | .spin q, sh => sh.spinLock q

namespace Thread

/-- The lock that the thread's next step takes. A thread inside a condition wait takes the mutex
once it has left the wait set. -/
def wants : Thread → Option Lock
  | .app _ => none
  | .call _ c => match c with
    | .add q _ .spinLock | .ocAdd q _ .spinLock => some (.spin q)
    | .add _ _ .lockMtx | .createLock _ => some .wqlistMtx
    | .ocAdd _ _ .lockMtx => some .ocwqMtx
    | _ => none
  | .worker _ p => match p with
    | .scan _ (.lock q) => some (.spin q)
    | .waitLock | .waiting => some .wqlistMtx
    | _ => none
  | .overcommit p => match p with
    | .lock | .timedwait => some .ocwqMtx
    | _ => none
  | .manager _ p => match p with
    | .stop _ _ (.lockMtx _) => some .wqlistMtx
    | .stop _ _ (.spinLock _ q) => some (.spin q)
    | _ => none

/-- Outside the library: a thread of the application, or a worker in a callback. -/
def inUserCode : Thread → Bool
  | .app _ => true
  | _ => false

/-- Inside a wait on a condition variable or on the semaphore. -/
def sleeps : Thread → Bool
  | .worker _ .waiting | .overcommit .timedwait => true
  | .manager _ .timedWait | .manager _ .semWait => true
  | _ => false

def holds (p : Thread) : Lock → Bool
  | .wqlistMtx => p.holdsMtx
  | .ocwqMtx => p.holdsOcMtx
  | .spin q => p.holdsSpin q

end Thread

variable {S : Settings} {t : Tid} {p : Thread} {c : PoolState} {l m : Lock}

theorem Thread.spin_of_wants (h : p.wants = some l) : p.spin = none := by
  cases p with
  | app => rfl
  | call k x =>
    cases x with
    | add q w x => cases x <;> first | rfl | cases h
    | ocAdd q w x => cases x <;> first | rfl | cases h
    | _ => rfl
  | worker v x =>
    cases x with
    | scan k x => cases x <;> first | rfl | cases h
    | _ => rfl
  | overcommit => rfl
  | manager v x =>
    cases x with
    | stop i n x => cases x <;> first | rfl | cases h
    | _ => rfl

/-- A thread that wants a mutex holds no mutex. -/
theorem Thread.mtx_of_wants (h : p.wants = some l) (hr : l.rank = 0) :
    p.holdsMtx = false ∧ p.holdsOcMtx = false := by
  cases p with
  | app => exact ⟨rfl, rfl⟩
  | call k x =>
    cases x with
    | add q w x => cases x <;> first | exact ⟨rfl, rfl⟩ | cases h
    | ocAdd q w x => cases x <;> first | exact ⟨rfl, rfl⟩ | (cases h; done) | (cases h; cases hr)
    | createLock => exact ⟨rfl, rfl⟩
    | _ => cases h
  | worker v x =>
    cases x with
    | scan k x => cases x <;> first | (cases h; done) | (cases h; cases hr)
    | waitLock | waiting => exact ⟨rfl, rfl⟩
    | _ => cases h
  | overcommit x => cases x <;> first | exact ⟨rfl, rfl⟩ | cases h
  | manager v x =>
    cases x with
    | stop i n x => cases x <;> first | exact ⟨rfl, rfl⟩ | (cases h; done) | (cases h; cases hr)
    | _ => cases h

theorem Thread.holds_rank (h : p.wants = some l) (hm : p.holds m = true) : m.rank < l.rank := by
  have hspin := Thread.spin_of_wants h
  cases hr : l.rank with
  | zero =>
    obtain ⟨h₁, h₂⟩ := Thread.mtx_of_wants h hr
    cases m with
    | wqlistMtx => rw [Thread.holds, h₁] at hm; cases hm
    | ocwqMtx => rw [Thread.holds, h₂] at hm; cases hm
    | spin q => simp [Thread.holds, Thread.holdsSpin, hspin] at hm
  | succ n =>
    cases m with
    | wqlistMtx | ocwqMtx => exact Nat.succ_pos n
    | spin q => simp [Thread.holds, Thread.holdsSpin, hspin] at hm

/-- The memory names a thread as the holder of a lock exactly if its program point holds it. -/
theorem Disciplined.holder_eq (hd : Disciplined c) (hp : c.threads[t]? = some p) :
    c.shared.holder m = some t ↔ p.holds m = true := by
  cases m with
  | wqlistMtx => exact hd.mtx.at hp
  | ocwqMtx => exact hd.ocMtx.at hp
  | spin q => exact (hd.spin q).at hp

/-- User code and sleeping threads hold no lock. -/
theorem Thread.holds_nothing (h : p.inUserCode = true ∨ p.sleeps = true) : p.holds m = false := by
  have free : p.holdsMtx = false ∧ p.holdsOcMtx = false ∧ p.spin = none := by
    rcases h with h | h
    · cases p <;> first | exact ⟨rfl, rfl, rfl⟩ | cases h
    · cases p with
      | worker v x => cases x <;> first | exact ⟨rfl, rfl, rfl⟩ | cases h
      | overcommit x => cases x <;> first | exact ⟨rfl, rfl, rfl⟩ | cases h
      | manager v x => cases x <;> first | exact ⟨rfl, rfl, rfl⟩ | cases h
      | _ => cases h
  cases m with
  | wqlistMtx => exact free.1
  | ocwqMtx => exact free.2.1
  | spin q => simp [Thread.holds, Thread.holdsSpin, free.2.2]

/-- No cycle of threads wait for each other's locks, and no lock is held by a thread in a callback
or in a wait. -/
theorem no_lock_deadlock (S : Settings) (users managers : Nat) (tr : List Event) (c : PoolState)
    (h : Machine.Free (program S) (initial users managers) tr c) :
    (∀ t, ¬ Relation.TransGen (WaitsFor Shared.holder Thread.wants c) t t) ∧
      ∀ (t : Tid) (p : Thread), c.threads[t]? = some p →
        p.inUserCode = true ∨ p.sleeps = true → ∀ l, c.shared.holder l ≠ some t := by
  have hd := disciplined h
  refine ⟨fun t => ?_, fun t p hp hs l hl => ?_⟩
  · refine WaitsFor.acyclic Lock.rank fun u p l m hp hl hm => ?_
    exact Thread.holds_rank hl ((hd.holder_eq hp).mp hm)
  · have := (hd.holder_eq hp).mp hl
    rw [Thread.holds_nothing hs] at this
    cases this

/-- Two threads add to one queue: the second waits for the spin lock of the first. -/
theorem no_lock_deadlock_of_two : ∃ tr c,
    Machine.Free (program ⟨2, 2, 2, 0, false⟩) (initial 2 0) tr c ∧
      WaitsFor Shared.holder Thread.wants c 1 0 ∧
      ∀ t, ¬ Relation.TransGen (WaitsFor Shared.holder Thread.wants c) t t := by
  obtain ⟨tr, c, hrun, hP⟩ := Machine.exists_run (M := program ⟨2, 2, 2, 0, false⟩)
    (g := fun _ _ => true) (c := initial 2 0)
    (createFirst 0 0 ++ [(0, .request (.additem 0 (some 7) 70))] ++ steps 0 4 ++
      [(1, .request (.additem 0 (some 8) 80))] ++ steps 1 3)
    (fun r => decide ((r.1.threads[1]?).bind Thread.wants = some (.spin 0) ∧
      r.1.shared.holder (.spin 0) = some 0)) (by decide +kernel)
  obtain ⟨h₁, h₂⟩ := of_decide_eq_true hP
  obtain ⟨p, hp, hw⟩ := Option.bind_eq_some_iff.mp h₁
  exact ⟨tr, c, hrun.free, ⟨p, .spin 0, hp, hw, h₂⟩, (no_lock_deadlock _ _ _ tr c hrun.free).1⟩

end PthreadWorkqueue.Posix
