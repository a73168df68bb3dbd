import PthreadWorkqueue.Concurrency.ReaderWriter
import PthreadWorkqueue.Windows.Coverage

/-! `pthread_rwlock_t` of Windows XP (`pthread_rw_lock.h`) with the spin lock that it is built from
(`pthread_create.h`), under any program that calls it. Every access to the lock is a step. The legacy
manager is such a program. -/
namespace PthreadWorkqueue.Windows
open Concurrency
open Posix (Tid atomicDec)

/-- `pthread_rwlock_t`. A unit of `r_ct` and `w_pending` is a thread; `w_ct` is an unsigned char. -/
structure Rwlock where
  /-- `pthread_spinlock_t`: whether it is EBUSY. -/
  mtx : Bool
  rCt : Nat
  wPending : Nat
  wCt : Nat
  wId : Option Tid
  deriving DecidableEq, Repr

/-- `pthread_rwlock_init`. -/
def Rwlock.init : Rwlock := ⟨false, 0, 0, 0, none⟩

/-- `l->w_ct++` and `l->w_ct--`. -/
def incByte (n : Nat) : Nat := (n + 1) % 2 ^ 8
def decByte (n : Nat) : Nat := if n = 0 then 2 ^ 8 - 1 else n - 1

/-- The accesses that are made with `l->mtx` held. The tests of the readers and of the writers say
whether they are those of the `try` variant. -/
inductive SectionPc where
  | testWCt (tries : Bool)
  | testWPending (tries : Bool)
  | incRCt
  | incWPending
  | testRCt (tries : Bool)
  | testNoWriter (tries : Bool)
  | decWPending
  | incWCt
  | setWId
  | testWId
  | clearWId
  | decWCt
  | decRCt
  /-- `pthread_spin_unlock` in the loop of the readers, and in that of the writers. -/
  | retryRead
  | retryWrite
  /-- `pthread_spin_unlock` at the end, and whether the function returns 0. -/
  | leave (ok : Bool)
  deriving DecidableEq, Repr

inductive RwlockPc where
  /-- `pthread_spin_lock`: the exchange, or the loop that reads `*l`; then the section begins. -/
  | exchange (p : SectionPc)
  | spin (p : SectionPc)
  | locked (p : SectionPc)
  deriving DecidableEq, Repr

/-- Where a function begins: all of them take the spin lock first. -/
def entry : RwCall → RwlockPc
  | .rdlock => .exchange (.testWCt false)
  | .wrlock => .exchange .incWPending
  | .unlock => .exchange .testWId
  | .tryrdlock => .exchange (.testWCt true)
  | .trywrlock => .exchange (.testRCt true)

/-- Where a test that fails leads. -/
def refuse (tries : Bool) (retry : SectionPc) : SectionPc := if tries then .leave false else retry

/-- A step inside of the functions; `inr` is the return. -/
def rwlockNext (l : Rwlock) (t : Tid) : RwlockPc → Rwlock × (RwlockPc ⊕ Bool)
  | .exchange p => if l.mtx then (l, .inl (.spin p)) else ({ l with mtx := true }, .inl (.locked p))
  | .spin p => (l, .inl (if l.mtx then .spin p else .exchange p))
  | .locked p => match p with
    /- pthread_rwlock_rdlock, pthread_rwlock_tryrdlock -/
    | .testWCt tries =>
      (l, .inl (.locked (if 0 < l.wCt then refuse tries .retryRead else .testWPending tries)))
    | .testWPending tries =>
      (l, .inl (.locked (if l.wPending ≠ 0 then refuse tries .retryRead else .incRCt)))
    | .incRCt => ({ l with rCt := l.rCt + 1 }, .inl (.locked (.leave true)))
    | .retryRead => ({ l with mtx := false }, .inl (.exchange (.testWCt false)))
    /- pthread_rwlock_wrlock, pthread_rwlock_trywrlock -/
    | .incWPending => ({ l with wPending := l.wPending + 1 }, .inl (.locked (.testRCt false)))
    | .testRCt tries =>
      (l, .inl (.locked (if 0 < l.rCt then refuse tries .retryWrite else .testNoWriter tries)))
    | .testNoWriter tries =>
      (l, .inl (.locked (if 0 < l.wCt then refuse tries .retryWrite
        else if tries then .incWCt else .decWPending)))
    | .retryWrite => ({ l with mtx := false }, .inl (.exchange (.testRCt false)))
    | .decWPending => ({ l with wPending := atomicDec l.wPending }, .inl (.locked .incWCt))
    | .incWCt => ({ l with wCt := incByte l.wCt }, .inl (.locked .setWId))
    | .setWId => ({ l with wId := some t }, .inl (.locked (.leave true)))
    /- pthread_rwlock_unlock -/
    | .testWId => (l, .inl (.locked (if l.wId = some t then .clearWId else .decRCt)))
    | .clearWId => ({ l with wId := none }, .inl (.locked .decWCt))
    | .decWCt => ({ l with wCt := decByte l.wCt }, .inl (.locked (.leave true)))
    | .decRCt => ({ l with rCt := atomicDec l.rCt }, .inl (.locked (.leave true)))
    | .leave ok => ({ l with mtx := false }, .inr ok)

/-- The memory of a program with the lock. -/
structure Guarded (σ : Type) where
  mem : σ
  lock : Rwlock

inductive Point (π : Type) where
  | run (p : π)
  /-- In the call that the thread makes at `p`. -/
  | inCall (p : π) (x : RwlockPc)
  deriving DecidableEq, Repr

variable {σ π χ ε : Type} (P : RwClient σ π χ ε)

def Point.after (p : π) : RwlockPc ⊕ Bool → Point π
  | .inl x => .inCall p x
  | .inr ok => .run (P.resume p ok)

/-- A step in a call. -/
def callStep (s : Guarded σ) (t : Tid) (p : π) (x : RwlockPc) : Outcome (Guarded σ) (Point π) ε :=
  ⟨{ s with lock := (rwlockNext s.lock t x).1 }, .after P p (rwlockNext s.lock t x).2, [], []⟩

/-- A program over the functions of the lock. -/
def overRwlock : Machine (Guarded σ) (Point π) χ ε := fun s t y ch =>
  if P.ended s.mem = false then
    match y with
    | .run p => match P.calls p with
      | none => (P.next s.mem t p ch).map (RwClient.lift (fun m => { s with mem := m }) .run)
      | some f => some ⟨s, .inCall p (entry f), [], []⟩
    | .inCall p x => some (callStep P s t p x)
  else none

/-- The start of the program, after `pthread_rwlock_init`. -/
def guardedStart (c : Config σ π) : Config (Guarded σ) (Point π) :=
  ⟨⟨c.shared, .init⟩, c.threads.map .run⟩

/-! The manager as a program with calls of `wqlist_mtx` -/

namespace Thread

def rwCall : Thread → Option RwCall
  | .call _ (.wrlock _) => some .wrlock
  | .worker .rdlock => some .rdlock
  | .call _ (.wrunlock _) | .worker (.rdunlock _) => some .unlock
  | _ => none

/-- Where the manager goes on after a call of the lock; it does not look at the result. -/
def rwResume : Thread → Thread
  | .call k (.wrlock q) => .call k (.createInsert q)
  | .call k (.wrunlock q) => .call k (.spinInit q)
  | .worker .rdlock => .worker (.visit 0 0)
  | .worker (.rdunlock (some w)) => .worker (.call w)
  | .worker (.rdunlock none) => .worker .exited
  | p => p

def rwMode (p : Thread) : RwMode := if p.writes then .write else if p.scans then .read else .out

end Thread

theorem rwMode_step {sh : Shared} {t : Tid} {p : Thread} {o : Out} (h : Step sh t p o)
    (hp : p.rwCall = none) : o.pc.rwMode = p.rwMode := by
  cases h <;> first | rfl | cases hp

/-- `manager.c` with `wqlist_mtx` outside of its memory. -/
def manager : RwClient Shared Thread Choice Event where
  next := program
  ended := Shared.aborted
  calls := Thread.rwCall
  resume p _ := p.rwResume
  mode := Thread.rwMode
  asks {p f} hc hf := by
    unfold Thread.rwCall at hc
    split at hc <;> cases hc <;> first | rfl | exact absurd rfl hf
  has {p} hc := by
    unfold Thread.rwCall at hc
    split at hc <;> cases hc <;> exact RwMode.noConfusion
  granted {p f} hc := by
    unfold Thread.rwCall at hc
    split at hc <;> cases hc <;> first | rfl | (rename_i r; cases r <;> rfl)
  refused {p f} hc hf := by
    unfold Thread.rwCall at hc
    split at hc <;> cases hc <;> cases hf
  own hc ho := rwMode_step (program_step ho) hc
  fresh _ ho r hr := by rw [(program_step ho).spawned r hr]; rfl

/-- A thread creates a queue up to the call of `pthread_rwlock_wrlock`. -/
def createUpToLock (t : Tid) (prio : Int) : List (Tid × Choice) :=
  [(t, .request (.create (some ⟨Posix.pthreadWorkqueueAttrSig, prio, 0⟩))), (t, .go), (t, .ok true)]

end PthreadWorkqueue.Windows
