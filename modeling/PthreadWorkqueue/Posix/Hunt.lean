import PthreadWorkqueue.Posix.ScanOrder
import PthreadWorkqueue.Posix.Spinners

/-! The hunt of the workers for one item. Workers in the slow path take the exit markers before it
out of the way, unless too many workers spin, which step over no marker. What a hunt keeps, and what
a step of a worker brings it. A worker that has chosen the item's queue already needs no such help,
if the item is at its head. -/
namespace PthreadWorkqueue.Posix
open Concurrency

variable {S : Settings} {sh : Shared} {t : Tid} {p : Thread} {ch : Choice} {o : Out}
  {c : PoolState} {q : QId} {wq : Workq} {w : Work}

/-- A scan in the slow path that has chosen no queue, or has found a real item. -/
def ScanPc.rejoins : ScanPc → Bool
  | .readMask => true
  | .clear _ w | .unlock _ (some w) => !w.isMarker
  | _ => false

/-- The queue that a scan has chosen and has not dealt with. -/
def ScanPc.choice (sh : Shared) : ScanPc → Option QId
  | .readSlot idx => sh.wqlist (idx - 1)
  | .lock q | .first q | .remove q _ => some q
  | _ => none

/-- A scan at which the schedule below does not stop. -/
def ScanPc.eager (k : ScanKind) : ScanPc → Bool
  | .readMask => !k.spins
  | _ => true

def ScanKind.rank : ScanKind → Nat
  | .fast => 40
  | .spin => 25
  | .wait => 32

def ScanPc.rank (k : ScanKind) : ScanPc → Nat
  | .readMask => if k.spins then k.rank else k.rank + 5
  | .readSlot _ => k.rank + 4
  | .lock _ => k.rank + 3
  | .first _ => k.rank + 2
  | .unlock _ none => k.rank + 1
  | .remove _ _ => 24
  | .clear _ w => if w.isMarker then 23 else 60
  | .unlock _ (some w) => if w.isMarker then 22 else 59

namespace WorkerPc

/-- A worker that looks for items or will do so again: it does not leave with a marker, and it has
not chosen a queue in the slow path. -/
def roams : WorkerPc → Bool
  | .scan k p => !k.locked || p.rejoins
  | .start | .spinEnter | .spinReadIdle _ | .spinPost _ | .spinLeave _ | .waitLock | .waiting => true
  | .waitUnlock w | .waitReadIdle w | .waitPost w | .waitTest w => !w.isMarker
  | .decIdle _ | .invoke _ | .incIdle _ | .free _ => true
  | .condWait | .exitDecIdle _ | .exitDecCount _ | .exitFree _ | .exited => false

/-- On the way into the slow path, or in it without a queue. -/
def slow : WorkerPc → Bool
  | .scan k .readMask => k.locked
  | .spinLeave none | .waitLock | .waiting => true
  | _ => false

/-- The points at which the schedule below does not stop. -/
def eager : WorkerPc → Bool
  | .scan k p => p.eager k
  | .condWait | .waitUnlock _ => true
  | p => p.roams

/-- An upper bound on the steps before the worker spins, sleeps, or leaves with a marker. -/
def rank : WorkerPc → Nat
  | .scan k p => p.rank k
  | .spinReadIdle _ => 58
  | .spinPost _ => 57
  | .spinLeave (some _) => 56
  | .waitUnlock w => if w.isMarker then 21 else 58
  | .waitReadIdle w => if w.isMarker then 0 else 57
  | .waitPost w => if w.isMarker then 0 else 56
  | .waitTest w => if w.isMarker then 0 else 55
  | .decIdle _ => 54
  | .invoke _ => 53
  | .incIdle _ => 51
  | .free _ => 50
  | .start => 46
  | .spinEnter => 40
  | .spinLeave none => 39
  | .waitLock | .waiting => 38
  | .condWait => 32
  | .exitDecIdle _ | .exitDecCount _ | .exitFree _ | .exited => 0

end WorkerPc

namespace Thread

def roams : Thread → Bool
  | .app k => k.isWorker
  | .worker _ p => p.roams
  | _ => false

/-- The workers that may end up in the busy loop. -/
def fastSide : Thread → Bool
  | .app k => k.isWorker
  | .worker _ p => p.roams && !p.slow
  | _ => false

/-- In the slow path, at a queue with an item, no later than that of `w`. -/
def onTrack (w : Work) (sh : Shared) : Thread → Bool
  | .worker _ (.scan k p) => k.locked && (p.choice sh).any (sh.leadsTo w)
  | _ => false

/-- In any scan, at a queue with `w` at its head. -/
def faces (w : Work) (sh : Shared) : Thread → Bool
  | .worker _ (.scan _ p) => (p.choice sh).any fun q => (sh.items q).head? == some w
  | _ => false

def eager : Thread → Bool
  | .app k => k.isWorker
  | .worker _ p => p.eager
  | _ => false

def rank : Thread → Nat
  | .app k => if k.isWorker then 52 else 0
  | .worker _ p => p.rank
  | _ => 0

def inWorkerMain : Thread → Bool
  | .worker _ _ => true
  | _ => false

end Thread

/-- The workers that can dequeue `w`: they roam or are on track, and are not asleep. -/
def helpers (w : Work) (c : PoolState) : Nat :=
  c.number Thread.roams + c.number (Thread.onTrack w c.shared) - c.shared.wqlistHasWork.length

/-- The workers that it takes to dequeue an item: one, or if markers come before it, one for each of
them and as many as may be in the busy loop, which passes no marker. -/
def Settings.toPass (S : Settings) (markers spinners : Nat) : Nat :=
  if markers = 0 then 1 else markers + max 1 (min S.pwqSpinThreads spinners)

/-- The workers that it takes to dequeue `w`. Those on the fast path may end up in the busy loop, and
so may one for each real item that is dequeued before. -/
def needed (S : Settings) (w : Work) (c : PoolState) : Nat :=
  S.toPass (c.shared.markersBefore w) (c.number Thread.fastSide + c.shared.realBefore w)

/-- What the schedule below keeps until it dequeues the item `target`. -/
structure Hunt (S : Settings) (target : Work) (c : PoolState) : Prop where
  alive : c.shared.halted = none
  outside : ∀ (t : Tid) (p : Thread), c.threads[t]? = some p →
    p.inWorkerMain = true ∨ (p.holdsMtx = false ∧ p.spin = none)
  real : target.isMarker = false
  queued : target ∈ c.shared.scanOrder
  enough : needed S target c + c.shared.wqlistHasWork.length ≤
    c.number Thread.roams + c.number (Thread.onTrack target c.shared)

/-- Falls with every step of the schedule; a worker that falls asleep has no more steps. -/
def huntRank (c : PoolState) : Nat :=
  c.total Thread.rank + 39 * (c.threads.length - c.shared.wqlistHasWork.length) +
    40 * c.shared.scanOrder.length

/-- Enough workers even without the one that is on track. -/
def EnoughRoaming (S : Settings) (target : Work) (c : PoolState) : Prop :=
  needed S target c + c.shared.wqlistHasWork.length ≤ c.number Thread.roams

/-- The schedule goes on after a step from `c` to `d`. -/
structure Kept (S : Settings) (target : Work) (c d : PoolState) : Prop where
  hunt : Hunt S target d
  rank : huntRank d < huntRank c
  needed : needed S target d ≤ needed S target c + (d.number Thread.roams - c.number Thread.roams)

theorem SameItems.onTrack {sh' : Shared} (h : SameItems sh sh') :
    Thread.onTrack w sh' = Thread.onTrack w sh := by
  funext p
  cases p with
  | worker v x =>
    cases x with
    | scan k x => cases x <;> simp [Thread.onTrack, ScanPc.choice, h.leadsTo, h.1]
    | _ => rfl
  | _ => rfl

theorem Settings.toPass_pos {m n : Nat} : 1 ≤ S.toPass m n := by
  unfold Settings.toPass
  split <;> omega

/-- More workers may spin; each of them calls for one more, unless a marker has gone. -/
theorem Settings.toPass_le {m m' n n' k : Nat} (hm : m' ≤ m) (hn : n' ≤ n + k) :
    S.toPass m' n' ≤ S.toPass m n + k := by
  unfold Settings.toPass
  split <;> split <;> omega

theorem Settings.toPass_lt {m m' n n' : Nat} (hm : m' + 1 = m) (hn : n' ≤ n) :
    S.toPass m' n' + 1 ≤ S.toPass m n := by
  unfold Settings.toPass
  split <;> split <;> omega

theorem sameItems_of_quiet {sh' : Shared} (hwq : sh'.wqlist = sh.wqlist)
    (h : ∀ r, sh.items r ++ [] = [] ++ sh'.items r) : SameItems sh sh' :=
  ⟨hwq, fun r => by simpa using (h r).symm⟩

theorem Thread.onTrack_holds (h : p.onTrack w sh = true) : p.holdsMtx = true := by
  cases p with
  | worker v x =>
    cases x with
    | scan k x => exact (Bool.and_eq_true_iff.mp h).1
    | _ => cases h
  | _ => cases h

theorem needed_apply {k : Nat} {target : Work} (hp : c.threads[t]? = some p) (fresh : o.spawned = [])
    (hm : o.shared.markersBefore target ≤ c.shared.markersBefore target)
    (hn : o.pc.fastSide.toNat + o.shared.realBefore target ≤
      p.fastSide.toNat + c.shared.realBefore target + k) :
    needed S target (o.apply c t) ≤ needed S target c + k := by
  have hfast := Outcome.number_apply (P := Thread.fastSide) (o := o) hp (by simp [fresh])
  refine Settings.toPass_le hm ?_
  change _ + o.shared.realBefore target ≤ _
  omega

namespace Hunt
variable {target : Work}

/-- A step keeps the invariant if it pays for every worker that it takes away. -/
private theorem move (hI : Hunt S target c) (hp : c.threads[t]? = some p)
    (hn : o.shared.halted = none) (fresh : o.spawned = [])
    (hout : o.pc.inWorkerMain = true ∨ (o.pc.holdsMtx = false ∧ o.pc.spin = none))
    (hqueued : target ∈ o.shared.scanOrder)
    (pay : (needed S target (o.apply c t) + o.shared.wqlistHasWork.length + p.roams.toNat +
        c.number (Thread.onTrack target c.shared) ≤
      needed S target c + c.shared.wqlistHasWork.length + o.pc.roams.toNat +
        (o.apply c t).number (Thread.onTrack target o.shared)) ∨
      (EnoughRoaming S target c ∧
        needed S target (o.apply c t) + p.roams.toNat ≤ needed S target c + o.pc.roams.toNat ∧
        o.shared.wqlistHasWork = c.shared.wqlistHasWork)) : Hunt S target (o.apply c t) := by
  have hroams := Outcome.number_apply (P := Thread.roams) (o := o) hp (by simp [fresh])
  have henough := hI.enough
  refine ⟨hn, ?_, hI.real, hqueued, ?_⟩
  · exact Outcome.forall_apply hI.outside hp (fun _ => hout) (fun _ _ _ _ h => h) (by simp [fresh])
  · change _ + o.shared.wqlistHasWork.length ≤
      _ + (o.apply c t).number (Thread.onTrack target o.shared)
    rcases pay with pay | ⟨roaming, hle, hW⟩
    · omega
    · unfold EnoughRoaming at roaming
      rw [hW]
      omega

private theorem rank_lt (hp : c.threads[t]? = some p) (fresh : o.spawned = [])
    (hdrop : o.pc.rank + 39 * (c.threads.length - o.shared.wqlistHasWork.length) +
        40 * o.shared.scanOrder.length <
      p.rank + 39 * (c.threads.length - c.shared.wqlistHasWork.length) +
        40 * c.shared.scanOrder.length) :
    huntRank (o.apply c t) < huntRank c := by
  have htotal := Outcome.total_apply (o := o) Thread.rank hp
  have hlen : (o.apply c t).threads.length = c.threads.length := by simp [Outcome.apply, fresh]
  simp only [fresh, List.map_nil, List.sum_nil] at htotal
  unfold huntRank
  rw [hlen]
  change _ + 39 * (_ - o.shared.wqlistHasWork.length) + 40 * o.shared.scanOrder.length < _
  omega

/-- A step that moves no item. -/
theorem keep (hI : Hunt S target c) (hp : c.threads[t]? = some p)
    (hn : o.shared.halted = none) (hwq : o.shared.wqlist = c.shared.wqlist)
    (hitems : ∀ r, c.shared.items r ++ [] = [] ++ o.shared.items r) (fresh : o.spawned = [])
    (hW : o.shared.wqlistHasWork = c.shared.wqlistHasWork)
    (hout : o.pc.inWorkerMain = true ∨ (o.pc.holdsMtx = false ∧ o.pc.spin = none))
    (hval : p.roams.toNat + (p.onTrack target c.shared).toNat ≤
      o.pc.roams.toNat + (o.pc.onTrack target c.shared).toNat)
    (hside : o.pc.fastSide.toNat ≤ p.fastSide.toNat) (hrank : o.pc.rank < p.rank) :
    Kept S target c (o.apply c t) := by
  have hsame := sameItems_of_quiet hwq hitems
  have htrack := Outcome.number_apply (P := Thread.onTrack target c.shared) (o := o) hp (by simp [fresh])
  have hneed : needed S target (o.apply c t) ≤ needed S target c := by
    refine needed_apply (k := 0) hp fresh (hsame.markersBefore target).le ?_
    rw [hsame.realBefore]
    omega
  refine ⟨hI.move hp hn fresh hout (hsame.scanOrder ▸ hI.queued) (.inl ?_), rank_lt hp fresh ?_,
    hneed.trans (Nat.le_add_right _ _)⟩
  · rw [hW, hsame.onTrack]
    omega
  · rw [hW, hsame.scanOrder]
    omega

/-- A worker that chose an empty queue in the slow path falls asleep. -/
private theorem sleep (hI : Hunt S target c) (hp : c.threads[t]? = some p)
    (hn : o.shared.halted = none) (hd : Disciplined (o.apply c t))
    (hwq : o.shared.wqlist = c.shared.wqlist)
    (hitems : ∀ r, c.shared.items r ++ [] = [] ++ o.shared.items r) (fresh : o.spawned = [])
    (hW : o.shared.wqlistHasWork = t :: c.shared.wqlistHasWork) {v : WorkerVars}
    (hx : p = .worker v .condWait) (hpc : o.pc = .worker v .waiting) :
    Kept S target c (o.apply c t) := by
  have hsame := sameItems_of_quiet hwq hitems
  have htrack := Outcome.number_apply (P := Thread.onTrack target c.shared) (o := o) hp (by simp [fresh])
  have hneed : needed S target (o.apply c t) ≤ needed S target c := by
    refine needed_apply (k := 0) hp fresh (hsame.markersBefore target).le ?_
    rw [hsame.realBefore, hpc]
    exact Nat.add_le_add_right (Nat.zero_le _) _
  have hlen : c.shared.wqlistHasWork.length + 1 ≤ c.threads.length := by
    have hsleep := hd.wait.number_eq
    have hle : (o.apply c t).number Thread.waits ≤ (o.apply c t).threads.length := List.countP_le_length
    change _ + o.shared.wqlistHasWork.length = _ at hsleep
    simp only [Outcome.apply, fresh, List.append_nil, List.length_set] at hle
    rw [hW, List.length_cons] at hsleep
    simp only [Outcome.apply, fresh, List.append_nil] at hsleep
    omega
  rw [hx, hpc] at htrack
  refine ⟨hI.move hp hn fresh (by rw [hpc]; exact .inl rfl) (hsame.scanOrder ▸ hI.queued) (.inl ?_),
    rank_lt hp fresh ?_, hneed.trans (Nat.le_add_right _ _)⟩
  · rw [hW, hsame.onTrack, hx, hpc, List.length_cons]
    simp only [Thread.roams, WorkerPc.roams, Thread.onTrack, Bool.toNat_true, Bool.toNat_false] at htrack ⊢
    omega
  · rw [hW, hx, hpc, List.length_cons, hsame.scanOrder]
    simp only [Thread.rank, WorkerPc.rank]
    omega

/-- A worker takes a real item that is not the target. If it was on track, it spins in that item's
place; if not, it is one more that helps. -/
theorem takeReal {rest : List Work} {i : Nat} (hI : Hunt S target c) (hr : Registry c)
    (hp : c.threads[t]? = some p) (hn : o.shared.halted = none) (fresh : o.spawned = [])
    (hout : o.pc.inWorkerMain = true ∨ (o.pc.holdsMtx = false ∧ o.pc.spin = none))
    (hW : o.shared.wqlistHasWork = c.shared.wqlistHasWork) (hi : c.shared.wqlist i = some q)
    (hl : c.shared.items q = w :: rest) (hne : w ≠ target) (hw : w.isMarker = false)
    (hwq : o.shared.wqlist = c.shared.wqlist)
    (hitems : ∀ r, o.shared.items r = if q = r then rest else c.shared.items r)
    (hroams : p.roams.toNat + (p.onTrack target c.shared).toNat ≤ o.pc.roams.toNat)
    (hfast : o.pc.fastSide.toNat + p.roams.toNat ≤ p.fastSide.toNat + o.pc.roams.toNat)
    (hreach : p.onTrack target c.shared = true → c.shared.reaches target i = true)
    (hrank : o.pc.rank < p.rank + 40)
    (hpay : c.number (Thread.onTrack target c.shared) ≤ (p.onTrack target c.shared).toNat ∨
      EnoughRoaming S target c) : Kept S target c (o.apply c t) := by
  obtain ⟨hm, hreal, -, hitem, hqueued, hlen⟩ := hr.passed hi hl hne hwq hitems
  have hmore := Outcome.number_apply (P := Thread.roams) (o := o) hp (by simp [fresh])
  have hneed : needed S target (o.apply c t) ≤
      needed S target c + (o.pc.roams.toNat - p.roams.toNat) :=
    needed_apply hp fresh hm (by omega)
  have hleft : p.onTrack target c.shared = true →
      needed S target (o.apply c t) ≤ needed S target c := fun htrack => by
    refine needed_apply (k := 0) hp fresh hm ?_
    have := hitem (hreach htrack) hw
    have := Bool.toNat_le o.pc.roams
    omega
  refine ⟨hI.move hp hn fresh hout (hqueued hI.queued) ?_, rank_lt hp fresh (by rw [hW]; omega),
    hneed.trans (by omega)⟩
  rcases hpay with hone | roaming
  · refine .inl ?_
    rw [hW]
    cases htrack : p.onTrack target c.shared with
    | false =>
      simp only [htrack, Bool.toNat_false] at hone hroams
      omega
    | true =>
      have := hleft htrack
      simp only [htrack, Bool.toNat_true] at hone hroams
      omega
  · exact .inr ⟨roaming, by omega, hW⟩

/-- A worker takes a marker in the slow path. -/
private theorem takeMarker {v v' : WorkerVars} {y : ScanPc} {rest : List Work} {i : Nat}
    (hI : Hunt S target c) (hr : Registry c) (hp : c.threads[t]? = some p)
    (hn : o.shared.halted = none) (hx : p = .worker v (.scan .wait (.remove q w)))
    (hpc : o.pc = .worker v' (.scan .wait y)) (hy : y = .clear q w ∨ y = .unlock q (some w))
    (fresh : o.spawned = []) (hW : o.shared.wqlistHasWork = c.shared.wqlistHasWork)
    (hi : c.shared.wqlist i = some q) (hl : c.shared.items q = w :: rest) (hne : w ≠ target)
    (hwq : o.shared.wqlist = c.shared.wqlist)
    (hitems : ∀ r, o.shared.items r = if q = r then rest else c.shared.items r)
    (hreach : p.onTrack target c.shared = true → c.shared.reaches target i = true)
    (hone : c.number (Thread.onTrack target c.shared) ≤ (p.onTrack target c.shared).toNat)
    (hw : w.isMarker = true) : Kept S target c (o.apply c t) := by
  obtain ⟨hm, hreal, hmarker, -, hqueued, hlen⟩ := hr.passed hi hl hne hwq hitems
  have hroams : p.roams = false ∧ o.pc.roams = false ∧ o.pc.fastSide = false := by
    rw [hx, hpc]
    rcases hy with rfl | rfl <;> simp [Thread.roams, Thread.fastSide, WorkerPc.roams,
      ScanPc.rejoins, ScanKind.locked, hw]
  have hrank : o.pc.rank ≤ 60 ∧ p.rank = 24 := by
    rw [hx, hpc]
    rcases hy with rfl | rfl <;> simp [Thread.rank, WorkerPc.rank, ScanPc.rank, hw]
  have hfast := Outcome.number_apply (P := Thread.fastSide) (o := o) hp (by simp [fresh])
  rw [hroams.2.2, Bool.toNat_false] at hfast
  have hneed : needed S target (o.apply c t) ≤ needed S target c := by
    refine needed_apply (k := 0) hp fresh hm ?_
    rw [hroams.2.2, Bool.toNat_false]
    omega
  refine ⟨hI.move hp hn fresh (by rw [hpc]; exact .inl rfl) (hqueued hI.queued) (.inl ?_),
    rank_lt hp fresh (by rw [hW]; omega), hneed.trans (Nat.le_add_right _ _)⟩
  rw [hW, hroams.1, hroams.2.1]
  cases htrack : p.onTrack target c.shared with
  | false =>
    simp only [htrack, Bool.toNat_false] at hone ⊢
    omega
  | true =>
    have hless : needed S target (o.apply c t) + 1 ≤ needed S target c := by
      refine Settings.toPass_lt (hmarker (hreach htrack) hw) ?_
      change _ + o.shared.realBefore target ≤ _
      omega
    simp only [htrack, Bool.toNat_true, Bool.toNat_false] at hone ⊢
    omega

end Hunt

/-- Dequeues a real item. -/
def Event.dequeuesReal : Event → Prop
  | .dequeue _ _ w => w.func ≠ none
  | _ => False

private theorem lt_of_ble {m n : Nat} (h : Nat.ble (m + 1) n = true) : m < n := Nat.le_of_ble_eq_true h

/-- What a step of the schedule brings. It keeps the invariant and lowers the rank, or it dequeues a
real item; if this is not the target, it keeps the invariant all the same, when no other worker has
chosen the same queue. -/
def Brings (S : Settings) (target : Work) (c : PoolState) (t : Tid) (p : Thread) (o : Out) : Prop :=
  Kept S target c (o.apply c t) ∨
    ∃ q w, Event.dequeue t q w ∈ o.events ∧ w.func ≠ none ∧ (w = target ∨
      (c.number (Thread.onTrack target c.shared) ≤ (p.onTrack target c.shared).toNat ∨
        EnoughRoaming S target c → Kept S target c (o.apply c t)))

variable {v : WorkerVars} {x : WorkerPc}

private theorem clear_rank {k : ScanKind} : (Thread.worker v (.scan k (.unlock q (some w)))).rank <
    (Thread.worker v (.scan k (.clear q w))).rank := by
  cases hw : w.isMarker <;> simp [Thread.rank, WorkerPc.rank, ScanPc.rank, hw]

private theorem unlock_rank {k : ScanKind} {r : Option Work}
    (ok : (Thread.worker v (.scan k (.unlock q r))).markerOk) :
    (Thread.worker v (scanReturn k r)).rank < (Thread.worker v (.scan k (.unlock q r))).rank := by
  cases r with
  | none => cases k <;> exact lt_of_ble rfl
  | some w =>
    cases k with
    | fast | spin =>
      simp [Thread.rank, WorkerPc.rank, ScanPc.rank, scanReturn, Work.isMarker_eq_false (ok rfl)]
    | wait =>
      cases hw : w.isMarker <;> simp [Thread.rank, WorkerPc.rank, ScanPc.rank, scanReturn, hw]

namespace Hunt
variable {target : Work}

/-- At most the owner of `wqlist_mtx` is on track. -/
private theorem onTrack_le (hd : Disciplined c) (hp : c.threads[t]? = some p)
    (hm : p.holdsMtx = true) :
    c.number (Thread.onTrack target c.shared) ≤ (p.onTrack target c.shared).toNat := by
  refine Config.number_le_of_unique (z := .app .user) hp rfl fun u r hu htrack => ?_
  exact hd.mtx_unique hp hm hu (Thread.onTrack_holds htrack)

/-- The dequeue of a scan. -/
private theorem remove {k : ScanKind} {y : ScanPc} {v' : WorkerVars} (hI : Hunt S target c)
    (hr : Registry c) (hd : Disciplined c)
    (hp : c.threads[t]? = some (.worker v (.scan k (.remove q w))))
    (ok : (Thread.worker v (.scan k (.remove q w))).markerOk) (hn : o.shared.halted = none)
    (hpc : o.pc = .worker v' (.scan k y)) (hy : y = .clear q w ∨ y = .unlock q (some w))
    (fresh : o.spawned = []) (hW : o.shared.wqlistHasWork = c.shared.wqlistHasWork)
    (hi : c.shared.wqlist i = some q) (hwq : o.shared.wqlist = c.shared.wqlist)
    (hitems : ∀ r, c.shared.items r ++ [] = dequeuedFrom r [.dequeue t q w] ++ o.shared.items r)
    (hev : o.events = [.dequeue t q w]) :
    Brings S target c t (.worker v (.scan k (.remove q w))) o := by
  have hl : c.shared.items q = w :: o.shared.items q := by simpa [dequeuedFrom] using hitems q
  have hitems : ∀ r, o.shared.items r = if q = r then o.shared.items q else c.shared.items r := by
    intro r
    by_cases hqr : q = r
    · rw [if_pos hqr, hqr]
    · simpa [dequeuedFrom, hqr] using (hitems r).symm
  have hreach : (Thread.worker v (.scan k (.remove q w))).onTrack target c.shared = true →
      c.shared.reaches target i = true := fun htrack => by
    obtain ⟨j, -, hj, hreach⟩ := Shared.leadsTo_iff.mp (Bool.and_eq_true_iff.mp htrack).2
    obtain ⟨wq, hreg, _⟩ := hr.slots i q hi
    rwa [(hr.index_eq hi hreg.here).1, ← (hr.index_eq hj hreg.here).1]
  by_cases hf : w.func = none
  · have hkind : k = .wait := by
      cases k with
      | wait => rfl
      | fast | spin => exact absurd hf (ok rfl)
    have hmark : w.isMarker = true := by simp [Work.isMarker, hf]
    have hne : w ≠ target := fun he => by
      have := hI.real
      rw [← he, hmark] at this
      cases this
    subst hkind
    exact .inl (hI.takeMarker hr hp hn rfl hpc hy fresh hW hi hl hne hwq hitems hreach
      (onTrack_le hd hp rfl) hmark)
  · refine .inr ⟨q, w, by rw [hev]; exact List.mem_singleton_self _, hf, ?_⟩
    have hw := Work.isMarker_eq_false hf
    have hroams : (Thread.worker v (.scan k (.remove q w))).roams.toNat +
        ((Thread.worker v (.scan k (.remove q w))).onTrack target c.shared).toNat ≤
          o.pc.roams.toNat := by
      rw [hpc]
      rcases hy with rfl | rfl <;> cases k <;> simp [Thread.roams, WorkerPc.roams, Thread.onTrack,
        ScanPc.rejoins, ScanKind.locked, hw, Bool.toNat_le]
    have hfast : o.pc.fastSide.toNat + (Thread.worker v (.scan k (.remove q w))).roams.toNat ≤
        (Thread.worker v (.scan k (.remove q w))).fastSide.toNat + o.pc.roams.toNat := by
      rw [hpc]
      rcases hy with rfl | rfl <;> cases k <;> simp [Thread.roams, Thread.fastSide, WorkerPc.roams,
        WorkerPc.slow, ScanPc.rejoins, ScanKind.locked, hw]
    have hrank : o.pc.rank < 24 + 40 := by
      rw [hpc]
      rcases hy with rfl | rfl <;> simp [Thread.rank, WorkerPc.rank, ScanPc.rank, hw]
    by_cases hne : w = target
    · exact .inl hne
    · exact .inr fun hpay => hI.takeReal hr hp hn fresh (by rw [hpc]; exact .inl rfl) hW hi hl hne hw
        hwq hitems hroams hfast hreach hrank hpay

/-- A scan dequeues a real item, or its step keeps the invariant and lowers the rank. -/
private theorem scan {k : ScanKind} {y : ScanPc} (hI : Hunt S target c) (hr : Registry c)
    (hm : Masks c) (hd : Disciplined c) (hp : c.threads[t]? = some (.worker v (.scan k y)))
    (ok : (Thread.worker v (.scan k y)).markerOk)
    (h : WorkerStep S c.shared t v (.scan k y) .go o) (hn : o.shared.halted = none)
    (eager : y.eager k = true)
    (tidy : WorkerPc.scan k y = .scan .wait .readMask →
      ∀ (q : QId) (wq : Workq), c.shared.queues[q]? = some wq → wq.mtx = none) :
    Brings S target c t (.worker v (.scan k y)) o := by
  have hitems := (list_step hm hr hp (.worker h)).items
  cases h with
  | fault => cases hn
  | @nothing k hz =>
    cases k with
    | fast =>
      exact .inl (hI.keep hp hn rfl hitems rfl rfl (.inl rfl) (Nat.le_refl _)
        (Nat.le_refl _) (lt_of_ble rfl))
    | spin => cases eager
    | wait =>
      have hf := hm.front_eq hr (tidy rfl)
      rw [if_pos hz] at hf
      exact absurd hf (Shared.front_ne_none (List.ne_nil_of_mem hI.queued))
  | @readMask k hz =>
    cases k with
    | fast =>
      exact .inl (hI.keep hp hn rfl hitems rfl rfl (.inl rfl) (Nat.le_refl _)
        (Nat.le_refl _) (lt_of_ble rfl))
    | spin => cases eager
    | wait =>
      have hf := hm.front_eq hr (tidy rfl)
      rw [if_neg hz] at hf
      refine .inl (hI.keep hp hn rfl hitems rfl rfl (.inl rfl) ?_
        (Nat.le_refl _) (lt_of_ble rfl))
      obtain ⟨q, _, _, _, hs, _⟩ := hr.front_spec hf
      have hlead : c.shared.leadsTo target q = true :=
        Shared.leadsTo_iff.mpr ⟨_, hr.slot_lt hs, hs, Shared.reaches_of_front hf⟩
      simp [Thread.roams, WorkerPc.roams, Thread.onTrack, ScanPc.choice, ScanPc.rejoins,
        ScanKind.locked, hs, hlead]
  | @readSlot k idx q hs =>
    refine .inl (hI.keep hp hn rfl hitems rfl rfl (.inl rfl) (Nat.add_le_add ?_ (Nat.le_of_eq ?_))
      ?_ (by cases k <;> exact lt_of_ble rfl))
    · exact Nat.le_refl _
    · rw [Thread.onTrack, ScanPc.choice, hs]
      rfl
    · exact Nat.le_refl _
  | lock =>
    exact .inl (hI.keep hp hn rfl hitems rfl rfl (.inl rfl) (Nat.le_refl _)
      (Nat.le_refl _) (by cases k <;> exact lt_of_ble rfl))
  | @raced k q wq hq hl =>
    refine .inl (hI.keep hp hn rfl hitems rfl rfl (.inl rfl) ?_ (Nat.le_refl _)
      (by cases k <;> exact lt_of_ble rfl))
    have hno : (Thread.worker v (.scan k (.first q))).onTrack target c.shared = false := by
      refine Bool.eq_false_iff.mpr fun htrack => ?_
      exact Shared.items_of_leadsTo (Bool.and_eq_true_iff.mp htrack).2 ((Shared.items_eq hq).trans hl)
    rw [hno]
    cases k <;> simp [Thread.roams, WorkerPc.roams, ScanPc.rejoins, ScanKind.locked]
  | @skip k _ _ _ _ _ _ hk =>
    cases k with
    | wait => cases hk
    | fast | spin =>
      exact .inl (hI.keep hp hn rfl hitems rfl rfl (.inl rfl) (Nat.le_refl _)
        (Nat.le_refl _) (lt_of_ble rfl))
  | first =>
    exact .inl (hI.keep hp hn rfl hitems rfl rfl (.inl rfl) (Nat.le_refl _)
      (Nat.le_refl _) (by cases k <;> exact lt_of_ble rfl))
  | remove hq =>
    exact hI.remove hr hd hp ok hn rfl (.inr rfl) rfl rfl
      (Registered.place hq (hr.threads t _ hp)).1 rfl hitems rfl
  | removeLast hq =>
    exact hI.remove hr hd hp ok hn rfl (.inl rfl) rfl rfl
      (Registered.place hq (hr.threads t _ hp)).1 rfl hitems rfl
  | @clear k q wq w y hq hy =>
    rw [if_pos andNot_indexBit_clear] at hy
    subst hy
    exact .inl (hI.keep hp hn rfl hitems rfl rfl (.inl rfl) (Nat.le_refl _) (Nat.le_refl _) clear_rank)
  | @unlock k q wq r hq =>
    have hrank := unlock_rank ok
    cases r with
    | none =>
      cases k <;> exact .inl (hI.keep hp hn rfl hitems rfl rfl (.inl rfl) (Nat.le_refl _)
        (Nat.le_refl _) hrank)
    | some w =>
      cases k with
      | fast | spin =>
        exact .inl (hI.keep hp hn rfl hitems rfl rfl (.inl rfl) (Nat.le_refl _) (Nat.le_refl _) hrank)
      | wait =>
        refine .inl (hI.keep hp hn rfl hitems rfl rfl (.inl rfl) (Nat.le_refl _) ?_ hrank)
        cases hw : w.isMarker <;> simp [Thread.fastSide, WorkerPc.roams, WorkerPc.slow, ScanPc.rejoins,
          scanReturn, ScanKind.locked, hw]

/-- A step of the schedule dequeues a real item, or it keeps the invariant and lowers the rank. -/
theorem step (hI : Hunt S target c) (hr : Registry c) (hm : Masks c) (hd : Disciplined c)
    (hp : c.threads[t]? = some (.worker v x)) (ok : (Thread.worker v x).markerOk)
    (h : WorkerStep S c.shared t v x .go o) (hn : o.shared.halted = none) (eager : x.eager = true)
    (tidy : x = .scan .wait .readMask →
      ∀ (q : QId) (wq : Workq), c.shared.queues[q]? = some wq → wq.mtx = none) :
    Brings S target c t (.worker v x) o := by
  by_cases hs : ∃ k y, x = .scan k y
  · obtain ⟨k, y, rfl⟩ := hs
    exact hI.scan hr hm hd hp ok h hn eager tidy
  have hitems := (list_step hm hr hp (.worker h)).items
  have hd' := hd.apply hp (.worker h)
  cases h with
  | fault => cases hn
  | nothing | readMask | readSlot | lock | raced | skip | first | remove | removeLast | clear | unlock =>
    exact absurd ⟨_, _, rfl⟩ hs
  | start =>
    exact .inl (hI.keep hp hn rfl hitems rfl rfl (.inl rfl) (Nat.le_refl _)
      (Nat.le_refl _) (lt_of_ble rfl))
  | condWait => exact .inl (hI.sleep hp hn hd' rfl hitems rfl rfl rfl rfl)
  | @waitUnlock w =>
    refine .inl (hI.keep hp hn rfl hitems rfl rfl (.inl rfl) (Nat.le_refl _) (Nat.le_refl _) ?_)
    cases hw : w.isMarker <;> simp [Thread.rank, WorkerPc.rank, hw]
  | @waitLast w | @waitNotLast w | @waitPost w =>
    have hw : w.isMarker = false := by simpa [WorkerPc.eager, WorkerPc.roams] using eager
    refine .inl (hI.keep hp hn rfl hitems rfl rfl (.inl rfl) (Nat.le_refl _) (Nat.le_refl _) ?_)
    simp [Thread.rank, WorkerPc.rank, hw]
  | @waitExit w hf => simp [WorkerPc.eager, WorkerPc.roams, Work.isMarker, hf] at eager
  | @waitWork w hf =>
    have hw := Work.isMarker_eq_false hf
    refine .inl (hI.keep hp hn rfl hitems rfl rfl (.inl rfl) ?_ ?_ ?_)
    · exact Nat.le_of_eq (by simp [Thread.roams, WorkerPc.roams, hw]; rfl)
    · simp [Thread.fastSide, WorkerPc.roams, WorkerPc.slow, hw]
    · simp [Thread.rank, WorkerPc.rank, hw]
  | exitDecIdle | exitDecCount | exitFree => cases eager
  | free =>
    obtain ⟨_, _, he⟩ := witemFree_eq c.shared ‹Work›
    rw [he] at hitems hn ⊢
    exact .inl (hI.keep hp hn rfl hitems rfl rfl (.inl rfl) (Nat.le_refl _) (Nat.le_refl _)
      (lt_of_ble rfl))
  | noSpin =>
    exact .inl (hI.keep hp hn rfl hitems rfl rfl (.inl rfl) (Nat.le_refl _)
      (Nat.zero_le _) (lt_of_ble rfl))
  | invoke =>
    exact .inl (hI.keep hp hn rfl hitems rfl rfl (.inr ⟨rfl, rfl⟩) (Nat.le_refl _)
      (Nat.le_refl _) (lt_of_ble rfl))
  | _ =>
    exact .inl (hI.keep hp hn rfl hitems rfl rfl (.inl rfl) (Nat.le_refl _)
      (Nat.le_refl _) (lt_of_ble rfl))

end Hunt

/-! A shorter way, past all markers: some worker has chosen the queue with the item at its head -/

structure Facing (w : Work) (c : PoolState) : Prop where
  alive : c.shared.halted = none
  outside : ∀ (t : Tid) (p : Thread), c.threads[t]? = some p → p.inWorkerMain = true ∨ p.spin = none
  real : w.isMarker = false
  faced : ∃ (t : Tid) (p : Thread), c.threads[t]? = some p ∧ p.faces w c.shared = true

/-- The scans between the choice of a queue and the release of its lock. -/
def ScanPc.visits (sh : Shared) (q : QId) (y : ScanPc) : Prop :=
  y.choice sh = some q ∨ (∃ w, y = .clear q w) ∨ ∃ r, y = .unlock q r

/-- The worker that holds the queue's lock visits the queue. -/
theorem ScanPc.visits_of_spin (hw : p.inWorkerMain = true) (hs : p.spin = some q) :
    ∃ v k y, p = .worker v (.scan k y) ∧ y.visits sh q ∧ y.eager k = true ∧ ∀ r, y ≠ .lock r := by
  cases p with
  | worker v x =>
    cases x with
    | scan k y =>
      refine ⟨v, k, y, rfl, ?_⟩
      cases y with
      | readMask | readSlot | lock => cases hs
      | first | remove => exact ⟨.inl hs, rfl, nofun⟩
      | clear q' w =>
        cases hs
        exact ⟨.inr (.inl ⟨w, rfl⟩), rfl, nofun⟩
      | unlock q' r =>
        cases hs
        exact ⟨.inr (.inr ⟨r, rfl⟩), rfl, nofun⟩
    | _ => cases hs
  | _ => cases hw

theorem Thread.faces_spec (h : p.faces w sh = true) : ∃ v k y q, p = .worker v (.scan k y) ∧
    y.choice sh = some q ∧ (sh.items q).head? = some w := by
  cases p with
  | worker v x =>
    cases x with
    | scan k y =>
      obtain ⟨q, hq, hw⟩ := (Option.any_eq_true _ _).mp h
      exact ⟨v, k, y, q, rfl, hq, beq_iff_eq.mp hw⟩
    | _ => cases h
  | _ => cases h

theorem SameItems.faces {sh' : Shared} (h : SameItems sh sh') : Thread.faces w sh' = Thread.faces w sh := by
  funext p
  cases p with
  | worker v x =>
    cases x with
    | scan k x => cases x <;> simp [Thread.faces, ScanPc.choice, h.1, h.2]
    | _ => rfl
  | _ => rfl

namespace Facing

/-- No item moves, and the worker of the step or another still faces the item. -/
private theorem keep (hs : Facing w c) (hp : c.threads[t]? = some p) (hn : o.shared.halted = none)
    (hwq : o.shared.wqlist = c.shared.wqlist)
    (hitems : ∀ r, c.shared.items r ++ [] = [] ++ o.shared.items r) (fresh : o.spawned = [])
    (hpc : o.pc.inWorkerMain = true)
    (hface : p.faces w c.shared = true → o.pc.faces w c.shared = true) : Facing w (o.apply c t) := by
  have hsame := sameItems_of_quiet hwq hitems
  refine ⟨hn, ?_, hs.real, ?_⟩
  · exact Outcome.forall_apply hs.outside hp (fun _ => .inl hpc) (fun _ _ _ _ h => h) (by simp [fresh])
  · obtain ⟨u, r, hu, hr⟩ := hs.faced
    change ∃ t p, (o.apply c _).threads[t]? = _ ∧ Thread.faces w o.shared p = true
    rw [hsame.faces]
    by_cases hut : u = t
    · subst hut
      cases hu.symm.trans hp
      exact ⟨u, o.pc, Outcome.get_self hp, hface hr⟩
    · exact ⟨u, r, Outcome.get_other hut hu, hr⟩

/-- A visit to the queue brings the item nearer, or takes it. -/
theorem visit {v : WorkerVars} {k : ScanKind} {y : ScanPc} (hs : Facing w c)
    (hr : Registry c) (hm : Masks c) (hp : c.threads[t]? = some (.worker v (.scan k y)))
    (ok : (Thread.worker v (.scan k y)).markerOk) (hvisit : y.visits c.shared q)
    (hhead : (c.shared.items q).head? = some w)
    (h : WorkerStep S c.shared t v (.scan k y) .go o) (hn : o.shared.halted = none) :
    (∃ e ∈ o.events, ∃ t q, e = Event.dequeue t q w) ∨
      (Facing w (o.apply c t) ∧ o.pc.rank < (Thread.worker v (.scan k y)).rank) := by
  have hitems := (list_step hm hr hp (.worker h)).items
  cases h with
  | fault => cases hn
  | nothing | readMask => obtain hy | ⟨_, hy⟩ | ⟨_, hy⟩ := hvisit <;> cases hy
  | @readSlot k idx q' hs' =>
    refine .inr ⟨hs.keep hp hn rfl hitems rfl rfl fun hf => ?_, by cases k <;> exact lt_of_ble rfl⟩
    simpa [Thread.faces, ScanPc.choice, hs'] using hf
  | lock =>
    exact .inr ⟨hs.keep hp hn rfl hitems rfl rfl id, by cases k <;> exact lt_of_ble rfl⟩
  | @raced k q' wq hq hl =>
    obtain hy | ⟨_, hy⟩ | ⟨_, hy⟩ := hvisit <;> cases hy
    rw [Shared.items_eq hq, hl] at hhead
    cases hhead
  | @skip k q' wq w' rest hq hl _ hf =>
    obtain hy | ⟨_, hy⟩ | ⟨_, hy⟩ := hvisit <;> cases hy
    rw [Shared.items_eq hq, hl] at hhead
    cases hhead
    have := hs.real
    simp [Work.isMarker, hf] at this
  | first =>
    exact .inr ⟨hs.keep hp hn rfl hitems rfl rfl id, by cases k <;> exact lt_of_ble rfl⟩
  | @remove k q' wq w' | @removeLast k q' wq w' =>
    obtain hy | ⟨_, hy⟩ | ⟨_, hy⟩ := hvisit <;> cases hy
    obtain ⟨rest, hl⟩ : ∃ rest, c.shared.items q = w' :: rest :=
      ⟨_, by simpa [insertedInto, dequeuedFrom] using hitems q⟩
    rw [hl] at hhead
    cases hhead
    exact .inl ⟨_, List.mem_singleton_self _, t, q, rfl⟩
  | @clear k q wq w' y hq hy =>
    rw [if_pos andNot_indexBit_clear] at hy
    subst hy
    exact .inr ⟨hs.keep hp hn rfl hitems rfl rfl fun hf => absurd hf Bool.false_ne_true, clear_rank⟩
  | @unlock k q wq r hq =>
    exact .inr ⟨hs.keep hp hn rfl hitems rfl rfl fun hf => absurd hf Bool.false_ne_true,
      unlock_rank ok⟩

end Facing

end PthreadWorkqueue.Posix
