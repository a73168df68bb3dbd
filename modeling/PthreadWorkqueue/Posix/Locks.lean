import PthreadWorkqueue.Posix.ManagerSteps
import PthreadWorkqueue.Concurrency.Counting

/-! Who holds `wqlist_mtx`, `ocwq_mtx` and the spin locks, and who is in the two wait sets, read
off the program points. -/
namespace PthreadWorkqueue.Posix
open Concurrency

/-- `wqlist_scan` is called with `wqlist_mtx` held. -/
def ScanKind.locked : ScanKind → Bool
  | .fast | .spin => false
  | .wait => true

namespace Thread

/-- The points inside a critical section of `wqlist_mtx`. -/
def holdsMtx : Thread → Bool
  | .call _ (.add _ _ p) => match p with
    | .signal | .unlockMtx => true
    | _ => false
  | .call _ c => match c with
    | .createManager _ | .managerStart _ | .managerSet _ | .createRegister _ | .createUnlock _ => true
    | _ => false
  | .worker _ p => match p with
    | .scan k _ => k.locked
    | .condWait | .waitUnlock _ => true
    | _ => false
  | .manager _ (.stop _ _ p) => match p with
    | .alloc | .lockMtx _ => false
    | _ => true
  | _ => false

/-- The points inside a critical section of `ocwq_mtx`. -/
def holdsOcMtx : Thread → Bool
  | .call _ (.ocAdd _ _ p) => match p with
    | .lockMtx => false
    | _ => true
  | .overcommit p => match p with
    | .scan | .unlock _ | .unlockExit => true
    | _ => false
  | _ => false

/-- The queue whose spin lock the thread holds. -/
def spin : Thread → Option QId
  | .call _ (.add q _ p) => match p with
    | .testEmpty | .atomicOr | .insert | .spinUnlock => some q
    | _ => none
  | .call _ (.ocAdd q _ p) => match p with
    | .insert | .spinUnlock => some q
    | _ => none
  | .worker _ (.scan _ p) => match p with
    | .first q | .remove q _ | .clear q _ | .unlock q _ => some q
    | _ => none
  | .manager _ (.stop _ _ p) => match p with
    | .atomicOr _ q | .insert _ q | .spinUnlock q => some q
    | _ => none
  | _ => none

def holdsSpin (q : QId) (p : Thread) : Bool := p.spin == some q

/-- The point inside `pthread_cond_wait` on `wqlist_has_work`. -/
def waits : Thread → Bool
  | .worker _ .waiting => true
  | _ => false

/-- The point inside `pthread_cond_timedwait` on `ocwq_has_work`. -/
def ocWaits : Thread → Bool
  | .overcommit .timedwait => true
  | _ => false

end Thread

/-- The spin lock of a queue, free if there is no such queue. -/
def Shared.spinLock (q : QId) (sh : Shared) : Option Tid := (sh.queues[q]?).bind (·.mtx)

namespace ManagerPc
variable {v : ManagerVars} {p : ManagerPc}

theorem plain_between (h : p.plain = true) : p.between = true := by
  cases p <;> first | rfl | cases h

theorem between_holdsMtx (h : p.between = true) : (Thread.manager v p).holdsMtx = false := by
  cases p <;> first | rfl | (simp only [between, beq_iff_eq] at h; subst h; rfl)

theorem between_spin (h : p.between = true) : (Thread.manager v p).spin = none := by
  cases p <;> first | rfl | (simp only [between, beq_iff_eq] at h; subst h; rfl)

end ManagerPc

namespace Call
variable {k : Caller} {c : Call}

theorem plain_holdsMtx (h : c.plain = true) : (Thread.call k c).holdsMtx = false := by
  cases c <;> first | rfl | cases h

theorem plain_holdsOcMtx (h : c.plain = true) : (Thread.call k c).holdsOcMtx = false := by
  cases c <;> first | rfl | cases h

theorem plain_spin (h : c.plain = true) : (Thread.call k c).spin = none := by
  cases c <;> first | rfl | cases h

end Call

variable {S : Settings} {sh : Shared} {t : Tid} {p : Thread} {ch : Choice} {o : Out}

theorem scanReturn_holdsMtx (v : WorkerVars) (k : ScanKind) (r : Option Work) :
    (Thread.worker v (scanReturn k r)).holdsMtx = k.locked := by
  cases k <;> cases r <;> rfl

theorem mtx_step (h : Step S sh t p ch o) (own : sh.wqlistMtx = some t ↔ p.holdsMtx = true) :
    LockStep Shared.wqlistMtx Thread.holdsMtx sh t o := by
  have fresh : ∀ r ∈ o.spawned, r.holdsMtx = false := h.fresh rfl rfl rfl
  cases h with
  | app h => cases h <;> exact .same own rfl rfl fresh
  | call h =>
    cases h with
    | quiet hq hc hc' =>
      obtain ⟨_, _, _, _, rfl⟩ := hq
      exact .same own rfl ((Call.plain_holdsMtx hc').trans (Call.plain_holdsMtx hc).symm) fresh
    | quietReturn hq hc =>
      obtain ⟨_, _, _, _, rfl⟩ := hq
      exact .same own rfl (Call.plain_holdsMtx hc).symm fresh
    | error hc _ => exact .same own rfl (Call.plain_holdsMtx hc).symm fresh
    | atomicOr _ hp => subst hp; split <;> exact .same own rfl rfl fresh
    | managerStart | ocCreate => exact .same own rfl rfl fresh
    | lockMtx hm | createLock hm => exact .take hm rfl rfl fresh
    | unlockMtx | createUnlock => exact .give (own.mpr rfl) rfl rfl fresh
    | _ => exact .same own rfl rfl fresh
  | worker h =>
    cases h with
    | nothing => exact .same own rfl (scanReturn_holdsMtx _ _ _) fresh
    | unlock => exact .same own rfl (scanReturn_holdsMtx _ _ _) fresh
    | clear _ hp => subst hp; split <;> exact .same own rfl rfl fresh
    | waitLock hm | woken _ hm => exact .take hm rfl rfl fresh
    | condWait | waitUnlock => exact .give (own.mpr rfl) rfl rfl fresh
    | exitFree | free => exact .same own (by simp) rfl fresh
    | _ => exact .same own rfl rfl fresh
  | overcommit h =>
    cases h with
    | free => exact .same own (by simp) rfl fresh
    | _ => exact .same own rfl rfl fresh
  | manager h =>
    cases h with
    | plain hq hp hp' _ =>
      obtain ⟨_, _, _, _, rfl⟩ := hq
      exact .same own rfl ((ManagerPc.between_holdsMtx hp').trans
        (ManagerPc.between_holdsMtx (ManagerPc.plain_between hp)).symm) fresh
    | created =>
      exact .same own rfl (ManagerPc.between_holdsMtx (startReturn_between _)) fresh
    | decCount => exact .same own rfl (ManagerPc.between_holdsMtx (startReturn_between _)) fresh
    | lockMtx hm => exact .take hm rfl rfl fresh
    | unlockMtx =>
      exact .give (own.mpr rfl) rfl (ManagerPc.between_holdsMtx (stopLoop_between _ _)) fresh
    | atomicOr _ hp => subst hp; split <;> exact .same own rfl rfl fresh
    | _ => exact .same own rfl rfl fresh

theorem ocMtx_step (h : Step S sh t p ch o) (own : sh.ocwqMtx = some t ↔ p.holdsOcMtx = true) :
    LockStep Shared.ocwqMtx Thread.holdsOcMtx sh t o := by
  have fresh : ∀ r ∈ o.spawned, r.holdsOcMtx = false := h.fresh rfl rfl rfl
  cases h with
  | app h => cases h <;> exact .same own rfl rfl fresh
  | call h =>
    cases h with
    | quiet hq hc hc' =>
      obtain ⟨_, _, _, _, rfl⟩ := hq
      exact .same own rfl ((Call.plain_holdsOcMtx hc').trans (Call.plain_holdsOcMtx hc).symm) fresh
    | quietReturn hq hc =>
      obtain ⟨_, _, _, _, rfl⟩ := hq
      exact .same own rfl (Call.plain_holdsOcMtx hc).symm fresh
    | error hc _ => exact .same own rfl (Call.plain_holdsOcMtx hc).symm fresh
    | managerStart | ocCreate => exact .same own rfl rfl fresh
    | ocLockMtx hm => exact .take hm rfl rfl fresh
    | ocUnlockMtx => exact .give (own.mpr rfl) rfl rfl fresh
    | _ => exact .same own rfl rfl fresh
  | worker h =>
    cases h with
    | exitFree | free => exact .same own (by simp) rfl fresh
    | _ => exact .same own rfl rfl fresh
  | overcommit h =>
    cases h with
    | lock hm | signalled _ hm _ | timedOut _ hm _ => exact .take hm rfl rfl fresh
    | wait | unlock | unlockExit => exact .give (own.mpr rfl) rfl rfl fresh
    | free => exact .same own (by simp) rfl fresh
    | _ => exact .same own rfl rfl fresh
  | manager h =>
    cases h with
    | plain hq _ _ _ =>
      obtain ⟨_, _, _, _, rfl⟩ := hq
      exact .same own rfl rfl fresh
    | created => exact .same own rfl rfl fresh
    | _ => exact .same own rfl rfl fresh

section SpinLock
variable {q r : QId} {wq wq' : Workq}

theorem spinLock_setQueue (hq : sh.queues[q]? = some wq) :
    (sh.setQueue q wq').spinLock r = if q = r then wq'.mtx else sh.spinLock r := by
  obtain ⟨hl, _⟩ := List.getElem?_eq_some_iff.mp hq
  unfold Shared.spinLock Shared.setQueue
  by_cases hr : q = r
  · subst hr
    simp [hl]
  · simp [hr, List.getElem?_set_ne hr]

theorem spinLock_setQueue_keep (hq : sh.queues[q]? = some wq) (hm : wq'.mtx = wq.mtx) :
    (sh.setQueue q wq').spinLock r = sh.spinLock r := by
  rw [spinLock_setQueue hq]
  split
  · subst_vars
    simp [Shared.spinLock, hq, hm]
  · rfl

theorem spinLock_append (hm : wq.mtx = none) :
    ({ sh with queues := sh.queues ++ [wq] } : Shared).spinLock r = sh.spinLock r := by
  unfold Shared.spinLock
  by_cases hr : r < sh.queues.length
  · simp only [List.getElem?_append_left hr]
  · have hl : sh.queues.length ≤ r := Nat.le_of_not_lt hr
    rw [List.getElem?_eq_none hl, List.getElem?_append_right hl]
    cases hi : r - sh.queues.length <;> simp [hm]

/-- Inside a critical section of some spin lock nothing about spin locks changes. -/
private theorem spin_same (own : sh.spinLock r = some t ↔ p.holdsSpin r = true)
    (hl : o.shared.spinLock r = sh.spinLock r) (hp : o.pc.spin = p.spin)
    (fresh : ∀ r ∈ o.spawned, r.spin = none) : LockStep (Shared.spinLock r) (Thread.holdsSpin r) sh t o :=
  .same own hl (by simp only [Thread.holdsSpin, hp])
    (fun u hu => by simp [Thread.holdsSpin, fresh u hu])

private theorem spin_take (own : sh.spinLock r = some t ↔ p.holdsSpin r = true)
    (hq : sh.queues[q]? = some wq) (hm : wq.mtx = none) (hn : p.spin = none)
    (hs : o.shared = sh.setQueue q { wq with mtx := some t }) (hp : o.pc.spin = some q)
    (fresh : o.spawned = []) : LockStep (Shared.spinLock r) (Thread.holdsSpin r) sh t o := by
  by_cases hr : q = r
  · subst hr
    refine .take ?_ ?_ (by simp [Thread.holdsSpin, hp]) (by simp [fresh])
    · simp [Shared.spinLock, hq, hm]
    · rw [hs, spinLock_setQueue hq, if_pos rfl]
  · refine .same own ?_ (by simp [Thread.holdsSpin, hp, hn, hr]) (by simp [fresh])
    rw [hs, spinLock_setQueue hq, if_neg hr]

private theorem spin_give (own : sh.spinLock r = some t ↔ p.holdsSpin r = true)
    (hq : sh.queues[q]? = some wq) (hp : p.spin = some q)
    (hs : o.shared = sh.setQueue q { wq with mtx := none }) (hn : o.pc.spin = none)
    (fresh : o.spawned = []) : LockStep (Shared.spinLock r) (Thread.holdsSpin r) sh t o := by
  by_cases hr : q = r
  · subst hr
    refine .give (own.mpr (by simp [Thread.holdsSpin, hp])) ?_ (by simp [Thread.holdsSpin, hn])
      (by simp [fresh])
    rw [hs, spinLock_setQueue hq, if_pos rfl]
  · refine .same own ?_ (by simp [Thread.holdsSpin, hp, hn, hr]) (by simp [fresh])
    rw [hs, spinLock_setQueue hq, if_neg hr]

theorem scanReturn_spin (v : WorkerVars) (k : ScanKind) (r : Option Work) :
    (Thread.worker v (scanReturn k r)).spin = none := by
  cases k <;> cases r <;> rfl

theorem spin_step (r : QId) (h : Step S sh t p ch o)
    (own : sh.spinLock r = some t ↔ p.holdsSpin r = true) :
    LockStep (Shared.spinLock r) (Thread.holdsSpin r) sh t o := by
  have fresh : ∀ r ∈ o.spawned, r.spin = none := h.fresh rfl rfl rfl
  cases h with
  | app h => cases h <;> exact spin_same own rfl rfl fresh
  | call h =>
    cases h with
    | quiet hq hc hc' =>
      obtain ⟨_, _, _, _, rfl⟩ := hq
      exact spin_same own rfl ((Call.plain_spin hc').trans (Call.plain_spin hc).symm) fresh
    | quietReturn hq hc =>
      obtain ⟨_, _, _, _, rfl⟩ := hq
      exact spin_same own rfl (Call.plain_spin hc).symm fresh
    | error hc _ => exact spin_same own rfl (Call.plain_spin hc).symm fresh
    | createAlloc => exact spin_same own (spinLock_append rfl) rfl fresh
    | atomicOr _ hp => subst hp; split <;> exact spin_same own rfl rfl fresh
    | managerStart | ocCreate => exact spin_same own rfl rfl fresh
    | spinLock hq hm | ocSpinLock hq hm => exact spin_take own hq hm rfl rfl rfl rfl
    | spinUnlock hq | ocSpinUnlock hq => exact spin_give own hq rfl rfl rfl rfl
    | insert hq | ocInsert hq =>
      exact spin_same own (spinLock_setQueue_keep hq rfl) rfl fresh
    | register hq _ _ | ocRegister hq _ _ =>
      exact spin_same own (spinLock_setQueue_keep hq rfl) rfl fresh
    | _ => exact spin_same own rfl rfl fresh
  | worker h =>
    cases h with
    | nothing => exact spin_same own rfl (scanReturn_spin _ _ _) fresh
    | lock hq hm => exact spin_take own hq hm rfl rfl rfl rfl
    | unlock hq => exact spin_give own hq rfl rfl (scanReturn_spin _ _ _) rfl
    | remove hq _ | removeLast hq _ =>
      exact spin_same own (spinLock_setQueue_keep hq rfl) rfl fresh
    | clear _ hp => subst hp; split <;> exact spin_same own rfl rfl fresh
    | exitFree | free => exact spin_same own (by simp [Shared.spinLock]) rfl fresh
    | _ => exact spin_same own rfl rfl fresh
  | overcommit h =>
    cases h with
    | dequeue _ _ hq _ _ | dequeueLast _ _ hq _ =>
      exact spin_same own (spinLock_setQueue_keep hq rfl) rfl fresh
    | free => exact spin_same own (by simp [Shared.spinLock]) rfl fresh
    | _ => exact spin_same own rfl rfl fresh
  | manager h =>
    cases h with
    | plain hq hp hp' _ =>
      obtain ⟨_, _, _, _, rfl⟩ := hq
      exact spin_same own rfl ((ManagerPc.between_spin hp').trans
        (ManagerPc.between_spin (ManagerPc.plain_between hp)).symm) fresh
    | created =>
      exact spin_same own rfl (ManagerPc.between_spin (startReturn_between _)) fresh
    | decCount => exact spin_same own rfl (ManagerPc.between_spin (startReturn_between _)) fresh
    | unlockMtx => exact spin_same own rfl (ManagerPc.between_spin (stopLoop_between _ _)) fresh
    | spinLock hq hm => exact spin_take own hq hm rfl rfl rfl rfl
    | spinUnlock hq => exact spin_give own hq rfl rfl rfl rfl
    | insert hq => exact spin_same own (spinLock_setQueue_keep hq rfl) rfl fresh
    | atomicOr _ hp => subst hp; split <;> exact spin_same own rfl rfl fresh
    | _ => exact spin_same own rfl rfl fresh

end SpinLock

section WaitSets

theorem wait_step (h : Step S sh t p ch o) (here : t ∈ sh.wqlistHasWork → p.waits = true) :
    WaitStep Shared.wqlistHasWork Thread.waits sh t o := by
  cases h with
  | app h => cases h <;> exact .same here rfl (by simp [Thread.waits])
  | call h =>
    cases h with
    | quiet hq | quietReturn hq =>
      obtain ⟨_, _, _, _, rfl⟩ := hq
      exact .same here rfl (by simp [Thread.waits])
    | signal => exact .shrink here _ rfl (by simp [Thread.waits])
    | _ => exact .same here rfl (by simp [Thread.waits])
  | worker h =>
    cases h with
    | condWait => exact .enter (fun ht => by cases here ht) rfl rfl
    | leave => exact .shrink here _ rfl (by simp [Thread.waits])
    | woken ht => exact .gone ht rfl
    | exitFree | free => exact .same here (witemFree_wqlistHasWork _ _) (by simp [Thread.waits])
    | _ => exact .same here rfl (by simp [Thread.waits])
  | overcommit h =>
    cases h with
    | free => exact .same here (witemFree_wqlistHasWork _ _) (by simp [Thread.waits])
    | _ => exact .same here rfl (by simp [Thread.waits])
  | manager h =>
    cases h with
    | plain hq =>
      obtain ⟨_, _, _, _, rfl⟩ := hq
      exact .same here rfl (by simp [Thread.waits])
    | signal => exact .shrink here _ rfl (by simp [Thread.waits])
    | _ => exact .same here rfl (by simp [Thread.waits])

theorem ocWait_step (h : Step S sh t p ch o) (here : t ∈ sh.ocwqHasWork → p.ocWaits = true) :
    WaitStep Shared.ocwqHasWork Thread.ocWaits sh t o := by
  cases h with
  | app h => cases h <;> exact .same here rfl (by simp [Thread.ocWaits])
  | call h =>
    cases h with
    | quiet hq | quietReturn hq =>
      obtain ⟨_, _, _, _, rfl⟩ := hq
      exact .same here rfl (by simp [Thread.ocWaits])
    | ocSignal => exact .shrink here _ rfl (by simp [Thread.ocWaits])
    | _ => exact .same here rfl (by simp [Thread.ocWaits])
  | worker h =>
    cases h with
    | exitFree | free => exact .same here (witemFree_ocwqHasWork _ _) (by simp [Thread.ocWaits])
    | _ => exact .same here rfl (by simp [Thread.ocWaits])
  | overcommit h =>
    cases h with
    | wait => exact .enter (fun ht => by cases here ht) rfl rfl
    | leave => exact .shrink here _ rfl (by simp [Thread.ocWaits])
    | signalled ht | timedOut ht => exact .gone ht rfl
    | free => exact .same here (witemFree_ocwqHasWork _ _) (by simp [Thread.ocWaits])
    | _ => exact .same here rfl (by simp [Thread.ocWaits])
  | manager h =>
    cases h with
    | plain hq =>
      obtain ⟨_, _, _, _, rfl⟩ := hq
      exact .same here rfl (by simp [Thread.ocWaits])
    | _ => exact .same here rfl (by simp [Thread.ocWaits])

end WaitSets

/-- The discipline of the locks and of the wait sets. -/
structure Disciplined (c : PoolState) : Prop where
  mtx : Owned Shared.wqlistMtx Thread.holdsMtx c
  ocMtx : Owned Shared.ocwqMtx Thread.holdsOcMtx c
  spin : ∀ q, Owned (Shared.spinLock q) (Thread.holdsSpin q) c
  wait : Waiting Shared.wqlistHasWork Thread.waits c
  ocWait : Waiting Shared.ocwqHasWork Thread.ocWaits c

theorem Disciplined.mtx_unique {c : PoolState} (hd : Disciplined c) {u : Tid} {r : Thread}
    (hp : c.threads[t]? = some p) (ht : p.holdsMtx = true) (hu : c.threads[u]? = some r)
    (hr : r.holdsMtx = true) : u = t := by
  have h₁ := (hd.mtx.at hp).mpr ht
  have h₂ := (hd.mtx.at hu).mpr hr
  rw [h₁] at h₂
  exact (Option.some.inj h₂).symm

theorem initial_threads {users managers : Nat} {u : Nat} {r : Thread}
    (h : (initial users managers).threads[u]? = some r) : r = .app .user ∨ r = .managerMain := by
  have := List.mem_of_getElem? h
  simp only [initial, List.mem_append, List.mem_replicate] at this
  tauto

private theorem initial_owned {users managers : Nat} {lock : Shared → Option Tid}
    {holds : Thread → Bool} (hl : lock managerInit = none) (hu : holds (.app .user) = false)
    (hm : holds .managerMain = false) : Owned lock holds (initial users managers) := by
  intro t
  change lock managerInit = some t ↔ _
  rw [hl]
  refine ⟨nofun, ?_⟩
  rintro ⟨r, hr, hh⟩
  obtain rfl | rfl := initial_threads hr
  · rw [hu] at hh; cases hh
  · rw [hm] at hh; cases hh

theorem disciplined_initial (users managers : Nat) : Disciplined (initial users managers) where
  mtx := initial_owned rfl rfl rfl
  ocMtx := initial_owned rfl rfl rfl
  spin _ := initial_owned (by simp [Shared.spinLock, managerInit]) rfl rfl
  wait := ⟨List.nodup_nil, fun _ h => by cases h⟩
  ocWait := ⟨List.nodup_nil, fun _ h => by cases h⟩

theorem Disciplined.apply {c : PoolState} (h : Disciplined c) (hp : c.threads[t]? = some p)
    (hs : Step S c.shared t p ch o) : Disciplined (o.apply c t) where
  mtx := h.mtx.apply hp (mtx_step hs (h.mtx.at hp))
  ocMtx := h.ocMtx.apply hp (ocMtx_step hs (h.ocMtx.at hp))
  spin q := (h.spin q).apply hp (spin_step q hs ((h.spin q).at hp))
  wait := h.wait.apply hp (wait_step hs (h.wait.at hp))
  ocWait := h.ocWait.apply hp (ocWait_step hs (h.ocWait.at hp))

/-- Every reachable state respects the locks and the wait sets. -/
theorem disciplined {G : PoolState → Nat × Choice → Prop} {users managers : Nat} {tr : List Event}
    {c : PoolState} (h : Machine.Run (program S) G (initial users managers) tr c) : Disciplined c :=
  h.invariant (fun _ c => Disciplined c) (disciplined_initial _ _)
    (fun _ _ _ _ _ _ hd _ hm => hd.apply hm.here (program_step hm.next).2)

end PthreadWorkqueue.Posix
