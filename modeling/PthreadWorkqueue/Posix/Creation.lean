import PthreadWorkqueue.Posix.Dangling
import PthreadWorkqueue.Posix.LockOrder
import PthreadWorkqueue.Posix.RampDown
import Mathlib.Data.List.Nodup

/-! The attribute objects of `api.c` and the calls that create queues. Each registry has one slot
for each priority, and a second queue for a slot ends the process. -/
namespace PthreadWorkqueue.Posix
open Concurrency

/-! Attribute objects -/

def workqHighPrioqueue : Nat := 0
def workqLowPrioqueue : Nat := 2
def workqBgPrioqueue : Nat := 3
def workqBgPrioqueueConditional : Nat := 4
def workqHighPrioqueueConditional : Nat := 5

/-- The cases of the switch in `pthread_workqueue_attr_setqueuepriority_np`. -/
def queuePriorities : List Nat :=
  [workqHighPrioqueue, workqDefaultPrioqueue, workqLowPrioqueue, workqBgPrioqueue,
    workqBgPrioqueueConditional, workqHighPrioqueueConditional]

/-- `pthread_workqueue_attr_init_np`. -/
def attrInit : Attr × Nat := (⟨pthreadWorkqueueAttrSig, workqDefaultPrioqueue, 0⟩, 0)

/-- `pthread_workqueue_attr_setovercommit_np`. -/
def attrSetovercommit (attr : Attr) (ocomm : Int) : Attr × Nat :=
  if attr.sig = pthreadWorkqueueAttrSig then ({ attr with overcommit := ocomm }, 0)
  else (attr, einval)

/-- `pthread_workqueue_attr_setqueuepriority_np`. -/
def attrSetqueuepriority (attr : Attr) (qprio : Int) : Attr × Nat :=
  if attr.sig = pthreadWorkqueueAttrSig then
    if qprio ∈ queuePriorities.map Int.ofNat then ({ attr with queueprio := qprio }, 0)
    else (attr, einval)
  else (attr, einval)

theorem mem_queuePriorities {qprio : Int} :
    qprio ∈ queuePriorities.map Int.ofNat ↔ 0 ≤ qprio ∧ qprio < workqNumPrioqueue := by
  simp only [queuePriorities, workqHighPrioqueue, workqDefaultPrioqueue, workqLowPrioqueue,
    workqBgPrioqueue, workqBgPrioqueueConditional, workqHighPrioqueueConditional, List.map_cons,
    List.map_nil, List.mem_cons, List.not_mem_nil, or_false, workqNumPrioqueue, Int.ofNat_eq_natCast]
  omega

/-- The setter accepts exactly the priorities that `pthread_workqueue_create_np` accepts. -/
theorem setqueuepriority_iff_valid {attr : Attr} (h : attr.sig = pthreadWorkqueueAttrSig) (qprio : Int) :
    (attrSetqueuepriority attr qprio).2 = 0 ↔ validAttr (some { attr with queueprio := qprio }) = true := by
  have hv : validAttr (some { attr with queueprio := qprio }) = true ↔
      0 ≤ qprio ∧ qprio < workqNumPrioqueue := by
    simp [validAttr, h]
  rw [hv, ← mem_queuePriorities, attrSetqueuepriority, if_pos h]
  split
  · simp [*]
  · simp [*, einval]

/-- An attribute object that was only written by the attribute functions. -/
inductive AttrMade : Attr → Prop where
  | init : AttrMade attrInit.1
  | setovercommit {attr} (ocomm : Int) : AttrMade attr → AttrMade (attrSetovercommit attr ocomm).1
  | setqueuepriority {attr} (qprio : Int) : AttrMade attr → AttrMade (attrSetqueuepriority attr qprio).1

theorem AttrMade.valid {attr : Attr} (h : AttrMade attr) : validAttr (some attr) = true := by
  induction h with
  | init => decide
  | @setovercommit attr ocomm _ ih =>
    unfold attrSetovercommit
    split <;> exact ih
  | @setqueuepriority attr qprio _ ih =>
    have hsig : attr.sig = pthreadWorkqueueAttrSig := by
      simp only [validAttr, Bool.and_eq_true, beq_iff_eq] at ih
      exact ih.1.1
    unfold attrSetqueuepriority
    rw [if_pos hsig]
    split
    · refine (setqueuepriority_iff_valid hsig qprio).mp ?_
      simp [attrSetqueuepriority, *]
    · exact ih

/-! What a step does to the queues -/

/-- The slot that a queue asks for: its priority and its kind. -/
def Workq.key (wq : Workq) : Nat × Bool := (wq.queueprio, wq.overcommit)

/-- What `pthread_workqueue_create_np` writes into a queue once and for all. -/
def Workq.made (wq : Workq) : Nat × Nat × Bool := (wq.sig, wq.key)

namespace Thread

/-- Inside `pthread_workqueue_create_np`. -/
def creating : Thread → Bool
  | .call _ c => match c with
    | .createCheck _ | .createAlloc _ | .createLock _ | .createManager _ | .managerStart _
    | .managerSet _ | .createRegister _ | .createUnlock _ => true
    | _ => false
  | _ => false

/-- The queue that the thread has allocated and not registered yet. -/
def registering : Thread → Option QId
  | .call _ c => match c with
    | .createLock q | .createManager q | .managerStart q | .managerSet q | .createRegister q => some q
    | _ => none
  | _ => none

end Thread

/-- What a step does to the queue objects and their slots. -/
inductive QueueStep (sh : Shared) (p : Thread) (ch : Choice) (o : Out) : Prop where
  | alloc {k attr} : p = .call k (.createAlloc attr) → ch = .ret 0 →
      o = ⟨{ sh with queues := sh.queues ++ [newWorkq attr] }, .call k (.createLock sh.queues.length),
        [], []⟩ → QueueStep sh p ch o
  | enter {q wq} : p.registering = some q → o.pc.registering = none → o.spawned = [] →
      sh.queues[q]? = some wq → sh.slotOf wq = none →
      o.shared.queues.map Workq.made = sh.queues.map Workq.made →
      (∀ w, o.shared.slotOf w = if w.key = wq.key then some q else sh.slotOf w) → QueueStep sh p ch o
  | keep : o.pc.registering = p.registering → (∀ r ∈ o.spawned, r.registering = none) →
      o.shared.queues.map Workq.made = sh.queues.map Workq.made →
      (∀ w, o.shared.slotOf w = sh.slotOf w) → QueueStep sh p ch o

section QueueSteps
variable {S : Settings} {sh sh' : Shared} {t : Tid} {p : Thread} {ch : Choice} {o : Out} {q : QId}
  {wq wq' : Workq}

theorem map_made_set (hq : sh.queues[q]? = some wq) (h : wq'.made = wq.made) :
    (sh.queues.set q wq').map Workq.made = sh.queues.map Workq.made := by
  obtain ⟨hl, he⟩ := List.getElem?_eq_some_iff.mp hq
  rw [List.map_set, h, ← he, ← List.getElem_map (f := Workq.made) (h := by simpa using hl)]
  exact List.set_getElem_self _

theorem slotOf_enter (ho : wq.overcommit = false) (hs : sh'.ocwq = sh.ocwq)
    (hw : sh'.wqlist = Function.update sh.wqlist wq.queueprio (some q)) (w : Workq) :
    sh'.slotOf w = if w.key = wq.key then some q else sh.slotOf w := by
  cases hk : w.overcommit <;> simp [Shared.slotOf, Workq.key, Function.update_apply, hk, ho, hs, hw]

theorem slotOf_ocEnter (ho : wq.overcommit = true) (hs : sh'.wqlist = sh.wqlist)
    (hw : sh'.ocwq = Function.update sh.ocwq wq.queueprio (some q)) (w : Workq) :
    sh'.slotOf w = if w.key = wq.key then some q else sh.slotOf w := by
  cases hk : w.overcommit <;> simp [Shared.slotOf, Workq.key, Function.update_apply, hk, ho, hs, hw]

theorem Call.plain_registering {k : Caller} {x : Call} (h : x.plain = true) :
    (Thread.call k x).registering = none := by
  cases x <;> first | rfl | cases h

private theorem call_queueStep {k : Caller} {x : Call} (h : CallStep sh t k x ch o) :
    QueueStep sh (.call k x) ch o := by
  cases h with
  | createAlloc => exact .alloc rfl rfl rfl
  | register hq ho hn =>
    exact .enter rfl rfl rfl hq (by simp [Shared.slotOf, ho, hn]) (map_made_set hq rfl)
      (slotOf_enter ho rfl rfl)
  | ocRegister hq ho hn =>
    exact .enter rfl rfl rfl hq (by simp [Shared.slotOf, ho, hn]) (map_made_set hq rfl)
      (slotOf_ocEnter ho rfl rfl)
  | spinLock hq | ocSpinLock hq | spinUnlock hq | ocSpinUnlock hq | insert hq | ocInsert hq =>
    exact .keep rfl (by simp) (map_made_set hq rfl) fun _ => rfl
  | quiet hq hc hc' =>
    obtain ⟨_, _, _, _, rfl⟩ := hq
    exact .keep ((Call.plain_registering hc').trans (Call.plain_registering hc).symm) (by simp) rfl
      fun _ => rfl
  | quietReturn hq hc =>
    obtain ⟨_, _, _, _, rfl⟩ := hq
    exact .keep (Call.plain_registering hc).symm (by simp) rfl fun _ => rfl
  | error hc => exact .keep (Call.plain_registering hc).symm (by simp) rfl fun _ => rfl
  | ocCreate | managerStart => exact .keep rfl (by simp; rfl) rfl fun _ => rfl
  | _ => exact .keep rfl (by simp) rfl fun _ => rfl

theorem queue_step (h : Step S sh t p ch o) : QueueStep sh p ch o := by
  cases h with
  | app h => cases h <;> exact .keep rfl (by simp) rfl fun _ => rfl
  | call h => exact call_queueStep h
  | worker h =>
    cases h with
    | lock hq | remove hq | removeLast hq | unlock hq =>
      exact .keep rfl (by simp) (map_made_set hq rfl) fun _ => rfl
    | exitFree | free =>
      obtain ⟨_, _, he⟩ := witemFree_eq sh ‹Work›
      rw [he]
      exact .keep rfl (by simp) rfl fun _ => rfl
    | _ => exact .keep rfl (by simp) rfl fun _ => rfl
  | overcommit h =>
    cases h with
    | dequeue _ _ hq | dequeueLast _ _ hq =>
      exact .keep rfl (by simp) (map_made_set hq rfl) fun _ => rfl
    | free =>
      obtain ⟨_, _, he⟩ := witemFree_eq sh ‹Work›
      rw [he]
      exact .keep rfl (by simp) rfl fun _ => rfl
    | _ => exact .keep rfl (by simp) rfl fun _ => rfl
  | manager h =>
    cases h with
    | plain hq =>
      obtain ⟨_, _, _, _, rfl⟩ := hq
      exact .keep rfl (by simp) rfl fun _ => rfl
    | spinLock hq | insert hq | spinUnlock hq =>
      exact .keep rfl (by simp) (map_made_set hq rfl) fun _ => rfl
    | created => exact .keep rfl (by simp; rfl) rfl fun _ => rfl
    | _ => exact .keep rfl (by simp) rfl fun _ => rfl

end QueueSteps

/-- Every queue object is in its slot, or one thread is about to register it. -/
structure Creations (c : PoolState) : Prop where
  valid : ∀ wq ∈ c.shared.queues, validWorkq wq = true
  pending : ∀ (t : Tid) (p : Thread) (q : QId), c.threads[t]? = some p → p.registering = some q →
    ∃ wq, c.shared.queues[q]? = some wq ∧ c.shared.slotOf wq ≠ some q
  alone : ∀ (t u : Tid) (p r : Thread) (q : QId), c.threads[t]? = some p → c.threads[u]? = some r →
    p.registering = some q → r.registering = some q → t = u
  entered : ∀ (q : QId) (wq : Workq), c.shared.queues[q]? = some wq →
    c.shared.slotOf wq = some q ∨ ∃ (t : Tid) (p : Thread), c.threads[t]? = some p ∧ p.registering = some q

section Creations
variable {S : Settings} {sh sh' : Shared} {t u : Tid} {p r : Thread} {ch : Choice} {o : Out} {q : QId}
  {wq wq' : Workq} {c : PoolState}

theorem Workq.key_of_made (h : wq'.made = wq.made) : wq'.key = wq.key := congrArg Prod.snd h

theorem slotOf_of_key (h : wq'.key = wq.key) : sh.slotOf wq' = sh.slotOf wq := by
  simp only [Workq.key, Prod.mk.injEq] at h
  simp only [Shared.slotOf, h.1, h.2]

theorem validWorkq_of_made (h : wq'.made = wq.made) : validWorkq wq' = validWorkq wq := by
  simp only [validWorkq, show wq'.sig = wq.sig from congrArg Prod.fst h]

theorem getElem?_of_made {l l' : List Workq} (h : l'.map Workq.made = l.map Workq.made)
    (hq : l[q]? = some wq) : ∃ wq', l'[q]? = some wq' ∧ wq'.made = wq.made := by
  have he : (l'.map Workq.made)[q]? = some wq.made := by
    rw [h, List.getElem?_map, hq]
    rfl
  rw [List.getElem?_map] at he
  exact Option.map_eq_some_iff.mp he

theorem Registry.slot_exists (hr : Registry c) (h : c.shared.slotOf wq = some q) :
    ∃ wq', Registered c.shared q wq' ∧ wq'.key = wq.key := by
  unfold Shared.slotOf at h
  split at h
  · obtain ⟨wq', hreg, hk, hi⟩ := hr.ocSlots _ q h
    exact ⟨wq', hreg, Prod.ext hi (hk.trans (Eq.symm ‹_›))⟩
  · obtain ⟨wq', hreg, hk, hi⟩ := hr.slots _ q h
    exact ⟨wq', hreg, Prod.ext hi (hk.trans (Bool.eq_false_iff.mpr ‹_›).symm)⟩

theorem registering_apply (hp : c.threads[t]? = some p) (fresh : ∀ r ∈ o.spawned, r.registering = none)
    (hu : (o.apply c t).threads[u]? = some r) (hr : r.registering = some q) :
    (u = t ∧ o.pc.registering = some q) ∨ (u ≠ t ∧ c.threads[u]? = some r) := by
  obtain ⟨rfl, rfl⟩ | hu | ⟨-, hu⟩ := Outcome.get_cases hp hu
  · exact .inl ⟨rfl, hr⟩
  · exact .inr hu
  · rw [fresh r hu] at hr
    cases hr

namespace Creations

private theorem alloc {k : Caller} {attr : Option Attr} (h : Creations c) (hr : Registry c)
    (hp : c.threads[t]? = some (.call k (.createAlloc attr))) :
    Creations (Outcome.apply (⟨{ c.shared with queues := c.shared.queues ++ [newWorkq attr] },
      .call k (.createLock c.shared.queues.length), [], []⟩ : Out) c t) := by
  have here : ∀ (u : Tid) (r : Thread) (q : QId), c.threads[u]? = some r → r.registering = some q →
      q < c.shared.queues.length := by
    intro u r q hu hq
    obtain ⟨wq, hwq, -⟩ := h.pending u r q hu hq
    exact (List.getElem?_eq_some_iff.mp hwq).1
  refine ⟨fun wq hwq => ?_, fun u r q hu hq => ?_, fun u x r y q hu hx hq hy => ?_, fun q wq hq => ?_⟩
  · rcases List.mem_append.mp hwq with hwq | hwq
    · exact h.valid wq hwq
    · rw [List.mem_singleton.mp hwq]
      rfl
  · rcases registering_apply hp (by simp) hu hq with ⟨rfl, hq⟩ | ⟨-, hu⟩
    · cases hq
      refine ⟨newWorkq attr, List.getElem?_concat_length, fun hs => ?_⟩
      -- the slots name older queues only
      obtain ⟨wq, hreg, -⟩ := hr.slot_exists (c := c) hs
      exact absurd (List.getElem?_eq_some_iff.mp hreg.here).1 (Nat.lt_irrefl _)
    · obtain ⟨wq, hwq, hs⟩ := h.pending u r q hu hq
      exact ⟨wq, (List.getElem?_append_left (here u r q hu hq)).trans hwq, hs⟩
  · rcases registering_apply hp (by simp) hu hq with ⟨hut, hq⟩ | ⟨-, hu⟩ <;>
      rcases registering_apply hp (by simp) hx hy with ⟨hxt, hy⟩ | ⟨-, hx⟩
    · exact hut.trans hxt.symm
    · cases hq
      exact absurd (here x y _ hx hy) (Nat.lt_irrefl _)
    · cases hy
      exact absurd (here u r _ hu hq) (Nat.lt_irrefl _)
    · exact h.alone u x r y q hu hx hq hy
  · by_cases hlt : q < c.shared.queues.length
    · rcases h.entered q wq ((List.getElem?_append_left hlt).symm.trans hq) with hs | ⟨u, r, hu, hr⟩
      · exact .inl hs
      · refine .inr ⟨u, r, Outcome.get_other (fun hut => ?_) hu, hr⟩
        subst hut
        rw [hp] at hu
        cases hu
        cases hr
    · have hle : q < (c.shared.queues ++ [newWorkq attr]).length := (List.getElem?_eq_some_iff.mp hq).1
      rw [List.length_append, List.length_singleton] at hle
      obtain rfl : q = c.shared.queues.length :=
        Nat.le_antisymm (Nat.le_of_lt_succ hle) (Nat.le_of_not_lt hlt)
      exact .inr ⟨t, _, Outcome.get_self hp, rfl⟩

private theorem valid_made (h : Creations c)
    (made : o.shared.queues.map Workq.made = c.shared.queues.map Workq.made) :
    ∀ wq ∈ o.shared.queues, validWorkq wq = true := by
  intro wq hwq
  obtain ⟨i, hi⟩ := List.getElem?_of_mem hwq
  obtain ⟨wq', hwq', hm⟩ := getElem?_of_made made.symm hi
  rw [← validWorkq_of_made hm]
  exact h.valid wq' (List.mem_of_getElem? hwq')

private theorem enter (h : Creations c) (hp : c.threads[t]? = some p) (hq : p.registering = some q)
    (ho : o.pc.registering = none) (fresh : o.spawned = []) (hwq : c.shared.queues[q]? = some wq)
    (free : c.shared.slotOf wq = none)
    (made : o.shared.queues.map Workq.made = c.shared.queues.map Workq.made)
    (slot : ∀ w, o.shared.slotOf w = if w.key = wq.key then some q else c.shared.slotOf w) :
    Creations (o.apply c t) := by
  have was : ∀ (u : Tid) (r : Thread) (x : QId), (o.apply c t).threads[u]? = some r →
      r.registering = some x → u ≠ t ∧ c.threads[u]? = some r := by
    intro u r x hu hr
    rcases registering_apply hp (by simp [fresh]) hu hr with ⟨-, hx⟩ | hu
    · rw [ho] at hx
      cases hx
    · exact hu
  refine ⟨h.valid_made made, fun u r x hu hr => ?_, fun u x r y z hu hx hr hy => ?_, fun x w hw => ?_⟩
  · obtain ⟨hne, hu⟩ := was u r x hu hr
    obtain ⟨w, hw, hs⟩ := h.pending u r x hu hr
    obtain ⟨w', hw', hm⟩ := getElem?_of_made made hw
    refine ⟨w', hw', ?_⟩
    change o.shared.slotOf w' ≠ some x
    rw [slot w', slotOf_of_key (Workq.key_of_made hm)]
    split
    · rintro ⟨⟩
      exact hne (h.alone u t r p q hu hp hr hq)
    · exact hs
  · exact h.alone u x r y z (was u r z hu hr).2 (was x y z hx hy).2 hr hy
  · obtain ⟨w', hw', hm⟩ := getElem?_of_made made.symm hw
    change o.shared.slotOf w = some x ∨ _
    rw [slot w]
    by_cases hxq : x = q
    · subst hxq
      rw [hwq] at hw'
      cases hw'
      exact .inl (if_pos (Workq.key_of_made hm).symm)
    · rcases h.entered x w' hw' with hs | ⟨u, r, hu, hr⟩
      · have hne : w'.key ≠ wq.key := by
          intro hk
          rw [slotOf_of_key hk, free] at hs
          cases hs
        left
        rw [Workq.key_of_made hm] at hne
        rw [if_neg hne, ← hs, slotOf_of_key (Workq.key_of_made hm)]
      · refine .inr ⟨u, r, Outcome.get_other (fun hut => ?_) hu, hr⟩
        subst hut
        rw [hp] at hu
        cases hu
        exact hxq (Option.some.inj (hr.symm.trans hq))

private theorem keep (h : Creations c) (hp : c.threads[t]? = some p)
    (ho : o.pc.registering = p.registering) (fresh : ∀ r ∈ o.spawned, r.registering = none)
    (made : o.shared.queues.map Workq.made = c.shared.queues.map Workq.made)
    (slot : ∀ w, o.shared.slotOf w = c.shared.slotOf w) : Creations (o.apply c t) := by
  have was : ∀ (u : Tid) (r : Thread) (x : QId), (o.apply c t).threads[u]? = some r →
      r.registering = some x → ∃ r', c.threads[u]? = some r' ∧ r'.registering = some x :=
    fun u r x hu hr => Outcome.exists_before (P := fun r => r.registering = some x) hp
      (fun h => ho ▸ h) (fun r hr => by simp [fresh r hr]) hu hr
  refine ⟨h.valid_made made, fun u r x hu hr => ?_, fun u x r y z hu hx hr hy => ?_, fun x w hw => ?_⟩
  · obtain ⟨r', hu, hr⟩ := was u r x hu hr
    obtain ⟨w, hw, hs⟩ := h.pending u r' x hu hr
    obtain ⟨w', hw', hm⟩ := getElem?_of_made made hw
    refine ⟨w', hw', ?_⟩
    change o.shared.slotOf w' ≠ some x
    rw [slot w', slotOf_of_key (Workq.key_of_made hm)]
    exact hs
  · obtain ⟨r', hu, hr⟩ := was u r z hu hr
    obtain ⟨y', hx, hy⟩ := was x y z hx hy
    exact h.alone u x r' y' z hu hx hr hy
  · obtain ⟨w', hw', hm⟩ := getElem?_of_made made.symm hw
    change o.shared.slotOf w = some x ∨ _
    rw [slot w, ← slotOf_of_key (Workq.key_of_made hm)]
    exact (h.entered x w' hw').imp_right (Outcome.exists_after hp fun hr => ho.trans hr)

theorem apply (h : Creations c) (hr : Registry c) (hp : c.threads[t]? = some p)
    (hs : QueueStep c.shared p ch o) : Creations (o.apply c t) := by
  cases hs with
  | alloc he _ ho =>
    subst he ho
    exact h.alloc hr hp
  | enter hq ho fresh hwq free made slot => exact h.enter hp hq ho fresh hwq free made slot
  | keep ho fresh made slot => exact h.keep hp ho fresh made slot

end Creations

theorem creations_initial (users managers : Nat) : Creations (initial users managers) where
  valid _ h := by cases h
  pending _ _ _ h hr := by obtain rfl | rfl := initial_threads h <;> cases hr
  alone _ _ _ _ _ h _ hr := by obtain rfl | rfl := initial_threads h <;> cases hr
  entered _ _ h := by cases h

theorem creations {G : PoolState → Nat × Choice → Prop} {users managers : Nat} {tr : List Event}
    (h : Machine.Run (program S) G (initial users managers) tr c) : Creations c :=
  h.invariant (fun _ c => Creations c) (creations_initial _ _) fun _ _ _ _ _ hrun ih _ mv =>
    ih.apply (registry hrun) mv.here (queue_step (program_step mv.next).2)

end Creations

/-! When the queues keep out of each other's slots -/

/-- The queue that the step allocates asks for a slot that no other queue asks for, and the manager
thread is created at once or after a retry. -/
def careful (a : PoolAct) : Bool :=
  match a.pc, a.choice with
  | .call _ (.createAlloc attr), .ret code =>
    code != 0 || a.shared.queues.all fun wq => wq.key != (newWorkq attr).key
  | .call _ (.managerStart _), .ret code => code == 0 || code == eagain
  | _, _ => true

section Keys
variable {S : Settings} {G : PoolState → Nat × Choice → Prop} {users managers : Nat} {t : Tid}
  {p : Thread} {o : Out} {ch : Choice} {q : QId} {wq : Workq} {c : PoolState} {sh : Shared}
  {as : List PoolAct}

theorem map_key_of_made {l l' : List Workq} (h : l'.map Workq.made = l.map Workq.made) :
    l'.map Workq.key = l.map Workq.key := by
  have hs := congrArg (List.map Prod.snd) h
  rw [List.map_map, List.map_map] at hs
  exact hs

/-- The queues ask for different slots as long as the calls are careful. -/
theorem keys_nodup (h : Machine.Run (program S).acts G (initial users managers) as c)
    (hc : ∀ a ∈ as, careful a = true) : (c.shared.queues.map Workq.key).Nodup := by
  refine h.acts_rule (fun as c => (∀ a ∈ as, careful a = true) →
    (c.shared.queues.map Workq.key).Nodup) (fun _ => by simp [initial, managerInit]) ?_ hc
  intro as c l p o _ ih _ mv hc
  have hn := ih fun a ha => hc a (List.mem_append_left _ ha)
  have hlast := hc _ (List.mem_append_right _ (List.mem_singleton_self _))
  change (o.shared.queues.map Workq.key).Nodup
  cases queue_step (program_step mv.next).2 with
  | alloc he hch ho =>
    subst he ho
    simp only [careful, hch, bne_self_eq_false, Bool.false_or, List.all_eq_true, bne_iff_ne] at hlast
    rw [List.map_append, List.map_singleton]
    refine List.nodup_append.mpr ⟨hn, by simp, fun x hx y hy => ?_⟩
    obtain ⟨wq, hwq, rfl⟩ := List.mem_map.mp hx
    rw [List.mem_singleton.mp hy]
    exact hlast wq hwq
  | enter _ _ _ _ _ made => rwa [map_key_of_made made]
  | keep _ _ made => rwa [map_key_of_made made]

/-- A queue that is about to be registered finds its slot free. -/
theorem slot_free (hr : Registry c) (hq : Creations c) (hn : (c.shared.queues.map Workq.key).Nodup)
    (hp : c.threads[t]? = some p) (h : p.registering = some q) :
    ∃ wq, c.shared.queues[q]? = some wq ∧ c.shared.slotOf wq = none := by
  obtain ⟨wq, hwq, hne⟩ := hq.pending t p q hp h
  refine ⟨wq, hwq, Option.eq_none_iff_forall_ne_some.mpr fun x hx => ?_⟩
  obtain ⟨w, hreg, hkey⟩ := hr.slot_exists hx
  have hxl := (List.getElem?_eq_some_iff.mp hreg.here).1
  have hsame : x = q := by
    refine (List.getElem?_inj (by simpa using hxl) hn).mp ?_
    rw [List.getElem?_map, List.getElem?_map, hreg.here, hwq]
    exact congrArg some hkey
  exact hne (hsame ▸ hx)

end Keys

/-! One call from its first step to its return -/

/-- The steps of `pthread_workqueue_create_np`. -/
inductive CreateStep (sh : Shared) (t : Tid) (k : Caller) : Call → Choice → Out → Prop where
  | invalid {attr} : validAttr attr = false →
      CreateStep sh t k (.createCheck attr) .go ⟨sh, .app k, [], [.returned t einval]⟩
  | valid {attr} : validAttr attr = true →
      CreateStep sh t k (.createCheck attr) .go ⟨sh, .call k (.createAlloc attr), [], []⟩
  | noMemory {attr code} : code ≠ 0 →
      CreateStep sh t k (.createAlloc attr) (.ret code) ⟨sh, .app k, [], [.returned t enomem]⟩
  | alloc {attr} : CreateStep sh t k (.createAlloc attr) (.ret 0)
      ⟨{ sh with queues := sh.queues ++ [newWorkq attr] }, .call k (.createLock sh.queues.length), [], []⟩
  | lock {q} : sh.wqlistMtx = none → CreateStep sh t k (.createLock q) .go
      ⟨{ sh with wqlistMtx := some t }, .call k (.createManager q), [], []⟩
  | needsManager {q} :
      CreateStep sh t k (.createManager q) .go ⟨sh, .call k (.managerStart q), [], []⟩
  | hasManager {q} :
      CreateStep sh t k (.createManager q) .go ⟨sh, .call k (.createRegister q), [], []⟩
  | started {q} : CreateStep sh t k (.managerStart q) (.ret 0)
      ⟨sh, .call k (.managerSet q), [.managerMain], []⟩
  | again {q} : CreateStep sh t k (.managerStart q) (.ret eagain)
      ⟨sh, .call k (.managerStart q), [], []⟩
  | failed {q code} : code ≠ 0 → code ≠ eagain → CreateStep sh t k (.managerStart q) (.ret code)
      ⟨sh.halt .abort, .call k (.managerStart q), [], []⟩
  | set {q} : CreateStep sh t k (.managerSet q) .go
      ⟨{ sh with wqlistHasManager := true }, .call k (.createRegister q), [], []⟩
  | register {q wq sh'} : sh.queues[q]? = some wq → register sh q wq = some sh' →
      CreateStep sh t k (.createRegister q) .go ⟨sh', .call k (.createUnlock q), [], []⟩
  | occupied {q wq} : sh.queues[q]? = some wq → sh.slotOf wq ≠ none →
      CreateStep sh t k (.createRegister q) .go ⟨sh.halt .abort, .call k (.createRegister q), [], []⟩
  | unlock {q} : CreateStep sh t k (.createUnlock q) .go
      ⟨{ sh with wqlistMtx := none, handles := sh.handles ++ [q] }, .app k, [], [.returned t 0]⟩

namespace Thread

/-- The steps that remain of a call that waits for nobody. -/
def createRank : Thread → Nat
  | .call _ c => match c with
    | .createCheck _ => 8
    | .createAlloc _ => 7
    | .createLock _ => 6
    | .createManager _ => 5
    | .managerStart _ => 4
    | .managerSet _ => 3
    | .createRegister _ => 2
    | .createUnlock _ => 1
    | _ => 0
  | _ => 0

end Thread

/-- A `pthread_create` of the manager that has to be repeated. -/
def retries (a : PoolAct) : Bool :=
  match a.pc, a.choice with
  | .call _ (.managerStart _), .ret code => code == eagain
  | _, _ => false

/-- The steps of the creation that a thread is in or has just left, the latest first. -/
def thisCall (t : Tid) (as : List PoolAct) : List PoolAct :=
  (as.reverse.filter fun a => a.thread == t).takeWhile fun a => a.pc.creating

/-- The call whose steps these are was made with these attributes. -/
def Asked (bs : List PoolAct) (attr : Option Attr) : Prop :=
  ∃ a ∈ bs, ∃ k, a.pc = .call k (.createCheck attr)

/-- The queue has the attributes that the call was made with. -/
def Makes (bs : List PoolAct) (sh : Shared) (q : QId) : Prop :=
  ∃ attr wq, Asked bs attr ∧ sh.queues[q]? = some wq ∧ wq.made = (newWorkq attr).made

/-- What the steps of a call say when its thread has come to this point. -/
def Thread.story (bs : List PoolAct) (sh : Shared) : Thread → Prop
  | .call _ c => match c with
    | .createCheck _ => bs = []
    | .createAlloc attr => ∃ a k, bs = [a] ∧ a.pc = .call k (.createCheck attr)
    | .createLock q | .createManager q | .managerStart q | .managerSet q | .createRegister q
    | .createUnlock q => Makes bs sh q
    | _ => True
  | _ => True

/-- What is known of the calls after some steps. -/
structure Calls (as : List PoolAct) (c : PoolState) : Prop where
  acted : ∀ a ∈ as, a.thread < c.threads.length
  story : ∀ (t : Tid) (p : Thread), c.threads[t]? = some p → p.story (thisCall t as) c.shared
  bound : ∀ (t : Tid) (p : Thread), c.threads[t]? = some p →
    (thisCall t as).length + p.createRank ≤ 8 + (thisCall t as).countP retries

section Calls
variable {S : Settings} {G : PoolState → Nat × Choice → Prop} {users managers : Nat} {t : Tid}
  {p : Thread} {o : Out} {ch : Choice} {q : QId} {wq : Workq} {c : PoolState} {sh sh' : Shared}
  {as bs : List PoolAct} {k : Caller} {x : Call} {a : PoolAct}

theorem register_eq_none (h : register sh q wq = none) : sh.slotOf wq ≠ none := by
  simp only [register] at h
  unfold Shared.slotOf
  split at h
  · split at h
    · cases h
    · rwa [if_pos ‹_›]
  · split at h
    · cases h
    · rwa [if_neg ‹_›]

theorem create_next (hx : (Thread.call k x).creating = true) (hd : ¬ (Thread.call k x).dangles sh)
    (h : callNext sh t k x ch = some o) : CreateStep sh t k x ch o := by
  have found {q : QId} {f : Workq → Option Out} (hq : ¬ sh.queues[q]? = none)
      (h : withQueue sh (.call k x) q f = some o) : ∃ wq, sh.queues[q]? = some wq ∧ f wq = some o := by
    obtain ⟨wq, hwq⟩ := Option.ne_none_iff_exists'.mp hq
    rw [withQueue, hwq] at h
    exact ⟨wq, hwq, h⟩
  cases x <;> cases hx
  case createCheck.refl attr =>
    cases ch <;> simp only [callNext, goTo, emit, reduceCtorEq] at h
    split at h <;> cases h
    · exact .valid ‹_›
    · exact .invalid (Bool.eq_false_iff.mpr ‹_›)
  case createAlloc.refl attr =>
    cases ch <;> simp only [callNext, goTo, emit, reduceCtorEq] at h
    split at h <;> cases h
    · subst_vars
      exact .alloc
    · exact .noMemory ‹_›
  case createLock.refl q =>
    obtain ⟨wq, hwq, h⟩ := found hd h
    cases ch <;> simp only [createNext, goTo, reduceCtorEq, Option.ite_none_right_eq_some] at h
    obtain ⟨hm, h⟩ := h
    cases h
    exact .lock hm
  case createManager.refl q =>
    obtain ⟨wq, hwq, h⟩ := found hd h
    cases ch <;> simp only [createNext, goTo, reduceCtorEq] at h
    split at h <;> cases h
    · exact .needsManager
    · exact .hasManager
  case managerStart.refl q =>
    obtain ⟨wq, hwq, h⟩ := found hd h
    cases ch <;> simp only [createNext, goTo, spawn, reduceCtorEq] at h
    split at h
    · cases h
      subst_vars
      exact .started
    · split at h <;> cases h
      · subst_vars
        exact .again
      · exact .failed ‹_› ‹_›
  case managerSet.refl q =>
    obtain ⟨wq, hwq, h⟩ := found hd h
    cases ch <;> simp only [createNext, goTo, reduceCtorEq] at h
    cases h
    exact .set
  case createRegister.refl q =>
    obtain ⟨wq, hwq, h⟩ := found hd h
    cases ch <;> simp only [createNext, goTo, reduceCtorEq] at h
    split at h <;> cases h
    · exact .register hwq ‹_›
    · exact .occupied hwq (register_eq_none ‹_›)
  case createUnlock.refl q =>
    obtain ⟨wq, hwq, h⟩ := found hd h
    cases ch <;> simp only [createNext, emit, reduceCtorEq] at h
    cases h
    exact .unlock

theorem thisCall_concat_self (as : List PoolAct) (a : PoolAct) : thisCall a.thread (as ++ [a]) =
    if a.pc.creating then a :: thisCall a.thread as else [] := by
  simp [thisCall, List.takeWhile_cons]

theorem thisCall_concat_other (h : a.thread ≠ t) (as : List PoolAct) :
    thisCall t (as ++ [a]) = thisCall t as := by
  simp [thisCall, h]

theorem thisCall_eq_nil (h : ∀ a ∈ as, a.thread < t) : thisCall t as = [] := by
  have hnone : as.reverse.filter (fun a => a.thread == t) = [] := by
    refine List.filter_eq_nil_iff.mpr fun a ha => ?_
    have := h a (List.mem_reverse.mp ha)
    simp only [beq_iff_eq]
    exact Nat.ne_of_lt this
  rw [thisCall, hnone]
  rfl

theorem QueueStep.kept (h : QueueStep sh p ch o) (hq : sh.queues[q]? = some wq) :
    ∃ wq', o.shared.queues[q]? = some wq' ∧ wq'.made = wq.made := by
  cases h with
  | alloc _ _ ho =>
    subst ho
    exact ⟨wq, (List.getElem?_append_left (List.getElem?_eq_some_iff.mp hq).1).trans hq, rfl⟩
  | enter _ _ _ _ _ made => exact getElem?_of_made made hq
  | keep _ _ made => exact getElem?_of_made made hq

theorem Makes.kept (hm : Makes bs sh q) (h : QueueStep sh p ch o) : Makes bs o.shared q := by
  obtain ⟨attr, wq, ha, hq, he⟩ := hm
  obtain ⟨wq', hq', he'⟩ := h.kept hq
  exact ⟨attr, wq', ha, hq', he'.trans he⟩

theorem Makes.later (h : Makes bs sh q) (a : PoolAct) : Makes (a :: bs) sh q := by
  obtain ⟨attr, wq, ⟨b, hb, hk⟩, hq, he⟩ := h
  exact ⟨attr, wq, ⟨b, List.mem_cons_of_mem _ hb, hk⟩, hq, he⟩

theorem Thread.story_kept {r : Thread} (hr : r.story bs sh) (h : QueueStep sh p ch o) :
    r.story bs o.shared := by
  cases r with
  | call k x => cases x <;> first | exact Makes.kept hr h | exact hr
  | _ => trivial

theorem Thread.story_of_not_creating (h : p.creating = false) : p.story bs sh := by
  cases p with
  | call k x => cases x <;> trivial
  | _ => trivial

theorem Thread.createRank_of_not_creating (h : p.creating = false) : p.createRank = 0 := by
  cases p with
  | call k x => cases x <;> first | rfl | cases h
  | _ => rfl

theorem Thread.createRank_le : p.createRank ≤ 8 := by
  cases p with
  | call k x => cases x <;> exact Nat.le_of_ble_eq_true rfl
  | _ => exact Nat.zero_le 8

/-- A thread enters the call at its first step. -/
theorem enters_create (h : Step S sh t p ch o) (hp : p.creating = false)
    (ho : o.pc.creating = true) : ∃ k attr, o.pc = .call k (.createCheck attr) := by
  cases h with
  | app h => cases h <;> first | exact ⟨_, _, rfl⟩ | cases ho
  | call h =>
    cases h with
    | fault => rw [hp] at ho; cases ho
    | @quiet c c' ch sh' _ _ hc => cases c' <;> first | exact ⟨_, _, rfl⟩ | (cases ho; done) | cases hc
    | _ => first | (cases ho; done) | cases hp
  | worker h => cases h <;> cases ho
  | overcommit h => cases h <;> cases ho
  | manager h => cases h <;> cases ho

/-- An attribute object that was only written by the attribute functions is not refused. -/
theorem CreateStep.accepts {attr : Attr} (h : CreateStep sh t k (.createCheck (some attr)) ch o)
    (hm : AttrMade attr) : o.pc = .call k (.createAlloc (some attr)) := by
  cases h with
  | valid => rfl
  | invalid hv =>
    rw [hm.valid] at hv
    cases hv

/-- A careful call does not end the process. -/
theorem CreateStep.alive (h : CreateStep sh t k x ch o) (alive : sh.halted = none)
    (free : ∀ q, (Thread.call k x).registering = some q →
      ∃ wq, sh.queues[q]? = some wq ∧ sh.slotOf wq = none)
    (hc : careful ⟨t, sh, .call k x, ch⟩ = true) : o.shared.halted = none := by
  cases h with
  | failed h₀ h₁ => simp [careful, h₀, h₁] at hc
  | occupied hq hne =>
    obtain ⟨wq, hq', hn⟩ := free _ rfl
    rw [hq] at hq'
    cases hq'
    exact absurd hn hne
  | register _ hreg => exact (NoNull.register_halted hreg).trans alive
  | _ => exact alive

theorem CreateStep.rank (h : CreateStep sh t k x ch o) (alive : o.shared.halted = none) :
    o.pc.createRank + 1 ≤ (Thread.call k x).createRank + (retries ⟨t, sh, .call k x, ch⟩).toNat := by
  cases h with
  | failed | occupied => cases alive
  | _ => exact Nat.le_of_ble_eq_true rfl

/-- The story of a call goes on. -/
theorem CreateStep.story (h : CreateStep sh t k x ch o) (hs : (Thread.call k x).story bs sh)
    (hq : QueueStep sh (.call k x) ch o) : o.pc.story (⟨t, sh, .call k x, ch⟩ :: bs) o.shared := by
  cases h with
  | invalid | noMemory | unlock => trivial
  | valid => exact ⟨_, k, by rw [show bs = [] from hs], rfl⟩
  | @alloc attr =>
    obtain ⟨b, k', hb, hk⟩ := hs
    refine ⟨attr, _, ⟨b, ?_, k', hk⟩, List.getElem?_concat_length, rfl⟩
    rw [hb]
    exact List.mem_cons_of_mem _ (List.mem_singleton_self b)
  | _ => exact (hs.later _).kept hq

/-- The thread that moves, after its step. -/
private theorem Calls.self (h : Calls as c) (hp : c.threads[t]? = some p)
    (hn : program S c.shared t p ch = some o) (hd : ¬ p.dangles c.shared)
    (alive : p.creating = true → o.shared.halted = none) :
    o.pc.story (thisCall t (as ++ [⟨t, c.shared, p, ch⟩])) o.shared ∧
      (thisCall t (as ++ [⟨t, c.shared, p, ch⟩])).length + o.pc.createRank ≤
        8 + (thisCall t (as ++ [⟨t, c.shared, p, ch⟩])).countP retries := by
  obtain ⟨halt, hs⟩ := program_step hn
  have hbound := h.bound t p hp
  have hcall : thisCall t (as ++ [⟨t, c.shared, p, ch⟩]) =
      if p.creating then ⟨t, c.shared, p, ch⟩ :: thisCall t as else [] :=
    thisCall_concat_self as ⟨t, c.shared, p, ch⟩
  rw [hcall]
  cases hpc : p.creating with
  | false =>
    have hrank := Thread.createRank_le (p := o.pc)
    refine ⟨?_, by simpa using hrank⟩
    cases hoc : o.pc.creating with
    | false => exact Thread.story_of_not_creating hoc
    | true =>
      obtain ⟨k, attr, he⟩ := enters_create hs hpc hoc
      rw [he]
      rfl
  | true =>
    cases p with
    | call k x =>
      simp only [program, halt, if_true] at hn
      have hstep := create_next hpc hd hn
      refine ⟨hstep.story (h.story t _ hp) (queue_step hs), ?_⟩
      have hrank := hstep.rank (alive hpc)
      have hcount : ((⟨t, c.shared, .call k x, ch⟩ :: thisCall t as : List PoolAct)).countP retries =
          (thisCall t as).countP retries + (retries ⟨t, c.shared, .call k x, ch⟩).toNat := by
        rw [List.countP_cons]
        cases retries ⟨t, c.shared, .call k x, ch⟩ <;> rfl
      rw [if_pos rfl, List.length_cons, hcount]
      omega
    | _ => cases hpc

theorem Calls.apply (h : Calls as c) (hp : c.threads[t]? = some p)
    (hn : program S c.shared t p ch = some o) (hd : ¬ p.dangles c.shared)
    (alive : p.creating = true → o.shared.halted = none) :
    Calls (as ++ [⟨t, c.shared, p, ch⟩]) (o.apply c t) := by
  have hs := (program_step hn).2
  have hself := h.self hp hn hd alive
  have fresh : ∀ r ∈ o.spawned, r.creating = false := hs.fresh rfl rfl rfl
  have hacted : ∀ a ∈ as ++ [⟨t, c.shared, p, ch⟩], a.thread < c.threads.length := by
    intro a ha
    rcases List.mem_append.mp ha with ha | ha
    · exact h.acted a ha
    · rw [List.mem_singleton.mp ha]
      exact (List.getElem?_eq_some_iff.mp hp).1
  have hnew : ∀ u, c.threads.length ≤ u → thisCall u (as ++ [⟨t, c.shared, p, ch⟩]) = [] :=
    fun u hu => thisCall_eq_nil fun a ha => Nat.lt_of_lt_of_le (hacted a ha) hu
  refine ⟨fun a ha => ?_, fun u r hu => ?_, fun u r hu => ?_⟩
  · refine Nat.lt_of_lt_of_le (hacted a ha) ?_
    simp [Outcome.apply]
  · obtain ⟨rfl, rfl⟩ | ⟨hne, hu⟩ | ⟨-, hr⟩ := Outcome.get_cases hp hu
    · exact hself.1
    · rw [thisCall_concat_other (Ne.symm hne)]
      exact Thread.story_kept (h.story u r hu) (queue_step hs)
    · exact Thread.story_of_not_creating (fresh r hr)
  · obtain ⟨rfl, rfl⟩ | ⟨hne, hu⟩ | ⟨hge, hr⟩ := Outcome.get_cases hp hu
    · exact hself.2
    · rw [thisCall_concat_other (Ne.symm hne)]
      exact h.bound u r hu
    · rw [hnew u hge, Thread.createRank_of_not_creating (fresh r hr)]
      exact Nat.zero_le _

end Calls

/-! The contract of `pthread_workqueue_create_np` -/

/-- The memory is as the step found it. -/
def leavesMemory (S : Settings) (a : PoolAct) : Prop :=
  ∀ o, program S a.shared a.thread a.pc a.choice = some o → o.shared = a.shared

/-- What a call returns whose steps are `bs`, the step `a` being its last: a handle of a registered
queue with the attributes of the call, or an error after steps that have changed nothing. -/
inductive Answer (S : Settings) (bs : List PoolAct) (a : PoolAct) (o : Out) : Prop where
  | handle {q wq attr} : o.events = [.returned a.thread 0] →
      o.shared.handles = a.shared.handles ++ [q] → Registered o.shared q wq →
      validWorkq wq = true → Asked bs attr → wq.key = (newWorkq attr).key → Answer S bs a o
  | error {code} : code ≠ 0 → o.events = [.returned a.thread code] →
      (∀ b ∈ bs, leavesMemory S b) → Answer S bs a o

/-- Slot `i` of a registry holds a queue of the given kind, with index `i`. -/
def slotHolds (sh : Shared) (overcommit : Bool) (i : Nat) (q : QId) : Prop :=
  ∃ wq, sh.queues[q]? = some wq ∧ wq.queueprio = i ∧ wq.wqlistIndex = i ∧ i < workqNumPrioqueue ∧
    wq.overcommit = overcommit

/-- Both registries are in order. -/
structure RegistriesOk (sh : Shared) : Prop where
  slots : ∀ i q, sh.wqlist i = some q → slotHolds sh false i q
  ocSlots : ∀ i q, sh.ocwq i = some q → slotHolds sh true i q
  distinct : ∀ i j q, sh.wqlist i = some q → sh.wqlist j = some q → i = j
  ocDistinct : ∀ i j q, sh.ocwq i = some q → sh.ocwq j = some q → i = j
  disjoint : ∀ i j q, sh.wqlist i = some q → sh.ocwq j ≠ some q

/-- A thread inside the call can go on, unless it waits for a mutex whose holder is awake inside the
library. -/
def CanGoOn (S : Settings) (c : PoolState) (t : Tid) (p : Thread) : Prop :=
  (∃ ch, careful ⟨t, c.shared, p, ch⟩ = true ∧ (program S c.shared t p ch).isSome) ∨
    ∃ u r, p.wants = some .wqlistMtx ∧ c.shared.wqlistMtx = some u ∧ c.threads[u]? = some r ∧
      r.inUserCode = false ∧ r.sleeps = false

/-- `pthread_workqueue_create_np` after some steps of the program: no call has ended the process, the
call that has just returned has an answer, every call takes at most eight steps besides retries, and
goes on; every handle is one of a registered queue, the registries are in order, and at most one
manager was started. -/
structure CreateContract (S : Settings) (as : List PoolAct) (c : PoolState) : Prop where
  alive : ∀ a ∈ as, a.pc.creating = true → ∀ o, program S a.shared a.thread a.pc a.choice = some o →
    o.shared.halted = none
  answer : ∀ pre a, as = pre ++ [a] → a.pc.creating = true →
    ∀ o, program S a.shared a.thread a.pc a.choice = some o → o.pc.creating = false →
      o.shared = c.shared ∧ Answer S (thisCall a.thread as) a o
  bounded : ∀ t, (thisCall t as).length ≤ 8 + (thisCall t as).countP retries
  goesOn : c.shared.halted = none → ∀ (t : Tid) (p : Thread), c.threads[t]? = some p →
    p.creating = true → CanGoOn S c t p
  handles : ∀ q ∈ c.shared.handles, ∃ wq, Registered c.shared q wq ∧ validWorkq wq = true
  registries : RegistriesOk c.shared
  oneManager : c.number Thread.isManager ≤ 1

section Contract
variable {S : Settings} {G : PoolState → Nat × Choice → Prop} {users managers : Nat} {t : Tid}
  {p : Thread} {o : Out} {ch : Choice} {q : QId} {wq : Workq} {c : PoolState} {sh sh' : Shared}
  {as bs : List PoolAct} {k : Caller} {x : Call} {a : PoolAct}

theorem Registry.registriesOk (hr : Registry c) : RegistriesOk c.shared := by
  have same {q : QId} {wq wq' : Workq} (h : Registered c.shared q wq) (h' : Registered c.shared q wq') :
      wq = wq' := Option.some.inj (h.here.symm.trans h'.here)
  refine ⟨fun i q h => ?_, fun i q h => ?_, fun i j q hi hj => ?_, fun i j q hi hj => ?_,
    fun i j q hi hj => ?_⟩
  · obtain ⟨wq, hreg, hk, rfl⟩ := hr.slots i q h
    exact ⟨wq, hreg.here, rfl, hreg.index, hreg.bound, hk⟩
  · obtain ⟨wq, hreg, hk, rfl⟩ := hr.ocSlots i q h
    exact ⟨wq, hreg.here, rfl, hreg.index, hreg.bound, hk⟩
  · obtain ⟨wq, hreg, -, rfl⟩ := hr.slots i q hi
    obtain ⟨wq', hreg', -, rfl⟩ := hr.slots j q hj
    rw [same hreg hreg']
  · obtain ⟨wq, hreg, -, rfl⟩ := hr.ocSlots i q hi
    obtain ⟨wq', hreg', -, rfl⟩ := hr.ocSlots j q hj
    rw [same hreg hreg']
  · obtain ⟨wq, hreg, hk, -⟩ := hr.slots i q hi
    obtain ⟨wq', hreg', hk', -⟩ := hr.ocSlots j q hj
    rw [same hreg hreg', hk'] at hk
    cases hk

theorem OneManager.number_le (h : OneManager c) : c.number Thread.isManager ≤ 1 := by
  by_cases hex : ∃ (t : Tid) (p : Thread), c.threads[t]? = some p ∧ p.isManager = true
  · obtain ⟨t, p, hp, hm⟩ := hex
    have hle := Config.number_le_of_unique (P := Thread.isManager) hp (z := .app .user) rfl
      fun u r hu hr => h.unique u t r p hu hp hr hm
    rwa [hm] at hle
  · have hnone : c.number Thread.isManager = 0 := by
      refine List.countP_eq_zero.mpr fun p hp hm => ?_
      obtain ⟨t, ht⟩ := List.getElem?_of_mem hp
      exact hex ⟨t, p, ht, hm⟩
    omega

theorem leavesMemory_check {attr : Option Attr} (ha : a.pc = .call k (.createCheck attr)) :
    leavesMemory S a := by
  intro o h
  simp only [program, ha, Option.ite_none_right_eq_some] at h
  obtain ⟨-, h⟩ := h
  cases hch : a.choice <;> simp only [hch, callNext, goTo, emit, reduceCtorEq] at h
  split at h <;> (cases h; rfl)

theorem leavesMemory_of_fail {attr : Option Attr} {code : Nat} (ha : a.pc = .call k (.createAlloc attr))
    (hch : a.choice = .ret code) (hc : code ≠ 0) : leavesMemory S a := by
  intro o h
  simp only [program, ha, hch, callNext, hc, if_false, emit, Option.ite_none_right_eq_some] at h
  obtain ⟨-, h⟩ := h
  cases h
  rfl

/-- A call that returns has an answer. -/
theorem CreateStep.answer (h : CreateStep sh t k x ch o) (hs : (Thread.call k x).story bs sh)
    (hr : (Thread.call k x).queueOk sh) (hv : ∀ wq ∈ sh.queues, validWorkq wq = true)
    (out : o.pc.creating = false) :
    Answer S (⟨t, sh, .call k x, ch⟩ :: bs) ⟨t, sh, .call k x, ch⟩ o := by
  cases h with
  | invalid =>
    refine .error (by decide) rfl fun b hb => ?_
    rw [show bs = [] from hs, List.mem_singleton] at hb
    subst hb
    exact leavesMemory_check rfl
  | noMemory hc =>
    obtain ⟨b, k', rfl, hk⟩ := hs
    refine .error (by decide) rfl fun b' hb => ?_
    rcases List.mem_cons.mp hb with rfl | hb
    · exact leavesMemory_of_fail rfl rfl hc
    · rw [List.mem_singleton.mp hb]
      exact leavesMemory_check hk
  | unlock =>
    obtain ⟨wq, hreg⟩ := hr
    obtain ⟨attr, wq', ⟨b, hb, hk⟩, hq, he⟩ := hs
    rw [hreg.here] at hq
    cases hq
    exact .handle rfl rfl ⟨hreg.here, hreg.slot, hreg.index, hreg.bound⟩
      (hv wq (List.mem_of_getElem? hreg.here)) ⟨b, List.mem_cons_of_mem _ hb, hk⟩
      (congrArg Prod.snd he)
  | _ => cases out

theorem withQueue_isSome {f : Workq → Option Out} (h : ∀ wq, (f wq).isSome = true) :
    (withQueue sh p q f).isSome = true := by
  unfold withQueue
  split
  · exact h _
  · rfl

theorem program_isSome (alive : sh.halted = none) (h : (callNext sh t k x ch).isSome = true) :
    (program S sh t (.call k x) ch).isSome = true := by
  rw [program, if_pos alive]
  exact h

theorem ite_isSome {P : Prop} [Decidable P] {x y : Option Out} (hx : x.isSome = true)
    (hy : y.isSome = true) : (if P then x else y).isSome = true := by
  split
  · exact hx
  · exact hy

theorem canGoOn (hd : Disciplined c) (hp : c.threads[t]? = some p) (hc : p.creating = true)
    (alive : c.shared.halted = none) : CanGoOn S c t p := by
  cases p with
  | call k x =>
    cases x <;> cases hc
    case createCheck.refl attr => exact .inl ⟨.go, rfl, program_isSome alive (ite_isSome rfl rfl)⟩
    case createAlloc.refl attr => exact .inl ⟨.ret enomem, rfl, program_isSome alive rfl⟩
    case createLock.refl q =>
      cases hm : c.shared.wqlistMtx with
      | none =>
        refine .inl ⟨.go, rfl, program_isSome alive (withQueue_isSome fun wq => ?_)⟩
        simp only [createNext, hm, if_true]
        rfl
      | some u =>
        obtain ⟨r, hr, hh⟩ := (hd.mtx u).mp hm
        have awake : ¬ (r.inUserCode = true ∨ r.sleeps = true) := fun h =>
          absurd hh (Bool.eq_false_iff.mp (Thread.holds_nothing (m := .wqlistMtx) h))
        exact .inr ⟨u, r, rfl, hm, hr, Bool.eq_false_iff.mpr fun h => awake (.inl h),
          Bool.eq_false_iff.mpr fun h => awake (.inr h)⟩
    case createManager.refl q =>
      exact .inl ⟨.go, rfl, program_isSome alive (withQueue_isSome fun wq => ite_isSome rfl rfl)⟩
    case managerStart.refl q =>
      exact .inl ⟨.ret 0, rfl, program_isSome alive (withQueue_isSome fun wq => rfl)⟩
    case createRegister.refl q =>
      refine .inl ⟨.go, rfl, program_isSome alive (withQueue_isSome fun wq => ?_)⟩
      simp only [createNext]
      split <;> rfl
    case managerSet.refl q | createUnlock.refl q =>
      exact .inl ⟨.go, rfl, program_isSome alive (withQueue_isSome fun wq => rfl)⟩
  | _ => cases hc

/-- A careful step of a call, from a state that careful steps have led to, does not end the
process. -/
theorem step_alive (h : Machine.Run (program S).acts G (initial users managers) as c)
    (hc : ∀ a ∈ as ++ [⟨t, c.shared, p, ch⟩], careful a = true) (hp : c.threads[t]? = some p)
    (hn : program S c.shared t p ch = some o) (hcr : p.creating = true) : o.shared.halted = none := by
  obtain ⟨tr, hrun⟩ := h.of_acts
  have hs := sound hrun
  obtain ⟨alive, -⟩ := program_step hn
  cases p with
  | call k x =>
    have hd := not_dangles hs.registry hs.ocMasks hp (hs.aimed t _ hp)
    simp only [program, alive, if_true] at hn
    refine (create_next hcr hd hn).alive alive (fun q hq => ?_)
      (hc _ (List.mem_append_right _ (List.mem_singleton_self _)))
    exact slot_free hs.registry (creations hrun)
      (keys_nodup h fun a ha => hc a (List.mem_append_left _ ha)) hp hq
  | _ => cases hcr

theorem alive_of_careful (h : Machine.Run (program S).acts G (initial users managers) as c)
    (hc : ∀ a ∈ as, careful a = true) : ∀ a ∈ as, a.pc.creating = true →
      ∀ o, program S a.shared a.thread a.pc a.choice = some o → o.shared.halted = none := by
  refine h.acts_rule (fun as _ => (∀ a ∈ as, careful a = true) → ∀ a ∈ as, a.pc.creating = true →
    ∀ o, program S a.shared a.thread a.pc a.choice = some o → o.shared.halted = none)
    (fun _ a ha => absurd ha List.not_mem_nil) ?_ hc
  intro as c l p o h ih _ mv hc a ha hcr o' ho'
  rcases List.mem_append.mp ha with ha | ha
  · exact ih (fun b hb => hc b (List.mem_append_left _ hb)) a ha hcr o' ho'
  · rw [List.mem_singleton.mp ha] at hcr ho'
    exact step_alive h hc mv.here ho' hcr

/-- The calls of a careful run. -/
theorem calls_of_careful (h : Machine.Run (program S).acts G (initial users managers) as c)
    (hc : ∀ a ∈ as, careful a = true) : Calls as c := by
  refine h.acts_rule (fun as c => (∀ a ∈ as, careful a = true) → Calls as c) ?_ ?_ hc
  · refine fun _ => ⟨fun a ha => absurd ha List.not_mem_nil, fun t p hp => ?_, fun t p hp => ?_⟩
    · obtain rfl | rfl := initial_threads hp <;> trivial
    · obtain rfl | rfl := initial_threads hp <;> exact Nat.zero_le _
  · intro as c l p o h ih _ mv hc
    obtain ⟨tr, hrun⟩ := h.of_acts
    have hs := sound hrun
    exact (ih fun a ha => hc a (List.mem_append_left _ ha)).apply mv.here mv.next
      (not_dangles hs.registry hs.ocMasks mv.here (hs.aimed _ _ mv.here)) (step_alive h hc mv.here mv.next)

/-- The queues that a step leaves behind are there at the end. -/
theorem keys_prefix (h : Machine.Run (program S).acts G (initial users managers) as c) (ha : a ∈ as) :
    ∃ o, program S a.shared a.thread a.pc a.choice = some o ∧
      o.shared.queues.map Workq.key <+: c.shared.queues.map Workq.key := by
  refine h.acts_rule (fun as c => ∀ a ∈ as, ∃ o, program S a.shared a.thread a.pc a.choice = some o ∧
    o.shared.queues.map Workq.key <+: c.shared.queues.map Workq.key)
    (fun a ha => absurd ha List.not_mem_nil) ?_ a ha
  intro as c l p o _ ih _ mv a ha
  rcases List.mem_append.mp ha with ha | ha
  · obtain ⟨o', ho', hpre⟩ := ih a ha
    refine ⟨o', ho', hpre.trans ?_⟩
    change _ <+: o.shared.queues.map Workq.key
    cases queue_step (program_step mv.next).2 with
    | alloc _ _ ho =>
      rw [ho, List.map_append]
      exact List.prefix_append _ _
    | enter _ _ _ _ _ made => exact map_key_of_made made ▸ List.prefix_refl _
    | keep _ _ made => exact map_key_of_made made ▸ List.prefix_refl _
  · rw [List.mem_singleton.mp ha]
    exact ⟨o, mv.next, List.prefix_refl _⟩

/-- Once every call is over, all queues are in slots of their own. -/
theorem keys_nodup_at_rest (hq : Creations c) (rest : ∀ p ∈ c.threads, p.registering = none) :
    (c.shared.queues.map Workq.key).Nodup := by
  have own : ∀ (q : QId) (wq : Workq), c.shared.queues[q]? = some wq →
      c.shared.slotOf wq = some q := by
    intro q wq hwq
    rcases hq.entered q wq hwq with hs | ⟨t, p, hp, hr⟩
    · exact hs
    · rw [rest p (List.mem_of_getElem? hp)] at hr
      cases hr
  refine List.nodup_iff_getElem?_ne_getElem?.mpr fun i j hij hj he => ?_
  rw [List.length_map] at hj
  have hi := List.getElem?_eq_getElem (Nat.lt_trans hij hj)
  have hj := List.getElem?_eq_getElem hj
  rw [List.getElem?_map, List.getElem?_map, hi, hj] at he
  have hsame : c.shared.slotOf _ = c.shared.slotOf _ := slotOf_of_key (Option.some.inj he)
  rw [own i _ hi, own j _ hj] at hsame
  exact Nat.ne_of_lt hij (Option.some.inj hsame)

/-- Calls that are over and have not ended the process were careful. -/
theorem careful_of_alive (h : Machine.Run (program S).acts G (initial users managers) as c)
    (rest : ∀ p ∈ c.threads, p.registering = none)
    (alive : ∀ a ∈ as, a.pc.creating = true → ∀ o, program S a.shared a.thread a.pc a.choice = some o →
      o.shared.halted = none) : ∀ a ∈ as, careful a = true := by
  intro a ha
  obtain ⟨tr, hrun⟩ := h.of_acts
  have hnodup := keys_nodup_at_rest (creations hrun) rest
  obtain ⟨o, ho, hpre⟩ := keys_prefix h ha
  unfold careful
  split
  · rename_i k attr code hpc hch
    cases hz : code != 0 with
    | true => rfl
    | false =>
      have hzero : code = 0 := by simpa using hz
      simp only [program, hpc, hch, callNext, hzero, if_true, goTo, Option.ite_none_right_eq_some,
        Option.some.injEq] at ho
      obtain ⟨-, rfl⟩ := ho
      rw [List.map_append, List.map_singleton] at hpre
      obtain ⟨-, -, hne⟩ := List.nodup_append.mp (hnodup.sublist hpre.sublist)
      refine List.all_eq_true.mpr fun wq hwq => bne_iff_ne.mpr ?_
      exact hne _ (List.mem_map_of_mem hwq) _ (List.mem_singleton_self _)
  · rename_i k q code hpc hch
    by_contra hcode
    have halive := alive a ha (by rw [hpc]; rfl) o ho
    simp only [Bool.or_eq_true, beq_iff_eq, not_or] at hcode
    simp only [program, hpc, hch, callNext, Option.ite_none_right_eq_some] at ho
    obtain ⟨-, ho⟩ := ho
    obtain ⟨wq, -, ho⟩ | rfl := withQueue_eq_some ho
    · simp only [createNext, hcode.1, hcode.2, if_false] at ho
      cases ho
      cases halive
    · cases halive
  · rfl

/-- The last step of a careful run answers its call if it returns. -/
theorem answer_of_careful (h : Machine.Run (program S).acts G (initial users managers) (as ++ [a]) c)
    (hc : ∀ b ∈ as ++ [a], careful b = true) (hcr : a.pc.creating = true)
    (ho : program S a.shared a.thread a.pc a.choice = some o) (out : o.pc.creating = false) :
    o.shared = c.shared ∧ Answer S (thisCall a.thread (as ++ [a])) a o := by
  obtain ⟨d, o', hd, hsh, mv, rfl⟩ := h.acts_concat
  obtain ⟨tr, hrun⟩ := hd.of_acts
  have hs := sound hrun
  have hp := mv.here
  have hn := mv.next
  rw [hsh] at hn
  rw [ho] at hn
  cases hn
  refine ⟨rfl, ?_⟩
  have hstory := (calls_of_careful hd fun b hb => hc b (List.mem_append_left _ hb)).story _ _ hp
  have hok := hs.registry.threads _ _ hp
  have hnot := not_dangles hs.registry hs.ocMasks hp (hs.aimed _ _ hp)
  have hvalid := (creations hrun).valid
  rw [hsh] at hstory hok hnot hvalid
  rw [thisCall_concat_self, if_pos hcr]
  obtain ⟨u, sh, pc, choice⟩ := a
  cases pc with
  | call k x =>
    have alive : sh.halted = none := (program_step ho).1
    simp only [program, alive, if_true] at ho
    exact (create_next hcr hnot ho).answer hstory hok hvalid out
  | _ => cases hcr

theorem contract_of_careful (h : Machine.Run (program S).acts G (initial users 0) as c)
    (hc : ∀ a ∈ as, careful a = true) : CreateContract S as c := by
  obtain ⟨tr, hrun⟩ := h.of_acts
  have hs := sound hrun
  have hcalls := calls_of_careful h hc
  refine ⟨alive_of_careful h hc, fun pre a he hcr o ho out => ?_, fun t => ?_,
    fun alive t p hp hcr => canGoOn hs.disciplined hp hcr alive, fun q hq => ?_,
    hs.registry.registriesOk, (oneManager hrun).number_le⟩
  · subst he
    exact answer_of_careful h hc hcr ho out
  · by_cases ht : t < c.threads.length
    · have := hcalls.bound t _ (List.getElem?_eq_getElem ht)
      omega
    · rw [thisCall_eq_nil fun a ha => Nat.lt_of_lt_of_le (hcalls.acted a ha) (Nat.le_of_not_lt ht)]
      exact Nat.zero_le _
  · obtain ⟨wq, hreg⟩ := hs.registry.handles q hq
    exact ⟨wq, hreg, (creations hrun).valid wq (List.mem_of_getElem? hreg.here)⟩

end Contract

/-- Every run whose calls are careful meets the contract, and if no call is on its way to
registering a queue, only those do. -/
theorem create_meets_contract (S : Settings) (users : Nat) (as : List PoolAct) (c : PoolState)
    (h : Machine.Free (program S).acts (initial users 0) as c) :
    ((∀ a ∈ as, careful a = true) → CreateContract S as c) ∧
      ((∀ p ∈ c.threads, p.registering = none) →
        (CreateContract S as c ↔ ∀ a ∈ as, careful a = true)) :=
  ⟨contract_of_careful h, fun rest => ⟨fun hk => careful_of_alive h rest hk.alive,
    contract_of_careful h⟩⟩

/-- A queue of each kind for one priority, and a call with an invalid attribute object. -/
theorem create_meets_contract_of_three : ∃ as c,
    Machine.Free (program ⟨2, 2, 2, 0, false⟩).acts (initial 1 0) as c ∧ c.shared.handles = [0, 1] ∧
      (∀ p ∈ c.threads, p.registering = none) ∧ CreateContract ⟨2, 2, 2, 0, false⟩ as c := by
  obtain ⟨as, c, hrun, hP⟩ := Machine.exists_run (M := (program ⟨2, 2, 2, 0, false⟩).acts)
    (g := fun _ _ => true) (c := initial 1 0)
    (createFirst 0 0 ++ createNextQueue 0 0 1 ++ [(0, .request (.create (some ⟨0, 0, 0⟩))), (0, .go)])
    (fun r => decide (r.1.shared.handles = [0, 1] ∧ (∀ p ∈ r.1.threads, p.registering = none) ∧
      r.2.all careful = true)) (by decide +kernel)
  obtain ⟨h₁, h₂, h₃⟩ := of_decide_eq_true hP
  exact ⟨as, c, hrun.free, h₁, h₂,
    (create_meets_contract _ _ as c hrun.free).1 (List.all_eq_true.mp h₃)⟩

/-- An attribute object that is used twice without modification ends the process, although the
system has granted everything. -/
theorem create_aborts_on_reuse : ∃ as c,
    Machine.Free (program ⟨2, 2, 2, 0, false⟩).acts (initial 1 0) as c ∧
      (∀ a ∈ as, ∀ r, a.choice = .request r → r = .create (some attrInit.1)) ∧
      (∀ a ∈ as, ∀ code, a.choice = .ret code → code = 0) ∧
      c.shared.halted = some .abort ∧ ¬ CreateContract ⟨2, 2, 2, 0, false⟩ as c := by
  obtain ⟨as, c, hrun, hP⟩ := Machine.exists_run (M := (program ⟨2, 2, 2, 0, false⟩).acts)
    (g := fun _ _ => true) (c := initial 1 0)
    ([(0, .request (.create (some attrInit.1))), (0, .go), (0, .ret 0)] ++ steps 0 2 ++ [(0, .ret 0)] ++
      steps 0 3 ++ [(0, .request (.create (some attrInit.1))), (0, .go), (0, .ret 0)] ++ steps 0 3)
    (fun r => decide (r.2.all (fun a => a.choice == .go || a.choice == .ret 0 ||
        a.choice == .request (.create (some attrInit.1))) = true ∧ r.1.shared.halted = some .abort ∧
      r.2.any (fun a => a.pc.creating && (program ⟨2, 2, 2, 0, false⟩ a.shared a.thread a.pc a.choice).any
        fun o => o.shared.halted == some .abort) = true)) (by decide +kernel)
  obtain ⟨h₁, h₂, h₃⟩ := of_decide_eq_true hP
  have choices : ∀ a ∈ as, (a.choice = .go ∨ a.choice = .ret 0) ∨
      a.choice = .request (.create (some attrInit.1)) := by
    intro a ha
    have := List.all_eq_true.mp h₁ a ha
    simpa only [Bool.or_eq_true, beq_iff_eq] using this
  refine ⟨as, c, hrun.free, fun a ha r hr => ?_, fun a ha code hcode => ?_, h₂, fun hk => ?_⟩
  · rcases choices a ha with (h | h) | h <;> rw [hr] at h <;> cases h
    rfl
  · rcases choices a ha with (h | h) | h <;> rw [hcode] at h <;> cases h
    rfl
  · obtain ⟨a, ha, hdead⟩ := List.any_eq_true.mp h₃
    obtain ⟨hcr, hdead⟩ := Bool.and_eq_true_iff.mp hdead
    obtain ⟨o, ho, habort⟩ := (Option.any_eq_true _ _).mp hdead
    rw [hk.alive a ha hcr o ho] at habort
    cases habort

end PthreadWorkqueue.Posix
