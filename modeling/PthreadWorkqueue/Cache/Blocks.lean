import PthreadWorkqueue.Cache.Calls

/-! The blocks that `malloc` gave: none is forgotten, but for a failing `pthread_setspecific`, and with
one set of threads that allocates and another that frees none comes back to the first. -/
namespace PthreadWorkqueue.Cache
open Concurrency Memory
open Posix (Tid)

/-- The item that `witem_free` has no place for when `pthread_setspecific` fails. -/
def leak (x : CacheAct) : Option Addr :=
  match x.pc.pc, x.choice with
  | .store w [] .free, .code (_ + 1) => some w
  | _, _ => none

def lost (as : List CacheAct) : List Addr := as.filterMap leak

variable {sh : Shared Item} {t : Tid} {p : Thread} {ch : Choice Item} {o : Out} {w : Addr}
  {l l' : List Addr} {c : Config (Shared Item) Thread} {own : Option Tid → List Addr}
  {as : List CacheAct} {n : Nat}

theorem lost_concat {x : CacheAct} : lost (as ++ [x]) = lost as ++ (leak x).toList := by
  rw [lost, List.filterMap_append]
  cases hx : leak x <;> simp [lost, hx]

/-- A block that the step may touch and that is allocated after it has an owner then, or it is the
one that is lost. -/
def Conserves (x : CacheAct) (l : List Addr) (o : Out) (l' : List Addr) : Prop :=
  ∀ w, o.shared.heap w ≠ none → w ∈ x.shared.live ++ l ∨ x.shared.heap w = none →
    w ∈ o.shared.live ++ l' ∨ leak x = some w

theorem Owns.unique {h : Addr → Option Item} (ho : Owns h p l) (ho' : Owns h p l') : l = l' := by
  cases ho with
  | app hc => cases ho' with | app hc' => exact hc.unique hc'
  | recycle hc => cases ho' with | recycle hc' => exact hc.unique hc'
  | malloc hc => cases ho' with | malloc hc' => exact hc.unique hc'
  | store _ _ hc => cases ho' with | store _ _ hc' => rw [hc.unique hc']
  | cleanup hc => cases ho' with | cleanup hc' => exact hc.unique hc'
  | release _ _ hc => cases ho' with | release _ _ hc' => exact hc.unique hc'

section
variable {q : Thread} {sp : List Thread} {es : List Event}

/-- A step that only moves items. -/
theorem Conserves.move {live m : List Addr} (owns : Owns sh.heap q m) (new : Owns sh.heap q l')
    (keep : ∀ w ∈ sh.live ++ l, w ∈ live ++ m) :
    Conserves ⟨t, sh, p, ch⟩ l ⟨{ sh with live := live }, q, sp, es⟩ l' := by
  cases owns.unique new
  rintro w hw (hmem | hnone)
  · exact .inl (keep w hmem)
  · exact absurd hnone hw

theorem Conserves.quiet (owns : Owns sh.heap q l) (new : Owns sh.heap q l') :
    Conserves ⟨t, sh, p, ch⟩ l ⟨sh, q, sp, es⟩ l' := .move owns new fun _ hw => hw

/-- A store to an allocated block. -/
theorem Conserves.put {x y : Item} (hx : sh.heap w = some x) (owns : Owns (sh.put w y).heap q l)
    (new : Owns (sh.put w y).heap q l') :
    Conserves ⟨t, sh, p, ch⟩ l ⟨sh.put w y, q, sp, es⟩ l' := by
  cases owns.unique new
  rintro u hu (hmem | hnone)
  · exact .inl hmem
  · refine absurd ?_ hu
    have hne : u ≠ w := by
      rintro rfl
      cases hx.symm.trans hnone
    exact (Function.update_of_ne hne _ _).trans hnone

end

theorem setspecific_fails (h : cached sh t ⟨none, .store w [] .free⟩ (.code n) = some o)
    (hq : o.pc.key = none) : leak ⟨t, sh, ⟨none, .store w [] .free⟩, .code n⟩ = some w := by
  cases n with
  | succ n => rfl
  | zero =>
    simp only [cached, cachedNext, if_true, Option.ite_none_right_eq_some, Option.some.injEq] at h
    obtain ⟨-, rfl⟩ := h
    cases hq

theorem Kept.conserves (ho : Owns sh.heap p l) (ha : Apart sh l) (h : cached sh t p ch = some o)
    (k : Kept sh p l o l') : Conserves ⟨t, sh, p, ch⟩ l o l' := by
  have hnew := k.owns
  cases cached_step h with
  | fault hw hnone => exact absurd hnone (ho.no_fault ha hw)
  | load | exitEmpty | retry | create => exact .quiet ho hnew
  | callRecycle => cases ho with | app hc => exact .quiet (.recycle hc) hnew
  | callMalloc => cases ho with | app hc => exact .quiet (.malloc hc) hnew
  | exit => cases ho with | app hc => exact .quiet (.cleanup hc) hnew
  | @callFree key w hw =>
    cases ho with
    | app hc =>
      obtain ⟨x, hx⟩ := Option.ne_none_iff_exists'.mp (ha.allocated w (List.mem_append_left l hw))
      have hmove : (sh.live.erase w ++ w :: l).Perm (sh.live ++ l) :=
        List.perm_middle.trans ((List.perm_cons_erase hw).symm.append_right l)
      exact .move (.store hx ⟨rfl, rfl⟩ hc) hnew fun u => hmove.mem_iff.mpr
  | @use key w s x hw hx =>
    cases ho with
    | app hc => exact .put hx (.app (Chain.put hc fun u hu => ha.live_ne hw hu)) hnew
  | @recycle key f a w x hx =>
    cases ho with
    | recycle hc =>
      obtain ⟨y, m, rfl, hy, hclean, hm⟩ := hc.inv
      cases hx.symm.trans hy
      exact .quiet (.store hx (recycled hclean) hm) hnew
  | @malloc key f a w x hw =>
    cases ho with
    | malloc hc =>
      cases hnew with
      | store _ _ hc' =>
        cases (Chain.put hc fun u hu => ha.fresh_ne hw hu).unique hc'
        intro u hu hor
        by_cases hne : u = w
        · exact .inl (List.mem_append_right _ (hne ▸ List.mem_cons_self))
        · have hold : sh.heap u ≠ none := by rwa [← Function.update_of_ne hne (some x) sh.heap]
          exact .inl (List.perm_middle.mem_iff.mpr
            (List.mem_cons_of_mem w (hor.resolve_right hold)))
  | @store key w s ss k x hx =>
    cases ho with
    | store hy hd hc =>
      cases hx.symm.trans hy
      exact .put hx (.store Shared.put_self hd (Chain.put hc fun u => ha.head_ne)) hnew
  | @allocated key w f a x hx =>
    cases ho with
    | store _ _ hc => exact .move (.app hc) hnew fun u => List.perm_middle.mem_iff.mp
  | freed =>
    cases ho with
    | store hx hd hc =>
      obtain ⟨hclean, rfl⟩ := hd
      exact .quiet (.app (.cons hx hclean hc)) hnew
  | @leaked w n =>
    cases ho with
    | store _ _ hc =>
      cases linked_none.mp hc
      intro u hu hor
      rcases List.mem_append.mp (hor.resolve_right hu) with hlive | hmem
      · exact .inl (List.mem_append_left _ hlive)
      · rw [List.mem_singleton.mp hmem]
        exact .inr (setspecific_fails h rfl)
  | cleaned => cases ho with | cleanup hc => exact .quiet (.app hc) hnew
  | visit hx => cases ho with | cleanup hc => exact .quiet (.release hx rfl hc) hnew
  | @release key w next hw =>
    have hcons : l = [w] ++ l' := k.cleaning rfl
    subst hcons
    intro u hu hor
    by_cases hne : u = w
    · exact absurd (hne ▸ Function.update_self ..) hu
    · have hold : sh.heap u ≠ none := by rwa [← Function.update_of_ne hne none sh.heap]
      exact .inl ((List.mem_cons.mp (List.perm_middle.mem_iff.mp (hor.resolve_right hold))).resolve_left
        hne)

/-- Every allocated block is the program's, or one thread's, or lost; and a lost one stays so. -/
structure Accounted (as : List CacheAct) (c : Config (Shared Item) Thread)
    (own : Option Tid → List Addr) : Prop where
  partition : Partition c own
  nodup : (lost as).Nodup
  apart : ∀ w ∈ lost as, ∀ i, w ∉ own i
  blocks : ∀ w, c.shared.heap w ≠ none ↔ w ∈ lost as ∨ ∃ i, w ∈ own i

theorem Accounted.start : Accounted [] (initial newThread n) fun _ => [] where
  partition := .start
  nodup := List.nodup_nil
  apart _ hw := absurd hw List.not_mem_nil
  blocks w := by simp [initial, lost]

/-- What a failing `pthread_setspecific` does. -/
theorem leak_step (h : cached sh t p ch = some o) (hx : leak ⟨t, sh, p, ch⟩ = some w) :
    p = ⟨none, .store w [] .free⟩ ∧ o.shared = sh ∧ o.pc = ⟨none, .app⟩ := by
  obtain ⟨key, pc⟩ := p
  simp only [leak] at hx
  split at hx
  · cases hx
    simp only [cached, cachedNext, Option.ite_none_right_eq_some, Nat.add_one_ne_zero, if_false,
      Option.some.injEq] at h
    obtain ⟨-, rfl, rfl⟩ := h
    exact ⟨rfl, rfl, rfl⟩
  · cases hx

/-- A lost block was the thread's until then, and is nobody's after it. -/
theorem Kept.leaks (ho : Owns sh.heap p l) (ha : Apart sh l) (k : Kept sh p l o l')
    (h : cached sh t p ch = some o) (hx : leak ⟨t, sh, p, ch⟩ = some w) :
    w ∈ l ∧ w ∉ o.shared.live ++ l' ∧ o.shared.heap w ≠ none := by
  obtain ⟨rfl, hsh, hpc⟩ := leak_step h hx
  have hnew := k.owns
  rw [hpc] at hnew
  rw [hsh] at hnew ⊢
  cases hnew with
  | app hc =>
    cases linked_none.mp hc
    have hw : w ∈ l := ho.hand_mem rfl
    refine ⟨hw, ?_, ha.allocated w (List.mem_append_right _ hw)⟩
    rw [List.append_nil]
    exact fun hlive => ha.live_ne hlive hw rfl

/-- What has an owner after a step, in the terms of the step. -/
theorem mem_assign {live : List Addr} {i : Option Tid} :
    w ∈ assign own none (some t) live l' i →
      w ∈ live ++ l' ∨ i ≠ none ∧ i ≠ some t ∧ w ∈ own i := by
  intro hw
  by_cases hi : i = none
  · rw [hi, assign_left (Option.some_ne_none t).symm] at hw
    exact .inl (List.mem_append_left _ hw)
  · by_cases ht : i = some t
    · rw [ht, assign_right] at hw
      exact .inl (List.mem_append_right _ hw)
    · rw [assign_other hi ht] at hw
      exact .inr ⟨hi, ht, hw⟩

theorem exists_mem_assign {live : List Addr} (hw : w ∈ live ++ l') :
    ∃ i, w ∈ assign own none (some t) live l' i := by
  rcases List.mem_append.mp hw with hw | hw
  · exact ⟨none, by rwa [assign_left (Option.some_ne_none t).symm]⟩
  · exact ⟨some t, by rwa [assign_right]⟩

theorem Accounted.step (ha : Accounted as c own) (mv : cached.Moves c (t, ch) o p) :
    ∃ own', Accounted (as ++ [⟨t, c.shared, p, ch⟩]) (o.apply c t) own' := by
  have hp := ha.partition
  obtain ⟨ho, -, l', k, hp'⟩ := hp.step mv
  have leaks : ∀ w, leak ⟨t, c.shared, p, ch⟩ = some w →
      w ∈ own (some t) ∧ w ∉ o.shared.live ++ l' ∧ o.shared.heap w ≠ none :=
    fun w hx => k.leaks ho hp.apart mv.next hx
  have untouched : ∀ w ∈ lost as, w ∉ c.shared.live ++ own (some t) := by
    intro w hw hmem
    rw [← hp.program] at hmem
    exact (List.mem_append.mp hmem).elim (ha.apart w hw _) (ha.apart w hw _)
  have allocated : ∀ w ∈ lost as, c.shared.heap w ≠ none := fun w hw => (ha.blocks w).mpr (.inl hw)
  refine ⟨_, hp', ?_, ?_, ?_⟩
  · rw [lost_concat]
    refine List.nodup_append.mpr ⟨ha.nodup, ?_, ?_⟩
    · cases leak _ <;> simp
    · rintro w hw _ hx rfl
      exact ha.apart w hw _ (leaks w (Option.mem_toList.mp hx)).1
  · intro w hw i hi
    rw [lost_concat] at hw
    rcases List.mem_append.mp hw with hw | hx
    · rcases mem_assign hi with hmem | ⟨-, -, hmem⟩
      · rcases k.source w hmem with hmem | hnone
        · exact untouched w hw hmem
        · exact allocated w hw hnone
      · exact ha.apart w hw i hmem
    · obtain ⟨hown, hnot, -⟩ := leaks w (Option.mem_toList.mp hx)
      rcases mem_assign hi with hmem | ⟨-, ht, hmem⟩
      · exact hnot hmem
      · exact ht (hp.exclusive.owner _ _ w hmem hown)
  · intro w
    rw [lost_concat, List.mem_append, Option.mem_toList]
    constructor
    · intro hw
      by_cases touch : w ∈ c.shared.live ++ own (some t) ∨ c.shared.heap w = none
      · rcases k.conserves ho hp.apart mv.next w hw touch with hmem | hx
        · exact .inr (exists_mem_assign hmem)
        · exact .inl (.inr hx)
      · obtain ⟨hnot, hold⟩ := not_or.mp touch
        rcases (ha.blocks w).mp hold with hlost | ⟨i, hi⟩
        · exact .inl (.inl hlost)
        · refine .inr ⟨i, ?_⟩
          rwa [assign_other]
          · rintro rfl
            exact hnot (List.mem_append_left _ (hp.program ▸ hi))
          · rintro rfl
            exact hnot (List.mem_append_right _ hi)
    · rintro ((hlost | hx) | ⟨i, hi⟩)
      · show o.shared.heap w ≠ none
        rw [k.frame w (untouched w hlost) (allocated w hlost)]
        exact allocated w hlost
      · exact (leaks w hx).2.2
      · exact hp'.allocated i w hi

theorem Accounted.run (h : Machine.Free cached.acts (initial newThread n) as c) :
    ∃ own, Accounted as c own := by
  refine h.acts_rule (fun as c => ∃ own, Accounted as c own) ⟨_, .start⟩ ?_
  rintro as c ⟨t, ch⟩ p o - ⟨own, ha⟩ - mv
  exact ha.step mv

/-- In every run the allocated blocks are those that the program has, those on the list or in the hand
of one thread, and those for which `pthread_setspecific` failed; once the program has freed its items
and the threads have ended, only the last are left. -/
theorem blocks_accounted (h : Machine.Free cached.acts (initial newThread n) as c) :
    (∃ own, Accounted as c own) ∧
      (c.shared.live = [] → (∀ p ∈ c.threads, p = newThread) →
        ∀ w, c.shared.heap w ≠ none ↔ w ∈ lost as) := by
  obtain ⟨own, ha⟩ := Accounted.run h
  refine ⟨⟨own, ha⟩, fun hlive hended w => ?_⟩
  have nothing : ∀ i, own i = [] := by
    rintro (_ | t)
    · rw [ha.partition.program, hlive]
    · cases ht : c.threads[t]? with
      | none => exact ha.partition.absent t (List.getElem?_eq_none_iff.mp ht)
      | some p =>
        have ho := ha.partition.threads t p ht
        rw [hended p (List.mem_of_getElem? ht)] at ho
        cases ho with
        | app hc => exact linked_none.mp hc
  rw [ha.blocks w]
  simp [nothing]

/-- A thread gets two items and frees both; the first finds no room for its value of the key, and the
second is given back when the thread ends. -/
theorem blocks_accounted_of_one : ∃ as c, Machine.Free cached.acts (initial newThread 1) as c ∧
    c.shared.live = [] ∧ (∀ p ∈ c.threads, p = newThread) ∧ lost as = [5] ∧
    ∀ w, c.shared.heap w ≠ none ↔ w ∈ lost as := by
  obtain ⟨as, c, hrun, hP⟩ := Machine.exists_run (M := cached.acts) (g := fun _ _ => true)
    (c := initial newThread 1)
    ((0, .alloc (some 7) none) :: (0, .block (some (5, ⟨⟨some 1, some 2, none, 3, 4⟩, some 6⟩))) ::
      steps 0 6 ++ (0, .free 5) :: steps 0 6 ++ (0, .code 12) ::
      (0, .alloc (some 8) none) :: (0, .block (some (6, ⟨⟨none, none, none, 0, 0⟩, none⟩))) ::
      steps 0 6 ++ freeItem 0 6 ++ (0, .exit) :: steps 0 3)
    (fun r => decide (r.1.shared.live = [] ∧ (∀ p ∈ r.1.threads, p = newThread) ∧ lost r.2 = [5]))
    (by decide +kernel)
  obtain ⟨hlive, hended, hlost⟩ := of_decide_eq_true hP
  exact ⟨as, c, hrun.free, hlive, hended, hlost, (blocks_accounted hrun.free).2 hlive hended⟩

/-- What the program asks of a thread that only allocates, and of one that only frees and never
ends. -/
def Choice.suits (produces : Bool) : Choice Item → Bool
  | .alloc _ _ | .exit => produces
  | .free _ => !produces
  | _ => true

/-- Some threads only allocate and the others only free. -/
def Asymmetric (producer : Tid → Bool) (_ : Config (Shared Item) Thread) (l : Tid × Choice Item) :
    Prop := l.2.suits (producer l.1) = true

/-- The item that a step of `witem_alloc` returns. -/
def allocation (x : CacheAct) : Option Addr :=
  match x.pc.pc with
  | .store w [] (.alloc _ _) => some w
  | _ => none

def allocations (as : List CacheAct) : List Addr := as.filterMap allocation

/-- A thread that only allocates has no list. -/
inductive Producing : Thread → Prop where
  | app : Producing ⟨none, .app⟩
  | malloc {f a} : Producing ⟨none, .malloc f a⟩
  | store {w ss f a} : Producing ⟨none, .store w ss (.alloc f a)⟩

inductive Consuming : Thread → Prop where
  | app {key} : Consuming ⟨key, .app⟩
  | store {key w ss} : Consuming ⟨key, .store w ss .free⟩

theorem allocations_concat {x : CacheAct} :
    allocations (as ++ [x]) = allocations as ++ (allocation x).toList := by
  rw [allocations, List.filterMap_append]
  cases hx : allocation x <;> simp [allocations, hx]

variable {producer : Tid → Bool}

/-- What a thread does in such a run. -/
def Role (producer : Tid → Bool) (t : Tid) (p : Thread) : Prop :=
  (producer t = true → Producing p) ∧ (producer t = false → Consuming p)

/-- Every access that the thread may make goes to an allocated block. -/
def Safe (sh : Shared Item) (p : Thread) : Prop :=
  ∀ w, w ∈ sh.live ∨ p.pc.hand = some w → sh.heap w ≠ none

theorem Producing.step (hp : Producing p) (safe : Safe sh p) (st : Step sh t p ch o)
    (hs : ch.suits true = true) : Producing o.pc := by
  cases st with
  | fault hw hnone => exact absurd hnone (safe _ hw)
  | callMalloc => exact .malloc
  | callFree => cases hs
  | use | load | create | exitEmpty | retry => exact hp
  | malloc => cases hp; exact .store
  | store => cases hp; exact .store
  | allocated => cases hp; exact .app
  | _ => cases hp

theorem Consuming.step (hp : Consuming p) (safe : Safe sh p) (st : Step sh t p ch o)
    (hs : ch.suits false = true) : Consuming o.pc := by
  cases st with
  | fault hw hnone => exact absurd hnone (safe _ hw)
  | callRecycle | callMalloc | exit | exitEmpty => cases hs
  | callFree => exact .store
  | use | load | create => exact hp
  | store => cases hp; exact .store
  | freed | leaked => exact .app
  | _ => cases hp

theorem Role.step (hr : Role producer t p) (safe : Safe sh p) (st : Step sh t p ch o)
    (hs : ch.suits (producer t) = true) : Role producer t o.pc := by
  refine ⟨fun ht => (hr.1 ht).step safe st ?_, fun ht => (hr.2 ht).step safe st ?_⟩
  · rwa [ht] at hs
  · rwa [ht] at hs

theorem Role.releasing (hr : Role producer t p) : p.pc.releasing = none := by
  cases ht : producer t with
  | true => cases hr.1 ht <;> rfl
  | false => cases hr.2 ht <;> rfl

/-- Only `free` takes a block away. -/
theorem Step.stays (safe : Safe sh p) (st : Step sh t p ch o) (hp : p.pc.releasing = none)
    (hw : sh.heap w ≠ none) : o.shared.heap w ≠ none := by
  have put : ∀ u x, (sh.put u x).heap w ≠ none := by
    intro u x
    by_cases he : w = u
    · rw [he, Shared.put_self]
      exact Option.some_ne_none x
    · exact fun hnone => hw ((Function.update_of_ne he _ _).symm.trans hnone)
  cases st with
  | fault hu hnone => exact absurd hnone (safe _ hu)
  | use | store | malloc => exact put _ _
  | release => cases hp
  | _ => exact hw

/-- The item that a call of `witem_alloc` is about to return. -/
def Pc.filling : Pc → Option Addr
  | .store w _ (.alloc _ _) => some w
  | _ => none

/-- A thread that only allocates has its items from `malloc`. -/
theorem Role.filling (hr : Role producer t p) (safe : Safe sh p) (st : Step sh t p ch o)
    (hw : o.pc.pc.filling = some w) :
    allocation ⟨t, sh, p, ch⟩ = none ∧ (p.pc.filling = some w ∨ sh.heap w = none) := by
  cases st with
  | fault hu hnone => exact absurd hnone (safe _ hu)
  | recycle =>
    cases ht : producer t with
    | true => cases hr.1 ht
    | false => cases hr.2 ht
  | malloc hnone =>
    cases hw
    exact ⟨rfl, .inr hnone⟩
  | @store _ _ _ _ k =>
    cases k with
    | alloc => exact ⟨rfl, .inl hw⟩
    | free => cases hw
  | _ => cases hw

/-- No item that was ever returned is about to be returned again. -/
structure Growing (producer : Tid → Bool) (as : List CacheAct) (c : Config (Shared Item) Thread) :
    Prop where
  roles : ∀ (t : Tid) p, c.threads[t]? = some p → Role producer t p
  nodup : (allocations as).Nodup
  allocated : ∀ w ∈ allocations as, c.shared.heap w ≠ none
  ahead : ∀ (t : Tid) p w, c.threads[t]? = some p → p.pc.filling = some w → w ∉ allocations as

theorem filling_of_allocation {x : CacheAct} (hx : allocation x = some w) :
    x.pc.pc.filling = some w := by
  revert hx
  fun_cases allocation x <;> simp_all [Pc.filling]

theorem hand_of_filling {pc : Pc} (hw : pc.filling = some w) : pc.hand = some w := by
  revert hw
  fun_cases Pc.filling pc <;> simp_all [Pc.hand]

theorem Growing.start : Growing producer [] (initial newThread n) where
  roles t p hp := by
    rw [List.eq_of_mem_replicate (List.mem_of_getElem? hp)]
    exact ⟨fun _ => .app, fun _ => .app⟩
  nodup := List.nodup_nil
  allocated _ hw := absurd hw List.not_mem_nil
  ahead _ _ _ _ _ := List.not_mem_nil

theorem Growing.step (hi : Growing producer as c) (hp : Partition c own)
    (hg : Asymmetric producer c (t, ch)) (mv : cached.Moves c (t, ch) o p) :
    Growing producer (as ++ [⟨t, c.shared, p, ch⟩]) (o.apply c t) := by
  obtain ⟨ho, st, l', k, -⟩ := hp.step mv
  have hr := hi.roles t p mv.here
  have safe : Safe c.shared p := fun w hw => ho.no_fault hp.apart hw
  have hand : ∀ w, allocation ⟨t, c.shared, p, ch⟩ = some w → w ∈ own (some t) :=
    fun w hx => ho.hand_mem (hand_of_filling (filling_of_allocation hx))
  refine ⟨?_, ?_, ?_, ?_⟩
  · intro u q hq
    obtain ⟨rfl, rfl⟩ | ⟨-, hq⟩ | ⟨-, hq⟩ := Outcome.get_cases mv.here hq
    · exact hr.step safe st hg
    · exact hi.roles u q hq
    · rw [k.fresh q hq]
      exact ⟨fun _ => .app, fun _ => .app⟩
  · rw [allocations_concat]
    refine List.nodup_append.mpr ⟨hi.nodup, ?_, ?_⟩
    · cases allocation _ <;> simp
    · rintro w hw _ hx rfl
      exact hi.ahead t p w mv.here (filling_of_allocation (Option.mem_toList.mp hx)) hw
  · intro w hw
    rw [allocations_concat] at hw
    refine st.stays safe hr.releasing ?_
    rcases List.mem_append.mp hw with hw | hx
    · exact hi.allocated w hw
    · exact hp.allocated _ w (hand w (Option.mem_toList.mp hx))
  · intro u q w hq hfill
    rw [allocations_concat, List.mem_append, Option.mem_toList, not_or]
    obtain ⟨rfl, rfl⟩ | ⟨hne, hq⟩ | ⟨-, hq⟩ := Outcome.get_cases mv.here hq
    · obtain ⟨hnot, hsame | hnone⟩ := hr.filling safe st hfill
      · exact ⟨hi.ahead u p w mv.here hsame, by simp [hnot]⟩
      · exact ⟨fun hw => hi.allocated w hw hnone, by simp [hnot]⟩
    · refine ⟨hi.ahead u q w hq hfill, fun hx => ?_⟩
      have hother : w ∈ own (some u) := (hp.threads u q hq).hand_mem (hand_of_filling hfill)
      exact hne (Option.some.inj (hp.exclusive.owner _ _ w hother (hand w hx)))
    · rw [k.fresh q hq] at hfill
      cases hfill

/-- With threads that only allocate and threads that only free, every item that `witem_alloc` returns is
a new block, whatever was freed before, and all of them stay allocated: the lists of the threads that
free grow with each item. -/
theorem asymmetric_growth
    (h : Machine.Run cached.acts (Asymmetric producer) (initial newThread n) as c) :
    (allocations as).Nodup ∧ (∀ w ∈ allocations as, c.shared.heap w ≠ none) ∧
      ∀ (t : Tid) p, c.threads[t]? = some p → producer t = true → p.key = none := by
  have hi := h.acts_rule (fun as c => (∃ own, Partition c own) ∧ Growing producer as c)
    ⟨⟨_, .start⟩, .start⟩ (by
      rintro as c ⟨t, ch⟩ p o - ⟨⟨own, hp⟩, hi⟩ hg mv
      obtain ⟨-, -, l', -, hp'⟩ := hp.step mv
      exact ⟨⟨_, hp'⟩, hi.step hp hg mv⟩)
  refine ⟨hi.2.nodup, hi.2.allocated, fun t p hp ht => ?_⟩
  cases (hi.2.roles t p hp).1 ht <;> rfl

/-- One thread gets an item twice, the other frees the first: the second is not the first. -/
theorem asymmetric_growth_of_two : ∃ as c,
    Machine.Run cached.acts (Asymmetric (· == 0)) (initial newThread 2) as c ∧
      c.shared.live = [6] ∧ allocations as = [5, 6] ∧ c.shared.heap 5 ≠ none := by
  obtain ⟨as, c, hrun, hP⟩ := Machine.exists_run (M := cached.acts)
    (g := fun _ l => l.2.suits (l.1 == 0))
    (c := initial newThread 2)
    ((0, .alloc (some 7) none) :: (0, .block (some (5, ⟨⟨some 1, some 2, none, 3, 4⟩, some 6⟩))) ::
      steps 0 6 ++ freeItem 1 5 ++
      (0, .alloc (some 8) none) :: (0, .block (some (6, ⟨⟨none, none, none, 0, 0⟩, none⟩))) ::
      steps 0 6)
    (fun r => decide (r.1.shared.live = [6] ∧ allocations r.2 = [5, 6]))
    (by decide +kernel)
  obtain ⟨hlive, hall⟩ := of_decide_eq_true hP
  have hrun : Machine.Run cached.acts (Asymmetric (· == 0)) (initial newThread 2) as c := hrun
  have hgrow := (asymmetric_growth hrun).2.1
  rw [hall] at hgrow
  exact ⟨as, c, hrun, hlive, hall, hgrow 5 List.mem_cons_self⟩

end PthreadWorkqueue.Cache
