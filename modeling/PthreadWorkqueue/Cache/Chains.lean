import PthreadWorkqueue.Cache.Steps
import PthreadWorkqueue.Concurrency.Acts
import PthreadWorkqueue.Memory.Linked

/-! The lists of the threads: every item that the program does not have is on the list of one thread,
or between a list and the program in one call, and no item is twice among them. -/
namespace PthreadWorkqueue.Cache
open Concurrency Memory
open Posix (Tid)

/-- What `witem_alloc` of type 1 makes of a block. -/
def freshWork (f a : Option Nat) : Work := ⟨none, f, a, 0, 0⟩

def Item.Clean (x : Item) : Prop := x.toWork = freshWork none none

abbrev Chain (h : Addr → Option Item) : Option Addr → List Addr → Prop :=
  Linked Item.wiNext Item.Clean h

/-- What the stores of a call make of the item. -/
def After.Done (key : Option Addr) : After → Item → Prop
  | .alloc f a, x => x.toWork = freshWork f a
  | .free, x => x.Clean ∧ x.wiNext = key

/-- The items that a thread holds: those on its list, and the one that it is working on. -/
inductive Owns (h : Addr → Option Item) : Thread → List Addr → Prop where
  | app {key l} : Chain h key l → Owns h ⟨key, .app⟩ l
  | recycle {w f a l} : Chain h (some w) l → Owns h ⟨some w, .recycle f a w⟩ l
  | malloc {key f a l} : Chain h key l → Owns h ⟨key, .malloc f a⟩ l
  | store {key w ss k x l} : h w = some x → k.Done key (ss.foldl (fun x s => s.run x) x) →
      Chain h key l → Owns h ⟨key, .store w ss k⟩ (w :: l)
  | cleanup {next l} : Chain h next l → Owns h ⟨none, .cleanup next⟩ l
  | release {w next x l} : h w = some x → x.wiNext = next → Chain h (some w) l →
      Owns h ⟨none, .release w next⟩ l

variable {sh : Shared Item} {h h' : Addr → Option Item} {t : Tid} {p : Thread} {ch : Choice Item}
  {o : Out} {w : Addr} {l l' : List Addr}

theorem Owns.frame (ho : Owns h p l) (same : ∀ w ∈ l, h' w = h w) : Owns h' p l := by
  cases ho with
  | app hc => exact .app (hc.frame same)
  | recycle hc => exact .recycle (hc.frame same)
  | malloc hc => exact .malloc (hc.frame same)
  | store hw hd hc =>
    exact .store ((same _ List.mem_cons_self).trans hw) hd
      (hc.frame fun u hu => same u (List.mem_cons_of_mem _ hu))
  | cleanup hc => exact .cleanup (hc.frame same)
  | release hw hn hc =>
    obtain ⟨_, _, rfl, _⟩ := hc.inv
    exact .release ((same _ List.mem_cons_self).trans hw) hn (hc.frame same)

/-- Where the list of a thread begins. -/
def Thread.head : Thread → Option Addr
  | ⟨_, .cleanup next⟩ => next
  | ⟨_, .release w _⟩ => some w
  | ⟨key, _⟩ => key

theorem Owns.list (ho : Owns h p l) : ∃ m, m.Sublist l ∧ Chain h p.head m := by
  cases ho with
  | store _ _ hc => exact ⟨_, List.sublist_cons_self _ _, hc⟩
  | app hc | recycle hc | malloc hc | cleanup hc | release _ _ hc => exact ⟨l, .refl l, hc⟩

/-- The item that a thread accesses is one that it holds. -/
theorem Owns.hand_mem (ho : Owns h p l) (hw : p.pc.hand = some w) : w ∈ l := by
  cases ho with
  | app | malloc => cases hw
  | store => cases hw; exact List.mem_cons_self
  | recycle hc | cleanup hc | release _ _ hc =>
    cases hw
    obtain ⟨_, _, rfl, _⟩ := hc.inv
    exact List.mem_cons_self

/-- The thread is in `witem_cache_cleanup`. -/
def Pc.cleaning : Pc → Bool
  | .cleanup _ | .release _ _ => true
  | _ => false

/-- The item that the thread passes to `free` next. -/
def Pc.releasing : Pc → Option Addr
  | .release w _ => some w
  | _ => none

theorem Owns.key_none (ho : Owns h p l) (hp : p.pc.cleaning = true) : p.key = none := by
  cases ho with
  | cleanup | release => rfl
  | _ => cases hp

/-- The program's items and those of a thread: allocated, and all different. -/
structure Apart (sh : Shared Item) (l : List Addr) : Prop where
  nodup : (sh.live ++ l).Nodup
  allocated : ∀ w ∈ sh.live ++ l, sh.heap w ≠ none

theorem Apart.live_ne {u : Addr} (ha : Apart sh l) (hw : w ∈ sh.live) (hu : u ∈ l) : u ≠ w := by
  rintro rfl
  exact (List.nodup_append.mp ha.nodup).2.2 u hw u hu rfl

theorem Apart.head_ne {u : Addr} (ha : Apart sh (w :: l)) (hu : u ∈ l) : u ≠ w := by
  rintro rfl
  exact (List.nodup_cons.mp (List.nodup_append.mp ha.nodup).2.1).1 hu

theorem Apart.fresh_ne {u : Addr} (ha : Apart sh l) (hw : sh.heap w = none) (hu : u ∈ l) :
    u ≠ w := by
  rintro rfl
  exact ha.allocated u (List.mem_append_right _ hu) hw

theorem Chain.put {v : Option Addr} {x : Item} (hc : Chain sh.heap v l) (hne : ∀ u ∈ l, u ≠ w) :
    Chain (sh.put w x).heap v l :=
  hc.frame fun u hu => Function.update_of_ne (hne u hu) ..

/-- Every access goes to a block that is allocated. -/
theorem Owns.no_fault (ho : Owns sh.heap p l) (ha : Apart sh l)
    (hw : w ∈ sh.live ∨ p.pc.hand = some w) : sh.heap w ≠ none :=
  ha.allocated w (List.mem_append.mpr (hw.imp_right ho.hand_mem))

/-- What a step does to the items that the thread holds and to those of the program: none is added
but a new block, and no other block changes. -/
structure Kept (sh : Shared Item) (p : Thread) (l : List Addr) (o : Out) (l' : List Addr) :
    Prop where
  running : o.shared.halted = sh.halted
  owns : Owns o.shared.heap o.pc l'
  apart : Apart o.shared l'
  source : ∀ w ∈ o.shared.live ++ l', w ∈ sh.live ++ l ∨ sh.heap w = none
  frame : ∀ w, w ∉ sh.live ++ l → sh.heap w ≠ none → o.shared.heap w = sh.heap w
  fresh : ∀ r ∈ o.spawned, r = newThread
  cleaning : p.pc.cleaning = true → l = p.pc.releasing.toList ++ l'

/-- A step that leaves the items of the program and the memory alone. -/
theorem Kept.quiet {q : Thread} {sp : List Thread} {es : List Event} (ha : Apart sh l)
    (owns : Owns sh.heap q l) (hp : p.pc.releasing = none) (fresh : ∀ r ∈ sp, r = newThread) :
    Kept sh p l ⟨sh, q, sp, es⟩ l where
  running := rfl
  owns := owns
  apart := ha
  source _ hw := .inl hw
  frame _ _ _ := rfl
  fresh := fresh
  cleaning _ := by rw [hp]; rfl

/-- A store to an item that the thread may access. -/
theorem Kept.put {q : Thread} {x : Item} {es : List Event} (ha : Apart sh l) (hw : w ∈ sh.live ++ l)
    (owns : Owns (sh.put w x).heap q l) (hp : p.pc.cleaning = false) :
    Kept sh p l ⟨sh.put w x, q, [], es⟩ l where
  running := rfl
  owns := owns
  apart.nodup := ha.nodup
  apart.allocated u hu := by
    by_cases he : u = w
    · rw [he]
      simp [Shared.put]
    · simpa [Shared.put, Function.update_of_ne he] using ha.allocated u hu
  source _ hu := .inl hu
  frame u hu _ := by
    have hne : u ≠ w := fun he => hu (he ▸ hw)
    exact Function.update_of_ne hne _ _
  fresh := by simp
  cleaning hc := by rw [hp] at hc; cases hc

/-- A step that moves items between the thread and the program. -/
theorem Kept.move {q : Thread} {live : List Addr} {es : List Event} (ha : Apart sh l)
    (hmove : (live ++ l').Subperm (sh.live ++ l)) (owns : Owns sh.heap q l')
    (hp : p.pc.cleaning = false) : Kept sh p l ⟨{ sh with live := live }, q, [], es⟩ l' where
  running := rfl
  owns := owns
  apart.nodup := by
    obtain ⟨m, hm, hs⟩ := hmove
    exact hm.nodup_iff.mp (ha.nodup.sublist hs)
  apart.allocated w hw := ha.allocated w (hmove.subset hw)
  source _ hw := .inl (hmove.subset hw)
  frame _ _ _ := rfl
  fresh := by simp
  cleaning hc := by rw [hp] at hc; cases hc

/-- A block that `malloc` returns to the thread. -/
theorem Kept.malloc {q : Thread} {x : Item} {es : List Event} (ha : Apart sh l)
    (hw : sh.heap w = none) (owns : Owns (sh.put w x).heap q (w :: l)) (hp : p.pc.cleaning = false) :
    Kept sh p l ⟨sh.put w x, q, [], es⟩ (w :: l) where
  running := rfl
  owns := owns
  apart.nodup := by
    have hnew : w ∉ sh.live ++ l := fun hmem => ha.allocated w hmem hw
    exact List.perm_middle.nodup_iff.mpr (List.nodup_cons.mpr ⟨hnew, ha.nodup⟩)
  apart.allocated u hu := by
    by_cases he : u = w
    · rw [he]
      simp [Shared.put]
    · have hu' := (List.mem_cons.mp (List.perm_middle.mem_iff.mp hu)).resolve_left he
      simpa [Shared.put, Function.update_of_ne he] using ha.allocated u hu'
  source u hu := by
    obtain rfl | hu := List.mem_cons.mp (List.perm_middle.mem_iff.mp hu)
    · exact .inr hw
    · exact .inl hu
  frame u _ hu := by
    have hne : u ≠ w := fun he => hu (he ▸ hw)
    exact Function.update_of_ne hne _ _
  fresh := by simp
  cleaning hc := by rw [hp] at hc; cases hc

/-- A block that the thread passes to `free`. -/
theorem Kept.release {key next : Option Addr} {q : Thread} {es : List Event} (ha : Apart sh (w :: l))
    (owns : Owns (Function.update sh.heap w none) q l) :
    Kept sh ⟨key, .release w next⟩ (w :: l)
      ⟨{ sh with heap := Function.update sh.heap w none }, q, [], es⟩ l where
  running := rfl
  owns := owns
  apart.nodup := (List.nodup_cons.mp (List.perm_middle.nodup_iff.mp ha.nodup)).2
  apart.allocated u hu := by
    have hnot := (List.nodup_cons.mp (List.perm_middle.nodup_iff.mp ha.nodup)).1
    have hne : u ≠ w := fun he => hnot (he ▸ hu)
    simpa [Function.update_of_ne hne] using
      ha.allocated u (List.perm_middle.mem_iff.mpr (List.mem_cons_of_mem w hu))
  source _ hu := .inl (List.perm_middle.mem_iff.mpr (List.mem_cons_of_mem w hu))
  frame u hu _ := by
    have hne : u ≠ w := fun he => hu (he ▸ List.mem_append_right _ List.mem_cons_self)
    exact Function.update_of_ne hne _ _
  fresh := by simp
  cleaning _ := rfl

/-- The stores of type 1 leave nothing of what was in a block. -/
theorem initialised {f a : Option Nat} {key : Option Addr} {x : Item} :
    (After.alloc f a).Done key
      (((initStores ++ callStores f a).map ItemStore.work).foldl (fun x s => s.run x) x) := rfl

/-- An item of a list needs no other stores. -/
theorem recycled {f a : Option Nat} {key : Option Addr} {x : Item} (hx : x.Clean) :
    (After.alloc f a).Done key
      (((callStores f a).map ItemStore.work).foldl (fun x s => s.run x) x) := by
  obtain ⟨y, next⟩ := x
  cases hx
  rfl

/-- The step rule: no step goes to a block that is not allocated, and the thread holds what the step
leaves it. -/
theorem Owns.step (ho : Owns sh.heap p l) (ha : Apart sh l) (st : Step sh t p ch o) :
    ∃ l', Kept sh p l o l' := by
  cases st with
  | fault hw hnone => exact absurd hnone (ho.no_fault ha hw)
  | load | exitEmpty | retry | create => exact ⟨l, .quiet ha ho rfl (by simp)⟩
  | callRecycle => cases ho with | app hc => exact ⟨l, .quiet ha (.recycle hc) rfl (by simp)⟩
  | callMalloc => cases ho with | app hc => exact ⟨l, .quiet ha (.malloc hc) rfl (by simp)⟩
  | exit => cases ho with | app hc => exact ⟨l, .quiet ha (.cleanup hc) rfl (by simp)⟩
  | @callFree key w hw =>
    cases ho with
    | app hc =>
      obtain ⟨x, hx⟩ := Option.ne_none_iff_exists'.mp (ha.allocated w (List.mem_append_left l hw))
      have hmove : (sh.live.erase w ++ w :: l).Perm (sh.live ++ l) :=
        List.perm_middle.trans ((List.perm_cons_erase hw).symm.append_right l)
      exact ⟨w :: l, .move ha hmove.subperm (.store hx ⟨rfl, rfl⟩ hc) rfl⟩
  | @use key w s x hw hx =>
    cases ho with
    | app hc =>
      have hne : ∀ u ∈ l, u ≠ w := fun u hu => ha.live_ne hw hu
      exact ⟨l, .put ha (List.mem_append_left l hw) (.app (Chain.put hc hne)) rfl⟩
  | @recycle key f a w x hx =>
    cases ho with
    | recycle hc =>
      obtain ⟨y, m, rfl, hy, hclean, hm⟩ := hc.inv
      cases hx.symm.trans hy
      exact ⟨w :: m, .quiet ha (.store hx (recycled hclean) hm) rfl (by simp)⟩
  | @malloc key f a w x hw =>
    cases ho with
    | malloc hc =>
      have hne : ∀ u ∈ l, u ≠ w := fun u hu => ha.fresh_ne hw hu
      exact ⟨w :: l, .malloc ha hw (.store Shared.put_self initialised (Chain.put hc hne)) rfl⟩
  | @store key w s ss k x hx =>
    cases ho with
    | store hy hd hc =>
      cases hx.symm.trans hy
      have hc' := Chain.put (x := s.run x) hc fun u => ha.head_ne
      exact ⟨_, .put ha (List.mem_append_right _ List.mem_cons_self) (.store Shared.put_self hd hc') rfl⟩
  | allocated =>
    cases ho with
    | store _ _ hc => exact ⟨_, .move ha List.perm_middle.symm.subperm (.app hc) rfl⟩
  | freed =>
    cases ho with
    | store hx hd hc =>
      obtain ⟨hclean, rfl⟩ := hd
      exact ⟨_, .quiet ha (.app (.cons hx hclean hc)) rfl (by simp)⟩
  | @leaked w =>
    cases ho with
    | @store _ _ _ _ _ l _ _ hc =>
      have hdrop := (List.sublist_cons_self w l).append_left sh.live
      exact ⟨l, .move ha hdrop.subperm (.app hc) rfl⟩
  | cleaned => cases ho with | cleanup hc => exact ⟨l, .quiet ha (.app hc) rfl (by simp)⟩
  | visit hx => cases ho with | cleanup hc => exact ⟨l, .quiet ha (.release hx rfl hc) rfl (by simp)⟩
  | release =>
    cases ho with
    | release hx hn hc =>
      obtain ⟨y, m, rfl, hy, _, hm⟩ := hc.inv
      cases hx.symm.trans hy
      subst hn
      have hm' := hm.frame fun u hu => Function.update_of_ne (ha.head_ne hu) none sh.heap
      exact ⟨m, .release ha (.cleanup hm')⟩

/-- The item that `witem_alloc` returns is not one of the program's, and is as type 1 makes it. -/
theorem Step.allocated_fresh {u : Tid} {f a : Option Nat} {x : Work} (ho : Owns sh.heap p l)
    (ha : Apart sh l) (st : Step sh t p ch o) (he : .allocated u f a w x ∈ o.events) :
    w ∉ sh.live ∧ x = freshWork f a := by
  cases st with
  | fault hw hnone => exact absurd hnone (ho.no_fault ha hw)
  | allocated hx =>
    cases List.mem_singleton.mp he
    cases ho with
    | store hy hd _ =>
      cases hx.symm.trans hy
      exact ⟨fun hw => ha.live_ne hw List.mem_cons_self rfl, hd⟩
  | recycle | retry | malloc | store | cleaned | visit => exact absurd he List.not_mem_nil
  | _ => cases List.mem_singleton.mp he

/-- The state of all threads: what the program (`none`) and each thread have. -/
structure Partition (c : Config (Shared Item) Thread) (own : Option Tid → List Addr) : Prop where
  running : c.shared.halted = none
  program : own none = c.shared.live
  threads : ∀ (t : Tid) p, c.threads[t]? = some p → Owns c.shared.heap p (own (some t))
  absent : ∀ t, c.threads.length ≤ t → own (some t) = []
  exclusive : Exclusive own
  allocated : ∀ i, ∀ w ∈ own i, c.shared.heap w ≠ none

variable {c : Config (Shared Item) Thread} {own : Option Tid → List Addr} {tr : List Event} {n : Nat}

theorem Partition.start : Partition (initial newThread n) fun _ => [] where
  running := rfl
  program := rfl
  threads t p hp := by
    rw [List.eq_of_mem_replicate (List.mem_of_getElem? hp)]
    exact .app .nil
  absent _ _ := rfl
  exclusive := ⟨fun _ => List.nodup_nil, fun _ _ _ hw => absurd hw List.not_mem_nil⟩
  allocated _ _ hw := absurd hw List.not_mem_nil

theorem Partition.apart (hp : Partition c own) : Apart c.shared (own (some t)) where
  nodup := by
    rw [← hp.program]
    refine List.nodup_append.mpr ⟨hp.exclusive.nodup _, hp.exclusive.nodup _, ?_⟩
    rintro w hw _ hw' rfl
    cases hp.exclusive.owner _ _ w hw hw'
  allocated w hw := by
    rw [← hp.program] at hw
    exact (List.mem_append.mp hw).elim (hp.allocated _ w) (hp.allocated _ w)

/-- What another thread has is not what the thread or the program has. -/
theorem Partition.not_mem {u : Tid} (hp : Partition c own) (hu : u ≠ t) (hw : w ∈ own (some u)) :
    w ∉ c.shared.live ++ own (some t) := by
  intro hmem
  rw [← hp.program] at hmem
  rcases List.mem_append.mp hmem with hmem | hmem
  · cases hp.exclusive.owner _ _ w hw hmem
  · exact hu (Option.some.inj (hp.exclusive.owner _ _ w hw hmem))

theorem Partition.exclusive_apply (hp : Partition c own)
    (k : Kept c.shared p (own (some t)) o l') :
    Exclusive (assign own none (some t) o.shared.live l') := by
  refine hp.exclusive.divide (Option.some_ne_none t).symm k.apart.nodup ?_
  rintro w hw (_ | u) hu
  · exact .inl rfl
  · by_cases hut : u = t
    · exact .inr (congrArg some hut)
    · rcases k.source w hw with hmem | hnone
      · exact absurd hmem (hp.not_mem hut hu)
      · exact absurd hnone (hp.allocated _ w hu)

theorem assign_thread {u : Tid} {live : List Addr} (hu : u ≠ t) :
    assign own none (some t) live l' (some u) = own (some u) :=
  assign_other (Option.some_ne_none u) fun he => hu (Option.some.inj he)

/-- The framing rule: a step that keeps what it has to of one thread keeps it of all. -/
theorem Partition.apply (hp : Partition c own) (here : c.threads[t]? = some p)
    (k : Kept c.shared p (own (some t)) o l') :
    Partition (o.apply c t) (assign own none (some t) o.shared.live l') := by
  have keep : ∀ u, u ≠ t → ∀ w ∈ own (some u), o.shared.heap w = c.shared.heap w :=
    fun u hu w hw => k.frame w (hp.not_mem hu hw) (hp.allocated _ w hw)
  have program : assign own none (some t) o.shared.live l' none = o.shared.live :=
    assign_left (Option.some_ne_none t).symm
  have ht : t < c.threads.length := (List.getElem?_eq_some_iff.mp here).1
  refine ⟨k.running.trans hp.running, program, ?_, ?_, hp.exclusive_apply k, ?_⟩
  · intro u q hu
    obtain ⟨rfl, rfl⟩ | ⟨hne, hu⟩ | ⟨hge, hq⟩ := Outcome.get_cases here hu
    · rw [assign_right]
      exact k.owns
    · rw [assign_thread hne]
      exact (hp.threads u q hu).frame (keep u hne)
    · have hne : u ≠ t := Nat.ne_of_gt (Nat.lt_of_lt_of_le ht hge)
      rw [assign_thread hne, hp.absent u hge, k.fresh q hq]
      exact .app .nil
  · intro u hu
    have hle : c.threads.length ≤ u := by
      simp only [Outcome.apply, List.length_append, List.length_set] at hu
      omega
    have hne : u ≠ t := Nat.ne_of_gt (Nat.lt_of_lt_of_le ht hle)
    rw [assign_thread hne]
    exact hp.absent u hle
  · rintro (_ | u) w hw
    · rw [program] at hw
      exact k.apart.allocated w (List.mem_append_left _ hw)
    · by_cases hu : u = t
      · rw [hu, assign_right] at hw
        exact k.apart.allocated w (List.mem_append_right _ hw)
      · rw [assign_thread hu] at hw
        show o.shared.heap w ≠ none
        rw [keep u hu w hw]
        exact hp.allocated _ w hw

/-- A step of a thread, with what it holds before and after. -/
theorem Partition.step (hp : Partition c own) (mv : cached.Moves c (t, ch) o p) :
    Owns c.shared.heap p (own (some t)) ∧ Step c.shared t p ch o ∧
      ∃ l', Kept c.shared p (own (some t)) o l' ∧
        Partition (o.apply c t) (assign own none (some t) o.shared.live l') := by
  have ho := hp.threads t p mv.here
  have st := cached_step mv.next
  obtain ⟨l', k⟩ := ho.step hp.apart st
  exact ⟨ho, st, l', k, hp.apply mv.here k⟩

/-- In every run the items are divided among the program and the threads. -/
theorem Partition.run (h : Machine.Free cached (initial newThread n) tr c) :
    ∃ own, Partition c own := by
  refine h.invariant (fun _ c => ∃ own, Partition c own) ⟨_, .start⟩ ?_
  rintro tr c ⟨t, ch⟩ p o - ⟨own, hp⟩ - mv
  obtain ⟨-, -, l', -, hp'⟩ := hp.step mv
  exact ⟨_, hp'⟩

/-- The lists of the threads: finite, each without duplicates, disjoint from each other and from the
items of the program. In `witem_cache_cleanup` the list is no longer the value of the key. -/
structure Chains (c : Config (Shared Item) Thread) (chain : Tid → List Addr) : Prop where
  linked : ∀ (t : Tid) p, c.threads[t]? = some p → Chain c.shared.heap p.head (chain t)
  key : ∀ (t : Tid) p, c.threads[t]? = some p → p.pc.cleaning = true → p.key = none
  nodup : ∀ t, (chain t).Nodup
  disjoint : ∀ t u, t ≠ u → (chain t).Disjoint (chain u)
  live : ∀ t, (chain t).Disjoint c.shared.live

theorem Partition.chains (hp : Partition c own) : ∃ chain, Chains c chain := by
  have list : ∀ t : Tid, ∃ m, m.Sublist (own (some t)) ∧
      ∀ p, c.threads[t]? = some p → Chain c.shared.heap p.head m := by
    intro t
    cases ht : c.threads[t]? with
    | none => exact ⟨[], List.nil_sublist _, nofun⟩
    | some p =>
      obtain ⟨m, hm, hc⟩ := (hp.threads t p ht).list
      exact ⟨m, hm, fun q hq => by cases hq; exact hc⟩
  choose chain hsub hlinked using list
  refine ⟨chain, hlinked, ?_, fun t => (hp.exclusive.nodup _).sublist (hsub t), ?_, ?_⟩
  · exact fun t p ht hc => (hp.threads t p ht).key_none hc
  · intro t u htu w ht hu
    have := hp.exclusive.owner _ _ w ((hsub t).subset ht) ((hsub u).subset hu)
    exact htu (Option.some.inj this)
  · intro t w ht hlive
    rw [← hp.program] at hlive
    cases hp.exclusive.owner _ _ w ((hsub t).subset ht) hlive

end PthreadWorkqueue.Cache
