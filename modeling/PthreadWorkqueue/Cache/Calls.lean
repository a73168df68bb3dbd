import PthreadWorkqueue.Cache.Chains

/-! The calls of one thread, whatever the others do meanwhile: each returns within a number of its own
steps, and `witem_cache_cleanup` passes each item of the list to `free`. -/
namespace PthreadWorkqueue.Cache
open Concurrency Memory
open Posix (Tid)

abbrev CacheAct := Act (Shared Item) Thread (Choice Item)

/-- Runs in which a thread makes the steps of a call only. -/
def InCall (t : Tid) (c : Config (Shared Item) Thread) (l : Tid × Choice Item) : Prop :=
  l.1 = t → ∀ p, c.threads[t]? = some p → p.pc ≠ .app

def ofThread (t : Tid) (as : List CacheAct) : List CacheAct := as.filter fun x => x.thread == t

/-- The items passed to `free`, in this order. -/
def released (as : List CacheAct) : List Addr := as.flatMap fun x => x.pc.pc.releasing.toList

/-- A call of `malloc` without result; it is repeated. -/
def failed (x : CacheAct) : Bool :=
  match x.choice with
  | .block none => true
  | _ => false

def turns (as : List CacheAct) : Nat := as.countP fun x => !failed x

/-- The steps that are left of a call, for a thread that holds `n` items. -/
def Pc.left : Pc → Nat → Nat
  | .app, _ => 0
  | .recycle _ _ _, _ => 4
  | .malloc _ _, _ => 7
  | .store _ ss _, _ => ss.length + 1
  | .cleanup _, n => 2 * n + 1
  | .release _ _, n => 2 * n

/-- The arguments of `witem_alloc`. -/
def Pc.args : Pc → Option (Option Nat × Option Nat)
  | .recycle f a _ | .malloc f a | .store _ _ (.alloc f a) => some (f, a)
  | _ => none

variable {sh : Shared Item} {t : Tid} {p q : Thread} {ch : Choice Item} {o : Out}
  {l l' : List Addr} {c d : Config (Shared Item) Thread} {own : Option Tid → List Addr}
  {as bs : List CacheAct} {f a : Option Nat}

/-- Every step of a call but a repetition brings its return one step nearer. -/
theorem Step.left (ho : Owns sh.heap p l) (ha : Apart sh l) (st : Step sh t p ch o)
    (k : Kept sh p l o l') (hp : p.pc ≠ .app) :
    turns [⟨t, sh, p, ch⟩] + o.pc.pc.left l'.length = p.pc.left l.length := by
  cases st with
  | fault hw hnone => exact absurd hnone (ho.no_fault ha hw)
  | recycle | retry | malloc | allocated | freed | leaked => rfl
  | store => exact Nat.add_comm 1 _
  | cleaned =>
    cases ho with
    | cleanup hc =>
      cases linked_none.mp hc
      rfl
  | visit =>
    have hsame : l = l' := k.cleaning rfl
    subst hsame
    exact Nat.add_comm 1 _
  | release =>
    have hcons : l = _ :: l' := k.cleaning rfl
    subst hcons
    simp only [turns, failed, Pc.left, List.length_cons, List.countP_singleton, Bool.not_false, if_true]
    omega
  | _ => exact absurd rfl hp

/-- `witem_cache_cleanup` ends when no item is left. -/
theorem Step.cleaning (ho : Owns sh.heap p l) (ha : Apart sh l) (st : Step sh t p ch o)
    (k : Kept sh p l o l') (hp : p.pc.cleaning = true) :
    o.pc.pc.cleaning = true ∨ o.pc.pc = .app ∧ l' = [] := by
  have hl := k.cleaning hp
  cases st with
  | fault hw hnone => exact absurd hnone (ho.no_fault ha hw)
  | cleaned =>
    cases ho with
    | cleanup hc =>
      cases linked_none.mp hc
      exact .inr ⟨rfl, hl.symm⟩
  | visit | release => exact .inl rfl
  | _ => cases hp

/-- `witem_alloc` keeps its arguments until it returns the item. -/
theorem Step.args (ho : Owns sh.heap p l) (ha : Apart sh l) (st : Step sh t p ch o)
    (hp : p.pc.args = some (f, a)) :
    o.pc.pc.args = some (f, a) ∨
      o.pc.pc = .app ∧ ∃ key w, p = ⟨key, .store w [] (.alloc f a)⟩ := by
  cases st with
  | fault hw hnone => exact absurd hnone (ho.no_fault ha hw)
  | allocated =>
    cases hp
    exact .inr ⟨rfl, _, _, rfl⟩
  | recycle | retry | malloc => exact .inl hp
  | @store _ _ _ _ k =>
    cases k with
    | alloc => exact .inl hp
    | free => cases hp
  | _ => cases hp

theorem cachedNext_enabled : ∃ ch o, cachedNext sh t p p.pc ch = some o := by
  obtain ⟨key, pc⟩ := p
  cases pc with
  | app => exact ⟨.create, _, rfl⟩
  | recycle f a w => exact ⟨.go, _, rfl⟩
  | malloc f a => exact ⟨.block none, _, rfl⟩
  | store w ss k =>
    cases ss with
    | cons => exact ⟨.go, _, rfl⟩
    | nil =>
      cases k with
      | alloc => exact ⟨.go, _, rfl⟩
      | free => exact ⟨.code 0, _, rfl⟩
  | cleanup next => cases next <;> exact ⟨.go, _, rfl⟩
  | release => exact ⟨.go, _, rfl⟩

/-- A thread can always go on. -/
theorem cached_enabled (hrun : sh.halted = none) : ∃ ch o, cached sh t p ch = some o := by
  obtain ⟨ch, o, h⟩ := @cachedNext_enabled sh t p
  exact ⟨ch, o, by rw [cached, if_pos hrun, h]⟩

theorem ofThread_self {x : CacheAct} (hx : x.thread = t) :
    ofThread t (as ++ [x]) = ofThread t as ++ [x] := by
  simp [ofThread, hx]

theorem ofThread_other {x : CacheAct} (hx : x.thread ≠ t) :
    ofThread t (as ++ [x]) = ofThread t as := by
  simp [ofThread, hx]

/-- The rule for calls: what a thread's own steps keep is kept, for the other threads do not touch
what it holds. -/
theorem call_rule (J : List CacheAct → List Addr → Thread → Prop) (hp : Partition c own)
    (here : c.threads[t]? = some p) (start : J [] (own (some t)) p)
    (step : ∀ as sh l p ch o l', J as l p → Owns sh.heap p l → Apart sh l → Step sh t p ch o →
      Kept sh p l o l' → p.pc ≠ .app → J (as ++ [⟨t, sh, p, ch⟩]) l' o.pc)
    (h : Machine.Run cached.acts (InCall t) c as d) :
    ∃ own' q, Partition d own' ∧ d.threads[t]? = some q ∧ J (ofThread t as) (own' (some t)) q := by
  refine h.acts_rule (fun as d => ∃ own' q, Partition d own' ∧ d.threads[t]? = some q ∧
    J (ofThread t as) (own' (some t)) q) ⟨own, p, hp, here, start⟩ ?_
  rintro as c ⟨u, ch⟩ r o - ⟨own', q, hpart, hq, hJ⟩ hg mv
  obtain ⟨ho, st, l', k, hpart'⟩ := hpart.step mv
  by_cases hu : u = t
  · subst hu
    cases hq.symm.trans mv.here
    refine ⟨_, o.pc, hpart', Outcome.get_self mv.here, ?_⟩
    rw [ofThread_self (x := ⟨u, c.shared, r, ch⟩) rfl, assign_right]
    exact step _ _ _ _ _ _ _ hJ ho hpart.apart st k (hg rfl _ mv.here)
  · refine ⟨_, q, hpart', Outcome.get_other (Ne.symm hu) hq, ?_⟩
    rw [ofThread_other (x := ⟨u, c.shared, r, ch⟩) hu, assign_thread (Ne.symm hu)]
    exact hJ

/-- A call returns within `n` steps of its thread, repetitions apart, and is never held up. -/
structure Returns (t : Tid) (n : Nat) (as : List CacheAct) (d : Config (Shared Item) Thread) :
    Prop where
  bounded : turns (ofThread t as) ≤ n
  enabled : ∀ p, d.threads[t]? = some p → ∃ ch o, cached d.shared t p ch = some o

theorem call_returns {n : Nat} (hp : Partition c own) (here : c.threads[t]? = some p)
    (hn : p.pc.left (own (some t)).length ≤ n) (h : Machine.Run cached.acts (InCall t) c as d) :
    Returns t n as d := by
  obtain ⟨own', q, hpart, hq, hbound⟩ := call_rule
    (fun as l p => turns as + p.pc.left l.length ≤ n) hp here (by simpa [turns] using hn)
    (fun as sh l p ch o l' hJ ho ha st k hne => by
      have := st.left ho ha k hne
      rw [turns, List.countP_append]
      simp only [turns] at this hJ
      omega) h
  exact ⟨by omega, fun p _ => cached_enabled hpart.running⟩

theorem free_returns {w : Addr} (hp : Partition c own) (mv : cached.Moves c (t, .free w) o p)
    (h : Machine.Run cached.acts (InCall t) (o.apply c t) as d) : Returns t 7 as d := by
  obtain ⟨ho, st, l', k, hp'⟩ := hp.step mv
  refine call_returns hp' (Outcome.get_self mv.here) ?_ h
  cases st with
  | fault hw hnone => exact absurd hnone (ho.no_fault hp.apart hw)
  | callFree => exact Nat.le_refl 7

/-- `witem_alloc` ends by returning an item. -/
structure Allocates (t : Tid) (f a : Option Nat) (as : List CacheAct)
    (d : Config (Shared Item) Thread) : Prop where
  returns : Returns t 7 as d
  item : ∀ p, d.threads[t]? = some p → p.pc = .app →
    ∃ x ∈ ofThread t as, ∃ key w, x.pc = ⟨key, .store w [] (.alloc f a)⟩

theorem alloc_allocates (hp : Partition c own) (mv : cached.Moves c (t, .alloc f a) o p)
    (h : Machine.Run cached.acts (InCall t) (o.apply c t) as d) : Allocates t f a as d := by
  obtain ⟨ho, st, l', k, hp'⟩ := hp.step mv
  have here := Outcome.get_self (o := o) mv.here
  have start : o.pc.pc.args = some (f, a) ∧ ∀ n, o.pc.pc.left n ≤ 7 := by
    cases st with
    | fault hw hnone => exact absurd hnone (ho.no_fault hp.apart hw)
    | callRecycle => exact ⟨rfl, fun _ => (by decide : 4 ≤ 7)⟩
    | callMalloc => exact ⟨rfl, fun _ => Nat.le_refl 7⟩
  refine ⟨call_returns hp' here (start.2 _) h, ?_⟩
  obtain ⟨own', q, _, hq, hJ⟩ := call_rule
    (fun as _ p => p.pc.args = some (f, a) ∨
      ∃ x ∈ as, ∃ key w, x.pc = ⟨key, .store w [] (.alloc f a)⟩) hp' here (.inl start.1)
    (fun as sh l p ch o l' hJ ho ha st _ _ => by
      rcases hJ with hargs | ⟨x, hx, hitem⟩
      · rcases st.args ho ha hargs with hargs | ⟨-, key, w, rfl⟩
        · exact .inl hargs
        · exact .inr ⟨_, List.mem_append_right as (List.mem_singleton_self _), key, w, rfl⟩
      · exact .inr ⟨x, List.mem_append_left _ hx, hitem⟩) h
  intro p hp hpc
  cases hq.symm.trans hp
  refine hJ.resolve_left fun hargs => ?_
  rw [hpc] at hargs
  cases hargs

/-- A thread that ends passes the items `l` of its list to `free`, each once and in their order. -/
structure Ends (t : Tid) (l : List Addr) (as : List CacheAct) (d : Config (Shared Item) Thread) :
    Prop where
  distinct : l.Nodup
  returns : Returns t (2 * l.length + 1) as d
  once : released (ofThread t as) <+: l
  all : ∀ p, d.threads[t]? = some p → p.pc = .app → released (ofThread t as) = l

theorem exit_ends (hp : Partition c own) (mv : cached.Moves c (t, .exit) o p)
    (hl : Chain c.shared.heap p.key l)
    (h : Machine.Run cached.acts (InCall t) (o.apply c t) as d) : Ends t l as d := by
  obtain ⟨ho, st, l', k, hp'⟩ := hp.step mv
  have here := Outcome.get_self (o := o) mv.here
  have start : l' = l ∧ o.pc.pc.left l'.length ≤ 2 * l.length + 1 ∧
      (o.pc.pc.cleaning = true ∨ o.pc.pc = .app ∧ l' = []) := by
    have hnew := k.owns
    cases st with
    | fault hw hnone => exact absurd hnone (ho.no_fault hp.apart hw)
    | exit =>
      cases hnew with
      | cleanup hc =>
        cases hc.unique hl
        exact ⟨rfl, Nat.le_refl _, .inl rfl⟩
    | exitEmpty =>
      cases hnew with
      | app hc =>
        cases hc.unique hl
        exact ⟨rfl, Nat.zero_le _, .inr ⟨rfl, linked_none.mp hc⟩⟩
  obtain ⟨rfl, hleft, hpc⟩ := start
  obtain ⟨own', q, _, hq, hsplit, hdone⟩ := call_rule
    (fun as m p => l' = released as ++ m ∧ (p.pc.cleaning = true ∨ p.pc = .app ∧ m = [])) hp' here
    (by rw [assign_right]; exact ⟨rfl, hpc⟩)
    (fun as sh l p ch o l' hJ ho ha st k hne => by
      obtain ⟨hsplit, hcl⟩ := hJ
      have hcl := hcl.resolve_right fun happ => hne happ.1
      refine ⟨?_, st.cleaning ho ha k hcl⟩
      rw [hsplit, k.cleaning hcl, ← List.append_assoc, released, released, List.flatMap_append]
      simp) h
  have distinct : l'.Nodup := (List.nodup_append.mp k.apart.nodup).2.1
  refine ⟨distinct, call_returns hp' here (by rw [assign_right]; exact hleft) h, ⟨_, hsplit.symm⟩, ?_⟩
  intro p hp hpc
  cases hq.symm.trans hp
  obtain ⟨-, hnil⟩ := hdone.resolve_left (by rw [hpc]; exact nofun)
  rw [hnil, List.append_nil] at hsplit
  exact hsplit.symm

end PthreadWorkqueue.Cache
