import PthreadWorkqueue.Memory.TailQueue
import Mathlib.Algebra.GroupWithZero.Nat

/-! The macros of `queue.h` for the item lists, and how far a thread can be in one of them. -/
namespace PthreadWorkqueue.Memory
variable {ι α : Type}

/-- `STAILQ_INSERT_TAIL`. -/
def stailqInsertTail (q : ι) (w : α) : List (Statement ι α) :=
  [.clearNext w, .linkLast q w, .lastToNext q w]

/-- `STAILQ_REMOVE_HEAD`. -/
def stailqRemoveHead (q : ι) : List (Statement ι α) := [.advance q]

/-- `STAILQ_FIRST`. -/
def stailqFirst (m : TailMemory ι α) (q : ι) : Option α := m.link (.first q)

/-- A thread has the statements `todo` left of a macro that takes the queue from `l` to `k`. -/
inductive Midway (m : TailMemory ι α) (q : ι) : List α → List α → List (Statement ι α) → Prop where
  | insert {l w} : Holds m q l → Midway m q l (l ++ [w]) [.clearNext w, .linkLast q w, .lastToNext q w]
  | cleared {l w} : Holds m q l → m.link (.next w) = none →
      Midway m q l (l ++ [w]) [.linkLast q w, .lastToNext q w]
  | linked {l w} : Chain m.link (.first q) (l ++ [w]) → m.link (.next w) = none →
      Midway m q l (l ++ [w]) [.lastToNext q w]
  | remove {w k} : Holds m q (w :: k) → Midway m q (w :: k) k [.advance q]
  | emptied {w} : m.link (.first q) = none → Midway m q [w] [] [.lastToFirst q]
  | done {l k} : Holds m q k → Midway m q l k []

variable {m m' : TailMemory ι α} {q r : ι} {l k xs : List α} {s : Statement ι α}
  {todo : List (Statement ι α)}

theorem Holds.insertTail (h : Holds m q l) (w : α) : Midway m q l (l ++ [w]) (stailqInsertTail q w) :=
  .insert h

theorem Holds.removeHead {w : α} (h : Holds m q (w :: k)) : Midway m q (w :: k) k (stailqRemoveHead q) :=
  .remove h

theorem Midway.finish (h : Midway m q l k []) : Holds m q k := by
  cases h with
  | done h => exact h

/-- A macro does not notice what happens to other queues. -/
theorem Midway.elsewhere (h : Midway m r l k todo) (he : Elsewhere q xs m m') (hr : r ≠ q)
    (hx : ∀ x ∈ l ++ k, x ∉ xs) : Midway m' r l k todo := by
  have left : ∀ x ∈ l, x ∉ xs := fun x h => hx x (List.mem_append_left k h)
  have right : ∀ x ∈ k, x ∉ xs := fun x h => hx x (List.mem_append_right l h)
  cases h with
  | insert h => exact .insert (h.elsewhere he hr left)
  | cleared h hn => exact .cleared (h.elsewhere he hr left) ((he.next _ (right _ (by simp))).trans hn)
  | linked h hn => exact .linked (h.elsewhere he hr right) ((he.next _ (right _ (by simp))).trans hn)
  | remove h => exact .remove (h.elsewhere he hr left)
  | emptied h => exact .emptied ((he.first r hr).trans h)
  | done h => exact .done (h.elsewhere he hr right)

variable [DecidableEq ι] [DecidableEq α] {live : α → Bool}

/-- `STAILQ_INIT`, in one step: no other thread has the queue yet. -/
def stailqInit (m : TailMemory ι α) (q : ι) : TailMemory ι α :=
  (m.setLink (.first q) none).setLast q (.first q)

/-- A queue does not notice what happens to the link of a block that is not in it. -/
private theorem Holds.setNext {w : α} (h : Holds m q l) (fresh : w ∉ l) (v : Option α) :
    Holds (m.setLink (.next w) v) q l := by
  have first : (m.setLink (.next w) v).link (.first q) = m.link (.first q) :=
    m.setLink_of_ne v (by simp)
  have next : ∀ x ∈ l, (m.setLink (.next w) v).link (.next x) = m.link (.next x) := fun x hx =>
    m.setLink_of_ne v fun hxw => fresh (Place.next.inj hxw ▸ hx)
  refine ⟨h.chain.frame first next, ?_, h.last⟩
  refine Eq.trans ?_ h.ends
  obtain hend | ⟨x, hx, hend⟩ := endFrom_cases (.first q) l <;> rw [hend]
  · exact first
  · exact next x hx

/-- The head of a queue is taken: the chain goes on from its second block. -/
private theorem Holds.advanced {w y : α} (h : Holds m q (w :: y :: k)) :
    Holds (m.setLink (.first q) (m.link (.next w))) q (y :: k) := by
  have same : ∀ x, (m.setLink (.first q) (m.link (.next w))).link (.next x) = m.link (.next x) :=
    fun x => m.setLink_of_ne _ (by simp)
  obtain ⟨-, hy, hchain⟩ := h.chain
  refine ⟨⟨(m.setLink_self _).trans hy, hchain.frame (same y) fun x _ => same x⟩, ?_, h.last⟩
  refine Eq.trans ?_ h.ends
  obtain he | ⟨x, -, he⟩ := endFrom_cases (Place.next y : Place ι α) k
  · exact (congrArg _ he).trans ((same y).trans (congrArg m.link he).symm)
  · exact (congrArg _ he).trans ((same x).trans (congrArg m.link he).symm)

/-- A block is linked at the end of a queue. -/
private theorem Holds.linkLast {w : α} (h : Holds m q l) (hl : l.Nodup) (fresh : w ∉ l)
    (hn : m.link (.next w) = none) (alive : ∀ x ∈ l, live x = true) :
    ∃ m', (Statement.linkLast q w).exec live m = some (m', []) ∧
      Midway m' q l (l ++ [w]) [.lastToNext q w] ∧ Elsewhere q (l ++ l ++ [w]) m m' := by
  have hchain := h.chain.snoc (w := w) hl (by simp)
  obtain hend | ⟨x, hx, hend⟩ := endFrom_cases (.first q) l <;> rw [hend] at hchain
  · have hlast : m.last q = .first q := h.last.trans hend
    refine ⟨m.setLink (.first q) (some w), ?_, .linked hchain ?_, .setFirst _⟩
    · simp only [Statement.exec, hlast, Place.live, if_true]
    · exact (m.setLink_of_ne _ (by simp)).trans hn
  · have hlast : m.last q = .next x := h.last.trans hend
    refine ⟨m.setLink (.next x) (some w), ?_, .linked hchain ?_, .setNext (by simp [hx]) _⟩
    · simp only [Statement.exec, hlast, Place.live, alive x hx, if_true]
    · exact (m.setLink_of_ne _ fun hwx => fresh (by rwa [Place.next.inj hwx])).trans hn

/-- A statement of a macro uses no null pointer and no block that is gone, brings the macro on, and
touches its own queue and blocks only. -/
theorem Midway.step (h : Midway m q l k (s :: todo)) (hl : l.Nodup) (hk : k.Nodup)
    (alive : ∀ x ∈ l ++ k, live x = true) : ∃ m' more, s.exec live m = some (m', more) ∧
      Midway m' q l k (more ++ todo) ∧ Elsewhere q (l ++ k) m m' := by
  cases h with
  | @insert l w h =>
    have fresh : w ∉ l := fun hw => List.disjoint_of_nodup_append hk hw (List.mem_singleton_self w)
    exact ⟨_, [], if_pos (alive w (by simp)), .cleared (h.setNext fresh none) (m.setLink_self _),
      .setNext (by simp) none⟩
  | @cleared l w h hn =>
    have fresh : w ∉ l := fun hw => List.disjoint_of_nodup_append hk hw (List.mem_singleton_self w)
    obtain ⟨m', he, hm, hels⟩ := h.linkLast hl fresh hn fun x hx => alive x (List.mem_append_left _ hx)
    exact ⟨m', [], he, hm, List.append_assoc l l [w] ▸ hels⟩
  | @linked l w h hn =>
    refine ⟨_, [], rfl, .done ⟨h, ?_, ?_⟩, .setLast _⟩
    · rw [endFrom_snoc]
      exact hn
    · rw [endFrom_snoc]
      exact m.setLast_self
  | @remove w k h =>
    have hfirst : m.link (.first q) = some w := h.chain.1
    have hw : live w = true := alive w (by simp)
    cases k with
    | nil =>
      have hnext : m.link (.next w) = none := h.ends
      refine ⟨m.setLink (.first q) none, [.lastToFirst q], ?_, .emptied (m.setLink_self _), .setFirst _⟩
      simp only [Statement.exec, hfirst, hw, hnext, if_true]
    | cons y k =>
      have hnext : m.link (.next w) = some y := h.chain.2.1
      refine ⟨_, [], ?_, .done h.advanced, .setFirst _⟩
      simp only [Statement.exec, hfirst, hw, hnext, if_true, reduceCtorEq, if_false]
  | emptied h =>
    exact ⟨_, [], rfl, .done ⟨trivial, h, m.setLast_self⟩, .setLast _⟩

/-- The statements that a statement stands for, itself included. -/
def Statement.weight : Statement ι α → Nat
  | .advance _ => 2
  | _ => 1

/-- A macro comes to its end: what a statement brings with it is less than the statement. -/
theorem exec_weight {more : List (Statement ι α)} (h : s.exec live m = some (m', more)) :
    (more.map Statement.weight).sum < s.weight := by
  cases s with
  | advance q =>
    cases hfirst : m.link (.first q) with
    | none =>
      simp only [Statement.exec, hfirst, reduceCtorEq] at h
    | some w =>
      simp only [Statement.exec, hfirst, Option.ite_none_right_eq_some, Option.some.injEq,
        Prod.mk.injEq] at h
      obtain ⟨-, -, rfl⟩ := h
      by_cases hnext : m.link (.next w) = none
      · rw [if_pos hnext]
        exact Nat.one_lt_two
      · rw [if_neg hnext]
        exact Nat.two_pos
  | clearNext w | linkLast q w =>
    simp only [Statement.exec] at h
    split at h <;> cases h
    exact Nat.one_pos
  | _ => cases h; exact Nat.one_pos

theorem holds_init (m : TailMemory ι α) (q : ι) : Holds (stailqInit m q) q [] :=
  ⟨trivial, m.setLink_self _, TailMemory.setLast_self⟩

theorem elsewhere_init (m : TailMemory ι α) (q : ι) : Elsewhere q [] m (stailqInit m q) :=
  (Elsewhere.setFirst none).trans (.setLast _)

end PthreadWorkqueue.Memory
