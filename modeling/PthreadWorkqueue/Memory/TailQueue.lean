import Mathlib.Data.List.Nodup
import Mathlib.Logic.Function.Basic

/-! Tail queues that are linked through their blocks. A head has the address of its first block and
the address of the link at the end, so that nothing is read to append a block. An operation on a
queue is a sequence of statements, and the statements of other threads may come between. -/
namespace PthreadWorkqueue.Memory

/-- The addresses of links: the first link of a queue, and the next link of a block. -/
inductive Place (ι α : Type) where
  | first (q : ι)
  | next (w : α)
  deriving DecidableEq

structure TailMemory (ι α : Type) where
  link : Place ι α → Option α
  last : ι → Place ι α

/-- The statements on queues and blocks. -/
inductive Statement (ι α : Type) where
  | clearNext (w : α)
  /-- The link at the end gets the address of a block. -/
  | linkLast (q : ι) (w : α)
  | lastToNext (q : ι) (w : α)
  | lastToFirst (q : ι)
  /-- The first link gets the next link of the first block; `lastToFirst` follows if this is null. -/
  | advance (q : ι)
  deriving DecidableEq

variable {ι α : Type} {m m' : TailMemory ι α} {link link' : Place ι α → Option α} {p : Place ι α}
  {q r : ι} {w : α} {l xs : List α}

/-- The link of a queue is always there, that of a block as long as the block is. -/
def Place.live (live : α → Bool) : Place ι α → Bool
  | .first _ => true
  | .next w => live w

/-- The links from `p` on lead through the blocks of `l`. -/
def Chain (link : Place ι α → Option α) : Place ι α → List α → Prop
  | _, [] => True
  | p, w :: l => link p = some w ∧ Chain link (.next w) l

/-- The link at the end of `l`. -/
def endFrom : Place ι α → List α → Place ι α
  | p, [] => p
  | _, w :: l => endFrom (.next w) l

/-- The queue is well formed, and its blocks are those of `l`. -/
structure Holds (m : TailMemory ι α) (q : ι) (l : List α) : Prop where
  chain : Chain m.link (.first q) l
  ends : m.link (endFrom (.first q) l) = none
  last : m.last q = endFrom (.first q) l

@[simp] theorem endFrom_snoc : endFrom p (l ++ [w]) = .next w := by
  induction l generalizing p with
  | nil => rfl
  | cons x l ih => exact ih

/-- The link at the end is the first one or that of a block. -/
theorem endFrom_cases (p : Place ι α) (l : List α) :
    endFrom p l = p ∨ ∃ w ∈ l, endFrom p l = .next w := by
  induction l generalizing p with
  | nil => exact .inl rfl
  | cons x l ih =>
    obtain he | ⟨w, hw, he⟩ := ih (.next x)
    · exact .inr ⟨x, List.mem_cons_self, he⟩
    · exact .inr ⟨w, List.mem_cons_of_mem x hw, he⟩

theorem Chain.frame (h : Chain link p l) (here : link' p = link p)
    (same : ∀ w ∈ l, link' (.next w) = link (.next w)) : Chain link' p l := by
  induction l generalizing p with
  | nil => trivial
  | cons x l ih =>
    obtain ⟨hx, hl⟩ := h
    exact ⟨here.trans hx, ih hl (same x List.mem_cons_self) fun w hw =>
      same w (List.mem_cons_of_mem x hw)⟩

/-- The first link shows the first block. -/
theorem Holds.first (h : Holds m q l) : m.link (.first q) = l.head? := by
  cases l with
  | nil => exact h.ends
  | cons w l => exact h.chain.1

/-- The blocks that the links show are one list. -/
theorem Chain.unique {k : List α} (hl : Chain link p l) (hk : Chain link p k)
    (el : link (endFrom p l) = none) (ek : link (endFrom p k) = none) : l = k := by
  induction l generalizing p k with
  | nil =>
    cases k with
    | nil => rfl
    | cons y k => cases el.symm.trans hk.1
  | cons x l ih =>
    cases k with
    | nil => cases hl.1.symm.trans ek
    | cons y k =>
      obtain rfl : x = y := Option.some.inj (hl.1.symm.trans hk.1)
      rw [ih hl.2 hk.2 el ek]

theorem Holds.unique {k : List α} (hl : Holds m q l) (hk : Holds m q k) : l = k :=
  hl.chain.unique hk.chain hl.ends hk.ends

/-- What statements on the queue `q` and the blocks `xs` leave as it is. -/
structure Elsewhere (q : ι) (xs : List α) (m m' : TailMemory ι α) : Prop where
  first : ∀ r ≠ q, m'.link (.first r) = m.link (.first r)
  next : ∀ x ∉ xs, m'.link (.next x) = m.link (.next x)
  last : ∀ r ≠ q, m'.last r = m.last r

theorem Chain.elsewhere (h : Chain m.link (.first r) l) (he : Elsewhere q xs m m') (hr : r ≠ q)
    (hl : ∀ x ∈ l, x ∉ xs) : Chain m'.link (.first r) l :=
  h.frame (he.first r hr) fun w hw => he.next w (hl w hw)

theorem Holds.elsewhere (h : Holds m r l) (he : Elsewhere q xs m m') (hr : r ≠ q)
    (hl : ∀ x ∈ l, x ∉ xs) : Holds m' r l where
  chain := h.chain.elsewhere he hr hl
  ends := by
    refine Eq.trans ?_ h.ends
    obtain hend | ⟨w, hw, hend⟩ := endFrom_cases (.first r) l <;> rw [hend]
    · exact he.first r hr
    · exact he.next w (hl w hw)
  last := (he.last r hr).trans h.last

theorem Elsewhere.trans {m'' : TailMemory ι α} (h : Elsewhere q xs m m') (h' : Elsewhere q xs m' m'') :
    Elsewhere q xs m m'' where
  first r hr := (h'.first r hr).trans (h.first r hr)
  next x hx := (h'.next x hx).trans (h.next x hx)
  last r hr := (h'.last r hr).trans (h.last r hr)

variable [DecidableEq ι]

def TailMemory.setLast (m : TailMemory ι α) (q : ι) (p : Place ι α) : TailMemory ι α :=
  { m with last := Function.update m.last q p }

@[simp] theorem TailMemory.setLast_self : (m.setLast q p).last q = p := Function.update_self ..

theorem Elsewhere.setLast (p : Place ι α) : Elsewhere q xs m (m.setLast q p) where
  first _ _ := rfl
  next _ _ := rfl
  last _ hr := Function.update_of_ne hr ..

variable [DecidableEq α]

namespace TailMemory
variable (v : Option α)

def setLink (m : TailMemory ι α) (p : Place ι α) (v : Option α) : TailMemory ι α :=
  { m with link := Function.update m.link p v }

@[simp] theorem setLink_self : (m.setLink p v).link p = v := Function.update_self ..

theorem setLink_of_ne {p' : Place ι α} (h : p' ≠ p) : (m.setLink p v).link p' = m.link p' :=
  Function.update_of_ne h ..

end TailMemory

/-- The memory after a statement, and the statements that come with it; none if the statement uses
the null pointer or a block that is not live. -/
def Statement.exec (live : α → Bool) (m : TailMemory ι α) :
    Statement ι α → Option (TailMemory ι α × List (Statement ι α))
  | .clearNext w => if live w then some (m.setLink (.next w) none, []) else none
  | .linkLast q w =>
    if (m.last q).live live then some (m.setLink (m.last q) (some w), []) else none
  | .lastToNext q w => some (m.setLast q (.next w), [])
  | .lastToFirst q => some (m.setLast q (.first q), [])
  | .advance q =>
    match m.link (.first q) with
    | none => none
    | some w =>
      if live w then
        some (m.setLink (.first q) (m.link (.next w)),
          if m.link (.next w) = none then [.lastToFirst q] else [])
      else none

/-- A chain grows at its end. -/
theorem Chain.snoc (h : Chain m.link p l) (nodup : l.Nodup) (outside : ∀ x ∈ l, p ≠ .next x) :
    Chain (m.setLink (endFrom p l) (some w)).link p (l ++ [w]) := by
  induction l generalizing p with
  | nil => exact ⟨m.setLink_self _, trivial⟩
  | cons x l ih =>
    obtain ⟨hx, hl⟩ := h
    obtain ⟨hnot, hnd⟩ := List.nodup_cons.mp nodup
    have apart : p ≠ endFrom (.next x) l := by
      obtain he | ⟨y, hy, he⟩ := endFrom_cases (Place.next x : Place ι α) l <;> rw [he]
      · exact outside x List.mem_cons_self
      · exact outside y (List.mem_cons_of_mem x hy)
    exact ⟨(m.setLink_of_ne _ apart).trans hx, ih hl hnd fun y hy hxy => hnot (Place.next.inj hxy ▸ hy)⟩

theorem Elsewhere.setFirst (v : Option α) : Elsewhere q xs m (m.setLink (.first q) v) where
  first _ hr := m.setLink_of_ne v fun h => hr (Place.first.inj h)
  next _ _ := m.setLink_of_ne v (by simp)
  last _ _ := rfl

theorem Elsewhere.setNext (hw : w ∈ xs) (v : Option α) : Elsewhere q xs m (m.setLink (.next w) v) where
  first _ _ := m.setLink_of_ne v (by simp)
  next _ hx := m.setLink_of_ne v fun h => hx (Place.next.inj h ▸ hw)
  last _ _ := rfl

end PthreadWorkqueue.Memory
