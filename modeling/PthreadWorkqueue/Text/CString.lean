import Mathlib

/-! C strings in arrays of bytes. A pointer is the part of the array from the place that it points to,
and a function that would read past the end of the array has no value. -/
namespace PthreadWorkqueue.Text

abbrev Bytes := List UInt8

/-- The codes of some ASCII characters. -/
def ascii (cs : List Char) : Bytes := cs.map fun c => UInt8.ofNat c.toNat

/-- `isspace` in the C locale. -/
def isSpace (b : UInt8) : Bool := b == 32 || (9 ≤ b && b ≤ 13)

def isDigit (b : UInt8) : Bool := 48 ≤ b && b ≤ 57

/-- The value of a run of digits. -/
def decimal (ds : Bytes) : Nat := ds.foldl (fun n d => 10 * n + (d.toNat - 48)) 0

/-- The string before the first NUL. -/
def cstr (s : Bytes) : Bytes := s.takeWhile fun b => b != 0

/-- `strstr`: the first occurrence before the first NUL. -/
def strstr (needle : Bytes) : Bytes → Option (Option Bytes)
  | [] => none
  | b :: s => if needle.isPrefixOf (b :: s) then some (some (b :: s))
    else if b = 0 then some none
    else strstr needle s

/-- The first occurrence in an array, whatever else is in it. -/
def search (needle : Bytes) : Bytes → Option Bytes
  | [] => none
  | b :: s => if needle.isPrefixOf (b :: s) then some (b :: s) else search needle s

/-- An optional sign, digits, and what comes after them. -/
structure Numeral where
  negative : Bool
  digits : Bytes
  rest : Bytes
  deriving DecidableEq, Repr

/-- The number at a place, after white space. -/
def numeral (s : Bytes) : Numeral :=
  match s.dropWhile isSpace with
  | [] => ⟨false, [], []⟩
  | b :: s =>
    if b = 45 then ⟨true, s.takeWhile isDigit, s.dropWhile isDigit⟩
    else if b = 43 then ⟨false, s.takeWhile isDigit, s.dropWhile isDigit⟩
    else ⟨false, (b :: s).takeWhile isDigit, (b :: s).dropWhile isDigit⟩

/-- What `strtol` makes of a number, for a `long` of 64 bits. -/
def Numeral.value (n : Numeral) : Int :=
  if n.negative then max (-decimal n.digits) (-2 ^ 63) else min (decimal n.digits) (2 ^ 63 - 1)

/-- `atoi`: the `long` that `strtol` returns, as an `int`. -/
def atoi (s : Bytes) : Option Int32 :=
  if (numeral s).rest = [] then none else some (Int32.ofInt (numeral s).value)

/-- The directive `%d` of `sscanf`: the rest of the string after it. -/
def scanInt (s : Bytes) : Option Bytes :=
  if (numeral s).digits = [] then none else some (numeral s).rest

/-- White space in a format of `sscanf`. -/
def scanSpace (s : Bytes) : Bytes := s.dropWhile isSpace

/-- The directive `%s` of `sscanf`. -/
def scanWord (s : Bytes) : Option Bytes :=
  if scanSpace s = [] then none else some ((scanSpace s).dropWhile fun b => !isSpace b)

/-- The directive `%c` of `sscanf`. -/
def scanChar (s : Bytes) : Option UInt8 := s.head?

section Append
variable {p : UInt8 → Bool} {s r needle q : Bytes}

/-- A run that ends in the first part of an array is not continued in the second. -/
theorem span_append (h : s.dropWhile p ≠ []) :
    (s ++ r).takeWhile p = s.takeWhile p ∧ (s ++ r).dropWhile p = s.dropWhile p ++ r := by
  constructor
  · rw [List.takeWhile_append, if_neg]
    intro hlen
    have hsum := congrArg List.length (List.takeWhile_append_dropWhile (p := p) (l := s))
    rw [List.length_append, hlen] at hsum
    exact h (List.eq_nil_of_length_eq_zero (by omega))
  · rw [List.dropWhile_append, if_neg]
    simpa using h

/-- A number that ends in the first part of an array does not depend on the second. -/
theorem numeral_append (h : (numeral s).rest ≠ []) :
    numeral (s ++ r) = ⟨(numeral s).negative, (numeral s).digits, (numeral s).rest ++ r⟩ := by
  unfold numeral at h ⊢
  rw [List.dropWhile_append]
  cases hs : s.dropWhile isSpace with
  | nil =>
    rw [hs] at h
    exact absurd rfl h
  | cons b t =>
    rw [hs] at h
    simp only [List.isEmpty_cons, Bool.false_eq_true, if_false, List.cons_append] at h ⊢
    split
    · rw [if_pos ‹_›] at h
      rw [(span_append h).1, (span_append h).2]
    · rw [if_neg ‹_›] at h
      split
      · rw [if_pos ‹_›] at h
        rw [(span_append h).1, (span_append h).2]
      · rw [if_neg ‹_›] at h
        rw [← List.cons_append, (span_append h).1, (span_append h).2]

/-- A digit is neither white space nor a sign. -/
theorem not_space_of_digit {b : UInt8} (h : isDigit b = true) :
    isSpace b = false ∧ b ≠ 45 ∧ b ≠ 43 := by
  simp only [isDigit, isSpace, Bool.and_eq_true, decide_eq_true_eq, Bool.or_eq_false_iff,
    beq_eq_false_iff_ne, Bool.and_eq_false_iff, decide_eq_false_iff_not, UInt8.le_iff_toNat_le,
    ← UInt8.toNat_inj, ne_eq] at h ⊢
  simp only [UInt8.reduceToNat] at h ⊢
  omega

/-- The number at a digit. -/
theorem numeral_of_digit (h : s.head?.any isDigit = true) :
    numeral s = ⟨false, s.takeWhile isDigit, s.dropWhile isDigit⟩ := by
  cases s with
  | nil => cases h
  | cons b s =>
    obtain ⟨hspace, hminus, hplus⟩ := not_space_of_digit (b := b) h
    simp only [numeral, List.dropWhile_cons_of_neg (l := s) (by simp [hspace] : ¬ isSpace b = true),
      if_neg hminus, if_neg hplus]

/-- A number that does not end in the first part of an array is continued by digits in the second. -/
theorem numeral_append_digits (h : (numeral s).rest = []) (hr : ∀ b ∈ r, isDigit b = true) :
    (numeral (s ++ r)).rest = [] := by
  have all : ∀ {u : Bytes}, u.dropWhile isDigit = [] → (u ++ r).dropWhile isDigit = [] := by
    intro u hu
    rw [List.dropWhile_append_of_pos (List.dropWhile_eq_nil_iff.mp hu)]
    exact List.dropWhile_eq_nil_iff.mpr hr
  unfold numeral at h ⊢
  rw [List.dropWhile_append]
  cases hs : s.dropWhile isSpace with
  | nil =>
    rw [if_pos List.isEmpty_nil]
    cases r with
    | nil => rfl
    | cons b t =>
      obtain ⟨hspace, hminus, hplus⟩ := not_space_of_digit (hr b List.mem_cons_self)
      rw [List.dropWhile_cons_of_neg (by simp [hspace])]
      simp only [if_neg hminus, if_neg hplus]
      exact List.dropWhile_eq_nil_iff.mpr hr
  | cons b t =>
    rw [hs] at h
    simp only [List.isEmpty_cons, Bool.false_eq_true, if_false, List.cons_append] at h ⊢
    split
    · rw [if_pos ‹_›] at h
      exact all h
    · rw [if_neg ‹_›] at h
      split
      · rw [if_pos ‹_›] at h
        exact all h
      · rw [if_neg ‹_›] at h
        exact all h

theorem length_le_of_strstr (h : strstr needle s = some (some q)) :
    needle.length ≤ q.length ∧ q.length ≤ s.length := by
  induction s with
  | nil => cases h
  | cons b s ih =>
    unfold strstr at h
    split at h
    · cases h
      exact ⟨(List.isPrefixOf_iff_prefix.mp ‹_›).length_le, Nat.le_refl _⟩
    · split at h
      · cases h
      · exact ⟨(ih h).1, Nat.le_succ_of_le (ih h).2⟩

/-- An occurrence in the first part of an array is found whatever comes after it. -/
theorem strstr_append_found (h : strstr needle s = some (some q)) :
    strstr needle (s ++ r) = some (some (q ++ r)) := by
  induction s with
  | nil => cases h
  | cons b s ih =>
    have hlen := length_le_of_strstr h
    unfold strstr at h
    rw [List.cons_append, strstr, ← List.cons_append]
    by_cases hp : needle.isPrefixOf (b :: s)
    · rw [if_pos hp] at h
      cases h
      rw [if_pos]
      exact List.isPrefixOf_iff_prefix.mpr
        (List.prefix_append_of_prefix (List.isPrefixOf_iff_prefix.mp hp))
    · have hnot : ¬ needle.isPrefixOf ((b :: s) ++ r) := by
        rw [List.isPrefixOf_iff_prefix] at hp ⊢
        exact fun hq => hp (List.prefix_of_prefix_length_le hq (List.prefix_append _ _)
          (Nat.le_trans hlen.1 hlen.2))
      rw [if_neg hp] at h
      rw [if_neg hnot]
      split
      · rw [if_pos ‹_›] at h
        cases h
      · rw [if_neg ‹_›] at h
        exact ih h

/-- A match that goes beyond the first part of an array covers the end of that part. -/
private theorem prefix_append_cases (h : needle <+: s ++ r) :
    needle <+: s ∨ ∃ t, needle = s ++ t ∧ t <+: r := by
  rcases List.prefix_or_prefix_of_prefix h (List.prefix_append s r) with h' | ⟨t, rfl⟩
  · exact .inl h'
  · exact .inr ⟨t, rfl, (List.prefix_append_right_inj s).mp h⟩

/-- A NUL in the first part of an array ends the search. -/
theorem strstr_append_ended (hn : 0 ∉ needle) (h : strstr needle s = some none) :
    strstr needle (s ++ r) = some none ∧ 0 ∈ s := by
  induction s with
  | nil => cases h
  | cons b s ih =>
    unfold strstr at h
    rw [List.cons_append, strstr, ← List.cons_append]
    split at h
    · cases h
    · rename_i hp
      have hmem : 0 ∈ b :: s := by
        split at h
        · subst b
          exact List.mem_cons_self
        · exact List.mem_cons_of_mem _ (ih h).2
      have hnot : ¬ needle.isPrefixOf ((b :: s) ++ r) := by
        rw [List.isPrefixOf_iff_prefix] at hp ⊢
        intro hq
        rcases prefix_append_cases hq with hq | ⟨t, rfl, -⟩
        · exact hp hq
        · exact hn (List.mem_append_left _ hmem)
      rw [if_neg hnot]
      refine ⟨?_, hmem⟩
      split
      · rfl
      · rw [if_neg ‹_›] at h
        exact (ih h).1

/-- Without a NUL and without an occurrence the search goes on, and bytes that are not searched for do
not end it. -/
theorem strstr_append_none (hn : needle ≠ []) (hr : ∀ b ∈ r, b ≠ 0 ∧ b ∉ needle)
    (h : strstr needle s = none) : strstr needle (s ++ r) = none := by
  induction s with
  | nil =>
    clear h
    rw [List.nil_append]
    induction r with
    | nil => rfl
    | cons b r ih =>
      obtain ⟨hb, hmem⟩ := hr b List.mem_cons_self
      have hnot : ¬ needle.isPrefixOf (b :: r) := by
        rw [List.isPrefixOf_iff_prefix]
        intro hq
        obtain ⟨a, u, rfl⟩ := List.exists_cons_of_ne_nil hn
        rw [(List.cons_prefix_cons.mp hq).1] at hmem
        exact hmem List.mem_cons_self
      rw [strstr, if_neg hnot, if_neg hb]
      exact ih fun c hc => hr c (List.mem_cons_of_mem _ hc)
  | cons b s ih =>
    unfold strstr at h
    split at h
    · cases h
    · rename_i hp
      split at h
      · cases h
      · rename_i hb
        have hnot : ¬ needle.isPrefixOf ((b :: s) ++ r) := by
          rw [List.isPrefixOf_iff_prefix] at hp ⊢
          intro hq
          rcases prefix_append_cases hq with hq | ⟨t, rfl, ht⟩
          · exact hp hq
          · cases t with
            | nil => exact hp ⟨[], by simp⟩
            | cons c t =>
              exact (hr c (ht.subset List.mem_cons_self)).2
                (List.mem_append_right _ List.mem_cons_self)
        rw [List.cons_append, strstr, ← List.cons_append, if_neg hnot, if_neg hb]
        exact ih h

/-- Where a string occurs first and goes on in a certain way, the longer string occurs first. -/
theorem search_of_strstr {c : UInt8} (h : strstr needle s = some (some q))
    (hc : q[needle.length]? = some c) : search (needle ++ [c]) s = some q := by
  induction s with
  | nil => cases h
  | cons b s ih =>
    unfold strstr at h
    rw [search]
    by_cases hp : needle.isPrefixOf (b :: s)
    · rw [if_pos hp] at h
      cases h
      rw [if_pos]
      obtain ⟨t, ht⟩ := List.isPrefixOf_iff_prefix.mp hp
      rw [← ht] at hc ⊢
      rw [List.isPrefixOf_iff_prefix, List.prefix_append_right_inj]
      rw [List.getElem?_append_right (Nat.le_refl _), Nat.sub_self] at hc
      cases t with
      | nil => cases hc
      | cons d t =>
        cases hc
        exact List.cons_prefix_cons.mpr ⟨rfl, List.nil_prefix⟩
    · have hnot : ¬ (needle ++ [c]).isPrefixOf (b :: s) := by
        rw [List.isPrefixOf_iff_prefix] at hp ⊢
        exact fun hq => hp ((List.prefix_append _ _).trans hq)
      rw [if_neg hp] at h
      rw [if_neg hnot]
      split at h
      · cases h
      · exact ih h

end Append

end PthreadWorkqueue.Text
