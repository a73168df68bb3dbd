import PthreadWorkqueue.Text.CString

/-! The length of the run queue on Linux, from the contents of /proc/stat. The buffer is not
initialised, and the read does not terminate it. -/
namespace PthreadWorkqueue.Linux
open Text

/-- "procs_running" -/
def procsRunning : Bytes :=
  ascii ['p', 'r', 'o', 'c', 's', '_', 'r', 'u', 'n', 'n', 'i', 'n', 'g']

/-- The size of the buffer. -/
def bufSize : Nat := 16384

/-- What a call meets at /proc/stat. -/
inductive ProcStat where
  | openFails
  | readFails
  | data (bytes : Bytes)

/-- `linux_get_runqueue_length` with some contents of the buffer before the read. -/
def linuxGetRunqueueLength (buf : Bytes) : ProcStat → Option UInt32
  | .openFails | .readFails => some 1
  | .data bytes =>
    (strstr procsRunning (bytes ++ buf.drop bytes.length)).bind fun p =>
      (p.elim (some 0) fun p => (atoi (p.drop 14)).map Int32.toUInt32).map fun runqsz =>
        if runqsz = 0 then 1 else runqsz

/-- The decimal number that follows "procs_running " in some bytes if it occurs there and is not zero,
and one otherwise. -/
def runningIn (bytes : Bytes) : Nat :=
  match search (procsRunning ++ ascii [' ']) bytes with
  | some q =>
    let n := decimal ((q.drop 14).takeWhile isDigit)
    if n = 0 then 1 else n
  | none => 1

/-- The number as an `unsigned int`: it is cut off at 64 bits, and then taken modulo 2^32. -/
def word (n : Numeral) : Nat :=
  if n.negative then (2 ^ 32 - min (decimal n.digits) (2 ^ 63) % 2 ^ 32) % 2 ^ 32
  else min (decimal n.digits) (2 ^ 63 - 1) % 2 ^ 32

/-- The bytes that a call reads are enough for it, and mean to it what they say. -/
def Sufficient (bytes : Bytes) : Prop :=
  match strstr procsRunning bytes with
  | none => False
  | some none => runningIn bytes = 1
  | some (some q) => (numeral (q.drop 14)).rest ≠ [] ∧
    if q[13]? = some 32 then
      -- `atoi` also skips white space and takes a sign, where the bytes give no number
      if (q[14]?).any isDigit then decimal (numeral (q.drop 14)).digits < 2 ^ 32
      else word (numeral (q.drop 14)) ≤ 1
    else max 1 (word (numeral (q.drop 14))) = runningIn bytes

variable {bytes q buf : Bytes}

/-- The `unsigned int` that an `int` from a `long` becomes. -/
theorem toNat_ofInt (z : Int) : (Int32.ofInt z).toUInt32.toNat = (z % 2 ^ 32).toNat :=
  BitVec.toNat_ofInt z

/-- The bytes decide the call if the keyword is in them and the number ends in them. -/
theorem length_of_found (buf : Bytes) (h : strstr procsRunning bytes = some (some q))
    (hrest : (numeral (q.drop 14)).rest ≠ []) :
    linuxGetRunqueueLength buf (.data bytes) =
      some (if (Int32.ofInt (numeral (q.drop 14)).value).toUInt32 = 0 then 1
        else (Int32.ofInt (numeral (q.drop 14)).value).toUInt32) := by
  have hlen : 14 ≤ q.length := by
    by_contra hlt
    rw [List.drop_eq_nil_of_le (by omega)] at hrest
    exact hrest rfl
  rw [linuxGetRunqueueLength, strstr_append_found h, Option.bind_some, Option.elim_some,
    List.drop_append_of_le_length hlen, atoi, numeral_append hrest,
    if_neg (List.append_ne_nil_of_left_ne_nil hrest _)]
  rfl

/-- The bytes decide the call if a NUL in them ends the search. -/
theorem length_of_ended (h : strstr procsRunning bytes = some none) :
    linuxGetRunqueueLength buf (.data bytes) = some 1 := by
  rw [linuxGetRunqueueLength, (strstr_append_ended (by decide) h).1]
  rfl

/-- A buffer full of digits leads every other call beyond its end. -/
theorem length_of_digits
    (h : strstr procsRunning bytes = none ∨ ∃ q, strstr procsRunning bytes = some (some q) ∧
      (numeral (q.drop 14)).rest = []) :
    linuxGetRunqueueLength (List.replicate bufSize 48) (.data bytes) = none := by
  have hdigit : ∀ k, ∀ b ∈ (List.replicate bufSize (48 : UInt8)).drop k, b = 48 := fun k b hb =>
    List.eq_of_mem_replicate (List.mem_of_mem_drop hb)
  rw [linuxGetRunqueueLength]
  rcases h with h | ⟨q, h, hrest⟩
  · rw [strstr_append_none (by decide) (fun b hb => ?_) h, Option.bind_none]
    rw [hdigit _ b hb]
    decide
  · rw [strstr_append_found h, Option.bind_some, Option.elim_some, List.drop_append, atoi,
      numeral_append_digits hrest fun b hb => ?_, if_pos rfl]
    · rfl
    · rw [hdigit _ b (List.mem_of_mem_drop hb)]
      decide +kernel

/-- The result of a call is never zero. -/
theorem toNat_result (u : UInt32) : (if u = 0 then 1 else u).toNat = max 1 u.toNat := by
  split
  · subst u
    rfl
  · have : u.toNat ≠ 0 := fun h => ‹¬ u = 0› (UInt32.toNat_inj.mp h)
    omega

/-- What `atoi` makes of a number, as an `unsigned int`. -/
theorem toNat_value (n : Numeral) : (Int32.ofInt n.value).toUInt32.toNat = word n := by
  rw [toNat_ofInt, Numeral.value, word]
  split
  · omega
  · omega

/-- What a call makes of a number without a sign is the number exactly if it is an `unsigned int`. -/
private theorem word_eq_iff {ds r : Bytes} :
    max 1 (word ⟨false, ds, r⟩) = (if decimal ds = 0 then 1 else decimal ds) ↔
      decimal ds < 2 ^ 32 := by
  simp only [word, Bool.false_eq_true, if_false]
  constructor
  · split <;> omega
  · split <;> omega

/-- When the number at the keyword is the one that the bytes give. -/
private theorem length_iff_of_found (h : strstr procsRunning bytes = some (some q)) :
    max 1 (word (numeral (q.drop 14))) = runningIn bytes ↔
      if q[13]? = some 32 then
        if (q[14]?).any isDigit then decimal (numeral (q.drop 14)).digits < 2 ^ 32
        else word (numeral (q.drop 14)) ≤ 1
      else max 1 (word (numeral (q.drop 14))) = runningIn bytes := by
  by_cases hc : q[13]? = some 32
  · rw [if_pos hc]
    have hrun : runningIn bytes = if decimal ((q.drop 14).takeWhile isDigit) = 0 then 1
        else decimal ((q.drop 14).takeWhile isDigit) := by
      rw [runningIn, show ascii [' '] = [32] from rfl, search_of_strstr h hc]
    have hhead : (q.drop 14).head? = q[14]? := List.head?_drop
    rw [hrun, ← hhead]
    by_cases hd : (q.drop 14).head?.any isDigit = true
    · rw [if_pos hd, numeral_of_digit hd]
      exact word_eq_iff
    · rw [if_neg hd]
      have hnil : (q.drop 14).takeWhile isDigit = [] := by
        cases hq : q.drop 14 with
        | nil => rfl
        | cons b t =>
          rw [hq] at hd
          exact List.takeWhile_cons_of_neg hd
      rw [hnil]
      exact max_eq_left_iff
  · rw [if_neg hc]

/-- For all bytes that a read can return, the calls agree and return the number of running processes
exactly if the bytes are sufficient. -/
theorem running_processes_iff (bytes : Bytes) :
    (∀ buf : Bytes, buf.length = bufSize → ∃ v, linuxGetRunqueueLength buf (.data bytes) = some v ∧
      v.toNat = runningIn bytes) ↔ Sufficient bytes := by
  have hdigits : (List.replicate bufSize (48 : UInt8)).length = bufSize := List.length_replicate
  unfold Sufficient
  split
  · -- nothing ends the search
    refine iff_of_false (fun h => ?_) not_false
    obtain ⟨v, hv, -⟩ := h _ hdigits
    rw [length_of_digits (.inl ‹_›)] at hv
    cases hv
  · -- a NUL ends it
    rename_i h
    constructor
    · intro hall
      obtain ⟨v, hv, hval⟩ := hall _ hdigits
      rw [length_of_ended h] at hv
      cases hv
      exact hval.symm
    · intro hone buf _
      exact ⟨1, length_of_ended h, hone.symm⟩
  · rename_i q h
    by_cases hrest : (numeral (q.drop 14)).rest = []
    · refine iff_of_false (fun hall => ?_) fun hs => hs.1 hrest
      obtain ⟨v, hv, -⟩ := hall _ hdigits
      rw [length_of_digits (.inr ⟨q, h, hrest⟩)] at hv
      cases hv
    · rw [and_iff_right hrest, ← length_iff_of_found h]
      constructor
      · intro hall
        obtain ⟨v, hv, hval⟩ := hall _ hdigits
        rw [length_of_found _ h hrest] at hv
        cases hv
        rwa [toNat_result, toNat_value] at hval
      · intro hval buf _
        refine ⟨_, length_of_found buf h hrest, ?_⟩
        rwa [toNat_result, toNat_value]

/-- Without the keyword the bytes that were in the buffer before the read decide. -/
theorem running_processes_of_residue :
    let bytes := ascii ['c', 'p', 'u', ' ', '0']
    let buf := bytes ++ procsRunning ++ ascii [' ', '7'] ++ List.replicate 16364 0
    buf.length = bufSize ∧ (List.replicate bufSize (0 : UInt8)).length = bufSize ∧
      linuxGetRunqueueLength buf (.data bytes) = some 7 ∧
      linuxGetRunqueueLength (List.replicate bufSize 0) (.data bytes) = some 1 := by
  refine ⟨?_, List.length_replicate, ?_, ?_⟩
  · rw [List.length_append, List.length_replicate]
    rfl
  · decide +kernel
  · decide +kernel

end PthreadWorkqueue.Linux
