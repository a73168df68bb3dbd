import PthreadWorkqueue.Text.CString

/-! The states of the threads, from the stat files under /proc/self/task. -/
namespace PthreadWorkqueue.Linux
open Text

/-- The system call of `_read_file` that fails. -/
inductive ReadError where
  | openFails
  | fcntlFails
  | readFails
  deriving DecidableEq, Repr

def maxResultSize : Nat := 4096

/-- `_read_file` into a buffer of zeros: what the buffer holds if it returns 0. A `read` that fails is
not told from one that succeeds. -/
def readFile : Except ReadError Bytes → Option Bytes
  | .error .openFails | .error .fcntlFails => none
  | .error .readFails => some []
  | .ok bytes => if bytes = [] then none else some (bytes.take maxResultSize)

/-- `sscanf` with the format "%d %s %c": the character. -/
def scanState (s : Bytes) : Option UInt8 := do
  let s ← scanInt s
  let s ← scanWord (scanSpace s)
  scanChar (scanSpace s)

/-- The state that `threads_runnable` gets from a file. -/
def seenState (file : Except ReadError Bytes) : Option UInt8 :=
  (readFile file).bind fun data => scanState (cstr data)

/-- One round of the loop: the threads that are running, and all. -/
def countEntry (counts : Nat × Nat) (file : Except ReadError Bytes) : Nat × Nat :=
  match seenState file with
  | some state => (if state = 82 then counts.1 + 1 else counts.1, counts.2 + 1)
  | none => counts

/-- The stat file "<tid> (<comm>) <state> ..." of a thread. -/
structure Stat where
  tid : Bytes
  comm : Bytes
  state : UInt8
  fields : Bytes
  tid_pos : tid ≠ []
  tid_length : tid.length ≤ 10
  tid_digits : ∀ b ∈ tid, isDigit b = true
  comm_length : comm.length ≤ 15
  comm_string : 0 ∉ comm
  state_letter : isSpace state = false ∧ state ≠ 0

def Stat.bytes (s : Stat) : Bytes :=
  s.tid ++ (ascii [' ', '('] ++ (s.comm ++ (ascii [')', ' '] ++ s.state :: s.fields)))

/-- The thread is running. -/
def Stat.running (s : Stat) : Bool := s.state == 82

/-- A name that `readdir` returns. -/
inductive Name where
  | dot
  | dotdot
  | tid (n : Nat)
  deriving DecidableEq, Repr

def Name.isThread : Name → Bool
  | .tid _ => true
  | _ => false

/-- What is at `/proc/self/task/<name>/stat` for each name. -/
structure TaskDir where
  dot : Except ReadError Bytes
  dotdot : Except ReadError Bytes
  thread : Nat → Except ReadError Stat

def TaskDir.file (dir : TaskDir) : Name → Except ReadError Bytes
  | .dot => dir.dot
  | .dotdot => dir.dotdot
  | .tid n => (dir.thread n).map Stat.bytes

/-- `threads_runnable`: `*threads_running` and `*threads_total`; the names are none if `opendir`
fails. -/
def threadsRunnable (dir : TaskDir) (names : Option (List Name)) : Option (Nat × Nat) :=
  names.map fun names => names.foldl (fun counts name => countEntry counts (dir.file name)) (0, 0)

/-- The stat files of threads that are read. -/
def TaskDir.stats (dir : TaskDir) (names : List Name) : List Stat :=
  names.filterMap fun name => match name with
    | .tid n => (dir.thread n).toOption
    | _ => none

/-- The character that follows the first white space of a name and the white space after it. -/
def Stat.apparent (s : Stat) : UInt8 :=
  (((s.comm.dropWhile fun b => !isSpace b).dropWhile isSpace).head?).getD 41

/-- There is white space in the name. -/
def Stat.spaced (s : Stat) : Bool := s.comm.any isSpace

/-- The string that is scanned begins like the file. -/
theorem cstr_stat (s : Stat) : ∃ fields, cstr (s.bytes.take maxResultSize) =
    s.tid ++ 32 :: 40 :: (s.comm ++ 41 :: 32 :: s.state :: fields) := by
  have hsplit : s.bytes = (s.tid ++ 32 :: 40 :: (s.comm ++ [41, 32, s.state])) ++ s.fields := by
    simp [Stat.bytes, ascii]
  have hlen : (s.tid ++ 32 :: 40 :: (s.comm ++ [41, 32, s.state])).length ≤ maxResultSize := by
    have := s.tid_length
    have := s.comm_length
    simp only [List.length_append, List.length_cons, List.length_nil, maxResultSize]
    omega
  have hnul : ∀ b ∈ s.tid ++ 32 :: 40 :: (s.comm ++ [41, 32, s.state]), (b != 0) = true := by
    intro b hb
    rw [bne_iff_ne]
    rintro rfl
    simp only [List.mem_append, List.mem_cons, List.not_mem_nil, or_false] at hb
    rcases hb with hb | hb | hb | hb | hb | hb | hb
    · exact absurd (s.tid_digits 0 hb) (by decide)
    · cases hb
    · cases hb
    · exact s.comm_string hb
    · cases hb
    · cases hb
    · exact s.state_letter.2 hb.symm
  rw [hsplit, List.take_append, List.take_of_length_le hlen, cstr, List.takeWhile_append_of_pos hnul]
  generalize List.takeWhile _ (List.take _ s.fields) = fields
  exact ⟨fields, by simp⟩

/-- What is scanned after the thread's number. -/
theorem scan_comm (s : Stat) (fields : Bytes) :
    (scanWord (40 :: (s.comm ++ 41 :: 32 :: s.state :: fields))).bind
      (fun r => scanChar (scanSpace r)) = some (if s.spaced then s.apparent else s.state) := by
  have hword : scanWord (40 :: (s.comm ++ 41 :: 32 :: s.state :: fields)) =
      some ((s.comm ++ 41 :: 32 :: s.state :: fields).dropWhile fun b => !isSpace b) := rfl
  rw [hword, Option.bind_some, List.dropWhile_append]
  cases hs : s.spaced with
  | false =>
    have hnil : (s.comm.dropWhile fun b => !isSpace b) = [] := by
      rw [List.dropWhile_eq_nil_iff]
      simpa [Stat.spaced] using hs
    rw [hnil, List.isEmpty_nil, if_pos rfl, if_neg (by simp)]
    change scanChar (scanSpace (32 :: s.state :: fields)) = some s.state
    rw [scanSpace, List.dropWhile_cons_of_pos rfl, List.dropWhile_cons_of_neg]
    · rfl
    · simp [s.state_letter.1]
  | true =>
    have hne : (s.comm.dropWhile fun b => !isSpace b) ≠ [] := by
      rw [Ne, List.dropWhile_eq_nil_iff]
      simpa [Stat.spaced] using hs
    rw [if_neg (by simpa using hne), if_pos rfl, Stat.apparent, scanSpace, List.dropWhile_append]
    cases hr : (s.comm.dropWhile fun b => !isSpace b).dropWhile isSpace with
    | nil => rfl
    | cons b t => rfl

theorem seenState_stat (s : Stat) :
    seenState (.ok s.bytes) = some (if s.spaced then s.apparent else s.state) := by
  obtain ⟨fields, hf⟩ := cstr_stat s
  have hne : s.bytes ≠ [] := List.append_ne_nil_of_left_ne_nil s.tid_pos _
  have hdrop : (s.tid ++ 32 :: 40 :: (s.comm ++ 41 :: 32 :: s.state :: fields)).dropWhile isDigit =
      32 :: 40 :: (s.comm ++ 41 :: 32 :: s.state :: fields) := by
    rw [List.dropWhile_append_of_pos s.tid_digits]
    rfl
  have htake : (s.tid ++ 32 :: 40 :: (s.comm ++ 41 :: 32 :: s.state :: fields)).takeWhile isDigit =
      s.tid := by
    rw [List.takeWhile_append_of_pos s.tid_digits]
    exact List.append_nil _
  have hhead : (s.tid ++ 32 :: 40 :: (s.comm ++ 41 :: 32 :: s.state :: fields)).head?.any isDigit =
      true := by
    cases ht : s.tid with
    | nil => exact absurd ht s.tid_pos
    | cons b t => exact s.tid_digits b (ht ▸ List.mem_cons_self)
  rw [seenState, readFile, if_neg hne, Option.bind_some, hf, scanState, scanInt,
    numeral_of_digit hhead, htake, hdrop, if_neg s.tid_pos]
  exact scan_comm s fields

/-- A file that does not belong to a thread but from which a state is scanned. -/
def TaskDir.strays (dir : TaskDir) (names : List Name) : List UInt8 :=
  names.filterMap fun name => if name.isThread then none else seenState (dir.file name)

variable {dir : TaskDir} {names : List Name} {counts : Nat × Nat}

/-- What the loop counts: the states that are scanned. -/
theorem foldl_countEntry (files : List (Except ReadError Bytes)) :
    files.foldl countEntry counts =
      (counts.1 + (files.filterMap seenState).count 82,
        counts.2 + (files.filterMap seenState).length) := by
  induction files generalizing counts with
  | nil => rfl
  | cons f files ih =>
    rw [List.foldl_cons, ih, countEntry, List.filterMap_cons]
    cases seenState f with
    | none => rfl
    | some state =>
      simp only [List.count_cons, List.length_cons, beq_iff_eq]
      split <;> simp only [Prod.mk.injEq] <;> omega

/-- The state that is scanned from the stat file of a thread. -/
def Stat.seen (s : Stat) : UInt8 := if s.spaced then s.apparent else s.state

theorem seenState_error (e : ReadError) : seenState (.error e) = none := by
  cases e <;> rfl

/-- The states that are scanned are those of the threads and the strays. -/
theorem seen_perm (dir : TaskDir) (names : List Name) :
    ((names.map dir.file).filterMap seenState).Perm
      ((dir.stats names).map Stat.seen ++ dir.strays names) := by
  induction names with
  | nil => exact .nil
  | cons name names ih =>
    rw [List.map_cons, List.filterMap_cons, TaskDir.stats, TaskDir.strays, List.filterMap_cons,
      List.filterMap_cons]
    cases name with
    | tid n =>
      cases hn : dir.thread n with
      | error e =>
        simp only [TaskDir.file, hn, Except.map, seenState_error, Except.toOption]
        exact ih
      | ok s =>
        simp only [TaskDir.file, hn, Except.map, seenState_stat, Except.toOption, List.map_cons,
          List.cons_append]
        exact ih.cons _
    | dot | dotdot =>
      simp only [Name.isThread]
      cases seenState (dir.file _) with
      | none => exact ih
      | some state => exact (ih.cons state).trans List.perm_middle.symm

/-- Two properties hold equally often exactly if each holds equally often without the other. -/
theorem countP_eq_iff {α : Type} (P Q : α → Bool) (l : List α) : l.countP P = l.countP Q ↔
    l.countP (fun a => P a && !Q a) = l.countP (fun a => Q a && !P a) := by
  suffices h : l.countP P + l.countP (fun a => Q a && !P a) =
      l.countP Q + l.countP (fun a => P a && !Q a) by omega
  induction l with
  | nil => rfl
  | cons a l ih =>
    simp only [List.countP_cons]
    cases P a <;> cases Q a <;> simp <;> omega

/-- A thread is seen in another state than its own only if there is white space in its name. -/
theorem seen_running (s : Stat) :
    (s.seen == 82 && !s.running) = (s.spaced && s.apparent == 82 && !s.running) ∧
      (s.running && !(s.seen == 82)) = (s.spaced && s.apparent != 82 && s.running) := by
  unfold Stat.seen Stat.running
  cases s.spaced with
  | true => simp [Bool.and_comm, bne]
  | false => simp

/-- For every set of threads the two counts are right exactly if no other name leads to a stat file,
and if as many threads look as if they were running because of white space in their names as do not
look so. -/
theorem threads_runnable_iff (dir : TaskDir) (names : List Name) :
    threadsRunnable dir (some names) =
        some ((dir.stats names).countP Stat.running, (dir.stats names).length) ↔
      dir.strays names = [] ∧
        ((dir.stats names).countP fun s => s.spaced && s.apparent == 82 && !s.running) =
          (dir.stats names).countP fun s => s.spaced && s.apparent != 82 && s.running := by
  have hperm := seen_perm dir names
  have hcode : threadsRunnable dir (some names) =
      some ((dir.stats names).countP (fun s => s.seen == 82) + (dir.strays names).count 82,
        (dir.stats names).length + (dir.strays names).length) := by
    rw [threadsRunnable, Option.map_some, ← List.foldl_map, foldl_countEntry, hperm.count_eq,
      hperm.length_eq, List.count_append, List.length_append, List.length_map, Nat.zero_add,
      Nat.zero_add, List.count_eq_countP, List.countP_map]
    rfl
  have hmis := countP_eq_iff (fun s => s.seen == 82) Stat.running (dir.stats names)
  simp only [(seen_running _).1, (seen_running _).2] at hmis
  rw [hcode, Option.some.injEq, Prod.mk.injEq, ← hmis]
  constructor
  · rintro ⟨hrun, htotal⟩
    have hnil : dir.strays names = [] := List.eq_nil_of_length_eq_zero (by omega)
    rw [hnil] at hrun
    exact ⟨hnil, hrun⟩
  · rintro ⟨hnil, hrun⟩
    rw [hnil]
    exact ⟨hrun, rfl⟩

/-- The stat file of the process, which the name ".." leads to, is counted like one of a thread. -/
theorem strays_of_dotdot {s : Stat} (hs : dir.dotdot = .ok s.bytes) (h : .dotdot ∈ names) :
    dir.strays names ≠ [] := by
  refine List.ne_nil_of_mem (a := s.seen) (List.mem_filterMap.mpr ⟨.dotdot, h, ?_⟩)
  rw [if_neg (by decide), TaskDir.file, hs, seenState_stat]
  rfl

/-- A running thread with the name "a b". -/
def spacedStat : Stat :=
  ⟨ascii ['1', '0', '0'], ascii ['a', ' ', 'b'], 82, ascii [' ', '1'], by decide, by decide,
    List.all_eq_true.mp (by decide), by decide, by decide, by decide⟩

/-- One thread runs; it is taken for one that does not, and the process for another. -/
theorem threads_runnable_miscounts :
    let dir : TaskDir := ⟨.error .openFails, .ok spacedStat.bytes, fun _ => .ok spacedStat⟩
    let names := [Name.dot, .dotdot, .tid 100]
    threadsRunnable dir (some names) = some (0, 2) ∧
      ((dir.stats names).countP Stat.running, (dir.stats names).length) = (1, 1) := by
  decide +kernel

end PthreadWorkqueue.Linux
