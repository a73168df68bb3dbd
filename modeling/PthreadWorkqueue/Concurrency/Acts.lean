import PthreadWorkqueue.Concurrency.Counting

/-! The steps of a run as data, and a run as one of its threads sees it. -/
namespace PthreadWorkqueue.Concurrency
variable {σ π χ ε : Type}

/-- A step of a thread: the memory and the local state it starts from, and its choice. -/
structure Act (σ π χ : Type) where
  thread : Nat
  shared : σ
  pc : π
  choice : χ

namespace Machine

/-- The same machine, observed through its steps. -/
def acts (M : Machine σ π χ ε) : Machine σ π χ (Act σ π χ) := fun s t p ch =>
  (M s t p ch).map fun o => ⟨o.shared, o.pc, o.spawned, [⟨t, s, p, ch⟩]⟩

variable {M : Machine σ π χ ε} {G : Config σ π → Nat × χ → Prop} {c₀ c : Config σ π}
  {tr : List ε} {as bs : List (Act σ π χ)} {t : Nat} {p q r : π}

theorem acts_eq_some {s : σ} {ch : χ} {o : Outcome σ π (Act σ π χ)} :
    M.acts s t p ch = some o ↔
      ∃ o', M s t p ch = some o' ∧ o = ⟨o'.shared, o'.pc, o'.spawned, [⟨t, s, p, ch⟩]⟩ := by
  simp only [acts, Option.map_eq_some_iff]
  exact exists_congr fun o' => and_congr_right fun _ => eq_comm

/-- The invariant rule for runs that carry their steps. -/
theorem Run.acts_rule (I : List (Act σ π χ) → Config σ π → Prop) (start : I [] c₀)
    (step : ∀ as c l p o, Run M.acts G c₀ as c → I as c → G c l → M.Moves c l o p →
      I (as ++ [⟨l.1, c.shared, p, l.2⟩]) (o.apply c l.1))
    (h : Run M.acts G c₀ as c) : I as c := by
  refine h.invariant I start ?_
  intro as c l p o hr hi hg mv
  obtain ⟨o', ho', rfl⟩ := acts_eq_some.mp mv.next
  exact step as c l p o' hr hi hg ⟨mv.here, ho'⟩

/-- The invariant rule that also gives the run behind the steps. -/
theorem Run.acts_invariant (I : List (Act σ π χ) → Config σ π → Prop) (start : I [] c₀)
    (step : ∀ tr as c l p o, Run M G c₀ tr c → I as c → G c l → M.Moves c l o p →
      I (as ++ [⟨l.1, c.shared, p, l.2⟩]) (o.apply c l.1))
    (h : Run M.acts G c₀ as c) : I as c ∧ ∃ tr, Run M G c₀ tr c := by
  refine h.acts_rule (fun as c => I as c ∧ ∃ tr, Run M G c₀ tr c) ⟨start, [], .start⟩ ?_
  rintro as c l p o - ⟨hi, tr, hr⟩ hg mv
  exact ⟨step tr as c l p o hr hi hg mv,
    _, .step hr hg (step_eq_some.mpr ⟨p, o, mv, rfl, rfl⟩)⟩

/-- The run behind a run that carries its steps. -/
theorem Run.of_acts (h : Run M.acts G c₀ as c) : ∃ tr, Run M G c₀ tr c :=
  (h.acts_invariant (fun _ _ => True) trivial fun _ _ _ _ _ _ _ _ _ _ => trivial).2

/-- Every run carries its steps. -/
theorem Run.acts (h : Run M G c₀ tr c) : ∃ as, Run M.acts G c₀ as c := by
  refine h.invariant (fun _ c => ∃ as, Run M.acts G c₀ as c) ⟨[], .start⟩ ?_
  rintro tr c l p o - ⟨as, hr⟩ hg mv
  exact ⟨_, .step hr hg (step_eq_some.mpr
    ⟨p, _, ⟨mv.here, acts_eq_some.mpr ⟨o, mv.next, rfl⟩⟩, rfl, rfl⟩)⟩

/-- The last step of a run that carries its steps. -/
theorem Run.acts_concat {a : Act σ π χ} (h : Run M.acts G c₀ (as ++ [a]) c) :
    ∃ d o, Run M.acts G c₀ as d ∧ d.shared = a.shared ∧ M.Moves d (a.thread, a.choice) o a.pc ∧
      c = o.apply d a.thread := by
  generalize hbs : as ++ [a] = bs at h
  cases h with
  | start => simp at hbs
  | step hr hg hs =>
    obtain ⟨p, o, mv, rfl, rfl⟩ := step_eq_some.mp hs
    obtain ⟨o', ho', rfl⟩ := acts_eq_some.mp mv.next
    obtain ⟨rfl, ha⟩ := List.append_inj' hbs rfl
    cases ha
    exact ⟨_, o', hr, rfl, ⟨mv.here, ho'⟩, rfl⟩

/-- The steps of one thread from a local state; between them the memory may change at will. -/
inductive Solo (M : Machine σ π χ ε) (t : Nat) (p : π) : List (Act σ π χ) → π → Prop where
  | start : Solo M t p [] p
  | step {as q s ch o} : Solo M t p as q → M s t q ch = some o →
      Solo M t p (as ++ [⟨t, s, q, ch⟩]) o.pc

/-- The invariant rule for one thread. -/
theorem Solo.invariant (I : List (Act σ π χ) → π → Prop) (start : I [] p)
    (step : ∀ as q s ch o, I as q → M s t q ch = some o → I (as ++ [⟨t, s, q, ch⟩]) o.pc)
    (h : Solo M t p as q) : I as q := by
  induction h with
  | start => exact start
  | step _ ho ih => exact step _ _ _ _ _ ih ho

theorem Solo.append (h : Solo M t p as q) (h' : Solo M t q bs r) : Solo M t p (as ++ bs) r := by
  induction h' with
  | start => simpa using h
  | step _ ho ih =>
    rw [← List.append_assoc]
    exact .step ih ho

/-- The steps of one thread after some of its steps. -/
theorem Solo.split (h : Solo M t p (as ++ bs) r) : ∃ q, Solo M t p as q ∧ Solo M t q bs r := by
  generalize hcs : as ++ bs = cs at h
  induction h generalizing bs with
  | start =>
    obtain ⟨rfl, rfl⟩ := List.append_eq_nil_iff.mp hcs
    exact ⟨p, .start, .start⟩
  | @step cs q s ch o h ho ih =>
    rcases List.eq_nil_or_concat bs with rfl | ⟨bs, b, rfl⟩
    · rw [List.append_nil] at hcs
      subst hcs
      exact ⟨_, .step h ho, .start⟩
    · rw [List.concat_eq_append, ← List.append_assoc] at hcs
      obtain ⟨hpre, hb⟩ := List.append_inj' hcs rfl
      cases hb
      obtain ⟨x, hx, hx'⟩ := ih hpre
      rw [List.concat_eq_append]
      exact ⟨x, hx, .step hx' ho⟩

theorem Solo.head {a : Act σ π χ} (h : Solo M t p as q) (ha : a ∈ as.head?) : a.pc = p := by
  suffices hk : (as = [] → q = p) ∧ ∀ a ∈ as.head?, a.pc = p from hk.2 a ha
  refine h.invariant (fun as q => (as = [] → q = p) ∧ ∀ a ∈ as.head?, a.pc = p)
    ⟨fun _ => rfl, by simp⟩ ?_
  rintro (_ | ⟨b, bs⟩) q s ch o ⟨hnil, hhead⟩ -
  · simpa using hnil rfl
  · exact ⟨by simp, hhead⟩

/-- A run as one thread sees it, from the local state in which the thread was started. -/
theorem Run.solo {Q : π → Prop} (start : ∀ p ∈ c₀.threads, Q p)
    (fresh : ∀ s t p ch o, M s t p ch = some o → ∀ r ∈ o.spawned, Q r)
    (h : Run M.acts G c₀ as c) (hq : c.threads[t]? = some q) :
    ∃ p, Q p ∧ Solo M t p (as.filter fun a => a.thread == t) q := by
  suffices hs : ∀ as c, Run M.acts G c₀ as c →
      (∀ a ∈ as, a.thread < c.threads.length) ∧ ∀ t q, c.threads[t]? = some q →
        ∃ p, Q p ∧ Solo M t p (as.filter fun a => a.thread == t) q from (hs as c h).2 t q hq
  intro as c h
  refine (h.acts_invariant (fun as c => (∀ a ∈ as, a.thread < c.threads.length) ∧
    ∀ t q, c.threads[t]? = some q → ∃ p, Q p ∧ Solo M t p (as.filter fun a => a.thread == t) q)
    ⟨by simp, fun t q hq => ⟨q, start q (List.mem_of_getElem? hq), .start⟩⟩ ?_).1
  rintro tr as c ⟨u, ch⟩ p o - ⟨hlen, ih⟩ - mv
  have hu : u < c.threads.length := (List.getElem?_eq_some_iff.mp mv.here).1
  have hle : c.threads.length ≤ (o.apply c u).threads.length := by
    simp [Outcome.apply]
  constructor
  · intro a ha
    rcases List.mem_append.mp ha with ha | ha
    · exact Nat.lt_of_lt_of_le (hlen a ha) hle
    · rw [List.mem_singleton.mp ha]
      exact Nat.lt_of_lt_of_le hu hle
  · intro t q hq
    rw [List.filter_append]
    by_cases htu : u = t
    · subst htu
      obtain ⟨p', hp', hs⟩ := ih u p mv.here
      rw [Outcome.get_self mv.here] at hq
      cases hq
      refine ⟨p', hp', ?_⟩
      rw [List.filter_cons_of_pos (by simp), List.filter_nil]
      exact .step hs mv.next
    · rw [List.filter_cons_of_neg (by simpa using htu), List.filter_nil, List.append_nil]
      obtain ⟨rfl, -⟩ | ⟨-, hq⟩ | ⟨hge, hq⟩ := Outcome.get_cases mv.here hq
      · exact absurd rfl htu
      · exact ih t q hq
      · -- a thread that has just started has taken no step
        have hnil : as.filter (fun a => a.thread == t) = [] := by
          refine List.filter_eq_nil_iff.mpr fun a ha => ?_
          have := hlen a ha
          simp only [beq_iff_eq]
          omega
        rw [hnil]
        exact ⟨q, fresh _ _ _ _ _ mv.next q hq, .start⟩

end Machine
end PthreadWorkqueue.Concurrency
