import PthreadWorkqueue.Concurrency.Machine

/-! Simulation between two machines: each step of the first is matched by a run of the second, which
may be empty, and an observer sees the same events of both. -/
namespace PthreadWorkqueue.Concurrency
variable {σ π χ ε σ' π' χ' ε' α : Type}

namespace Machine
variable {M : Machine σ π χ ε} {N : Machine σ' π' χ' ε'} {G : Config σ π → Nat × χ → Prop}
  {H : Config σ' π' → Nat × χ' → Prop} {c₀ c : Config σ π} {d₀ : Config σ' π'} {tr : List ε}

/-- The simulation rule: related states at the start, and every step from a state that a run reaches
leads to related states again. -/
theorem Run.simulate (R : Config σ π → Config σ' π' → Prop) (view : ε → Option α)
    (view' : ε' → Option α) (start : R c₀ d₀)
    (step : ∀ tr c l p o d, Run M G c₀ tr c → R c d → G c l → M.Moves c l o p →
      ∃ es d', Run N H d es d' ∧ es.filterMap view' = o.events.filterMap view ∧
        R (o.apply c l.1) d')
    (h : Run M G c₀ tr c) :
    ∃ tr' d, Run N H d₀ tr' d ∧ tr'.filterMap view' = tr.filterMap view ∧ R c d := by
  refine h.invariant (fun tr c => ∃ tr' d, Run N H d₀ tr' d ∧
    tr'.filterMap view' = tr.filterMap view ∧ R c d) ⟨[], d₀, .start, rfl, start⟩ ?_
  rintro tr c l p o hr ⟨tr', d, hd, hview, hR⟩ hg mv
  obtain ⟨es, d', hes, hsame, hR'⟩ := step tr c l p o d hr hR hg mv
  refine ⟨tr' ++ es, d', hd.append hes, ?_, hR'⟩
  rw [List.filterMap_append, List.filterMap_append, hview, hsame]

/-- One thread goes on with a run of its own steps. -/
theorem Run.go_on {s s' : σ} {ts : List π} {t : Nat} {p p' : π} {ch : χ} {es : List ε}
    (h : Free M c₀ tr ⟨s, ts.set t p⟩) (ht : t < ts.length)
    (hs : M s t p ch = some ⟨s', p', [], es⟩) : Free M c₀ (tr ++ es) ⟨s', ts.set t p'⟩ := by
  have hget : (ts.set t p)[t]? = some p := List.getElem?_set_self ht
  have step : M.step ⟨s, ts.set t p⟩ (t, ch) = some (⟨s', ts.set t p'⟩, es) := by
    simp [Machine.step, hget, hs, Outcome.apply]
  exact .step h trivial step

end Machine
end PthreadWorkqueue.Concurrency
