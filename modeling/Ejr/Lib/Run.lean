/-!
# Labelled runs

`Run step s ls t`: from `s`, the labels `ls` taken one after another lead to
`t`. `Run.invariant` is the only induction the safety results need: what the
start has and every step keeps, every reached state has. `Along` is a
condition on a run that looks at each label together with the state it is
taken in; `Run.invariant_along` is the same induction for runs whose steps all
meet one.
-/

namespace Ejr.Lib

variable {σ ℓ : Type} {step : σ → ℓ → σ → Prop}

/-- The labels, taken in order from the first state, end in the second. -/
inductive Run (step : σ → ℓ → σ → Prop) : σ → List ℓ → σ → Prop where
  | nil (s : σ) : Run step s [] s
  | cons {s s' t : σ} {l : ℓ} {ls : List ℓ} :
      step s l s' → Run step s' ls t → Run step s (l :: ls) t

theorem Run.append {s t u : σ} {ls ms : List ℓ} (h : Run step s ls t) (h' : Run step t ms u) :
    Run step s (ls ++ ms) u := by
  induction h with
  | nil s => exact h'
  | cons hs _ ih => exact .cons hs (ih h')

/-- Where steps have one end, so have runs. -/
theorem Run.unique (hstep : ∀ s l t t', step s l t → step s l t' → t = t') {s t t' : σ}
    {ls : List ℓ} (h : Run step s ls t) (h' : Run step s ls t') : t = t' := by
  induction h with
  | nil s =>
    cases h'
    rfl
  | cons hs _ ih =>
    cases h' with
    | cons hs' hr' =>
      obtain rfl := hstep _ _ _ _ hs hs'
      exact ih hr'

/-- A run splits at every label list it is made of. -/
theorem Run.split {s u : σ} : ∀ {ls ms : List ℓ}, Run step s (ls ++ ms) u →
    ∃ t, Run step s ls t ∧ Run step t ms u
  | [], _, h => ⟨s, .nil s, h⟩
  | l :: ls, ms, h => by
    cases h with
    | cons hs hr =>
      obtain ⟨t, h1, h2⟩ := Run.split hr
      exact ⟨t, .cons hs h1, h2⟩

/-- One more step at the end. -/
theorem Run.snoc {s t u : σ} {ls : List ℓ} {l : ℓ} (h : Run step s ls t) (hs : step t l u) :
    Run step s (ls ++ [l]) u :=
  h.append (.cons hs (.nil u))

/-- Every state a run with these labels goes through is in `P`. -/
def Throughout (step : σ → ℓ → σ → Prop) (P : σ → Prop) (s : σ) (ls : List ℓ) : Prop :=
  ∀ pre post m, ls = pre ++ post → Run step s pre m → P m

/-- What the start has and every step keeps, every reached state has. -/
theorem Run.invariant {I : σ → Prop} {s t : σ} {ls : List ℓ} (h : Run step s ls t)
    (hI : I s) (hstep : ∀ s l s', I s → step s l s' → I s') : I t := by
  induction h with
  | nil s => exact hI
  | cons hs _ ih => exact ih (hstep _ _ _ hI hs)

/-- Every label of the run meets `C` in the state it is taken in. -/
inductive Along (step : σ → ℓ → σ → Prop) (C : σ → ℓ → Prop) : σ → List ℓ → σ → Prop where
  | nil (s : σ) : Along step C s [] s
  | cons {s s' t : σ} {l : ℓ} {ls : List ℓ} :
      C s l → step s l s' → Along step C s' ls t → Along step C s (l :: ls) t

theorem Along.run {C : σ → ℓ → Prop} {s t : σ} {ls : List ℓ} (h : Along step C s ls t) :
    Run step s ls t := by
  induction h with
  | nil s => exact .nil s
  | cons _ hs _ ih => exact .cons hs ih

/-- The induction of `Run.invariant` for runs whose steps all meet `C`. -/
theorem Along.invariant {C : σ → ℓ → Prop} {I : σ → Prop} {s t : σ} {ls : List ℓ}
    (h : Along step C s ls t) (hI : I s)
    (hstep : ∀ s l s', I s → C s l → step s l s' → I s') : I t := by
  induction h with
  | nil s => exact hI
  | cons hc hs _ ih => exact ih (hstep _ _ _ hI hc hs)

/-- A run meets `C` when each of its steps does. -/
theorem Run.along {C : σ → ℓ → Prop} {s t : σ} {ls : List ℓ} (h : Run step s ls t)
    (hC : ∀ pre l post u v, ls = pre ++ l :: post → Run step s pre u → step u l v → C u l) :
    Along step C s ls t := by
  induction h with
  | nil s => exact .nil s
  | @cons s m t l ls hs _ ih =>
    refine .cons (hC [] l ls s m rfl (.nil s) hs) hs (ih fun pre l' post u v heq hrun hstep => ?_)
    exact hC (l :: pre) l' post u v (congrArg (l :: ·) heq) (.cons hs hrun) hstep

/-- Steps that meet `C` where `I` holds meet `D`. -/
theorem Along.weaken {C D : σ → ℓ → Prop} {I : σ → Prop} {s t : σ} {ls : List ℓ}
    (h : Along step C s ls t) (hI : I s) (hstep : ∀ s l s', I s → C s l → step s l s' → I s')
    (hD : ∀ s l s', I s → C s l → step s l s' → D s l) : Along step D s ls t := by
  induction h with
  | nil s => exact .nil s
  | cons hc hs _ ih => exact .cons (hD _ _ _ hI hc hs) hs (ih (hstep _ _ _ hI hc hs))

/-- A prefix of a run that meets `C` throughout meets it too. -/
theorem Along.split {C : σ → ℓ → Prop} {s u : σ} : ∀ {ls ms : List ℓ},
    Along step C s (ls ++ ms) u → ∃ t, Along step C s ls t ∧ Along step C t ms u
  | [], _, h => ⟨s, .nil s, h⟩
  | l :: ls, ms, h => by
    cases h with
    | cons hc hs hr =>
      obtain ⟨t, h1, h2⟩ := Along.split hr
      exact ⟨t, .cons hc hs h1, h2⟩

end Ejr.Lib
