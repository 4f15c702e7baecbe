import Mathlib.Data.List.Induction

/-!
# Runs of a transition system

A system is a step relation on states, labelled by events. A path records the events
in order, so a property of a run may speak of its history. Systems whose step is a
function run by folding it.
-/

namespace Transition

variable {σ ε : Type}

inductive Path (step : σ → ε → σ → Prop) (s₀ : σ) : List ε → σ → Prop where
  | nil : Path step s₀ [] s₀
  | snoc {es : List ε} {s s' : σ} {e : ε} :
      Path step s₀ es s → step s e s' → Path step s₀ (es ++ [e]) s'

/-- What holds at the start and is kept by each step, holds along every path. -/
theorem Path.invariant {step : σ → ε → σ → Prop} {s₀ s : σ} {es : List ε}
    {I : List ε → σ → Prop} (h : Path step s₀ es s) (h₀ : I [] s₀)
    (hs : ∀ es s e s', I es s → step s e s' → I (es ++ [e]) s') : I es s := by
  induction h with
  | nil => exact h₀
  | snoc _ hst ih => exact hs _ _ _ _ ih hst

theorem Path.mono {step step' : σ → ε → σ → Prop} {s₀ s : σ} {es : List ε}
    (h : Path step s₀ es s) (hs : ∀ s e s', step s e s' → step' s e s') : Path step' s₀ es s := by
  induction h with
  | nil => exact .nil
  | snoc _ hst ih => exact .snoc ih (hs _ _ _ hst)

theorem Path.append {step : σ → ε → σ → Prop} {s₀ s s' : σ} {es es' : List ε}
    (h : Path step s₀ es s) (h' : Path step s es' s') : Path step s₀ (es ++ es') s' := by
  induction h' with
  | nil => simpa using h
  | snoc _ hst ih => rw [← List.append_assoc]; exact .snoc ih hst

theorem Path.last {step : σ → ε → σ → Prop} {s₀ s' : σ} {es : List ε} {e : ε}
    (h : Path step s₀ (es ++ [e]) s') : ∃ s, Path step s₀ es s ∧ step s e s' := by
  generalize hl : es ++ [e] = l at h
  cases h with
  | nil => simp at hl
  | snoc hp hst =>
    obtain ⟨rfl, he⟩ := List.append_inj' hl rfl
    obtain rfl := List.singleton_inj.mp he
    exact ⟨_, hp, hst⟩

theorem Path.unchanged {step : σ → ε → σ → Prop} {s₀ s : σ} (h : Path step s₀ [] s) : s = s₀ := by
  generalize hl : ([] : List ε) = l at h
  cases h with
  | nil => rfl
  | snoc => simp at hl

theorem Path.first {step : σ → ε → σ → Prop} {s₀ s' : σ} {es : List ε} {e : ε}
    (h : Path step s₀ (e :: es) s') : ∃ s, step s₀ e s ∧ Path step s es s' := by
  induction es using List.reverseRecOn generalizing s' with
  | nil =>
    obtain ⟨s, hp, hst⟩ := (show Path step s₀ ([] ++ [e]) s' from h).last
    obtain rfl := hp.unchanged
    exact ⟨s', hst, .nil⟩
  | append_singleton es x ih =>
    obtain ⟨s, hp, hst⟩ := (show Path step s₀ ((e :: es) ++ [x]) s' from h).last
    obtain ⟨s₁, hfirst, hrest⟩ := ih hp
    exact ⟨s₁, hfirst, hrest.snoc hst⟩

/-- The path of a system whose step is a function. -/
abbrev FPath (step : σ → ε → Option σ) : σ → List ε → σ → Prop :=
  Path fun s e s' => step s e = some s'

def run (step : σ → ε → Option σ) (s : σ) : List ε → Option σ
  | [] => some s
  | e :: es => (step s e).bind fun s' => run step s' es

theorem run_snoc (step : σ → ε → Option σ) (s : σ) (es : List ε) (e : ε) :
    run step s (es ++ [e]) = (run step s es).bind fun s' => step s' e := by
  induction es generalizing s with
  | nil => simp [run]
  | cons x es ih =>
    rw [List.cons_append, run, run, Option.bind_assoc]
    congr
    funext s'
    exact ih s'

theorem run_path {step : σ → ε → Option σ} {s s' : σ} {es : List ε}
    (h : run step s es = some s') : FPath step s es s' := by
  induction es generalizing s with
  | nil => cases h; exact .nil
  | cons e es ih =>
    obtain ⟨s₁, h₁, h⟩ := Option.bind_eq_some_iff.mp h
    exact Path.append (.snoc .nil h₁) (ih h)

theorem FPath.unique {step : σ → ε → Option σ} {s₀ s s' : σ} {es : List ε}
    (h : FPath step s₀ es s) (h' : FPath step s₀ es s') : s = s' := by
  induction h generalizing s' with
  | nil =>
    generalize hl : ([] : List ε) = l at h'
    cases h' with
    | nil => rfl
    | snoc => simp at hl
  | snoc _ hst ih =>
    obtain ⟨s₁, hp, hst'⟩ := h'.last
    rw [← ih hp, hst] at hst'
    exact Option.some.inj hst'

/-- The steps of a path all meet the condition `P`. -/
abbrev Along (step : σ → ε → Option σ) (P : σ → ε → Prop) : σ → List ε → σ → Prop :=
  Path fun s e s' => step s e = some s' ∧ P s e

/-- The last step of a path meets the condition along with the ones before. -/
theorem along_snoc {step : σ → ε → Option σ} {P : σ → ε → Prop} {s₀ s s' : σ} {es : List ε} {e : ε}
    (hp : FPath step s₀ es s) (hst : step s e = some s') :
    Along step P s₀ (es ++ [e]) s' ↔ Along step P s₀ es s ∧ P s e := by
  constructor
  · intro h
    obtain ⟨s₁, h₁, hst₁, hP⟩ := h.last
    obtain rfl := hp.unique (h₁.mono fun _ _ _ h => h.1)
    exact ⟨h₁, hP⟩
  · rintro ⟨h, hP⟩
    exact h.snoc ⟨hst, hP⟩

/-- Every state of the path has the property `I`, the last one included. -/
def Throughout (step : σ → ε → Option σ) (I : σ → Prop) (s₀ : σ) (es : List ε) (s : σ) : Prop :=
  Along step (fun s _ => I s) s₀ es s ∧ I s

theorem throughout_snoc {step : σ → ε → Option σ} {I : σ → Prop} {s₀ s s' : σ} {es : List ε} {e : ε}
    (hp : FPath step s₀ es s) (hst : step s e = some s') :
    Throughout step I s₀ (es ++ [e]) s' ↔ Throughout step I s₀ es s ∧ I s' := by
  rw [Throughout, along_snoc hp hst, Throughout]

def guarded (step : σ → ε → Option σ) (P : σ → ε → Prop) [∀ s e, Decidable (P s e)] (s : σ)
    (e : ε) : Option σ :=
  if P s e then step s e else none

theorem run_guarded {step : σ → ε → Option σ} {P : σ → ε → Prop} [∀ s e, Decidable (P s e)]
    {s s' : σ} {es : List ε} (h : run (guarded step P) s es = some s') :
    Along step P s es s' := by
  refine (run_path h).mono fun s e s' hs => ?_
  by_cases hp : P s e
  · exact ⟨by simpa [guarded, hp] using hs, hp⟩
  · simp [guarded, hp] at hs

end Transition
