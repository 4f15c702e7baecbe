import NodeBdb.Transition
import Mathlib.Order.Filter.AtTopBot.Basic

/-!
# Runs that never end

What a system does at last. A scheduler is weakly fair to an action that it takes whenever the
action stays possible, and strongly fair to one that it takes whenever the action is possible
again and again. A condition leads to another if each state in which it holds is followed by
one in which the other does; the rules get this from a single action and its fairness.
-/

namespace Transition

open Filter

variable {σ ε : Type} {step : σ → ε → σ → Prop}

/-- An infinite run. A run that ends goes on by a step that changes nothing. -/
structure Behaviour (step : σ → ε → σ → Prop) where
  state : Nat → σ
  event : Nat → ε
  steps : ∀ n, step (state n) (event n) (state (n + 1))

/-- One of the events can happen now. -/
def Enabled (step : σ → ε → σ → Prop) (A : ε → Prop) (s : σ) : Prop := ∃ e s', A e ∧ step s e s'

namespace Behaviour

variable (b : Behaviour step) {P Q R : σ → Prop} {A : ε → Prop}

def WeaklyFair (A : ε → Prop) : Prop :=
  (∀ᶠ n in atTop, Enabled step A (b.state n)) → ∃ᶠ n in atTop, A (b.event n)

def StronglyFair (A : ε → Prop) : Prop :=
  (∃ᶠ n in atTop, Enabled step A (b.state n)) → ∃ᶠ n in atTop, A (b.event n)

def LeadsTo (P Q : σ → Prop) : Prop := ∀ n, P (b.state n) → ∃ m, n ≤ m ∧ Q (b.state m)

/-- Each step keeps `P` or turns it into `Q`. -/
def Unless (P Q : σ → Prop) : Prop :=
  ∀ n, P (b.state n) → P (b.state (n + 1)) ∨ Q (b.state (n + 1))

/-! ## The past -/

theorem path (n : Nat) : Path step (b.state 0) ((List.range n).map b.event) (b.state n) := by
  induction n with
  | zero => exact .nil
  | succ n ih =>
    rw [List.range_succ, List.map_append]
    exact ih.snoc (b.steps n)

variable {b}

theorem keeps (hs : ∀ s e s', P s → step s e s' → P s') {n m : Nat} (hle : n ≤ m)
    (h : P (b.state n)) : P (b.state m) := by
  induction hle with
  | refl => exact h
  | step _ ih => exact hs _ _ _ ih (b.steps _)

/-- What is kept once it holds, holds from some moment on if it holds at one. -/
theorem keeps_eventually (hs : ∀ s e s', P s → step s e s' → P s') {n : Nat}
    (h : P (b.state n)) : ∀ᶠ m in atTop, P (b.state m) :=
  eventually_atTop.mpr ⟨n, fun _ hle => keeps hs hle h⟩

/-! ## Rules -/

theorem StronglyFair.weakly (h : b.StronglyFair A) : b.WeaklyFair A :=
  fun hen => h hen.frequently

theorem LeadsTo.trans (h : b.LeadsTo P Q) (h' : b.LeadsTo Q R) : b.LeadsTo P R := by
  intro n hn
  obtain ⟨m, hnm, hm⟩ := h n hn
  obtain ⟨k, hmk, hk⟩ := h' m hm
  exact ⟨k, Nat.le_trans hnm hmk, hk⟩

/-- Where `Q` never holds, `P` is kept for ever. -/
theorem Unless.stays (hkeep : b.Unless P Q) {n : Nat}
    (hn : P (b.state n)) (hno : ∀ m, n ≤ m → ¬ Q (b.state m)) :
    ∀ᶠ m in atTop, P (b.state m) ∧ ¬ Q (b.state m) := by
  rw [eventually_atTop]
  refine ⟨n, fun m hle => ?_⟩
  induction hle with
  | refl => exact ⟨hn, hno n (Nat.le_refl n)⟩
  | @step m hle ih =>
    have hno' := hno (m + 1) (Nat.le_succ_of_le hle)
    cases hkeep m ih.1 with
    | inl h => exact ⟨h, hno'⟩
    | inr h => exact absurd h hno'

/-- An action of a fair scheduler, from which `Q` follows where `P` holds, is taken at last. -/
theorem leadsTo_of_taken (hkeep : b.Unless P Q)
    (hact : ∀ n, P (b.state n) → A (b.event n) → Q (b.state (n + 1)))
    (htaken : (∀ᶠ n in atTop, P (b.state n)) → ∃ᶠ n in atTop, A (b.event n)) : b.LeadsTo P Q := by
  intro n hn
  by_contra hno
  have hstays := hkeep.stays hn fun m hle hm => hno ⟨m, hle, hm⟩
  obtain ⟨m, hA, hm, hle⟩ := ((htaken (hstays.mono fun _ h => h.1)).and_eventually
    (hstays.and (eventually_ge_atTop n))).exists
  exact hno ⟨m + 1, Nat.le_succ_of_le hle, hact m hm.1 hA⟩

theorem WeaklyFair.leadsTo (hf : b.WeaklyFair A)
    (hkeep : b.Unless P Q)
    (hact : ∀ n, P (b.state n) → A (b.event n) → Q (b.state (n + 1)))
    (hen : ∀ n, P (b.state n) → Enabled step A (b.state n)) : b.LeadsTo P Q :=
  leadsTo_of_taken hkeep hact fun h => hf (h.mono hen)

/-- Under strong fairness it is enough that the action becomes possible again and again. -/
theorem StronglyFair.leadsTo (hf : b.StronglyFair A)
    (hkeep : b.Unless P Q)
    (hact : ∀ n, P (b.state n) → A (b.event n) → Q (b.state (n + 1)))
    (hen : ∀ n, P (b.state n) → R (b.state n) → Enabled step A (b.state n))
    (hagain : ∀ n, ∃ m, n ≤ m ∧ R (b.state m)) : b.LeadsTo P Q := by
  apply leadsTo_of_taken hkeep hact
  intro h
  apply hf
  have hR : ∃ᶠ n in atTop, R (b.state n) := frequently_atTop.mpr hagain
  exact (hR.and_eventually h).mono fun n hn => hen n hn.2 hn.1

/-! ## Other systems with the same run -/

variable {step' : σ → ε → σ → Prop}

/-- The step relations say the same of every state of the run. -/
def Agrees (b : Behaviour step) (step' : σ → ε → σ → Prop) : Prop :=
  ∀ n e s, step (b.state n) e s ↔ step' (b.state n) e s

def transfer (b : Behaviour step) (h : b.Agrees step') : Behaviour step' where
  state := b.state
  event := b.event
  steps n := (h n _ _).mp (b.steps n)

theorem Agrees.enabled_iff (h : b.Agrees step') (n : Nat) :
    Enabled step' A (b.state n) ↔ Enabled step A (b.state n) := by
  constructor
  · rintro ⟨e, s, hA, hs⟩
    exact ⟨e, s, hA, (h n e s).mpr hs⟩
  · rintro ⟨e, s, hA, hs⟩
    exact ⟨e, s, hA, (h n e s).mp hs⟩

/-- What is fair in the one is fair in the other. -/
theorem WeaklyFair.transfer (hf : b.WeaklyFair A) (h : b.Agrees step') :
    (b.transfer h).WeaklyFair A :=
  fun hen => hf (hen.mono fun n hn => (h.enabled_iff n).mp hn)

theorem StronglyFair.transfer (hf : b.StronglyFair A) (h : b.Agrees step') :
    (b.transfer h).StronglyFair A :=
  fun hen => hf (hen.mono fun n hn => (h.enabled_iff n).mp hn)

end Behaviour

/-! ## Runs that come to rest -/

/-- One more step before all others. -/
def Behaviour.prepend (s : σ) (e : ε) (b : Behaviour step) (h : step s e (b.state 0)) :
    Behaviour step where
  state
    | 0 => s
    | n + 1 => b.state n
  event
    | 0 => e
    | n + 1 => b.event n
  steps n := by
    cases n with
    | zero => exact h
    | succ n => exact b.steps n

/-- Where a step changes nothing, it can be taken for ever. -/
def Behaviour.rest (s : σ) (e : ε) (h : step s e s) : Behaviour step where
  state _ := s
  event _ := e
  steps _ := h

theorem Path.before {s₀ s : σ} {es : List ε} (h : Path step s₀ es s) (b : Behaviour step)
    (hb : b.state 0 = s) :
    ∃ b' : Behaviour step, b'.state 0 = s₀ ∧ ∀ n, b'.state (es.length + n) = b.state n := by
  induction h generalizing b with
  | nil => exact ⟨b, hb, fun n => by rw [List.length_nil, Nat.zero_add]⟩
  | @snoc es s s' e hp hst ih =>
    subst hb
    obtain ⟨b', h0, hshift⟩ := ih (b.prepend s e hst) rfl
    refine ⟨b', h0, fun n => ?_⟩
    rw [List.length_append, List.length_singleton, Nat.add_assoc, Nat.add_comm 1 n]
    exact hshift (n + 1)

/-- A finite run goes on for ever where its last state has a step to itself. -/
theorem Path.comes_to_rest {s₀ s : σ} {es : List ε} {e : ε} (h : Path step s₀ es s)
    (hst : step s e s) :
    ∃ b : Behaviour step, b.state 0 = s₀ ∧ ∀ n, es.length ≤ n → b.state n = s := by
  obtain ⟨b, h0, hshift⟩ := h.before (.rest s e hst) rfl
  refine ⟨b, h0, fun n hle => ?_⟩
  obtain ⟨d, rfl⟩ := Nat.exists_eq_add_of_le hle
  exact hshift d

/-- At rest nothing is denied to an action that cannot be taken. -/
theorem Behaviour.fair_at_rest {b : Behaviour step} {A : ε → Prop} {s : σ} {n : Nat}
    (h : ∀ m, n ≤ m → b.state m = s) (hen : ¬ Enabled step A s) : b.StronglyFair A := by
  intro hfreq
  obtain ⟨m, hle, hm⟩ := frequently_atTop.mp hfreq n
  rw [h m hle] at hm
  exact absurd hm hen

end Transition
