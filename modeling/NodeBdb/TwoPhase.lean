import Mathlib.Logic.Function.Basic
import Mathlib.Data.List.Basic

/-!
# Strict two-phase locking

A store of committed data and the logs of the active transactions. An access is granted
only where no other active transaction holds a conflicting one, and locks are kept until
the end. The invariant is that every active log can be replayed on the committed data,
so a transaction may be moved to the point where it ends.
-/

namespace TwoPhase

variable {K V X : Type} [DecidableEq K] [DecidableEq X]

/-- One access: what it saw at its key, and what it left there if it wrote. -/
structure Access (K V : Type) where
  key : K
  sees : Option V → Prop := fun _ => True
  leaves : Option (Option V) := none

def Access.effect (a : Access K V) (m : K → Option V) : K → Option V :=
  match a.leaves with
  | none => m
  | some v => Function.update m a.key v

def Conflict (a b : Access K V) : Prop :=
  a.key = b.key ∧ (a.leaves ≠ none ∨ b.leaves ≠ none)

def replay (m : K → Option V) : List (Access K V) → K → Option V
  | [] => m
  | a :: log => replay (a.effect m) log

/-- Done one after another from `m`, the accesses see what they saw. -/
def Replays (m : K → Option V) : List (Access K V) → Prop
  | [] => True
  | a :: log => a.sees (m a.key) ∧ Replays (a.effect m) log

@[simp] theorem replay_nil (m : K → Option V) : replay m [] = m := rfl
@[simp] theorem replay_cons (m : K → Option V) (a : Access K V) (log : List (Access K V)) :
    replay m (a :: log) = replay (a.effect m) log := rfl
@[simp] theorem replays_nil (m : K → Option V) : Replays m [] := trivial
@[simp] theorem replays_cons (m : K → Option V) (a : Access K V) (log : List (Access K V)) :
    Replays m (a :: log) ↔ a.sees (m a.key) ∧ Replays (a.effect m) log := Iff.rfl

theorem effect_other {a : Access K V} {k : K} (m : K → Option V)
    (h : a.key = k → a.leaves = none) : a.effect m k = m k := by
  unfold Access.effect
  cases ha : a.leaves with
  | none => rfl
  | some v =>
    rw [ha] at h
    exact Function.update_of_ne (fun hk => nomatch h hk.symm) _ _

/-- Agreement at a key survives an access. -/
theorem effect_congr {m m' : K → Option V} {k : K} (a : Access K V) (h : m k = m' k) :
    a.effect m k = a.effect m' k := by
  unfold Access.effect
  cases a.leaves with
  | none => exact h
  | some v =>
    by_cases hk : k = a.key
    · subst hk; simp
    · simpa [hk] using h

theorem replay_other {k : K} (m : K → Option V) (log : List (Access K V))
    (h : ∀ a ∈ log, a.key = k → a.leaves = none) : replay m log k = m k := by
  induction log generalizing m with
  | nil => rfl
  | cons a log ih =>
    rw [replay_cons, ih _ fun b hb => h b (List.mem_cons_of_mem _ hb)]
    exact effect_other m (h a List.mem_cons_self)

theorem replays_congr {m m' : K → Option V} {log : List (Access K V)} (hr : Replays m log)
    (h : ∀ a ∈ log, m a.key = m' a.key) : Replays m' log := by
  induction log generalizing m m' with
  | nil => trivial
  | cons a log ih =>
    refine ⟨?_, ih hr.2 fun b hb => ?_⟩
    · rw [← h a List.mem_cons_self]; exact hr.1
    · exact effect_congr a (h b (List.mem_cons_of_mem _ hb))

theorem replays_append {m : K → Option V} {log : List (Access K V)} {a : Access K V} :
    Replays m (log ++ [a]) ↔ Replays m log ∧ a.sees (replay m log a.key) := by
  induction log generalizing m with
  | nil => simp
  | cons b log ih => simp [ih, and_assoc]

/-! ## The store -/

structure Store (K V X : Type) where
  data : K → Option V
  active : X → Option (List (Access K V)) := fun _ => none

namespace Store

def begin (s : Store K V X) (x : X) : Store K V X :=
  { s with active := Function.update s.active x (some []) }

def record (s : Store K V X) (x : X) (a : Access K V) : Store K V X :=
  { s with active := Function.update s.active x ((s.active x).map (· ++ [a])) }

def discard (s : Store K V X) (x : X) : Store K V X :=
  { s with active := Function.update s.active x none }

def commit (s : Store K V X) (x : X) : Store K V X :=
  { data := replay s.data ((s.active x).getD []), active := Function.update s.active x none }

/-- The access sees the transaction's own view, and nobody else holds a lock against it. -/
def Grants (s : Store K V X) (x : X) (a : Access K V) : Prop :=
  ∃ log, s.active x = some log ∧ a.sees (replay s.data log a.key) ∧
    ∀ y log', y ≠ x → s.active y = some log' → ∀ b ∈ log', ¬ Conflict a b

structure Inv (s : Store K V X) : Prop where
  replays : ∀ x log, s.active x = some log → Replays s.data log
  apart : ∀ x y log log', x ≠ y → s.active x = some log → s.active y = some log' →
    ∀ a ∈ log, ∀ b ∈ log', ¬ Conflict a b

omit [DecidableEq X] in
theorem inv_initial (m : K → Option V) : Inv (X := X) { data := m } where
  replays _ _ h := nomatch h
  apart _ _ _ _ _ h := nomatch h

variable {s : Store K V X} {x : X}

/-- The invariant after the log of one transaction has been replaced. -/
theorem Inv.replace (h : s.Inv) (o : Option (List (Access K V)))
    (hr : ∀ log, o = some log → Replays s.data log)
    (ha : ∀ log, o = some log → ∀ y log', y ≠ x → s.active y = some log' →
      ∀ a ∈ log, ∀ b ∈ log', ¬ Conflict a b) :
    Inv { s with active := Function.update s.active x o } where
  replays y log hy := by
    by_cases hx : y = x
    · subst hx; exact hr log (by simpa using hy)
    · exact h.replays y log (by simpa [hx] using hy)
  apart y z log log' hyz hy hz a hal b hbl := by
    by_cases hyx : y = x
    · subst hyx
      exact ha log (by simpa using hy) z log' hyz.symm (by simpa [hyz.symm] using hz) a hal b hbl
    · by_cases hzx : z = x
      · subst hzx
        intro hc
        exact ha log' (by simpa using hz) y log hyz (by simpa [hyz] using hy) b hbl a hal
          ⟨hc.1.symm, hc.2.symm⟩
      · exact h.apart y z log log' hyz (by simpa [hyx] using hy) (by simpa [hzx] using hz) a hal b hbl

theorem Inv.begin (h : s.Inv) (x : X) : (s.begin x).Inv :=
  h.replace _ (fun log ho => by cases ho; trivial) (fun log ho => by cases ho; simp)

theorem Inv.discard (h : s.Inv) (x : X) : (s.discard x).Inv :=
  h.replace _ (fun log ho => by cases ho) (fun log ho => by cases ho)

theorem Inv.record (h : s.Inv) {a : Access K V} (hg : s.Grants x a) : (s.record x a).Inv := by
  obtain ⟨log, hx, hsees, hlocks⟩ := hg
  refine h.replace _ ?_ ?_
  · intro log' ho
    rw [hx] at ho
    cases ho
    exact replays_append.mpr ⟨h.replays x log hx, hsees⟩
  · intro log' ho y log'' hy hactive c hc
    rw [hx] at ho
    cases ho
    cases List.mem_append.mp hc with
    | inl hc => exact h.apart x y log log'' hy.symm hx hactive c hc
    | inr hc =>
      rw [List.mem_singleton.mp hc]
      exact hlocks y log'' hy hactive

/-- A commit changes the data only where no other active transaction has looked. -/
theorem Inv.commit (h : s.Inv) {log : List (Access K V)} (hx : s.active x = some log) :
    (s.commit x).Inv := by
  have hlog : (s.active x).getD [] = log := by rw [hx]; rfl
  have hother : ∀ y log', y ≠ x → s.active y = some log' → ∀ b ∈ log',
      replay s.data log b.key = s.data b.key := by
    intro y log' hy hactive b hb
    refine replay_other _ _ fun a ha hk => ?_
    by_contra hw
    exact h.apart x y log log' hy.symm hx hactive a ha b hb ⟨hk, .inl hw⟩
  have hd := h.discard x
  constructor
  · intro y log' hy
    have hyx : y ≠ x := by
      rintro rfl
      simp [Store.commit] at hy
    have hactive : s.active y = some log' := by simpa [Store.commit, hyx] using hy
    refine replays_congr (h.replays y log' hactive) fun b hb => ?_
    simp only [Store.commit, hlog]
    exact (hother y log' hyx hactive b hb).symm
  · exact hd.apart

end Store

end TwoPhase
