import Mathlib.Algebra.Order.Ring.Nat
import Mathlib.Tactic.Ring

/-!
# Searching by halves

A binary search over entries that stand `adjust` apart, which asks for the sign of what is
searched for against an entry. It keeps a base and the number of entries from there on that
are left. The entries before the base are too small and those after the last too great, and
one comparison halves what lies between.
-/

namespace Bisect

/-- An entry, or where one would have to stand. -/
inductive Spot where
  | found : (index : Nat) → Spot
  | missed : (base : Nat) → Spot
  deriving DecidableEq, Repr

section

variable {m : Type → Type} [Monad m]

/-- The search of the `lim` entries from `base` on. -/
def halve (cmp : Nat → m Int) (adjust base lim : Nat) : m Spot :=
  if lim = 0 then pure (.missed base)
  else do
    let c ← cmp (base + lim / 2 * adjust)
    if c = 0 then pure (.found (base + lim / 2 * adjust))
    else if 0 < c then halve cmp adjust (base + lim / 2 * adjust + adjust) ((lim - 1) / 2)
    else halve cmp adjust base (lim / 2)
termination_by lim
decreasing_by all_goals omega

/-- What is not before an entry is after all the entries before it. -/
def Ordered (sign : Nat → Int) (n : Nat) : Prop :=
  ∀ i j, i < j → j < n → 0 ≤ sign j → 0 < sign i

/-- An entry that is equal, or the first that is too great. -/
inductive Lands (sign : Nat → Int) (adjust n : Nat) : Spot → Prop where
  | found {i : Nat} : i < n → sign i = 0 → Lands sign adjust n (.found (i * adjust))
  | missed {i : Nat} : i ≤ n → (∀ j < i, 0 < sign j) → (∀ j, i ≤ j → j < n → sign j < 0) →
      Lands sign adjust n (.missed (i * adjust))

variable {cmp : Nat → m Int} {sign : Nat → Int} {adjust n : Nat}

theorem Ordered.after (hs : Ordered sign n) {i j : Nat} (hij : i ≤ j) (hj : j < n)
    (hi : sign i < 0) : sign j < 0 := by
  by_cases heq : i = j
  · subst heq
    exact hi
  · by_contra hneg
    have hpos := hs i j (by omega) hj (by omega)
    omega

theorem Ordered.before (hs : Ordered sign n) {i j : Nat} (hij : i ≤ j) (hj : j < n)
    (hpos : 0 < sign j) : 0 < sign i := by
  by_cases heq : i = j
  · subst heq
    exact hpos
  · exact hs i j (by omega) hj (by omega)

/-- The induction is on the entries left; `b` of them lie before the base. -/
theorem halve_from [LawfulMonad m] (hs : Ordered sign n)
    (hcmp : ∀ i < n, cmp (i * adjust) = pure (sign i)) (lim b : Nat) (hb : b + lim ≤ n)
    (hbefore : ∀ j < b, 0 < sign j) (hafter : ∀ j, b + lim ≤ j → j < n → sign j < 0) :
    ∃ spot, halve cmp adjust (b * adjust) lim = pure spot ∧ Lands sign adjust n spot := by
  induction lim using Nat.strongRecOn generalizing b with
  | ind lim ih =>
    rw [halve]
    by_cases hlim : lim = 0
    · subst hlim
      exact ⟨_, if_pos rfl, .missed hb hbefore hafter⟩
    · have hindex : b * adjust + lim / 2 * adjust = (b + lim / 2) * adjust := by ring
      have hmid : b + lim / 2 < n := by omega
      rw [if_neg hlim, hindex, hcmp _ hmid, pure_bind]
      by_cases hzero : sign (b + lim / 2) = 0
      · rw [if_pos hzero]
        exact ⟨_, rfl, .found hmid hzero⟩
      · rw [if_neg hzero]
        by_cases hpos : 0 < sign (b + lim / 2)
        · have hbase : (b + lim / 2) * adjust + adjust = (b + lim / 2 + 1) * adjust := by ring
          rw [if_pos hpos, hbase]
          apply ih ((lim - 1) / 2) (by omega) (b + lim / 2 + 1) (by omega)
          · intro j hj
            exact hs.before (by omega) hmid hpos
          · intro j hj hn
            exact hafter j (by omega) hn
        · rw [if_neg hpos]
          apply ih (lim / 2) (by omega) b (by omega) hbefore
          intro j hj hn
          exact hs.after hj hn (by omega)

/-- Over entries in order the search finds what is there, or where it would stand. -/
theorem halve_lands [LawfulMonad m] (hs : Ordered sign n)
    (hcmp : ∀ i < n, cmp (i * adjust) = pure (sign i)) :
    ∃ spot, halve cmp adjust 0 n = pure spot ∧ Lands sign adjust n spot := by
  have h := halve_from hs hcmp n 0 (by omega) (fun j hj => absurd hj (Nat.not_lt_zero j))
    fun j hj hn => absurd hn (by omega)
  rwa [Nat.zero_mul] at h

/-- The same, where all that is known of a sign is how it tells about its entry. -/
theorem halve_tells [LawfulMonad m] (adjust : Nat) (tells : Nat → Int → Prop)
    (hcmp : ∀ i < n, ∃ c, cmp (i * adjust) = pure c ∧ tells i c)
    (hordered : ∀ i j c d, i < j → j < n → tells i c → tells j d → 0 ≤ d → 0 < c) :
    ∃ spot sign, halve cmp adjust 0 n = pure spot ∧ (∀ i < n, tells i (sign i)) ∧
      Ordered sign n ∧ Lands sign adjust n spot := by
  have hex : ∀ i, ∃ c, i < n → cmp (i * adjust) = pure c ∧ tells i c := by
    intro i
    by_cases hi : i < n
    · obtain ⟨c, hc⟩ := hcmp i hi
      exact ⟨c, fun _ => hc⟩
    · exact ⟨0, fun h => absurd h hi⟩
  choose sign hsign using hex
  have hs : Ordered sign n := by
    intro i j hij hj
    have hi : i < n := by omega
    exact hordered i j _ _ hij hj (hsign i hi).2 (hsign j hj).2
  obtain ⟨spot, hspot, hlands⟩ := halve_lands hs fun i hi => (hsign i hi).1
  exact ⟨spot, sign, hspot, fun i hi => (hsign i hi).2, hs, hlands⟩

end

end Bisect
