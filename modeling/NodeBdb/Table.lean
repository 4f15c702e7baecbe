import Mathlib.Data.List.Induction

/-!
# Tables and logs

A system keeps its threads, requests or objects in a list and names them by position. An
entry is replaced or one is added at the end, and every other entry stays where it is. A
log only grows, so what an entry owes to those before it is owed once.
-/

namespace Table

variable {α : Type} {l : List α} {i j : Nat} {a b x : α} {p : α → Bool}

theorem get_set (h : l[i]? = some a) (hj : (l.set i b)[j]? = some x) :
    j = i ∧ x = b ∨ j ≠ i ∧ l[j]? = some x := by
  by_cases hij : j = i
  · subst hij
    rw [List.getElem?_set_self (List.getElem?_eq_some_iff.mp h).1] at hj
    exact .inl ⟨rfl, (Option.some.inj hj).symm⟩
  · rw [List.getElem?_set_ne (Ne.symm hij)] at hj
    exact .inr ⟨hij, hj⟩

theorem get_append (hj : (l ++ [a])[j]? = some x) :
    j = l.length ∧ x = a ∨ j < l.length ∧ l[j]? = some x := by
  have hlt := (List.getElem?_eq_some_iff.mp hj).1
  simp only [List.length_append, List.length_singleton] at hlt
  by_cases hl : j < l.length
  · rw [List.getElem?_append_left hl] at hj
    exact .inr ⟨hl, hj⟩
  · obtain rfl : j = l.length := by omega
    rw [List.getElem?_concat_length] at hj
    exact .inl ⟨rfl, (Option.some.inj hj).symm⟩

theorem set_self (h : l[i]? = some a) : (l.set i b)[i]? = some b :=
  List.getElem?_set_self (List.getElem?_eq_some_iff.mp h).1

theorem set_other (h : j ≠ i) : (l.set i b)[j]? = l[j]? :=
  List.getElem?_set_ne (Ne.symm h)

theorem append_left (h : l[j]? = some x) : (l ++ [a])[j]? = some x := by
  rw [List.getElem?_append_left (List.getElem?_eq_some_iff.mp h).1]
  exact h

/-- An entry that is replaced takes its count with it. -/
theorem countP_set (h : l[i]? = some a) :
    (l.set i b).countP p + (if p a then 1 else 0) = l.countP p + (if p b then 1 else 0) := by
  obtain ⟨hi, he⟩ := List.getElem?_eq_some_iff.mp h
  rw [List.countP_set hi, he]
  by_cases hp : p a = true
  · have hpos : 0 < l.countP p := List.countP_pos_iff.mpr ⟨a, List.mem_of_getElem? h, hp⟩
    simp only [hp, ↓reduceIte]
    omega
  · simp [hp]

/-! ## Logs -/

/-- Where an entry of a log that has grown by one stands. -/
theorem split_snoc {p q : List α} (h : l ++ [a] = p ++ x :: q) :
    q = [] ∧ l = p ∧ a = x ∨ ∃ q', q = q' ++ [a] ∧ l = p ++ x :: q' := by
  cases List.eq_nil_or_concat q with
  | inl hq =>
    subst hq
    obtain ⟨rfl, he⟩ := List.append_inj' h rfl
    exact .inl ⟨rfl, rfl, List.singleton_inj.mp he⟩
  | inr hq =>
    obtain ⟨q', y, rfl⟩ := hq
    rw [List.concat_eq_append, ← List.cons_append, ← List.append_assoc] at h
    obtain ⟨rfl, he⟩ := List.append_inj' h rfl
    rw [List.singleton_inj.mp he]
    exact .inr ⟨q', by simp, rfl⟩

/-- Each entry stands in the relation `P` to the log before it. -/
def Each (P : List α → α → Prop) (l : List α) : Prop :=
  ∀ before a after, l = before ++ a :: after → P before a

theorem each_nil {P : List α → α → Prop} : Each P [] := by
  intro before a after h
  cases before <;> cases h

theorem each_snoc {P : List α → α → Prop} : Each P (l ++ [a]) ↔ Each P l ∧ P l a := by
  constructor
  · intro h
    constructor
    · intro before x after he
      exact h before x (after ++ [a]) (by simp [he])
    · exact h l a [] rfl
  · rintro ⟨hold, hnew⟩ before x after he
    cases split_snoc he with
    | inl hlast =>
      obtain ⟨-, rfl, rfl⟩ := hlast
      exact hnew
    | inr hmid =>
      obtain ⟨after', -, hl⟩ := hmid
      exact hold before x after' hl

/-- What never comes after itself comes at most once. -/
theorem countP_le_one (h : Each (fun before a => p a = true → ∀ b ∈ before, p b = false) l) :
    l.countP p ≤ 1 := by
  induction l using List.reverseRecOn with
  | nil => exact Nat.zero_le 1
  | append_singleton l a ih =>
    obtain ⟨hold, hnew⟩ := each_snoc.mp h
    rw [List.countP_append, List.countP_singleton]
    by_cases ha : p a = true
    · have h0 : l.countP p = 0 := List.countP_eq_zero.mpr fun b hb => by simp [hnew ha b hb]
      simp [h0, ha]
    · simp only [ha, Bool.false_eq_true, ↓reduceIte]
      exact ih hold

end Table
