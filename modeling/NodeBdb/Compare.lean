import NodeBdb.Arguments
import Mathlib.Data.List.Infix

/-!
# The order of the keys

The default comparison of a BTREE, and the default prefix that a split keeps of a key. The
sizes of two keys are subtracted as 64 bit numbers, and 32 bits of the difference returned.
-/

namespace NodeBdb

/-- The loop of `__bam_defcmp`, and what stands after it. -/
def defcmpFrom (aSize bSize : Nat) : Bytes → Bytes → Int
  | p1 :: a, p2 :: b =>
    if p1 ≠ p2 then toInt ((p1.toNat : Int) - p2.toNat) else defcmpFrom aSize bSize a b
  | _, _ => toInt ((aSize : Int) - bSize)

/-- `__bam_defcmp`. -/
def bamDefcmp (a b : Bytes) : Int := defcmpFrom a.length b.length a b

/-- The loop of `__bam_defpfx`, and what stands after it. -/
def defpfxFrom (aSize bSize : Nat) : (cnt : Nat) → Bytes → Bytes → Nat
  | cnt, p1 :: a, p2 :: b => if p1 ≠ p2 then cnt else defpfxFrom aSize bSize (cnt + 1) a b
  | _, _, _ =>
    if aSize < bSize then aSize + 1
    else if bSize < aSize then bSize + 1
    else bSize

/-- `__bam_defpfx`. -/
def bamDefpfx (a b : Bytes) : Nat := defpfxFrom a.length b.length 1 a b

/-! ## Two keys -/

/-- How two keys come apart. -/
inductive Meets : Bytes → Bytes → Prop where
  | same (a : Bytes) : Meets a a
  | differ (p : Bytes) {x y : UInt8} (s t : Bytes) : x ≠ y → Meets (p ++ x :: s) (p ++ y :: t)
  | shorter (a : Bytes) (y : UInt8) (t : Bytes) : Meets a (a ++ y :: t)
  | longer (b : Bytes) (x : UInt8) (s : Bytes) : Meets (b ++ x :: s) b

theorem meets (a b : Bytes) : Meets a b := by
  induction a generalizing b with
  | nil =>
    cases b with
    | nil => exact .same []
    | cons y t => exact .shorter [] y t
  | cons x a ih =>
    cases b with
    | nil => exact .longer [] x a
    | cons y b =>
      by_cases hxy : x = y
      · subst hxy
        cases ih b with
        | same => exact .same _
        | differ p s t h => exact .differ (x :: p) s t h
        | shorter _ y t => exact .shorter (x :: a) y t
        | longer _ x' s => exact .longer (x :: b) x' s
      · exact .differ [] a b hxy

theorem append_lt_append (p s t : Bytes) : p ++ s < p ++ t ↔ s < t := by
  induction p with
  | nil => rfl
  | cons x p ih =>
    rw [List.cons_append, List.cons_append, List.cons_lt_cons_iff, ih]
    constructor
    · intro h
      cases h with
      | inl hlt => exact absurd hlt (UInt8.lt_irrefl x)
      | inr hlt => exact hlt.2
    · exact fun h => .inr ⟨rfl, h⟩

theorem lt_append (a : Bytes) (y : UInt8) (t : Bytes) : a < a ++ y :: t := by
  have h : a ++ [] < a ++ y :: t := (append_lt_append a [] (y :: t)).mpr (List.nil_lt_cons y t)
  rwa [List.append_nil] at h

theorem differ_lt (p s t : Bytes) {x y : UInt8} (h : x ≠ y) : p ++ x :: s < p ++ y :: t ↔ x < y := by
  rw [append_lt_append, List.cons_lt_cons_iff]
  constructor
  · intro hlt
    cases hlt with
    | inl hlt => exact hlt
    | inr heq => exact absurd heq.1 h
  · exact .inl

/-! ## The comparison -/

theorem defcmpFrom_append (n m : Nat) (p s t : Bytes) :
    defcmpFrom n m (p ++ s) (p ++ t) = defcmpFrom n m s t := by
  induction p with
  | nil => rfl
  | cons x p ih =>
    rw [List.cons_append, List.cons_append, defcmpFrom, if_neg (fun h => h rfl), ih]

theorem defcmpFrom_left (n m : Nat) (t : Bytes) : defcmpFrom n m [] t = toInt ((n : Int) - m) := rfl

theorem defcmpFrom_right (n m : Nat) (s : Bytes) : defcmpFrom n m s [] = toInt ((n : Int) - m) := by
  cases s <;> rfl

theorem defcmp_same (a : Bytes) : bamDefcmp a a = 0 := by
  have h := defcmpFrom_append a.length a.length a [] []
  rw [List.append_nil, defcmpFrom_left, Int.sub_self] at h
  exact h

theorem defcmp_differ (p s t : Bytes) {x y : UInt8} (h : x ≠ y) :
    bamDefcmp (p ++ x :: s) (p ++ y :: t) = toInt ((x.toNat : Int) - y.toNat) := by
  rw [bamDefcmp, defcmpFrom_append, defcmpFrom, if_pos h]

theorem defcmp_shorter (a t : Bytes) :
    bamDefcmp a (a ++ t) = toInt ((a.length : Int) - (a ++ t).length) := by
  have h := defcmpFrom_append a.length (a ++ t).length a [] t
  rw [List.append_nil, defcmpFrom_left] at h
  exact h

theorem defcmp_longer (b s : Bytes) :
    bamDefcmp (b ++ s) b = toInt (((b ++ s).length : Int) - b.length) := by
  have h := defcmpFrom_append (b ++ s).length b.length b s []
  rw [List.append_nil, defcmpFrom_right] at h
  exact h

/-- The sign that 32 bits of a difference of sizes have. -/
theorem toInt_neg {n : Int} (hlow : -4294967296 < n) (hhigh : n < 4294967296) :
    toInt n < 0 ↔ -2147483648 ≤ n ∧ n < 0 ∨ 2147483648 ≤ n := by
  simp only [toInt, Int.bmod]
  split <;> omega

theorem toInt_zero {n : Int} (hlow : -4294967296 < n) (hhigh : n < 4294967296) :
    toInt n = 0 ↔ n = 0 := by
  simp only [toInt, Int.bmod]
  split <;> omega

/-- The result tells how the keys are ordered. -/
structure Compares (a b : Bytes) : Prop where
  less : bamDefcmp a b < 0 ↔ a < b
  equal : bamDefcmp a b = 0 ↔ a = b

theorem same_compares (a : Bytes) : Compares a a := by
  have hirr : ¬ a < a := List.lt_irrefl a
  exact ⟨by simp [defcmp_same, hirr], by simp [defcmp_same]⟩

theorem differ_compares (p s t : Bytes) {x y : UInt8} (h : x ≠ y) :
    Compares (p ++ x :: s) (p ++ y :: t) := by
  have hx := x.toNat_lt
  have hy := y.toNat_lt
  have hne : x.toNat ≠ y.toNat := fun he => h (UInt8.toNat_inj.mp he)
  constructor
  · rw [defcmp_differ p s t h, differ_lt p s t h, toInt_neg (by omega) (by omega),
      UInt8.lt_iff_toNat_lt]
    omega
  · rw [defcmp_differ p s t h, toInt_zero (by omega) (by omega)]
    apply iff_of_false
    · omega
    · simp [h]

theorem shorter_compares_iff (a : Bytes) (y : UInt8) (t : Bytes) (h : t.length + 1 < 2 ^ 32) :
    Compares a (a ++ y :: t) ↔ t.length + 1 ≤ 2 ^ 31 := by
  have hlt := lt_append a y t
  constructor
  · intro hc
    have hneg := hc.less.mpr hlt
    rw [defcmp_shorter, List.length_append, List.length_cons, toInt_neg (by omega) (by omega)] at hneg
    omega
  · intro hle
    constructor
    · apply iff_of_true ?_ hlt
      rw [defcmp_shorter, List.length_append, List.length_cons, toInt_neg (by omega) (by omega)]
      omega
    · apply iff_of_false
      · rw [defcmp_shorter, List.length_append, List.length_cons, toInt_zero (by omega) (by omega)]
        omega
      · simp

theorem longer_compares_iff (b : Bytes) (x : UInt8) (s : Bytes) (h : s.length + 1 < 2 ^ 32) :
    Compares (b ++ x :: s) b ↔ s.length + 1 < 2 ^ 31 := by
  have hlt : ¬ b ++ x :: s < b := fun hlt => List.lt_irrefl b (List.lt_trans (lt_append b x s) hlt)
  constructor
  · intro hc
    have hpos := mt hc.less.mp hlt
    rw [defcmp_longer, List.length_append, List.length_cons, toInt_neg (by omega) (by omega)] at hpos
    omega
  · intro hle
    constructor
    · apply iff_of_false ?_ hlt
      rw [defcmp_longer, List.length_append, List.length_cons, toInt_neg (by omega) (by omega)]
      omega
    · apply iff_of_false
      · rw [defcmp_longer, List.length_append, List.length_cons, toInt_zero (by omega) (by omega)]
        omega
      · simp

theorem not_prefix_of_differ {p s t : Bytes} {x y : UInt8} (h : x ≠ y) :
    ¬ p ++ x :: s <+: p ++ y :: t := by
  intro hp
  rw [List.prefix_append_right_inj, List.cons_prefix_cons] at hp
  exact h hp.1

theorem not_prefix_of_longer (a : Bytes) (y : UInt8) (t : Bytes) : ¬ a ++ y :: t <+: a := by
  intro hp
  have hle := hp.length_le
  rw [List.length_append, List.length_cons] at hle
  omega

/-- The comparison is that of byte strings exactly where neither key is a prefix of the other and
too much shorter. -/
theorem defcmp_compares_iff (a b : Bytes) (ha : a.length < 2 ^ 32) (hb : b.length < 2 ^ 32) :
    Compares a b ↔ (a <+: b → b.length - a.length ≤ 2 ^ 31) ∧
      (b <+: a → a.length - b.length < 2 ^ 31) := by
  cases meets a b with
  | same => exact iff_of_true (same_compares a) (by simp)
  | differ p s t h =>
    apply iff_of_true (differ_compares p s t h)
    exact ⟨fun hp => absurd hp (not_prefix_of_differ h), fun hp => absurd hp (not_prefix_of_differ h.symm)⟩
  | shorter _ y t =>
    rw [List.length_append, List.length_cons] at hb
    have hdiff : (a ++ y :: t).length - a.length = t.length + 1 := by simp
    rw [shorter_compares_iff a y t (by omega), hdiff]
    constructor
    · exact fun hle => ⟨fun _ => hle, fun hp => absurd hp (not_prefix_of_longer a y t)⟩
    · exact fun h => h.1 (List.prefix_append a _)
  | longer _ x s =>
    rw [List.length_append, List.length_cons] at ha
    have hdiff : (b ++ x :: s).length - b.length = s.length + 1 := by simp
    rw [longer_compares_iff b x s (by omega), hdiff]
    constructor
    · exact fun hlt => ⟨fun hp => absurd hp (not_prefix_of_longer b x s), fun _ => hlt⟩
    · exact fun h => h.2 (List.prefix_append b _)

theorem defcmp_compares_short : Compares [107] [107, 0] :=
  (defcmp_compares_iff [107] [107, 0] (by decide) (by decide)).mpr (by decide)

/-- Below 2 GiB no difference of sizes is too much. -/
theorem short_compares {a b : Bytes} (ha : a.length < 2 ^ 31) (hb : b.length < 2 ^ 31) :
    Compares a b := by
  cases meets a b with
  | same => exact same_compares a
  | differ p s t h => exact differ_compares p s t h
  | shorter _ y t =>
    rw [List.length_append, List.length_cons] at hb
    exact (shorter_compares_iff a y t (by omega)).mpr (by omega)
  | longer _ x s =>
    rw [List.length_append, List.length_cons] at ha
    exact (longer_compares_iff b x s (by omega)).mpr (by omega)

/-! ## The prefix -/

theorem defpfxFrom_append (n m cnt : Nat) (p s t : Bytes) :
    defpfxFrom n m cnt (p ++ s) (p ++ t) = defpfxFrom n m (cnt + p.length) s t := by
  induction p generalizing cnt with
  | nil => rfl
  | cons x p ih =>
    rw [List.cons_append, List.cons_append, defpfxFrom, if_neg (fun h => h rfl), ih, List.length_cons,
      Nat.add_right_comm, Nat.add_assoc]

theorem defpfx_differ (p s t : Bytes) {x y : UInt8} (h : x ≠ y) :
    bamDefpfx (p ++ x :: s) (p ++ y :: t) = p.length + 1 := by
  rw [bamDefpfx, defpfxFrom_append, defpfxFrom, if_pos h, Nat.add_comm]

theorem defpfx_shorter (a : Bytes) (y : UInt8) (t : Bytes) :
    bamDefpfx a (a ++ y :: t) = a.length + 1 := by
  have h := defpfxFrom_append a.length (a ++ y :: t).length 1 a [] (y :: t)
  rw [List.append_nil] at h
  rw [bamDefpfx, h]
  exact if_pos (by simp)

/-- A prefix does not come after what it is a prefix of. -/
theorem prefix_not_after {c a : Bytes} (h : c <+: a) : ¬ a < c := by
  obtain ⟨t, rfl⟩ := h
  intro hlt
  have hnil : c ++ t < c ++ [] := by rwa [List.append_nil]
  exact List.not_lt_nil t ((append_lt_append c t []).mp hnil)

/-- A prefix of the greater key comes after the smaller one as soon as it is as long as that. -/
theorem defpfx_separates_iff (a b : Bytes) (h : a < b) (m : Nat) :
    a < b.take m ↔ bamDefpfx a b ≤ m := by
  have hlong : ∀ (p : Bytes) (y : UInt8) (t : Bytes), p.length + 1 ≤ m →
      (p ++ y :: t).take m = p ++ y :: t.take (m - p.length - 1) := by
    intro p y t hm
    obtain ⟨n, rfl⟩ : ∃ n, m = p.length + (n + 1) := ⟨m - p.length - 1, by omega⟩
    rw [List.take_length_add_append, List.take_succ_cons]
    congr
    omega
  have hshort : ∀ (p t : Bytes), m ≤ p.length → (p ++ t).take m <+: p := by
    intro p t hm
    rw [List.take_append_of_le_length hm]
    exact List.take_prefix m p
  cases meets a b with
  | same => exact absurd h (List.lt_irrefl a)
  | @differ p x y s t hxy =>
    rw [defpfx_differ p s t hxy]
    constructor
    · intro hlt
      by_contra hm
      exact prefix_not_after ((hshort p _ (by omega)).trans (List.prefix_append p _)) hlt
    · intro hm
      rw [hlong p y t hm]
      exact (differ_lt p s _ hxy).mpr ((differ_lt p s t hxy).mp h)
  | shorter _ y t =>
    rw [defpfx_shorter]
    constructor
    · intro hlt
      by_contra hm
      exact prefix_not_after (hshort a _ (by omega)) hlt
    · intro hm
      rw [hlong a y t hm]
      exact lt_append a y _
  | longer _ x s => exact absurd (List.lt_trans h (lt_append b x s)) (List.lt_irrefl _)

theorem defpfx_separates_sole : ([107, 1] : Bytes) < ([108, 2, 3] : Bytes).take 1 :=
  (defpfx_separates_iff [107, 1] [108, 2, 3] (by decide) 1).mpr (by decide)

end NodeBdb
