import NodeBdb.RangeLocks

/-!
# Scans of a map

What a cursor finds is settled by the keys it passed over, those where there was nothing
included. A scan of an ordered map looks for the first record, in one of the two directions
of the order, among the keys on one side of where it starts.
-/

namespace RangeLocks

variable {F K V : Type}

/-- How the gets of a cursor go. `pos` is where the cursor stands, if it stands anywhere, and
`range` is what a get with that result has looked at. -/
structure Moves (F K V : Type) where
  next : (f : F) → (pos : Option K) → (key : K) → (m : K → Option V) → Option (K × V)
  range : (f : F) → (pos : Option K) → (key : K) → (r : Option (K × V)) → Set K
  settled : ∀ f pos key m m', (∀ k ∈ range f pos key (next f pos key m), m k = m' k) →
    next f pos key m' = next f pos key m

namespace Moves

variable (mv : Moves F K V)

/-- The access of a get that came to `r`. -/
def look (f : F) (pos : Option K) (key : K) (r : Option (K × V)) : Access K V where
  reads := mv.range f pos key r
  sees m := mv.next f pos key m = r
  settled m m' h hs := by
    subst hs
    exact mv.settled f pos key m m' h

/-- At most `n` records, from the one after `pos` on. -/
def onward (f : F) (key : K) (m : K → Option V) : Nat → Option K → List (K × V)
  | 0, _ => []
  | n + 1, pos =>
    match mv.next f pos key m with
    | none => []
    | some r => r :: onward f key m n (some r.1)

/-- The record at which the cursor is positioned, and at most `n` more. -/
def page (initFlag f : F) (start key : K) (m : K → Option V) (n : Nat) : List (K × V) :=
  match mv.next initFlag none start m with
  | none => []
  | some r => r :: mv.onward f key m n (some r.1)

variable {f : F} {key : K} {m : K → Option V} {n : Nat} {pos : Option K}

@[simp] theorem onward_zero : mv.onward f key m 0 pos = [] := rfl

theorem onward_none (h : mv.next f pos key m = none) : mv.onward f key m n pos = [] := by
  cases n with
  | zero => rfl
  | succ n => rw [onward, h]

theorem onward_some {r : K × V} (h : mv.next f pos key m = some r) :
    mv.onward f key m (n + 1) pos = r :: mv.onward f key m n (some r.1) := by
  rw [onward, h]

/-- Who takes more records takes the same first ones. -/
theorem onward_mono {n' : Nat} (h : n ≤ n') :
    mv.onward f key m n pos <+: mv.onward f key m n' pos := by
  induction n generalizing n' pos with
  | zero => exact List.nil_prefix
  | succ n ih =>
    obtain ⟨k, rfl⟩ := Nat.exists_eq_add_of_le' h
    cases hnext : mv.next f pos key m with
    | none =>
      rw [mv.onward_none hnext]
      exact List.nil_prefix
    | some r =>
      rw [mv.onward_some hnext, ← Nat.add_assoc, mv.onward_some hnext]
      exact List.cons_prefix_cons.mpr ⟨rfl, ih (Nat.le_add_left n k)⟩

theorem page_mono {initFlag : F} {start : K} {n' : Nat} (h : n ≤ n') :
    mv.page initFlag f start key m n <+: mv.page initFlag f start key m n' := by
  unfold page
  cases mv.next initFlag none start m with
  | none => exact List.prefix_rfl
  | some r => exact List.cons_prefix_cons.mpr ⟨rfl, mv.onward_mono h⟩

end Moves

/-! ## The first record in a direction -/

/-- `r` is a record of `m` with its key in `within`, and no such record comes before it. -/
structure IsFirst (lt : K → K → Prop) (within : Set K) (m : K → Option V) (r : K × V) : Prop where
  mem : r.1 ∈ within
  record : m r.1 = some r.2
  least : ∀ k ∈ within, m k ≠ none → ¬ lt k r.1

/-- The keys looked at by a scan that came to `r`. -/
def passed (lt : K → K → Prop) (within : Set K) : Option (K × V) → Set K
  | none => within
  | some r => {k | k ∈ within ∧ (lt k r.1 ∨ k = r.1)}

open Classical in
/-- Where there is no first record, although there are some, a scan finds none. -/
noncomputable def first (lt : K → K → Prop) (within : Set K) (m : K → Option V) : Option (K × V) :=
  if h : ∃ r, IsFirst lt within m r then some h.choose else none

section First

variable {lt : K → K → Prop} {within : Set K} {m m' : K → Option V}

theorem first_none (h : ¬ ∃ r, IsFirst lt within m r) : first lt within m = none := dif_neg h

theorem IsFirst.unique (htri : ∀ j k, ¬ lt j k → ¬ lt k j → j = k) {r s : K × V}
    (hr : IsFirst lt within m r) (hs : IsFirst lt within m s) : r = s := by
  have hk : r.1 = s.1 := by
    apply htri
    · exact hs.least r.1 hr.mem (by simp [hr.record])
    · exact hr.least s.1 hs.mem (by simp [hs.record])
  have hv : some r.2 = some s.2 := by rw [← hr.record, ← hs.record, hk]
  exact Prod.ext hk (Option.some.inj hv)

theorem first_some (htri : ∀ j k, ¬ lt j k → ¬ lt k j → j = k) {r : K × V} :
    first lt within m = some r ↔ IsFirst lt within m r := by
  constructor
  · intro h
    by_cases hex : ∃ r, IsFirst lt within m r
    · rw [first, dif_pos hex, Option.some.injEq] at h
      rw [← h]
      exact hex.choose_spec
    · rw [first_none hex] at h
      cases h
  · intro h
    have hex : ∃ r, IsFirst lt within m r := ⟨r, h⟩
    rw [first, dif_pos hex, hex.choose_spec.unique htri h]

/-- A first record stays one where the keys passed over are the same. -/
theorem IsFirst.congr {r : K × V} (h : IsFirst lt within m r)
    (hm : ∀ k ∈ passed lt within (some r), m k = m' k) : IsFirst lt within m' r where
  mem := h.mem
  record := by
    rw [← hm r.1 ⟨h.mem, .inr rfl⟩]
    exact h.record
  least k hk hv hlt := by
    apply h.least k hk ?_ hlt
    rw [hm k ⟨hk, .inl hlt⟩]
    exact hv

/-- What a scan finds is settled by the keys it passed over. -/
theorem first_settled (htri : ∀ j k, ¬ lt j k → ¬ lt k j → j = k)
    (hm : ∀ k ∈ passed lt within (first lt within m), m k = m' k) :
    first lt within m' = first lt within m := by
  cases hr : first lt within m with
  | some r =>
    rw [hr] at hm
    exact (first_some htri).mpr (((first_some htri).mp hr).congr hm)
  | none =>
    rw [hr] at hm
    apply first_none
    rintro ⟨r, h⟩
    have hback : IsFirst lt within m r := by
      apply h.congr
      intro k hk
      exact (hm k hk.1).symm
    rw [(first_some htri).mpr hback] at hr
    cases hr

end First

/-! ## Ordered maps -/

inductive Seek where
  | first | last | next | prev | set | setRange
  deriving DecidableEq, Repr

namespace Seek

variable [LT K]

/-- The order in which the keys are tried. -/
def order : Seek → K → K → Prop
  | last, j, k | prev, j, k => k < j
  | _, j, k => j < k

/-- The keys that are tried. -/
def within : Seek → (pos : Option K) → (key : K) → Set K
  | next, some p, _ => {k | p < k}
  | prev, some p, _ => {k | k < p}
  | set, _, key => {key}
  | setRange, _, key => {k | ¬ k < key}
  | _, _, _ => Set.univ

theorem order_trichotomous (h : ∀ j k : K, ¬ j < k → ¬ k < j → j = k) (s : Seek) (j k : K)
    (h₁ : ¬ s.order j k) (h₂ : ¬ s.order k j) : j = k := by
  cases s with
  | last => exact h j k h₂ h₁
  | prev => exact h j k h₂ h₁
  | _ => exact h j k h₁ h₂

end Seek

/-- The cursor of an ordered map; a flag that is none of the six finds nothing. -/
noncomputable def Moves.ordered [LT K] (seek : F → Option Seek)
    (htri : ∀ j k : K, ¬ j < k → ¬ k < j → j = k) : Moves F K V where
  next f pos key m := (seek f).bind fun s => RangeLocks.first s.order (s.within pos key) m
  range f pos key r :=
    match seek f with
    | none => ∅
    | some s => passed s.order (s.within pos key) r
  settled f pos key m m' h := by
    cases hs : seek f with
    | none => rfl
    | some s =>
      rw [hs] at h
      exact first_settled (s.order_trichotomous htri) h

/-! ## A map that is held in the order of its keys -/

/-- The list has the records of the map, in order. -/
structure Holds [LT K] (l : List (K × V)) (m : K → Option V) : Prop where
  sorted : l.Pairwise fun r s => r.1 < s.1
  records : ∀ k v, m k = some v ↔ (k, v) ∈ l

section Ordered

variable [LT K] {l rest before : List (K × V)} {m : K → Option V} {within : Set K}
  (hasymm : ∀ j k : K, j < k → ¬ k < j) (htri : ∀ j k : K, ¬ j < k → ¬ k < j → j = k)

theorem Holds.absent (h : Holds l m) (hl : ∀ s ∈ l, s.1 ∉ within) (lt : K → K → Prop) :
    first lt within m = none := by
  apply first_none
  rintro ⟨r, hr⟩
  exact hl r ((h.records r.1 r.2).mp hr.record) hr.mem

include hasymm

/-- The first of the records that are tried is the one a scan finds. -/
theorem Holds.isFirst {r : K × V} (h : Holds (before ++ r :: rest) m)
    (hbefore : ∀ s ∈ before, s.1 ∉ within) (hr : r.1 ∈ within) : IsFirst (· < ·) within m r where
  mem := hr
  record := (h.records r.1 r.2).mpr (by simp)
  least k hk hv hlt := by
    obtain ⟨v, hv⟩ := Option.ne_none_iff_exists'.mp hv
    cases List.mem_append.mp ((h.records k v).mp hv) with
    | inl hmem => exact hbefore _ hmem hk
    | inr hmem =>
      cases List.mem_cons.mp hmem with
      | inl he =>
        subst he
        exact hasymm _ _ hlt hlt
      | inr hmem =>
        have hsorted := (List.pairwise_cons.mp (List.pairwise_append.mp h.sorted).2.1).1 _ hmem
        exact hasymm _ _ hlt hsorted

/-- The last of the records that are tried is the one a scan back finds. -/
theorem Holds.isLast {r : K × V} (h : Holds (before ++ r :: rest) m)
    (hrest : ∀ s ∈ rest, s.1 ∉ within) (hr : r.1 ∈ within) :
    IsFirst (fun j k => k < j) within m r where
  mem := hr
  record := (h.records r.1 r.2).mpr (by simp)
  least k hk hv hlt := by
    obtain ⟨v, hv⟩ := Option.ne_none_iff_exists'.mp hv
    obtain ⟨-, -, hcross⟩ := List.pairwise_append.mp h.sorted
    cases List.mem_append.mp ((h.records k v).mp hv) with
    | inl hmem => exact hasymm _ _ hlt (hcross _ hmem r List.mem_cons_self)
    | inr hmem =>
      cases List.mem_cons.mp hmem with
      | inl he =>
        subst he
        exact hasymm _ _ hlt hlt
      | inr hmem => exact hrest _ hmem hk

include htri

/-- Where the cursor stands behind the records before it, `next` reads on. -/
theorem Holds.onward (h : Holds (before ++ rest) m) {seek : F → Option Seek} {f : F}
    (hf : seek f = some .next) (key : K) {n : Nat} {p : K} (hbefore : ∀ s ∈ before, ¬ p < s.1)
    (hrest : ∀ s ∈ rest, p < s.1) :
    (Moves.ordered seek htri).onward f key m n (some p) = rest.take n := by
  induction n generalizing before rest p with
  | zero => rfl
  | succ n ih =>
    cases rest with
    | nil =>
      apply Moves.onward_none
      rw [List.append_nil] at h
      simp only [Moves.ordered, hf, Option.bind_some]
      exact h.absent hbefore _
    | cons r rest =>
      have hnext : (Moves.ordered seek htri).next f (some p) key m = some r := by
        simp only [Moves.ordered, hf, Option.bind_some]
        exact (first_some htri).mpr (h.isFirst hasymm hbefore (hrest r List.mem_cons_self))
      obtain ⟨-, hafter, hcross⟩ := List.pairwise_append.mp h.sorted
      have hshift : Holds ((before ++ [r]) ++ rest) m := by
        rw [List.append_assoc]
        exact h
      rw [Moves.onward_some _ hnext, List.take_succ_cons]
      apply congrArg (r :: ·)
      apply ih hshift
      · intro s hs
        cases List.mem_append.mp hs with
        | inl hs => exact hasymm _ _ (hcross s hs r List.mem_cons_self)
        | inr hs =>
          rw [List.mem_singleton.mp hs]
          exact fun hlt => hasymm _ _ hlt hlt
      · exact (List.pairwise_cons.mp hafter).1

/-- A page from the first record that is tried on. -/
theorem Holds.page (h : Holds (before ++ rest) m) {seek : F → Option Seek} {initFlag f : F}
    {i : Seek} (hi : seek initFlag = some i) (hup : i.order = ((· < ·) : K → K → Prop))
    (hf : seek f = some .next) (start key : K) {n : Nat} (hbefore : ∀ s ∈ before, s.1 ∉ i.within none start)
    (hrest : ∀ s ∈ rest, s.1 ∈ i.within none start) :
    (Moves.ordered seek htri).page initFlag f start key m n = rest.take (n + 1) := by
  cases rest with
  | nil =>
    rw [List.append_nil] at h
    have hnext : (Moves.ordered seek htri).next initFlag none start m = none := by
      simp only [Moves.ordered, hi, Option.bind_some]
      exact h.absent hbefore _
    rw [Moves.page, hnext]
    rfl
  | cons r rest =>
    have hnext : (Moves.ordered seek htri).next initFlag none start m = some r := by
      simp only [Moves.ordered, hi, Option.bind_some, hup]
      exact (first_some htri).mpr (h.isFirst hasymm hbefore (hrest r List.mem_cons_self))
    obtain ⟨-, hafter, hcross⟩ := List.pairwise_append.mp h.sorted
    have hshift : Holds ((before ++ [r]) ++ rest) m := by
      rw [List.append_assoc]
      exact h
    rw [Moves.page, hnext, List.take_succ_cons]
    apply congrArg (r :: ·)
    apply hshift.onward hasymm htri hf key
    · intro s hs
      cases List.mem_append.mp hs with
      | inl hs => exact hasymm _ _ (hcross s hs r List.mem_cons_self)
      | inr hs =>
        rw [List.mem_singleton.mp hs]
        exact fun hlt => hasymm _ _ hlt hlt
    · exact (List.pairwise_cons.mp hafter).1

end Ordered

section Update

variable [LT K] [DecidableLT K] [DecidableEq K] {l : List (K × V)} {m : K → Option V}
  (hasymm : ∀ j k : K, j < k → ¬ k < j) (htri : ∀ j k : K, ¬ j < k → ¬ k < j → j = k)
  (htrans : ∀ i j k : K, i < j → j < k → i < k)

/-- The records with the entry of one key replaced. -/
def replaced (l : List (K × V)) (k : K) (v : Option V) : List (K × V) :=
  l.filter (fun r => r.1 < k) ++ ((v.map fun v => (k, v)).toList ++ l.filter fun r => k < r.1)

include hasymm htri htrans

/-- Writing one key keeps a list in order. -/
theorem Holds.update (h : Holds l m) (k : K) (v : Option V) :
    Holds (replaced l k v) (Function.update m k v) where
  sorted := by
    have hmid : ∀ s ∈ (v.map fun v => (k, v)).toList, s.1 = k := by
      intro s hs
      cases v with
      | none => cases hs
      | some v =>
        rw [Option.map_some, Option.toList_some, List.mem_singleton] at hs
        rw [hs]
    apply List.pairwise_append.mpr
    refine ⟨h.sorted.filter _, List.pairwise_append.mpr ⟨?_, h.sorted.filter _, ?_⟩, ?_⟩
    · cases v with
      | none => exact .nil
      | some v => exact List.pairwise_singleton _ _
    · intro r hr s hs
      rw [hmid r hr]
      exact of_decide_eq_true (List.mem_filter.mp hs).2
    · intro r hr s hs
      have hrk : r.1 < k := of_decide_eq_true (List.mem_filter.mp hr).2
      cases List.mem_append.mp hs with
      | inl hs =>
        rw [hmid s hs]
        exact hrk
      | inr hs => exact htrans _ _ _ hrk (of_decide_eq_true (List.mem_filter.mp hs).2)
  records j w := by
    have hmem : (j, w) ∈ replaced l k v ↔
        (j, w) ∈ l ∧ j < k ∨ v = some w ∧ j = k ∨ (j, w) ∈ l ∧ k < j := by
      cases v <;> simp [replaced, Prod.ext_iff, and_comm, eq_comm]
    rw [hmem]
    by_cases hj : j = k
    · subst hj
      have hirr : ¬ j < j := fun hlt => hasymm _ _ hlt hlt
      simp [hirr]
    · rw [Function.update_of_ne hj, h.records]
      constructor
      · intro hl
        by_cases hlt : j < k
        · exact .inl ⟨hl, hlt⟩
        · by_cases hgt : k < j
          · exact .inr (.inr ⟨hl, hgt⟩)
          · exact absurd (htri j k hlt hgt) hj
      · rintro (hl | hl | hl)
        · exact hl.1
        · exact absurd hl.2 hj
        · exact hl.1

end Update

end RangeLocks
