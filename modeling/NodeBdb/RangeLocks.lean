import NodeBdb.TwoPhase
import Mathlib.Data.Set.Basic

/-!
# Two-phase locking on sets of keys

A scan depends on the keys it passed over, and also on those where it found nothing. So an
access has a set of keys that it read, and what it saw is settled by the data there. Locks
are taken on that set and on the key written, and kept until the end.
-/

namespace RangeLocks

variable {K V X : Type}

/-- One access: the keys it read, what it saw there, and the entry it wrote if it did. -/
structure Access (K V : Type) where
  reads : Set K := ∅
  sees : (K → Option V) → Prop := fun _ => True
  settled : ∀ m m', (∀ k ∈ reads, m k = m' k) → sees m → sees m'
  leaves : Option (K × Option V) := none

namespace Access

def Writes (a : Access K V) (k : K) : Prop := ∃ v, a.leaves = some (k, v)

def Touches (a : Access K V) (k : K) : Prop := k ∈ a.reads ∨ a.Writes k

/-- An access at a single key. -/
def ofPoint (a : TwoPhase.Access K V) : Access K V where
  reads := {a.key}
  sees m := a.sees (m a.key)
  settled m m' h hs := by rwa [← h a.key rfl]
  leaves := a.leaves.map (a.key, ·)

variable [DecidableEq K]

def effect (a : Access K V) (m : K → Option V) : K → Option V :=
  match a.leaves with
  | none => m
  | some (k, v) => Function.update m k v

theorem effect_other {a : Access K V} {k : K} (m : K → Option V) (h : ¬ a.Writes k) :
    a.effect m k = m k := by
  unfold effect
  cases ha : a.leaves with
  | none => rfl
  | some w =>
    have hk : k ≠ w.1 := by
      intro hk
      exact h ⟨w.2, by rw [ha, hk]⟩
    exact Function.update_of_ne hk _ _

/-- Agreement at a key survives an access. -/
theorem effect_congr {m m' : K → Option V} {k : K} (a : Access K V) (h : m k = m' k) :
    a.effect m k = a.effect m' k := by
  unfold effect
  cases a.leaves with
  | none => exact h
  | some w =>
    by_cases hk : k = w.1
    · subst hk; simp
    · simpa [hk] using h

@[simp] theorem effect_ofPoint (a : TwoPhase.Access K V) (m : K → Option V) :
    (ofPoint a).effect m = a.effect m := by
  unfold effect ofPoint TwoPhase.Access.effect
  cases a.leaves <;> rfl

end Access

/-- One of the two writes a key that the other touches. -/
def Conflict (a b : Access K V) : Prop :=
  ∃ k, a.Writes k ∧ b.Touches k ∨ b.Writes k ∧ a.Touches k

theorem Conflict.symm {a b : Access K V} (h : Conflict a b) : Conflict b a := by
  obtain ⟨k, hk⟩ := h
  exact ⟨k, hk.symm⟩

section Logs

variable [DecidableEq K]

def replay (m : K → Option V) : List (Access K V) → K → Option V
  | [] => m
  | a :: log => replay (a.effect m) log

/-- Done one after another from `m`, the accesses see what they saw. -/
def Replays (m : K → Option V) : List (Access K V) → Prop
  | [] => True
  | a :: log => a.sees m ∧ Replays (a.effect m) log

@[simp] theorem replay_nil (m : K → Option V) : replay m [] = m := rfl
@[simp] theorem replay_cons (m : K → Option V) (a : Access K V) (log : List (Access K V)) :
    replay m (a :: log) = replay (a.effect m) log := rfl
@[simp] theorem replays_nil (m : K → Option V) : Replays m [] := trivial
@[simp] theorem replays_cons (m : K → Option V) (a : Access K V) (log : List (Access K V)) :
    Replays m (a :: log) ↔ a.sees m ∧ Replays (a.effect m) log := Iff.rfl

theorem replay_other {k : K} (m : K → Option V) {log : List (Access K V)}
    (h : ∀ a ∈ log, ¬ a.Writes k) : replay m log k = m k := by
  induction log generalizing m with
  | nil => rfl
  | cons a log ih =>
    rw [replay_cons, ih _ fun b hb => h b (List.mem_cons_of_mem _ hb)]
    exact Access.effect_other m (h a List.mem_cons_self)

theorem replay_reads {m : K → Option V} {log : List (Access K V)}
    (h : ∀ a ∈ log, a.leaves = none) : replay m log = m := by
  funext k
  apply replay_other
  rintro a ha ⟨v, hv⟩
  rw [h a ha] at hv
  cases hv

theorem replays_congr {m m' : K → Option V} {log : List (Access K V)} (hr : Replays m log)
    (h : ∀ a ∈ log, ∀ k ∈ a.reads, m k = m' k) : Replays m' log := by
  induction log generalizing m m' with
  | nil => trivial
  | cons a log ih =>
    constructor
    · exact a.settled m m' (h a List.mem_cons_self) hr.1
    · apply ih hr.2
      intro b hb k hk
      exact Access.effect_congr a (h b (List.mem_cons_of_mem _ hb) k hk)

theorem replays_append {m : K → Option V} {log : List (Access K V)} {a : Access K V} :
    Replays m (log ++ [a]) ↔ Replays m log ∧ a.sees (replay m log) := by
  induction log generalizing m with
  | nil => simp
  | cons b log ih => simp [ih, and_assoc]

theorem replay_ofPoint (m : K → Option V) (log : List (TwoPhase.Access K V)) :
    replay m (log.map Access.ofPoint) = TwoPhase.replay m log := by
  induction log generalizing m with
  | nil => rfl
  | cons a log ih => simp [ih]

theorem replays_ofPoint (m : K → Option V) (log : List (TwoPhase.Access K V)) :
    Replays m (log.map Access.ofPoint) ↔ TwoPhase.Replays m log := by
  induction log generalizing m with
  | nil => exact Iff.rfl
  | cons a log ih =>
    rw [List.map_cons, replays_cons, TwoPhase.replays_cons, Access.effect_ofPoint, ih]
    exact Iff.rfl

end Logs

/-! ## The store -/

structure Store (K V X : Type) where
  data : K → Option V
  active : X → Option (List (Access K V)) := fun _ => none

namespace Store

variable [DecidableEq K] [DecidableEq X]

def put (s : Store K V X) (x : X) (log : Option (List (Access K V))) : Store K V X :=
  { s with active := Function.update s.active x log }

def begin (s : Store K V X) (x : X) : Store K V X := s.put x (some [])

def record (s : Store K V X) (x : X) (a : Access K V) : Store K V X :=
  s.put x ((s.active x).map (· ++ [a]))

def discard (s : Store K V X) (x : X) : Store K V X := s.put x none

def commit (s : Store K V X) (x : X) : Store K V X :=
  { s.discard x with data := replay s.data ((s.active x).getD []) }

/-- The access sees the transaction's own view, and nobody else holds a lock against it. -/
def Grants (s : Store K V X) (x : X) (a : Access K V) : Prop :=
  ∃ log, s.active x = some log ∧ a.sees (replay s.data log) ∧
    ∀ y log', y ≠ x → s.active y = some log' → ∀ b ∈ log', ¬ Conflict a b

/-- Every active log can be replayed on the committed data, and no two are in conflict. -/
structure Inv (s : Store K V X) : Prop where
  replays : ∀ x log, s.active x = some log → Replays s.data log
  apart : ∀ x y log log', x ≠ y → s.active x = some log → s.active y = some log' →
    ∀ a ∈ log, ∀ b ∈ log', ¬ Conflict a b

omit [DecidableEq X] in
theorem inv_initial (m : K → Option V) : Inv (X := X) { data := m } where
  replays _ _ h := by cases h
  apart _ _ _ _ _ h := by cases h

omit [DecidableEq K] in
@[simp] theorem put_active_self (s : Store K V X) (x : X) (log : Option (List (Access K V))) :
    (s.put x log).active x = log := Function.update_self _ _ _

omit [DecidableEq K] in
theorem put_active_other (s : Store K V X) {x y : X} (log : Option (List (Access K V)))
    (h : y ≠ x) : (s.put x log).active y = s.active y := Function.update_of_ne h _ _

variable {s : Store K V X} {x : X}

/-- The invariant after the log of one transaction has been replaced. -/
theorem Inv.put (h : s.Inv) (o : Option (List (Access K V)))
    (hr : ∀ log, o = some log → Replays s.data log)
    (ha : ∀ log, o = some log → ∀ y log', y ≠ x → s.active y = some log' →
      ∀ a ∈ log, ∀ b ∈ log', ¬ Conflict a b) : (s.put x o).Inv where
  replays y log hy := by
    by_cases hx : y = x
    · subst hx
      rw [put_active_self] at hy
      exact hr log hy
    · rw [put_active_other s o hx] at hy
      exact h.replays y log hy
  apart y z log log' hyz hy hz a hal b hbl := by
    by_cases hyx : y = x
    · subst hyx
      rw [put_active_self] at hy
      rw [put_active_other s o hyz.symm] at hz
      exact ha log hy z log' hyz.symm hz a hal b hbl
    · rw [put_active_other s o hyx] at hy
      by_cases hzx : z = x
      · subst hzx
        rw [put_active_self] at hz
        exact fun hc => ha log' hz y log hyz hy b hbl a hal hc.symm
      · rw [put_active_other s o hzx] at hz
        exact h.apart y z log log' hyz hy hz a hal b hbl

theorem Inv.begin (h : s.Inv) (x : X) : (s.begin x).Inv := by
  apply h.put
  · intro log ho
    cases ho
    trivial
  · intro log ho y log' _ _ a ha
    cases ho
    cases ha

theorem Inv.discard (h : s.Inv) (x : X) : (s.discard x).Inv := by
  apply h.put
  · intro log ho
    cases ho
  · intro log ho
    cases ho

theorem Inv.record (h : s.Inv) {a : Access K V} (hg : s.Grants x a) : (s.record x a).Inv := by
  obtain ⟨log, hx, hsees, hlocks⟩ := hg
  unfold Store.record
  rw [hx]
  apply h.put
  · intro log' ho
    cases ho
    exact replays_append.mpr ⟨h.replays x log hx, hsees⟩
  · intro log' ho y log'' hy hactive c hc
    cases ho
    cases List.mem_append.mp hc with
    | inl hc => exact h.apart x y log log'' hy.symm hx hactive c hc
    | inr hc =>
      rw [List.mem_singleton.mp hc]
      exact hlocks y log'' hy hactive

/-- A commit changes the data only where no other active transaction has looked. -/
theorem Inv.commit (h : s.Inv) {log : List (Access K V)} (hx : s.active x = some log) :
    (s.commit x).Inv := by
  have hd := h.discard x
  constructor
  · intro y log' hy
    have hyx : y ≠ x := by
      rintro rfl
      exact absurd (hy.symm.trans (put_active_self s y none)) (by simp)
    have hactive : s.active y = some log' := (put_active_other s none hyx).symm.trans hy
    apply replays_congr (h.replays y log' hactive)
    intro b hb k hk
    have hlog : (s.active x).getD [] = log := by rw [hx]; rfl
    simp only [Store.commit, hlog]
    apply (replay_other s.data _).symm
    intro a ha hw
    exact h.apart x y log log' hyx.symm hx hactive a ha b hb ⟨k, .inl ⟨hw, .inl hk⟩⟩
  · exact hd.apart

end Store

end RangeLocks
