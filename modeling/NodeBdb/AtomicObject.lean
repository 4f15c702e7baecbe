import NodeBdb.Transition
import NodeBdb.Table
import Mathlib.Logic.Function.Basic

/-!
# Atomic objects

An object does each operation at one moment between its invocation and its response. Every
history of it is linearizable, and so is every history of a system that it simulates. What
an operation does is a relation, so a result may be one of several.
-/

namespace AtomicObject

open Transition

variable {ι Op Res St : Type}

/-- What a client sees of operation `i`. -/
inductive Visible (ι Op Res : Type) where
  | invoke : ι → Op → Visible ι Op Res
  | respond : ι → Res → Visible ι Op Res

structure Effect (ι Op Res : Type) where
  id : ι
  op : Op
  res : Res

/-- The effects, one after another from `m`, explain their results and lead to the last state. -/
inductive Explained (spec : St → Op → Res → St → Prop) (m : St) : List (Effect ι Op Res) → St → Prop where
  | nil : Explained spec m [] m
  | snoc {effects : List (Effect ι Op Res)} {e : Effect ι Op Res} {m₁ m₂ : St} :
      Explained spec m effects m₁ → spec m₁ e.op e.res m₂ → Explained spec m (effects ++ [e]) m₂

/-- Each effect finds the state that those before it have left. -/
theorem Explained.split {spec : St → Op → Res → St → Prop} {m m' : St}
    {effects before after : List (Effect ι Op Res)} {e : Effect ι Op Res}
    (h : Explained spec m effects m') (he : effects = before ++ e :: after) :
    ∃ m₁ m₂, Explained spec m before m₁ ∧ spec m₁ e.op e.res m₂ := by
  induction h generalizing after with
  | nil => simp at he
  | @snoc effects x m₁ m₂ hx hspec ih =>
    cases Table.split_snoc he with
    | inl hlast =>
      obtain ⟨-, rfl, rfl⟩ := hlast
      exact ⟨m₁, m₂, hx, hspec⟩
    | inr hmid =>
      obtain ⟨after', -, hl⟩ := hmid
      exact ih hl

/-- What every operation keeps, all of them together keep. -/
theorem Explained.keeps {spec : St → Op → Res → St → Prop} {P : St → Prop} {m m' : St}
    {effects : List (Effect ι Op Res)} (h : Explained spec m effects m') (hm : P m)
    (hs : ∀ m op r m', P m → spec m op r m' → P m') : P m' := by
  induction h with
  | nil => exact hm
  | snoc _ hspec ih => exact hs _ _ _ _ ih hspec

/-- An order of effects that explains the history `h` from `m` and leads to `m'`: each operation
takes effect once, with the result it responds with, after every one that had responded before
it was invoked. -/
structure Linearizes (spec : St → Op → Res → St → Prop) (m : St) (h : List (Visible ι Op Res)) (m' : St)
    (effects : List (Effect ι Op Res)) : Prop where
  nodup : (effects.map Effect.id).Nodup
  invoked : ∀ e ∈ effects, .invoke e.id e.op ∈ h
  responded : ∀ i r, .respond i r ∈ h → ∃ e ∈ effects, e.id = i ∧ e.res = r
  realTime : ∀ p i r q, h = p ++ .respond i r :: q → ∀ e ∈ effects, .invoke e.id e.op ∈ q →
    [i, e.id].Sublist (effects.map Effect.id)
  explained : Explained spec m effects m'

namespace Linearizes

variable {spec : St → Op → Res → St → Prop} {m m' m'' : St} {h : List (Visible ι Op Res)}
  {effects : List (Effect ι Op Res)}

theorem initial : Linearizes spec m ([] : List (Visible ι Op Res)) m [] where
  nodup := List.nodup_nil
  invoked _ he := by cases he
  responded _ _ hr := by cases hr
  realTime _ _ _ _ _ _ he := by cases he
  explained := .nil

/-- The invocation of an operation that has not taken effect. -/
theorem invoke (hl : Linearizes spec m h m' effects) {i : ι} (op : Op)
    (hnew : ∀ e ∈ effects, e.id ≠ i) : Linearizes spec m (h ++ [.invoke i op]) m' effects where
  nodup := hl.nodup
  invoked e he := List.mem_append_left _ (hl.invoked e he)
  responded j r hr := by
    cases List.mem_append.mp hr with
    | inl hr => exact hl.responded j r hr
    | inr hr => cases List.mem_singleton.mp hr
  realTime p j r q hq e he hmem := by
    cases Table.split_snoc hq with
    | inl hlast => cases hlast.2.2
    | inr hmid =>
      obtain ⟨q', rfl, hes⟩ := hmid
      cases List.mem_append.mp hmem with
      | inl hmem => exact hl.realTime p j r q' hes e he hmem
      | inr hmem =>
        cases List.mem_singleton.mp hmem
        exact absurd rfl (hnew e he)
  explained := hl.explained

/-- A response that is the result of the operation's effect. -/
theorem respond (hl : Linearizes spec m h m' effects) {i : ι} {r : Res}
    (hi : ∃ e ∈ effects, e.id = i ∧ e.res = r) :
    Linearizes spec m (h ++ [.respond i r]) m' effects where
  nodup := hl.nodup
  invoked e he := List.mem_append_left _ (hl.invoked e he)
  responded j r' hr := by
    cases List.mem_append.mp hr with
    | inl hr => exact hl.responded j r' hr
    | inr hr =>
      cases List.mem_singleton.mp hr
      exact hi
  realTime p j r' q hq e he hmem := by
    cases Table.split_snoc hq with
    | inl hlast =>
      rw [hlast.1] at hmem
      cases hmem
    | inr hmid =>
      obtain ⟨q', rfl, hes⟩ := hmid
      cases List.mem_append.mp hmem with
      | inl hmem => exact hl.realTime p j r' q' hes e he hmem
      | inr hmem => cases List.mem_singleton.mp hmem
  explained := hl.explained

/-- An operation that takes effect now goes last. -/
theorem effect (hl : Linearizes spec m h m' effects) {e : Effect ι Op Res}
    (hnew : ∀ e' ∈ effects, e'.id ≠ e.id) (hinv : .invoke e.id e.op ∈ h)
    (hspec : spec m' e.op e.res m'') : Linearizes spec m h m'' (effects ++ [e]) where
  nodup := by
    rw [List.map_append, List.nodup_append]
    refine ⟨hl.nodup, by simp, ?_⟩
    intro i hi j hj hij
    obtain ⟨e', he', hid⟩ := List.mem_map.mp hi
    rw [List.mem_singleton.mp hj] at hij
    exact hnew e' he' (hid.trans hij)
  invoked e' he' := by
    cases List.mem_append.mp he' with
    | inl he' => exact hl.invoked e' he'
    | inr he' =>
      rw [List.mem_singleton.mp he']
      exact hinv
  responded i r hr := by
    obtain ⟨e', he', hi⟩ := hl.responded i r hr
    exact ⟨e', List.mem_append_left _ he', hi⟩
  realTime p i r q hq e' he' hmem := by
    rw [List.map_append]
    cases List.mem_append.mp he' with
    | inl he' => exact (hl.realTime p i r q hq e' he' hmem).trans (List.sublist_append_left _ _)
    | inr he' =>
      -- the one that responded has taken effect already
      obtain ⟨e₀, he₀, hi, -⟩ := hl.responded i r (by rw [hq]; simp)
      have hleft : [i].Sublist (effects.map Effect.id) :=
        List.singleton_sublist.mpr (hi ▸ List.mem_map_of_mem he₀)
      have hright : [e'.id].Sublist ([e].map Effect.id) := by
        rw [List.mem_singleton.mp he']
        exact List.Sublist.refl _
      exact hleft.append hright
  explained := hl.explained.snoc hspec

end Linearizes

/-! ## The object as a transition system -/

/-- Where an operation stands. -/
inductive Stage (Op Res : Type) where
  | idle : Stage Op Res
  | invoked : Op → Stage Op Res
  | done : Op → Res → Stage Op Res
  | responded : Stage Op Res

structure Object (ι Op Res St : Type) where
  state : St
  stage : ι → Stage Op Res := fun _ => .idle

inductive Action (ι Op Res : Type) where
  | invoke : ι → Op → Action ι Op Res
  | effect : ι → Action ι Op Res
  | respond : ι → Res → Action ι Op Res

def Action.visible : Action ι Op Res → Option (Visible ι Op Res)
  | invoke i op => some (.invoke i op)
  | effect _ => none
  | respond i r => some (.respond i r)

def history (as : List (Action ι Op Res)) : List (Visible ι Op Res) := as.filterMap Action.visible

variable [DecidableEq ι] {spec : St → Op → Res → St → Prop}

def Object.put (o : Object ι Op Res St) (i : ι) (stage : Stage Op Res) : Object ι Op Res St :=
  { o with stage := Function.update o.stage i stage }

inductive Object.Step (spec : St → Op → Res → St → Prop) :
    Object ι Op Res St → Action ι Op Res → Object ι Op Res St → Prop where
  | invoke {o : Object ι Op Res St} {i : ι} (op : Op) :
      o.stage i = .idle → Step spec o (.invoke i op) (o.put i (.invoked op))
  | effect {o : Object ι Op Res St} {i : ι} {op : Op} {r : Res} {m : St} :
      o.stage i = .invoked op → spec o.state op r m →
      Step spec o (.effect i) { o.put i (.done op r) with state := m }
  | respond {o : Object ι Op Res St} {i : ι} {op : Op} {r : Res} :
      o.stage i = .done op r → Step spec o (.respond i r) (o.put i .responded)

/-- The effects so far, beside the stages of the operations. -/
structure Object.Inv (spec : St → Op → Res → St → Prop) (m : St) (as : List (Action ι Op Res))
    (o : Object ι Op Res St) (effects : List (Effect ι Op Res)) : Prop where
  linearizes : Linearizes spec m (history as) o.state effects
  before : ∀ i, o.stage i = .idle → ∀ e ∈ effects, e.id ≠ i
  invoked : ∀ i op, o.stage i = .invoked op →
    .invoke i op ∈ history as ∧ ∀ e ∈ effects, e.id ≠ i
  done : ∀ i op r, o.stage i = .done op r → ∃ e ∈ effects, e.id = i ∧ e.res = r

omit [DecidableEq ι] in
theorem history_snoc (as : List (Action ι Op Res)) (a : Action ι Op Res) :
    history (as ++ [a]) = history as ++ (a.visible).toList := by
  cases a <;> simp [history, Action.visible]

theorem put_stage {o : Object ι Op Res St} {i j : ι} {stage x : Stage Op Res}
    (h : (o.put i stage).stage j = x) : j = i ∧ x = stage ∨ j ≠ i ∧ o.stage j = x := by
  by_cases hj : j = i
  · subst hj
    exact .inl ⟨rfl, by rw [← h]; exact Function.update_self _ _ _⟩
  · exact .inr ⟨hj, by rw [← h]; exact (Function.update_of_ne hj _ _).symm⟩

/-- One step of the object. -/
theorem Object.Inv.step {m : St} {as : List (Action ι Op Res)} {o o' : Object ι Op Res St}
    {effects : List (Effect ι Op Res)} {a : Action ι Op Res} (h : o.Inv spec m as effects)
    (hs : Object.Step spec o a o') : ∃ effects', o'.Inv spec m (as ++ [a]) effects' := by
  cases hs with
  | @invoke i op hi =>
    refine ⟨effects, ?_, ?_, ?_, ?_⟩
    · rw [history_snoc]
      exact h.linearizes.invoke op (h.before i hi)
    · intro j hj
      cases put_stage hj with
      | inl hself => cases hself.2
      | inr hother => exact h.before j hother.2
    · intro j op' hj
      rw [history_snoc]
      cases put_stage hj with
      | inl hself =>
        cases hself.2
        rw [hself.1]
        exact ⟨List.mem_append_right _ (List.mem_singleton_self _), h.before i hi⟩
      | inr hother =>
        obtain ⟨hmem, hnew⟩ := h.invoked j op' hother.2
        exact ⟨List.mem_append_left _ hmem, hnew⟩
    · intro j op' r hj
      cases put_stage hj with
      | inl hself => cases hself.2
      | inr hother => exact h.done j op' r hother.2
  | @effect i op r m' hi hspec =>
    obtain ⟨hmem, hnew⟩ := h.invoked i op hi
    have hhist : history (as ++ [Action.effect i]) = history as := by
      rw [history_snoc]
      exact List.append_nil _
    have hfresh : ∀ j, j ≠ i → (∀ e ∈ effects, e.id ≠ j) →
        ∀ e ∈ effects ++ [⟨i, op, r⟩], e.id ≠ j := by
      intro j hj hold e he
      cases List.mem_append.mp he with
      | inl he => exact hold e he
      | inr he =>
        rw [List.mem_singleton.mp he]
        exact hj.symm
    refine ⟨effects ++ [⟨i, op, r⟩], ?_, ?_, ?_, ?_⟩
    · rw [hhist]
      exact h.linearizes.effect (e := ⟨i, op, r⟩) hnew hmem hspec
    · intro j hj
      cases put_stage hj with
      | inl hself => cases hself.2
      | inr hother => exact hfresh j hother.1 (h.before j hother.2)
    · intro j op' hj
      rw [hhist]
      cases put_stage hj with
      | inl hself => cases hself.2
      | inr hother =>
        obtain ⟨hmem', hnew'⟩ := h.invoked j op' hother.2
        exact ⟨hmem', hfresh j hother.1 hnew'⟩
    · intro j op' r' hj
      cases put_stage hj with
      | inl hself =>
        cases hself.2
        rw [hself.1]
        exact ⟨⟨i, op, r⟩, List.mem_append_right _ (List.mem_singleton_self _), rfl, rfl⟩
      | inr hother =>
        obtain ⟨e, he, hid⟩ := h.done j op' r' hother.2
        exact ⟨e, List.mem_append_left _ he, hid⟩
  | @respond i op r hi =>
    refine ⟨effects, ?_, ?_, ?_, ?_⟩
    · rw [history_snoc]
      exact h.linearizes.respond (h.done i op r hi)
    · intro j hj
      cases put_stage hj with
      | inl hself => cases hself.2
      | inr hother => exact h.before j hother.2
    · intro j op' hj
      rw [history_snoc]
      cases put_stage hj with
      | inl hself => cases hself.2
      | inr hother =>
        obtain ⟨hmem, hnew⟩ := h.invoked j op' hother.2
        exact ⟨List.mem_append_left _ hmem, hnew⟩
    · intro j op' r' hj
      cases put_stage hj with
      | inl hself => cases hself.2
      | inr hother => exact h.done j op' r' hother.2

/-- Every history of the object is linearizable. -/
theorem object_linearizes {m : St} {as : List (Action ι Op Res)} {o : Object ι Op Res St}
    (h : Path (Object.Step spec) { state := m } as o) :
    ∃ effects, Linearizes spec m (history as) o.state effects := by
  have hinv : ∃ effects, o.Inv spec m as effects := by
    apply h.invariant (I := fun as o => ∃ effects, o.Inv spec m as effects)
    · refine ⟨[], .initial, ?_, ?_, ?_⟩
      · intro i _ e he
        cases he
      · intro i op hi
        cases hi
      · intro i op r hi
        cases hi
    · intro as o a o' hi hs
      obtain ⟨effects, hi⟩ := hi
      exact hi.step hs
  obtain ⟨effects, hi⟩ := hinv
  exact ⟨effects, hi.linearizes⟩

/-- Forward simulation: every step of the system is matched by steps of the object that a
client cannot tell from it. -/
theorem linearizes_of_simulation {σ ε : Type} {step : σ → ε → σ → Prop} {s₀ s : σ} {es : List ε}
    {m : St} (view : ε → Option (Visible ι Op Res)) (R : List ε → σ → Object ι Op Res St → Prop)
    (h₀ : R [] s₀ { state := m })
    (hstep : ∀ es s o e s', R es s o → step s e s' →
      ∃ as o', Path (Object.Step spec) o as o' ∧ history as = (view e).toList ∧ R (es ++ [e]) s' o')
    (h : Path step s₀ es s) :
    ∃ o effects, R es s o ∧ Linearizes spec m (es.filterMap view) o.state effects := by
  have hsim : ∃ as o, Path (Object.Step spec) { state := m } as o ∧
      history as = es.filterMap view ∧ R es s o := by
    apply h.invariant (I := fun es s => ∃ as o, Path (Object.Step spec) { state := m } as o ∧
      history as = es.filterMap view ∧ R es s o)
    · exact ⟨[], { state := m }, .nil, rfl, h₀⟩
    · intro es s e s' hi hs
      obtain ⟨as, o, hp, hh, hr⟩ := hi
      obtain ⟨as', o', hp', hh', hr'⟩ := hstep es s o e s' hr hs
      refine ⟨as ++ as', o', hp.append hp', ?_, hr'⟩
      have hsplit : history (as ++ as') = history as ++ history as' := List.filterMap_append
      rw [hsplit, hh, hh', List.filterMap_append]
      cases hv : view e <;> simp [hv]
  obtain ⟨as, o, hp, hh, hr⟩ := hsim
  obtain ⟨effects, hl⟩ := object_linearizes hp
  rw [hh] at hl
  exact ⟨o, effects, hr, hl⟩

end AtomicObject
