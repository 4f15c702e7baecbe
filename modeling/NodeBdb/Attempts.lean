import NodeBdb.Txn
import Mathlib.Data.List.SplitBy

/-!
# The attempts of a run

The trace of an operation, cut before each `txn_begin`. On a transactional Db every piece
but the last is an attempt that ended in a deadlock and was aborted; the last is refused,
committed or given up.
-/

namespace NodeBdb

open Interaction

variable {δ σ : Type}

/-- The call with which an attempt begins. -/
def Call.begins : Call δ → Bool
  | .txnBegin _ => true
  | _ => false

/-- The trace, cut before each `txn_begin`. -/
def attemptsOf (t : BdbTrace δ) : List (BdbTrace δ) := t.splitBy fun _ e => !e.1.begins

/-- The calls from the last `txn_begin` on, or all of them where there is none. -/
def lastAttempt (t : BdbTrace δ) : BdbTrace δ := ((attemptsOf t).getLast?).getD []

theorem attemptsOf_single {e : BdbEvent δ} {b : BdbTrace δ} (hb : ∀ e ∈ b, e.1.begins = false) :
    attemptsOf (e :: b) = [e :: b] := by
  apply List.splitBy_of_isChain (by simp)
  induction b generalizing e with
  | nil => exact .singleton e
  | cons e' b ih =>
    apply List.IsChain.cons_cons
    · simp [hb e' List.mem_cons_self]
    · exact ih fun e he => hb e (List.mem_cons_of_mem _ he)

/-- A `txn_begin` begins an attempt of its own. -/
theorem attemptsOf_append (p : BdbTrace δ) {e : BdbEvent δ} {b : BdbTrace δ} (he : e.1.begins = true)
    (hb : ∀ e ∈ b, e.1.begins = false) : attemptsOf (p ++ e :: b) = attemptsOf p ++ [e :: b] := by
  rw [← attemptsOf_single hb]
  exact List.splitBy_append_cons b fun _ _ => by simp [he]

theorem lastAttempt_single {e : BdbEvent δ} {b : BdbTrace δ} (hb : ∀ e ∈ b, e.1.begins = false) :
    lastAttempt (e :: b) = e :: b := by
  rw [lastAttempt, attemptsOf_single hb]
  rfl

theorem lastAttempt_append (p : BdbTrace δ) {e : BdbEvent δ} {b : BdbTrace δ}
    (he : e.1.begins = true) (hb : ∀ e ∈ b, e.1.begins = false) :
    lastAttempt (p ++ e :: b) = e :: b := by
  rw [lastAttempt, attemptsOf_append p he hb, List.getLast?_concat]
  rfl

/-- The attempts are the earlier ones and the last. -/
theorem attemptsOf_last {t : BdbTrace δ} (h : attemptsOf t ≠ []) :
    attemptsOf t = (attemptsOf t).dropLast ++ [lastAttempt t] := by
  rw [lastAttempt, List.getLast?_eq_some_getLast h]
  exact (List.dropLast_append_getLast h).symm

theorem begins_once {b : BdbTrace δ} {e : BdbEvent δ} (hb : ∀ e ∈ b, e.1.begins = false)
    (he : e.1.begins = false) : ∀ e' ∈ b ++ [e], e'.1.begins = false := by
  intro e' he'
  cases List.mem_append.mp he' with
  | inl hbody => exact hb e' hbody
  | inr hend => rw [List.mem_singleton.mp hend]; exact he

/-- An attempt that was granted, from its `txn_begin` to its end. -/
theorem attemptsOf_granted (env : Option EnvHandle) (x : TxnHandle) (e : BdbEvent δ)
    {b : BdbTrace δ} (hb : ∀ e ∈ b, e.1.begins = false) (he : e.1.begins = false) :
    attemptsOf (⟨.txnBegin env, (0, x)⟩ :: (b ++ [e])) = [⟨.txnBegin env, (0, x)⟩ :: (b ++ [e])] :=
  attemptsOf_single (begins_once hb he)

theorem lastAttempt_granted (env : Option EnvHandle) (x : TxnHandle) (e : BdbEvent δ)
    {b : BdbTrace δ} (hb : ∀ e ∈ b, e.1.begins = false) (he : e.1.begins = false) :
    lastAttempt (⟨.txnBegin env, (0, x)⟩ :: (b ++ [e])) = ⟨.txnBegin env, (0, x)⟩ :: (b ++ [e]) := by
  rw [lastAttempt, attemptsOf_granted env x e hb he]
  rfl

/-- A granted attempt stands before what begins with another. -/
theorem attemptsOf_cut (env : Option EnvHandle) (x : TxnHandle) (e : BdbEvent δ)
    {b t : BdbTrace δ} (hb : ∀ e ∈ b, e.1.begins = false) (he : e.1.begins = false)
    (ht : ∀ e' t', t = e' :: t' → e'.1.begins = true) :
    attemptsOf (⟨.txnBegin env, (0, x)⟩ :: (b ++ e :: t)) =
      (⟨.txnBegin env, (0, x)⟩ :: (b ++ [e])) :: attemptsOf t := by
  cases t with
  | nil => exact attemptsOf_granted env x e hb he
  | cons e' t' =>
    have hcut : (⟨.txnBegin env, (0, x)⟩ :: (b ++ e :: e' :: t') : BdbTrace δ) =
        (⟨.txnBegin env, (0, x)⟩ :: (b ++ [e])) ++ e' :: t' := by simp
    rw [hcut, attemptsOf, List.splitBy_append_cons t' fun _ _ => by simp [ht e' t' rfl]]
    exact congrArg (· ++ attemptsOf (e' :: t')) (attemptsOf_granted env x e hb he)

/-- One of the calls of an attempt is its first, one of its body, or its last. -/
theorem exists_mem_attempt {p : BdbEvent δ → Prop} {first last : BdbEvent δ} {b : BdbTrace δ} :
    (∃ e : BdbEvent δ, e ∈ first :: (b ++ [last]) ∧ p e) ↔
      p first ∨ (∃ e : BdbEvent δ, e ∈ b ∧ p e) ∨ p last := by
  simp only [List.mem_cons, List.mem_append, List.not_mem_nil, or_false, or_and_right, exists_or,
    exists_eq_left]

/-- The last of several attempts is the last of those after the first. -/
theorem lastAttempt_cons {a t t' : BdbTrace δ} (h : attemptsOf t = a :: attemptsOf t')
    (hne : attemptsOf t' ≠ []) : lastAttempt t = lastAttempt t' := by
  obtain ⟨a', as, he⟩ := List.exists_cons_of_ne_nil hne
  rw [lastAttempt, lastAttempt, h, he, List.getLast?_cons_cons]

/-! ## Under the macro pair -/

/-- The attempt ended with an abort. -/
def Aborted (a : BdbTrace δ) : Prop := ∃ b x c, a = b ++ [⟨.abort x, c⟩]

section

variable {dbObj : Db} {status : Status σ} {body : Option TxnHandle → σ → BdbProg δ σ} {n : Int}
  {s s' : σ} {t : BdbTrace δ}

theorem Attempts.head (h : Attempts dbObj status body n s t s') :
    ∃ e t', t = e :: t' ∧ e.1.begins = true := by
  cases h with
  | refused _ => exact ⟨_, _, rfl, rfl⟩
  | committed _ _ => exact ⟨_, _, rfl, rfl⟩
  | givenUp _ _ _ => exact ⟨_, _, rfl, rfl⟩
  | retried _ _ _ _ => exact ⟨_, _, rfl, rfl⟩

/-- A retried attempt stands before the attempts after it. -/
theorem Attempts.attemptsOf_retried (h : Attempts dbObj status body n s t s')
    (env : Option EnvHandle) (x : TxnHandle) (c : Int) {b : BdbTrace δ} (hb : ∀ e ∈ b, e.1.begins = false) :
    attemptsOf (⟨.txnBegin env, (0, x)⟩ :: (b ++ ⟨.abort x, c⟩ :: t)) =
      (⟨.txnBegin env, (0, x)⟩ :: (b ++ [⟨.abort x, c⟩])) :: attemptsOf t := by
  apply attemptsOf_cut env x _ hb rfl
  intro e' t' ht
  obtain ⟨e, t'', rfl, he⟩ := h.head
  cases ht
  exact he

theorem Attempts.attemptsOf_ne_nil (h : Attempts dbObj status body n s t s') : attemptsOf t ≠ [] := by
  obtain ⟨e, t', rfl, -⟩ := h.head
  exact List.splitBy_ne_nil.mpr (by simp)

end

end NodeBdb
