import NodeBdb.Operations

/-!
# How an operation begins

An operation on an open Db begins with `txn_begin` if the Db is transactional, and goes
no further when that is refused; otherwise it begins with a call on the database. The
sync methods do not ask whether the handle is open.
-/

namespace NodeBdb

open Interaction Prog

variable {δ σ α β : Type}

/-- A call on the database itself. -/
def Call.consults : Call δ → Bool
  | .get .. | .put .. | .del .. | .cursor .. => true
  | _ => false

def Consulting (p : BdbProg δ α) : Prop := ∃ c k, p = .call c k ∧ c.consults = true

/-- The first call of an operation, and what is left where `txn_begin` is refused. -/
structure Opening (dbObj : Db) (refused : α) (p : BdbProg δ α) : Prop where
  transactional : dbObj._transactional = true → ∃ k, p = .call (.txnBegin dbObj._env) k ∧
    (∀ r, r.1 ≠ 0 → k r = .ret refused) ∧ ∀ r, r.1 = 0 → Consulting (k r)
  plain : dbObj._transactional = false → Consulting p

theorem Consulting.bind {p : BdbProg δ α} (h : Consulting p) (f : α → BdbProg δ β) :
    Consulting (p >>= f) := by
  obtain ⟨c, k, rfl, hc⟩ := h
  exact ⟨c, _, rfl, hc⟩

theorem Opening.map {dbObj : Db} {refused : α} {p : BdbProg δ α} (h : Opening dbObj refused p)
    (f : α → β) : Opening dbObj (f refused) (p >>= fun a => .ret (f a)) where
  transactional ht := by
    obtain ⟨k, rfl, hr, hg⟩ := h.transactional ht
    refine ⟨_, rfl, fun r hne => ?_, fun r h0 => (hg r h0).bind _⟩
    rw [hr r hne]
    rfl
  plain ht := (h.plain ht).bind _

theorem txn_opening (dbObj : Db) (status : Status σ) (body : Option TxnHandle → σ → BdbProg δ σ)
    (s : σ) (hbody : ∀ x s, Consulting (body x s)) : Opening dbObj s (txn dbObj status body s) where
  transactional ht := by
    rw [txn, again, if_pos ht]
    refine ⟨_, rfl, fun r hne => by simp [hne], fun r h0 => ?_⟩
    simp only [h0, ne_eq, not_true_eq_false, ↓reduceIte]
    exact (hbody _ s).bind _
  plain ht := by
    rw [txn, again_plain _ _ _ _ _ ht]
    exact hbody none s

theorem Bracket.opening (β : Bracket δ) (dbObj : Db)
    (hβ : ∀ x s, Consulting (β.body dbObj x s)) :
    Opening dbObj (β.out β.start)
      (txn dbObj β.status (β.body dbObj) β.start >>= fun s => .ret (β.out s)) :=
  (txn_opening dbObj β.status (β.body dbObj) β.start hβ).map β.out

/-- A request whose first transaction is refused delivers code 0. -/
theorem request_opening {dbObj : Db} (ho : dbObj._db ≠ none) (r : Request δ) :
    ∃ d, d.code = 0 ∧ Opening dbObj d (r.deliver dbObj) := by
  rw [request_bracket ho r]
  refine ⟨_, ?_, r.bracket.opening dbObj ?_⟩
  · cases r <;> rfl
  · cases r <;> exact fun _ _ => ⟨_, _, rfl, rfl⟩

theorem direct_opening (dbObj : Db) (c : DirectCall δ) :
    ∃ d, d.code = 0 ∧ Opening dbObj d (c.deliver dbObj) := by
  rw [direct_bracket dbObj c]
  refine ⟨_, ?_, c.bracket.opening dbObj ?_⟩
  · cases c <;> rfl
  · cases c <;> exact fun _ _ => ⟨_, _, rfl, rfl⟩

theorem operation_opening {dbObj : Db} (ho : dbObj._db ≠ none) (op : Operation δ) :
    ∃ d, d.code = 0 ∧ Opening dbObj d (op.deliver dbObj) := by
  cases op with
  | request r => exact request_opening ho r
  | direct c => exact direct_opening dbObj c

end NodeBdb
