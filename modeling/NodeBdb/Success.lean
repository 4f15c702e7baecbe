import NodeBdb.Opening

/-!
# When success is truthful

`TXN_BEGIN` keeps the code of `txn_begin` in a variable of its own and leaves by
`goto out`, past the only assignment to the status. On the first attempt the status
still holds its initial 0, so an operation that was never tried is delivered as done.
Nothing else can do that: a transaction refused after a retry returns with the
deadlock of the attempt before it.
-/

namespace NodeBdb

open Interaction

variable {δ : Type}

abbrev BdbOracle (δ : Type) := Oracle (Call δ) Reply

/-- Every reply carries the code `c`, with nothing in the out-parameters. -/
def replyCode (c : Int) : (call : Call δ) → Reply call
  | .txnBegin _ => (c, 0)
  | .get .. => (c, [])
  | .cursor .. => (c, 0)
  | .cursorGet .. => (c, [], [])
  | .load .. => []
  | .commit _ | .abort _ | .put .. | .del .. | .cursorClose _ | .txnCheckpoint .. => c

/-- Code 0 is delivered only where the last attempt performed the operation and, on a
transactional Db, was begun and committed. -/
def Truthful (dbObj : Db) (op : Operation δ) (t : BdbTrace δ) (d : Delivery) : Prop :=
  d.code = 0 →
    if dbObj._transactional then
      ∃ pre x b, t = pre ++ ⟨.txnBegin dbObj._env, (0, x)⟩ :: (b ++ [⟨.commit x, 0⟩]) ∧
        Performed dbObj (some x) b op
    else Performed dbObj none t op

/-- A refused first transaction is delivered as success, with no call after it. -/
theorem refused_delivers_zero {dbObj : Db} {op : Operation δ} {o : BdbOracle δ}
    (ho : dbObj._db ≠ none) (ht : dbObj._transactional = true)
    (hc : (o [] (.txnBegin dbObj._env)).1 ≠ 0) :
    (exec o [] (op.deliver dbObj)).1 = [⟨.txnBegin dbObj._env, o [] (.txnBegin dbObj._env)⟩] ∧
      (exec o [] (op.deliver dbObj)).2.code = 0 := by
  obtain ⟨d, h0, hop⟩ := operation_opening ho op
  obtain ⟨k, hp, hrefused, -⟩ := hop.transactional ht
  rw [hp, exec_call, hrefused _ hc]
  exact ⟨rfl, h0⟩

/-- Where the code is 0, either the operation was performed or the only call was a refused
`txn_begin`. -/
theorem zero_performed_or_refused {dbObj : Db} {op : Operation δ} {t : BdbTrace δ} {d : Delivery}
    (hk : op.onKey = true) (ho : dbObj._db ≠ none) (hr : Runs (op.deliver dbObj) t d) :
    Truthful dbObj op t d ∨
      dbObj._transactional = true ∧ ∃ c x, c ≠ 0 ∧ t = [⟨.txnBegin dbObj._env, (c, x)⟩] := by
  have hspec := onKey_spec hk (fun _ _ => ho) hr
  cases ht : dbObj._transactional with
  | false =>
    left
    intro h0
    have h := hspec.plain ht
    rw [h0] at h
    simpa [ht] using outcome_performed h
  | true =>
    cases hspec.transactional ht with
    | @refused pre c x d hc hp =>
      by_cases hpre : pre = []
      · subst hpre; exact .inr ⟨rfl, c, x, hc, rfl⟩
      · left
        intro h0
        rw [hp hpre] at h0
        exact absurd h0 (by decide)
    | @committed pre b x d hb =>
      left
      intro h0
      simp only [ht, ↓reduceIte]
      exact ⟨pre, x, b, by rw [h0], outcome_performed hb⟩
    | aborted _ h => exact .inl fun h0 => absurd h0 h

/-- No path through the operation has a commit after a refused first transaction. -/
theorem refused_not_truthful {dbObj : Db} {op : Operation δ} {o : BdbOracle δ} (ho : dbObj._db ≠ none) (ht : dbObj._transactional = true)
    (hc : (o [] (.txnBegin dbObj._env)).1 ≠ 0) :
    ¬ Truthful dbObj op (exec o [] (op.deliver dbObj)).1 (exec o [] (op.deliver dbObj)).2 := by
  intro h
  obtain ⟨he, h0⟩ := refused_delivers_zero ho ht hc
  have hd := h h0
  simp only [ht, ↓reduceIte, he] at hd
  obtain ⟨pre, x, b, hb, -⟩ := hd
  have hl := congrArg List.length hb
  simp only [List.length_cons, List.length_nil, List.length_append] at hl
  omega

/-- Success is truthful exactly where the first `txn_begin` of a transactional Db is granted. -/
theorem truthful_iff (dbObj : Db) (op : Operation δ) (o : BdbOracle δ) (hk : op.onKey = true)
    (ho : dbObj._db ≠ none) :
    Truthful dbObj op (exec o [] (op.deliver dbObj)).1 (exec o [] (op.deliver dbObj)).2 ↔
      ¬(dbObj._transactional = true ∧ (o [] (.txnBegin dbObj._env)).1 ≠ 0) := by
  constructor
  · rintro h ⟨ht, hc⟩
    exact refused_not_truthful ho ht hc h
  · intro hn
    rcases zero_performed_or_refused hk ho (runs_exec o (op.deliver dbObj)) with h | ⟨ht, c, x, hc, h⟩
    · exact h
    · have hx := exec_head o [] (op.deliver dbObj) _ _ [] (by simpa using h)
      exact absurd ⟨ht, by rw [← hx]; exact hc⟩ hn

/-- An open transactional Db with the default retries. -/
def openDb : Db := { _db := some 1, _env := some 0, _retries := 1, _transactional := true }

/-- `put({key: 'k', val: 'v'})`. -/
def putOne : Operation Bytes :=
  .request (.put { data := .buffer [107] 1 } { data := .buffer [118] 1 } 0)

/-- Berkeley DB accepts every call. -/
theorem granted_put_truthful :
    Truthful openDb putOne (exec (fun _ => replyCode 0) [] (putOne.deliver openDb)).1
      (exec (fun _ => replyCode 0) [] (putOne.deliver openDb)).2 :=
  (truthful_iff openDb putOne (fun _ => replyCode 0) rfl (by decide)).mpr
    (by rintro ⟨-, h⟩; exact h rfl)

/-- `txn_begin` returns `ENOMEM`, nothing else is called, and the put is told code 0. -/
theorem refused_put_claims_success :
    ¬ Truthful openDb putOne (exec (fun _ => replyCode 12) [] (putOne.deliver openDb)).1
      (exec (fun _ => replyCode 12) [] (putOne.deliver openDb)).2 :=
  refused_not_truthful (by decide) rfl (by decide)

end NodeBdb
