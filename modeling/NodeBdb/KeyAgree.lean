import NodeBdb.Success

/-!
# The two ways to an operation on one key

`get`, `put` and `del` stand in the source twice, as a worker with the function that
delivers its result and as a synchronous method. On an open Db the two make the same calls
with the same DBTs, one after the other, and tell JavaScript the same; only the text of one
code differs, which no call of Berkeley DB gives.
-/

namespace NodeBdb

open Interaction

variable {δ σ τ : Type}

/-! ## Two brackets that keep the same locals -/

section Map

variable (status : Status σ) (status' : Status τ) (body : Option TxnHandle → σ → BdbProg δ σ)
  (body' : Option TxnHandle → τ → BdbProg δ τ)

/-- Where one body is the other seen through `f`, so is every attempt. The induction is on the
retries left. -/
theorem again_map (dbObj : Db) (f : σ → τ) (hget : ∀ s, status'.get (f s) = status.get s)
    (hset : ∀ c s, status'.set c (f s) = f (status.set c s))
    (hbody : ∀ x s, body' x (f s) = body x s >>= fun s => .ret (f s)) (left : Nat) (n : Int)
    (hn : (dbObj._retries - n).toNat = left) (s : σ) :
    again dbObj status' body' n (f s) =
      again dbObj status body n s >>= fun s => .ret (f s) := by
  induction left using Nat.strongRecOn generalizing n s with
  | ind left ih =>
    rw [again, again]
    by_cases ht : dbObj._transactional = true
    · rw [if_pos ht, if_pos ht, Prog.call_bind]
      apply congrArg
      funext r
      obtain ⟨c, x⟩ := r
      dsimp only
      by_cases hr : c = 0
      · rw [if_neg (not_not_intro hr), if_neg (not_not_intro hr), hbody]
        simp only [Prog.bind_assoc, Prog.ret_bind, hget]
        apply congrArg
        funext s₁
        by_cases h0 : status.get s₁ = 0
        · simp only [h0, ↓reduceIte, Prog.call_bind, Prog.ret_bind, hset]
        · by_cases hd : status.get s₁ = dbLockDeadlock ∧ n + 1 ≤ dbObj._retries
          · rw [if_neg h0, if_neg h0, if_pos hd, if_pos hd, Prog.call_bind]
            apply congrArg
            funext _
            exact ih _ (by omega) (n + 1) rfl s₁
          · simp only [h0, hd, ↓reduceIte, Prog.call_bind, Prog.ret_bind]
      · rw [if_pos hr, if_pos hr, Prog.ret_bind]
    · rw [if_neg ht, if_neg ht, hbody]

theorem txn_map (dbObj : Db) (f : σ → τ) (hget : ∀ s, status'.get (f s) = status.get s)
    (hset : ∀ c s, status'.set c (f s) = f (status.set c s))
    (hbody : ∀ x s, body' x (f s) = body x s >>= fun s => .ret (f s)) (s : σ) :
    txn dbObj status' body' (f s) = txn dbObj status body s >>= fun s => .ret (f s) :=
  again_map status status' body body' dbObj f hget hset hbody _ 0 rfl s

end Map

/-! ## The locals of a synchronous method in a baton -/

/-- The baton that holds the arguments of `b` and what the locals hold. -/
def SyncLocals.inBaton (b : EIODbBaton δ) (s : SyncLocals δ) : EIODbBaton δ :=
  { b with status := s.rc, val := s.dbtVal, ledger := s.ledger }

/-- The same where the value is an argument. -/
def SyncLocals.besideVal (b : EIODbBaton δ) (s : SyncLocals δ) : EIODbBaton δ :=
  { b with status := s.rc, ledger := s.ledger }

theorem getBody_inBaton (dbObj : Db) (b : EIODbBaton δ) (x : Option TxnHandle) (s : SyncLocals δ) :
    getBody dbObj x (s.inBaton b) =
      getSBody dbObj b.key b.flags x s >>= fun s => .ret (s.inBaton b) := by
  simp only [getBody, getSBody, Prog.call_bind, Prog.ret_bind]
  apply congrArg
  funext r
  by_cases hr : r.1 = 0
  · simp only [hr, ↓reduceIte]
    rfl
  · simp only [hr, ↓reduceIte]
    rfl

/-! ## The agreement -/

/-- The request with the arguments of the call. -/
def DirectCall.request : DirectCall δ → Request δ
  | getS key flags => .get key flags
  | putS key val flags => .put key val flags
  | delS key flags => .del key flags
  | cursorGetS key limit initFlag flags => .cursorGet key limit initFlag flags

/-- What `EIO_After_ReturnStatus` would make of it. -/
def DirectCall.told : DirectCall δ → Delivery → Delivery
  | putS .., d => { d with message := errMsg d.code }
  | delS .., d => { d with message := errMsg d.code }
  | _, d => d

/-- A synchronous method does not ask whether the handle is open. -/
theorem direct_calls (dbObj : Db) (c : DirectCall δ) :
    ∃ call k, c.deliver dbObj = .call call k := by
  rw [direct_bracket, txn, again]
  by_cases ht : dbObj._transactional = true
  · rw [if_pos ht]
    exact ⟨_, _, rfl⟩
  · rw [if_neg ht]
    cases c <;> exact ⟨_, _, rfl⟩

theorem direct_agrees (dbObj : Db) (ho : dbObj._db ≠ none) (c : DirectCall δ)
    (hk : (Operation.direct c).onKey = true) :
    c.request.deliver dbObj = c.deliver dbObj >>= fun d => .ret (c.told d) := by
  rw [request_bracket ho, direct_bracket, Prog.bind_assoc]
  cases c with
  | getS key flags =>
    have h := txn_map SyncLocals.statusVar EIODbBaton.statusVar (getSBody dbObj key flags)
      (getBody dbObj) dbObj (SyncLocals.inBaton (Request.get key flags).baton) (fun _ => rfl)
      (fun _ _ => rfl) (getBody_inBaton dbObj _) { dbtVal := { flags := dbDbtMalloc } }
    exact (congrArg (· >>= fun b => .ret (eioAfterGet b)) h).trans (Prog.bind_assoc _ _ _)
  | putS key val flags =>
    have h := txn_map SyncLocals.statusVar EIODbBaton.statusVar (putSBody dbObj key val flags)
      (putBody dbObj) dbObj (SyncLocals.besideVal (Request.put key val flags).baton)
      (fun _ => rfl) (fun _ _ => rfl) (fun _ _ => rfl) {}
    exact (congrArg (· >>= fun b => .ret (eioAfterReturnStatus b)) h).trans (Prog.bind_assoc _ _ _)
  | delS key flags =>
    have h := txn_map SyncLocals.statusVar EIODbBaton.statusVar (delSBody dbObj key flags)
      (delBody dbObj) dbObj (SyncLocals.besideVal (Request.del key flags).baton)
      (fun _ => rfl) (fun _ _ => rfl) (fun _ _ => rfl) {}
    exact (congrArg (· >>= fun b => .ret (eioAfterReturnStatus b)) h).trans (Prog.bind_assoc _ _ _)
  | cursorGetS key limit initFlag flags => cases hk

/-- A request on one key is the synchronous call if and only if the Db is open. -/
theorem direct_agrees_iff (dbObj : Db) (c : DirectCall δ)
    (hk : (Operation.direct c).onKey = true) :
    c.request.deliver dbObj = c.deliver dbObj >>= (fun d => .ret (c.told d)) ↔
      dbObj._db ≠ none := by
  constructor
  · intro h hc
    obtain ⟨call, k, hcall⟩ := direct_calls dbObj c
    rw [hcall, Prog.call_bind, Request.deliver, worker_closed hc] at h
    cases h
  · intro ho
    exact direct_agrees dbObj ho c hk

theorem direct_agrees_get :
    ((DirectCall.getS (buffer [107]) 0).request.deliver openDb =
      (DirectCall.getS (buffer [107]) 0).deliver openDb >>=
        fun d => .ret ((DirectCall.getS (buffer [107]) 0).told d)) :=
  (direct_agrees_iff openDb (.getS (buffer [107]) 0) rfl).mpr (by decide)

end NodeBdb
