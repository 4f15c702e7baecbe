import NodeBdb.Db

/-!
# The wrapped operations

The nine operations whose bodies stand between `TXN_BEGIN` and `TXN_END`, each from
the arguments of its entry point to what JavaScript is told. A request is one that
goes through a worker; a direct call is one of the `Sync` methods.
-/

namespace NodeBdb

open Interaction

inductive Request (δ : Type) where
  | get : (key : Dbt δ) → (flags : Int) → Request δ
  | put : (key val : Dbt δ) → (flags : Int) → Request δ
  | putIf : (key val oldVal : Dbt δ) → (flags : Int) → Request δ
  | del : (key : Dbt δ) → (flags : Int) → Request δ
  | cursorGet : (key : Dbt δ) → (limit initFlag flags : Int) → Request δ
  deriving DecidableEq, Repr

inductive DirectCall (δ : Type) where
  | getS : (key : Dbt δ) → (flags : Int) → DirectCall δ
  | putS : (key val : Dbt δ) → (flags : Int) → DirectCall δ
  | delS : (key : Dbt δ) → (flags : Int) → DirectCall δ
  | cursorGetS : (key : Dbt δ) → (limit initFlag flags : Int) → DirectCall δ
  deriving DecidableEq, Repr

variable {δ : Type}

/-- The baton as the entry point fills it. -/
def Request.baton : Request δ → EIODbBaton δ
  | get key flags => { flags := flags, key := key }
  | put key val flags => { flags := flags, key := key, val := val }
  | putIf key val oldVal flags => { flags := flags, key := key, val := val, oldVal := oldVal }
  | del key flags => { flags := flags, key := key }
  | cursorGet key limit initFlag flags =>
    { limit := limit, initFlag := initFlag, flags := flags, key := key }

/-- The function each entry point passes to `eio_custom` for a worker thread. -/
def Request.worker (dbObj : Db) : Request δ → EIODbBaton δ → BdbProg δ (EIODbBaton δ)
  | get .. => eioGet dbObj
  | put .. => eioPut dbObj
  | putIf .. => eioPutIf dbObj
  | del .. => eioDel dbObj
  | cursorGet .. => eioCursorGet dbObj

/-- The function each entry point passes to `eio_custom` for the main thread. -/
def Request.after : Request δ → EIODbBaton δ → Delivery
  | get .. => eioAfterGet
  | cursorGet .. => eioAfterCursorGet
  | _ => eioAfterReturnStatus

def Request.deliver (dbObj : Db) (r : Request δ) : BdbProg δ Delivery := do
  let baton ← r.worker dbObj r.baton
  return r.after baton

def DirectCall.deliver (dbObj : Db) : DirectCall δ → BdbProg δ Delivery
  | getS key flags => do return (← NodeBdb.getS dbObj key flags).getSResult
  | putS key val flags => do return (← NodeBdb.putS dbObj key val flags).result
  | delS key flags => do return (← NodeBdb.delS dbObj key flags).result
  | cursorGetS key limit initFlag flags => do
    return (← NodeBdb.cursorGetS dbObj key limit initFlag flags).result

inductive Operation (δ : Type) where
  | request : Request δ → Operation δ
  | direct : DirectCall δ → Operation δ
  deriving DecidableEq, Repr

def Operation.deliver (dbObj : Db) : Operation δ → BdbProg δ Delivery
  | request r => r.deliver dbObj
  | direct c => c.deliver dbObj

/-- The operations on one key, as opposed to the cursor walks. -/
def Operation.onKey : Operation δ → Bool
  | request (.cursorGet ..) => false
  | direct (.cursorGetS ..) => false
  | _ => true

/-- What stands between `TXN_BEGIN` and `TXN_END`, with the locals it starts from and what is
made of those it leaves. -/
structure Bracket (δ : Type) where
  Locals : Type
  status : Status Locals
  body : Db → Option TxnHandle → Locals → BdbProg δ Locals
  start : Locals
  out : Locals → Delivery

def Request.bracket : Request δ → Bracket δ
  | get key flags =>
    { Locals := EIODbBaton δ, status := EIODbBaton.statusVar
      body := getBody, out := eioAfterGet
      start := { (get key flags).baton with val := { flags := dbDbtMalloc } } }
  | put key val flags =>
    { Locals := EIODbBaton δ, status := EIODbBaton.statusVar
      body := putBody, out := eioAfterReturnStatus
      start := (put key val flags).baton }
  | putIf key val oldVal flags =>
    { Locals := PutIfLocals δ, status := PutIfLocals.statusVar, body := putIfBody
      out := fun s => eioAfterReturnStatus
        { s.baton with ledger := s.baton.ledger.freeData s.oldVal.data }
      start := { baton := (putIf key val oldVal flags).baton, oldVal := { flags := dbDbtMalloc } } }
  | del key flags =>
    { Locals := EIODbBaton δ, status := EIODbBaton.statusVar
      body := delBody, out := eioAfterReturnStatus
      start := (del key flags).baton }
  | cursorGet key limit initFlag flags =>
    { Locals := CursorLocals δ, status := CursorLocals.statusVar, body := cursorGetBody
      out := fun s => eioAfterCursorGet (cursorGetOut s)
      start := { baton := (cursorGet key limit initFlag flags).baton } }

def DirectCall.bracket : DirectCall δ → Bracket δ
  | getS key flags =>
    { Locals := SyncLocals δ, status := SyncLocals.statusVar
      body := fun db => getSBody db key flags, out := SyncLocals.getSResult
      start := { dbtVal := { flags := dbDbtMalloc } } }
  | putS key val flags =>
    { Locals := SyncLocals δ, status := SyncLocals.statusVar
      body := fun db => putSBody db key val flags, out := SyncLocals.result, start := {} }
  | delS key flags =>
    { Locals := SyncLocals δ, status := SyncLocals.statusVar
      body := fun db => delSBody db key flags, out := SyncLocals.result, start := {} }
  | cursorGetS key limit initFlag flags =>
    { Locals := CursorSLocals δ, status := CursorSLocals.statusVar
      body := fun db => cursorGetSBody db key limit initFlag flags
      out := fun s => (cursorGetSOut s).result, start := {} }

def Operation.bracket : Operation δ → Bracket δ
  | request r => r.bracket
  | direct c => c.bracket

/-- A worker that finds its Db closed makes no call. -/
theorem worker_closed {dbObj : Db} (hc : dbObj._db = none) (r : Request δ) (b : EIODbBaton δ) :
    r.worker dbObj b = .ret b := by
  cases r <;>
    simp only [Request.worker, eioGet, eioPut, eioPutIf, eioDel, eioCursorGet, hc, ↓reduceIte]

theorem request_bracket {dbObj : Db} (ho : dbObj._db ≠ none) (r : Request δ) :
    r.deliver dbObj = txn dbObj r.bracket.status (r.bracket.body dbObj) r.bracket.start >>= fun s =>
      .ret (r.bracket.out s) := by
  cases r <;>
    simp only [Request.deliver, Request.worker, eioGet, eioPut, eioPutIf, eioDel, eioCursorGet, ho,
      ↓reduceIte, Prog.pure_eq, Prog.bind_assoc, Prog.ret_bind] <;>
    rfl

theorem direct_bracket (dbObj : Db) (c : DirectCall δ) :
    c.deliver dbObj = txn dbObj c.bracket.status (c.bracket.body dbObj) c.bracket.start >>= fun s =>
      .ret (c.bracket.out s) := by
  cases c with
  | cursorGetS key limit initFlag flags =>
    simp only [DirectCall.deliver, cursorGetS, Prog.pure_eq, Prog.bind_assoc, Prog.ret_bind]
    rfl
  | _ => rfl

/-- Only a request asks whether the handle is open. -/
theorem deliver_bracket {dbObj : Db} {op : Operation δ}
    (ho : ∀ r, op = .request r → dbObj._db ≠ none) :
    op.deliver dbObj = txn dbObj op.bracket.status (op.bracket.body dbObj) op.bracket.start >>=
      fun s => .ret (op.bracket.out s) := by
  cases op with
  | request r => exact request_bracket (ho r rfl) r
  | direct c => exact direct_bracket dbObj c

/-- The events `t` are the operation itself, done under the transaction `x` and successful.
For `putIf` that is the get, the comparison of what it returned, and the put. -/
def Performed (dbObj : Db) (x : Option TxnHandle) (t : BdbTrace δ) : Operation δ → Prop
  | .request (.get key flags) => ∃ val v, t = [⟨.get dbObj._db x key val flags, (0, v)⟩]
  | .request (.put key val flags) => t = [⟨.put dbObj._db x key val flags, 0⟩]
  | .request (.putIf key val oldVal flags) => ∃ dbt v c, v.length = oldVal.data.size ∧
      Runs oldVal.data.contents c v ∧
      t = ⟨.get dbObj._db x key dbt 0, (0, v)⟩ :: (c ++ [⟨.put dbObj._db x key val flags, 0⟩])
  | .request (.del key flags) => t = [⟨.del dbObj._db x key flags, 0⟩]
  | .direct (.getS key flags) => ∃ val v, t = [⟨.get dbObj._db x key val flags, (0, v)⟩]
  | .direct (.putS key val flags) => t = [⟨.put dbObj._db x key val flags, 0⟩]
  | .direct (.delS key flags) => t = [⟨.del dbObj._db x key flags, 0⟩]
  | _ => False

/-! ## The bodies -/

section Bodies

variable {dbObj : Db} {x : Option TxnHandle} {t : BdbTrace δ}

/-- What a worker may change in its baton; the arguments stay as the entry point put them. -/
structure EIODbBaton.SameArgs (b b' : EIODbBaton δ) : Prop where
  flags : b'.flags = b.flags
  key : b'.key = b.key
  limit : b'.limit = b.limit
  initFlag : b'.initFlag = b.initFlag
  oldVal : b'.oldVal = b.oldVal

theorem getBody_runs {b b' : EIODbBaton δ} (h : Runs (getBody dbObj x b) t b') :
    b.SameArgs b' ∧ ∃ c v, t = [⟨.get dbObj._db x b.key b.val b.flags, (c, v)⟩] ∧ b'.status = c ∧
      (c = 0 → b'.val.data.bytes = v) := by
  simp only [getBody, Prog.call_bind, Prog.ret_bind, runs_call] at h
  obtain ⟨⟨c, v⟩, t', rfl, h⟩ := h
  by_cases hc : c = 0
  all_goals
    simp only [hc, ↓reduceIte, Prog.pure_eq, runs_ret] at h
    obtain ⟨rfl, rfl⟩ := h
    exact ⟨⟨rfl, rfl, rfl, rfl, rfl⟩, c, v, rfl, by simp [hc]⟩

theorem putBody_runs {b b' : EIODbBaton δ} (h : Runs (putBody dbObj x b) t b') :
    b.SameArgs b' ∧ b'.val = b.val ∧
      ∃ c, t = [⟨.put dbObj._db x b.key b.val b.flags, c⟩] ∧ b'.status = c := by
  simp only [putBody, Prog.call_bind, Prog.ret_bind, runs_call, Prog.pure_eq, runs_ret] at h
  obtain ⟨c, t', rfl, rfl, rfl⟩ := h
  exact ⟨⟨rfl, rfl, rfl, rfl, rfl⟩, rfl, c, rfl, rfl⟩

theorem delBody_runs {b b' : EIODbBaton δ} (h : Runs (delBody dbObj x b) t b') :
    b.SameArgs b' ∧ ∃ c, t = [⟨.del dbObj._db x b.key b.flags, c⟩] ∧ b'.status = c := by
  simp only [delBody, Prog.call_bind, Prog.ret_bind, runs_call, Prog.pure_eq, runs_ret] at h
  obtain ⟨c, t', rfl, rfl, rfl⟩ := h
  exact ⟨⟨rfl, rfl, rfl, rfl, rfl⟩, c, rfl, rfl⟩

theorem getSBody_runs {key : Dbt δ} {flags : Int} {s s' : SyncLocals δ}
    (h : Runs (getSBody dbObj key flags x s) t s') :
    ∃ c v, t = [⟨.get dbObj._db x key s.dbtVal flags, (c, v)⟩] ∧ s'.rc = c ∧
      (c = 0 → s'.dbtVal.data.bytes = v) := by
  simp only [getSBody, Prog.call_bind, Prog.ret_bind, runs_call] at h
  obtain ⟨⟨c, v⟩, t', rfl, h⟩ := h
  by_cases hc : c = 0
  all_goals
    simp only [hc, ↓reduceIte, Prog.pure_eq, runs_ret] at h
    obtain ⟨rfl, rfl⟩ := h
    exact ⟨c, v, rfl, by simp [hc]⟩

theorem putSBody_runs {key val : Dbt δ} {flags : Int} {s s' : SyncLocals δ}
    (h : Runs (putSBody dbObj key val flags x s) t s') :
    ∃ c, t = [⟨.put dbObj._db x key val flags, c⟩] ∧ s'.rc = c := by
  simp only [putSBody, Prog.call_bind, Prog.ret_bind, runs_call, Prog.pure_eq, runs_ret] at h
  obtain ⟨c, t', rfl, rfl, rfl⟩ := h
  exact ⟨c, rfl, rfl⟩

theorem delSBody_runs {key : Dbt δ} {flags : Int} {s s' : SyncLocals δ}
    (h : Runs (delSBody dbObj key flags x s) t s') :
    ∃ c, t = [⟨.del dbObj._db x key flags, c⟩] ∧ s'.rc = c := by
  simp only [delSBody, Prog.call_bind, Prog.ret_bind, runs_call, Prog.pure_eq, runs_ret] at h
  obtain ⟨c, t', rfl, rfl, rfl⟩ := h
  exact ⟨c, rfl, rfl⟩

/-- The four ways through the body of `EIO_PutIf`, with the status at the label `error`. -/
inductive PutIfOutcome (dbObj : Db) (x : Option TxnHandle) (s : PutIfLocals δ) :
    BdbTrace δ → Int → Prop where
  | missed {c : Int} {v : Bytes} : c ≠ 0 →
      PutIfOutcome dbObj x s [⟨.get dbObj._db x s.baton.key s.oldVal 0, (c, v)⟩] c
  | otherSize {v : Bytes} : v.length ≠ s.baton.oldVal.data.size →
      PutIfOutcome dbObj x s [⟨.get dbObj._db x s.baton.key s.oldVal 0, (0, v)⟩] consistencyError
  | otherBytes {v w : Bytes} {e : BdbTrace δ} : v.length = s.baton.oldVal.data.size →
      Runs s.baton.oldVal.data.contents e w → v ≠ w →
      PutIfOutcome dbObj x s (⟨.get dbObj._db x s.baton.key s.oldVal 0, (0, v)⟩ :: e)
        consistencyError
  | put {v : Bytes} {e : BdbTrace δ} {c : Int} : v.length = s.baton.oldVal.data.size →
      Runs s.baton.oldVal.data.contents e v →
      PutIfOutcome dbObj x s (⟨.get dbObj._db x s.baton.key s.oldVal 0, (0, v)⟩ ::
        (e ++ [⟨.put dbObj._db x s.baton.key s.baton.val s.baton.flags, c⟩])) c

theorem putIfBody_runs {s s' : PutIfLocals δ} (h : Runs (putIfBody dbObj x s) t s') :
    s.baton.SameArgs s'.baton ∧ s'.baton.val = s.baton.val ∧
      PutIfOutcome dbObj x s t s'.baton.status := by
  simp only [putIfBody, Prog.call_bind, Prog.ret_bind, runs_call] at h
  obtain ⟨⟨c, v⟩, t', rfl, h⟩ := h
  by_cases hc : c = 0
  · subst c
    simp only [↓reduceIte, compareAndPut, receive_size, receive_bytes] at h
    by_cases hs : v.length = s.baton.oldVal.data.size
    · simp only [hs, ne_eq, not_true_eq_false, ↓reduceIte, runs_bind] at h
      obtain ⟨e, w, t₂, he, h, rfl⟩ := h
      by_cases hw : v = w
      · subst w
        simp only [not_true_eq_false, ↓reduceIte, Prog.call_bind, Prog.ret_bind, runs_call,
          Prog.pure_eq, runs_ret] at h
        obtain ⟨rc, _, rfl, rfl, rfl⟩ := h
        exact ⟨⟨rfl, rfl, rfl, rfl, rfl⟩, rfl, .put hs he⟩
      · simp only [hw, not_false_eq_true, ↓reduceIte, Prog.pure_eq, runs_ret] at h
        obtain ⟨rfl, rfl⟩ := h
        rw [List.append_nil]
        exact ⟨⟨rfl, rfl, rfl, rfl, rfl⟩, rfl, .otherBytes hs he hw⟩
    · simp only [ne_eq, hs, not_false_eq_true, ↓reduceIte, Prog.pure_eq, runs_ret] at h
      obtain ⟨rfl, rfl⟩ := h
      exact ⟨⟨rfl, rfl, rfl, rfl, rfl⟩, rfl, .otherSize hs⟩
  · simp only [hc, ↓reduceIte, Prog.pure_eq, runs_ret] at h
    obtain ⟨rfl, rfl⟩ := h
    exact ⟨⟨rfl, rfl, rfl, rfl, rfl⟩, rfl, .missed hc⟩

end Bodies

/-! ## The operations -/

/-- A run of the body of an operation under the transaction `x`, its status where `TXN_END`
is entered, and for a get the value it would deliver. -/
def Outcome (dbObj : Db) (x : Option TxnHandle) :
    Operation δ → BdbTrace δ → Int → Option Bytes → Prop
  | .request (.get key flags), t, c, value =>
    ∃ val v, t = [⟨.get dbObj._db x key val flags, (c, v)⟩] ∧ (c = 0 → value = some v)
  | .request (.put key val flags), t, c, _ => t = [⟨.put dbObj._db x key val flags, c⟩]
  | .request (.putIf key val oldVal flags), t, c, _ => ∃ s : PutIfLocals δ,
    s.baton.key = key ∧ s.baton.val = val ∧ s.baton.oldVal = oldVal ∧ s.baton.flags = flags ∧
      PutIfOutcome dbObj x s t c
  | .request (.del key flags), t, c, _ => t = [⟨.del dbObj._db x key flags, c⟩]
  | .direct (.getS key flags), t, c, value =>
    ∃ val v, t = [⟨.get dbObj._db x key val flags, (c, v)⟩] ∧ (c = 0 → value = some v)
  | .direct (.putS key val flags), t, c, _ => t = [⟨.put dbObj._db x key val flags, c⟩]
  | .direct (.delS key flags), t, c, _ => t = [⟨.del dbObj._db x key flags, c⟩]
  | _, _, _, _ => False

/-- A body that ended with status 0 did what it is for. -/
theorem outcome_performed {dbObj : Db} {x : Option TxnHandle} {op : Operation δ} {t : BdbTrace δ}
    {value : Option Bytes} (h : Outcome dbObj x op t 0 value) : Performed dbObj x t op := by
  match op, h with
  | .request (.get ..), ⟨val, v, ht, _⟩ => exact ⟨val, v, ht⟩
  | .request (.put ..), h => exact h
  | .request (.putIf ..), ⟨s, hk, hv, ho, hf, h⟩ =>
    subst hk hv ho hf
    generalize hc : (0 : Int) = c at h
    cases h with
    | missed hne => exact absurd hc.symm hne
    | otherSize => exact absurd hc (by decide)
    | otherBytes => exact absurd hc (by decide)
    | put hs he => subst hc; exact ⟨_, _, _, hs, he, rfl⟩
  | .request (.del ..), h => exact h
  | .direct (.getS ..), ⟨val, v, ht, _⟩ => exact ⟨val, v, ht⟩
  | .direct (.putS ..), h => exact h
  | .direct (.delS ..), h => exact h

/-- How an operation on one key ends on a transactional Db: the last attempt, and what is
delivered. -/
inductive Ending (dbObj : Db) (op : Operation δ) : BdbTrace δ → Delivery → Prop where
  | refused {p : BdbTrace δ} {c : Int} {x : TxnHandle} {d : Delivery} : c ≠ 0 →
      (p ≠ [] → d.code = dbLockDeadlock) →
      Ending dbObj op (p ++ [⟨.txnBegin dbObj._env, (c, x)⟩]) d
  | committed {p b : BdbTrace δ} {x : TxnHandle} {d : Delivery} :
      Outcome dbObj (some x) op b 0 d.value →
      Ending dbObj op (p ++ ⟨.txnBegin dbObj._env, (0, x)⟩ :: (b ++ [⟨.commit x, d.code⟩])) d
  | aborted {p b : BdbTrace δ} {x : TxnHandle} {c : Int} {d : Delivery} :
      Outcome dbObj (some x) op b d.code d.value → d.code ≠ 0 →
      Ending dbObj op (p ++ ⟨.txnBegin dbObj._env, (0, x)⟩ :: (b ++ [⟨.abort x, c⟩])) d

/-- The spec of an operation on one key, for both kinds of Db. -/
structure KeySpec (dbObj : Db) (op : Operation δ) (t : BdbTrace δ) (d : Delivery) : Prop where
  transactional : dbObj._transactional = true → Ending dbObj op t d
  plain : dbObj._transactional = false → Outcome dbObj none op t d.code d.value

section Operations

variable {dbObj : Db} {op : Operation δ} {t : BdbTrace δ} {d : Delivery}

/-- A bracket whose locals keep an invariant under which each run of the body is one of the
operation's. -/
structure Bracket.Meets (β : Bracket δ) (dbObj : Db) (op : Operation δ) (I : β.Locals → Prop) :
    Prop where
  start : I β.start
  body : ∀ x s b s₁, I s → Runs (β.body dbObj x s) b s₁ →
    I s₁ ∧ Outcome dbObj x op b (β.status.get s₁) (β.out s₁).value
  code : ∀ s, (β.out s).code = β.status.get s
  value : ∀ c s, (β.out (β.status.set c s)).value = (β.out s).value

theorem request_meets (dbObj : Db) (r : Request δ) (hk : (Operation.request r).onKey = true) :
    ∃ I, r.bracket.Meets dbObj (.request r) I := by
  cases r with
  | get key flags =>
    refine ⟨fun b : EIODbBaton δ => b.key = key ∧ b.flags = flags, ⟨rfl, rfl⟩, ?_, fun _ => rfl,
      fun _ _ => rfl⟩
    rintro x (b : EIODbBaton δ) t b' ⟨rfl, rfl⟩ hb
    obtain ⟨hs, c, v, rfl, hc, hv⟩ := getBody_runs hb
    exact ⟨⟨hs.key, hs.flags⟩, b.val, v, by rw [← hc]; rfl, fun h => congrArg some (hv (hc ▸ h))⟩
  | put key val flags =>
    refine ⟨fun b : EIODbBaton δ => b.key = key ∧ b.val = val ∧ b.flags = flags, ⟨rfl, rfl, rfl⟩, ?_,
      fun _ => rfl, fun _ _ => rfl⟩
    rintro x (b : EIODbBaton δ) t b' ⟨rfl, rfl, rfl⟩ hb
    obtain ⟨hs, hv, c, rfl, rfl⟩ := putBody_runs hb
    exact ⟨⟨hs.key, hv, hs.flags⟩, rfl⟩
  | putIf key val oldVal flags =>
    refine ⟨fun s : PutIfLocals δ => s.baton.key = key ∧ s.baton.val = val ∧
      s.baton.oldVal = oldVal ∧ s.baton.flags = flags, ⟨rfl, rfl, rfl, rfl⟩, ?_, fun _ => rfl,
      fun _ _ => rfl⟩
    rintro x (s : PutIfLocals δ) t s' ⟨rfl, rfl, rfl, rfl⟩ hb
    obtain ⟨hs, hv, ho⟩ := putIfBody_runs hb
    exact ⟨⟨hs.key, hv, hs.oldVal, hs.flags⟩, s, rfl, rfl, rfl, rfl, ho⟩
  | del key flags =>
    refine ⟨fun b : EIODbBaton δ => b.key = key ∧ b.flags = flags, ⟨rfl, rfl⟩, ?_, fun _ => rfl,
      fun _ _ => rfl⟩
    rintro x (b : EIODbBaton δ) t b' ⟨rfl, rfl⟩ hb
    obtain ⟨hs, c, rfl, rfl⟩ := delBody_runs hb
    exact ⟨⟨hs.key, hs.flags⟩, rfl⟩
  | cursorGet key limit initFlag flags => cases hk

theorem direct_meets (dbObj : Db) (c : DirectCall δ) (hk : (Operation.direct c).onKey = true) :
    ∃ I, c.bracket.Meets dbObj (.direct c) I := by
  cases c with
  | getS key flags =>
    refine ⟨fun _ => True, trivial, ?_, fun _ => rfl, fun _ _ => rfl⟩
    rintro x (s : SyncLocals δ) t s' - hb
    obtain ⟨c, v, rfl, hc, hv⟩ := getSBody_runs hb
    exact ⟨trivial, s.dbtVal, v, by rw [← hc]; rfl, fun h => congrArg some (hv (hc ▸ h))⟩
  | putS key val flags =>
    refine ⟨fun _ => True, trivial, ?_, fun _ => rfl, fun _ _ => rfl⟩
    rintro x (s : SyncLocals δ) t s' - hb
    obtain ⟨c, rfl, rfl⟩ := putSBody_runs hb
    exact ⟨trivial, rfl⟩
  | delS key flags =>
    refine ⟨fun _ => True, trivial, ?_, fun _ => rfl, fun _ _ => rfl⟩
    rintro x (s : SyncLocals δ) t s' - hb
    obtain ⟨c, rfl, rfl⟩ := delSBody_runs hb
    exact ⟨trivial, rfl⟩
  | cursorGetS key limit initFlag flags => cases hk

/-- The text between the macros in an operation on one key. -/
theorem onKey_meets (dbObj : Db) (hk : op.onKey = true) : ∃ I, op.bracket.Meets dbObj op I := by
  cases op with
  | request r => exact request_meets dbObj r hk
  | direct c => exact direct_meets dbObj c hk

/-- Every operation on one key meets its spec, where a request finds the handle open. -/
theorem onKey_spec (hk : op.onKey = true) (ho : ∀ r, op = .request r → dbObj._db ≠ none)
    (hr : Runs (op.deliver dbObj) t d) : KeySpec dbObj op t d := by
  obtain ⟨I, hmeets⟩ := onKey_meets dbObj hk
  rw [deliver_bracket ho, runs_bind] at hr
  obtain ⟨t₁, s', t₂, hr, ⟨rfl, rfl⟩, rfl⟩ := hr
  rw [List.append_nil]
  constructor
  · intro ht
    have h := (txn_attempts ht hr).ends
      (B := fun x b s => Outcome dbObj (some x) op b (op.bracket.status.get s) (op.bracket.out s).value)
      (fun x s b s₁ => hmeets.body (some x) s b s₁) hmeets.start
    cases h with
    | refused hc hp => exact .refused hc fun h => (hmeets.code _).trans (hp h)
    | @committed pre b x c s hb h0 =>
      have he : (op.bracket.out (op.bracket.status.set c s)).code = c :=
        (hmeets.code _).trans (op.bracket.status.get_set c s)
      rw [h0, ← hmeets.value c s] at hb
      have h := Ending.committed (p := pre) hb
      rwa [he] at h
    | aborted hb h0 =>
      rw [← hmeets.code] at hb h0
      exact .aborted hb h0
  · intro ht
    have h := (hmeets.body none op.bracket.start t₁ s' hmeets.start (txn_plain ht hr)).2
    rwa [← hmeets.code] at h

end Operations

end NodeBdb
