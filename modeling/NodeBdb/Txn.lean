import NodeBdb.Calls

/-!
# TXN_BEGIN and TXN_END

The macro pair around every key-value body and every cursor walk. The text between
the two macros is a parameter; `again` is the loop its labels and gotos make. The
locals of the enclosing function survive the backward goto, so they are threaded
through the attempts as one state.
-/

namespace NodeBdb

open Interaction

/-- The fields of the C++ class `Db`. -/
structure Db where
  _db : Option DbHandle := none
  _env : Option EnvHandle := none
  _retries : Int := 0
  _transactional : Bool := false
  deriving DecidableEq, Repr

/-- The variable that `TXN_END` takes as its STATUS argument. -/
structure Status (σ : Type) where
  get : σ → Int
  set : Int → σ → σ
  get_set : ∀ rc s, get (set rc s) = rc

variable {δ σ : Type}

/-- From the label `again` on. `_attempts` counts without a bound: the C counter is
an `int` and `_retries` is one too, so it is only at `INT_MAX` retries that they differ. -/
def again (dbObj : Db) (status : Status σ) (body : Option TxnHandle → σ → BdbProg δ σ)
    (_attempts : Int) (s : σ) : BdbProg δ σ :=
  if dbObj._transactional then
    .call (.txnBegin dbObj._env) fun (_rc, _txn) =>
      -- `goto out`: `_rc` is local to the macro and STATUS keeps what it held
      if _rc ≠ 0 then .ret s
      else body (some _txn) s >>= fun s =>
        if status.get s = 0 then
          .call (.commit _txn) fun rc => .ret (status.set rc s)
        else if status.get s = dbLockDeadlock ∧ _attempts + 1 ≤ dbObj._retries then
          .call (.abort _txn) fun _ => again dbObj status body (_attempts + 1) s
        else
          .call (.abort _txn) fun _ => .ret s
  else body none s
termination_by (dbObj._retries - _attempts).toNat
decreasing_by omega

/-- `TXN_BEGIN(DBOBJ)`, the body, `TXN_END(DBOBJ, STATUS)`. -/
def txn (dbObj : Db) (status : Status σ) (body : Option TxnHandle → σ → BdbProg δ σ) (s : σ) :
    BdbProg δ σ :=
  again dbObj status body 0 s

/-- What a run of the macro pair on a transactional Db is made of: attempts that end in
a deadlock and are aborted, and a last one that is refused, committed or given up. -/
inductive Attempts (dbObj : Db) (status : Status σ) (body : Option TxnHandle → σ → BdbProg δ σ) :
    Int → σ → BdbTrace δ → σ → Prop where
  | refused {n : Int} {s : σ} {c : Int} {x : TxnHandle} : c ≠ 0 →
      Attempts dbObj status body n s [⟨.txnBegin dbObj._env, (c, x)⟩] s
  | committed {n : Int} {s s₁ : σ} {x : TxnHandle} {b : BdbTrace δ} {c : Int} :
      Runs (body (some x) s) b s₁ → status.get s₁ = 0 →
      Attempts dbObj status body n s
        (⟨.txnBegin dbObj._env, (0, x)⟩ :: (b ++ [⟨.commit x, c⟩])) (status.set c s₁)
  | givenUp {n : Int} {s s₁ : σ} {x : TxnHandle} {b : BdbTrace δ} {c : Int} :
      Runs (body (some x) s) b s₁ → status.get s₁ ≠ 0 →
      ¬(status.get s₁ = dbLockDeadlock ∧ n + 1 ≤ dbObj._retries) →
      Attempts dbObj status body n s
        (⟨.txnBegin dbObj._env, (0, x)⟩ :: (b ++ [⟨.abort x, c⟩])) s₁
  | retried {n : Int} {s s₁ s₂ : σ} {x : TxnHandle} {b t : BdbTrace δ} {c : Int} :
      Runs (body (some x) s) b s₁ → status.get s₁ = dbLockDeadlock → n + 1 ≤ dbObj._retries →
      Attempts dbObj status body (n + 1) s₁ t s₂ →
      Attempts dbObj status body n s
        (⟨.txnBegin dbObj._env, (0, x)⟩ :: (b ++ ⟨.abort x, c⟩ :: t)) s₂

/-- How a run of attempts ends, where `B` describes the runs of the body. -/
inductive Ends (dbObj : Db) (status : Status σ) (B : TxnHandle → BdbTrace δ → σ → Prop) :
    BdbTrace δ → σ → Prop where
  | refused {p : BdbTrace δ} {c : Int} {x : TxnHandle} {s : σ} : c ≠ 0 →
      (p ≠ [] → status.get s = dbLockDeadlock) →
      Ends dbObj status B (p ++ [⟨.txnBegin dbObj._env, (c, x)⟩]) s
  | committed {p b : BdbTrace δ} {x : TxnHandle} {c : Int} {s : σ} : B x b s → status.get s = 0 →
      Ends dbObj status B (p ++ ⟨.txnBegin dbObj._env, (0, x)⟩ :: (b ++ [⟨.commit x, c⟩]))
        (status.set c s)
  | aborted {p b : BdbTrace δ} {x : TxnHandle} {c : Int} {s : σ} : B x b s → status.get s ≠ 0 →
      Ends dbObj status B (p ++ ⟨.txnBegin dbObj._env, (0, x)⟩ :: (b ++ [⟨.abort x, c⟩])) s

/-- The aborted attempts before the last one only lengthen the prefix. -/
theorem Ends.after_retry {dbObj : Db} {status : Status σ} {B : TxnHandle → BdbTrace δ → σ → Prop}
    {t front : BdbTrace δ} {s : σ} (h : Ends dbObj status B t s)
    (h0 : ∀ c x, t = [⟨.txnBegin dbObj._env, (c, x)⟩] → c ≠ 0 → status.get s = dbLockDeadlock) :
    Ends dbObj status B (front ++ t) s := by
  cases h with
  | @refused p c x s hc hp =>
    rw [← List.append_assoc]
    refine .refused hc fun _ => ?_
    by_cases hp0 : p = []
    · subst hp0; exact h0 c x rfl hc
    · exact hp hp0
  | committed hb hs => rw [← List.append_assoc]; exact .committed hb hs
  | aborted hb hs => rw [← List.append_assoc]; exact .aborted hb hs

theorem Attempts.single {dbObj : Db} {status : Status σ}
    {body : Option TxnHandle → σ → BdbProg δ σ} {n : Int} {s s' : σ} {t : BdbTrace δ}
    {e : BdbEvent δ} (h : Attempts dbObj status body n s t s') (ht : t = [e]) : s' = s := by
  cases h with
  | refused _ => rfl
  | committed _ _ => simp at ht
  | givenUp _ _ _ => simp at ht
  | retried _ _ _ _ => simp at ht

/-- An invariant `I` of the locals that the body keeps carries over every retry, so the
last attempt is a run of the body like any other. -/
theorem Attempts.ends {dbObj : Db} {status : Status σ}
    {body : Option TxnHandle → σ → BdbProg δ σ} {I : σ → Prop}
    {B : TxnHandle → BdbTrace δ → σ → Prop}
    (hbody : ∀ x s b s₁, I s → Runs (body (some x) s) b s₁ → I s₁ ∧ B x b s₁)
    {n : Int} {s s' : σ} {t : BdbTrace δ} (h : Attempts dbObj status body n s t s') (hI : I s) :
    Ends dbObj status B t s' := by
  induction h with
  | refused hc => exact .refused (p := []) hc (by simp)
  | committed hb h0 => exact .committed (p := []) (hbody _ _ _ _ hI hb).2 h0
  | givenUp hb h0 _ => exact .aborted (p := []) (hbody _ _ _ _ hI hb).2 h0
  | @retried n s s₁ s₂ x b t c hb hd _ hrest ih =>
    have h := ih (hbody _ _ _ _ hI hb).1
    have he : (⟨.txnBegin dbObj._env, (0, x)⟩ :: (b ++ ⟨.abort x, c⟩ :: t) : BdbTrace δ) =
        (⟨.txnBegin dbObj._env, (0, x)⟩ :: (b ++ [⟨.abort x, c⟩])) ++ t := by simp
    rw [he]
    refine h.after_retry fun c' x' ht hc' => ?_
    -- a refused second attempt returns with the deadlock of the first still in the status
    rw [hrest.single ht]
    exact hd

theorem again_plain (dbObj : Db) (status : Status σ) (body : Option TxnHandle → σ → BdbProg δ σ)
    (n : Int) (s : σ) (h : dbObj._transactional = false) :
    again dbObj status body n s = body none s := by
  rw [again]
  simp [h]

/-- Every run of the loop is a sequence of attempts; the induction is on the retries left. -/
theorem again_attempts (dbObj : Db) (status : Status σ)
    (body : Option TxnHandle → σ → BdbProg δ σ) (h : dbObj._transactional = true)
    (left : Nat) (n : Int) (hn : (dbObj._retries - n).toNat = left) (s s' : σ) (t : BdbTrace δ)
    (hr : Runs (again dbObj status body n s) t s') : Attempts dbObj status body n s t s' := by
  induction left using Nat.strongRecOn generalizing n s t with
  | ind left ih =>
    rw [again] at hr
    simp only [h, ↓reduceIte, runs_call] at hr
    obtain ⟨⟨c, x⟩, t', rfl, hr⟩ := hr
    by_cases hc : c = 0
    · subst c
      simp only [ne_eq, not_true_eq_false, ↓reduceIte, runs_bind] at hr
      obtain ⟨b, s₁, t₂, hb, hr, rfl⟩ := hr
      by_cases h0 : status.get s₁ = 0
      · simp only [h0, ↓reduceIte, runs_call, runs_ret] at hr
        obtain ⟨rc, _, rfl, rfl, rfl⟩ := hr
        exact .committed hb h0
      · by_cases hd : status.get s₁ = dbLockDeadlock ∧ n + 1 ≤ dbObj._retries
        · simp only [hd, and_self, ↓reduceIte] at hr
          obtain ⟨rc, t₃, rfl, hr⟩ := hr
          exact .retried hb hd.1 hd.2 (ih _ (by omega) (n + 1) rfl s₁ t₃ hr)
        · simp only [h0, hd, ↓reduceIte, runs_call, runs_ret] at hr
          obtain ⟨rc, _, rfl, rfl, rfl⟩ := hr
          exact .givenUp hb h0 hd
    · simp only [ne_eq, hc, not_false_eq_true, ↓reduceIte, runs_ret] at hr
      obtain ⟨rfl, rfl⟩ := hr
      exact .refused hc

theorem txn_attempts {dbObj : Db} {status : Status σ} {body : Option TxnHandle → σ → BdbProg δ σ}
    (h : dbObj._transactional = true) {s s' : σ} {t : BdbTrace δ}
    (hr : Runs (txn dbObj status body s) t s') : Attempts dbObj status body 0 s t s' :=
  again_attempts dbObj status body h _ 0 rfl s s' t hr

/-- Every sequence of attempts is a run of the loop. -/
theorem Attempts.runs {dbObj : Db} {status : Status σ} {body : Option TxnHandle → σ → BdbProg δ σ}
    (ht : dbObj._transactional = true) {n : Int} {s s' : σ} {t : BdbTrace δ}
    (h : Attempts dbObj status body n s t s') : Runs (again dbObj status body n s) t s' := by
  induction h with
  | @refused n s c x hc =>
    rw [again, if_pos ht]
    refine ⟨(c, x), [], rfl, ?_⟩
    simp [hc]
  | @committed n s s₁ x b c hb h0 =>
    rw [again, if_pos ht]
    refine ⟨(0, x), _, rfl, ?_⟩
    simp only [ne_eq, not_true_eq_false, ↓reduceIte, runs_bind]
    refine ⟨b, s₁, _, hb, ?_, rfl⟩
    rw [if_pos h0]
    exact ⟨c, [], rfl, rfl, rfl⟩
  | @givenUp n s s₁ x b c hb h0 hd =>
    rw [again, if_pos ht]
    refine ⟨(0, x), _, rfl, ?_⟩
    simp only [ne_eq, not_true_eq_false, ↓reduceIte, runs_bind]
    refine ⟨b, s₁, _, hb, ?_, rfl⟩
    rw [if_neg h0, if_neg hd]
    exact ⟨c, [], rfl, rfl, rfl⟩
  | @retried n s s₁ s₂ x b t c hb hd hn _ ih =>
    have h0 : status.get s₁ ≠ 0 := by rw [hd]; decide
    rw [again, if_pos ht]
    refine ⟨(0, x), _, rfl, ?_⟩
    simp only [ne_eq, not_true_eq_false, ↓reduceIte, runs_bind]
    refine ⟨b, s₁, _, hb, ?_, rfl⟩
    rw [if_neg h0, if_pos ⟨hd, hn⟩]
    exact ⟨c, t, rfl, ih⟩

theorem txn_plain {dbObj : Db} {status : Status σ} {body : Option TxnHandle → σ → BdbProg δ σ}
    (h : dbObj._transactional = false) {s s' : σ} {t : BdbTrace δ}
    (hr : Runs (txn dbObj status body s) t s') : Runs (body none s) t s' := by
  rwa [txn, again_plain _ _ _ _ _ h] at hr

/-! ## An invariant of the history -/

/-- A call that begins or resolves a transaction. -/
def Boundary : Call δ → Prop
  | .txnBegin _ | .commit _ | .abort _ => True
  | _ => False

section History

variable {dbObj : Db} {status : Status σ} {body : Option TxnHandle → σ → BdbProg δ σ}
  {J : BdbTrace δ → σ → Prop}

/-- What the status, the calls of the macros and each run of the body keep, a run of attempts
keeps. -/
theorem Attempts.history (hset : ∀ t c s, J t s → J t (status.set c s))
    (hcall : ∀ t e s, Boundary e.1 → J t s → J (t ++ [e]) s)
    (hbody : ∀ t x s b s₁, J t s → Runs (body x s) b s₁ → J (t ++ b) s₁) {n : Int} {s s' : σ}
    {t' : BdbTrace δ} (h : Attempts dbObj status body n s t' s') (t : BdbTrace δ) (hJ : J t s) :
    J (t ++ t') s' := by
  have hattempt : ∀ t x s b s₁ e, J t s → Runs (body (some x) s) b s₁ → Boundary e.1 →
      J (t ++ ⟨.txnBegin dbObj._env, (0, x)⟩ :: (b ++ [e])) s₁ := by
    intro t x s b s₁ e hJ hb he
    have h := hcall _ e _ he (hbody _ _ _ _ _ (hcall t ⟨.txnBegin dbObj._env, (0, x)⟩ s trivial hJ) hb)
    simpa using h
  induction h generalizing t with
  | refused _ => exact hcall _ _ _ trivial hJ
  | committed hb _ => exact hset _ _ _ (hattempt _ _ _ _ _ _ hJ hb trivial)
  | givenUp hb _ _ => exact hattempt _ _ _ _ _ _ hJ hb trivial
  | @retried _ _ _ _ x b t' c hb _ _ _ ih =>
    have h := ih _ (hattempt _ _ _ _ _ ⟨.abort x, c⟩ hJ hb trivial)
    simpa using h

/-- The last attempt of a run, after the calls `p`, from locals of which `J` holds there. -/
inductive LastAttempt (dbObj : Db) (status : Status σ) (body : Option TxnHandle → σ → BdbProg δ σ)
    (J : BdbTrace δ → σ → Prop) : BdbTrace δ → σ → Prop where
  | refused {p : BdbTrace δ} {c : Int} {x : TxnHandle} {s : σ} : J p s → c ≠ 0 →
      LastAttempt dbObj status body J (p ++ [⟨.txnBegin dbObj._env, (c, x)⟩]) s
  | committed {p b : BdbTrace δ} {x : TxnHandle} {c : Int} {s s₁ : σ} : J p s →
      Runs (body (some x) s) b s₁ → status.get s₁ = 0 →
      LastAttempt dbObj status body J
        (p ++ ⟨.txnBegin dbObj._env, (0, x)⟩ :: (b ++ [⟨.commit x, c⟩])) (status.set c s₁)
  | aborted {p b : BdbTrace δ} {x : TxnHandle} {c : Int} {s s₁ : σ} : J p s →
      Runs (body (some x) s) b s₁ → status.get s₁ ≠ 0 →
      LastAttempt dbObj status body J
        (p ++ ⟨.txnBegin dbObj._env, (0, x)⟩ :: (b ++ [⟨.abort x, c⟩])) s₁

/-- What every aborted attempt keeps holds where the last one starts. -/
theorem Attempts.last (hattempt : ∀ p x s b s₁ c, J p s → Runs (body (some x) s) b s₁ →
      J (p ++ ⟨.txnBegin dbObj._env, (0, x)⟩ :: (b ++ [⟨.abort x, c⟩])) s₁) {n : Int} {s s' : σ}
    {t : BdbTrace δ} (h : Attempts dbObj status body n s t s') (p : BdbTrace δ) (hJ : J p s) :
    LastAttempt dbObj status body J (p ++ t) s' := by
  induction h generalizing p with
  | refused hc => exact .refused hJ hc
  | committed hb h0 => exact .committed hJ hb h0
  | givenUp hb h0 _ => exact .aborted hJ hb h0
  | @retried _ _ _ _ x b t c hb _ _ _ ih =>
    have h := ih _ (hattempt p x _ b _ c hJ hb)
    simpa using h

theorem txn_history (hset : ∀ t c s, J t s → J t (status.set c s))
    (hcall : ∀ t e s, Boundary e.1 → J t s → J (t ++ [e]) s)
    (hbody : ∀ t x s b s₁, J t s → Runs (body x s) b s₁ → J (t ++ b) s₁) {s s' : σ} {t : BdbTrace δ}
    (h : Runs (txn dbObj status body s) t s') (hJ : J [] s) : J t s' := by
  cases ht : dbObj._transactional with
  | false => exact hbody _ _ _ _ _ hJ (txn_plain ht h)
  | true => exact (txn_attempts ht h).history hset hcall hbody [] hJ

end History

/-! ## Under a monitor without state -/

section Kept

variable {μ : Monitor (Call δ) Reply Unit} {dbObj : Db} {status : Status σ}
  {body : Option TxnHandle → σ → BdbProg δ σ} {I : σ → Prop}

/-- The monitor admits the calls of the macros themselves. -/
def AdmitsTxn (μ : Monitor (Call δ) Reply Unit) (dbObj : Db) : Prop :=
  μ.admits () (.txnBegin dbObj._env) ∧ (∀ x, μ.admits () (.commit x)) ∧ ∀ x, μ.admits () (.abort x)

/-- An invariant of the locals under which the body makes admitted calls carries over to the
macro pair. The induction is on the retries left. -/
theorem again_keeps (hμ : dbObj._transactional = true → AdmitsTxn μ dbObj)
    (hbody : ∀ x s, I s → μ.Obeys (fun _ s' => I s') () (body x s)) (left : Nat) (n : Int)
    (hn : (dbObj._retries - n).toNat = left) (s : σ) (hI : I s) :
    μ.Obeys (fun _ _ => True) () (again dbObj status body n s) := by
  induction left using Nat.strongRecOn generalizing n s with
  | ind left ih =>
    rw [again]
    by_cases ht : dbObj._transactional = true
    · rw [if_pos ht]
      refine ⟨(hμ ht).1, fun r _ => ?_⟩
      by_cases hr : r.1 = 0
      · simp only [hr, ne_eq, not_true_eq_false, ↓reduceIte, obeys_bind]
        refine (hbody (some r.2) s hI).mono fun _ s₁ hI₁ => ?_
        by_cases h0 : status.get s₁ = 0
        · simp only [h0, ↓reduceIte]
          exact ⟨(hμ ht).2.1 r.2, fun _ _ => trivial⟩
        · by_cases hd : status.get s₁ = dbLockDeadlock ∧ n + 1 ≤ dbObj._retries
          · simp only [hd, and_self, ↓reduceIte]
            exact ⟨(hμ ht).2.2 r.2, fun _ _ => ih _ (by omega) (n + 1) rfl s₁ hI₁⟩
          · simp only [h0, hd, ↓reduceIte]
            exact ⟨(hμ ht).2.2 r.2, fun _ _ => trivial⟩
      · simp only [ne_eq, hr, not_false_eq_true, ↓reduceIte]
        exact trivial
    · rw [if_neg ht]
      exact (hbody none s hI).mono fun _ _ _ => trivial

theorem txn_keeps (hμ : dbObj._transactional = true → AdmitsTxn μ dbObj)
    (hbody : ∀ x s, I s → μ.Obeys (fun _ s' => I s') () (body x s)) (s : σ) (hI : I s) :
    μ.Obeys (fun _ _ => True) () (txn dbObj status body s) :=
  again_keeps hμ hbody _ 0 rfl s hI

end Kept

/-! ## Against a server -/

section Served

variable {M : Type} (server : Server (Call δ) Reply M) {dbObj : Db} (status : Status σ)
  {body : Option TxnHandle → σ → BdbProg δ σ} {m : M} {s : σ}

theorem serve_txn_plain (ht : dbObj._transactional = false) :
    server.serve m (txn dbObj status body s) = server.serve m (body none s) := by
  rw [txn, again_plain _ _ _ _ _ ht]

theorem serve_txn_refused (ht : dbObj._transactional = true)
    (hc : (server.reply m (.txnBegin dbObj._env)).1 ≠ 0) :
    server.serve m (txn dbObj status body s) = (server.next m (.txnBegin dbObj._env), s) := by
  rw [txn, again, if_pos ht]
  simp [hc]

/-- A granted attempt that is no deadlock victim is the only one. -/
theorem serve_txn_granted (ht : dbObj._transactional = true)
    (hc : (server.reply m (.txnBegin dbObj._env)).1 = 0) {x : TxnHandle} {r : M × σ}
    (hx : (server.reply m (.txnBegin dbObj._env)).2 = x)
    (hr : server.serve (server.next m (.txnBegin dbObj._env)) (body (some x) s) = r)
    (hd : status.get r.2 ≠ dbLockDeadlock) :
    server.serve m (txn dbObj status body s) =
      if status.get r.2 = 0 then
        (server.next r.1 (.commit x), status.set (server.reply r.1 (.commit x)) r.2)
      else (server.next r.1 (.abort x), r.2) := by
  subst hx hr
  rw [txn, again, if_pos ht]
  simp only [serve_call, hc, ne_eq, not_true_eq_false, ↓reduceIte, serve_bind]
  by_cases h0 : status.get (server.serve (server.next m (.txnBegin dbObj._env))
      (body (some (server.reply m (.txnBegin dbObj._env)).2) s)).2 = 0
  · simp only [h0, ↓reduceIte, serve_call, serve_ret]
  · simp only [h0, hd, false_and, ↓reduceIte, serve_call, serve_ret]

end Served

end NodeBdb
