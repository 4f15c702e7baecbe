import NodeBdb.Objects
import NodeBdb.Discipline

/-!
# What the transactional flag says

`DbEnv::OpenS` writes the flag before it knows whether the open succeeds, and `Db::New`
copies it once. So an operation on a Db is wrapped in a transaction by the flags of the
last open that was tried on its environment before the Db was created, whatever came of
it and whatever came later.
-/

namespace NodeBdb

open Interaction Transition

/-! ## The flags that were tried -/

def EnvMethod.flag (b : Bool) : EnvMethod → Bool
  | .open _ flags _ => hasInitTxn flags
  | _ => b

/-- `DB_INIT_TXN` in the last open tried on the i-th `DbEnv`, after one more entry. -/
def Entry.tries (i : Nat) (b : Bool) : Entry → Bool
  | .env i' _ m _ => if i' = i then m.flag b else b
  | _ => b

def tried (i : Nat) (log : List Entry) : Bool := log.foldl (Entry.tries i) false

/-- The environment with this handle is open, by an open whose flags contained `DB_INIT_TXN`. -/
def TxnOpen (h : EnvHandle) (log : List Entry) : Prop :=
  ∃ flags, openedWith h log = some flags ∧ hasInitTxn flags = true

/-- The calls of an operation stand inside transactions of this environment. -/
def InTxn (env : Option EnvHandle) (t : BdbTrace Bytes) : Prop :=
  (∃ r t', t = ⟨.txnBegin env, r⟩ :: t') ∧ Disciplined t

/-- The two flags, as the log has them. -/
structure Flagged (s : System) : Prop where
  envs : ∀ i env, s.envs[i]? = some env → env._transactional = tried i s.log
  untried : ∀ i, s.envs.length ≤ i → tried i s.log = false
  dbs : ∀ j db, s.dbs[j]? = some db → ∃ pre post, s.log = pre ++ .newDb j db.createdOn :: post ∧
    db.fields._transactional = tried db.createdOn pre

section

variable {s s' : System} {e : SysEvent}

theorem setter_flag {m : EnvSetter} {args : List JsValue} {method : EnvMethod}
    (h : m.parse args = .ok method) (b : Bool) : method.flag b = b := by
  cases m with
  | setFlags =>
    obtain ⟨_, -, h⟩ := bind_ok h
    obtain ⟨_, -, h⟩ := bind_ok h
    cases h
    rfl
  | _ =>
    obtain ⟨_, -, h⟩ := bind_ok h
    cases h
    rfl

theorem envSync_flag {m : EnvSync} {env env' : DbEnv} {args : List JsValue} {method : EnvMethod}
    (h : m.run env args = .ok (env', method)) :
    env'._transactional = method.flag env._transactional := by
  cases m with
  | openS =>
    obtain ⟨_, -, h⟩ := bind_ok h
    obtain ⟨_, -, h⟩ := bind_ok h
    obtain ⟨_, -, h⟩ := bind_ok h
    cases h
    rfl
  | closeS =>
    obtain ⟨_, -, h⟩ := bind_ok h
    cases h
    rfl
  | set m =>
    obtain ⟨method, hm, h⟩ := bind_ok h
    cases h
    exact (setter_flag hm _).symm

theorem tried_append (i : Nat) (log entries : List Entry) :
    tried i (log ++ entries) = entries.foldl (Entry.tries i) (tried i log) :=
  List.foldl_append

/-- Steps that try no open. -/
theorem Flagged.quiet (h : Flagged s) {entries : List Entry} (hl : s'.log = s.log ++ entries)
    (ht : ∀ i b, entries.foldl (Entry.tries i) b = b)
    (he : ∀ (i : Nat) (env' : DbEnv), s'.envs[i]? = some env' →
      ∃ env : DbEnv, s.envs[i]? = some env ∧ env'._transactional = env._transactional)
    (hlen : s.envs.length ≤ s'.envs.length) :
    (∀ i env, s'.envs[i]? = some env → env._transactional = tried i s'.log) ∧
      ∀ i, s'.envs.length ≤ i → tried i s'.log = false := by
  constructor
  · intro i env' hi
    obtain ⟨env, henv, hflag⟩ := he i env' hi
    rw [hl, tried_append, ht, hflag]
    exact h.envs i env henv
  · intro i hi
    rw [hl, tried_append, ht]
    exact h.untried i (by omega)

theorem flagged_envs (h : Flagged s) (hs : s.Step e s') :
    (∀ i env, s'.envs[i]? = some env → env._transactional = tried i s'.log) ∧
      ∀ i, s'.envs.length ≤ i → tried i s'.log = false := by
  have hsame : ∀ (i : Nat) (env' : DbEnv), s.envs[i]? = some env' →
      ∃ env : DbEnv, s.envs[i]? = some env ∧ env'._transactional = env._transactional :=
    fun _ env' hi => ⟨env', hi, rfl⟩
  cases hs with
  | newDbEnv =>
    have hlog : ∀ i, tried i s.addEnv.log = tried i s.log := fun i => tried_append i _ _
    constructor
    · intro i env hi
      rw [hlog]
      rcases Table.get_append hi with ⟨rfl, rfl⟩ | ⟨-, hi⟩
      · exact (h.untried _ (Nat.le_refl _)).symm
      · exact h.envs i env hi
    · intro i hi
      rw [hlog]
      simp only [System.addEnv, List.length_append, List.length_singleton] at hi
      exact h.untried i (by omega)
  | @envSync i m args rc env env' method _ henv hrun _ _ =>
    have hlog : ∀ i', tried i' (s.callEnv i env env' method rc).log =
        if i = i' then method.flag (tried i' s.log) else tried i' s.log :=
      fun i' => tried_append i' _ _
    constructor
    · intro i' x hx
      rw [hlog]
      rcases Table.get_set henv hx with ⟨rfl, rfl⟩ | ⟨hne, hx⟩
      · rw [if_pos rfl, envSync_flag hrun, h.envs i' env henv]
      · rw [if_neg (Ne.symm hne)]
        exact h.envs i' x hx
    · intro i' hi
      have hlt := (List.getElem?_eq_some_iff.mp henv).1
      simp only [System.callEnv, List.length_set] at hi
      rw [hlog, if_neg (by omega)]
      exact h.untried i' hi
  | @closedEnv i rc env _ henv _ =>
    refine h.quiet (List.append_assoc ..) (fun i' b => ?_) (fun i' x hx => ?_)
      (by simp [System.callEnv, System.markFinalized])
    · simp [Entry.tries, EnvMethod.flag]
    · rcases Table.get_set henv hx with ⟨rfl, rfl⟩ | ⟨-, hx⟩
      · exact ⟨env, henv, rfl⟩
      · exact ⟨x, hx, rfl⟩
  | unchanged => exact ⟨h.envs, h.untried⟩
  | drop => exact ⟨h.envs, h.untried⟩
  | dbUncalled => exact ⟨h.envs, h.untried⟩
  | closedDb => exact h.quiet (List.append_assoc ..) (fun _ _ => rfl) hsame (Nat.le_refl _)
  | _ => exact h.quiet rfl (fun _ _ => rfl) hsame (Nat.le_refl _)

theorem Flagged.step (h : Flagged s) (hs : s.Step e s') : Flagged s' := by
  obtain ⟨henvs, huntried⟩ := flagged_envs h hs
  refine ⟨henvs, huntried, fun j db' hj => ?_⟩
  rcases dbs_step hs hj with ⟨db, hdb, hm⟩ | ⟨rfl, i, env, rc, hi, henv, rfl, rfl⟩
  · obtain ⟨pre, post, hlog, hflag⟩ := h.dbs j db hdb
    obtain ⟨entries, hl⟩ := log_grows hs
    refine ⟨pre, post ++ entries, ?_, ?_⟩
    · rw [hl, hlog, hm.createdOn, List.append_assoc, List.cons_append]
    · rw [hm.transactional, hm.createdOn]
      exact hflag
  · exact ⟨s.log, [], rfl, h.envs i env henv⟩

theorem path_flagged {n : Int} {es : List SysEvent} (h : FPath System.step (.initial n) es s) :
    Flagged s := by
  induction h with
  | nil => exact ⟨fun _ _ hi => (nomatch hi), fun _ _ => rfl, fun _ _ hj => (nomatch hj)⟩
  | snoc _ hst ih => exact ih.step (step_cases hst)

/-- An operation on an open handle stands inside transactions exactly if the flag is set. -/
theorem inTxn_iff {dbObj : Db} {op : Operation Bytes} {t : BdbTrace Bytes} {d : Delivery}
    (ho : dbObj._db ≠ none) (hr : Runs (op.deliver dbObj) t d) :
    InTxn dbObj._env t ↔ dbObj._transactional = true := by
  obtain ⟨d₀, -, hop⟩ := operation_opening ho op
  constructor
  · rintro ⟨⟨x, t', rfl⟩, -⟩
    cases ht : dbObj._transactional with
    | true => rfl
    | false =>
      obtain ⟨c, k, he, hc⟩ := hop.plain ht
      rw [he] at hr
      obtain ⟨y, t'', heq, -⟩ := hr
      cases heq
      cases hc
  · intro ht
    refine ⟨?_, operation_disciplined ht hr⟩
    obtain ⟨k, he, -⟩ := hop.transactional ht
    rw [he] at hr
    obtain ⟨x, t', rfl, -⟩ := hr
    exact ⟨x, t', rfl⟩

end

/-- The flag tells the truth about a Db exactly if the last open tried before the Db was created
and the open that succeeded agree, and an open that fails leaves the flag as it was exactly if
it agrees with the one tried before. -/
theorem flag_truthful_iff (n : Int) (es : List SysEvent) (s : System)
    (h : FPath System.step (.initial n) es s) :
    (∀ j db, s.dbs[j]? = some db → db.fields._db ≠ none → ∃ pre post,
      s.log = pre ++ .newDb j db.createdOn :: post ∧
        ∀ (op : Operation Bytes) t d, Runs (op.deliver db.fields) t d →
          ((InTxn db.fields._env t ↔ TxnOpen db.createdOn s.log) ↔
            (tried db.createdOn pre = true ↔ TxnOpen db.createdOn s.log))) ∧
      ∀ i env args rc s' env', s.envs[i]? = some env →
        s.step (.js (.env i (.sync .openS args rc))) = some s' → rc ≠ 0 →
        s'.envs[i]? = some env' →
        (env'._transactional = env._transactional ↔ tried i s'.log = tried i s.log) := by
  have hf := path_flagged h
  constructor
  · intro j db hj ho
    obtain ⟨pre, post, hlog, hflag⟩ := hf.dbs j db hj
    refine ⟨pre, post, hlog, fun op t d hr => ?_⟩
    rw [inTxn_iff ho hr, hflag]
  · intro i env args rc s' env' henv hs _ henv'
    rw [hf.envs i env henv, (hf.step (step_cases hs)).envs i env' henv']

/-- A Db that is created before its environment is opened with `DB_INIT_TXN`. -/
def earlyRun : List SysEvent :=
  [.js (.newDbEnv 0), .js (.newDb [.wrapper (.env 0)] 0),
   .js (.env 0 (.sync .openS [.string "home", .number 0x800, .number 0] 0)),
   .js (.db 0 (.sync .openS [.string "file", .number 1, .number 1, .number 0, .number 1] 0))]

def earlyDb : Db := { _db := some 0, _env := some 0, _retries := 1, _transactional := false }

/-- Both opens succeed, and the operations on the Db run outside of any transaction. -/
theorem earlyRun_untruthful :
    ∃ s, run System.step (.initial 0) earlyRun = some s ∧
      ¬ ∀ (j : Nat) (db : WrappedDb), s.dbs[j]? = some db → db.fields._db ≠ none → ∀ (op : Operation Bytes) t d,
        Runs (op.deliver db.fields) t d →
          (InTxn db.fields._env t ↔ TxnOpen db.createdOn s.log) := by
  refine ⟨_, rfl, fun h => ?_⟩
  have hr := runs_exec (fun _ => replyCode 0) (putOne.deliver earlyDb)
  have hin := (h 0 ⟨earlyDb, 0⟩ rfl (by decide) putOne _ _ hr).mpr ⟨0x800, rfl, rfl⟩
  exact absurd ((inTxn_iff (by decide) hr).mp hin) (by decide)

theorem earlyRun_iff :
    ∃ s, run System.step (.initial 0) earlyRun = some s ∧
      (∀ (j : Nat) (db : WrappedDb), s.dbs[j]? = some db → db.fields._db ≠ none → ∃ pre post,
        s.log = pre ++ .newDb j db.createdOn :: post ∧
          ∀ (op : Operation Bytes) t d, Runs (op.deliver db.fields) t d →
            ((InTxn db.fields._env t ↔ TxnOpen db.createdOn s.log) ↔
              (tried db.createdOn pre = true ↔ TxnOpen db.createdOn s.log))) := by
  refine ⟨_, rfl, ?_⟩
  exact (flag_truthful_iff 0 earlyRun _ (run_path rfl)).1

end NodeBdb
