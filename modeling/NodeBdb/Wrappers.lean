import NodeBdb.Arguments

/-!
# The two wrapper classes

`DbEnv` and `Db` hold a handle each, and a `Db` a copy of its environment's. A method
outside of the wrapped operations checks its arguments, may write a field, and enters
one method of the handle; whether the handle is NULL or closed it does not ask, the
open of a database apart.
-/

namespace NodeBdb

open Interaction Prog

/-- The fields of the C++ class `DbEnv`. -/
structure DbEnv where
  _transactional : Bool := false
  _env : Option EnvHandle := none
  deriving DecidableEq, Repr

def dbInitTxn : Nat := 0x800

/-- `flags & DB_INIT_TXN`, as a `bool`. -/
def hasInitTxn (flags : Int) : Bool := (toUnsigned flags &&& dbInitTxn) != 0

/-- `DB_RES(rc, db_strerror(rc), msg)`. -/
def dbRes (rc : Int) : Delivery := { code := rc, message := .dbStrerror rc }

/-! ## Methods of DbEnv -/

/-- The flag is written before the open it describes. -/
def DbEnv.openS (env : DbEnv) (args : List JsValue) : Except String (DbEnv × EnvMethod) := do
  let dbHome ← reqStrArg 0 args
  let flags ← reqIntArg 1 args
  let mode ← reqIntArg 2 args
  return ({ env with _transactional := hasInitTxn flags }, .open dbHome flags mode)

/-- The field `_env` keeps the handle that is closed. -/
def DbEnv.closeS (env : DbEnv) (args : List JsValue) : Except String (DbEnv × EnvMethod) := do
  let flags ← reqIntArg 0 args
  return (env, .close flags)

/-- The synchronous methods of `DbEnv`. -/
inductive EnvSync where
  | openS | closeS
  | set : EnvSetter → EnvSync
  deriving DecidableEq, Repr

def EnvSync.run (env : DbEnv) (args : List JsValue) : EnvSync → Except String (DbEnv × EnvMethod)
  | openS => env.openS args
  | closeS => env.closeS args
  | set m => do return (env, ← m.parse args)

/-- `rc` is what the handle's method returns. For `setErrorFile` it is the `errno` of `fopen`,
and the handle is entered only if the file could be opened. -/
def EnvMethod.entered (rc : Int) : EnvMethod → Bool
  | .setErrfile _ => rc == 0
  | _ => true

/-- The code that is returned to JavaScript; `set_errpfx` has none. -/
def EnvMethod.result (rc : Int) : EnvMethod → Int
  | .setErrpfx _ => 0
  | _ => rc

/-! ## Methods of Db -/

/-- `Db::New`, after `db_create` gave this handle or none. -/
def Db.new (env : DbEnv) (_db : Option DbHandle) : Db :=
  { _db := _db, _env := env._env, _transactional := env._transactional }

/-- A method may leave the handle alone. -/
def Db.openS (db : Db) (args : List JsValue) : Except String (Db × Option DbMethod) := do
  let file ← reqStrArg 0 args
  let type ← reqIntArg 1 args
  let flags ← reqIntArg 2 args
  let mode ← reqIntArg 3 args
  let retries ← reqIntArg 4 args
  return ({ db with _retries := retries },
    if db._db = none then none else some (.open file type flags mode))

def Db.closeS (db : Db) (args : List JsValue) : Except String (Db × Option DbMethod) := do
  let flags ← reqIntArg 0 args
  return ({ db with _db := none }, some (.close flags))

def Db.setFlags (db : Db) (args : List JsValue) : Except String (Db × Option DbMethod) := do
  let flags ← reqIntArg 0 args
  return (db, some (.setFlags flags))

def Db.setEncrypt (db : Db) (args : List JsValue) : Except String (Db × Option DbMethod) := do
  let passwd ← reqStrArg 0 args
  return (db, some (.setEncrypt passwd))

/-- The synchronous methods of `Db` outside of the wrapped operations, `_associateSync` apart. -/
inductive DbSync where
  | openS | closeS | setFlags | setEncrypt
  deriving DecidableEq, Repr

def DbSync.run (db : Db) (args : List JsValue) : DbSync → Except String (Db × Option DbMethod)
  | openS => db.openS args
  | closeS => db.closeS args
  | setFlags => db.setFlags args
  | setEncrypt => db.setEncrypt args

/-- `_associateSync`: the secondary, and the flags. -/
def associateArgs (args : List JsValue) : Except String (JsValue × Int) := do
  let sdb ← reqObjArg 0 args
  let _ ← reqStrArg 1 args
  let _ ← reqStrArg 2 args
  let flags ← reqIntArg 3 args
  return (sdb, flags)

/-- What `dlopen` and `dlsym` find, and what the association then returns. -/
inductive Resolved where
  | missing : (dlerror : String) → Resolved
  | found : (rc : Int) → Resolved
  deriving DecidableEq, Repr

/-! ## Jobs -/

def eioCheckpoint (env : DbEnv) (baton : EIOCheckpointBaton) : BdbProg Bytes EIOCheckpointBaton :=
  if env._env = none then .ret baton
  else do
    let rc ← bdb (.txnCheckpoint env._env baton.kbytes baton.minutes baton.flags)
    return { baton with status := rc }

/-- What `eio_custom` is given: the functions, and the baton with its object. -/
inductive Job where
  | db : (j : Nat) → Request Bytes → EIODbBaton Bytes → Job
  | checkpoint : (i : Nat) → EIOCheckpointBaton → Job

def Job.object : Job → ObjRef
  | db j _ _ => .db j
  | checkpoint i _ => .env i

/-- The work on a `Db` with these fields. -/
def Job.workDb (j : Nat) (r : Request Bytes) (baton : EIODbBaton Bytes) (dbObj : Db) :
    BdbProg Bytes Job := do
  return .db j r (← r.worker dbObj baton)

/-- The work on a `DbEnv` with these fields. -/
def Job.workEnv (i : Nat) (baton : EIOCheckpointBaton) (env : DbEnv) : BdbProg Bytes Job := do
  return .checkpoint i (← eioCheckpoint env baton)

/-- What the completion on the main thread hands to the callback. -/
def Job.after : Job → Delivery
  | db _ r baton => r.after baton
  | checkpoint _ baton => { code := baton.status, message := errMsg baton.status }

/-- A worker and the completion after it are the request's own delivery. -/
theorem workDb_runs {j : Nat} {r : Request Bytes} {dbObj : Db} {t : BdbTrace Bytes} {job : Job}
    (h : Runs (Job.workDb j r r.baton dbObj) t job) :
    Runs (r.deliver dbObj) t job.after ∧ ∃ baton, job = .db j r baton := by
  simp only [Job.workDb, runs_bind, pure_eq, runs_ret] at h
  obtain ⟨t₁, baton, t₂, h, ⟨rfl, rfl⟩, rfl⟩ := h
  refine ⟨?_, baton, rfl⟩
  simp only [Request.deliver, runs_bind, pure_eq, runs_ret]
  exact ⟨t₁, baton, [], h, ⟨rfl, rfl⟩, rfl⟩

end NodeBdb
