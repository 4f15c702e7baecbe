import NodeBdb.Wrappers
import NodeBdb.Transition
import NodeBdb.Table

/-!
# The process

The main thread, the worker threads, the collector and what they share: the wrapper
objects, the reference count of the event loop, and the requests on their way. The
main thread enters a method, or runs the completion of a request with the callback in
the middle of it; from inside a callback the script may call anything again. A worker
advances one call at a time. Whatever Berkeley DB answers is part of the event.

A worker reads the fields of its object when it starts. Runs in which the main thread
writes them while the worker is between two calls are races on memory and left out.
-/

namespace NodeBdb

open Interaction

/-! ## State -/

structure WrappedDb where
  fields : Db
  /-- The `DbEnv` whose handle was copied; the source keeps no trace of it. -/
  createdOn : Nat
  deriving DecidableEq, Repr

/-- Where a request stands; a worker is done when its program is a return. -/
inductive Stage where
  | queued : Stage
  | working : BdbProg Bytes Job → Stage
  | calling : Stage
  | completed : Stage

def Stage.isCompleted : Stage → Bool
  | completed => true
  | _ => false

/-- The main thread has not come back to the request yet, so it holds a reference of the loop. -/
def Stage.isPending : Stage → Bool
  | queued | working _ => true
  | _ => false

@[simp] theorem completed_queued : Stage.queued.isCompleted = false := rfl
@[simp] theorem completed_working (p : BdbProg Bytes Job) :
    (Stage.working p).isCompleted = false := rfl
@[simp] theorem completed_calling : Stage.calling.isCompleted = false := rfl
@[simp] theorem completed_completed : Stage.completed.isCompleted = true := rfl
@[simp] theorem pending_queued : Stage.queued.isPending = true := rfl
@[simp] theorem pending_working (p : BdbProg Bytes Job) : (Stage.working p).isPending = true := rfl
@[simp] theorem pending_calling : Stage.calling.isPending = false := rfl
@[simp] theorem pending_completed : Stage.completed.isPending = false := rfl

/-- Between two calls. -/
def Stage.isBusy : Stage → Bool
  | working (.call _ _) => true
  | _ => false

/-- An `eio_req`: the job as submitted, the persistent callback, and which wrappers its closure
holds. `calls` is what the worker has called so far. -/
structure EioReq where
  job : Job
  cb : Nat
  captured : List ObjRef
  calls : BdbTrace Bytes := []
  stage : Stage := .queued

/-- What happened, in order. The call of a handle's method names the handle it was made on. -/
inductive Entry where
  | newDbEnv : (i : Nat) → Entry
  | newDb : (j i : Nat) → Entry
  | env : (i : Nat) → (h : Option EnvHandle) → (m : EnvMethod) → (rc : Int) → Entry
  | db : (j : Nat) → (h : Option DbHandle) → (env : Option EnvHandle) → (m : DbMethod) → (rc : Int) → Entry
  | direct : (j : Nat) → (t : BdbTrace Bytes) → (d : Delivery) → Entry
  | accept : (k : Nat) → Entry
  | start : (k : Nat) → Entry
  | call : (k : Nat) → (e : BdbEvent Bytes) → Entry
  | callback : (k : Nat) → (d : Delivery) → Entry
  | delete : (k : Nat) → Entry
  | finalize : (r : ObjRef) → Entry

structure System where
  /-- `ev_ref` and `ev_unref` on the default loop. -/
  loopRefs : Int
  envs : List DbEnv := []
  dbs : List WrappedDb := []
  /-- The count of `ObjectWrap`. -/
  refs : ObjRef → Nat := fun _ => 0
  /-- What the script can reach. -/
  roots : List ObjRef := []
  finalized : List ObjRef := []
  requests : List EioReq := []
  /-- The request whose callback is running. -/
  current : Option Nat := none
  log : List Entry := []

def System.initial (n : Int) : System := { loopRefs := n }

/-! ## What Berkeley DB keeps of an environment -/

/-- The flags a handle is open with, after one more entry of the log. -/
def Entry.reopen (h : EnvHandle) : Entry → Option Int → Option Int
  | .env _ h' (.open _ flags _) rc, o => if h' = some h ∧ rc = 0 then some flags else o
  | .env _ h' (.close _) _, o => if h' = some h then none else o
  | _, o => o

/-- The flags a handle is open with; `none` if it is not. -/
def openedWith (h : EnvHandle) (log : List Entry) : Option Int :=
  log.foldl (fun o e => e.reopen h o) none

/-- Opening an open environment fails with `EINVAL`; everything else may return anything. -/
def System.answers (s : System) (h : Option EnvHandle) (rc : Int) : EnvMethod → Bool
  | .open .. => (h.bind fun h => openedWith h s.log).isNone || rc == einval
  | _ => true

/-! ## Updates -/

namespace System

def addEnv (s : System) : System :=
  { s with
    envs := s.envs ++ [{ _env := some s.envs.length }]
    roots := .env s.envs.length :: s.roots
    log := s.log ++ [.newDbEnv s.envs.length] }

/-- `Db::New`: the wrapper exists also where `db_create` fails, but nobody gets to see it. -/
def addDb (s : System) (i : Nat) (env : DbEnv) (rc : Int) : System :=
  { s with
    dbs := s.dbs ++
      [{ fields := Db.new env (if rc = 0 then some s.dbs.length else none), createdOn := i }]
    roots := if rc = 0 then .db s.dbs.length :: s.roots else s.roots
    log := s.log ++ [.newDb s.dbs.length i] }

/-- A method of the handle is entered, and the fields become `env'`. -/
def callEnv (s : System) (i : Nat) (env env' : DbEnv) (m : EnvMethod) (rc : Int) : System :=
  { s with envs := s.envs.set i env', log := s.log ++ [.env i env._env m rc] }

def setDb (s : System) (j : Nat) (db : WrappedDb) (fields : Db) : System :=
  { s with dbs := s.dbs.set j { db with fields := fields } }

def callDb (s : System) (j : Nat) (db : WrappedDb) (fields : Db) (m : DbMethod) (rc : Int) : System :=
  { s.setDb j db fields with log := s.log ++ [.db j db.fields._db db.fields._env m rc] }

/-- From `new EIO*Baton` to `ev_ref`. -/
def accept (s : System) (job : Job) (cb : Nat) (captured : List ObjRef) : System :=
  { s with
    loopRefs := s.loopRefs + 1
    refs := Function.update s.refs job.object (s.refs job.object + 1)
    requests := s.requests ++ [{ job := job, cb := cb, captured := captured }]
    log := s.log ++ [.accept s.requests.length] }

/-- A worker of the Db is between two calls. -/
def busy (s : System) (j : Nat) : Bool :=
  s.requests.any fun req => req.job.object == .db j && req.stage.isBusy

end System

/-! ## The script -/

inductive EnvCall where
  | sync : EnvSync → (args : List JsValue) → (rc : Int) → EnvCall
  | txnCheckpoint : (args : List JsValue) → (captured : List ObjRef) → EnvCall

inductive DbCall where
  | sync : DbSync → (args : List JsValue) → (rc : Int) → DbCall
  | associateSync : (args : List JsValue) → Resolved → DbCall
  | direct : SyncMethod → (args : List JsValue) → Oracle (Call Bytes) Reply → DbCall
  | request : AsyncMethod → (args : List JsValue) → (captured : List ObjRef) → DbCall

inductive Script where
  | newDbEnv : (rc : Int) → Script
  | newDb : (args : List JsValue) → (rc : Int) → Script
  | env : (i : Nat) → EnvCall → Script
  | db : (j : Nat) → DbCall → Script

/-- What a call comes to in JavaScript. -/
inductive Returned where
  | value : Delivery → Returned
  | undefined : Returned
  | this : ObjRef → Returned
  | threw : Message → Returned
  deriving DecidableEq, Repr

def JsValue.wrappers : JsValue → List ObjRef
  | .wrapper r => [r]
  | _ => []

/-- The wrappers a call mentions, all of which the script has to hold. -/
def Script.mentions : Script → List ObjRef
  | newDbEnv _ => []
  | newDb args _ => args.flatMap JsValue.wrappers
  | env i (.sync _ args _) => .env i :: args.flatMap JsValue.wrappers
  | env i (.txnCheckpoint args captured) => .env i :: (args.flatMap JsValue.wrappers ++ captured)
  | db j (.sync _ args _) => .db j :: args.flatMap JsValue.wrappers
  | db j (.associateSync args _) => .db j :: args.flatMap JsValue.wrappers
  | db j (.direct _ args _) => .db j :: args.flatMap JsValue.wrappers
  | db j (.request _ args captured) => .db j :: (args.flatMap JsValue.wrappers ++ captured)

namespace System

/-- `RET_EXC` where an argument is bad, and otherwise the rest of the method. -/
def checked {α : Type} (s : System) (parsed : Except String α)
    (rest : α → Option (Returned × System)) : Option (Returned × System) :=
  match parsed with
  | .error msg => some (.threw (.text msg), s)
  | .ok a => rest a

def jsEnv (s : System) (i : Nat) : EnvCall → Option (Returned × System)
  | .sync m args rc => do
    let env ← s.envs[i]?
    s.checked (m.run env args) fun (env', method) =>
      if !s.answers env._env rc method then none
      else if method.entered rc then
        some (.value (dbRes (method.result rc)), s.callEnv i env env' method rc)
      else some (.value (dbRes rc), s)
  | .txnCheckpoint args captured =>
    s.checked (txnCheckpointArgs args) fun (baton, cb) =>
      some (.undefined, s.accept (.checkpoint i baton) cb captured)

def jsDb (s : System) (j : Nat) : DbCall → Option (Returned × System)
  | .sync m args rc => do
    let db ← s.dbs[j]?
    s.checked (m.run db.fields args) fun (fields, method) =>
      if fields ≠ db.fields ∧ s.busy j then none
      else match method with
        | some method => some (.value (dbRes rc), s.callDb j db fields method rc)
        | none => some (.value (dbRes (-1)), s.setDb j db fields)
  | .associateSync args linked => do
    let db ← s.dbs[j]?
    s.checked (associateArgs args) fun (sdb, flags) =>
      match sdb with
      | .wrapper (.db k) => do
        let second ← s.dbs[k]?
        match linked with
        | .missing dlerror => some (.value { code := -1, message := .text dlerror }, s)
        | .found rc => some (.value (dbRes rc),
            s.callDb j db db.fields (.associate second.fields._db flags) rc)
      | _ => none
  | .direct m args o => do
    let db ← s.dbs[j]?
    s.checked (m.parse args) fun c =>
      let (t, d) := exec o [] (c.deliver db.fields)
      some (.value d, { s with log := s.log ++ [.direct j t d] })
  | .request m args captured =>
    s.checked (m.parse args) fun (r, cb) =>
      some (.undefined, s.accept (.db j r r.baton) cb captured)

/-- One call of the script. An object that is no wrapper of the class it is taken for is not
looked at by the source, and no step here. -/
def js (s : System) : Script → Option (Returned × System)
  | .newDbEnv rc =>
    if rc ≠ 0 then some (.threw (.dbStrerror rc), s)
    else some (.this (.env s.envs.length), s.addEnv)
  | .newDb args rc =>
    s.checked (reqObjArg 0 args) fun envObj =>
      match envObj with
      | .wrapper (.env i) => do
        let env ← s.envs[i]?
        some (if rc = 0 then .this (.db s.dbs.length) else .threw (.dbStrerror rc), s.addDb i env rc)
      | _ => none
  | .env i c => s.jsEnv i c
  | .db j c => s.jsDb j c

/-! ## Requests and the collector -/

/-- What the worker of a job does, on the fields its object has now. -/
def program (s : System) : Job → Option (BdbProg Bytes Job)
  | .db j r baton => s.dbs[j]?.map fun db => Job.workDb j r baton db.fields
  | .checkpoint i baton => s.envs[i]?.map (Job.workEnv i baton)

def setReq (s : System) (k : Nat) (req : EioReq) (entry : Entry) : System :=
  { s with requests := s.requests.set k req, log := s.log ++ [entry] }

/-- A worker thread takes the request from the queue. -/
def start (s : System) (k : Nat) : Option System := do
  let req ← s.requests[k]?
  match req.stage with
  | .queued => do
    let p ← s.program req.job
    some (s.setReq k { req with stage := .working p } (.start k))
  | _ => none

/-- A worker makes its next call, and Berkeley DB answers `r`. -/
def bdb (s : System) (k : Nat) (c : Call Bytes) (r : Reply c) : Option System := do
  let req ← s.requests[k]?
  match req.stage with
  | .working (.call c' next) =>
    if h : c = c' then
      some (s.setReq k
        { req with stage := .working (next (h ▸ r)), calls := req.calls ++ [⟨c, r⟩] }
        (.call k ⟨c, r⟩))
    else none
  | _ => none

/-- The completion of a request, up to the call of its callback. -/
def begin (s : System) (k : Nat) : Option System := do
  let req ← s.requests[k]?
  match req.stage, s.current with
  | .working (.ret job), none =>
    some { s.setReq k { req with stage := .calling } (.callback k job.after) with
      loopRefs := s.loopRefs - 1
      current := some k
      roots := req.captured ++ s.roots }
  | _, _ => none

/-- The completion from the return of the callback on. A callback that throws takes the way
through `FatalException`, which the process is taken to survive. -/
def finish (s : System) (_threw : Bool) : Option System := do
  let k ← s.current
  let req ← s.requests[k]?
  some { s.setReq k { req with stage := .completed } (.delete k) with
    refs := Function.update s.refs req.job.object (s.refs req.job.object - 1)
    current := none }

/-- A wrapper may be collected when nothing leads to it: neither the script, nor the closure of
a callback whose persistent handle still exists, nor the wrapper's own reference count. -/
def Collectable (s : System) (r : ObjRef) : Prop :=
  r ∉ s.finalized ∧ r ∉ s.roots ∧ s.refs r = 0 ∧
    ∀ req ∈ s.requests, req.stage.isCompleted = false → r ∉ req.captured

instance (s : System) (r : ObjRef) : Decidable (s.Collectable r) :=
  inferInstanceAs (Decidable (_ ∧ _ ∧ _ ∧ _))

def markFinalized (s : System) (r : ObjRef) : System :=
  { s with finalized := r :: s.finalized, log := s.log ++ [.finalize r] }

/-- The destructors, in which `rc` is dropped. -/
def finalize (s : System) (r : ObjRef) (rc : Int) : Option System :=
  if s.Collectable r then
    match r with
    | .env i => do
      let env ← s.envs[i]?
      if env._env ≠ none then
        some ((s.markFinalized r).callEnv i env { env with _env := none } (.close 0) rc)
      else some (s.markFinalized r)
    | .db j => do
      let db ← s.dbs[j]?
      if db.fields._db ≠ none then
        some ((s.markFinalized r).callDb j db { db.fields with _db := none } (.close 0) rc)
      else some (s.markFinalized r)
  else none

end System

/-! ## Steps -/

inductive SysEvent where
  | js : Script → SysEvent
  | drop : (r : ObjRef) → SysEvent
  | start : (k : Nat) → SysEvent
  | bdb : (k : Nat) → (c : Call Bytes) → Reply c → SysEvent
  | begin : (k : Nat) → SysEvent
  | finish : (threw : Bool) → SysEvent
  | finalize : (r : ObjRef) → (rc : Int) → SysEvent

def System.step (s : System) : SysEvent → Option System
  | .js c => if ∀ r ∈ c.mentions, r ∈ s.roots then (s.js c).map Prod.snd else none
  | .drop r => some { s with roots := s.roots.filter (· ≠ r) }
  | .start k => s.start k
  | .bdb k c r => s.bdb k c r
  | .begin k => s.begin k
  | .finish threw => s.finish threw
  | .finalize r rc => s.finalize r rc

/-- A job as an entry point submits it. -/
def Job.Fresh : Job → Prop
  | .db _ r baton => baton = r.baton
  | .checkpoint _ baton => baton.status = 0

/-- What a step comes to, with what it needed. -/
inductive System.Step (s : System) : SysEvent → System → Prop where
  | unchanged {c : Script} : Step s (.js c) s
  | newDbEnv : Step s (.js (.newDbEnv 0)) s.addEnv
  | newDb {args : List JsValue} {i : Nat} {env : DbEnv} {rc : Int} : .env i ∈ s.roots →
      s.envs[i]? = some env → Step s (.js (.newDb args rc)) (s.addDb i env rc)
  | envSync {i : Nat} {m : EnvSync} {args : List JsValue} {rc : Int} {env env' : DbEnv}
      {method : EnvMethod} : .env i ∈ s.roots → s.envs[i]? = some env →
      m.run env args = .ok (env', method) → s.answers env._env rc method = true →
      method.entered rc = true →
      Step s (.js (.env i (.sync m args rc))) (s.callEnv i env env' method rc)
  | dbSync {j : Nat} {m : DbSync} {args : List JsValue} {rc : Int} {db : WrappedDb} {fields : Db}
      {method : DbMethod} : .db j ∈ s.roots → s.dbs[j]? = some db →
      m.run db.fields args = .ok (fields, some method) → (fields ≠ db.fields → s.busy j = false) →
      Step s (.js (.db j (.sync m args rc))) (s.callDb j db fields method rc)
  | dbUncalled {j : Nat} {m : DbSync} {args : List JsValue} {rc : Int} {db : WrappedDb} {fields : Db} :
      .db j ∈ s.roots → s.dbs[j]? = some db → m.run db.fields args = .ok (fields, none) →
      Step s (.js (.db j (.sync m args rc))) (s.setDb j db fields)
  | associate {j : Nat} {args : List JsValue} {rc flags : Int} {db : WrappedDb}
      {secondary : Option DbHandle} : .db j ∈ s.roots → s.dbs[j]? = some db →
      Step s (.js (.db j (.associateSync args (.found rc))))
        (s.callDb j db db.fields (.associate secondary flags) rc)
  | direct {j : Nat} {m : SyncMethod} {args : List JsValue} {o : Oracle (Call Bytes) Reply}
      {db : WrappedDb} {c : DirectCall Bytes} {t : BdbTrace Bytes} {d : Delivery} :
      .db j ∈ s.roots → s.dbs[j]? = some db → m.parse args = .ok c →
      exec o [] (c.deliver db.fields) = (t, d) →
      Step s (.js (.db j (.direct m args o))) { s with log := s.log ++ [.direct j t d] }
  | accept {c : Script} {job : Job} {cb : Nat} {captured : List ObjRef} : job.object ∈ s.roots →
      (∀ r ∈ captured, r ∈ s.roots) → job.Fresh → Step s (.js c) (s.accept job cb captured)
  | drop {r : ObjRef} : Step s (.drop r) { s with roots := s.roots.filter (· ≠ r) }
  | start {k : Nat} {req : EioReq} {p : BdbProg Bytes Job} : s.requests[k]? = some req →
      req.stage = .queued → s.program req.job = some p →
      Step s (.start k) (s.setReq k { req with stage := .working p } (.start k))
  | bdb {k : Nat} {req : EioReq} {c : Call Bytes} {r : Reply c} {next : Reply c → BdbProg Bytes Job} :
      s.requests[k]? = some req → req.stage = .working (.call c next) →
      Step s (.bdb k c r)
        (s.setReq k { req with stage := .working (next r), calls := req.calls ++ [⟨c, r⟩] }
          (.call k ⟨c, r⟩))
  | begin {k : Nat} {req : EioReq} {job : Job} : s.requests[k]? = some req →
      req.stage = .working (.ret job) → s.current = none →
      Step s (.begin k)
        { s.setReq k { req with stage := .calling } (.callback k job.after) with
          loopRefs := s.loopRefs - 1, current := some k, roots := req.captured ++ s.roots }
  | finish {threw : Bool} {k : Nat} {req : EioReq} : s.current = some k →
      s.requests[k]? = some req →
      Step s (.finish threw)
        { s.setReq k { req with stage := .completed } (.delete k) with
          refs := Function.update s.refs req.job.object (s.refs req.job.object - 1)
          current := none }
  | finalizedEnv {i : Nat} {rc : Int} {env : DbEnv} : s.Collectable (.env i) →
      s.envs[i]? = some env → env._env = none →
      Step s (.finalize (.env i) rc) (s.markFinalized (.env i))
  | finalizedDb {j : Nat} {rc : Int} {db : WrappedDb} : s.Collectable (.db j) →
      s.dbs[j]? = some db → db.fields._db = none →
      Step s (.finalize (.db j) rc) (s.markFinalized (.db j))
  | closedEnv {i : Nat} {rc : Int} {env : DbEnv} : s.Collectable (.env i) →
      s.envs[i]? = some env → env._env ≠ none →
      Step s (.finalize (.env i) rc)
        ((s.markFinalized (.env i)).callEnv i env { env with _env := none } (.close 0) rc)
  | closedDb {j : Nat} {rc : Int} {db : WrappedDb} : s.Collectable (.db j) →
      s.dbs[j]? = some db → db.fields._db ≠ none →
      Step s (.finalize (.db j) rc)
        ((s.markFinalized (.db j)).callDb j db { db.fields with _db := none } (.close 0) rc)

section Inversion

variable {s s' : System} {o : Returned}

theorem checked_cases {α : Type} {parsed : Except String α}
    {rest : α → Option (Returned × System)} (h : s.checked parsed rest = some (o, s')) :
    (∃ msg, parsed = .error msg ∧ o = .threw (.text msg) ∧ s' = s) ∨
      ∃ a, parsed = .ok a ∧ rest a = some (o, s') := by
  cases parsed with
  | error msg =>
    simp only [System.checked, Option.some.injEq, Prod.mk.injEq] at h
    exact .inl ⟨msg, rfl, h.1.symm, h.2.symm⟩
  | ok a => exact .inr ⟨a, rfl, h⟩

theorem checkpoint_fresh {args : List JsValue} {i cb : Nat} {baton : EIOCheckpointBaton}
    (h : txnCheckpointArgs args = .ok (baton, cb)) : (Job.checkpoint i baton).Fresh := by
  obtain ⟨kbytes, -, h⟩ := bind_ok h
  obtain ⟨minutes, -, h⟩ := bind_ok h
  obtain ⟨flags, -, h⟩ := bind_ok h
  obtain ⟨cb, -, h⟩ := bind_ok h
  cases h
  rfl

theorem reqObjArg_mem {i : Nat} {args : List JsValue} {v : JsValue}
    (h : reqObjArg i args = .ok v) : v ∈ args := by
  obtain ⟨-, -, h⟩ := bind_ok h
  match hi : args[i]?, h with
  | some (.function f), h => cases h; exact List.mem_of_getElem? hi
  | some (.buffer b), h => cases h; exact List.mem_of_getElem? hi
  | some (.wrapper r), h => cases h; exact List.mem_of_getElem? hi
  | some .object, h => cases h; exact List.mem_of_getElem? hi

theorem jsEnv_step {i : Nat} {c : EnvCall} (hm : ∀ r ∈ (Script.env i c).mentions, r ∈ s.roots)
    (h : s.jsEnv i c = some (o, s')) : s.Step (.js (.env i c)) s' := by
  cases c with
  | sync m args rc =>
    obtain ⟨env, henv, h⟩ := Option.bind_eq_some_iff.mp h
    rcases checked_cases h with ⟨_, _, _, rfl⟩ | ⟨⟨env', method⟩, hrun, h⟩
    · exact .unchanged
    · by_cases ha : s.answers env._env rc method = true
      · by_cases he : method.entered rc = true
        · simp only [ha, he, Bool.not_true, Bool.false_eq_true, ↓reduceIte, Option.some.injEq,
            Prod.mk.injEq] at h
          rw [← h.2]
          exact .envSync (hm _ List.mem_cons_self) henv hrun ha he
        · simp only [ha, he, Bool.not_true, Bool.false_eq_true, ↓reduceIte, Option.some.injEq,
            Prod.mk.injEq] at h
          rw [← h.2]
          exact .unchanged
      · simp [ha] at h
  | txnCheckpoint args captured =>
    rcases checked_cases h with ⟨_, _, _, rfl⟩ | ⟨⟨baton, cb⟩, hparse, h⟩
    · exact .unchanged
    · simp only [Option.some.injEq, Prod.mk.injEq] at h
      rw [← h.2]
      refine .accept (hm _ List.mem_cons_self) (fun r hr => hm r ?_) ?_
      · exact List.mem_cons_of_mem _ (List.mem_append_right _ hr)
      · exact checkpoint_fresh hparse

theorem jsDb_step {j : Nat} {c : DbCall} (hm : ∀ r ∈ (Script.db j c).mentions, r ∈ s.roots)
    (h : s.jsDb j c = some (o, s')) : s.Step (.js (.db j c)) s' := by
  cases c with
  | sync m args rc =>
    obtain ⟨db, hdb, h⟩ := Option.bind_eq_some_iff.mp h
    rcases checked_cases h with ⟨_, _, _, rfl⟩ | ⟨⟨fields, method⟩, hrun, h⟩
    · exact .unchanged
    · by_cases hb : fields ≠ db.fields ∧ s.busy j = true
      · simp [hb] at h
      · have hrace : fields ≠ db.fields → s.busy j = false := fun hf => by
          simpa using fun hbusy => hb ⟨hf, hbusy⟩
        simp only [hb, ↓reduceIte] at h
        cases method with
        | none =>
          simp only [Option.some.injEq, Prod.mk.injEq] at h
          rw [← h.2]
          exact .dbUncalled (hm _ List.mem_cons_self) hdb hrun
        | some method =>
          simp only [Option.some.injEq, Prod.mk.injEq] at h
          rw [← h.2]
          exact .dbSync (hm _ List.mem_cons_self) hdb hrun hrace
  | associateSync args linked =>
    obtain ⟨db, hdb, h⟩ := Option.bind_eq_some_iff.mp h
    rcases checked_cases h with ⟨_, _, _, rfl⟩ | ⟨⟨sdb, flags⟩, -, h⟩
    · exact .unchanged
    · match sdb, h with
      | .wrapper (.db k), h =>
        obtain ⟨second, -, h⟩ := Option.bind_eq_some_iff.mp h
        cases linked with
        | missing dlerror =>
          simp only [Option.some.injEq, Prod.mk.injEq] at h
          rw [← h.2]
          exact .unchanged
        | found rc =>
          simp only [Option.some.injEq, Prod.mk.injEq] at h
          rw [← h.2]
          exact .associate (hm _ List.mem_cons_self) hdb
  | direct m args o =>
    obtain ⟨db, hdb, h⟩ := Option.bind_eq_some_iff.mp h
    rcases checked_cases h with ⟨_, _, _, rfl⟩ | ⟨c, hparse, h⟩
    · exact .unchanged
    · simp only [Option.some.injEq, Prod.mk.injEq] at h
      rw [← h.2]
      exact .direct (hm _ List.mem_cons_self) hdb hparse rfl
  | request m args captured =>
    rcases checked_cases h with ⟨_, _, _, rfl⟩ | ⟨⟨r, cb⟩, -, h⟩
    · exact .unchanged
    · simp only [Option.some.injEq, Prod.mk.injEq] at h
      rw [← h.2]
      refine .accept (hm _ List.mem_cons_self) (fun r hr => hm r ?_) rfl
      exact List.mem_cons_of_mem _ (List.mem_append_right _ hr)

theorem js_step {c : Script} (hm : ∀ r ∈ c.mentions, r ∈ s.roots) (h : s.js c = some (o, s')) :
    s.Step (.js c) s' := by
  cases c with
  | newDbEnv rc =>
    by_cases hrc : rc = 0
    · subst hrc
      simp only [System.js, ne_eq, not_true_eq_false, ↓reduceIte, Option.some.injEq,
        Prod.mk.injEq] at h
      rw [← h.2]
      exact .newDbEnv
    · simp only [System.js, ne_eq, hrc, not_false_eq_true, ↓reduceIte, Option.some.injEq,
        Prod.mk.injEq] at h
      rw [← h.2]
      exact .unchanged
  | newDb args rc =>
    rcases checked_cases h with ⟨_, _, _, rfl⟩ | ⟨envObj, hobj, h⟩
    · exact .unchanged
    · match envObj, h with
      | .wrapper (.env i), h =>
        obtain ⟨env, henv, h⟩ := Option.bind_eq_some_iff.mp h
        simp only [Option.some.injEq, Prod.mk.injEq] at h
        rw [← h.2]
        refine .newDb (hm _ ?_) henv
        exact List.mem_flatMap.mpr ⟨_, reqObjArg_mem hobj, List.mem_singleton_self _⟩
  | env i c => exact jsEnv_step hm h
  | db j c => exact jsDb_step hm h

theorem finalize_step {r : ObjRef} {rc : Int} (h : s.finalize r rc = some s') :
    s.Step (.finalize r rc) s' := by
  by_cases hc : s.Collectable r
  · simp only [System.finalize, hc, ↓reduceIte] at h
    match r, h with
    | .env i, h =>
      obtain ⟨env, henv, h⟩ := Option.bind_eq_some_iff.mp h
      by_cases he : env._env = none
      · simp only [he, ne_eq, not_true_eq_false, ↓reduceIte, Option.some.injEq] at h
        rw [← h]
        exact .finalizedEnv hc henv he
      · simp only [ne_eq, he, not_false_eq_true, ↓reduceIte, Option.some.injEq] at h
        rw [← h]
        exact .closedEnv hc henv he
    | .db j, h =>
      obtain ⟨db, hdb, h⟩ := Option.bind_eq_some_iff.mp h
      by_cases he : db.fields._db = none
      · simp only [he, ne_eq, not_true_eq_false, ↓reduceIte, Option.some.injEq] at h
        rw [← h]
        exact .finalizedDb hc hdb he
      · simp only [ne_eq, he, not_false_eq_true, ↓reduceIte, Option.some.injEq] at h
        rw [← h]
        exact .closedDb hc hdb he
  · simp [System.finalize, hc] at h

theorem step_js {c : Script} (hs : s.step (.js c) = some s') :
    (∀ r ∈ c.mentions, r ∈ s.roots) ∧ ∃ o, s.js c = some (o, s') := by
  by_cases hm : ∀ r ∈ c.mentions, r ∈ s.roots
  · simp only [System.step] at hs
    rw [if_pos hm] at hs
    obtain ⟨⟨o, s''⟩, hjs, he⟩ := Option.map_eq_some_iff.mp hs
    cases he
    exact ⟨hm, o, hjs⟩
  · simp only [System.step] at hs
    rw [if_neg hm] at hs
    cases hs

/-- Every step is one of `System.Step`. -/
theorem step_cases {e : SysEvent} (h : s.step e = some s') : s.Step e s' := by
  cases e with
  | js c =>
    by_cases hm : ∀ r ∈ c.mentions, r ∈ s.roots
    · simp only [System.step] at h
      rw [if_pos hm] at h
      obtain ⟨⟨o, s''⟩, hjs, hs⟩ := Option.map_eq_some_iff.mp h
      cases hs
      exact js_step hm hjs
    · simp only [System.step] at h
      rw [if_neg hm] at h
      cases h
  | drop r => cases h; exact .drop
  | start k =>
    obtain ⟨req, hreq, h⟩ := Option.bind_eq_some_iff.mp h
    cases hs : req.stage with
    | queued =>
      simp only [hs] at h
      obtain ⟨p, hp, h⟩ := Option.bind_eq_some_iff.mp h
      cases h
      exact .start hreq hs hp
    | _ => simp [hs] at h
  | bdb k c r =>
    obtain ⟨req, hreq, h⟩ := Option.bind_eq_some_iff.mp h
    cases hs : req.stage with
    | working p =>
      cases p with
      | call c' next =>
        by_cases hc : c = c'
        · subst hc
          simp only [hs, ↓reduceDIte, Option.some.injEq] at h
          rw [← h]
          exact .bdb hreq hs
        · simp [hs, hc] at h
      | ret job => simp [hs] at h
    | _ => simp [hs] at h
  | begin k =>
    obtain ⟨req, hreq, h⟩ := Option.bind_eq_some_iff.mp h
    cases hs : req.stage with
    | working p =>
      cases p with
      | ret job =>
        cases hcur : s.current with
        | none =>
          simp only [hs, hcur, Option.some.injEq] at h
          rw [← h]
          exact .begin hreq hs hcur
        | some k' => simp [hs, hcur] at h
      | call c next => simp [hs] at h
    | _ => simp [hs] at h
  | finish threw =>
    obtain ⟨k, hcur, h⟩ := Option.bind_eq_some_iff.mp h
    obtain ⟨req, hreq, h⟩ := Option.bind_eq_some_iff.mp h
    cases h
    exact .finish hcur hreq
  | finalize r rc => exact finalize_step h

end Inversion

end NodeBdb
