import NodeBdb.Options
import NodeBdb.System

/-!
# The methods of the module

What a program calls is the JavaScript around the bindings: it asks for the options it
cannot do without, in an order of its own, puts defaults in for the others, and leaves the
types to the native method behind it. Here every call is put together with its native method.
-/

namespace NodeBdb

open Interaction

/-! ## The wrappers -/

/-- The options of the operations on keys. -/
structure KeyOptions where
  key : JsValue := .undefined
  val : JsValue := .undefined
  oldVal : JsValue := .undefined
  flags : JsValue := .undefined
  deriving DecidableEq, Repr

/-- An option that is asked for, by its name. -/
structure Needed where
  name : String
  field : KeyOptions → JsValue

def Needed.check (n : Needed) (options : KeyOptions) : Except String JsValue :=
  if (n.field options).truthy then .ok (n.field options) else .error s!"options.{n.name} required"

def Needed.key : Needed := ⟨"key", KeyOptions.key⟩
def Needed.val : Needed := ⟨"val", KeyOptions.val⟩
def Needed.oldVal : Needed := ⟨"oldVal", KeyOptions.oldVal⟩

/-- The wrappers of the operations on keys: the options needed, then the flags and what else there
is. -/
def keyArgs (needed : List Needed) (options : Option KeyOptions) (rest : List JsValue) :
    Except String (List JsValue) :=
  match options with
  | none => .error "options required"
  | some options => do
    let args ← needed.mapM fun n => n.check options
    return args ++ options.flags.orDefault (.number 0) :: rest

def putArgs (options : Option KeyOptions) (callback : JsValue) : Except String (List JsValue) :=
  keyArgs [.key, .val] options [callback]

def putIfArgs (options : Option KeyOptions) (callback : JsValue) : Except String (List JsValue) :=
  keyArgs [.key, .val, .oldVal] options [callback]

def putSyncArgs (options : Option KeyOptions) : Except String (List JsValue) :=
  keyArgs [.key, .val] options []

def getArgs (options : Option KeyOptions) (callback : JsValue) : Except String (List JsValue) :=
  keyArgs [.key] options [callback]

def getSyncArgs (options : Option KeyOptions) : Except String (List JsValue) :=
  keyArgs [.key] options []

def delArgs (options : Option KeyOptions) (callback : JsValue) : Except String (List JsValue) :=
  keyArgs [.key] options [callback]

def delSyncArgs (options : Option KeyOptions) : Except String (List JsValue) :=
  keyArgs [.key] options []

/-- Of the wrappers of the walks only `cursorGet` takes a callback, or a callback for the options. -/
def cursorGetSyncArgs (options : CursorOptions) : List JsValue :=
  [options.key.orDefault (.buffer []), options.limit.orDefault (.number 100),
    options.initFlag.orDefault (.number dbSet), options.flags.orDefault (.number dbNext)]

def closeSyncArgs (flags : JsValue) : List JsValue := [flags.orDefault (.number 0)]

def dbForcesync : Int := 1
def dbForce : Int := 1
def dbInitLock : Nat := 0x80
def dbInitLog : Nat := 0x100
def dbInitMpool : Nat := 0x200
def dbRecover : Nat := 0x2

structure EnvOptions where
  home : JsValue := .undefined
  flags : JsValue := .undefined
  mode : JsValue := .undefined
  deriving DecidableEq, Repr

def envOpenFlags : Nat :=
  dbCreate ||| dbInitLock ||| dbInitLog ||| dbInitMpool ||| dbInitTxn ||| dbRecover ||| dbThread

/-- What `DbEnv.prototype.openSync` passes to `_openSync`. -/
def envOpenSyncArgs : Option EnvOptions → Except String (List JsValue)
  | none => .error "options required"
  | some options =>
    if options.home.truthy then
      .ok [options.home, options.flags.orDefault (.number envOpenFlags),
        options.mode.orDefault (.number 0)]
    else .error "options.home required"

def envCloseSyncArgs (flags : JsValue) : List JsValue := [flags.orDefault (.number dbForcesync)]

/-- What `DbEnv.prototype.txnCheckpoint` passes on: it is forced where no threshold is given. -/
def txnCheckpointWrapper (kbyte min callback : JsValue) : List JsValue :=
  let kbyte := kbyte.orDefault (.number 0)
  let min := min.orDefault (.number 0)
  [kbyte, min, .number (if kbyte.truthy || min.truthy then 0 else dbForce), callback]

/-! ## The calls -/

/-- The calls that make a request of a Db. -/
inductive PublicRequest where
  | get : Option KeyOptions → PublicRequest
  | put : Option KeyOptions → PublicRequest
  | putIf : Option KeyOptions → PublicRequest
  | del : Option KeyOptions → PublicRequest
  | cursorGet : CursorArg → PublicRequest
  deriving DecidableEq, Repr

def PublicRequest.method : PublicRequest → AsyncMethod
  | get _ => .get
  | put _ => .put
  | putIf _ => .putIf
  | del _ => .del
  | cursorGet _ => .cursorGet

def PublicRequest.args (c : PublicRequest) (callback : JsValue) : Except String (List JsValue) :=
  match c with
  | get options => getArgs options callback
  | put options => putArgs options callback
  | putIf options => putIfArgs options callback
  | del options => delArgs options callback
  | cursorGet options => .ok (cursorGetArgs options callback)

/-- The calls that work on a Db at once. -/
inductive PublicDirect where
  | getSync : Option KeyOptions → PublicDirect
  | putSync : Option KeyOptions → PublicDirect
  | delSync : Option KeyOptions → PublicDirect
  | cursorGetSync : CursorOptions → PublicDirect
  deriving DecidableEq, Repr

def PublicDirect.method : PublicDirect → SyncMethod
  | getSync _ => .getS
  | putSync _ => .putS
  | delSync _ => .delS
  | cursorGetSync _ => .cursorGetS

def PublicDirect.args : PublicDirect → Except String (List JsValue)
  | getSync options => getSyncArgs options
  | putSync options => putSyncArgs options
  | delSync options => delSyncArgs options
  | cursorGetSync options => .ok (cursorGetSyncArgs options)

/-- The calls that open and close a Db. -/
inductive PublicDb where
  | openSync : Option OpenOptions → PublicDb
  | closeSync : (flags : JsValue) → PublicDb
  deriving DecidableEq, Repr

def PublicDb.method : PublicDb → DbSync
  | openSync _ => .openS
  | closeSync _ => .closeS

def PublicDb.args : PublicDb → Except String (List JsValue)
  | openSync options => openSyncArgs options
  | closeSync flags => .ok (closeSyncArgs flags)

/-- The calls that open and close an environment. -/
inductive PublicEnv where
  | openSync : Option EnvOptions → PublicEnv
  | closeSync : (flags : JsValue) → PublicEnv
  deriving DecidableEq, Repr

def PublicEnv.method : PublicEnv → EnvSync
  | openSync _ => .openS
  | closeSync _ => .closeS

def PublicEnv.args : PublicEnv → Except String (List JsValue)
  | openSync options => envOpenSyncArgs options
  | closeSync flags => .ok (envCloseSyncArgs flags)

namespace System

def request (s : System) (j : Nat) (c : PublicRequest) (callback : JsValue)
    (captured : List ObjRef) : Option (Returned × System) :=
  s.checked (c.args callback) fun args => s.jsDb j (.request c.method args captured)

def direct (s : System) (j : Nat) (c : PublicDirect) (o : Oracle (Call Bytes) Reply) :
    Option (Returned × System) :=
  s.checked c.args fun args => s.jsDb j (.direct c.method args o)

def openClose (s : System) (j : Nat) (c : PublicDb) (rc : Int) : Option (Returned × System) :=
  s.checked c.args fun args => s.jsDb j (.sync c.method args rc)

def openCloseEnv (s : System) (i : Nat) (c : PublicEnv) (rc : Int) : Option (Returned × System) :=
  s.checked c.args fun args => s.jsEnv i (.sync c.method args rc)

def checkpoint (s : System) (i : Nat) (kbyte min callback : JsValue) (captured : List ObjRef) :
    Option (Returned × System) :=
  s.jsEnv i (.txnCheckpoint (txnCheckpointWrapper kbyte min callback) captured)

end System

/-! ## What a call is checked for -/

def JsValue.isBuffer : JsValue → Bool
  | buffer _ => true
  | _ => false

def JsValue.isNumber : JsValue → Bool
  | number _ | fraction _ => true
  | _ => false

def JsValue.isString : JsValue → Bool
  | string _ => true
  | _ => false

def JsValue.isFunction : JsValue → Bool
  | function _ => true
  | _ => false

def JsValue.bytes : JsValue → Bytes
  | buffer bytes => bytes
  | _ => []

def JsValue.int : JsValue → Int
  | number n | fraction n => toInt n
  | _ => 0

def JsValue.text : JsValue → String
  | string s => s
  | _ => ""

def JsValue.cb : JsValue → Nat
  | function f => f
  | _ => 0

/-- Something that has to hold, and what is thrown where it does not. -/
abbrev Check := Bool × String

/-- The checks one after the other. -/
def checkAll : List Check → Except String Unit
  | [] => .ok ()
  | (holds, msg) :: rest => if holds then checkAll rest else .error msg

def bufferCheck (i : Nat) (v : JsValue) : Check := (v.isBuffer, s!"argument {i} must be a buffer")
def intCheck (i : Nat) (v : JsValue) : Check := (v.isNumber, s!"argument {i} must be an integer")
def strCheck (i : Nat) (v : JsValue) : Check := (v.isString, s!"argument {i} must be a string")
def fnCheck (i : Nat) (v : JsValue) : Check := (v.isFunction, s!"argument {i} must be a function")

theorem check_bind {α β : Type} (holds : Bool) (msg : String) (x : Except String α)
    (f : α → Except String β) :
    ((if holds then x else .error msg) >>= f) = if holds then x >>= f else .error msg := by
  cases holds <;> rfl

theorem checkAll_cons (check : Check) (rest : List Check) :
    checkAll (check :: rest) = if check.1 then checkAll rest else .error check.2 := rfl

theorem option_checked {α : Type} {holds : Bool} {msg : String} {rest : List Check}
    {g : Unit → Except String α} {x : Except String α} (h : x = checkAll rest >>= g) :
    (if holds then x else .error msg) = checkAll ((holds, msg) :: rest) >>= g := by
  rw [checkAll_cons, check_bind, h]

theorem checkAll_append (before after : List Check) :
    checkAll (before ++ after) = checkAll before >>= fun _ => checkAll after := by
  induction before with
  | nil => rfl
  | cons check before ih => rw [List.cons_append, checkAll_cons, checkAll_cons, check_bind, ih]

section Native

variable {α : Type} {args : List JsValue} {v : JsValue} {rest : List Check}
  {g : Unit → Except String α}

theorem reqArgs_ok {i : Nat} (h : args[i]? = some v) : reqArgs args = .ok () := by
  cases args with
  | nil => cases h
  | cons => rfl

/-- A required argument of the type is the first of the checks. -/
theorem buffer_checked (i : Nat) {f : Bytes → Except String α} (h : args[i]? = some v)
    (hf : f v.bytes = checkAll rest >>= g) :
    reqBufArg i args >>= f = checkAll (bufferCheck i v :: rest) >>= g := by
  rw [checkAll_cons, bufferCheck, check_bind, ← hf, reqBufArg, reqArgs_ok h, h]
  cases v <;> rfl

theorem int_checked (i : Nat) {f : Int → Except String α} (h : args[i]? = some v)
    (hf : f v.int = checkAll rest >>= g) :
    reqIntArg i args >>= f = checkAll (intCheck i v :: rest) >>= g := by
  rw [checkAll_cons, intCheck, check_bind, ← hf, reqIntArg, reqArgs_ok h, h]
  cases v <;> rfl

theorem str_checked (i : Nat) {f : String → Except String α} (h : args[i]? = some v)
    (hf : f v.text = checkAll rest >>= g) :
    reqStrArg i args >>= f = checkAll (strCheck i v :: rest) >>= g := by
  rw [checkAll_cons, strCheck, check_bind, ← hf, reqStrArg, reqArgs_ok h, h]
  cases v <;> rfl

theorem fn_checked (i : Nat) {f : Nat → Except String α} (h : args[i]? = some v)
    (hf : f v.cb = checkAll rest >>= g) :
    reqFnArg i args >>= f = checkAll (fnCheck i v :: rest) >>= g := by
  rw [checkAll_cons, fnCheck, check_bind, ← hf, reqFnArg, reqArgs_ok h, h]
  cases v <;> rfl

end Native

/-! ## The operations on keys -/

def Needed.of (n : Needed) (options : KeyOptions) : Check :=
  ((n.field options).truthy, s!"options.{n.name} required")

/-- The flags that are passed on. -/
def KeyOptions.flagsOr (o : KeyOptions) : JsValue := o.flags.orDefault (.number 0)

/-- What a call is checked for by its wrapper, and then by the native method. -/
def keyChecks (needed : List Needed) (options : Option KeyOptions) (typed : KeyOptions → List Check) :
    List Check :=
  match options with
  | none => [(false, "options required")]
  | some options => needed.map (fun n => n.of options) ++ typed options

theorem mapM_needed (needed : List Needed) (o : KeyOptions) :
    (needed.mapM fun n => n.check o) =
      checkAll (needed.map fun n => n.of o) >>= fun _ => .ok (needed.map fun n => n.field o) := by
  induction needed with
  | nil => rfl
  | cons n needed ih =>
    rw [List.mapM_cons, ih, List.map_cons, List.map_cons, Needed.check, Needed.of, checkAll_cons,
      check_bind, check_bind]
    cases (n.field o).truthy with
    | false => rfl
    | true =>
      rw [if_pos rfl, if_pos rfl]
      cases checkAll (needed.map fun n => n.of o) <;> rfl

/-- A call on a key comes to its native method where no option is missing. -/
theorem keyArgs_checked {α : Type} (needed : List Needed) (options : Option KeyOptions)
    (rest : List JsValue) (parse : List JsValue → Except String α) (typed : KeyOptions → List Check)
    (g : Unit → Except String α)
    (hparse : ∀ o, options = some o →
      parse (needed.map (fun n => n.field o) ++ o.flagsOr :: rest) = checkAll (typed o) >>= g) :
    keyArgs needed options rest >>= parse = checkAll (keyChecks needed options typed) >>= g := by
  cases options with
  | none => rfl
  | some o =>
    rw [keyArgs, mapM_needed, bind_assoc, bind_assoc, keyChecks, checkAll_append, bind_assoc]
    apply congrArg
    funext _
    exact hparse o rfl

/-! ## The walks -/

/-- The callback is the first argument where that is a function. -/
def CursorArg.callbackOr : CursorArg → JsValue → JsValue
  | .function f, _ => .function f
  | _, callback => callback

/-- What a walk is checked for. -/
def cursorChecks (o : CursorOptions) (rest : List Check) : List Check :=
  bufferCheck 0 (o.key.orDefault (.buffer [])) :: intCheck 1 (o.limit.orDefault (.number 100)) ::
    intCheck 2 (o.initFlag.orDefault (.number dbSet)) ::
      intCheck 3 (o.flags.orDefault (.number dbNext)) :: rest

/-! ## The requests -/

def PublicRequest.checks (c : PublicRequest) (callback : JsValue) : List Check :=
  match c with
  | get o => keyChecks [.key] o fun o =>
    [bufferCheck 0 o.key, intCheck 1 o.flagsOr, fnCheck 2 callback]
  | put o => keyChecks [.key, .val] o fun o =>
    [bufferCheck 0 o.key, bufferCheck 1 o.val, intCheck 2 o.flagsOr, fnCheck 3 callback]
  | putIf o => keyChecks [.key, .val, .oldVal] o fun o =>
    [bufferCheck 0 o.key, bufferCheck 1 o.val, bufferCheck 2 o.oldVal, intCheck 3 o.flagsOr,
      fnCheck 4 callback]
  | del o => keyChecks [.key] o fun o =>
    [bufferCheck 0 o.key, intCheck 1 o.flagsOr, fnCheck 2 callback]
  | cursorGet o => cursorChecks o.fields [fnCheck 4 (o.callbackOr callback)]

/-- The request that the options stand for. -/
def PublicRequest.request : PublicRequest → Request Bytes
  | get o => let o := o.getD {}; .get (buffer o.key.bytes) o.flagsOr.int
  | put o => let o := o.getD {}; .put (buffer o.key.bytes) (buffer o.val.bytes) o.flagsOr.int
  | putIf o => let o := o.getD {}
    .putIf (buffer o.key.bytes) (buffer o.val.bytes) (buffer o.oldVal.bytes) o.flagsOr.int
  | del o => let o := o.getD {}; .del (buffer o.key.bytes) o.flagsOr.int
  | cursorGet o => let o := o.fields
    .cursorGet (buffer (o.key.orDefault (.buffer [])).bytes) (o.limit.orDefault (.number 100)).int
      (o.initFlag.orDefault (.number dbSet)).int (o.flags.orDefault (.number dbNext)).int

def PublicRequest.callback (c : PublicRequest) (callback : JsValue) : JsValue :=
  match c with
  | cursorGet o => o.callbackOr callback
  | _ => callback

/-- A call comes to the first of its checks that fails, or else to its request. -/
theorem request_checked (c : PublicRequest) (callback : JsValue) :
    c.args callback >>= c.method.parse =
      checkAll (c.checks callback) >>= fun _ => .ok (c.request, (c.callback callback).cb) := by
  cases c with
  | get o =>
    apply keyArgs_checked
    rintro o rfl
    apply buffer_checked 0 rfl
    apply int_checked 1 rfl
    exact fn_checked 2 rfl rfl
  | put o =>
    apply keyArgs_checked
    rintro o rfl
    apply buffer_checked 0 rfl
    apply buffer_checked 1 rfl
    apply int_checked 2 rfl
    exact fn_checked 3 rfl rfl
  | putIf o =>
    apply keyArgs_checked
    rintro o rfl
    apply buffer_checked 0 rfl
    apply buffer_checked 1 rfl
    apply buffer_checked 2 rfl
    apply int_checked 3 rfl
    exact fn_checked 4 rfl rfl
  | del o =>
    apply keyArgs_checked
    rintro o rfl
    apply buffer_checked 0 rfl
    apply int_checked 1 rfl
    exact fn_checked 2 rfl rfl
  | cursorGet o =>
    apply buffer_checked 0 rfl
    apply int_checked 1 rfl
    apply int_checked 2 rfl
    apply int_checked 3 rfl
    exact fn_checked 4 (by cases o <;> rfl) rfl

/-! ## The direct calls -/

def PublicDirect.checks : PublicDirect → List Check
  | getSync o => keyChecks [.key] o fun o => [bufferCheck 0 o.key, intCheck 1 o.flagsOr]
  | putSync o => keyChecks [.key, .val] o fun o =>
    [bufferCheck 0 o.key, bufferCheck 1 o.val, intCheck 2 o.flagsOr]
  | delSync o => keyChecks [.key] o fun o => [bufferCheck 0 o.key, intCheck 1 o.flagsOr]
  | cursorGetSync o => cursorChecks o []

def PublicDirect.call : PublicDirect → DirectCall Bytes
  | getSync o => let o := o.getD {}; .getS (buffer o.key.bytes) o.flagsOr.int
  | putSync o => let o := o.getD {}; .putS (buffer o.key.bytes) (buffer o.val.bytes) o.flagsOr.int
  | delSync o => let o := o.getD {}; .delS (buffer o.key.bytes) o.flagsOr.int
  | cursorGetSync o =>
    .cursorGetS (buffer (o.key.orDefault (.buffer [])).bytes) (o.limit.orDefault (.number 100)).int
      (o.initFlag.orDefault (.number dbSet)).int (o.flags.orDefault (.number dbNext)).int

theorem direct_checked (c : PublicDirect) :
    c.args >>= c.method.parse = checkAll c.checks >>= fun _ => .ok c.call := by
  cases c with
  | getSync o =>
    apply keyArgs_checked
    rintro o rfl
    apply buffer_checked 0 rfl
    exact int_checked 1 rfl rfl
  | putSync o =>
    apply keyArgs_checked
    rintro o rfl
    apply buffer_checked 0 rfl
    apply buffer_checked 1 rfl
    exact int_checked 2 rfl rfl
  | delSync o =>
    apply keyArgs_checked
    rintro o rfl
    apply buffer_checked 0 rfl
    exact int_checked 1 rfl rfl
  | cursorGetSync o =>
    apply buffer_checked 0 rfl
    apply int_checked 1 rfl
    apply int_checked 2 rfl
    exact int_checked 3 rfl rfl

/-! ## Opening and closing -/

def OpenOptions.typeOr (o : OpenOptions) : JsValue := o.type.orDefault (.number dbBtree)
def OpenOptions.flagsOr (o : OpenOptions) : JsValue :=
  o.flags.orDefault (.number (dbAutoCommit ||| dbCreate ||| dbThread : Nat))
def OpenOptions.modeOr (o : OpenOptions) : JsValue := o.mode.orDefault (.number 0)
def OpenOptions.retriesOr (o : OpenOptions) : JsValue := o.retries.orDefault (.number 1)

def PublicDb.checks : PublicDb → List Check
  | openSync none => [(false, "options required")]
  | openSync (some o) =>
    [(o.file.truthy, "options.file required"), strCheck 0 o.file, intCheck 1 o.typeOr,
      intCheck 2 o.flagsOr, intCheck 3 o.modeOr, intCheck 4 o.retriesOr]
  | closeSync flags => [intCheck 0 (flags.orDefault (.number 0))]

/-- The fields, and the method of the handle if one is entered. -/
def PublicDb.effect (c : PublicDb) (db : Db) : Db × Option DbMethod :=
  match c with
  | openSync o => let o := o.getD {}
    ({ db with _retries := o.retriesOr.int },
      if db._db = none then none
      else some (.open o.file.text o.typeOr.int o.flagsOr.int o.modeOr.int))
  | closeSync flags =>
    ({ db with _db := none }, some (.close (flags.orDefault (.number 0)).int))

theorem db_checked (db : Db) (c : PublicDb) :
    c.args >>= (fun args => c.method.run db args) =
      checkAll c.checks >>= fun _ => .ok (c.effect db) := by
  cases c with
  | openSync options =>
    cases options with
    | none => rfl
    | some o =>
      rw [PublicDb.args, openSyncArgs, check_bind]
      apply option_checked
      apply str_checked 0 rfl
      apply int_checked 1 rfl
      apply int_checked 2 rfl
      apply int_checked 3 rfl
      exact int_checked 4 rfl rfl
  | closeSync flags => exact int_checked 0 rfl rfl

def EnvOptions.flagsOr (o : EnvOptions) : JsValue := o.flags.orDefault (.number envOpenFlags)
def EnvOptions.modeOr (o : EnvOptions) : JsValue := o.mode.orDefault (.number 0)

def PublicEnv.checks : PublicEnv → List Check
  | openSync none => [(false, "options required")]
  | openSync (some o) =>
    [(o.home.truthy, "options.home required"), strCheck 0 o.home, intCheck 1 o.flagsOr,
      intCheck 2 o.modeOr]
  | closeSync flags => [intCheck 0 (flags.orDefault (.number dbForcesync))]

/-- An environment becomes transactional by the default flags, or by flags that say so. -/
def PublicEnv.effect (c : PublicEnv) (env : DbEnv) : DbEnv × EnvMethod :=
  match c with
  | openSync o => let o := o.getD {}
    ({ env with _transactional := !o.flags.truthy || hasInitTxn o.flags.int },
      .open o.home.text o.flagsOr.int o.modeOr.int)
  | closeSync flags => (env, .close (flags.orDefault (.number dbForcesync)).int)

theorem flagsOr_transactional (o : EnvOptions) :
    hasInitTxn o.flagsOr.int = (!o.flags.truthy || hasInitTxn o.flags.int) := by
  rw [EnvOptions.flagsOr, JsValue.orDefault]
  cases o.flags.truthy with
  | true => rfl
  | false => exact (show hasInitTxn (toInt envOpenFlags) = true by decide)

theorem env_checked (env : DbEnv) (c : PublicEnv) :
    c.args >>= (fun args => c.method.run env args) =
      checkAll c.checks >>= fun _ => .ok (c.effect env) := by
  cases c with
  | openSync options =>
    cases options with
    | none => rfl
    | some o =>
      rw [PublicEnv.args, envOpenSyncArgs, check_bind]
      apply option_checked
      apply str_checked 0 rfl
      apply int_checked 1 rfl
      apply int_checked 2 rfl
      rw [PublicEnv.effect, Option.getD_some, ← flagsOr_transactional]
      rfl
  | closeSync flags => exact int_checked 0 rfl rfl

/-! ## Checkpoints -/

def checkpointChecks (kbyte min callback : JsValue) : List Check :=
  [intCheck 0 (kbyte.orDefault (.number 0)), intCheck 1 (min.orDefault (.number 0)), fnCheck 3 callback]

/-- A checkpoint is forced unless it is given a threshold. -/
def checkpointBaton (kbyte min : JsValue) : EIOCheckpointBaton :=
  { flags := if kbyte.truthy || min.truthy then 0 else dbForce
    kbytes := toUnsigned (kbyte.orDefault (.number 0)).int
    minutes := toUnsigned (min.orDefault (.number 0)).int }

theorem orDefault_zero_truthy (v : JsValue) : (v.orDefault (.number 0)).truthy = v.truthy := by
  rw [JsValue.orDefault]
  cases hv : v.truthy with
  | true => rw [if_pos rfl, hv]
  | false => rfl

theorem checkpoint_checked (kbyte min callback : JsValue) :
    txnCheckpointArgs (txnCheckpointWrapper kbyte min callback) =
      checkAll (checkpointChecks kbyte min callback) >>= fun _ =>
        .ok (checkpointBaton kbyte min, callback.cb) := by
  apply int_checked 0 rfl
  apply int_checked 1 rfl
  -- the flags are a number whatever the options are
  have hflags : reqIntArg 2 (txnCheckpointWrapper kbyte min callback) =
      .ok (checkpointBaton kbyte min).flags := by
    rw [txnCheckpointWrapper, orDefault_zero_truthy, orDefault_zero_truthy, checkpointBaton]
    cases kbyte.truthy || min.truthy <;> rfl
  rw [hflags]
  exact fn_checked 3 rfl rfl

/-! ## In the process -/

/-- The first of the checks that fails. -/
def failing (checks : List Check) : Option String := (checks.find? fun c => !c.1).map Prod.snd

theorem checkAll_failing (checks : List Check) :
    checkAll checks = match failing checks with
      | some msg => .error msg
      | none => .ok () := by
  induction checks with
  | nil => rfl
  | cons check rest ih =>
    rw [checkAll_cons, failing, List.find?_cons]
    cases check.1 with
    | true => exact ih
    | false => rfl

/-- A call throws for the first check that fails, and nothing has happened, or it goes on. -/
def System.unless (s : System) (checks : List Check) (rest : Option (Returned × System)) :
    Option (Returned × System) :=
  match failing checks with
  | some msg => some (.threw (.text msg), s)
  | none => rest

theorem checked_unless {β : Type} (s : System) {parsed : Except String β} {checks : List Check}
    {b : β} (h : parsed = checkAll checks >>= fun _ => .ok b) (rest : β → Option (Returned × System)) :
    s.checked parsed rest = s.unless checks (rest b) := by
  rw [h, checkAll_failing, System.unless]
  cases failing checks <;> rfl

theorem checked_bind {α β : Type} (s : System) (x : Except String α) (parse : α → Except String β)
    (rest : β → Option (Returned × System)) :
    (s.checked x fun a => s.checked (parse a) rest) = s.checked (x >>= parse) rest := by
  cases x <;> rfl

/-- What the calls of the module come to in a state: each does what its options say. -/
structure PublicCalls (s : System) : Prop where
  request : ∀ j (c : PublicRequest) callback captured, s.request j c callback captured =
    s.unless (c.checks callback)
      (some (.undefined, s.accept (.db j c.request c.request.baton) (c.callback callback).cb captured))
  direct : ∀ j db (c : PublicDirect) o, s.dbs[j]? = some db → s.direct j c o =
    s.unless c.checks
      (some (.value (exec o [] (c.call.deliver db.fields)).2,
        { s with log := s.log ++ [.direct j (exec o [] (c.call.deliver db.fields)).1
          (exec o [] (c.call.deliver db.fields)).2] }))
  /-- Fields that a worker is reading are not written. -/
  openClose : ∀ j db (c : PublicDb) rc, s.dbs[j]? = some db → s.openClose j c rc =
    s.unless c.checks
      (if (c.effect db.fields).1 ≠ db.fields ∧ s.busy j then none
      else match (c.effect db.fields).2 with
        | some method => some (.value (dbRes rc), s.callDb j db (c.effect db.fields).1 method rc)
        | none => some (.value (dbRes (-1)), s.setDb j db (c.effect db.fields).1))
  openCloseEnv : ∀ i env (c : PublicEnv) rc, s.envs[i]? = some env →
    s.answers env._env rc (c.effect env).2 = true → s.openCloseEnv i c rc =
      s.unless c.checks
        (some (.value (dbRes rc), s.callEnv i env (c.effect env).1 (c.effect env).2 rc))
  checkpoint : ∀ i kbyte min callback captured, s.checkpoint i kbyte min callback captured =
    s.unless (checkpointChecks kbyte min callback)
      (some (.undefined, s.accept (.checkpoint i (checkpointBaton kbyte min)) callback.cb captured))

/-- The calls of the module, with any options in any state. -/
theorem public_calls (s : System) : PublicCalls s where
  request j c callback captured := by
    rw [System.request]
    simp only [System.jsDb]
    rw [checked_bind, checked_unless s (request_checked c callback)]
  direct j db c o hj := by
    rw [System.direct]
    simp only [System.jsDb, hj, Option.bind_eq_bind, Option.bind_some]
    rw [checked_bind, checked_unless s (direct_checked c)]
  openClose j db c rc hj := by
    rw [System.openClose]
    simp only [System.jsDb, hj, Option.bind_eq_bind, Option.bind_some]
    exact (checked_bind s _ _ _).trans (checked_unless s (db_checked db.fields c) _)
  openCloseEnv i env c rc hi ha := by
    rw [System.openCloseEnv]
    simp only [System.jsEnv, hi, Option.bind_eq_bind, Option.bind_some]
    rw [checked_bind, checked_unless s (env_checked env c)]
    cases c <;> simp only [ha] <;> rfl
  checkpoint i kbyte min callback captured :=
    checked_unless s (checkpoint_checked kbyte min callback) _

theorem public_calls_put :
    ({ loopRefs := 0, dbs := [{ fields := {}, createdOn := 0 }] } : System).request 0
        (.put (some { key := .buffer [107] })) (.function 0) [] =
      some (.threw (.text "options.val required"),
        { loopRefs := 0, dbs := [{ fields := {}, createdOn := 0 }] }) :=
  (public_calls { loopRefs := 0, dbs := [{ fields := {}, createdOn := 0 }] }).request 0
    (.put (some { key := .buffer [107] })) (.function 0) []

/-! ## There and back -/

/-- The options that say what the request says. -/
def Request.asOptions : Request Bytes → PublicRequest
  | .get key flags => .get (some { key := .buffer key.input, flags := .number flags })
  | .put key val flags =>
    .put (some { key := .buffer key.input, val := .buffer val.input, flags := .number flags })
  | .putIf key val oldVal flags =>
    .putIf (some { key := .buffer key.input, val := .buffer val.input, oldVal := .buffer oldVal.input,
                   flags := .number flags })
  | .del key flags => .del (some { key := .buffer key.input, flags := .number flags })
  | .cursorGet key limit initFlag flags =>
    .cursorGet (.options { key := .buffer key.input, limit := .number limit,
                           initFlag := .number initFlag, flags := .number flags })

/-- None of the numbers of a walk is 0. -/
def Request.Told : Request Bytes → Prop
  | .cursorGet _ limit initFlag flags => limit ≠ 0 ∧ initFlag ≠ 0 ∧ flags ≠ 0
  | _ => True

theorem toInt_toInt (n : Int) : toInt (toInt n) = toInt n := Int.bmod_bmod ..

theorem number_orDefault (n d : Int) :
    (JsValue.number n).orDefault (.number d) = .number (if n = 0 then d else n) := by
  by_cases h : n = 0
  · subst h
    rfl
  · rw [orDefault_number h, if_neg h]

theorem reqIntArg_range {i : Nat} {args : List JsValue} {n : Int} (h : reqIntArg i args = .ok n) :
    toInt n = n := by
  obtain ⟨_, -, h⟩ := bind_ok h
  split at h
  · cases h
    exact toInt_toInt _
  · cases h
    exact toInt_toInt _
  · cases h

/-- An option that is a number within 32 bits is told as it is, unless 0 stands for another. -/
theorem option_told_iff {n d : Int} (hn : toInt n = n) (hd : d ≠ 0) (hr : toInt d = d) :
    ((JsValue.number n).orDefault (.number d)).int = n ↔ n ≠ 0 := by
  rw [number_orDefault, JsValue.int]
  by_cases h : n = 0
  · subst h
    rw [if_pos rfl, hr]
    simp [hd]
  · simp [h, hn]

theorem option_told_zero {n : Int} (hn : toInt n = n) :
    ((JsValue.number n).orDefault (.number 0)).int = n := by
  rw [number_orDefault, JsValue.int]
  by_cases h : n = 0
  · subst h
    rfl
  · rw [if_neg h, hn]

theorem number_isNumber (n d : Int) :
    ((JsValue.number n).orDefault (.number d)).isNumber = true := by
  rw [number_orDefault]
  rfl

theorem buffer_orDefault (bytes : Bytes) (d : JsValue) :
    (JsValue.buffer bytes).orDefault d = .buffer bytes := rfl

theorem checkAll_ok {checks : List Check} (h : ∀ c ∈ checks, c.1 = true) :
    checkAll checks = .ok () := by
  induction checks with
  | nil => rfl
  | cons check rest ih =>
    obtain ⟨hcheck, hrest⟩ := List.forall_mem_cons.mp h
    rw [checkAll_cons, if_pos hcheck, ih hrest]

/-- The options of a request have the types they have to have. -/
theorem asOptions_checked (r : Request Bytes) (f : Nat) :
    checkAll (r.asOptions.checks (.function f)) = .ok () := by
  apply checkAll_ok
  cases r <;>
    simp [Request.asOptions, PublicRequest.checks, keyChecks, cursorChecks, Needed.of, Needed.key,
      Needed.val, Needed.oldVal, JsValue.truthy, bufferCheck, intCheck, fnCheck, JsValue.isBuffer,
      JsValue.isFunction, KeyOptions.flagsOr, CursorArg.callbackOr, CursorArg.fields,
      buffer_orDefault, number_isNumber]

/-- Every request that a native method accepts is made by the method of the module with the same
options, but a 0 among the numbers of a walk stands for the default. -/
theorem options_roundtrip_iff {m : AsyncMethod} {args : List JsValue} {r : Request Bytes} {cb : Nat}
    (h : m.parse args = .ok (r, cb)) :
    r.asOptions.args (.function cb) >>= r.asOptions.method.parse = .ok (r, cb) ↔ r.Told := by
  rw [request_checked, asOptions_checked]
  have hcb : (r.asOptions.callback (.function cb)).cb = cb := by cases r <;> rfl
  suffices hsame : r.asOptions.request = r ↔ r.Told by
    rw [← hsame, hcb]
    constructor
    · intro hok
      exact congrArg Prod.fst (Except.ok.inj hok)
    · intro heq
      rw [heq]
      rfl
  cases m with
  | get =>
    obtain ⟨key, -, h⟩ := bind_ok h
    obtain ⟨flags, hflags, h⟩ := bind_ok h
    obtain ⟨_, -, h⟩ := bind_ok h
    cases h
    exact iff_of_true (congrArg (Request.get (buffer key)) (option_told_zero (reqIntArg_range hflags))) trivial
  | put =>
    obtain ⟨key, -, h⟩ := bind_ok h
    obtain ⟨val, -, h⟩ := bind_ok h
    obtain ⟨flags, hflags, h⟩ := bind_ok h
    obtain ⟨_, -, h⟩ := bind_ok h
    cases h
    exact iff_of_true (congrArg (Request.put (buffer key) (buffer val))
      (option_told_zero (reqIntArg_range hflags))) trivial
  | putIf =>
    obtain ⟨key, -, h⟩ := bind_ok h
    obtain ⟨val, -, h⟩ := bind_ok h
    obtain ⟨oldVal, -, h⟩ := bind_ok h
    obtain ⟨flags, hflags, h⟩ := bind_ok h
    obtain ⟨_, -, h⟩ := bind_ok h
    cases h
    exact iff_of_true (congrArg (Request.putIf (buffer key) (buffer val) (buffer oldVal))
      (option_told_zero (reqIntArg_range hflags))) trivial
  | del =>
    obtain ⟨key, -, h⟩ := bind_ok h
    obtain ⟨flags, hflags, h⟩ := bind_ok h
    obtain ⟨_, -, h⟩ := bind_ok h
    cases h
    exact iff_of_true (congrArg (Request.del (buffer key)) (option_told_zero (reqIntArg_range hflags))) trivial
  | cursorGet =>
    obtain ⟨key, -, h⟩ := bind_ok h
    obtain ⟨limit, hlimit, h⟩ := bind_ok h
    obtain ⟨initFlag, hinit, h⟩ := bind_ok h
    obtain ⟨flags, hflags, h⟩ := bind_ok h
    obtain ⟨_, -, h⟩ := bind_ok h
    cases h
    rw [Request.Told, ← option_told_iff (d := 100) (reqIntArg_range hlimit) (by decide) rfl,
      ← option_told_iff (d := dbSet) (reqIntArg_range hinit) (by decide) rfl,
      ← option_told_iff (d := dbNext) (reqIntArg_range hflags) (by decide) rfl]
    exact Request.cursorGet.injEq .. ▸ ⟨fun h => h.2, fun h => ⟨rfl, h⟩⟩

/-- A walk limited to 0 records cannot be asked for so: the limit is then 100. -/
theorem options_roundtrip_zero :
    (Request.cursorGet (buffer []) 0 dbFirst dbNext).asOptions.args (.function 1) >>=
        (Request.cursorGet (buffer []) 0 dbFirst dbNext).asOptions.method.parse ≠
      .ok (.cursorGet (buffer []) 0 dbFirst dbNext, 1) := fun h =>
  ((options_roundtrip_iff (show AsyncMethod.cursorGet.parse [.buffer [], .number 0, .number dbFirst,
    .number dbNext, .function 1] = .ok (_, 1) from rfl)).mp h).1 rfl

end NodeBdb
