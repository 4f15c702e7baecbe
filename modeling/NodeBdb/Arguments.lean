import NodeBdb.Operations
import Mathlib.Algebra.Group.Nat.Defs
import Mathlib.Algebra.Group.Int.Defs

/-!
# Arguments of the entry points

The `REQ_*` macros and what each method of the two classes makes of its arguments. A
method that meets a bad argument throws before it has done anything else.
-/

namespace NodeBdb

/-- The wrapper objects: the i-th `DbEnv` and the j-th `Db` that were created. -/
inductive ObjRef where
  | env : (i : Nat) → ObjRef
  | db : (j : Nat) → ObjRef
  deriving DecidableEq, Repr

/-- A number that is no integer stands as its `ToInteger`, NaN as the number 0; of a function only
its identity matters. What is none of the others and no object either is `undefined`. -/
inductive JsValue where
  | number : Int → JsValue
  | fraction : (toInteger : Int) → JsValue
  | boolean : Bool → JsValue
  | string : String → JsValue
  | function : Nat → JsValue
  | buffer : Bytes → JsValue
  | wrapper : ObjRef → JsValue
  | object : JsValue
  | undefined : JsValue
  deriving DecidableEq, Repr

/-! ## The macros -/

theorem bind_ok {ε α β : Type} {x : Except ε α} {f : α → Except ε β} {b : β}
    (h : x >>= f = .ok b) : ∃ a, x = .ok a ∧ f a = .ok b := by
  cases x with
  | error e => cases h
  | ok a => exact ⟨a, rfl, h⟩

def reqArgs (args : List JsValue) : Except String Unit :=
  if args.length = 0 then .error "missing arguments" else .ok ()

def reqFnArg (i : Nat) (args : List JsValue) : Except String Nat := do
  reqArgs args
  match args[i]? with
  | some (.function f) => return f
  | _ => throw s!"argument {i} must be a function"

/-- `int VAR = _VAR->Value()`, from 64 bits to 32. -/
def toInt (n : Int) : Int := n.bmod (2 ^ 32)

def reqIntArg (i : Nat) (args : List JsValue) : Except String Int := do
  reqArgs args
  match args[i]? with
  | some (.number n) | some (.fraction n) => return toInt n
  | _ => throw s!"argument {i} must be an integer"

def reqStrArg (i : Nat) (args : List JsValue) : Except String String := do
  reqArgs args
  match args[i]? with
  | some (.string s) => return s
  | _ => throw s!"argument {i} must be a string"

/-- Everything that is no number, no boolean, no string and not missing is an object. -/
def reqObjArg (i : Nat) (args : List JsValue) : Except String JsValue := do
  reqArgs args
  match args[i]? with
  | none | some .undefined | some (.number _) | some (.fraction _) | some (.boolean _)
  | some (.string _) =>
    throw s!"argument {i} must be a object"
  | some v => return v

def reqBufArg (i : Nat) (args : List JsValue) : Except String Bytes := do
  reqArgs args
  match args[i]? with
  | some (.buffer bytes) => return bytes
  | _ => throw s!"argument {i} must be a buffer"

/-! ## Requests -/

/-- The asynchronous methods of `Db`. -/
inductive AsyncMethod where
  | get | put | putIf | del | cursorGet
  deriving DecidableEq, Repr

/-- What each method hands to `eio_custom`: the request, and the callback. -/
def AsyncMethod.parse (m : AsyncMethod) (args : List JsValue) : Except String (Request Bytes × Nat) :=
  match m with
  | get => do
    let key ← reqBufArg 0 args
    let flags ← reqIntArg 1 args
    let cb ← reqFnArg 2 args
    return (.get (buffer key) flags, cb)
  | put => do
    let key ← reqBufArg 0 args
    let value ← reqBufArg 1 args
    let flags ← reqIntArg 2 args
    let cb ← reqFnArg 3 args
    return (.put (buffer key) (buffer value) flags, cb)
  | putIf => do
    let key ← reqBufArg 0 args
    let value ← reqBufArg 1 args
    let oldValue ← reqBufArg 2 args
    let flags ← reqIntArg 3 args
    let cb ← reqFnArg 4 args
    return (.putIf (buffer key) (buffer value) (buffer oldValue) flags, cb)
  | del => do
    let key ← reqBufArg 0 args
    let flags ← reqIntArg 1 args
    let cb ← reqFnArg 2 args
    return (.del (buffer key) flags, cb)
  | cursorGet => do
    let key ← reqBufArg 0 args
    let limit ← reqIntArg 1 args
    let initFlag ← reqIntArg 2 args
    let flags ← reqIntArg 3 args
    let cb ← reqFnArg 4 args
    return (.cursorGet (buffer key) limit initFlag flags, cb)

/-- `object` and `cb` of the baton are kept with the request, not here. -/
structure EIOCheckpointBaton where
  flags : Int := 0
  status : Int := 0
  kbytes : Nat := 0
  minutes : Nat := 0
  deriving DecidableEq, Repr

/-- An `int` assigned to an `unsigned int`. -/
def toUnsigned (n : Int) : Nat := (n % 2 ^ 32).toNat

def txnCheckpointArgs (args : List JsValue) : Except String (EIOCheckpointBaton × Nat) := do
  let kbytes ← reqIntArg 0 args
  let minutes ← reqIntArg 1 args
  let flags ← reqIntArg 2 args
  let cb ← reqFnArg 3 args
  return ({ flags := flags, kbytes := toUnsigned kbytes, minutes := toUnsigned minutes }, cb)

/-! ## Direct calls -/

/-- The synchronous operations of `Db`. -/
inductive SyncMethod where
  | getS | putS | delS | cursorGetS
  deriving DecidableEq, Repr

def SyncMethod.parse (m : SyncMethod) (args : List JsValue) : Except String (DirectCall Bytes) :=
  match m with
  | getS => do
    let key ← reqBufArg 0 args
    let flags ← reqIntArg 1 args
    return .getS (buffer key) flags
  | putS => do
    let key ← reqBufArg 0 args
    let val ← reqBufArg 1 args
    let flags ← reqIntArg 2 args
    return .putS (buffer key) (buffer val) flags
  | delS => do
    let key ← reqBufArg 0 args
    let flags ← reqIntArg 1 args
    return .delS (buffer key) flags
  | cursorGetS => do
    let key ← reqBufArg 0 args
    let limit ← reqIntArg 1 args
    let initFlag ← reqIntArg 2 args
    let flags ← reqIntArg 3 args
    return .cursorGetS (buffer key) limit initFlag flags

/-! ## The other methods -/

/-- The methods of a DB_ENV handle that `DbEnv` calls, with what it passes on. -/
inductive EnvMethod where
  | open : (dbHome : String) → (flags mode : Int) → EnvMethod
  | close : (flags : Int) → EnvMethod
  | setEncrypt : (passwd : String) → EnvMethod
  | setErrfile : (fname : String) → EnvMethod
  | setErrpfx : (pfx : String) → EnvMethod
  | setFlags : (flags onoff : Int) → EnvMethod
  | setLkDetect : (policy : Int) → EnvMethod
  | setTimeout : (timeout which : Nat) → EnvMethod
  | setLkMaxLocks : (max : Nat) → EnvMethod
  | setLkMaxLockers : (max : Nat) → EnvMethod
  | setLkMaxObjects : (max : Nat) → EnvMethod
  | setShmKey : (shmKey : Int) → EnvMethod
  | setTxMax : (max : Nat) → EnvMethod
  deriving DecidableEq, Repr

def dbSetLockTimeout : Nat := 1
def dbSetTxnTimeout : Nat := 2

/-- The `set*` methods of `DbEnv`. -/
inductive EnvSetter where
  | setEncrypt | setErrorFile | setErrorPrefix | setFlags | setLockDetect | setLockTimeout
  | setMaxLocks | setMaxLockers | setMaxLockObjects | setShmKey | setTxnMax | setTxnTimeout
  deriving DecidableEq, Repr

def EnvSetter.parse (m : EnvSetter) (args : List JsValue) : Except String EnvMethod :=
  match m with
  | setEncrypt => do return .setEncrypt (← reqStrArg 0 args)
  | setErrorFile => do return .setErrfile (← reqStrArg 0 args)
  | setErrorPrefix => do return .setErrpfx (← reqStrArg 0 args)
  | setFlags => do
    let flags ← reqIntArg 0 args
    let onoff ← reqIntArg 1 args
    return .setFlags flags onoff
  | setLockDetect => do return .setLkDetect (← reqIntArg 0 args)
  | setLockTimeout => do return .setTimeout (toUnsigned (← reqIntArg 0 args)) dbSetLockTimeout
  | setMaxLocks => do return .setLkMaxLocks (toUnsigned (← reqIntArg 0 args))
  | setMaxLockers => do return .setLkMaxLockers (toUnsigned (← reqIntArg 0 args))
  | setMaxLockObjects => do return .setLkMaxObjects (toUnsigned (← reqIntArg 0 args))
  | setShmKey => do return .setShmKey (← reqIntArg 0 args)
  | setTxnMax => do return .setTxMax (toUnsigned (← reqIntArg 0 args))
  | setTxnTimeout => do return .setTimeout (toUnsigned (← reqIntArg 0 args)) dbSetTxnTimeout

/-- The methods of a DB handle that `Db` calls outside of the wrapped operations. -/
inductive DbMethod where
  | open : (file : String) → (type flags mode : Int) → DbMethod
  | close : (flags : Int) → DbMethod
  | associate : (secondary : Option DbHandle) → (flags : Int) → DbMethod
  | setFlags : (flags : Int) → DbMethod
  | setEncrypt : (passwd : String) → DbMethod
  deriving DecidableEq, Repr

end NodeBdb
