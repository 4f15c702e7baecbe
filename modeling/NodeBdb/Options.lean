import NodeBdb.Wrappers

/-!
# Options

The JavaScript around the bindings: an options object becomes the arguments of a method of
the addon, and an option that is not truthy is replaced by its default. So a number that
is 0 counts as left out.
-/

namespace NodeBdb

/-- `if (value)`: a number that is no integer is not 0, whatever it is cut to. -/
def JsValue.truthy : JsValue → Bool
  | number n => n != 0
  | boolean b => b
  | string s => s != ""
  | undefined => false
  | _ => true

def JsValue.orDefault (v default : JsValue) : JsValue := if v.truthy then v else default

theorem orDefault_number {n : Int} (h : n ≠ 0) (d : JsValue) :
    (JsValue.number n).orDefault d = .number n := by
  simp [JsValue.orDefault, JsValue.truthy, h]

def dbBtree : Nat := 1
def dbAutoCommit : Nat := 0x100
def dbCreate : Nat := 0x1
def dbThread : Nat := 0x10

def dbFirst : Int := 7
def dbNext : Int := 16
def dbSetRange : Int := 27

/-! ## Opening a database -/

structure OpenOptions where
  file : JsValue := .undefined
  type : JsValue := .undefined
  flags : JsValue := .undefined
  mode : JsValue := .undefined
  retries : JsValue := .undefined
  deriving DecidableEq, Repr

/-- What `Db.prototype.openSync` passes to `_openSync`. -/
def openSyncArgs : Option OpenOptions → Except String (List JsValue)
  | none => .error "options required"
  | some options =>
    if options.file.truthy then
      .ok [options.file, options.type.orDefault (.number dbBtree),
        options.flags.orDefault (.number (dbAutoCommit ||| dbCreate ||| dbThread : Nat)),
        options.mode.orDefault (.number 0), options.retries.orDefault (.number 1)]
    else .error "options.file required"

def Db.openSync (db : Db) (options : Option OpenOptions) : Except String (Db × Option DbMethod) := do
  db.openS (← openSyncArgs options)

/-- The retries that are stored, from the number given as an option. -/
theorem openSync_retries {db db' : Db} {options : OpenOptions} {m : Option DbMethod} {r : Int}
    (hr : options.retries = .number r) (h : db.openSync (some options) = .ok (db', m)) :
    db' = { db with _retries := toInt (if r = 0 then 1 else r) } := by
  obtain ⟨args, hargs, h⟩ := bind_ok h
  rw [openSyncArgs] at hargs
  split at hargs
  · cases hargs
    obtain ⟨_, -, h⟩ := bind_ok h
    obtain ⟨_, -, h⟩ := bind_ok h
    obtain ⟨_, -, h⟩ := bind_ok h
    obtain ⟨_, -, h⟩ := bind_ok h
    obtain ⟨retries, hretries, h⟩ := bind_ok h
    cases h
    rw [hr] at hretries
    by_cases h0 : r = 0
    · subst r
      cases hretries
      rfl
    · rw [orDefault_number h0] at hretries
      cases hretries
      rw [if_neg h0]
  · cases hargs

/-! ## Walking a cursor -/

structure CursorOptions where
  key : JsValue := .undefined
  limit : JsValue := .undefined
  initFlag : JsValue := .undefined
  flags : JsValue := .undefined
  deriving DecidableEq, Repr

/-- The first argument of `cursorGet`, which may be the callback. -/
inductive CursorArg where
  | options : CursorOptions → CursorArg
  | function : (f : Nat) → CursorArg
  | missing : CursorArg
  deriving DecidableEq, Repr

/-- A function has none of the options. -/
def CursorArg.fields : CursorArg → CursorOptions
  | options o => o
  | _ => {}

/-- What `Db.prototype.cursorGet` passes to `_cursorGet`. -/
def cursorGetArgs (options : CursorArg) (callback : JsValue) : List JsValue :=
  let callback := match options with
    | .function f => .function f
    | _ => callback
  let o := options.fields
  [o.key.orDefault (.buffer []), o.limit.orDefault (.number 100), o.initFlag.orDefault (.number dbSet),
    o.flags.orDefault (.number dbNext), callback]

end NodeBdb
