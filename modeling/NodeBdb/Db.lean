import NodeBdb.Txn

/-!
# The database operations

The bodies of `bdb_db.cc`: the workers `EIO_*`, which leave their result in the
baton, and the synchronous methods, which return it. A worker runs on the request's
own baton; the ledger in it is ghost state, the C heap blocks of the request.
-/

namespace NodeBdb

open Interaction Prog

/-- A `DBT *` from `ALLOC_DBT`: the block of the struct and the struct itself. -/
structure DbtPtr (δ : Type) where
  block : Block
  dbt : Dbt δ
  deriving DecidableEq, Repr

/-- `object` and `cb` of the baton are kept with the request, not here. -/
structure EIODbBaton (δ : Type) where
  flags : Int := 0
  status : Int := 0
  key : Dbt δ := {}
  val : Dbt δ := {}
  limit : Int := 0
  initFlag : Int := 0
  records : List (DbtPtr δ × DbtPtr δ) := []
  oldVal : Dbt δ := {}
  ledger : Ledger := {}
  deriving DecidableEq, Repr

variable {δ : Type}

def EIODbBaton.statusVar : Status (EIODbBaton δ) where
  get baton := baton.status
  set rc baton := { baton with status := rc }
  get_set _ _ := rfl

/-! ## Workers of the key-value operations -/

/-- The call in `EIO_Get`: on success the value replaces `baton->val`. -/
def getBody (dbObj : Db) (_txn : Option TxnHandle) (baton : EIODbBaton δ) :
    BdbProg δ (EIODbBaton δ) := do
  let (rc, bytes) ← bdb (.get dbObj._db _txn baton.key baton.val baton.flags)
  if rc = 0 then
    let (val, ledger) := baton.val.receive bytes baton.ledger
    return { baton with status := rc, val := val, ledger := ledger }
  else
    return { baton with status := rc }

def eioGet (dbObj : Db) (baton : EIODbBaton δ) : BdbProg δ (EIODbBaton δ) :=
  if dbObj._db = none then .ret baton
  else
    txn dbObj EIODbBaton.statusVar (getBody dbObj)
      { baton with val := { baton.val with flags := dbDbtMalloc } }

def putBody (dbObj : Db) (_txn : Option TxnHandle) (baton : EIODbBaton δ) :
    BdbProg δ (EIODbBaton δ) := do
  let rc ← bdb (.put dbObj._db _txn baton.key baton.val baton.flags)
  return { baton with status := rc }

def eioPut (dbObj : Db) (baton : EIODbBaton δ) : BdbProg δ (EIODbBaton δ) :=
  if dbObj._db = none then .ret baton
  else txn dbObj EIODbBaton.statusVar (putBody dbObj) baton

/-- The baton and the local `oldVal` of `EIO_PutIf`, which outlives an attempt. -/
structure PutIfLocals (δ : Type) where
  baton : EIODbBaton δ
  oldVal : Dbt δ := {}
  deriving DecidableEq, Repr

def PutIfLocals.setStatus (rc : Int) (s : PutIfLocals δ) : PutIfLocals δ :=
  { s with baton := { s.baton with status := rc } }

def PutIfLocals.statusVar : Status (PutIfLocals δ) where
  get s := s.baton.status
  set := setStatus
  get_set _ _ := rfl

/-- The body from the point where the get has returned 0: compare, then put. -/
def compareAndPut (dbObj : Db) (_txn : Option TxnHandle) (s : PutIfLocals δ) :
    BdbProg δ (PutIfLocals δ) :=
  if s.oldVal.data.size ≠ s.baton.oldVal.data.size then
    return s.setStatus consistencyError
  else do
    let expected ← s.baton.oldVal.data.contents
    let s := { s with baton := { s.baton with ledger := s.baton.ledger.read s.oldVal.data } }
    if s.oldVal.data.bytes ≠ expected then
      return s.setStatus consistencyError
    else
      let rc ← bdb (.put dbObj._db _txn s.baton.key s.baton.val s.baton.flags)
      return s.setStatus rc

def putIfBody (dbObj : Db) (_txn : Option TxnHandle) (s : PutIfLocals δ) :
    BdbProg δ (PutIfLocals δ) := do
  let (rc, bytes) ← bdb (.get dbObj._db _txn s.baton.key s.oldVal 0)
  if rc = 0 then
    let (oldVal, ledger) := s.oldVal.receive bytes s.baton.ledger
    compareAndPut dbObj _txn
      { baton := { s.baton with status := rc, ledger := ledger }, oldVal := oldVal }
  else
    return s.setStatus rc

/-- `EIO_PutIf` frees what the last get returned, whatever came of it. -/
def eioPutIf (dbObj : Db) (baton : EIODbBaton δ) : BdbProg δ (EIODbBaton δ) :=
  if dbObj._db = none then .ret baton
  else do
    let s ← txn dbObj PutIfLocals.statusVar (putIfBody dbObj)
      { baton := baton, oldVal := { flags := dbDbtMalloc } }
    return { s.baton with ledger := s.baton.ledger.freeData s.oldVal.data }

def delBody (dbObj : Db) (_txn : Option TxnHandle) (baton : EIODbBaton δ) :
    BdbProg δ (EIODbBaton δ) := do
  let rc ← bdb (.del dbObj._db _txn baton.key baton.flags)
  return { baton with status := rc }

def eioDel (dbObj : Db) (baton : EIODbBaton δ) : BdbProg δ (EIODbBaton δ) :=
  if dbObj._db = none then .ret baton
  else txn dbObj EIODbBaton.statusVar (delBody dbObj) baton

/-! ## Synchronous key-value methods -/

/-- The locals `rc` and `dbt_val` of a synchronous method. -/
structure SyncLocals (δ : Type) where
  rc : Int := 0
  dbtVal : Dbt δ := {}
  ledger : Ledger := {}
  deriving DecidableEq, Repr

def SyncLocals.statusVar : Status (SyncLocals δ) where
  get s := s.rc
  set rc s := { s with rc := rc }
  get_set _ _ := rfl

def getSBody (db : Db) (dbtKey : Dbt δ) (flags : Int) (_txn : Option TxnHandle)
    (s : SyncLocals δ) : BdbProg δ (SyncLocals δ) := do
  let (rc, bytes) ← bdb (.get db._db _txn dbtKey s.dbtVal flags)
  if rc = 0 then
    let (dbtVal, ledger) := s.dbtVal.receive bytes s.ledger
    return { rc := rc, dbtVal := dbtVal, ledger := ledger }
  else
    return { s with rc := rc }

def getS (db : Db) (dbtKey : Dbt δ) (flags : Int) : BdbProg δ (SyncLocals δ) :=
  txn db SyncLocals.statusVar (getSBody db dbtKey flags) { dbtVal := { flags := dbDbtMalloc } }

def putSBody (db : Db) (dbtKey dbtVal : Dbt δ) (flags : Int) (_txn : Option TxnHandle)
    (s : SyncLocals δ) : BdbProg δ (SyncLocals δ) := do
  let rc ← bdb (.put db._db _txn dbtKey dbtVal flags)
  return { s with rc := rc }

def putS (db : Db) (dbtKey dbtVal : Dbt δ) (flags : Int) : BdbProg δ (SyncLocals δ) :=
  txn db SyncLocals.statusVar (putSBody db dbtKey dbtVal flags) {}

def delSBody (db : Db) (dbtKey : Dbt δ) (flags : Int) (_txn : Option TxnHandle)
    (s : SyncLocals δ) : BdbProg δ (SyncLocals δ) := do
  let rc ← bdb (.del db._db _txn dbtKey flags)
  return { s with rc := rc }

def delS (db : Db) (dbtKey : Dbt δ) (flags : Int) : BdbProg δ (SyncLocals δ) :=
  txn db SyncLocals.statusVar (delSBody db dbtKey flags) {}

/-! ## The asynchronous cursor walk -/

/-- The baton and the locals of `EIO_CursorGet`, none of which a retry resets. -/
structure CursorLocals (δ : Type) where
  baton : EIODbBaton δ
  rc : Int := 0
  cursor : Option CursorHandle := none
  key : Option (DbtPtr δ) := none
  val : Option (DbtPtr δ) := none
  i : Int := 1
  deriving DecidableEq, Repr

def CursorLocals.setStatus (rc : Int) (s : CursorLocals δ) : CursorLocals δ :=
  { s with baton := { s.baton with status := rc } }

def CursorLocals.statusVar : Status (CursorLocals δ) where
  get s := s.baton.status
  set := setStatus
  get_set _ _ := rfl

/-- `ALLOC_DBT(NAME)`: a zeroed DBT marked `DB_DBT_MALLOC`. -/
def allocDbt (l : Ledger) : DbtPtr δ × Ledger :=
  ({ block := l.next, dbt := { flags := dbDbtMalloc } }, l.malloc)

/-- `ALLOC_DBT(key); ALLOC_DBT(val);` -/
def CursorLocals.allocPair (s : CursorLocals δ) : (DbtPtr δ × DbtPtr δ) × CursorLocals δ :=
  let (key, l) := allocDbt s.baton.ledger
  let (val, l) := allocDbt l
  ((key, val), { s with key := some key, val := some val, baton := { s.baton with ledger := l } })

/-- A successful cursor get fills the pair it was given, and the pair goes on the records. -/
def EIODbBaton.pushRecord (baton : EIODbBaton δ) (flags : Int) (pair : DbtPtr δ × DbtPtr δ)
    (bytes : Bytes × Bytes) : EIODbBaton δ :=
  let (k, l) := pair.1.dbt.receiveKey flags bytes.1 baton.ledger
  let (v, l) := pair.2.dbt.receive bytes.2 l
  { baton with
    ledger := l
    records := baton.records ++ [({ pair.1 with dbt := k }, { pair.2 with dbt := v })] }

/-- `push_back` and the two allocations that follow it wherever it stands. -/
def CursorLocals.push (s : CursorLocals δ) (flags : Int) (pair : DbtPtr δ × DbtPtr δ)
    (bytes : Bytes × Bytes) : (DbtPtr δ × DbtPtr δ) × CursorLocals δ :=
  { s with baton := s.baton.pushRecord flags pair bytes }.allocPair

/-- `while ((i++ < limit) && (rc = cursor->get(cursor, key, val, flags)) == 0)`, where
`key` and `val` point to the pair allocated ahead. -/
def walk (cursor : CursorHandle) (pair : DbtPtr δ × DbtPtr δ) (s : CursorLocals δ) :
    BdbProg δ (CursorLocals δ) :=
  if s.i < s.baton.limit then
    .call (.cursorGet cursor pair.1.dbt pair.2.dbt s.baton.flags) fun r =>
      let s := { s with i := s.i + 1, rc := r.1 }
      if r.1 = 0 then
        walk cursor (s.push s.baton.flags pair r.2).1 (s.push s.baton.flags pair r.2).2
      else .ret s
  else .ret { s with i := s.i + 1 }
termination_by (s.baton.limit - s.i).toNat
decreasing_by
  simp only [CursorLocals.push, CursorLocals.allocPair, EIODbBaton.pushRecord]
  omega

/-- From the label `error` to `TXN_END`: the close overwrites the status. -/
def cursorError (s : CursorLocals δ) : BdbProg δ (CursorLocals δ) :=
  match s.cursor with
  | some cursor => do
    let rc ← bdb (.cursorClose cursor)
    return { s.setStatus rc with cursor := none }
  | none => return s

/-- `key->data = calloc(1, key->size); memcpy(key->data, ...)`, of the bytes read. -/
def CursorLocals.storeKey (s : CursorLocals δ) (key : DbtPtr δ) (bytes : Bytes) :
    DbtPtr δ × CursorLocals δ :=
  let key := { key with dbt := { key.dbt with data := .block s.baton.ledger.next bytes } }
  (key, { s with key := some key, baton := { s.baton with ledger := s.baton.ledger.malloc } })

def CursorLocals.copyKey (s : CursorLocals δ) (key : DbtPtr δ) :
    BdbProg δ (DbtPtr δ × CursorLocals δ) := do
  let bytes ← s.baton.key.data.contents
  return s.storeKey key bytes

/-- From the first two allocations on: the cursor is open and is positioned at the key. -/
def positionAndWalk (cursor : CursorHandle) (pair : DbtPtr δ × DbtPtr δ) (s : CursorLocals δ) :
    BdbProg δ (CursorLocals δ) := do
  let (key, s) ← s.copyKey pair.1
  let got ← bdb (.cursorGet cursor key.dbt pair.2.dbt s.baton.initFlag)
  let s := { s with rc := got.1 }
  if got.1 ≠ 0 then
    cursorError (s.setStatus got.1)
  else
    let (pair, s) := s.push s.baton.initFlag (key, pair.2) got.2
    walk cursor pair s >>= cursorError

def cursorGetBody (dbObj : Db) (_txn : Option TxnHandle) (s : CursorLocals δ) :
    BdbProg δ (CursorLocals δ) := do
  let r ← bdb (.cursor dbObj._db _txn)
  let s := { s with rc := r.1 }
  if r.1 ≠ 0 then
    cursorError (s.setStatus r.1)
  else
    let (pair, s) := { s with cursor := some r.2 }.allocPair
    positionAndWalk r.2 pair s

/-- What follows `TXN_END`: the scratch pair is freed and the end of data reported. -/
def cursorGetOut (s : CursorLocals δ) : EIODbBaton δ :=
  let l := s.baton.ledger
  let l := match s.key with | some key => l.free key.block | none => l
  let l := match s.val with | some val => l.free val.block | none => l
  let status := if s.baton.status = 0 ∧ s.rc = dbNotfound then dbNotfound else s.baton.status
  { s.baton with ledger := l, status := status }

def eioCursorGet (dbObj : Db) (baton : EIODbBaton δ) : BdbProg δ (EIODbBaton δ) :=
  if dbObj._db = none then .ret baton
  else do
    let s ← txn dbObj CursorLocals.statusVar (cursorGetBody dbObj) { baton := baton }
    return cursorGetOut s

/-! ## The synchronous cursor walk -/

/-- An element that `ADD_CURSOR_RECORD` sets in the result array. -/
structure CursorRecord where
  pos : Nat
  key : Bytes
  value : Bytes
  deriving DecidableEq, Repr

/-- The locals of `CursorGetS`; `last` is set where the walk met the end of the data. -/
structure CursorSLocals (δ : Type) where
  rc : Int := 0
  cursor : Option CursorHandle := none
  key : Dbt δ := {}
  val : Dbt δ := {}
  i : Int := 1
  count : Nat := 0
  arr : List CursorRecord := []
  last : Bool := false
  ledger : Ledger := {}
  deriving DecidableEq, Repr

def CursorSLocals.statusVar : Status (CursorSLocals δ) where
  get s := s.rc
  set rc s := { s with rc := rc }
  get_set _ _ := rfl

/-- `ADD_CURSOR_RECORD((&key), (&val), v8Obj, arr, count++)` and the two `memset`s. -/
def CursorSLocals.addRecord (s : CursorSLocals δ) (bytes : Bytes × Bytes) : CursorSLocals δ :=
  let (key, l) := s.key.receive bytes.1 s.ledger
  let (val, l) := s.val.receive bytes.2 l
  { s with
    key := {}, val := {}, ledger := l, count := s.count + 1
    arr := s.arr ++ [{ pos := s.count, key := key.data.bytes, value := val.data.bytes }] }

def walkS (cursor : CursorHandle) (limit flags : Int) (s : CursorSLocals δ) :
    BdbProg δ (CursorSLocals δ) :=
  if s.i < limit then
    .call (.cursorGet cursor s.key s.val flags) fun r =>
      let s := { s with i := s.i + 1, rc := r.1 }
      if r.1 = 0 then walkS cursor limit flags (s.addRecord r.2)
      else .ret s
  else .ret { s with i := s.i + 1 }
termination_by (limit - s.i).toNat
decreasing_by
  simp only [CursorSLocals.addRecord]
  omega

def cursorSError (s : CursorSLocals δ) : BdbProg δ (CursorSLocals δ) :=
  match s.cursor with
  | some cursor => do
    let rc ← bdb (.cursorClose cursor)
    return { s with rc := rc, cursor := none }
  | none => return s

/-- From the two `memset`s on: the cursor is open and is positioned at the key. -/
def positionAndWalkS (cursor : CursorHandle) (_key : Dbt δ) (limit initFlag flags : Int)
    (s : CursorSLocals δ) : BdbProg δ (CursorSLocals δ) := do
  let bytes ← _key.data.contents
  let s := { s with key := { data := .block s.ledger.next bytes }, val := {},
                    ledger := s.ledger.malloc }
  let got ← bdb (.cursorGet cursor s.key s.val initFlag)
  let s := { s with rc := got.1 }
  if got.1 ≠ 0 then
    cursorSError s
  else
    let s ← walkS cursor limit flags (s.addRecord got.2)
    cursorSError (if s.rc = dbNotfound then { s with last := true } else s)

def cursorGetSBody (dbObj : Db) (_key : Dbt δ) (limit initFlag flags : Int)
    (_txn : Option TxnHandle) (s : CursorSLocals δ) : BdbProg δ (CursorSLocals δ) := do
  let r ← bdb (.cursor dbObj._db _txn)
  let s := { s with rc := r.1 }
  if r.1 ≠ 0 then
    cursorSError s
  else
    positionAndWalkS r.2 _key limit initFlag flags { s with cursor := some r.2 }

def cursorGetSOut (s : CursorSLocals δ) : CursorSLocals δ :=
  if s.rc = 0 ∧ s.last then { s with rc := dbNotfound } else s

def cursorGetS (dbObj : Db) (_key : Dbt δ) (limit initFlag flags : Int) :
    BdbProg δ (CursorSLocals δ) := do
  let s ← txn dbObj CursorSLocals.statusVar (cursorGetSBody dbObj _key limit initFlag flags) {}
  return cursorGetSOut s

/-! ## What JavaScript is told -/

/-- The text of a code: `db_strerror` is Berkeley DB's own. -/
inductive Message where
  | dbStrerror : (rc : Int) → Message
  | text : String → Message
  deriving DecidableEq, Repr

/-- `ERR_MSG(RC)`. -/
def errMsg (rc : Int) : Message :=
  if rc = consistencyError then .text "ConsistencyError" else .dbStrerror rc

/-- The object of `DB_RES` with whatever is delivered beside it. -/
structure Delivery where
  code : Int
  message : Message
  value : Option Bytes := none
  array : Option (List CursorRecord) := none
  deriving DecidableEq, Repr

def eioAfterReturnStatus (baton : EIODbBaton δ) : Delivery :=
  { code := baton.status, message := errMsg baton.status }

def eioAfterGet (baton : EIODbBaton δ) : Delivery :=
  { code := baton.status, message := .dbStrerror baton.status, value := some baton.val.data.bytes }

/-- The loop over the records, from position `count` on. -/
def addCursorRecords (count : Nat) : List (DbtPtr δ × DbtPtr δ) → List CursorRecord
  | [] => []
  | (key, val) :: rest =>
    { pos := count, key := key.dbt.data.bytes, value := val.dbt.data.bytes } ::
      addCursorRecords (count + 1) rest

def eioAfterCursorGet (baton : EIODbBaton δ) : Delivery :=
  { code := baton.status, message := .dbStrerror baton.status
    array := some (addCursorRecords 0 baton.records) }

def SyncLocals.getSResult (s : SyncLocals δ) : Delivery :=
  { code := s.rc, message := .dbStrerror s.rc, value := some s.dbtVal.data.bytes }

def SyncLocals.result (s : SyncLocals δ) : Delivery :=
  { code := s.rc, message := .dbStrerror s.rc }

def CursorSLocals.result (s : CursorSLocals δ) : Delivery :=
  { code := s.rc, message := .dbStrerror s.rc, array := some s.arr }

end NodeBdb
