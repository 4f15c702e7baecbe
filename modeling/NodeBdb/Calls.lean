import NodeBdb.Interaction

/-!
# The outside of the bindings

The Berkeley DB methods the bindings call, with the reply each can give, and the
memory that moves between the two sides. Handles are numbers; a pointer that may
be NULL is an `Option`. `δ` is whatever names a region of caller memory: the bytes
themselves where nothing can touch them, an address where something can.
-/

namespace NodeBdb

open Interaction

abbrev Bytes := List UInt8

abbrev EnvHandle := Nat
abbrev DbHandle := Nat
abbrev TxnHandle := Nat
abbrev CursorHandle := Nat
abbrev Block := Nat

def dbNotfound : Int := -30987
def dbLockDeadlock : Int := -30994
def einval : Int := 22
def dbDbtMalloc : Nat := 0x010

/-- The status `EIO_PutIf` sets when the stored value is not the expected one. -/
def consistencyError : Int := -2

/-- The `data` and `size` of a DBT: NULL, a JavaScript Buffer, a block of the C heap,
or memory that stays with Berkeley DB until the next call on the cursor. -/
inductive Data (δ : Type) where
  | null : Data δ
  | buffer : (p : δ) → (len : Nat) → Data δ
  | block : (b : Block) → (bytes : Bytes) → Data δ
  | lent : (bytes : Bytes) → Data δ
  deriving DecidableEq, Repr

variable {δ : Type}

def Data.size : Data δ → Nat
  | null => 0
  | buffer _ len => len
  | block _ bytes => bytes.length
  | lent bytes => bytes.length

structure Dbt (δ : Type) where
  data : Data δ := .null
  flags : Nat := 0
  deriving DecidableEq, Repr

/-- The DBT of a Buffer argument, whose bytes nobody modifies. -/
def buffer (bytes : Bytes) : Dbt Bytes := { data := .buffer bytes bytes.length }

/-- What happens to the blocks of the C heap. -/
inductive BlockEvent where
  | malloc : Block → BlockEvent
  | free : Block → BlockEvent
  | read : Block → BlockEvent
  deriving DecidableEq, Repr

/-- The blocks allocated on behalf of one request, in the order of events. -/
structure Ledger where
  next : Block := 0
  log : List BlockEvent := []
  deriving DecidableEq, Repr

def Ledger.malloc (l : Ledger) : Ledger := ⟨l.next + 1, l.log ++ [.malloc l.next]⟩
def Ledger.free (l : Ledger) (b : Block) : Ledger := { l with log := l.log ++ [.free b] }

/-- The C++ code reads the data of a DBT; only blocks are tracked. -/
def Ledger.read (l : Ledger) : Data δ → Ledger
  | .block b _ => { l with log := l.log ++ [.read b] }
  | _ => l

/-- `free(dbt.data)`, where a NULL pointer is freed by doing nothing. -/
def Ledger.freeData (l : Ledger) : Data δ → Ledger
  | .block b _ => l.free b
  | _ => l

/-- Berkeley DB hands `bytes` back in a DBT: in a fresh block when the DBT is marked
`DB_DBT_MALLOC`, replacing its pointer, and otherwise in memory of its own. -/
def Dbt.receive (dbt : Dbt δ) (bytes : Bytes) (l : Ledger) : Dbt δ × Ledger :=
  if dbt.flags = dbDbtMalloc then ({ dbt with data := .block l.next bytes }, l.malloc)
  else ({ dbt with data := .lent bytes }, l)

def dbGetBoth : Int := 8
def dbGetBothRange : Int := 10
def dbGetRecno : Int := 11
def dbSet : Int := 26

/-- `DB_RETURNS_A_KEY`, for the default comparison: a key that the caller gave is not returned. Nor
is one where the number of the record is asked for. The bits above the operation are cleared
before. -/
def returnsKey (flags : Int) : Bool :=
  let op := flags % 0x100
  op != 0 && op != dbGetBoth && op != dbGetBothRange && op != dbGetRecno && op != dbSet

/-- Berkeley DB leaves the pointer of a DBT alone, and `bytes` are what it points to. -/
def Dbt.keep (dbt : Dbt δ) (bytes : Bytes) : Dbt δ :=
  { dbt with data := match dbt.data with
    | .block b _ => .block b bytes
    | _ => .lent bytes }

/-- The key of a cursor get, whose bytes the reply tells whether they are returned or not. -/
def Dbt.receiveKey (dbt : Dbt δ) (flags : Int) (bytes : Bytes) (l : Ledger) : Dbt δ × Ledger :=
  if returnsKey flags then dbt.receive bytes l else (dbt.keep bytes, l)

/-- `node::Buffer::New(data, size)` copies the bytes it is given. -/
def Data.bytes : Data δ → Bytes
  | .block _ bytes => bytes
  | .lent bytes => bytes
  | _ => []

/-- The bytes that Berkeley DB reads from a DBT. -/
def Dbt.input (dbt : Dbt Bytes) : Bytes :=
  match dbt.data with
  | .buffer p _ => p
  | d => d.bytes

@[simp] theorem receive_flags (dbt : Dbt δ) (bytes : Bytes) (l : Ledger) :
    (dbt.receive bytes l).1.flags = dbt.flags := by unfold Dbt.receive; split <;> rfl
@[simp] theorem receive_bytes (dbt : Dbt δ) (bytes : Bytes) (l : Ledger) :
    (dbt.receive bytes l).1.data.bytes = bytes := by unfold Dbt.receive; split <;> rfl
@[simp] theorem receive_size (dbt : Dbt δ) (bytes : Bytes) (l : Ledger) :
    (dbt.receive bytes l).1.data.size = bytes.length := by unfold Dbt.receive; split <;> rfl

@[simp] theorem keep_bytes (dbt : Dbt δ) (bytes : Bytes) : (dbt.keep bytes).data.bytes = bytes := by
  unfold Dbt.keep
  split <;> rfl

@[simp] theorem receiveKey_flags (dbt : Dbt δ) (flags : Int) (bytes : Bytes) (l : Ledger) :
    (dbt.receiveKey flags bytes l).1.flags = dbt.flags := by
  unfold Dbt.receiveKey
  split
  · exact receive_flags dbt bytes l
  · rfl

@[simp] theorem receiveKey_bytes (dbt : Dbt δ) (flags : Int) (bytes : Bytes) (l : Ledger) :
    (dbt.receiveKey flags bytes l).1.data.bytes = bytes := by
  unfold Dbt.receiveKey
  split
  · exact receive_bytes dbt bytes l
  · exact keep_bytes dbt bytes

/-- A call on a NULL handle dereferences NULL. `load` is the C++ code reading caller memory. -/
inductive Call (δ : Type) where
  | txnBegin : (env : Option EnvHandle) → Call δ
  | commit : (txn : TxnHandle) → Call δ
  | abort : (txn : TxnHandle) → Call δ
  | get : (db : Option DbHandle) → (txn : Option TxnHandle) → (key val : Dbt δ) → (flags : Int) → Call δ
  | put : (db : Option DbHandle) → (txn : Option TxnHandle) → (key val : Dbt δ) → (flags : Int) → Call δ
  | del : (db : Option DbHandle) → (txn : Option TxnHandle) → (key : Dbt δ) → (flags : Int) → Call δ
  | cursor : (db : Option DbHandle) → (txn : Option TxnHandle) → Call δ
  | cursorGet : (cursor : CursorHandle) → (key val : Dbt δ) → (flags : Int) → Call δ
  | cursorClose : (cursor : CursorHandle) → Call δ
  | load : (p : δ) → (len : Nat) → Call δ
  | txnCheckpoint : (env : Option EnvHandle) → (kbytes minutes : Nat) → (flags : Int) → Call δ
  deriving DecidableEq, Repr

/-- An out-parameter (a transaction, a cursor, data) is written only where the code is 0. -/
abbrev Reply : Call δ → Type
  | .txnBegin _ => Int × TxnHandle
  | .get .. => Int × Bytes
  | .cursor .. => Int × CursorHandle
  | .cursorGet .. => Int × Bytes × Bytes
  | .load .. => Bytes
  | _ => Int

abbrev BdbProg (δ : Type) := Prog (Call δ) Reply
abbrev BdbEvent (δ : Type) := Event (Call δ) Reply
abbrev BdbTrace (δ : Type) := Trace (Call δ) Reply

abbrev bdb (c : Call δ) : BdbProg δ (Reply c) := .perform c

/-- The C++ code reads `data`, as `memcmp` and `memcpy` do. -/
def Data.contents : Data δ → BdbProg δ Bytes
  | .buffer p len => bdb (.load p len)
  | d => .ret d.bytes

theorem contents_calls {d : Data δ} {t : BdbTrace δ} {w : Bytes} (h : Runs d.contents t w) :
    t = [] ∨ ∃ p len, t = [⟨.load p len, w⟩] := by
  cases d with
  | buffer p len =>
    obtain ⟨v, _, rfl, rfl, rfl⟩ := h
    exact .inr ⟨p, len, rfl⟩
  | _ => exact .inl h.1

/-- The code Berkeley DB returned; reading memory returns none. -/
def BdbEvent.code : BdbEvent δ → Int
  | ⟨.txnBegin _, r⟩ => r.1
  | ⟨.get .., r⟩ => r.1
  | ⟨.cursor .., r⟩ => r.1
  | ⟨.cursorGet .., r⟩ => r.1
  | ⟨.load .., _⟩ => 0
  | ⟨.commit _, r⟩ => r
  | ⟨.abort _, r⟩ => r
  | ⟨.put .., r⟩ => r
  | ⟨.del .., r⟩ => r
  | ⟨.cursorClose _, r⟩ => r
  | ⟨.txnCheckpoint .., r⟩ => r

end NodeBdb
