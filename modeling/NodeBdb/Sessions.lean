import NodeBdb.Linear
import NodeBdb.Moves

/-!
# Transactions with cursors

Berkeley DB as all nine operations see it: committed data, transactions that lock what they
touch until they end, and cursors that stand somewhere inside a transaction. A cursor get
locks every key it passed over, the absent ones included. A worker's calls tell which
transaction it is in, what it has done there and where its cursor stands.
-/

namespace NodeBdb

open Interaction RangeLocks

abbrev Contents := Bytes → Option Bytes

/-! ## The engine -/

structure Engine where
  store : RangeLocks.Store Bytes Bytes TxnHandle
  /-- The transaction of an open cursor, and the key it stands on. -/
  cursors : CursorHandle → Option (TxnHandle × Option Bytes) := fun _ => none

def Engine.initial (m : Contents) : Engine := { store := { data := m } }

namespace Engine

def place (s : Engine) (k : CursorHandle) (p : Option (TxnHandle × Option Bytes)) : Engine :=
  { s with cursors := Function.update s.cursors k p }

variable (moves : Moves Int Bytes Bytes)

/-- What Berkeley DB may answer: `txn_begin` is refused or comes to a handle that is not in use, an
access is granted under the locking rule or refused with a fault, a cursor is opened with a handle
that is not in use, and a commit that fails leaves no trace. -/
inductive Step (s : Engine) : BdbEvent Bytes → Engine → Prop where
  | refused {env : Option EnvHandle} {c : Int} {x : TxnHandle} : c ≠ 0 →
      Step s ⟨.txnBegin env, (c, x)⟩ s
  | txnBegin {env : Option EnvHandle} {x : TxnHandle} : s.store.active x = none →
      Step s ⟨.txnBegin env, (0, x)⟩ { s with store := s.store.begin x }
  | access {e : BdbEvent Bytes} {x : TxnHandle} {a : TwoPhase.Access Bytes Bytes} :
      e.onData = some x → e.access = some a → s.store.Grants x (.ofPoint a) →
      Step s e { s with store := s.store.record x (.ofPoint a) }
  | fault {e : BdbEvent Bytes} {x : TxnHandle} :
      e.onData = some x → s.store.active x ≠ none → Fault e.code → Step s e s
  | opened {db : Option DbHandle} {x : TxnHandle} {k : CursorHandle} :
      s.store.active x ≠ none → s.cursors k = none →
      Step s ⟨.cursor db (some x), (0, k)⟩ (s.place k (some (x, none)))
  | unopened {db : Option DbHandle} {x : TxnHandle} {c : Int} {k : CursorHandle} :
      s.store.active x ≠ none → Fault c → Step s ⟨.cursor db (some x), (c, k)⟩ s
  | found {k : CursorHandle} {x : TxnHandle} {pos : Option Bytes} {key val : Dbt Bytes}
      {flags : Int} {r : Bytes × Bytes} : s.cursors k = some (x, pos) →
      s.store.Grants x (moves.look flags pos key.input (some r)) →
      Step s ⟨.cursorGet k key val flags, (0, r)⟩
        { s.place k (some (x, some r.1)) with
          store := s.store.record x (moves.look flags pos key.input (some r)) }
  | missing {k : CursorHandle} {x : TxnHandle} {pos : Option Bytes} {key val : Dbt Bytes}
      {flags : Int} {r : Bytes × Bytes} : s.cursors k = some (x, pos) →
      s.store.Grants x (moves.look flags pos key.input none) →
      Step s ⟨.cursorGet k key val flags, (dbNotfound, r)⟩
        { s with store := s.store.record x (moves.look flags pos key.input none) }
  | unmoved {k : CursorHandle} {key val : Dbt Bytes} {flags c : Int} {r : Bytes × Bytes} :
      s.cursors k ≠ none → Fault c → Step s ⟨.cursorGet k key val flags, (c, r)⟩ s
  | closed {k : CursorHandle} {c : Int} : s.cursors k ≠ none → c = 0 ∨ Fault c →
      Step s ⟨.cursorClose k, c⟩ (s.place k none)
  | commit {x : TxnHandle} : s.store.active x ≠ none →
      Step s ⟨.commit x, 0⟩ { s with store := s.store.commit x }
  | commitFailed {x : TxnHandle} {c : Int} : s.store.active x ≠ none → Fault c →
      Step s ⟨.commit x, c⟩ { s with store := s.store.discard x }
  | abort {x : TxnHandle} {c : Int} : s.store.active x ≠ none →
      Step s ⟨.abort x, c⟩ { s with store := s.store.discard x }
  | load {p : Bytes} {len : Nat} : Step s ⟨.load p len, p⟩ s

end Engine

section

variable {moves : Moves Int Bytes Bytes} {s s' : Engine} {e : BdbEvent Bytes}

theorem Engine.Step.inv (hs : s.store.Inv) (h : s.Step moves e s') : s'.store.Inv := by
  cases h with
  | txnBegin hx => exact hs.begin _
  | access hd ha hg => exact hs.record hg
  | found hk hg => exact hs.record hg
  | missing hk hg => exact hs.record hg
  | commit hx =>
    obtain ⟨log, hlog⟩ := Option.ne_none_iff_exists'.mp hx
    exact hs.commit hlog
  | commitFailed hx hf => exact hs.discard _
  | abort hx => exact hs.discard _
  | _ => exact hs

/-- What a reply may be, as far as a single operation can tell. -/
def Regular : BdbEvent Bytes → Prop
  | ⟨.txnBegin .., _⟩ => True
  | ⟨.cursor .., r⟩ => r.1 = 0 ∨ Fault r.1
  | ⟨.cursorGet .., r⟩ => r.1 = 0 ∨ r.1 = dbNotfound ∨ Fault r.1
  | ⟨.cursorClose _, c⟩ => c = 0 ∨ Fault c
  | e => Proper e

theorem Engine.Step.regular (h : s.Step moves e s') : Regular e := by
  cases h with
  | refused => trivial
  | txnBegin => trivial
  | @access e x a hx ha hg =>
    obtain ⟨c, r⟩ := e
    cases c <;> first | cases hx | exact .inl (by simp [ha])
  | @fault e x hx hs hf =>
    obtain ⟨c, r⟩ := e
    cases c <;> first | cases hx | exact .inr hf
  | opened => exact .inl rfl
  | unopened hx hf => exact .inr hf
  | found => exact .inl rfl
  | missing => exact .inr (.inl rfl)
  | unmoved hk hf => exact .inr (.inr hf)
  | closed hk hc => exact hc
  | commit => exact .inl rfl
  | commitFailed hx hf => exact .inr hf
  | abort => trivial
  | load => rfl

end

/-! ## What a worker has done -/

/-- The transaction a worker is in, its accesses there, and where its cursor stands. -/
structure Session where
  txn : TxnHandle
  log : List (Access Bytes Bytes) := []
  cursor : Option (CursorHandle × Option Bytes) := none

/-- The session after one more access. -/
def Session.did (a : Session) (o : Option (Access Bytes Bytes)) : Session :=
  { a with log := a.log ++ o.toList }

section

variable (moves : Moves Int Bytes Bytes)

/-- The session after a cursor get. -/
def Session.moved (a : Session) (flags : Int) (key : Bytes) (c : Int) (r : Bytes × Bytes) : Session :=
  match a.cursor with
  | none => a
  | some (k, pos) =>
    if c = 0 then { a.did (moves.look flags pos key (some r)) with cursor := some (k, some r.1) }
    else if c = dbNotfound then a.did (moves.look flags pos key none)
    else a

def Session.next (a : Option Session) : BdbEvent Bytes → Option Session
  | ⟨.txnBegin _, r⟩ => if r.1 = 0 then some { txn := r.2 } else a
  | ⟨.commit _, _⟩ => none
  | ⟨.abort _, _⟩ => none
  | ⟨.cursor _ _, r⟩ => a.map fun a => if r.1 = 0 then { a with cursor := some (r.2, none) } else a
  | ⟨.cursorGet _ key _ flags, r⟩ => a.map fun a => a.moved moves flags key.input r.1 r.2
  | ⟨.cursorClose _, _⟩ => a.map fun a => { a with cursor := none }
  | e => a.map fun a => a.did (e.access.map .ofPoint)

def session (t : BdbTrace Bytes) : Option Session := t.foldl (Session.next moves) none

@[simp] theorem session_nil : session moves [] = none := rfl
@[simp] theorem session_append (t : BdbTrace Bytes) (e : BdbEvent Bytes) :
    session moves (t ++ [e]) = Session.next moves (session moves t) e := by
  simp [session]

end

section

variable {moves : Moves Int Bytes Bytes} {e : BdbEvent Bytes}

@[simp] theorem did_none (a : Session) : a.did none = a := by simp [Session.did]
@[simp] theorem did_txn (a : Session) (o : Option (Access Bytes Bytes)) : (a.did o).txn = a.txn := rfl
@[simp] theorem did_cursor (a : Session) (o : Option (Access Bytes Bytes)) :
    (a.did o).cursor = a.cursor := rfl

@[simp] theorem moved_txn (a : Session) (flags : Int) (key : Bytes) (c : Int) (r : Bytes × Bytes) :
    (a.moved moves flags key c r).txn = a.txn := by
  unfold Session.moved
  split
  · rfl
  · split
    · rfl
    · split <;> rfl

/-- A cursor get leaves the cursor what it is, wherever it goes. -/
theorem moved_handle (a : Session) (flags : Int) (key : Bytes) (c : Int) (r : Bytes × Bytes) :
    (a.moved moves flags key c r).cursor.map Prod.fst = a.cursor.map Prod.fst := by
  unfold Session.moved
  split
  · rfl
  · rename_i k pos hc
    split
    · simp [hc]
    · split <;> simp [hc]

/-- A call on the data only adds an access. -/
theorem session_data {a : Option Session} {x : TxnHandle} (h : e.onData = some x) :
    Session.next moves a e = a.map fun a => a.did (e.access.map .ofPoint) := by
  obtain ⟨c, r⟩ := e
  cases c <;> first | cases h | rfl

/-- The session and the monitor of the discipline agree on the handles. -/
structure Session.Agrees (a : Option Session) (m : Handles) : Prop where
  live : a.map Session.txn = m.live
  cursor : (a.bind fun a => a.cursor.map Prod.fst) = m.cursor

theorem Session.Agrees.step {a : Option Session} {m : Handles} (h : Session.Agrees a m)
    (hm : discipline.admits m e.1) :
    Session.Agrees (Session.next moves a e) (discipline.next m e.1 e.2) := by
  obtain ⟨c, r⟩ := e
  cases c with
  | txnBegin env =>
    simp only [Session.next, discipline]
    split
    · exact ⟨rfl, hm.2.1.symm⟩
    · exact h
  | commit x => exact ⟨rfl, hm.2.1.symm⟩
  | abort x => exact ⟨rfl, hm.2.1.symm⟩
  | cursor db x =>
    have hlive : a.map Session.txn ≠ none := by
      rw [h.live, ← hm.1.2.1]
      exact hm.1.1
    simp only [Session.next, discipline]
    cases a with
    | none => exact absurd rfl hlive
    | some a =>
      by_cases hr : r.1 = 0
      · simp only [Option.map_some, hr, ↓reduceIte]
        exact ⟨h.live, rfl⟩
      · simp only [Option.map_some, hr, ↓reduceIte]
        exact h
  | cursorGet k key val flags =>
    refine ⟨?_, ?_⟩
    · rw [← show (a.map Session.txn) = (discipline.next m (.cursorGet k key val flags) r).live from h.live]
      simp [Session.next, Function.comp_def]
    · rw [← show (a.bind fun a => a.cursor.map Prod.fst) =
        (discipline.next m (.cursorGet k key val flags) r).cursor from h.cursor]
      cases a with
      | none => rfl
      | some a => exact moved_handle a flags key.input r.1 r.2
  | cursorClose k =>
    refine ⟨?_, ?_⟩
    · rw [← show (a.map Session.txn) = (discipline.next m (.cursorClose k) r).live from h.live]
      simp [Session.next, Function.comp_def]
    · cases a <;> rfl
  | _ =>
    refine ⟨?_, ?_⟩
    · refine Eq.trans ?_ h.live
      simp [Session.next, Function.comp_def]
    · refine Eq.trans ?_ h.cursor
      cases a <;> rfl

theorem session_agrees {a : Option Session} {m m' : Handles} {t : BdbTrace Bytes}
    (h : discipline.Accepts m t m') (ha : Session.Agrees a m) :
    Session.Agrees (t.foldl (Session.next moves) a) m' := by
  induction t generalizing a m with
  | nil =>
    cases h
    exact ha
  | cons e t ih => exact ih h.2 (ha.step h.1)

end

end NodeBdb
