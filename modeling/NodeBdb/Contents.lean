import NodeBdb.CursorAgree
import Mathlib.Data.Seq.Basic
import Mathlib.Data.ENat.Lattice

/-!
# What a walk delivers

A content as a cursor sees it: where a get that positions it goes, and where a get that
moves it goes. A walk is the sequence of positions this gives, which may not end. The
loop of `EIO_CursorGet` counts from 1 and positions before it counts, so it delivers the
first record whatever the limit, and it notices the end of the data only where it asks
for a record that is not there.
-/

namespace NodeBdb

open Interaction Stream'

variable {P : Type}

/-- A content with its positions, in whatever order a cursor visits them. -/
structure Content (P : Type) where
  key : P → Bytes
  value : P → Bytes
  position : (initFlag : Int) → (key : Bytes) → Option P
  step : (flags : Int) → P → Option P

namespace Content

variable (c : Content P)

/-- The positions from `o` on. -/
def after (flags : Int) (o : Option P) : Seq P := Seq.corec (fun o => o.map fun p => (p, c.step flags p)) o

def walk (initFlag : Int) (key : Bytes) (flags : Int) : Seq P :=
  c.after flags (c.position initFlag key)

@[simp] theorem after_none (flags : Int) : c.after flags none = Seq.nil := Seq.corec_nil _ _ rfl
@[simp] theorem after_some (flags : Int) (p : P) :
    c.after flags (some p) = Seq.cons p (c.after flags (c.step flags p)) := Seq.corec_cons rfl

/-- Where the cursor goes: its first get positions it, and every later one moves it. -/
def moved (o : Option P) (key : Dbt Bytes) (flags : Int) : Option P :=
  match o with
  | none => c.position flags key.input
  | some p => c.step flags p

/-- What a cursor get returns at a position. -/
def reply : Option P → Int × Bytes × Bytes
  | some p => (0, c.key p, c.value p)
  | none => (dbNotfound, [], [])

/-- Berkeley DB without faults, holding this content; the state is where the cursor stands. -/
def server : Server (Call Bytes) Reply (Option P) where
  reply o
    | .cursorGet _ key _ flags => c.reply (c.moved o key flags)
    | .load p _ => p
    | call => replyCode 0 call
  next o
    | .cursor _ _ => none
    | .cursorGet _ key _ flags => (c.moved o key flags).or o
    | _ => o

section

variable (o : Option P) (dbh : Option DbHandle) (x : Option TxnHandle) (k : CursorHandle)
  (key val : Dbt Bytes) (flags : Int) (p : Bytes) (len : Nat)

@[simp] theorem reply_cursor : c.server.reply o (.cursor dbh x) = (0, 0) := rfl
@[simp] theorem next_cursor : c.server.next o (.cursor dbh x) = none := rfl
@[simp] theorem reply_cursorGet :
    c.server.reply o (.cursorGet k key val flags) = c.reply (c.moved o key flags) := rfl
@[simp] theorem next_cursorGet :
    c.server.next o (.cursorGet k key val flags) = (c.moved o key flags).or o := rfl
@[simp] theorem reply_cursorClose : c.server.reply o (.cursorClose k) = (0 : Int) := rfl
@[simp] theorem next_cursorClose : c.server.next o (.cursorClose k) = o := rfl
@[simp] theorem reply_load : c.server.reply o (.load p len) = p := rfl
@[simp] theorem next_load : c.server.next o (.load p len) = o := rfl

end

/-- The element of the result array for the record at a position. -/
def record (i : Nat) (p : P) : CursorRecord := { pos := i, key := c.key p, value := c.value p }

end Content

/-! ## The walk against a content -/

/-- The bytes of the records read so far. -/
def EIODbBaton.read (b : EIODbBaton Bytes) : List (Bytes × Bytes) :=
  b.records.map fun r => (r.1.dbt.data.bytes, r.2.dbt.data.bytes)

theorem push_read (s : CursorLocals Bytes) (flags : Int) (pair : DbtPtr Bytes × DbtPtr Bytes)
    (bytes : Bytes × Bytes) : (s.push flags pair bytes).2.baton.read = s.baton.read ++ [bytes] := by
  simp [EIODbBaton.read, CursorLocals.push, CursorLocals.allocPair, EIODbBaton.pushRecord]

section

variable (c : Content P)

/-- What the loop adds to the records where it may take `left` more. -/
structure Read (c : Content P) (left : Nat) (rest : Seq P) (s s' : CursorLocals Bytes) : Prop where
  read : s'.baton.read = s.baton.read ++ (rest.take left).map fun p => (c.key p, c.value p)
  rc : s'.rc = if (rest.take left).length < left then dbNotfound else 0
  cursor : s'.cursor = s.cursor

/-- The induction is on the records the limit still allows. -/
theorem walk_read (k : CursorHandle) (left : Nat) (p : P) (pair : DbtPtr Bytes × DbtPtr Bytes)
    (s : CursorLocals Bytes) (hl : (s.baton.limit - s.i).toNat = left) (h0 : s.rc = 0) :
    ∃ o s', c.server.serve (some p) (walk k pair s) = (o, s') ∧
      Read c left (c.after s.baton.flags (c.step s.baton.flags p)) s s' := by
  induction left generalizing p pair s with
  | zero =>
    rw [walk, if_neg (by omega)]
    exact ⟨_, _, rfl, by simp, h0, rfl⟩
  | succ left ih =>
    rw [walk, if_pos (by omega), serve_call]
    have hmoved : c.moved (some p) pair.1.dbt s.baton.flags = c.step s.baton.flags p := rfl
    rw [Content.reply_cursorGet, Content.next_cursorGet, hmoved]
    cases hq : c.step s.baton.flags p with
    | none =>
      refine ⟨_, _, rfl, ?_, ?_, rfl⟩
      · simp [EIODbBaton.read]
      · simp [Content.reply, dbNotfound]
    | some q =>
      have hl' : (s.baton.limit - (s.i + 1)).toNat = left := by omega
      obtain ⟨o, s', hs, hread⟩ := ih q
        (({ s with i := s.i + 1, rc := 0 } : CursorLocals Bytes).push s.baton.flags pair
          (c.key q, c.value q)).1
        (({ s with i := s.i + 1, rc := 0 } : CursorLocals Bytes).push s.baton.flags pair
          (c.key q, c.value q)).2 hl' rfl
      refine ⟨o, s', hs, ?_, ?_, hread.cursor⟩
      · rw [hread.read, push_read, Content.after_some, Seq.take_succ_cons, List.map_cons,
          List.append_assoc]
        rfl
      · rw [hread.rc, Content.after_some, Seq.take_succ_cons, List.length_cons]
        simp only [Nat.add_lt_add_iff_right]
        rfl

theorem cursorError_serve (k : CursorHandle) (o : Option P) (s : CursorLocals Bytes)
    (hk : s.cursor = some k) :
    c.server.serve o (cursorError s) = (o, { s.setStatus 0 with cursor := none }) := by
  simp only [cursorError, hk]
  rfl

/-- From the positioning get to the close, on a cursor that has just been opened. -/
theorem positionAndWalk_read (k : CursorHandle) (key : Bytes) (pair : DbtPtr Bytes × DbtPtr Bytes)
    (s : CursorLocals Bytes) (hk : s.baton.key = buffer key) (hc : s.cursor = some k) (hi : s.i = 1) :
    ∃ o s₁, c.server.serve none (positionAndWalk k pair s) =
        (o, { s₁.setStatus 0 with cursor := none }) ∧
      Read c (max s.baton.limit 1).toNat (c.walk s.baton.initFlag key s.baton.flags) s s₁ := by
  have hmax : (max s.baton.limit 1).toNat = (s.baton.limit - 1).toNat + 1 := by omega
  have hmoved : c.moved none ((s.storeKey pair.1 key).1.dbt) s.baton.initFlag =
    c.position s.baton.initFlag key := rfl
  have hflag : (s.storeKey pair.1 key).2.baton.initFlag = s.baton.initFlag := rfl
  simp only [positionAndWalk, CursorLocals.copyKey, hk, buffer, Data.contents, Prog.pure_eq,
    Prog.call_bind, Prog.ret_bind, serve_call, Content.reply_load, Content.next_load,
    Content.reply_cursorGet, Content.next_cursorGet, hflag, hmoved, hmax, Content.walk]
  cases hp : c.position s.baton.initFlag key with
  | none =>
    rw [if_pos (by simp [Content.reply, dbNotfound]), cursorError_serve c k _ _ (by exact hc)]
    refine ⟨none, _, rfl, ?_, ?_, ?_⟩
    · simp [EIODbBaton.read, CursorLocals.setStatus, CursorLocals.storeKey]
    · simp [CursorLocals.setStatus, Content.reply]
    · rfl
  | some p =>
    rw [if_neg (by simp [Content.reply]), serve_bind]
    obtain ⟨o, s₁, hs, hread⟩ := walk_read c k (s.baton.limit - 1).toNat p
      (({ (s.storeKey pair.1 key).2 with rc := 0 } : CursorLocals Bytes).push s.baton.initFlag
        ((s.storeKey pair.1 key).1, pair.2) (c.key p, c.value p)).1
      (({ (s.storeKey pair.1 key).2 with rc := 0 } : CursorLocals Bytes).push s.baton.initFlag
        ((s.storeKey pair.1 key).1, pair.2) (c.key p, c.value p)).2 (by rw [← hi]; rfl) rfl
    refine ⟨o, s₁, ?_, ?_, ?_, hread.cursor⟩
    · exact (congrArg (fun r => c.server.serve r.1 (cursorError r.2)) hs).trans
        (cursorError_serve c k o s₁ (hread.cursor.trans hc))
    · rw [hread.read, push_read, Content.after_some, Seq.take_succ_cons, List.map_cons,
        List.append_assoc]
      rfl
    · rw [hread.rc, Content.after_some, Seq.take_succ_cons, List.length_cons]
      simp only [Nat.add_lt_add_iff_right]
      rfl

theorem cursorGetBody_read (dbObj : Db) (x : Option TxnHandle) (o : Option P) (key : Bytes)
    (b : EIODbBaton Bytes) (hk : b.key = buffer key) :
    ∃ o' s', c.server.serve o (cursorGetBody dbObj x { baton := b }) = (o', s') ∧
      s'.baton.status = 0 ∧ Read c (max b.limit 1).toNat (c.walk b.initFlag key b.flags)
        { baton := b } s' := by
  simp only [cursorGetBody, Prog.call_bind, Prog.ret_bind, serve_call, Content.reply_cursor,
    Content.next_cursor, ne_eq, not_true_eq_false, ↓reduceIte]
  obtain ⟨o', s₁, hs, hread⟩ := positionAndWalk_read c 0 key
    ({ baton := b, cursor := some 0 } : CursorLocals Bytes).allocPair.1
    ({ baton := b, cursor := some 0 } : CursorLocals Bytes).allocPair.2 hk rfl rfl
  exact ⟨o', _, hs, rfl, hread.read, hread.rc, rfl⟩

/-- Around the body, the macro pair leaves the status and the records as they are. -/
theorem cursorGet_read (dbObj : Db) (key : Bytes) (b : EIODbBaton Bytes) (hk : b.key = buffer key) :
    ∃ s', (c.server.serve none (txn dbObj CursorLocals.statusVar (cursorGetBody dbObj)
        { baton := b })).2 = s' ∧
      s'.baton.status = 0 ∧ Read c (max b.limit 1).toNat (c.walk b.initFlag key b.flags)
        { baton := b } s' := by
  cases ht : dbObj._transactional with
  | false =>
    obtain ⟨o', s', hs, h0, hread⟩ := cursorGetBody_read c dbObj none none key b hk
    rw [serve_txn_plain c.server _ ht, hs]
    exact ⟨s', rfl, h0, hread⟩
  | true =>
    obtain ⟨o', s', hs, h0, hread⟩ := cursorGetBody_read c dbObj (some 0) none key b hk
    have hstatus : CursorLocals.statusVar.get s' = 0 := h0
    have hserve := serve_txn_granted c.server CursorLocals.statusVar (m := none) ht rfl rfl hs
      (by rw [hstatus]; decide)
    rw [hserve, if_pos hstatus]
    exact ⟨s'.setStatus 0, rfl, rfl, hread.read, hread.rc, hread.cursor⟩

theorem addCursorRecords_read (n : Nat) (records : List (DbtPtr Bytes × DbtPtr Bytes)) :
    addCursorRecords n records =
      (records.map fun r => (r.1.dbt.data.bytes, r.2.dbt.data.bytes)).mapIdx fun i r =>
        { pos := n + i, key := r.1, value := r.2 } := by
  induction records generalizing n with
  | nil => rfl
  | cons r records ih =>
    rw [addCursorRecords, ih, List.map_cons, List.mapIdx_cons]
    simp [Nat.add_assoc, Nat.add_comm 1]

/-- What the request delivers: the first records of the walk, and whether there were fewer than
the limit asks for. -/
def Content.delivery (limit initFlag : Int) (key : Bytes) (flags : Int) : Delivery :=
  let records := (c.walk initFlag key flags).take (max limit 1).toNat
  let code := if records.length < (max limit 1).toNat then dbNotfound else 0
  { code := code, message := .dbStrerror code, array := some (records.mapIdx c.record) }

theorem delivery_array (limit initFlag : Int) (key : Bytes) (flags : Int) :
    (c.delivery limit initFlag key flags).array =
      some (((c.walk initFlag key flags).take (max limit 1).toNat).mapIdx c.record) := rfl

theorem delivery_code (limit initFlag : Int) (key : Bytes) (flags : Int) :
    (c.delivery limit initFlag key flags).code =
      if ((c.walk initFlag key flags).take (max limit 1).toNat).length < (max limit 1).toNat then
        dbNotfound
      else 0 := rfl

theorem cursorGet_delivery (dbObj : Db) (ho : dbObj._db ≠ none) (key : Bytes)
    (limit initFlag flags : Int) :
    (c.server.serve none ((Request.cursorGet (buffer key) limit initFlag flags).deliver dbObj)).2 =
      c.delivery limit initFlag key flags := by
  obtain ⟨s', hs, h0, hread⟩ := cursorGet_read c dbObj key
    { limit := limit, initFlag := initFlag, flags := flags, key := buffer key } rfl
  simp only [Request.deliver, Request.worker, eioCursorGet, ho, ↓reduceIte, Request.baton,
    Request.after, serve_bind, Prog.pure_eq, serve_ret]
  rw [hs]
  have hrc := hread.rc
  have harr : addCursorRecords 0 s'.baton.records =
      ((c.walk initFlag key flags).take (max limit 1).toNat).mapIdx c.record := by
    have hr : s'.baton.records.map (fun r => (r.1.dbt.data.bytes, r.2.dbt.data.bytes)) = _ := hread.read
    rw [addCursorRecords_read, hr]
    apply List.ext_getElem
    · simp [EIODbBaton.read]
    · intro i h h'
      simp [EIODbBaton.read, Content.record]
  by_cases hl : ((c.walk initFlag key flags).take (max limit 1).toNat).length < (max limit 1).toNat
  · rw [if_pos hl] at hrc
    simp [eioAfterCursorGet, cursorGetOut, Content.delivery, h0, hrc, harr, hl]
  · rw [if_neg hl] at hrc
    simp [eioAfterCursorGet, cursorGetOut, Content.delivery, h0, hrc, harr, hl, dbNotfound]

/-- What the array and the code say about a walk of which `n` records were asked for. -/
structure Reports (c : Content P) (walk : Seq P) (n : ℕ) (d : Delivery) (records : List CursorRecord) :
    Prop where
  array : d.array = some records
  length : (records.length : ℕ∞) = min (n : ℕ∞) walk.length'
  getElem : ∀ i p, walk.get? i = some p → i < n →
    records[i]? = some { pos := i, key := c.key p, value := c.value p }
  short : walk.length' < n → d.code = dbNotfound
  full : n ≤ walk.length' → d.code = 0

end

theorem length_take_eq (n : ℕ) (s : Seq P) : ((s.take n).length : ℕ∞) = min (n : ℕ∞) s.length' := by
  induction n generalizing s with
  | zero => simp
  | succ n ih =>
    cases s using Stream'.Seq.recOn with
    | nil => simp
    | cons p s =>
      rw [Seq.take_succ_cons, List.length_cons, Nat.cast_add_one, ih s, Seq.length'_cons,
        Nat.cast_add_one]
      exact (min_add_add_right (n : ℕ∞) s.length' 1).symm

/-- For every content, the array holds the first `max limit 1` records of the walk in walk order,
and the code says whether there were fewer. -/
theorem cursorGet_reports (c : Content P) (dbObj : Db) (ho : dbObj._db ≠ none) (key : Bytes)
    (limit initFlag flags : Int) :
    ∃ records, Reports c (c.walk initFlag key flags) (max limit 1).toNat
      (c.server.serve none
        ((Request.cursorGet (buffer key) limit initFlag flags).deliver dbObj)).2 records := by
  rw [cursorGet_delivery c dbObj ho]
  have hlen := length_take_eq (max limit 1).toNat (c.walk initFlag key flags)
  refine ⟨_, rfl, ?_, ?_, ?_, ?_⟩
  · rw [List.length_mapIdx, hlen]
  · intro i p hp hi
    simp [Seq.getElem?_take, hi, hp, Content.record]
  · intro hshort
    apply if_pos
    rw [← Nat.cast_lt (α := ℕ∞), hlen]
    exact min_lt_of_right_lt hshort
  · intro hfull
    apply if_neg
    rw [← Nat.cast_lt (α := ℕ∞), hlen, min_eq_left hfull]
    exact lt_irrefl _

/-- A cursor that always finds one more record. -/
def endless : Content Nat where
  key n := [n.toUInt8]
  value n := [n.toUInt8, n.toUInt8]
  position _ _ := some 0
  step _ n := some (n + 1)

theorem endless_reports :
    openDb._db ≠ none ∧ ∃ records, Reports endless (endless.walk 7 [] 16) (max (3 : Int) 1).toNat
      (endless.server.serve none ((Request.cursorGet (buffer []) 3 7 16).deliver openDb)).2 records :=
  ⟨by decide, cursorGet_reports endless openDb (by decide) [] 3 7 16⟩

end NodeBdb
