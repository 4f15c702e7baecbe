import NodeBdb.Success

/-!
# The two cursor walks

`EIO_CursorGet` and `CursorGetS` are two copies of one walk with different bookkeeping.
Against the same results they make the same calls and collect the same records; what
they report differs in one case only. When the positioning get finds nothing the
asynchronous walk reports the end of data, while `goto error` takes the synchronous one
past the line that would set `last`, and the close overwrites its code.
-/

namespace NodeBdb

open Interaction

variable {δ : Type}

/-- The results of the calls of a cursor walk: the n-th call of a kind gets the n-th result. -/
structure Results where
  txnBegin : Nat → Int × TxnHandle := fun _ => (0, 0)
  cursor : Nat → Int × CursorHandle := fun _ => (0, 0)
  cursorGet : Nat → Int × Bytes × Bytes
  cursorClose : Nat → Int := fun _ => 0
  commit : Nat → Int := fun _ => 0
  abort : Nat → Int := fun _ => 0

/-- How many calls of each kind have been answered. -/
structure Counts where
  txnBegin : Nat := 0
  cursor : Nat := 0
  cursorGet : Nat := 0
  cursorClose : Nat := 0
  commit : Nat := 0
  abort : Nat := 0
  deriving DecidableEq, Repr

/-- Caller memory reads as the bytes that name it; a walk makes no call but these. -/
def Results.server (R : Results) : Server (Call Bytes) Reply Counts where
  reply m
    | .txnBegin _ => R.txnBegin m.txnBegin
    | .cursor _ _ => R.cursor m.cursor
    | .cursorGet _ _ _ _ => R.cursorGet m.cursorGet
    | .cursorClose _ => R.cursorClose m.cursorClose
    | .commit _ => R.commit m.commit
    | .abort _ => R.abort m.abort
    | .load p _ => p
    | c => replyCode 0 c
  next m
    | .txnBegin _ => { m with txnBegin := m.txnBegin + 1 }
    | .cursor _ _ => { m with cursor := m.cursor + 1 }
    | .cursorGet _ _ _ _ => { m with cursorGet := m.cursorGet + 1 }
    | .cursorClose _ => { m with cursorClose := m.cursorClose + 1 }
    | .commit _ => { m with commit := m.commit + 1 }
    | .abort _ => { m with abort := m.abort + 1 }
    | _ => m

section

variable (R : Results) (m : Counts) (k : CursorHandle) (key val : Dbt Bytes) (flags : Int)
  (dbh : Option DbHandle) (x : Option TxnHandle)

@[simp] theorem Results.reply_cursor : R.server.reply m (.cursor dbh x) = R.cursor m.cursor := rfl
@[simp] theorem Results.next_cursor :
    R.server.next m (.cursor dbh x) = { m with cursor := m.cursor + 1 } := rfl
@[simp] theorem Results.reply_cursorGet :
    R.server.reply m (.cursorGet k key val flags) = R.cursorGet m.cursorGet := rfl
@[simp] theorem Results.next_cursorGet :
    R.server.next m (.cursorGet k key val flags) = { m with cursorGet := m.cursorGet + 1 } := rfl
@[simp] theorem Results.reply_cursorClose :
    R.server.reply m (.cursorClose k) = R.cursorClose m.cursorClose := rfl
@[simp] theorem Results.next_cursorClose :
    R.server.next m (.cursorClose k) = { m with cursorClose := m.cursorClose + 1 } := rfl

theorem serve_contents (d : Data Bytes) : ∃ v, R.server.serve m d.contents = (m, v) := by
  cases d <;> exact ⟨_, rfl⟩

end

/-- What the operation delivers against these results. -/
def Results.delivery (R : Results) (dbObj : Db) (op : Operation Bytes) : Delivery :=
  (R.server.serve {} (op.deliver dbObj)).2

structure Results.NoDeadlock (R : Results) : Prop where
  cursor : ∀ n, (R.cursor n).1 ≠ dbLockDeadlock
  cursorClose : ∀ n, R.cursorClose n ≠ dbLockDeadlock

/-- The positioning get, the first of the walk, finds nothing and every other call succeeds. -/
def Results.FoundNothing (R : Results) (dbObj : Db) : Prop :=
  (dbObj._transactional = true → (R.txnBegin 0).1 = 0 ∧ R.commit 0 = 0) ∧
    (R.cursor 0).1 = 0 ∧ (R.cursorGet 0).1 = dbNotfound ∧ R.cursorClose 0 = 0

/-! ## The walks side by side -/

/-- The two sets of locals before the label `error`. -/
structure Alike (s : CursorLocals Bytes) (s' : CursorSLocals Bytes) : Prop where
  cursor : s'.cursor = s.cursor
  rc : s'.rc = s.rc
  i : s'.i = s.i
  count : s'.count = s.baton.records.length
  arr : s'.arr = addCursorRecords 0 s.baton.records
  last : s'.last = false

theorem addCursorRecords_append (n : Nat) (records : List (DbtPtr δ × DbtPtr δ))
    (key val : DbtPtr δ) :
    addCursorRecords n (records ++ [(key, val)]) =
      addCursorRecords n records ++
        [{ pos := n + records.length, key := key.dbt.data.bytes, value := val.dbt.data.bytes }] := by
  induction records generalizing n with
  | nil => rfl
  | cons r records ih =>
    have h := ih (n + 1)
    simp only [List.cons_append, addCursorRecords, h, List.length_cons]
    rw [Nat.add_assoc, Nat.add_comm 1]

theorem Alike.push {s : CursorLocals Bytes} {s' : CursorSLocals Bytes} (h : Alike s s')
    (flags : Int) (pair : DbtPtr Bytes × DbtPtr Bytes) (bytes : Bytes × Bytes) :
    Alike (s.push flags pair bytes).2 (s'.addRecord bytes) where
  cursor := h.cursor
  rc := h.rc
  i := h.i
  count := by
    have hc := h.count
    simp only [CursorSLocals.addRecord, CursorLocals.push, CursorLocals.allocPair,
      EIODbBaton.pushRecord, List.length_append, List.length_singleton, hc]
  arr := by
    have hc := h.count
    have ha := h.arr
    simp only [CursorSLocals.addRecord, CursorLocals.push, CursorLocals.allocPair,
      EIODbBaton.pushRecord, addCursorRecords_append, receive_bytes, receiveKey_bytes, hc, ha, Nat.zero_add]
  last := h.last

/-- The loops make the same calls and stay alike. The induction is on the records the limit
still allows. -/
theorem walk_alike (R : Results) (k : CursorHandle) (left : Nat) (m : Counts)
    (pair : DbtPtr Bytes × DbtPtr Bytes) (s : CursorLocals Bytes) (s' : CursorSLocals Bytes)
    (hl : (s.baton.limit - s.i).toNat = left) (h : Alike s s') :
    ∃ n t t', R.server.serve m (walk k pair s) = ({ m with cursorGet := n }, t) ∧
      R.server.serve m (walkS k s.baton.limit s.baton.flags s') = ({ m with cursorGet := n }, t') ∧
      Alike t t' ∧ t.cursor = s.cursor := by
  induction left using Nat.strongRecOn generalizing m pair s s' with
  | ind left ih =>
    have hi := h.i
    rw [walk, walkS, hi]
    by_cases hlt : s.i < s.baton.limit
    · simp only [hlt, ↓reduceIte, serve_call, Results.reply_cursorGet, Results.next_cursorGet]
      by_cases hr : (R.cursorGet m.cursorGet).1 = 0
      · simp only [hr, ↓reduceIte]
        have hp : Alike { s with i := s.i + 1, rc := 0 } { s' with i := s.i + 1, rc := 0 } :=
          ⟨h.cursor, rfl, rfl, h.count, h.arr, h.last⟩
        obtain ⟨n, t, t', h₁, h₂, ht, hc⟩ := ih _ (by
          simp only [CursorLocals.push, CursorLocals.allocPair, EIODbBaton.pushRecord]
          omega) { m with cursorGet := m.cursorGet + 1 } _ _ _ rfl
            (hp.push s.baton.flags pair (R.cursorGet m.cursorGet).2)
        exact ⟨n, t, t', h₁, h₂, ht, hc⟩
      · simp only [hr, ↓reduceIte, serve_ret]
        exact ⟨m.cursorGet + 1, _, _, rfl, rfl, ⟨h.cursor, rfl, rfl, h.count, h.arr, h.last⟩, rfl⟩
    · simp only [hlt, ↓reduceIte, serve_ret]
      exact ⟨m.cursorGet, _, _, rfl, rfl, ⟨h.cursor, h.rc, rfl, h.count, h.arr, h.last⟩, rfl⟩

/-- The positioning get of this body finds nothing, and the close after it succeeds. -/
def Results.Missed (R : Results) (m : Counts) : Prop :=
  (R.cursor m.cursor).1 = 0 ∧ (R.cursorGet m.cursorGet).1 = dbNotfound ∧
    R.cursorClose m.cursorClose = 0

/-- The two sets of locals after the label `error`, with the status `c`. -/
structure Told (missed : Prop) (c : Int) (t : CursorLocals Bytes) (t' : CursorSLocals Bytes) : Prop where
  status : t.baton.status = c
  rc : t'.rc = c
  arr : t'.arr = addCursorRecords 0 t.baton.records
  last : c = 0 → (t'.last = true ↔ t.rc = dbNotfound ∧ ¬ missed)
  missed : missed → c = 0 ∧ t.rc = dbNotfound

/-- The loop and the label `error` after a positioning get that found a record. -/
theorem walk_told (R : Results) (k : CursorHandle) (m : Counts)
    (pair : DbtPtr Bytes × DbtPtr Bytes) (s : CursorLocals Bytes) (s' : CursorSLocals Bytes)
    (h : Alike s s') (hk : s.cursor = some k) :
    ∃ n t t', R.server.serve m (walk k pair s >>= cursorError) =
        ({ m with cursorGet := n, cursorClose := m.cursorClose + 1 }, t) ∧
      R.server.serve m (walkS k s.baton.limit s.baton.flags s' >>= fun s =>
          cursorSError (if s.rc = dbNotfound then { s with last := true } else s)) =
        ({ m with cursorGet := n, cursorClose := m.cursorClose + 1 }, t') ∧
      Told False (R.cursorClose m.cursorClose) t t' := by
  obtain ⟨n, t, t', h₁, h₂, ha, hc⟩ := walk_alike R k _ m pair s s' rfl h
  rw [hk] at hc
  have hc' : t'.cursor = some k := ha.cursor.trans hc
  have hrc := ha.rc
  have hl := ha.last
  rw [serve_bind, serve_bind, h₁, h₂]
  by_cases hn : t.rc = dbNotfound
  · simp only [cursorError, cursorSError, hrc, hn, ↓reduceIte, CursorLocals.setStatus, hc, hc',
      Prog.call_bind, Prog.ret_bind, Prog.pure_eq, serve_call, serve_ret]
    exact ⟨n, _, _, rfl, rfl, rfl, rfl, ha.arr, fun _ => by simp, False.elim⟩
  · simp only [cursorError, cursorSError, hrc, hn, ↓reduceIte, CursorLocals.setStatus, hc, hc',
      Prog.call_bind, Prog.ret_bind, Prog.pure_eq, serve_call, serve_ret]
    exact ⟨n, _, _, rfl, rfl, rfl, rfl, ha.arr, fun _ => by simp [hl, hn], False.elim⟩

theorem positionAndWalk_told (R : Results) (k : CursorHandle) (m : Counts)
    (pair : DbtPtr Bytes × DbtPtr Bytes) (key : Dbt Bytes) (s : CursorLocals Bytes)
    (s' : CursorSLocals Bytes) (h : Alike s s') (hk : s.cursor = some k) :
    ∃ n t t', R.server.serve m (positionAndWalk k pair s) =
        ({ m with cursorGet := n, cursorClose := m.cursorClose + 1 }, t) ∧
      R.server.serve m
          (positionAndWalkS k key s.baton.limit s.baton.initFlag s.baton.flags s') =
        ({ m with cursorGet := n, cursorClose := m.cursorClose + 1 }, t') ∧
      Told ((R.cursorGet m.cursorGet).1 = dbNotfound ∧ R.cursorClose m.cursorClose = 0)
        (R.cursorClose m.cursorClose) t t' := by
  obtain ⟨v, hv⟩ := serve_contents R m s.baton.key.data
  obtain ⟨v', hv'⟩ := serve_contents R m key.data
  simp only [positionAndWalk, positionAndWalkS, CursorLocals.copyKey, serve_bind, hv, hv',
    Prog.call_bind, Prog.ret_bind, Prog.pure_eq, serve_call, serve_ret, Results.reply_cursorGet,
    Results.next_cursorGet]
  have hk' : s'.cursor = some k := h.cursor.trans hk
  by_cases hr : (R.cursorGet m.cursorGet).1 = 0
  · simp only [hr, ne_eq, not_true_eq_false, ↓reduceIte]
    have hp : Alike { (s.storeKey pair.1 v).2 with rc := 0 } { s' with
        rc := 0, key := { data := .block s'.ledger.next v' }, val := {},
        ledger := s'.ledger.malloc } :=
      ⟨h.cursor, rfl, h.i, h.count, h.arr, h.last⟩
    obtain ⟨n, t, t', h₁, h₂, ht⟩ := walk_told R k { m with cursorGet := m.cursorGet + 1 } _ _ _
      (hp.push s.baton.initFlag ((s.storeKey pair.1 v).1, pair.2) (R.cursorGet m.cursorGet).2) hk
    refine ⟨n, t, t', h₁, h₂, ht.status, ht.rc, ht.arr, fun hc => ?_, fun hm => ?_⟩
    · rw [ht.last hc]
      simp [dbNotfound]
    · exact absurd hm.1 (by decide)
  · simp only [hr, ne_eq, not_false_eq_true, ↓reduceIte, cursorError, cursorSError,
      CursorLocals.setStatus, CursorLocals.storeKey, hk, hk', Prog.call_bind, Prog.ret_bind, Prog.pure_eq, serve_call,
      serve_ret]
    refine ⟨m.cursorGet + 1, _, _, rfl, rfl, rfl, rfl, h.arr, fun hc => ?_, fun hm => ⟨hm.2, hm.1⟩⟩
    have hl := h.last
    constructor
    · intro h; exact absurd (hl.symm.trans h) (by decide)
    · rintro ⟨hn, hm⟩; exact absurd ⟨hn, hc⟩ hm

/-- The bodies, from the locals each function starts with. The status at the end is the code of
the cursor open where that failed, and of the cursor close otherwise. -/
theorem cursorGetBody_told (R : Results) (m : Counts) (dbObj : Db) (x : Option TxnHandle)
    (key : Dbt Bytes) (b : EIODbBaton Bytes) (hb : b.records = []) :
    ∃ m' t t' c, R.server.serve m (cursorGetBody dbObj x { baton := b }) = (m', t) ∧
      R.server.serve m (cursorGetSBody dbObj key b.limit b.initFlag b.flags x {}) = (m', t') ∧
      m'.commit = m.commit ∧ (c = (R.cursor m.cursor).1 ∨ c = R.cursorClose m.cursorClose) ∧
      Told (R.Missed m) c t t' := by
  simp only [cursorGetBody, cursorGetSBody, Prog.call_bind, Prog.ret_bind, serve_call,
    Results.reply_cursor, Results.next_cursor]
  by_cases hr : (R.cursor m.cursor).1 = 0
  · simp only [hr, ne_eq, not_true_eq_false, ↓reduceIte]
    have h : Alike { baton := b, cursor := some (R.cursor m.cursor).2 : CursorLocals Bytes }.allocPair.2
        { cursor := some (R.cursor m.cursor).2 } :=
      ⟨rfl, rfl, rfl, by simp [CursorLocals.allocPair, hb], by simp [CursorLocals.allocPair, hb, addCursorRecords],
        rfl⟩
    obtain ⟨n, t, t', h₁, h₂, ht⟩ := positionAndWalk_told R (R.cursor m.cursor).2
      { m with cursor := m.cursor + 1 } _ key _ _ h rfl
    refine ⟨_, t, t', _, h₁, h₂, rfl, .inr rfl, ht.status, ht.rc, ht.arr, fun hc => ?_, fun hm => ?_⟩
    · rw [ht.last hc]
      simp [Results.Missed, hr]
    · exact ht.missed hm.2
  · simp only [hr, ne_eq, not_false_eq_true, ↓reduceIte, cursorError, cursorSError,
      CursorLocals.setStatus, Prog.pure_eq, serve_ret]
    refine ⟨_, _, _, _, rfl, rfl, rfl, .inl rfl, rfl, rfl, ?_, fun hc => absurd hc hr, fun hm => absurd hm.1 hr⟩
    simp [hb, addCursorRecords]

/-- A commit of both gives both the same code. -/
theorem Told.committed {missed : Prop} {t : CursorLocals Bytes} {t' : CursorSLocals Bytes}
    (h : Told missed 0 t t') (c : Int) :
    Told (missed ∧ c = 0) c (t.setStatus c) { t' with rc := c } where
  status := rfl
  rc := rfl
  arr := h.arr
  last hc := by
    have hl := h.last rfl
    simpa [CursorLocals.setStatus, hc] using hl
  missed hm := ⟨hm.2, (h.missed hm.1).2⟩

/-- After `TXN_END` the deliveries are equal but for the one case. -/
theorem Told.delivery {missed : Prop} {c : Int} {t : CursorLocals Bytes} {t' : CursorSLocals Bytes}
    (h : Told missed c t t') :
    eioAfterCursorGet (cursorGetOut t) = (cursorGetSOut t').result ↔ ¬ missed := by
  obtain ⟨hs, hrc, ha, hl, hm⟩ := h
  constructor
  · intro he hmiss
    obtain ⟨rfl, hn⟩ := hm hmiss
    have hlast : t'.last = false := by
      cases hb : t'.last with
      | false => rfl
      | true => exact absurd hmiss ((hl rfl).mp hb).2
    have hcode := congrArg Delivery.code he
    simp [eioAfterCursorGet, cursorGetOut, cursorGetSOut, CursorSLocals.result, hs, hrc, hn, hlast,
      dbNotfound] at hcode
  · intro hmiss
    by_cases hc : c = 0
    · subst hc
      have hl := hl rfl
      by_cases hn : t.rc = dbNotfound
      · have hlast : t'.last = true := hl.mpr ⟨hn, hmiss⟩
        simp [eioAfterCursorGet, cursorGetOut, cursorGetSOut, CursorSLocals.result, hs, hrc, hn, hlast, ha]
      · have hlast : t'.last = false := by
          cases hb : t'.last with
          | false => rfl
          | true => exact absurd (hl.mp hb).1 hn
        simp [eioAfterCursorGet, cursorGetOut, cursorGetSOut, CursorSLocals.result, hs, hrc, hn, hlast, ha]
    · simp [eioAfterCursorGet, cursorGetOut, cursorGetSOut, CursorSLocals.result, hs, hrc, hc, ha]

/-- Around the bodies, the macro pair makes both walks end alike. -/
theorem cursorGet_told (R : Results) (hR : R.NoDeadlock) (dbObj : Db) (key : Dbt Bytes)
    (b : EIODbBaton Bytes) (hb : b.records = []) (h0 : b.status = 0) :
    ∃ t t' c, (R.server.serve {} (txn dbObj CursorLocals.statusVar (cursorGetBody dbObj)
        { baton := b })).2 = t ∧
      (R.server.serve {} (txn dbObj CursorSLocals.statusVar
        (cursorGetSBody dbObj key b.limit b.initFlag b.flags) {})).2 = t' ∧
      Told (R.FoundNothing dbObj) c t t' := by
  cases ht : dbObj._transactional with
  | false =>
    obtain ⟨m', t, t', c, h₁, h₂, -, -, hm⟩ := cursorGetBody_told R {} dbObj none key b hb
    rw [serve_txn_plain R.server _ ht, serve_txn_plain R.server _ ht, h₁, h₂]
    have he : R.FoundNothing dbObj = R.Missed {} := by
      simp [Results.FoundNothing, Results.Missed, ht]
    rw [he]
    exact ⟨t, t', c, rfl, rfl, hm⟩
  | true =>
    by_cases hc : (R.txnBegin 0).1 = 0
    · obtain ⟨m', t, t', c, h₁, h₂, hcom, hcode, hm⟩ :=
        cursorGetBody_told R { txnBegin := 1 } dbObj (some (R.txnBegin 0).2) key b hb
      have hd : c ≠ dbLockDeadlock := by
        rcases hcode with rfl | rfl
        · exact hR.cursor _
        · exact hR.cursorClose _
      have hs := hm.status
      have hrc := hm.rc
      have e₁ := serve_txn_granted R.server CursorLocals.statusVar (m := {}) ht hc rfl h₁
        (by rwa [show CursorLocals.statusVar.get t = c from hs])
      have e₂ := serve_txn_granted R.server CursorSLocals.statusVar (m := {}) ht hc rfl h₂
        (by rwa [show CursorSLocals.statusVar.get t' = c from hrc])
      rw [show CursorLocals.statusVar.get t = c from hs] at e₁
      rw [show CursorSLocals.statusVar.get t' = c from hrc] at e₂
      by_cases h0 : c = 0
      · subst h0
        rw [if_pos rfl] at e₁ e₂
        rw [e₁, e₂]
        have hf : R.FoundNothing dbObj ↔ R.Missed { txnBegin := 1 } ∧ R.commit m'.commit = 0 := by
          simp only [Results.FoundNothing, Results.Missed, ht, hc, hcom, true_implies, true_and]
          tauto
        rw [propext hf]
        exact ⟨_, _, _, rfl, rfl, hm.committed (R.commit m'.commit)⟩
      · rw [if_neg h0] at e₁ e₂
        rw [e₁, e₂]
        refine ⟨t, t', c, rfl, rfl, hs, hrc, hm.arr, fun h => absurd h h0, fun hf => ?_⟩
        exact hm.missed ⟨hf.2.1, hf.2.2⟩
    · rw [serve_txn_refused R.server _ (m := {}) ht hc, serve_txn_refused R.server _ (m := {}) ht hc]
      refine ⟨_, _, 0, rfl, rfl, h0, rfl, by simp [hb, addCursorRecords], fun _ => ?_,
        fun h => absurd (h.1 ht).1 hc⟩
      simp [dbNotfound]

/-- `cursorGet` and `cursorGetSync` deliver the same exactly where the positioning get of a walk
without other faults does not come back with `DB_NOTFOUND`. -/
theorem cursorGet_agree_iff (dbObj : Db) (ho : dbObj._db ≠ none) (key : Dbt Bytes)
    (limit initFlag flags : Int) (R : Results) (hR : R.NoDeadlock) :
    R.delivery dbObj (.request (.cursorGet key limit initFlag flags)) =
        R.delivery dbObj (.direct (.cursorGetS key limit initFlag flags)) ↔
      ¬ R.FoundNothing dbObj := by
  obtain ⟨t, t', c, h₁, h₂, ht⟩ := cursorGet_told R hR dbObj key
    { limit := limit, initFlag := initFlag, flags := flags, key := key } rfl rfl
  simp only [Results.delivery, Operation.deliver, Request.deliver, Request.worker, eioCursorGet, ho,
    ↓reduceIte, Request.baton, Request.after, DirectCall.deliver, cursorGetS, serve_bind,
    Prog.pure_eq, serve_ret]
  rw [h₁, h₂]
  exact ht.delivery

/-- Two records, then the end of the data. -/
def twoRecords : Results where
  cursorGet n := if n < 2 then (0, [n.toUInt8], [7]) else (dbNotfound, [], [])

/-- A database with nothing at or after the key. -/
def noRecord : Results where
  cursorGet _ := (dbNotfound, [], [])

theorem twoRecords_agree :
    twoRecords.delivery openDb (.request (.cursorGet { data := .buffer [107] 1 } 100 27 16)) =
      twoRecords.delivery openDb (.direct (.cursorGetS { data := .buffer [107] 1 } 100 27 16)) := by
  refine (cursorGet_agree_iff openDb (by decide) _ _ _ _ twoRecords ⟨fun _ => ?_, fun _ => ?_⟩).mpr ?_
  · simp [twoRecords, dbLockDeadlock]
  · simp [twoRecords, dbLockDeadlock]
  · intro h; exact absurd h.2.2.1 (by decide)

/-- The asynchronous walk delivers `DB_NOTFOUND`, the synchronous one 0. -/
theorem noRecord_disagree :
    noRecord.NoDeadlock ∧
      (noRecord.delivery openDb
        (.request (.cursorGet { data := .buffer [107] 1 } 100 27 16))).code = dbNotfound ∧
      (noRecord.delivery openDb
        (.direct (.cursorGetS { data := .buffer [107] 1 } 100 27 16))).code = 0 ∧
      noRecord.delivery openDb (.request (.cursorGet { data := .buffer [107] 1 } 100 27 16)) ≠
        noRecord.delivery openDb (.direct (.cursorGetS { data := .buffer [107] 1 } 100 27 16)) :=
  ⟨⟨fun _ => by simp [noRecord, dbLockDeadlock], fun _ => by simp [noRecord, dbLockDeadlock]⟩,
    by decide +kernel, by decide +kernel, by decide +kernel⟩

end NodeBdb
