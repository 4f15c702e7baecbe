import NodeBdb.Isolation
import NodeBdb.AtomicObject
import NodeBdb.BtreeCursor

/-!
# One Db, all nine operations

Any number of operations on an open transactional Db, walks included, whose Berkeley DB
calls interleave in any order. Together they are an atomic object: each operation takes
effect at one moment between its invocation and its response, where its last transaction
ends. What the last attempt of a walk read is the first part of the page at that moment, and
all of it where no call failed; what aborted attempts had read stands before it.
-/

namespace NodeBdb

open Interaction Transition RangeLocks

/-! ## What an operation means -/

inductive Invocation where
  | request : KeyRequest → Invocation
  | getSync : (key : Bytes) → Invocation
  | putSync : (key val : Bytes) → Invocation
  | delSync : (key : Bytes) → Invocation
  | page : (sync : Bool) → (key : Bytes) → (limit initFlag flags : Int) → Invocation
  deriving DecidableEq, Repr

namespace Invocation

def operation : Invocation → Operation Bytes
  | request r => .request r.request
  | getSync key => .direct (.getS (buffer key) 0)
  | putSync key val => .direct (.putS (buffer key) (buffer val) 0)
  | delSync key => .direct (.delS (buffer key) 0)
  | page false key limit initFlag flags => .request (.cursorGet (buffer key) limit initFlag flags)
  | page true key limit initFlag flags => .direct (.cursorGetS (buffer key) limit initFlag flags)

/-- The request on one key that an operation amounts to. -/
def keyed : Invocation → Option KeyRequest
  | request r => some r
  | getSync key => some (.get key)
  | putSync key val => some (.put key val)
  | delSync key => some (.del key)
  | page .. => none

end Invocation

/-- What is delivered, and what the calls say about it that the client is not told: the records
that aborted attempts read, whether no call of the last attempt failed but for gets that found
nothing, and whether the last transaction was refused. -/
structure Result where
  delivery : Delivery
  before : List (Bytes × Bytes)
  sound : Bool
  refused : Bool
  deriving DecidableEq, Repr

/-- The result of an operation that made the calls `t`. -/
def Result.of (t : BdbTrace Bytes) (d : Delivery) : Result where
  delivery := d
  before := recordsOf (attemptsOf t).dropLast.flatten
  sound := decide (Faultless (lastAttempt t))
  refused := t.getLast?.any fun e => e.1.begins

/-- The code of a walk that read these records. The synchronous walk does not tell that it found
nothing to start from. -/
def pageCode (sync : Bool) (left : Nat) (rs : List (Bytes × Bytes)) : Int :=
  if rs.length < left + 1 ∧ (sync = true → rs ≠ []) then dbNotfound else 0

/-- The operation, done at once on the map `m`, comes to the result `r` and leaves `m'`. A refused
operation on a key is told that it succeeded; a page is complete where no call failed and no
attempt before had read a record. -/
inductive Invocation.Does (moves : Moves Int Bytes Bytes) (m : Contents) :
    Invocation → Result → Contents → Prop where
  | keyed {op : Invocation} {q : KeyRequest} {r : Result} {m' : Contents} : op.keyed = some q →
      Explains m q r.delivery m' → Does moves m op r m'
  | refused {op : Invocation} {q : KeyRequest} {r : Result} : op.keyed = some q →
      r.refused = true → r.delivery.code = 0 → Does moves m op r m
  | page {sync : Bool} {key : Bytes} {limit initFlag flags : Int} {r : Result}
      {rs : List (Bytes × Bytes)} : r.delivery.array = some (numbered 0 (r.before ++ rs)) →
      rs <+: moves.page initFlag flags key [] m (limit - 1).toNat →
      (r.sound = true → r.before = [] →
        rs = moves.page initFlag flags key [] m (limit - 1).toNat ∧
        r.delivery.code = pageCode sync (limit - 1).toNat rs) →
      Does moves m (.page sync key limit initFlag flags) r m

/-! ## Where an operation takes effect -/

section Closing

variable {moves : Moves Int Bytes Bytes} {dbObj : Db} {op : Invocation} {t : BdbTrace Bytes}
  {e : BdbEvent Bytes} {d : Delivery}

/-- An operation with its last call: it ends the transaction the worker is in, and what the
transaction did explains the result on any data on which it can be replayed; or no transaction
was begun. -/
inductive Closes (moves : Moves Int Bytes Bytes) (op : Invocation) (t : BdbTrace Bytes)
    (r : Result) : BdbEvent Bytes → Prop where
  | refused {env : Option EnvHandle} {c : Int} {x : TxnHandle} : c ≠ 0 →
      (∀ m, op.Does moves m r m) → Closes moves op t r ⟨.txnBegin env, (c, x)⟩
  | commit {a : Session} {c : Int} : session moves t = some a →
      (c = 0 → ∀ m, Replays m a.log → op.Does moves m r (replay m a.log)) →
      (Fault c → ∀ m, Replays m a.log → op.Does moves m r m) → Closes moves op t r ⟨.commit a.txn, c⟩
  | abort {a : Session} {c : Int} : session moves t = some a →
      (∀ m, Replays m a.log → op.Does moves m r m) → Closes moves op t r ⟨.abort a.txn, c⟩

theorem keyed_onKey {q : KeyRequest} (h : op.keyed = some q) : op.operation.onKey = true := by
  cases op with
  | request r => cases r <;> rfl
  | page => cases h
  | _ => rfl

/-- A synchronous method does on its key what the request does. -/
theorem keyed_outcome {q : KeyRequest} (h : op.keyed = some q) {x : Option TxnHandle}
    {b : BdbTrace Bytes} {c : Int} {v : Option Bytes} (ho : Outcome dbObj x op.operation b c v) :
    Outcome dbObj x (.request q.request) b c v := by
  cases op with
  | page => cases h
  | _ =>
    cases h
    exact ho

theorem regular_proper {b : BdbTrace Bytes} (hb : ∀ e ∈ b, e.1.onRecord = true)
    (h : ∀ e ∈ b, Regular e) : ∀ e ∈ b, Proper e := by
  intro e he
  have hreg := h e he
  have hrec := hb e he
  obtain ⟨c, r⟩ := e
  cases c <;> first | exact hreg | cases hrec

/-- Nothing has been called before the transaction is refused, so the status is still 0. -/
theorem refused_code (ht : dbObj._transactional = true) (ho : dbObj._db ≠ none)
    {op : Operation Bytes} {env : Option EnvHandle} {c : Int} {x : TxnHandle} (hc : c ≠ 0)
    (h : Runs (op.deliver dbObj) [⟨.txnBegin env, (c, x)⟩] d) : d.code = 0 := by
  obtain ⟨d', h0, hop⟩ := operation_opening ho op
  obtain ⟨k, hp, hrefused, -⟩ := hop.transactional ht
  rw [hp, runs_call] at h
  obtain ⟨r, t, he, hr⟩ := h
  cases he
  rw [hrefused (c, x) hc] at hr
  rw [hr.2]
  exact h0

theorem keyed_closes {q : KeyRequest} (hq : op.keyed = some q) (ht : dbObj._transactional = true)
    (ho : dbObj._db ≠ none) (hr : Runs (op.operation.deliver dbObj) (t ++ [e]) d)
    (hp : ∀ e' ∈ t ++ [e], Regular e') : Closes moves op t (.of (t ++ [e]) d) e := by
  have hend := (onKey_spec (keyed_onKey hq) (fun _ _ => ho) hr).transactional ht
  generalize hte : t ++ [e] = te at hend
  cases hend with
  | @refused p c x d hc hd =>
    obtain ⟨rfl, he⟩ := List.append_inj' hte rfl
    obtain rfl := List.singleton_inj.mp he
    refine .refused hc fun m => ?_
    by_cases hfirst : t = []
    · subst hfirst
      exact .refused hq rfl (refused_code ht ho hc hr)
    · apply Invocation.Does.keyed hq
      apply Explains.failed
      rw [show (Result.of _ d).delivery.code = d.code from rfl, hd hfirst]
      exact ⟨by decide, by decide, by decide⟩
  | @committed p b x d hout =>
    rw [← hte]
    rw [← List.cons_append, ← List.append_assoc] at hte
    obtain ⟨rfl, he⟩ := List.append_inj' hte rfl
    obtain rfl := List.singleton_inj.mp he
    have hout := keyed_outcome hq hout
    have hb := outcome_onRecord hout
    have hreg := regular_proper hb fun e he => hp e (by simp [he])
    have hs : session moves (p ++ ⟨.txnBegin dbObj._env, (0, x)⟩ :: b) = some
        { txn := x, log := (b.filterMap BdbEvent.access).map .ofPoint } := by
      rw [session_begun, records_session hb]
      rfl
    refine .commit hs (fun hc m hrep => ?_) (fun hf m _ => ?_)
    · rw [replays_ofPoint] at hrep
      rw [replay_ofPoint]
      exact .keyed hq (outcome_done hout hc hreg hrep)
    · exact .keyed hq (.failed hf)
  | @aborted p b x c d hout hc =>
    rw [← hte]
    rw [← List.cons_append, ← List.append_assoc] at hte
    obtain ⟨rfl, he⟩ := List.append_inj' hte rfl
    obtain rfl := List.singleton_inj.mp he
    have hout := keyed_outcome hq hout
    have hb := outcome_onRecord hout
    have hreg := regular_proper hb fun e he => hp e (by simp [he])
    have hs : session moves (p ++ ⟨.txnBegin dbObj._env, (0, x)⟩ :: b) = some
        { txn := x, log := (b.filterMap BdbEvent.access).map .ofPoint } := by
      rw [session_begun, records_session hb]
      rfl
    refine .abort hs fun m hrep => ?_
    rw [replays_ofPoint] at hrep
    exact .keyed hq (outcome_undone hout hc hreg hrep)

/-- How the result of a walk is made of the calls before its last `txn_begin` and those from it on. -/
theorem result_of_append (p b : BdbTrace Bytes) {e : BdbEvent Bytes} (he : e.1.begins = true)
    (hb : ∀ e' ∈ b, e'.1.begins = false) (d : Delivery) :
    (Result.of (p ++ e :: b) d).before = recordsOf p ∧
      ((Result.of (p ++ e :: b) d).sound = true ↔ Faultless (e :: b)) := by
  constructor
  · rw [Result.of, attemptsOf_append p he hb, List.dropLast_concat]
    exact congrArg recordsOf (List.flatten_splitBy _ p)
  · rw [Result.of, lastAttempt_append p he hb]
    exact decide_eq_true_iff

theorem page_ends {sync : Bool} {key : Bytes} {limit initFlag flags : Int}
    (ht : dbObj._transactional = true) (ho : dbObj._db ≠ none)
    (hr : Runs ((Invocation.page sync key limit initFlag flags).operation.deliver dbObj) t d) :
    PageEnds dbObj (buffer key) limit initFlag flags sync t d := by
  cases sync with
  | false => exact cursorGet_ends ht ho hr
  | true => exact cursorGetS_ends ht hr

/-- What the last attempt of a walk has read, on any data on which it can be replayed. -/
theorem LastPage.explains (sync : Bool) (moves : Moves Int Bytes Bytes) {key : Bytes}
    {limit initFlag flags : Int} {p b : BdbTrace Bytes} {x : TxnHandle} {left : Nat} {st : Int}
    {rs : List (Bytes × Bytes)} {rc : Int}
    (h : LastPage dbObj (buffer key) limit initFlag flags p x b left st rs rc d)
    (hreg : ∀ e ∈ b, Regular e) {r : Result} (hd : r.delivery = d) (hbefore : r.before = recordsOf p)
    (hsound : r.sound = true → Faultless b)
    (hcode : r.sound = true → recordsOf p = [] →
      d.code = if rc = dbNotfound ∧ (sync = true → rs ≠ []) then dbNotfound else 0) :
    ∃ looks, b.foldl (Session.next moves) (some { txn := x }) = some { txn := x, log := looks } ∧
      (∀ l ∈ looks, l.leaves = none) ∧ ∀ m, Replays m looks →
        (Invocation.page sync key limit initFlag flags).Does moves m r m := by
  obtain ⟨looks, hfold, hreads, hsees⟩ := h.paged.session moves hreg
  refine ⟨looks, hfold, hreads, fun m hrep => ?_⟩
  obtain ⟨hfirst, hall⟩ := hsees m hrep
  subst hd
  have harr : r.delivery.array = some (numbered 0 (r.before ++ rs)) := by
    rw [hbefore]
    exact h.array
  apply Invocation.Does.page harr
  · exact hfirst.trans (moves.page_mono h.left_le)
  · intro hs hnone
    rw [hbefore] at hnone
    obtain ⟨hrs, hend⟩ := hall (h.paged.ends (hsound hs))
    rw [h.first hnone] at hrs hend
    refine ⟨hrs, ?_⟩
    rw [hcode hs hnone, pageCode]
    simp only [hend]

theorem page_closes {sync : Bool} {key : Bytes} {limit initFlag flags : Int}
    (ht : dbObj._transactional = true) (ho : dbObj._db ≠ none)
    (hr : Runs ((Invocation.page sync key limit initFlag flags).operation.deliver dbObj)
      (t ++ [e]) d)
    (hp : ∀ e' ∈ t ++ [e], Regular e') :
    Closes moves (.page sync key limit initFlag flags) t (.of (t ++ [e]) d) e := by
  have hend := page_ends ht ho hr
  generalize hte : t ++ [e] = te at hend hp
  cases hend with
  | @refused p c x d hc harr =>
    obtain ⟨-, he⟩ := List.append_inj' hte rfl
    obtain rfl := List.singleton_inj.mp he
    obtain ⟨hbefore, hsound⟩ := result_of_append p [] (e := ⟨.txnBegin dbObj._env, (c, x)⟩) rfl
      (by simp) d
    have hread : (Result.of (p ++ [⟨.txnBegin dbObj._env, (c, x)⟩]) d).delivery.array = some (numbered 0
        ((Result.of (p ++ [⟨.txnBegin dbObj._env, (c, x)⟩]) d).before ++ [])) := by
      rw [hbefore, List.append_nil]
      exact harr
    refine .refused hc fun m => .page hread List.nil_prefix fun hs => ?_
    exact absurd ((hsound.mp hs).zero (e := ⟨.txnBegin dbObj._env, (c, x)⟩) (by simp) rfl) hc
  | @committed p b x c left rs rc d hpage hcode =>
    obtain ⟨hbefore, hsound⟩ := result_of_append p (b ++ [⟨.commit x, c⟩])
      (e := ⟨.txnBegin dbObj._env, (0, x)⟩) rfl (begins_once hpage.paged.begins rfl) d
    obtain ⟨looks, hfold, hreads, hdoes⟩ := hpage.explains sync moves
      (fun e he => hp e (by simp [he])) rfl hbefore
      (fun hs e he => hsound.mp hs e (by simp [he]))
      (fun hs => hcode ((hsound.mp hs).zero (e := ⟨.commit x, c⟩) (by simp) rfl))
    have hcut := hte
    rw [← List.cons_append, ← List.append_assoc] at hcut
    obtain ⟨rfl, he⟩ := List.append_inj' hcut rfl
    obtain rfl := List.singleton_inj.mp he
    have hs := (session_begun dbObj._env x p b).trans hfold
    refine .commit hs (fun _ m hrep => ?_) (fun _ m hrep => hdoes m hrep)
    rw [replay_reads hreads]
    exact hdoes m hrep
  | @aborted p b x c left st rs rc d hne hpage =>
    obtain ⟨hbefore, hsound⟩ := result_of_append p (b ++ [⟨.abort x, c⟩])
      (e := ⟨.txnBegin dbObj._env, (0, x)⟩) rfl (begins_once hpage.paged.begins rfl) d
    have hfault : (Result.of (p ++ ⟨.txnBegin dbObj._env, (0, x)⟩ :: (b ++ [⟨.abort x, c⟩])) d).sound ≠
        true := by
      intro hs
      exact hne (hpage.paged.status_zero fun e he => hsound.mp hs e (by simp [he]))
    obtain ⟨looks, hfold, hreads, hdoes⟩ := hpage.explains sync moves
      (fun e he => hp e (by simp [he])) rfl hbefore (fun hs => absurd hs hfault)
      (fun hs => absurd hs hfault)
    have hcut := hte
    rw [← List.cons_append, ← List.append_assoc] at hcut
    obtain ⟨rfl, he⟩ := List.append_inj' hcut rfl
    obtain rfl := List.singleton_inj.mp he
    have hs := (session_begun dbObj._env x p b).trans hfold
    exact .abort hs hdoes

end Closing

/-! ## The system -/

/-- A worker, or the main thread inside a synchronous method: the program it has left, and what
it has called so far. -/
structure Worker where
  op : Invocation
  prog : BdbProg Bytes Delivery
  calls : BdbTrace Bytes := []
  responded : Bool := false

def Worker.result (w : Worker) (d : Delivery) : Result := .of w.calls d

structure Service where
  engine : Engine
  workers : List Worker := []

def Service.initial (m : Contents) : Service := { engine := .initial m }

inductive ServiceEvent where
  | invoke : (i : Nat) → Invocation → ServiceEvent
  | bdb : (i : Nat) → BdbEvent Bytes → ServiceEvent
  | respond : (i : Nat) → Result → ServiceEvent

open AtomicObject in
def ServiceEvent.visible : ServiceEvent → Option (Visible Nat Invocation Result)
  | invoke i op => some (.invoke i op)
  | bdb _ _ => none
  | respond i r => some (.respond i r)

/-- Every call of every operation is a step of its own. The main thread waits for a synchronous
method to return, so it does less than it may do here. -/
inductive Service.Step (moves : Moves Int Bytes Bytes) (dbObj : Db) :
    Service → ServiceEvent → Service → Prop where
  | invoke {s : Service} (op : Invocation) :
      Step moves dbObj s (.invoke s.workers.length op)
        { s with workers := s.workers ++ [{ op := op, prog := op.operation.deliver dbObj }] }
  | bdb {s : Service} {i : Nat} {w : Worker} {c : Call Bytes} {k : Reply c → BdbProg Bytes Delivery}
      {r : Reply c} {engine : Engine} :
      s.workers[i]? = some w → w.prog = .call c k → s.engine.Step moves ⟨c, r⟩ engine →
      Step moves dbObj s (.bdb i ⟨c, r⟩)
        { engine := engine
          workers := s.workers.set i { w with prog := k r, calls := w.calls ++ [⟨c, r⟩] } }
  | respond {s : Service} {i : Nat} {w : Worker} {d : Delivery} :
      s.workers[i]? = some w → w.prog = .ret d → w.responded = false →
      Step moves dbObj s (.respond i (w.result d))
        { s with workers := s.workers.set i { w with responded := true } }

/-! ## It is an atomic object -/

/-- What the worker of operation `i` has called. -/
def Service.calls (s : Service) (i : Nat) : BdbTrace Bytes := (s.workers[i]?.map Worker.calls).getD []

open AtomicObject in
def Worker.stage (w : Worker) : Stage Invocation Result :=
  if w.responded then .responded
  else
    match w.prog with
    | .ret d => .done w.op (w.result d)
    | .call _ _ => .invoked w.op

/-- The simulation relation. -/
structure Service.Matches (moves : Moves Int Bytes Bytes) (dbObj : Db) (s : Service)
    (o : AtomicObject.Object Nat Invocation Result Contents) : Prop where
  state : o.state = s.engine.store.data
  stage : ∀ (i : Nat) (w : Worker), s.workers[i]? = some w → o.stage i = w.stage
  idle : ∀ i, s.workers.length ≤ i → o.stage i = .idle
  reaches : ∀ (i : Nat) (w : Worker), s.workers[i]? = some w → Reaches (w.op.operation.deliver dbObj) w.calls w.prog
  regular : ∀ (i : Nat) (w : Worker), s.workers[i]? = some w → ∀ e ∈ w.calls, Regular e
  returned : ∀ (i : Nat) (w : Worker), s.workers[i]? = some w → w.responded = true → ∃ d, w.prog = .ret d
  holds : s.engine.Holds moves s.calls
  inv : s.engine.store.Inv

section Simulation

variable {moves : Moves Int Bytes Bytes} {dbObj : Db} {s : Service}
  {o : AtomicObject.Object Nat Invocation Result Contents}

theorem closes_does {op : Invocation} {t : BdbTrace Bytes} {r : Result} {e : BdbEvent Bytes}
    {s s' : Engine} (h : Closes moves op t r e) (hs : s.store.Inv)
    (hheld : ∀ a, session moves t = some a → s.store.active a.txn = some a.log)
    (hstep : s.Step moves e s') : op.Does moves s.store.data r s'.store.data := by
  cases h with
  | refused hc hdoes =>
    cases hstep with
    | refused => exact hdoes s.store.data
    | txnBegin => exact absurd rfl hc
    | access hx => cases hx
    | fault hx => cases hx
  | @commit a c hsess hdone hfault =>
    have hactive := hheld a hsess
    cases hstep with
    | access hx => cases hx
    | fault hx => cases hx
    | commit =>
      have hdo := hdone rfl s.store.data (hs.replays _ _ hactive)
      simpa [RangeLocks.Store.commit, hactive] using hdo
    | commitFailed hx hf => exact hfault hf s.store.data (hs.replays _ _ hactive)
  | @abort a c hsess hdone =>
    have hactive := hheld a hsess
    cases hstep with
    | access hx => cases hx
    | fault hx => cases hx
    | abort => exact hdone s.store.data (hs.replays _ _ hactive)

theorem invocation_closes (moves : Moves Int Bytes Bytes) (ht : dbObj._transactional = true) (ho : dbObj._db ≠ none)
    {op : Invocation} {t : BdbTrace Bytes} {e : BdbEvent Bytes} {d : Delivery}
    (hr : Runs (op.operation.deliver dbObj) (t ++ [e]) d) (hp : ∀ e' ∈ t ++ [e], Regular e') :
    Closes moves op t (.of (t ++ [e]) d) e := by
  cases op with
  | page sync key limit initFlag flags => exact page_closes ht ho hr hp
  | _ => exact keyed_closes rfl ht ho hr hp

/-- A call that is not an operation's last does not commit. -/
theorem inner_call_keeps (ht : dbObj._transactional = true) {op : Invocation} {t : BdbTrace Bytes}
    {e : BdbEvent Bytes} {c : Call Bytes} {k : Reply c → BdbProg Bytes Delivery}
    (h : Reaches (op.operation.deliver dbObj) (t ++ [e]) (.call c k)) {s s' : Engine}
    (hstep : s.Step moves e s') : s'.store.data = s.store.data := by
  cases hstep with
  | commit hx =>
    obtain ⟨m, ha, hm⟩ := (operation_obeys ht op.operation).reaches h (answered _ _)
    obtain ⟨m₁, -, hc⟩ := ha.split
    have hcommitted : m.committed = true := by
      rw [hc.2]
      rfl
    rw [admits_committed hm.1] at hcommitted
    cases hcommitted
  | _ => rfl

theorem invocation_calls (ht : dbObj._transactional = true) (ho : dbObj._db ≠ none)
    (op : Invocation) : ∃ c k, op.operation.deliver dbObj = .call c k := by
  obtain ⟨d, -, hop⟩ := operation_opening ho op.operation
  obtain ⟨k, hk, -⟩ := hop.transactional ht
  exact ⟨_, k, hk⟩

theorem calls_invoke (s : Service) (w : Worker) (hw : w.calls = []) :
    ({ s with workers := s.workers ++ [w] } : Service).calls = s.calls := by
  funext i
  by_cases hi : i < s.workers.length
  · simp [Service.calls, List.getElem?_append_left hi]
  · by_cases he : i = s.workers.length
    · subst he
      simp [Service.calls, hw]
    · have hle : s.workers.length + 1 ≤ i := by omega
      rw [Service.calls, Service.calls, List.getElem?_eq_none (by simpa using hle),
        List.getElem?_eq_none (by omega)]

theorem calls_set {i : Nat} {w w' : Worker} (hi : s.workers[i]? = some w) (engine : Engine) :
    ({ engine := engine, workers := s.workers.set i w' } : Service).calls =
      Function.update s.calls i w'.calls := by
  funext j
  by_cases hj : j = i
  · subst hj
    rw [Function.update_self, Service.calls, Table.set_self hi]
    rfl
  · rw [Function.update_of_ne hj, Service.calls, Table.set_other hj]
    rfl

theorem stage_put {i j : Nat} {stage : AtomicObject.Stage Invocation Result} (h : j ≠ i) :
    (o.put i stage).stage j = o.stage j := Function.update_of_ne h _ _

theorem Service.Matches.invoke (ht : dbObj._transactional = true) (ho : dbObj._db ≠ none)
    (h : s.Matches moves dbObj o) (op : Invocation) :
    Service.Matches moves dbObj
      { s with workers := s.workers ++ [{ op := op, prog := op.operation.deliver dbObj }] }
      (o.put s.workers.length (.invoked op)) := by
  obtain ⟨c, k, hprog⟩ := invocation_calls ht ho op
  constructor
  · exact h.state
  · intro i w hw
    cases Table.get_append hw with
    | inl hnew =>
      obtain ⟨rfl, rfl⟩ := hnew
      simp [Worker.stage, hprog, AtomicObject.Object.put]
    | inr hold =>
      rw [stage_put (by omega)]
      exact h.stage i w hold.2
  · intro i hi
    simp only [List.length_append, List.length_singleton] at hi
    rw [stage_put (by omega)]
    exact h.idle i (by omega)
  · intro i w hw
    cases Table.get_append hw with
    | inl hnew =>
      obtain ⟨rfl, rfl⟩ := hnew
      exact .refl _
    | inr hold => exact h.reaches i w hold.2
  · intro i w hw
    cases Table.get_append hw with
    | inl hnew =>
      obtain ⟨rfl, rfl⟩ := hnew
      intro e he
      cases he
    | inr hold => exact h.regular i w hold.2
  · intro i w hw hr
    cases Table.get_append hw with
    | inl hnew =>
      obtain ⟨rfl, rfl⟩ := hnew
      cases hr
    | inr hold => exact h.returned i w hold.2 hr
  · rw [calls_invoke s _ rfl]
    exact h.holds
  · exact h.inv

theorem Service.Matches.respond (h : s.Matches moves dbObj o) {i : Nat} {w : Worker} {d : Delivery}
    (hi : s.workers[i]? = some w) (hd : w.prog = .ret d) :
    Service.Matches moves dbObj { s with workers := s.workers.set i { w with responded := true } }
      (o.put i .responded) := by
  constructor
  · exact h.state
  · intro j u hu
    cases Table.get_set hi hu with
    | inl hself =>
      obtain ⟨rfl, rfl⟩ := hself
      simp [Worker.stage, AtomicObject.Object.put]
    | inr hother =>
      rw [stage_put hother.1]
      exact h.stage j u hother.2
  · intro j hj
    have hlt := (List.getElem?_eq_some_iff.mp hi).1
    rw [List.length_set] at hj
    rw [stage_put (by omega)]
    exact h.idle j hj
  · intro j u hu
    cases Table.get_set hi hu with
    | inl hself =>
      obtain ⟨rfl, rfl⟩ := hself
      exact h.reaches j w hi
    | inr hother => exact h.reaches j u hother.2
  · intro j u hu
    cases Table.get_set hi hu with
    | inl hself =>
      obtain ⟨rfl, rfl⟩ := hself
      exact h.regular j w hi
    | inr hother => exact h.regular j u hother.2
  · intro j u hu hr
    cases Table.get_set hi hu with
    | inl hself =>
      obtain ⟨rfl, rfl⟩ := hself
      exact ⟨d, hd⟩
    | inr hother => exact h.returned j u hother.2 hr
  · have hsame : Function.update s.calls i w.calls = s.calls := by
      rw [Function.update_eq_self_iff, Service.calls, hi]
      rfl
    rw [calls_set hi, hsame]
    exact h.holds
  · exact h.inv

theorem Service.calls_worker {i : Nat} {w : Worker} (hi : s.workers[i]? = some w) :
    s.calls i = w.calls := by
  rw [Service.calls, hi]
  rfl

/-- The next call of a worker is one that the discipline admits, where its session stands. -/
theorem Service.Matches.admitted (ht : dbObj._transactional = true) (h : s.Matches moves dbObj o)
    {i : Nat} {w : Worker} {c : Call Bytes} {k : Reply c → BdbProg Bytes Delivery}
    (hi : s.workers[i]? = some w) (hc : w.prog = .call c k) :
    ∃ m, Session.Agrees (session moves (s.calls i)) m ∧ discipline.admits m c := by
  have hreach : Reaches (w.op.operation.deliver dbObj) w.calls (.call c k) := hc ▸ h.reaches i w hi
  obtain ⟨m, ha, hm⟩ := (operation_obeys ht w.op.operation).reaches hreach (answered _ _)
  rw [s.calls_worker hi]
  exact ⟨m, session_agrees (a := none) ha ⟨rfl, rfl⟩, hm.1⟩

/-- A call of a worker, beside what the object does: nothing, or the effect of the operation. -/
theorem Service.Matches.bdb (ht : dbObj._transactional = true) (h : s.Matches moves dbObj o)
    {i : Nat} {w : Worker} {c : Call Bytes} {k : Reply c → BdbProg Bytes Delivery} {r : Reply c}
    {engine : Engine} (hi : s.workers[i]? = some w) (hc : w.prog = .call c k)
    (hstep : s.engine.Step moves ⟨c, r⟩ engine)
    {o' : AtomicObject.Object Nat Invocation Result Contents} (hstate : o'.state = engine.store.data)
    (hstage : o'.stage i = Worker.stage { w with prog := k r, calls := w.calls ++ [⟨c, r⟩] })
    (hothers : ∀ j, j ≠ i → o'.stage j = o.stage j) :
    Service.Matches moves dbObj
      { engine := engine
        workers := s.workers.set i { w with prog := k r, calls := w.calls ++ [⟨c, r⟩] } } o' := by
  have hreach : Reaches (w.op.operation.deliver dbObj) w.calls (.call c k) := hc ▸ h.reaches i w hi
  have hown := s.calls_worker hi
  constructor
  · exact hstate
  · intro j u hu
    cases Table.get_set hi hu with
    | inl hself =>
      obtain ⟨rfl, rfl⟩ := hself
      exact hstage
    | inr hother =>
      rw [hothers j hother.1]
      exact h.stage j u hother.2
  · intro j hj
    have hlt := (List.getElem?_eq_some_iff.mp hi).1
    rw [List.length_set] at hj
    rw [hothers j (by omega)]
    exact h.idle j hj
  · intro j u hu
    cases Table.get_set hi hu with
    | inl hself =>
      obtain ⟨rfl, rfl⟩ := hself
      exact hreach.snoc r
    | inr hother => exact h.reaches j u hother.2
  · intro j u hu
    cases Table.get_set hi hu with
    | inl hself =>
      obtain ⟨rfl, rfl⟩ := hself
      intro e he
      cases List.mem_append.mp he with
      | inl he => exact h.regular j w hi e he
      | inr he =>
        rw [List.mem_singleton.mp he]
        exact hstep.regular
    | inr hother => exact h.regular j u hother.2
  · intro j u hu hr
    cases Table.get_set hi hu with
    | inl hself =>
      obtain ⟨rfl, rfl⟩ := hself
      obtain ⟨d, hd⟩ := h.returned j w hi hr
      rw [hc] at hd
      cases hd
    | inr hother => exact h.returned j u hother.2 hr
  · obtain ⟨m, hag, hm⟩ := h.admitted ht hi hc
    rw [calls_set hi, ← hown]
    exact h.holds.step hm hag hstep
  · exact hstep.inv h.inv

/-- The engine answers a worker through to the end. -/
theorem service_runs {t : BdbTrace Bytes} {d : Delivery} {v : Service} {i : Nat} {w : Worker}
    {engine : Engine} (hw : v.workers[i]? = some w) (hr : Runs w.prog t d)
    (hp : Path (Engine.Step moves) v.engine t engine) :
    Path (Service.Step moves dbObj) v (t.map (.bdb i))
      { engine := engine
        workers := v.workers.set i { w with prog := .ret d, calls := w.calls ++ t } } := by
  induction t generalizing v w with
  | nil =>
    obtain rfl := hp.unchanged
    obtain ⟨hlt, hwi⟩ := List.getElem?_eq_some_iff.mp hw
    have hsame : v.workers.set i w = v.workers := by
      rw [← hwi]
      exact List.set_getElem_self hlt
    rw [← runs_nil hr, List.append_nil, hsame]
    exact .nil
  | cons e t ih =>
    obtain ⟨c, r⟩ := e
    obtain ⟨k, hk, hrest⟩ := runs_cons hr
    obtain ⟨engine₁, hstep, hpath⟩ := hp.first
    have hone : Service.Step moves dbObj v (.bdb i ⟨c, r⟩)
        { engine := engine₁
          workers := v.workers.set i { w with prog := k r, calls := w.calls ++ [⟨c, r⟩] } } :=
      .bdb hw hk hstep
    have hmore := (Path.nil.snoc hone).append (ih (Table.set_self hw) hrest hpath)
    simpa using hmore

/-- The service does what an atomic object does. -/
theorem service_matches (moves : Moves Int Bytes Bytes) (ht : dbObj._transactional = true)
    (ho : dbObj._db ≠ none) {m : Contents} {es : List ServiceEvent}
    (h : Path (Service.Step moves dbObj) (Service.initial m) es s) :
    ∃ o effects, s.Matches moves dbObj o ∧
      AtomicObject.Linearizes (Invocation.Does moves) m (es.filterMap ServiceEvent.visible) o.state
        effects := by
  apply AtomicObject.linearizes_of_simulation ServiceEvent.visible
    (fun _ s o => Service.Matches moves dbObj s o) ?_ ?_ h
  · refine ⟨rfl, ?_, fun _ _ => rfl, ?_, ?_, ?_, ?_, RangeLocks.Store.inv_initial m⟩
    · intro i w hw
      cases hw
    · intro i w hw
      cases hw
    · intro i w hw
      cases hw
    · intro i w hw
      cases hw
    · refine ⟨?_, ?_, ?_⟩
      · intro i a ha
        cases ha
      · intro i a k pos ha
        cases ha
      · intro i j a b _ ha
        cases ha
  · intro es s o e s' hmatch hstep
    cases hstep with
    | invoke op =>
      refine ⟨[.invoke s.workers.length op], _, ?_, rfl, hmatch.invoke ht ho op⟩
      exact Path.nil.snoc (.invoke op (hmatch.idle _ (Nat.le_refl _)))
    | @respond i w d hi hd hr =>
      refine ⟨[.respond i (w.result d)], _, ?_, rfl, hmatch.respond hi hd⟩
      have hdone : o.stage i = .done w.op (w.result d) := by
        rw [hmatch.stage i w hi]
        simp [Worker.stage, hr, hd]
      exact Path.nil.snoc (.respond hdone)
    | @bdb i w c k r engine hi hc hstep =>
      have hreach : Reaches (w.op.operation.deliver dbObj) w.calls (.call c k) :=
        hc ▸ hmatch.reaches i w hi
      have hnext := hreach.snoc r
      have hresponded : w.responded = false := by
        cases hr : w.responded with
        | false => rfl
        | true =>
          obtain ⟨d, hd⟩ := hmatch.returned i w hi hr
          rw [hc] at hd
          cases hd
      have hstage : o.stage i = .invoked w.op := by
        rw [hmatch.stage i w hi]
        simp [Worker.stage, hresponded, hc]
      cases hk : k r with
      | ret d =>
        rw [hk] at hnext
        have hown := s.calls_worker hi
        have hregular : ∀ e ∈ w.calls ++ [⟨c, r⟩], Regular e := by
          intro e he
          cases List.mem_append.mp he with
          | inl he => exact hmatch.regular i w hi e he
          | inr he =>
            rw [List.mem_singleton.mp he]
            exact hstep.regular
        have hcloses := invocation_closes moves ht ho (reaches_ret hnext) hregular
        have hdoes := closes_does hcloses hmatch.inv
          (fun a ha => hmatch.holds.active i a (hown ▸ ha)) hstep
        rw [← hmatch.state] at hdoes
        refine ⟨[.effect i], _, Path.nil.snoc (.effect hstage hdoes), rfl, ?_⟩
        refine hk ▸ hmatch.bdb ht hi hc hstep rfl ?_ fun j hj => stage_put hj
        simp [Worker.stage, Worker.result, hresponded, hk, AtomicObject.Object.put]
      | call c' k' =>
        rw [hk] at hnext
        refine ⟨[], o, .nil, rfl, hk ▸ hmatch.bdb ht hi hc hstep ?_ ?_ fun _ _ => rfl⟩
        · rw [hmatch.state, inner_call_keeps ht hnext hstep]
        · rw [hstage]
          simp [Worker.stage, hresponded, hk]

end Simulation

/-- Every history of any number of operations on an open transactional Db is linearizable. -/
theorem service_linearizable (moves : Moves Int Bytes Bytes) (dbObj : Db)
    (ht : dbObj._transactional = true) (ho : dbObj._db ≠ none) (m : Contents)
    (es : List ServiceEvent) (s : Service)
    (h : Path (Service.Step moves dbObj) (Service.initial m) es s) :
    ∃ effects, AtomicObject.Linearizes (Invocation.Does moves) m (es.filterMap ServiceEvent.visible)
      s.engine.store.data effects := by
  obtain ⟨o, effects, hmatch, hl⟩ := service_matches moves ht ho h
  rw [hmatch.state] at hl
  exact ⟨effects, hl⟩

/-- A synchronous page of one record. -/
def firstPage : Invocation := .page true [] 1 dbFirst dbNext

def firstPageDelivery : Delivery :=
  { code := 0, message := .dbStrerror 0, array := some [⟨0, [107], [118]⟩] }

def firstPageCalls : BdbTrace Bytes :=
  [⟨.txnBegin (some 0), (0, 8)⟩, ⟨.cursor (some 1) (some 8), (0, 3)⟩, ⟨.load [] 0, []⟩,
   ⟨.cursorGet 3 { data := .block 0 [] } {} dbFirst, (0, ([107], [118]))⟩,
   ⟨.cursorClose 3, (0 : Int)⟩, ⟨.commit 8, (0 : Int)⟩]

theorem firstPage_runs :
    Runs (firstPage.operation.deliver openDb) firstPageCalls firstPageDelivery := by
  have hfull : ∀ (k : CursorHandle) (f : Int) (s : CursorSLocals Bytes), s.i = 1 →
      walkS k 1 f s = .ret { s with i := s.i + 1 } := by
    intro k f s hi
    rw [walkS, if_neg (by omega)]
  simp [firstPage, firstPageCalls, Invocation.operation, Operation.deliver, DirectCall.deliver,
    cursorGetS, openDb, txn, again, cursorGetSBody, positionAndWalkS, hfull, buffer, Data.contents,
    CursorSLocals.statusVar, CursorSLocals.addRecord, cursorSError, cursorGetSOut,
    firstPageDelivery, CursorSLocals.result, dbNotfound]

/-- Only `v` under `k`. -/
def onlyK : Btree := { records := [([107], [118])], sorted := List.pairwise_singleton _ _ }

theorem firstPage_answered :
    ∃ s, Path (Engine.Step btreeMoves) (.initial onlyK.contents) firstPageCalls s := by
  have hbegin : Engine.Step btreeMoves (.initial onlyK.contents) ⟨.txnBegin (some 0), (0, 8)⟩ _ :=
    .txnBegin rfl
  have hopen := (Path.nil.snoc hbegin).snoc (show Engine.Step btreeMoves _
    ⟨.cursor (some 1) (some 8), (0, 3)⟩ _ from .opened (by simp [RangeLocks.Store.begin]) rfl)
  have hload := hopen.snoc (show Engine.Step btreeMoves _ ⟨.load [] 0, []⟩ _ from .load)
  have hnext : btreeMoves.next dbFirst none [] onlyK.contents = some ([107], [118]) := by
    apply (first_some bytes_trichotomous).mpr
    exact Holds.isFirst bytes_asymm (show Holds ([] ++ onlyK.records) onlyK.contents from onlyK.holds)
      (by simp) (Set.mem_univ _)
  have hfound := hload.snoc (show Engine.Step btreeMoves _
      ⟨.cursorGet 3 { data := .block 0 [] } {} dbFirst, (0, ([107], [118]))⟩ _ from
    .found (x := 8) rfl ⟨[], Store.put_active_self _ _ _, hnext, fun y log' hy hlog => by
      simp [Engine.place, Engine.initial, RangeLocks.Store.begin, RangeLocks.Store.put, hy] at hlog⟩)
  have hclose := hfound.snoc (.closed (k := 3) (c := 0) (by simp [Engine.place]) (.inl rfl))
  exact ⟨_, hclose.snoc (.commit (x := 8) (by
    simp [RangeLocks.Store.record, RangeLocks.Store.begin, Engine.place]))⟩

/-- Two pages at a time, of which one comes to its end. -/
def pageRun : List ServiceEvent :=
  [.invoke 0 firstPage, .invoke 1 firstPage] ++ firstPageCalls.map (.bdb 0) ++
    [.respond 0 (.of firstPageCalls firstPageDelivery)]

theorem pageRun_path :
    ∃ s, Path (Service.Step btreeMoves openDb) (Service.initial onlyK.contents) pageRun s := by
  obtain ⟨engine, hengine⟩ := firstPage_answered
  have hfirst : Service.Step btreeMoves openDb (Service.initial onlyK.contents) (.invoke 0 firstPage) _ :=
    .invoke firstPage
  have hs := (Path.nil.snoc hfirst).snoc (.invoke firstPage)
  have hcalls := hs.append (service_runs (i := 0) rfl firstPage_runs hengine)
  exact ⟨_, hcalls.snoc (.respond (i := 0)
    (w := { op := firstPage, prog := .ret firstPageDelivery, calls := firstPageCalls }) rfl rfl rfl)⟩

theorem pageRun_linearizable :
    ∃ s, Path (Service.Step btreeMoves openDb) (Service.initial onlyK.contents) pageRun s ∧
      ∃ effects, AtomicObject.Linearizes (Invocation.Does btreeMoves) onlyK.contents
        (pageRun.filterMap ServiceEvent.visible) s.engine.store.data effects := by
  obtain ⟨s, h⟩ := pageRun_path
  exact ⟨s, h, service_linearizable btreeMoves openDb rfl (by decide) _ pageRun s h⟩

end NodeBdb
