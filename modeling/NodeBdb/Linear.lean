import NodeBdb.Discipline
import NodeBdb.TwoPhase
import NodeBdb.Transition
import NodeBdb.Table

/-!
# Linearizability of the key-value requests

Any number of get, put, putIf and del requests on one transactional Db, each run by a
worker whose Berkeley DB calls interleave with all others. The environment follows
strict two-phase locking. A request takes effect where its last transaction ends: there
its log replays on the committed data, so the order of those ends explains every result.
-/

namespace NodeBdb

open Interaction Transition TwoPhase

/-! ## Requests and their meaning on a plain map -/

inductive KeyRequest where
  | get : (key : Bytes) → KeyRequest
  | put : (key val : Bytes) → KeyRequest
  | putIf : (key val oldVal : Bytes) → KeyRequest
  | del : (key : Bytes) → KeyRequest
  deriving DecidableEq, Repr

def KeyRequest.request : KeyRequest → Request Bytes
  | get key => .get (buffer key) 0
  | put key val => .put (buffer key) (buffer val) 0
  | putIf key val oldVal => .putIf (buffer key) (buffer val) (buffer oldVal) 0
  | del key => .del (buffer key) 0

/-- A code that says the call was not done: a deadlock, or any other fault. -/
def Fault (c : Int) : Prop := c ≠ 0 ∧ c ≠ dbNotfound ∧ c ≠ consistencyError

/-- The request, done at once on the map `m`, delivers `d` and leaves `m'`. -/
inductive Explains (m : Bytes → Option Bytes) :
    KeyRequest → Delivery → (Bytes → Option Bytes) → Prop where
  | got {key v : Bytes} {d : Delivery} :
      m key = some v → d.code = 0 → d.value = some v → Explains m (.get key) d m
  | getMissing {key : Bytes} {d : Delivery} :
      m key = none → d.code = dbNotfound → Explains m (.get key) d m
  | put {key val : Bytes} {d : Delivery} :
      d.code = 0 → Explains m (.put key val) d (Function.update m key (some val))
  | putIf {key val oldVal : Bytes} {d : Delivery} : m key = some oldVal → d.code = 0 →
      Explains m (.putIf key val oldVal) d (Function.update m key (some val))
  | putIfOther {key val oldVal v : Bytes} {d : Delivery} : m key = some v → v ≠ oldVal →
      d.code = consistencyError → Explains m (.putIf key val oldVal) d m
  | putIfMissing {key val oldVal : Bytes} {d : Delivery} : m key = none → d.code = dbNotfound →
      Explains m (.putIf key val oldVal) d m
  | del {key : Bytes} {d : Delivery} :
      m key ≠ none → d.code = 0 → Explains m (.del key) d (Function.update m key none)
  | delMissing {key : Bytes} {d : Delivery} :
      m key = none → d.code = dbNotfound → Explains m (.del key) d m
  | failed {r : KeyRequest} {d : Delivery} : Fault d.code → Explains m r d m

/-- A request with its place in the order of submission and what it delivers. -/
structure Effect where
  id : Nat
  request : KeyRequest
  delivery : Delivery

/-- The effects, one after another from `m`, explain their deliveries and lead to `m'`. -/
inductive ExplainsAll (m : Bytes → Option Bytes) : List Effect → (Bytes → Option Bytes) → Prop where
  | nil : ExplainsAll m [] m
  | snoc {effects : List Effect} {e : Effect} {m₁ m₂ : Bytes → Option Bytes} :
      ExplainsAll m effects m₁ → Explains m₁ e.request e.delivery m₂ →
      ExplainsAll m (effects ++ [e]) m₂

/-! ## The environment -/

abbrev TxnStore := Store Bytes Bytes TxnHandle

/-- The transaction under which an event of a get, put or del with flags 0 was made. -/
def BdbEvent.onData : BdbEvent Bytes → Option TxnHandle
  | ⟨.get _ x _ _ flags, _⟩ => if flags = 0 then x else none
  | ⟨.put _ x _ _ flags, _⟩ => if flags = 0 then x else none
  | ⟨.del _ x _ flags, _⟩ => if flags = 0 then x else none
  | _ => none

/-- The access a get, put or del makes when it returns 0 or `DB_NOTFOUND`. -/
def BdbEvent.access : BdbEvent Bytes → Option (Access Bytes Bytes)
  | ⟨.get _ _ key _ _, (c, v)⟩ =>
    if c = 0 then some { key := key.input, sees := (· = some v) }
    else if c = dbNotfound then some { key := key.input, sees := (· = none) }
    else none
  | ⟨.put _ _ key val _, c⟩ =>
    if c = 0 then some { key := key.input, leaves := some (some val.input) } else none
  | ⟨.del _ _ key _, c⟩ =>
    if c = 0 then some { key := key.input, sees := (· ≠ none), leaves := some none }
    else if c = dbNotfound then some { key := key.input, sees := (· = none) }
    else none
  | _ => none

/-- What Berkeley DB may answer: `txn_begin` succeeds with a handle that is not in use, an
access is granted under the locking rule or refused with a fault, and a commit that fails
leaves no trace. -/
inductive Responds (s : TxnStore) : BdbEvent Bytes → TxnStore → Prop where
  | txnBegin {env : Option EnvHandle} {x : TxnHandle} :
      s.active x = none → Responds s ⟨.txnBegin env, (0, x)⟩ (s.begin x)
  | access {e : BdbEvent Bytes} {x : TxnHandle} {a : Access Bytes Bytes} :
      e.onData = some x → e.access = some a → s.Grants x a → Responds s e (s.record x a)
  | fault {e : BdbEvent Bytes} {x : TxnHandle} :
      e.onData = some x → s.active x ≠ none → Fault e.code → Responds s e s
  | commit {x : TxnHandle} : s.active x ≠ none → Responds s ⟨.commit x, 0⟩ (s.commit x)
  | commitFailed {x : TxnHandle} {c : Int} :
      s.active x ≠ none → Fault c → Responds s ⟨.commit x, c⟩ (s.discard x)
  | abort {x : TxnHandle} {c : Int} :
      s.active x ≠ none → Responds s ⟨.abort x, c⟩ (s.discard x)
  | load {p : Bytes} {len : Nat} : Responds s ⟨.load p len, p⟩ s

/-! ## The system -/

/-- A request: what its worker has left to do, and whether its callback has run. -/
structure Thread where
  request : KeyRequest
  prog : BdbProg Bytes Delivery
  called : Bool := false

structure Workers where
  store : TxnStore
  threads : List Thread := []

inductive WorkersEvent where
  | submit : KeyRequest → WorkersEvent
  | bdb : (i : Nat) → BdbEvent Bytes → WorkersEvent
  | callback : (i : Nat) → Delivery → WorkersEvent

/-- A step of the main thread or of a worker. A submission from inside a callback is a
submission right after it. -/
inductive Workers.Step (dbObj : Db) : Workers → WorkersEvent → Workers → Prop where
  | submit {s : Workers} (r : KeyRequest) :
      Step dbObj s (.submit r)
        { s with threads := s.threads ++ [{ request := r, prog := r.request.deliver dbObj }] }
  | bdb {s : Workers} {i : Nat} {th : Thread} {c : Call Bytes} {k : Reply c → BdbProg Bytes Delivery}
      {r : Reply c} {store : TxnStore} :
      s.threads[i]? = some th → th.prog = .call c k → Responds s.store ⟨c, r⟩ store →
      Step dbObj s (.bdb i ⟨c, r⟩)
        { store := store, threads := s.threads.set i { th with prog := k r } }
  | callback {s : Workers} {i : Nat} {th : Thread} {d : Delivery} :
      s.threads[i]? = some th → th.prog = .ret d → th.called = false →
      Step dbObj s (.callback i d)
        { s with threads := s.threads.set i { th with called := true } }

/-- The requests in the order of their submission. -/
def submissions (es : List WorkersEvent) : List KeyRequest :=
  es.filterMap fun
    | .submit r => some r
    | _ => none

/-- The calls the worker of request `i` made. -/
def callsOf (i : Nat) (es : List WorkersEvent) : BdbTrace Bytes :=
  es.filterMap fun
    | .bdb j e => if j = i then some e else none
    | _ => none

/-! ## The attempt a worker is in -/

/-- A live transaction and the accesses made under it. -/
abbrev Attempt := TxnHandle × List (Access Bytes Bytes)

def Attempt.next (a : Option Attempt) : BdbEvent Bytes → Option Attempt
  | ⟨.txnBegin _, r⟩ => if r.1 = 0 then some (r.2, []) else a
  | ⟨.commit _, _⟩ => none
  | ⟨.abort _, _⟩ => none
  | e => a.map fun p => (p.1, p.2 ++ e.access.toList)

def attempt (t : BdbTrace Bytes) : Option Attempt := t.foldl Attempt.next none

@[simp] theorem attempt_nil : attempt [] = none := rfl
@[simp] theorem attempt_append (t : BdbTrace Bytes) (e : BdbEvent Bytes) :
    attempt (t ++ [e]) = Attempt.next (attempt t) e := by
  simp [attempt]

theorem next_live_attempt {a : Option Attempt} {m : Handles} (h : a.map Prod.fst = m.live)
    (e : BdbEvent Bytes) : (Attempt.next a e).map Prod.fst = (discipline.next m e.1 e.2).live := by
  obtain ⟨c, r⟩ := e
  cases c with
  | txnBegin env => simp only [Attempt.next, discipline]; split <;> simp [h]
  | commit => rfl
  | abort => rfl
  | cursor => simp only [Attempt.next, discipline]; split <;> simpa [Function.comp_def] using h
  | _ => simpa [Attempt.next, discipline, Function.comp_def] using h

/-- The attempt's transaction is the one the discipline holds live. -/
theorem attempt_live {a : Option Attempt} {m m' : Handles} {t : BdbTrace Bytes}
    (h : discipline.Accepts m t m') (ha : a.map Prod.fst = m.live) :
    (t.foldl Attempt.next a).map Prod.fst = m'.live := by
  induction t generalizing a m with
  | nil => cases h; exact ha
  | cons e t ih => exact ih h.2 (next_live_attempt ha e)

/-- The next call of a worker is one the discipline admits after what it has done so far. -/
theorem thread_admits {dbObj : Db} (ht : dbObj._transactional = true) {r : KeyRequest}
    {t : BdbTrace Bytes} {c : Call Bytes} {k : Reply c → BdbProg Bytes Delivery}
    (h : Reaches (r.request.deliver dbObj) t (.call c k)) :
    ∃ m, discipline.admits m c ∧ (attempt t).map Prod.fst = m.live := by
  obtain ⟨m, ha, hm⟩ := (operation_obeys ht (.request r.request)).reaches h (answered _ _)
  exact ⟨m, hm.1, attempt_live ha rfl⟩

/-- What a worker's reply may be, as far as the request is concerned. -/
def Proper : BdbEvent Bytes → Prop
  | ⟨.txnBegin _, r⟩ => r.1 = 0
  | ⟨.commit _, c⟩ => c = 0 ∨ Fault c
  | ⟨.load p _, v⟩ => v = p
  | ⟨.abort _, _⟩ => True
  | e => e.access ≠ none ∨ Fault e.code

theorem responds_proper {s s' : TxnStore} {e : BdbEvent Bytes} (h : Responds s e s') : Proper e := by
  cases h with
  | txnBegin => rfl
  | @access e x a hx ha hg =>
    obtain ⟨c, r⟩ := e
    cases c <;> first | cases hx | exact .inl (by simp [ha])
  | @fault e x hx hs hf =>
    obtain ⟨c, r⟩ := e
    cases c <;> first | cases hx | exact .inr hf
  | commit => exact .inl rfl
  | commitFailed hs hf => exact .inr hf
  | abort => trivial
  | load => rfl

/-- A call on the data that made no access met a fault. -/
theorem ungranted_fault {e : BdbEvent Bytes} (hp : e.access ≠ none ∨ Fault e.code)
    (hn : e.access = none) : Fault e.code := hp.resolve_left fun h => h hn

/-- How the store holds the attempts of the workers, whose calls so far are `calls i`. -/
structure Linked (s : TxnStore) (calls : Nat → BdbTrace Bytes) : Prop where
  held : ∀ i x log, attempt (calls i) = some (x, log) → s.active x = some log
  apart : ∀ i j x y log log', i ≠ j → attempt (calls i) = some (x, log) →
    attempt (calls j) = some (y, log') → x ≠ y

theorem onData_uses {e : BdbEvent Bytes} {x : TxnHandle} (h : e.onData = some x) :
    UsesTxn x e.1 := by
  obtain ⟨c, r⟩ := e
  cases c with
  | get _ y _ _ flags =>
    simp only [BdbEvent.onData] at h
    split at h
    · exact h
    · cases h
  | put _ y _ _ flags =>
    simp only [BdbEvent.onData] at h
    split at h
    · exact h
    · cases h
  | del _ y _ flags =>
    simp only [BdbEvent.onData] at h
    split at h
    · exact h
    · cases h
  | _ => cases h

theorem next_onData {a : Option Attempt} {e : BdbEvent Bytes} {x : TxnHandle}
    (h : e.onData = some x) : Attempt.next a e = a.map fun p => (p.1, p.2 ++ e.access.toList) := by
  obtain ⟨c, r⟩ := e
  cases c <;> first | cases h | rfl

theorem fault_access {e : BdbEvent Bytes} {x : TxnHandle} (h : e.onData = some x)
    (hf : Fault e.code) : e.access = none := by
  obtain ⟨c, r⟩ := e
  obtain ⟨h0, hn, -⟩ := hf
  cases c with
  | get => simp only [BdbEvent.code] at h0 hn; simp [BdbEvent.access, h0, hn]
  | put => simp only [BdbEvent.code] at h0; simp [BdbEvent.access, h0]
  | del => simp only [BdbEvent.code] at h0 hn; simp [BdbEvent.access, h0, hn]
  | _ => cases h

section Linked

variable {s s' : TxnStore} {calls : Nat → BdbTrace Bytes} {i : Nat} {t : BdbTrace Bytes}

/-- The worker's own entry is replaced in the store and in its attempt. -/
theorem Linked.replace (h : Linked s calls) {x : TxnHandle} {o : Option (List (Access Bytes Bytes))}
    (hx : ∀ j y log, j ≠ i → attempt (calls j) = some (y, log) → y ≠ x)
    (ht : attempt t = o.map (x, ·)) (hs : s'.active = Function.update s.active x o) :
    Linked s' (Function.update calls i t) where
  held j y log hj := by
    rw [hs]
    by_cases hji : j = i
    · subst hji
      rw [Function.update_self, ht] at hj
      obtain ⟨log', ho, he⟩ := Option.map_eq_some_iff.mp hj
      cases he
      rw [Function.update_self, ho]
    · rw [Function.update_of_ne hji] at hj
      rw [Function.update_of_ne (hx j y log hji hj)]
      exact h.held j y log hj
  apart j k y z log log' hjk hj hk := by
    by_cases hji : j = i
    · subst hji
      rw [Function.update_self, ht] at hj
      obtain ⟨log'', ho, he⟩ := Option.map_eq_some_iff.mp hj
      cases he
      rw [Function.update_of_ne hjk.symm] at hk
      exact (hx k z log' hjk.symm hk).symm
    · rw [Function.update_of_ne hji] at hj
      by_cases hki : k = i
      · subst hki
        rw [Function.update_self, ht] at hk
        obtain ⟨log'', ho, he⟩ := Option.map_eq_some_iff.mp hk
        cases he
        exact hx j y log hji hj
      · rw [Function.update_of_ne hki] at hk
        exact h.apart j k y z log log' hjk hj hk

theorem Linked.same (h : Linked s calls) (ht : attempt t = attempt (calls i)) :
    Linked s (Function.update calls i t) where
  held j x log hj := by
    by_cases hji : j = i
    · subst hji; rw [Function.update_self, ht] at hj; exact h.held j x log hj
    · rw [Function.update_of_ne hji] at hj; exact h.held j x log hj
  apart j k x y log log' hjk hj hk := by
    have he : ∀ j, attempt (Function.update calls i t j) = attempt (calls j) := by
      intro j
      by_cases hji : j = i
      · subst hji; rw [Function.update_self, ht]
      · rw [Function.update_of_ne hji]
    rw [he] at hj hk
    exact h.apart j k x y log log' hjk hj hk

/-- A reply to a call that the discipline admits keeps store and workers linked. -/
theorem Linked.step (h : Linked s calls) {e : BdbEvent Bytes} {m : Handles}
    (hm : discipline.admits m e.1) (hl : (attempt (calls i)).map Prod.fst = m.live)
    (hr : Responds s e s') : Linked s' (Function.update calls i (calls i ++ [e])) := by
  have hown : ∀ x, UsesTxn x e.1 → ∃ log, attempt (calls i) = some (x, log) := by
    intro x hx
    rw [admits_usesTxn hm hx] at hl
    obtain ⟨⟨y, log⟩, ha, rfl⟩ := Option.map_eq_some_iff.mp hl
    exact ⟨log, ha⟩
  have hothers : ∀ x log, attempt (calls i) = some (x, log) →
      ∀ j y log', j ≠ i → attempt (calls j) = some (y, log') → y ≠ x :=
    fun x log hi j y log' hj hy => h.apart j i y x log' log hj hy hi
  cases hr with
  | @txnBegin env x hx =>
    refine h.replace (x := x) (o := some []) ?_ (by simp [Attempt.next]) rfl
    rintro j y log hj hy rfl
    rw [h.held j y log hy] at hx
    cases hx
  | @access e x a hd ha hg =>
    obtain ⟨log, hi⟩ := hown x (onData_uses hd)
    refine h.replace (o := some (log ++ [a])) (hothers x log hi) ?_ ?_
    · rw [attempt_append, next_onData hd, hi, ha]; rfl
    · simp [Store.record, h.held i x log hi]
  | @fault e x hd hx hf =>
    refine h.same ?_
    rw [attempt_append, next_onData hd, fault_access hd hf]
    simp
  | @commit x hx =>
    obtain ⟨log, hi⟩ := hown x rfl
    exact h.replace (o := none) (hothers x log hi) (by simp [Attempt.next]) rfl
  | @commitFailed x c hx hf =>
    obtain ⟨log, hi⟩ := hown x rfl
    exact h.replace (o := none) (hothers x log hi) (by simp [Attempt.next]) rfl
  | @abort x c hx =>
    obtain ⟨log, hi⟩ := hown x rfl
    exact h.replace (o := none) (hothers x log hi) (by simp [Attempt.next]) rfl
  | load =>
    refine h.same ?_
    rw [attempt_append]
    simp [Attempt.next, BdbEvent.access]

end Linked

theorem responds_inv {s s' : TxnStore} {e : BdbEvent Bytes} (h : s.Inv) (hr : Responds s e s') :
    s'.Inv := by
  cases hr with
  | txnBegin hx => exact h.begin _
  | access hd ha hg => exact h.record hg
  | fault hd hx hf => exact h
  | commit hx =>
    obtain ⟨log, hlog⟩ := Option.ne_none_iff_exists'.mp hx
    exact h.commit hlog
  | commitFailed hx hf => exact h.discard _
  | abort hx => exact h.discard _
  | load => exact h

/-! ## Where a request takes effect -/

/-- The accesses of an attempt are those of the events since it began. -/
theorem attempt_body {env : Option EnvHandle} {x : TxnHandle} (p b : BdbTrace Bytes)
    (hb : ∀ e ∈ b, ¬ Boundary e.1) :
    attempt (p ++ ⟨.txnBegin env, (0, x)⟩ :: b) = some (x, b.filterMap BdbEvent.access) := by
  have hfold : ∀ log, b.foldl Attempt.next (some (x, log)) =
      some (x, log ++ b.filterMap BdbEvent.access) := by
    induction b with
    | nil => simp
    | cons e b ih =>
      intro log
      have he : Attempt.next (some (x, log)) e = some (x, log ++ (BdbEvent.access e).toList) := by
        have hne := hb e List.mem_cons_self
        obtain ⟨c, r⟩ := e
        cases c <;> first | exact absurd trivial hne | rfl
      rw [List.foldl_cons, he, ih fun e he => hb e (List.mem_cons_of_mem _ he)]
      cases hacc : BdbEvent.access e <;> simp [hacc]
  simp [attempt, Attempt.next, hfold]

section Outcomes

variable {dbObj : Db} {x : TxnHandle} {b : BdbTrace Bytes} {m : Bytes → Option Bytes}
  {r : KeyRequest} {d : Delivery}

/-- The four ways through the body of a putIf, with Buffers for its arguments. -/
theorem putIf_outcome {key val oldVal : Bytes} {c : Int} {value : Option Bytes}
    (h : Outcome dbObj (some x) (.request (KeyRequest.putIf key val oldVal).request) b c value) :
    ∃ dbt v, (c ≠ 0 ∧ b = [⟨.get dbObj._db (some x) (buffer key) dbt 0, (c, v)⟩]) ∨
      (c = consistencyError ∧ v.length ≠ oldVal.length ∧
        b = [⟨.get dbObj._db (some x) (buffer key) dbt 0, (0, v)⟩]) ∨
      (∃ w, c = consistencyError ∧ v ≠ w ∧
        b = [⟨.get dbObj._db (some x) (buffer key) dbt 0, (0, v)⟩, ⟨.load oldVal oldVal.length, w⟩]) ∨
      b = [⟨.get dbObj._db (some x) (buffer key) dbt 0, (0, v)⟩, ⟨.load oldVal oldVal.length, v⟩,
        ⟨.put dbObj._db (some x) (buffer key) (buffer val) 0, c⟩] := by
  obtain ⟨s, hk, hv, ho, hf, h⟩ := h
  cases h with
  | @missed c v hc => exact ⟨s.oldVal, v, .inl ⟨hc, by rw [hk]⟩⟩
  | @otherSize v hs =>
    rw [ho] at hs
    exact ⟨s.oldVal, v, .inr (.inl ⟨rfl, hs, by rw [hk]⟩)⟩
  | @otherBytes v w e hs he hw =>
    rw [ho] at he
    obtain ⟨w, t, rfl, rfl, rfl⟩ := he
    exact ⟨s.oldVal, v, .inr (.inr (.inl ⟨w, rfl, hw, by rw [hk]⟩))⟩
  | @put v e c hs he =>
    rw [ho] at he
    obtain ⟨w, t, rfl, rfl, rfl⟩ := he
    exact ⟨s.oldVal, v, .inr (.inr (.inr (by rw [hk, hv, hf]; rfl)))⟩

theorem outcome_no_boundary {c : Int} {v : Option Bytes}
    (h : Outcome dbObj (some x) (.request r.request) b c v) : ∀ e ∈ b, ¬ Boundary e.1 := by
  cases r with
  | get key => obtain ⟨val, v, rfl, hv⟩ := h; simp [Boundary]
  | put key val => obtain rfl := h; simp [Boundary]
  | putIf key val oldVal =>
    obtain ⟨dbt, v, ⟨-, rfl⟩ | ⟨-, -, rfl⟩ | ⟨w, -, -, rfl⟩ | rfl⟩ := putIf_outcome h <;>
      simp [Boundary]
  | del key => obtain rfl := h; simp [Boundary]

/-- A body that ended with status 0 and is committed has done what the request means. -/
theorem outcome_done (h : Outcome dbObj (some x) (.request r.request) b 0 d.value)
    (hc : d.code = 0) (hp : ∀ e ∈ b, Proper e) (hr : Replays m (b.filterMap BdbEvent.access)) :
    Explains m r d (replay m (b.filterMap BdbEvent.access)) := by
  cases r with
  | get key =>
    obtain ⟨val, v, rfl, hv⟩ := h
    exact .got hr.1 hc (hv rfl)
  | put key val =>
    obtain rfl := h
    exact .put hc
  | putIf key val oldVal =>
    obtain ⟨dbt, v, ⟨h0, rfl⟩ | ⟨h0, -, rfl⟩ | ⟨w, h0, -, rfl⟩ | rfl⟩ := putIf_outcome h
    · exact absurd rfl h0
    · exact absurd h0 (by decide)
    · exact absurd h0 (by decide)
    · have hv : v = oldVal := hp ⟨.load oldVal oldVal.length, v⟩ (by simp)
      subst hv
      exact .putIf hr.1 hc
  | del key =>
    obtain rfl := h
    exact .del hr.1 hc

/-- A body that ended with another status says truly why it did nothing. -/
theorem outcome_undone (h : Outcome dbObj (some x) (.request r.request) b d.code d.value)
    (hc : d.code ≠ 0) (hp : ∀ e ∈ b, Proper e) (hr : Replays m (b.filterMap BdbEvent.access)) :
    Explains m r d m := by
  cases r with
  | get key =>
    obtain ⟨val, v, rfl, hv⟩ := h
    by_cases hn : d.code = dbNotfound
    · rw [hn] at hr
      exact .getMissing hr.1 hn
    · apply Explains.failed
      exact ungranted_fault (hp _ List.mem_cons_self) (by simp [BdbEvent.access, hc, hn])
  | put key val =>
    obtain rfl := h
    apply Explains.failed
    exact ungranted_fault (hp _ List.mem_cons_self) (by simp [BdbEvent.access, hc])
  | putIf key val oldVal =>
    obtain ⟨dbt, v, ⟨-, rfl⟩ | ⟨hcode, hs, rfl⟩ | ⟨w, hcode, hw, rfl⟩ | rfl⟩ := putIf_outcome h
    · by_cases hn : d.code = dbNotfound
      · rw [hn] at hr
        exact .putIfMissing hr.1 hn
      · apply Explains.failed
        exact ungranted_fault (hp _ List.mem_cons_self) (by simp [BdbEvent.access, hc, hn])
    · exact .putIfOther hr.1 (fun he => hs (by rw [he])) hcode
    · have hl : w = oldVal := hp ⟨.load oldVal oldVal.length, w⟩ (by simp)
      exact .putIfOther hr.1 (hl ▸ hw) hcode
    · have hput := hp ⟨.put dbObj._db (some x) (buffer key) (buffer val) 0, d.code⟩ (by simp)
      apply Explains.failed
      exact ungranted_fault hput (by simp [BdbEvent.access, hc])
  | del key =>
    obtain rfl := h
    by_cases hn : d.code = dbNotfound
    · rw [hn] at hr
      exact .delMissing hr.1 hn
    · apply Explains.failed
      exact ungranted_fault (hp _ List.mem_cons_self) (by simp [BdbEvent.access, hc, hn])

end Outcomes

theorem request_onKey (r : KeyRequest) : (Operation.request r.request).onKey = true := by
  cases r <;> rfl

/-- The last call of a request is where it takes effect: its log replays on the data there. -/
theorem last_call_explains {dbObj : Db} (ht : dbObj._transactional = true) (ho : dbObj._db ≠ none)
    {r : KeyRequest} {t : BdbTrace Bytes} {e : BdbEvent Bytes} {d : Delivery} {s s' : TxnStore}
    (hr : Runs (r.request.deliver dbObj) (t ++ [e]) d) (hs : s.Inv)
    (hheld : ∀ x log, attempt t = some (x, log) → s.active x = some log)
    (hp : ∀ e' ∈ t, Proper e') (hresp : Responds s e s') : Explains s.data r d s'.data := by
  have hend := (onKey_spec (request_onKey r) (fun _ _ => ho) hr).transactional ht
  generalize hte : t ++ [e] = te at hend
  cases hend with
  | refused hc =>
    obtain ⟨-, he⟩ := List.append_inj' hte rfl
    cases he
    exact absurd (responds_proper hresp) hc
  | @committed p b x d hout =>
    rw [← List.cons_append, ← List.append_assoc] at hte
    obtain ⟨rfl, he⟩ := List.append_inj' hte rfl
    obtain rfl := List.singleton_inj.mp he
    have hlog := @attempt_body dbObj._env x p b (outcome_no_boundary hout)
    have hactive := hheld x _ hlog
    have hrep := hs.replays x _ hactive
    have hpb : ∀ e ∈ b, Proper e := fun e he =>
      hp e (List.mem_append_right _ (List.mem_cons_of_mem _ he))
    generalize hcode : d.code = c at hresp
    cases hresp with
    | commit hx =>
      have h := outcome_done hout hcode hpb hrep
      simpa [Store.commit, hactive] using h
    | commitFailed hx hf => exact .failed (hcode ▸ hf)
    | access hd => cases hd
    | fault hd => cases hd
  | @aborted p b x c d hout hc =>
    rw [← List.cons_append, ← List.append_assoc] at hte
    obtain ⟨rfl, he⟩ := List.append_inj' hte rfl
    obtain rfl := List.singleton_inj.mp he
    have hlog := @attempt_body dbObj._env x p b (outcome_no_boundary hout)
    have hrep := hs.replays x _ (hheld x _ hlog)
    have hpb : ∀ e ∈ b, Proper e := fun e he =>
      hp e (List.mem_append_right _ (List.mem_cons_of_mem _ he))
    cases hresp with
    | abort hx => exact outcome_undone hout hc hpb hrep
    | access hd => cases hd
    | fault hd => cases hd

/-- Before its last call a request leaves the committed data alone. -/
theorem inner_call_data {dbObj : Db} (ht : dbObj._transactional = true) {r : KeyRequest}
    {t : BdbTrace Bytes} {e : BdbEvent Bytes} {c : Call Bytes} {k : Reply c → BdbProg Bytes Delivery}
    (h : Reaches (r.request.deliver dbObj) (t ++ [e]) (.call c k)) {s s' : TxnStore}
    (hresp : Responds s e s') : s'.data = s.data := by
  cases hresp with
  | commit hx =>
    obtain ⟨m, ha, hm⟩ := (operation_obeys ht (.request r.request)).reaches h (answered _ _)
    obtain ⟨m₁, -, hc⟩ := ha.split
    have hcommitted : m.committed = true := by rw [hc.2]; rfl
    exact absurd (admits_committed hm.1) (by simp [hcommitted])
  | _ => rfl

/-- A request on an open Db always has a call to make first. -/
theorem request_calls {dbObj : Db} (ht : dbObj._transactional = true) (ho : dbObj._db ≠ none)
    (r : KeyRequest) (d : Delivery) : r.request.deliver dbObj ≠ .ret d := by
  intro h
  have hr : Runs ((Operation.request r.request).deliver dbObj) [] d := by
    rw [Operation.deliver, h]
    exact ⟨rfl, rfl⟩
  have hend := (onKey_spec (request_onKey r) (fun _ _ => ho) hr).transactional ht
  generalize hte : ([] : BdbTrace Bytes) = te at hend
  cases hend <;> simp at hte

/-! ## Runs of the system -/

/-- The effects are a linearization of the run `es`: each is a submitted request, every callback
is among them, an effect never stands before one whose callback ran before it was submitted,
and one after another they explain what was delivered and the data that is left. -/
structure Linearizes (initial : Bytes → Option Bytes) (es : List WorkersEvent)
    (final : Bytes → Option Bytes) (effects : List Effect) : Prop where
  nodup : (effects.map Effect.id).Nodup
  submitted : ∀ e ∈ effects, (submissions es)[e.id]? = some e.request
  called : ∀ i d, .callback i d ∈ es → ∃ e ∈ effects, e.id = i ∧ e.delivery = d
  realTime : ∀ p i d q, es = p ++ .callback i d :: q → ∀ e ∈ effects,
    (submissions p).length ≤ e.id → [i, e.id].Sublist (effects.map Effect.id)
  explains : ExplainsAll initial effects final

/-- The invariant of a run, with the effects so far. -/
structure Workers.Inv (dbObj : Db) (initial : Bytes → Option Bytes) (es : List WorkersEvent)
    (s : Workers) (effects : List Effect) : Prop where
  linearizes : Linearizes initial es s.store.data effects
  requests : s.threads.map Thread.request = submissions es
  reaches : ∀ i th, s.threads[i]? = some th →
    Reaches (th.request.request.deliver dbObj) (callsOf i es) th.prog
  idle : ∀ i, s.threads.length ≤ i → callsOf i es = []
  proper : ∀ i, ∀ e ∈ callsOf i es, Proper e
  linked : Linked s.store fun i => callsOf i es
  store : s.store.Inv
  finished : ∀ i th d, s.threads[i]? = some th → th.prog = .ret d →
    ∃ e ∈ effects, e.id = i ∧ e.delivery = d
  unfinished : ∀ e ∈ effects, ∀ th, s.threads[e.id]? = some th → ∃ d, th.prog = .ret d

@[simp] theorem submissions_append (es es' : List WorkersEvent) :
    submissions (es ++ es') = submissions es ++ submissions es' := List.filterMap_append

@[simp] theorem callsOf_append (i : Nat) (es es' : List WorkersEvent) :
    callsOf i (es ++ es') = callsOf i es ++ callsOf i es' := List.filterMap_append

/-- An event that is neither a callback nor a submission leaves the linearization one. -/
theorem Linearizes.snoc {initial final : Bytes → Option Bytes} {es : List WorkersEvent}
    {effects : List Effect} (h : Linearizes initial es final effects) {ev : WorkersEvent}
    (hev : ∀ i d, ev ≠ .callback i d) : Linearizes initial (es ++ [ev]) final effects where
  nodup := h.nodup
  submitted e he := by
    have hs := h.submitted e he
    rw [submissions_append, List.getElem?_append_left]
    · exact hs
    · exact (List.getElem?_eq_some_iff.mp hs).1
  called i d hm := by
    cases List.mem_append.mp hm with
    | inl hm => exact h.called i d hm
    | inr hm => exact absurd (List.mem_singleton.mp hm).symm (hev i d)
  realTime p i d q he e hmem hle := by
    rcases Table.split_snoc he with ⟨-, -, hx⟩ | ⟨q', -, hes⟩
    · exact absurd hx (hev i d)
    · exact h.realTime p i d q' hes e hmem hle
  explains := h.explains

/-- A callback that delivers what its effect says. -/
theorem Linearizes.callback {initial final : Bytes → Option Bytes} {es : List WorkersEvent}
    {effects : List Effect} (h : Linearizes initial es final effects) {i : Nat} {d : Delivery}
    (hi : ∃ e ∈ effects, e.id = i ∧ e.delivery = d) :
    Linearizes initial (es ++ [.callback i d]) final effects where
  nodup := h.nodup
  submitted e he := by
    have hs := h.submitted e he
    simpa [submissions] using hs
  called j d' hm := by
    cases List.mem_append.mp hm with
    | inl hm => exact h.called j d' hm
    | inr hm => cases List.mem_singleton.mp hm; exact hi
  realTime p j d' q he e hmem hle := by
    rcases Table.split_snoc he with ⟨-, rfl, -⟩ | ⟨q', -, hes⟩
    · have hlt := (List.getElem?_eq_some_iff.mp (h.submitted e hmem)).1
      omega
    · exact h.realTime p j d' q' hes e hmem hle
  explains := h.explains

/-- A request that takes effect now goes last. -/
theorem Linearizes.effect {initial final final' : Bytes → Option Bytes} {es : List WorkersEvent}
    {effects : List Effect} (h : Linearizes initial es final effects) {e : Effect}
    (hnew : ∀ e' ∈ effects, e'.id ≠ e.id) (hsub : (submissions es)[e.id]? = some e.request)
    (hex : Explains final e.request e.delivery final') :
    Linearizes initial es final' (effects ++ [e]) where
  nodup := by
    rw [List.map_append, List.nodup_append]
    refine ⟨h.nodup, by simp, ?_⟩
    rintro i hi j hj rfl
    obtain ⟨e', he', rfl⟩ := List.mem_map.mp hi
    simp only [List.map_cons, List.map_nil, List.mem_singleton] at hj
    exact hnew e' he' hj
  submitted e' he' := by
    cases List.mem_append.mp he' with
    | inl he' => exact h.submitted e' he'
    | inr he' => rw [List.mem_singleton.mp he']; exact hsub
  called i d hm := by
    obtain ⟨e', he', hi⟩ := h.called i d hm
    exact ⟨e', List.mem_append_left _ he', hi⟩
  realTime p i d q he e' hmem hle := by
    rw [List.map_append]
    cases List.mem_append.mp hmem with
    | inl hmem => exact (h.realTime p i d q he e' hmem hle).trans (List.sublist_append_left _ _)
    | inr hmem =>
      -- the callback ran, so its request has taken effect already
      obtain ⟨e'', he'', hi, -⟩ := h.called i d (by rw [he]; simp)
      have hl : [i].Sublist (effects.map Effect.id) :=
        List.singleton_sublist.mpr (hi ▸ List.mem_map_of_mem he'')
      have hr : [e'.id].Sublist ([e].map Effect.id) := by rw [List.mem_singleton.mp hmem]; simp
      exact hl.append hr
  explains := .snoc h.explains hex

section Steps

variable {dbObj : Db} {initial : Bytes → Option Bytes} {es : List WorkersEvent} {s : Workers}
  {effects : List Effect}

theorem requests_set {threads : List Thread} {i : Nat} {th : Thread} (th' : Thread)
    (hi : threads[i]? = some th) (h : th'.request = th.request) :
    (threads.set i th').map Thread.request = threads.map Thread.request := by
  refine List.ext_getElem? fun j => ?_
  rw [List.getElem?_map, List.getElem?_map, List.getElem?_set]
  by_cases hj : i = j
  · subst hj
    rw [if_pos rfl, if_pos (List.getElem?_eq_some_iff.mp hi).1, hi]
    exact congrArg some h
  · simp [hj]

theorem Workers.Inv.submit (ht : dbObj._transactional = true) (ho : dbObj._db ≠ none)
    (h : s.Inv dbObj initial es effects) (r : KeyRequest) :
    Workers.Inv dbObj initial (es ++ [.submit r])
      { s with threads := s.threads ++ [{ request := r, prog := r.request.deliver dbObj }] }
      effects := by
  have hcalls : ∀ i, callsOf i (es ++ [.submit r]) = callsOf i es := fun i => by simp [callsOf]
  have hget : ∀ {i : Nat} {u : Thread},
      (s.threads ++ [{ request := r, prog := r.request.deliver dbObj }])[i]? = some u →
      s.threads[i]? = some u ∨ i = s.threads.length ∧ u = ⟨r, r.request.deliver dbObj, false⟩ := by
    intro i u hu
    by_cases hlt : i < s.threads.length
    · rw [List.getElem?_append_left hlt] at hu; exact .inl hu
    · rw [List.getElem?_append_right (by omega)] at hu
      cases Nat.eq_zero_or_pos (i - s.threads.length) with
      | inl h0 =>
        rw [h0] at hu
        exact .inr ⟨by omega, (Option.some.inj hu).symm⟩
      | inr hpos => rw [List.getElem?_eq_none (by simp; omega)] at hu; cases hu
  constructor
  · exact h.linearizes.snoc (by simp)
  · rw [List.map_append, h.requests]; simp [submissions]
  · intro i u hu
    rw [hcalls]
    rcases hget hu with hu | ⟨rfl, rfl⟩
    · exact h.reaches i u hu
    · rw [h.idle _ (Nat.le_refl _)]; exact .refl _
  · intro i hi
    rw [hcalls]
    exact h.idle i (by simp at hi; omega)
  · intro i; rw [hcalls]; exact h.proper i
  · simpa only [hcalls] using h.linked
  · exact h.store
  · intro i u d hu hd
    rcases hget hu with hu | ⟨rfl, rfl⟩
    · exact h.finished i u d hu hd
    · exact absurd hd (request_calls ht ho r d)
  · intro e he u hu
    rcases hget hu with hu | ⟨hid, rfl⟩
    · exact h.unfinished e he u hu
    · have hlt := (List.getElem?_eq_some_iff.mp (h.linearizes.submitted e he)).1
      rw [← h.requests, List.length_map] at hlt
      omega

theorem Workers.Inv.callback (h : s.Inv dbObj initial es effects) {i : Nat} {th : Thread}
    {d : Delivery} (hi : s.threads[i]? = some th) (hd : th.prog = .ret d) :
    Workers.Inv dbObj initial (es ++ [.callback i d])
      { s with threads := s.threads.set i { th with called := true } } effects := by
  have hcalls : ∀ j, callsOf j (es ++ [.callback i d]) = callsOf j es := fun j => by simp [callsOf]
  constructor
  · exact h.linearizes.callback (h.finished i th d hi hd)
  · have hr := requests_set { th with called := true } hi rfl
    exact hr.trans (by rw [h.requests]; simp [submissions])
  · intro j u hu
    rw [hcalls]
    rcases Table.get_set hi hu with ⟨rfl, rfl⟩ | ⟨-, hu⟩
    · exact h.reaches j th hi
    · exact h.reaches j u hu
  · intro j hj
    rw [hcalls]
    exact h.idle j (by simpa using hj)
  · intro j; rw [hcalls]; exact h.proper j
  · simpa only [hcalls] using h.linked
  · exact h.store
  · intro j u d' hu hd'
    rcases Table.get_set hi hu with ⟨rfl, rfl⟩ | ⟨-, hu⟩
    · exact h.finished j th d' hi hd'
    · exact h.finished j u d' hu hd'
  · intro e he u hu
    rcases Table.get_set hi hu with ⟨hid, rfl⟩ | ⟨-, hu⟩
    · exact h.unfinished e he th (hid ▸ hi)
    · exact h.unfinished e he u hu

/-- A call that is not the request's last leaves the effects as they are; the last one adds
the request's own. -/
theorem Workers.Inv.bdb (ht : dbObj._transactional = true) (ho : dbObj._db ≠ none)
    (h : s.Inv dbObj initial es effects) {i : Nat} {th : Thread} {c : Call Bytes}
    {k : Reply c → BdbProg Bytes Delivery} {r : Reply c} {store : TxnStore}
    (hi : s.threads[i]? = some th) (hc : th.prog = .call c k)
    (hr : Responds s.store ⟨c, r⟩ store) :
    ∃ effects', Workers.Inv dbObj initial (es ++ [.bdb i ⟨c, r⟩])
      { store := store, threads := s.threads.set i { th with prog := k r } } effects' := by
  have hreach : Reaches (th.request.request.deliver dbObj) (callsOf i es) (.call c k) :=
    hc ▸ h.reaches i th hi
  have hnext := hreach.snoc r
  have hcalls : (fun j => callsOf j (es ++ [.bdb i ⟨c, r⟩])) =
      Function.update (fun j => callsOf j es) i (callsOf i es ++ [⟨c, r⟩]) := by
    funext j
    by_cases hj : j = i
    · subst hj; simp [callsOf]
    · simp [callsOf, hj, Ne.symm hj]
  have hown : callsOf i (es ++ [.bdb i ⟨c, r⟩]) = callsOf i es ++ [⟨c, r⟩] := by
    simpa using congrFun hcalls i
  have hother : ∀ j, j ≠ i → callsOf j (es ++ [.bdb i ⟨c, r⟩]) = callsOf j es := by
    intro j hj; simpa [hj] using congrFun hcalls j
  obtain ⟨m, hm, hl⟩ := thread_admits ht hreach
  have hbusy : ∀ e ∈ effects, e.id ≠ i := by
    rintro e he rfl
    obtain ⟨d, hd⟩ := h.unfinished e he th hi
    rw [hc] at hd; cases hd
  have build : ∀ effects', Linearizes initial (es ++ [.bdb i ⟨c, r⟩]) store.data effects' →
      (∀ d, k r = .ret d → ∃ e ∈ effects', e.id = i ∧ e.delivery = d) →
      (∀ e ∈ effects, e ∈ effects') →
      (∀ e ∈ effects', e ∈ effects ∨ e.id = i ∧ ∃ d, k r = .ret d) →
      Workers.Inv dbObj initial (es ++ [.bdb i ⟨c, r⟩])
        { store := store, threads := s.threads.set i { th with prog := k r } } effects' := by
    intro effects' hlin hfin hold hnew
    constructor
    · exact hlin
    · have hreq := requests_set { th with prog := k r } hi rfl
      exact hreq.trans (by rw [h.requests]; simp [submissions])
    · intro j u hu
      rcases Table.get_set hi hu with ⟨rfl, rfl⟩ | ⟨hj, hu⟩
      · rw [hown]; exact hnext
      · rw [hother j hj]; exact h.reaches j u hu
    · intro j hj
      have hlt := (List.getElem?_eq_some_iff.mp hi).1
      rw [List.length_set] at hj
      rw [hother j (by omega)]
      exact h.idle j hj
    · intro j e he
      by_cases hj : j = i
      · subst hj
        rw [hown] at he
        cases List.mem_append.mp he with
        | inl he => exact h.proper j e he
        | inr he => rw [List.mem_singleton.mp he]; exact responds_proper hr
      · rw [hother j hj] at he; exact h.proper j e he
    · rw [hcalls]; exact h.linked.step hm hl hr
    · exact responds_inv h.store hr
    · intro j u d hu hd
      rcases Table.get_set hi hu with ⟨rfl, rfl⟩ | ⟨-, hu⟩
      · exact hfin d hd
      · obtain ⟨e, he, hed⟩ := h.finished j u d hu hd
        exact ⟨e, hold e he, hed⟩
    · intro e he u hu
      rcases Table.get_set hi hu with ⟨hid, rfl⟩ | ⟨hid, hu⟩
      · rcases hnew e he with he | ⟨-, hd⟩
        · exact absurd hid (hbusy e he)
        · exact hd
      · rcases hnew e he with he | ⟨hid', -⟩
        · exact h.unfinished e he u hu
        · exact absurd hid' hid
  cases hk : k r with
  | ret d =>
    rw [hk] at hnext
    have hex := last_call_explains ht ho (reaches_ret hnext) h.store
      (fun x log => h.linked.held i x log) (h.proper i) hr
    have hsub : (submissions es)[i]? = some th.request := by
      rw [← h.requests, List.getElem?_map, hi]; rfl
    refine ⟨effects ++ [⟨i, th.request, d⟩], hk ▸ build _ ?_ ?_ ?_ ?_⟩
    · exact (h.linearizes.effect hbusy hsub hex).snoc (by simp)
    · intro d' hd'
      rw [hk] at hd'
      cases hd'
      exact ⟨⟨i, th.request, d⟩, by simp, rfl, rfl⟩
    · intro e he; exact List.mem_append_left _ he
    · intro e he
      cases List.mem_append.mp he with
      | inl he => exact .inl he
      | inr he => rw [List.mem_singleton.mp he]; exact .inr ⟨rfl, d, hk⟩
  | call c' k' =>
    rw [hk] at hnext
    refine ⟨effects, hk ▸ build _ ?_ ?_ (fun e he => he) (fun e he => .inl he)⟩
    · rw [inner_call_data ht hnext hr]
      exact h.linearizes.snoc (by simp)
    · intro d hd; rw [hk] at hd; cases hd

end Steps

/-- Nothing has been submitted and no transaction is active. -/
def Workers.initial (m : Bytes → Option Bytes) : Workers := { store := { data := m } }

theorem Workers.inv_initial (dbObj : Db) (m : Bytes → Option Bytes) :
    (Workers.initial m).Inv dbObj m [] [] where
  linearizes := ⟨by simp, by simp, by simp, by simp, .nil⟩
  requests := rfl
  reaches i th h := by simp [Workers.initial] at h
  idle _ _ := rfl
  proper _ _ h := by simp [callsOf] at h
  linked := ⟨fun _ _ _ h => by simp [callsOf] at h, fun _ _ _ _ _ _ _ h => by simp [callsOf] at h⟩
  store := Store.inv_initial m
  finished i th d h := by simp [Workers.initial] at h
  unfinished _ h := by simp at h

/-- Every run of any number of requests on an open transactional Db has a linearization. -/
theorem workers_linearizable (dbObj : Db) (ht : dbObj._transactional = true)
    (ho : dbObj._db ≠ none) (m : Bytes → Option Bytes) (es : List WorkersEvent) (s : Workers)
    (h : Path (Workers.Step dbObj) (Workers.initial m) es s) :
    ∃ effects, Linearizes m es s.store.data effects := by
  have hinv : ∃ effects, s.Inv dbObj m es effects := by
    refine h.invariant (I := fun es s => ∃ effects, s.Inv dbObj m es effects)
      ⟨[], Workers.inv_initial dbObj m⟩ ?_
    rintro es s e s' ⟨effects, hs⟩ hstep
    cases hstep with
    | submit r => exact ⟨effects, hs.submit ht ho r⟩
    | bdb hi hc hr => exact hs.bdb ht ho hi hc hr
    | callback hi hd hcalled => exact ⟨effects, hs.callback hi hd⟩
  obtain ⟨effects, hs⟩ := hinv
  exact ⟨effects, hs.linearizes⟩

/-- `put` of one byte under one byte. -/
def putRequest : KeyRequest := .put [107] [118]

/-- `putIf` of another byte, where the first one is stored. -/
def putIfRequest : KeyRequest := .putIf [107] [119] [118]

def putDelivery : Delivery := { code := 0, message := .dbStrerror 0 }

def putIfCalls : BdbTrace Bytes :=
  [⟨.txnBegin (some 0), (0, 7)⟩,
   ⟨.get (some 1) (some 7) (buffer [107]) { flags := dbDbtMalloc } 0, (0, [118])⟩,
   ⟨.load [118] 1, [118]⟩,
   ⟨.put (some 1) (some 7) (buffer [107]) (buffer [119]) 0, (0 : Int)⟩, ⟨.commit 7, (0 : Int)⟩]

/-- The first transaction is a deadlock victim. -/
def retriedPutCalls : BdbTrace Bytes :=
  [⟨.txnBegin (some 0), (0, 8)⟩,
   ⟨.put (some 1) (some 8) (buffer [107]) (buffer [118]) 0, dbLockDeadlock⟩,
   ⟨.abort 8, (0 : Int)⟩, ⟨.txnBegin (some 0), (0, 9)⟩,
   ⟨.put (some 1) (some 9) (buffer [107]) (buffer [118]) 0, (0 : Int)⟩, ⟨.commit 9, (0 : Int)⟩]

theorem putIf_runs : Runs (putIfRequest.request.deliver openDb) putIfCalls putDelivery := by
  simp [putIfRequest, putIfCalls, KeyRequest.request, Request.deliver, Request.worker, eioPutIf,
    openDb, txn, again, putIfBody, compareAndPut, PutIfLocals.statusVar, PutIfLocals.setStatus,
    Request.baton, Dbt.receive, buffer, Data.size, Data.contents, Data.bytes, Request.after,
    eioAfterReturnStatus, errMsg, consistencyError, putDelivery]

theorem retriedPut_runs : Runs (putRequest.request.deliver openDb) retriedPutCalls putDelivery := by
  simp [putRequest, retriedPutCalls, KeyRequest.request, Request.deliver, Request.worker, eioPut,
    openDb, txn, again, putBody, EIODbBaton.statusVar, Request.baton, Request.after, dbLockDeadlock,
    eioAfterReturnStatus, errMsg, consistencyError, putDelivery]

/-- The next call of one worker, after any run. -/
theorem next_call {dbObj : Db} {m : Bytes → Option Bytes} {es : List WorkersEvent} {s : Workers}
    (hs : Path (Workers.Step dbObj) (Workers.initial m) es s) {i : Nat} {th : Thread}
    {e : BdbEvent Bytes} {t : BdbTrace Bytes} {d : Delivery} {store : TxnStore}
    (hi : s.threads[i]? = some th) (h : Runs th.prog (e :: t) d) (hr : Responds s.store e store) :
    ∃ q, Runs q t d ∧ Path (Workers.Step dbObj) (Workers.initial m) (es ++ [.bdb i e])
      { store := store, threads := s.threads.set i { th with prog := q } } := by
  obtain ⟨c, r⟩ := e
  obtain ⟨k, hk, hrest⟩ := runs_cons h
  exact ⟨k r, hrest, hs.snoc (.bdb hi hk hr)⟩

/-- A putIf and a put under one key at a time. The put is the victim of the putIf that holds the
lock, and when that has committed its retry overwrites what it left. -/
def contestedRun : List WorkersEvent :=
  [.submit putIfRequest, .submit putRequest, .bdb 0 putIfCalls[0], .bdb 1 retriedPutCalls[0],
   .bdb 0 putIfCalls[1], .bdb 1 retriedPutCalls[1], .bdb 0 putIfCalls[2], .bdb 0 putIfCalls[3],
   .bdb 1 retriedPutCalls[2], .bdb 1 retriedPutCalls[3], .bdb 0 putIfCalls[4],
   .bdb 1 retriedPutCalls[4], .callback 0 putDelivery, .bdb 1 retriedPutCalls[5],
   .callback 1 putDelivery]

/-- The first byte is stored. -/
def storedV : Bytes → Option Bytes := fun k => if k = [107] then some [118] else none

theorem contestedRun_path :
    ∃ s, Path (Workers.Step openDb) (Workers.initial storedV) contestedRun s := by
  have hsubmit : Workers.Step openDb (Workers.initial storedV) (.submit putIfRequest) _ :=
    .submit putIfRequest
  have hs := (Path.nil.snoc hsubmit).snoc (.submit putRequest)
  obtain ⟨a, ha, hs⟩ := next_call hs (i := 0) rfl putIf_runs (.txnBegin rfl)
  obtain ⟨b, hb, hs⟩ := next_call hs (i := 1) rfl retriedPut_runs (.txnBegin rfl)
  -- the other transaction holds no lock yet
  obtain ⟨a, ha, hs⟩ := next_call hs (i := 0) rfl ha (by
    refine .access (x := 7) rfl rfl ⟨[], rfl, rfl, fun y log' hy hlog => ?_⟩
    simp [Workers.initial, Store.begin, Function.update_apply, hy] at hlog
    simp [hlog.2])
  obtain ⟨b, hb, hs⟩ := next_call hs (i := 1) rfl hb (by
    exact .fault (x := 8) rfl (Option.some_ne_none []) ⟨by decide, by decide, by decide⟩)
  obtain ⟨a, ha, hs⟩ := next_call hs (i := 0) rfl ha .load
  obtain ⟨a, ha, hs⟩ := next_call hs (i := 0) rfl ha (by
    refine .access (x := 7) rfl rfl ⟨_, rfl, trivial, fun y log' hy hlog => ?_⟩
    simp [Workers.initial, Store.begin, Store.record, Function.update_apply, hy] at hlog
    simp [hlog.2])
  obtain ⟨b, hb, hs⟩ := next_call hs (i := 1) rfl hb (by exact .abort (Option.some_ne_none []))
  obtain ⟨b, hb, hs⟩ := next_call hs (i := 1) rfl hb (by exact .txnBegin rfl)
  obtain ⟨a, ha, hs⟩ := next_call hs (i := 0) rfl ha (by exact .commit (Option.some_ne_none _))
  obtain ⟨b, hb, hs⟩ := next_call hs (i := 1) rfl hb (by
    refine .access (x := 9) rfl rfl ⟨[], rfl, trivial, fun y log' hy hlog => ?_⟩
    simp only [Workers.initial, Store.begin, Store.record, Store.commit, Store.discard,
      Function.update_apply, hy, ↓reduceIte] at hlog
    split at hlog
    · cases hlog
    · split at hlog <;> simp_all)
  have hs := hs.snoc (.callback (i := 0) rfl (runs_nil ha) rfl)
  obtain ⟨b, hb, hs⟩ := next_call hs (i := 1) rfl hb (by exact .commit (Option.some_ne_none _))
  exact ⟨_, hs.snoc (.callback (i := 1) rfl (runs_nil hb) rfl)⟩

theorem contestedRun_linearizable :
    ∃ s, Path (Workers.Step openDb) (Workers.initial storedV) contestedRun s ∧
      ∃ effects, Linearizes storedV contestedRun s.store.data effects := by
  obtain ⟨s, h⟩ := contestedRun_path
  exact ⟨s, h, workers_linearizable openDb rfl (by decide) _ contestedRun s h⟩

end NodeBdb
