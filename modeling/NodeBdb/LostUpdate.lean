import NodeBdb.Linear

/-!
# putIf without transactions

In an environment without `DB_INIT_TXN` each single get, put and del is still atomic, but
`EIO_PutIf` makes two of them. A putIf is as atomic as under a transaction as long as no
other request changes the value between its get and its put; where one does, the put
overwrites a value that the putIf never saw.
-/

namespace NodeBdb

open Interaction Transition TwoPhase

/-! ## The store -/

/-- A get, put or del outside any transaction, with flags 0. -/
def Call.single : Call Bytes → Bool
  | .get _ x _ _ flags => x.isNone && flags == 0
  | .put _ x _ _ flags => x.isNone && flags == 0
  | .del _ x _ flags => x.isNone && flags == 0
  | _ => false

/-- What Berkeley DB may answer: an access that is done at once, or a fault. -/
inductive Answers (m : Bytes → Option Bytes) : BdbEvent Bytes → Prop where
  | access {e : BdbEvent Bytes} {a : Access Bytes Bytes} :
      e.1.single = true → e.access = some a → a.sees (m a.key) → Answers m e
  | fault {e : BdbEvent Bytes} : e.1.single = true → Fault e.code → Answers m e
  | load {p : Bytes} {len : Nat} : Answers m ⟨.load p len, p⟩

/-- The content after an event. -/
def BdbEvent.after (e : BdbEvent Bytes) (m : Bytes → Option Bytes) : Bytes → Option Bytes :=
  match e.access with
  | some a => a.effect m
  | none => m

/-! ## The system -/

structure PlainWorkers where
  data : Bytes → Option Bytes
  threads : List Thread := []

inductive PlainWorkers.Step (dbObj : Db) : PlainWorkers → WorkersEvent → PlainWorkers → Prop where
  | submit {s : PlainWorkers} (r : KeyRequest) :
      Step dbObj s (.submit r)
        { s with threads := s.threads ++ [{ request := r, prog := r.request.deliver dbObj }] }
  | bdb {s : PlainWorkers} {i : Nat} {th : Thread} {c : Call Bytes}
      {k : Reply c → BdbProg Bytes Delivery} {r : Reply c} :
      s.threads[i]? = some th → th.prog = .call c k → Answers s.data ⟨c, r⟩ →
      Step dbObj s (.bdb i ⟨c, r⟩)
        { data := BdbEvent.after ⟨c, r⟩ s.data, threads := s.threads.set i { th with prog := k r } }
  | callback {s : PlainWorkers} {i : Nat} {th : Thread} {d : Delivery} :
      s.threads[i]? = some th → th.prog = .ret d → th.called = false →
      Step dbObj s (.callback i d)
        { s with threads := s.threads.set i { th with called := true } }

/-- The program once it has read the caller memory that it is about to read. -/
def loaded {α : Type} : BdbProg Bytes α → BdbProg Bytes α
  | .call (.load p _) k => loaded (k p)
  | p => p

/-- The worker of a putIf on this key is between its get and its put. -/
def Thread.Midway (th : Thread) (key : Bytes) : Prop :=
  (∃ val oldVal, th.request = .putIf key val oldVal) ∧
    ∃ db x dbtKey dbtVal flags k, loaded th.prog = .call (.put db x dbtKey dbtVal flags) k

/-- The event changes no value that another request's putIf has found and is about to replace. -/
def Undisturbed (s : PlainWorkers) : WorkersEvent → Prop
  | .bdb i e => ∀ (j : Nat) th key, j ≠ i → s.threads[j]? = some th → th.Midway key →
      e.after s.data key = s.data key
  | _ => True

@[simp] theorem loaded_ret {α : Type} (a : α) : loaded (.ret a : BdbProg Bytes α) = .ret a := rfl

/-! ## What a worker has left to do -/

section Programs

variable {dbObj : Db}

/-- What `EIO_AfterReturnStatus` makes of a code. -/
def told (c : Int) : Delivery := { code := c, message := errMsg c }

/-- The put of a putIf, its last call. -/
def storing (dbObj : Db) (key val : Bytes) : BdbProg Bytes Delivery :=
  .call (.put dbObj._db none (buffer key) (buffer val) 0) fun c => .ret (told c)

/-- A putIf whose get has returned `v`. -/
def comparing (dbObj : Db) (key val oldVal v : Bytes) : BdbProg Bytes Delivery :=
  if v.length ≠ oldVal.length then .ret (told consistencyError)
  else .call (.load oldVal oldVal.length) fun w =>
    if v ≠ w then .ret (told consistencyError) else storing dbObj key val

/-- Without transactions the text between the macros runs once. -/
theorem plain_deliver (ht : dbObj._transactional = false) (ho : dbObj._db ≠ none)
    (q : Request Bytes) :
    q.deliver dbObj = q.bracket.body dbObj none q.bracket.start >>= fun s =>
      .ret (q.bracket.out s) := by
  rw [request_bracket ho, txn, again_plain _ _ _ _ _ ht]

theorem plain_get (ht : dbObj._transactional = false) (ho : dbObj._db ≠ none) (key : Bytes) :
    ∃ val k, (KeyRequest.get key).request.deliver dbObj =
        .call (.get dbObj._db none (buffer key) val 0) k ∧
      ∀ r, ∃ d : Delivery, k r = .ret d ∧ d.code = r.1 ∧ (r.1 = 0 → d.value = some r.2) := by
  have he : (KeyRequest.get key).request.deliver dbObj =
      getBody dbObj none { key := buffer key, val := { flags := dbDbtMalloc } } >>= fun b =>
        .ret (eioAfterGet b) := plain_deliver ht ho _
  refine ⟨{ flags := dbDbtMalloc }, _, he, ?_⟩
  rintro ⟨c, v⟩
  by_cases hc : c = 0
  · subst hc
    exact ⟨_, rfl, rfl, fun _ => rfl⟩
  · refine ⟨eioAfterGet { key := buffer key, val := { flags := dbDbtMalloc }, status := c }, ?_, rfl,
      fun h => absurd h hc⟩
    simp [Prog.bind, hc]

theorem plain_put (ht : dbObj._transactional = false) (ho : dbObj._db ≠ none) (key val : Bytes) :
    (KeyRequest.put key val).request.deliver dbObj = storing dbObj key val := by
  rw [plain_deliver ht ho]
  rfl

theorem plain_del (ht : dbObj._transactional = false) (ho : dbObj._db ≠ none) (key : Bytes) :
    (KeyRequest.del key).request.deliver dbObj =
      .call (.del dbObj._db none (buffer key) 0) fun c => .ret (told c) := by
  rw [plain_deliver ht ho]
  rfl

theorem plain_putIf (ht : dbObj._transactional = false) (ho : dbObj._db ≠ none)
    (key val oldVal : Bytes) :
    (KeyRequest.putIf key val oldVal).request.deliver dbObj =
      .call (.get dbObj._db none (buffer key) { flags := dbDbtMalloc } 0) fun r =>
        if r.1 = 0 then comparing dbObj key val oldVal r.2 else .ret (told r.1) := by
  rw [plain_deliver ht ho]
  simp only [KeyRequest.request, Request.bracket, Request.baton, putIfBody, Prog.call_bind,
    Prog.ret_bind]
  congr 1
  funext r
  by_cases hc : r.1 = 0
  · simp only [hc, ↓reduceIte, compareAndPut, receive_size, receive_bytes, comparing]
    by_cases hs : r.2.length = oldVal.length
    · simp only [buffer, Data.size, hs, ne_eq, not_true_eq_false, ↓reduceIte, Data.contents,
        Prog.call_bind, Prog.ret_bind]
      congr 1
      funext w
      by_cases hw : r.2 = w
      · simp only [hw, not_true_eq_false, ↓reduceIte]
        rfl
      · simp only [hw, not_false_eq_true, ↓reduceIte]
        rfl
    · simp only [buffer, Data.size, hs, ne_eq, not_false_eq_true, ↓reduceIte]
      rfl
  · simp only [hc, ↓reduceIte]
    rfl

/-- Once the get has returned, nothing but reading memory comes before the put or the end. -/
theorem loaded_comparing (key val oldVal v : Bytes) :
    loaded (comparing dbObj key val oldVal v) =
      if v = oldVal then storing dbObj key val else .ret (told consistencyError) := by
  unfold comparing
  by_cases hv : v = oldVal
  · subst hv
    simp only [ne_eq, not_true_eq_false, ↓reduceIte, loaded]
    rfl
  · by_cases hs : v.length = oldVal.length
    · simp [hv, hs, loaded]
    · simp [hv, hs]

end Programs

/-! ## Where a request takes effect -/

section Standing

variable {dbObj : Db} {m m' : Bytes → Option Bytes} {effects effects' : List Effect} {i : Nat}
  {th : Thread}

/-- Where the worker of request `i` stands: before its first call, in a putIf between its get
and its put, or past the call with which the request has taken effect. -/
inductive Standing (dbObj : Db) (m : Bytes → Option Bytes) (effects : List Effect) (i : Nat)
    (th : Thread) : Prop where
  | fresh : th.prog = th.request.request.deliver dbObj → (∀ e ∈ effects, e.id ≠ i) →
      Standing dbObj m effects i th
  | midway {key val oldVal : Bytes} : th.request = .putIf key val oldVal →
      loaded th.prog = storing dbObj key val → m key = some oldVal → (∀ e ∈ effects, e.id ≠ i) →
      Standing dbObj m effects i th
  | settled {e : Effect} : e ∈ effects → e.id = i → loaded th.prog = .ret e.delivery →
      Standing dbObj m effects i th

theorem single_after_fault {e : BdbEvent Bytes} (hs : e.1.single = true) (hf : Fault e.code) :
    e.after m = m := by
  obtain ⟨c, r⟩ := e
  obtain ⟨h0, hn, -⟩ := hf
  cases c with
  | get => simp only [BdbEvent.code] at h0 hn; simp [BdbEvent.after, BdbEvent.access, h0, hn]
  | put => simp only [BdbEvent.code] at h0; simp [BdbEvent.after, BdbEvent.access, h0]
  | del => simp only [BdbEvent.code] at h0 hn; simp [BdbEvent.after, BdbEvent.access, h0, hn]
  | _ => cases hs

theorem after_access {e : BdbEvent Bytes} {a : Access Bytes Bytes} (h : e.access = some a) :
    e.after m = a.effect m := by
  rw [BdbEvent.after, h]

/-- The three ways a get comes back, all of them without a change. -/
theorem get_answer {db : Option DbHandle} {x : Option TxnHandle} {key val : Dbt Bytes} {flags : Int}
    {c : Int} {v : Bytes} (h : Answers m ⟨.get db x key val flags, (c, v)⟩) :
    BdbEvent.after ⟨.get db x key val flags, (c, v)⟩ m = m ∧
      (c = 0 ∧ m key.input = some v ∨ c = dbNotfound ∧ m key.input = none ∨ Fault c) := by
  cases h with
  | access hs ha hm =>
    have he := after_access (m := m) ha
    simp only [BdbEvent.access] at ha
    split at ha
    · next hc => cases ha; exact ⟨he, .inl ⟨hc, hm⟩⟩
    · split at ha
      · next hc => cases ha; exact ⟨he, .inr (.inl ⟨hc, hm⟩)⟩
      · cases ha
  | fault hs hf => exact ⟨single_after_fault hs hf, .inr (.inr hf)⟩

theorem put_answer {db : Option DbHandle} {x : Option TxnHandle} {key val : Dbt Bytes} {flags c : Int}
    (h : Answers m ⟨.put db x key val flags, c⟩) :
    c = 0 ∧ BdbEvent.after ⟨.put db x key val flags, c⟩ m =
        Function.update m key.input (some val.input) ∨
      Fault c ∧ BdbEvent.after ⟨.put db x key val flags, c⟩ m = m := by
  cases h with
  | access hs ha hm =>
    have he := after_access (m := m) ha
    simp only [BdbEvent.access] at ha
    split at ha
    · next hc => cases ha; exact .inl ⟨hc, he⟩
    · cases ha
  | fault hs hf => exact .inr ⟨hf, single_after_fault hs hf⟩

theorem del_answer {db : Option DbHandle} {x : Option TxnHandle} {key : Dbt Bytes} {flags c : Int}
    (h : Answers m ⟨.del db x key flags, c⟩) :
    c = 0 ∧ m key.input ≠ none ∧
        BdbEvent.after ⟨.del db x key flags, c⟩ m = Function.update m key.input none ∨
      BdbEvent.after ⟨.del db x key flags, c⟩ m = m ∧
        (c = dbNotfound ∧ m key.input = none ∨ Fault c) := by
  cases h with
  | access hs ha hm =>
    have he := after_access (m := m) ha
    simp only [BdbEvent.access] at ha
    split at ha
    · next hc => cases ha; exact .inl ⟨hc, hm, he⟩
    · split at ha
      · next hc => cases ha; exact .inr ⟨he, .inl ⟨hc, hm⟩⟩
      · cases ha
  | fault hs hf => exact .inr ⟨single_after_fault hs hf, .inr hf⟩

/-- One call of a worker: the request takes effect there, or nothing has happened yet or
any more. -/
theorem Standing.call (ht : dbObj._transactional = false) (ho : dbObj._db ≠ none)
    (h : Standing dbObj m effects i th) {c : Call Bytes} {k : Reply c → BdbProg Bytes Delivery}
    {r : Reply c} (hc : th.prog = .call c k) (ha : Answers m ⟨c, r⟩) :
    (∃ d, Explains m th.request d (BdbEvent.after ⟨c, r⟩ m) ∧ loaded (k r) = .ret d ∧
        ∀ e ∈ effects, e.id ≠ i) ∨
      BdbEvent.after ⟨c, r⟩ m = m ∧ Standing dbObj m effects i { th with prog := k r } := by
  cases h with
  | fresh hp hnew =>
    rw [hp] at hc
    cases hr : th.request with
    | get key =>
      obtain ⟨dbt, k', hk, hret⟩ := plain_get ht ho key
      rw [hr, hk] at hc
      cases hc
      obtain ⟨d, hd, hcode, hval⟩ := hret r
      obtain ⟨hm, hcases⟩ := get_answer ha
      refine .inl ⟨d, ?_, by rw [hd]; rfl, hnew⟩
      rw [hm]
      rcases hcases with ⟨h0, hv⟩ | ⟨hn, hv⟩ | hf
      · exact .got hv (hcode.trans h0) (hval h0)
      · exact .getMissing hv (hcode.trans hn)
      · exact .failed (hcode ▸ hf)
    | put key val =>
      rw [hr, plain_put ht ho] at hc
      cases hc
      refine .inl ⟨told r, ?_, rfl, hnew⟩
      cases put_answer ha with
      | inl hdone => rw [hdone.2]; exact .put hdone.1
      | inr hfault => rw [hfault.2]; exact .failed hfault.1
    | del key =>
      rw [hr, plain_del ht ho] at hc
      cases hc
      refine .inl ⟨told r, ?_, rfl, hnew⟩
      rcases del_answer ha with ⟨h0, hv, hm⟩ | ⟨hm, ⟨hn, hv⟩ | hf⟩
      · rw [hm]; exact .del hv h0
      · rw [hm]; exact .delMissing hv hn
      · rw [hm]; exact .failed hf
    | putIf key val oldVal =>
      rw [hr, plain_putIf ht ho] at hc
      cases hc
      obtain ⟨hm, hcases⟩ := get_answer ha
      rcases hcases with ⟨h0, hv⟩ | ⟨hn, hv⟩ | hf
      · by_cases he : r.2 = oldVal
        · refine .inr ⟨hm, .midway rfl ?_ (he ▸ hv) hnew⟩
          simp only [h0, ↓reduceIte, loaded_comparing, he]
        · refine .inl ⟨told consistencyError, ?_, ?_, hnew⟩
          · rw [hm]; exact .putIfOther hv he rfl
          · simp only [h0, ↓reduceIte, loaded_comparing, he]
      · refine .inl ⟨told r.1, ?_, by simp [hn, dbNotfound], hnew⟩
        rw [hm]; exact .putIfMissing hv hn
      · refine .inl ⟨told r.1, ?_, by simp [hf.1], hnew⟩
        rw [hm]; exact .failed hf
  | @midway key val oldVal hr hl hv hnew =>
    rw [hc] at hl
    cases c with
    | load p len =>
      cases ha with
      | load => exact .inr ⟨rfl, .midway hr hl hv hnew⟩
      | access hs => cases hs
      | fault hs => cases hs
    | put db x dbtKey dbtVal flags =>
      cases hl
      refine .inl ⟨told r, ?_, rfl, hnew⟩
      rw [hr]
      cases put_answer ha with
      | inl hdone => rw [hdone.2]; exact .putIf hv hdone.1
      | inr hfault => rw [hfault.2]; exact .failed hfault.1
    | _ => cases hl
  | settled he hid hl =>
    rw [hc] at hl
    cases c with
    | load p len =>
      cases ha with
      | load => exact .inr ⟨rfl, .settled he hid hl⟩
      | access hs => cases hs
      | fault hs => cases hs
    | _ => cases hl

/-- What the others do leaves a stage as it is, unless it changes the value a putIf has found. -/
theorem Standing.frame (h : Standing dbObj m effects i th) (hm : ∀ key, th.Midway key → m' key = m key)
    (hold : ∀ e ∈ effects, e ∈ effects') (hnew : ∀ e ∈ effects', e ∈ effects ∨ e.id ≠ i) :
    Standing dbObj m' effects' i th := by
  have hids : (∀ e ∈ effects, e.id ≠ i) → ∀ e ∈ effects', e.id ≠ i :=
    fun hne e he => (hnew e he).elim (hne e) id
  cases h with
  | fresh hp hne => exact .fresh hp (hids hne)
  | midway hr hl hv hne =>
    refine .midway hr hl ?_ (hids hne)
    rw [hm _ ⟨⟨_, _, hr⟩, _, _, _, _, _, _, hl⟩]
    exact hv
  | settled he hid hl => exact .settled (hold _ he) hid hl

/-- A worker that has returned has taken effect with what it returned. -/
theorem Standing.returned (ht : dbObj._transactional = false) (ho : dbObj._db ≠ none)
    (h : Standing dbObj m effects i th) {d : Delivery} (hd : th.prog = .ret d) :
    ∃ e ∈ effects, e.id = i ∧ e.delivery = d := by
  cases h with
  | fresh hp hne =>
    rw [hp] at hd
    cases hr : th.request with
    | get key => obtain ⟨_, _, hk, -⟩ := plain_get ht ho key; rw [hr, hk] at hd; cases hd
    | put key val => rw [hr, plain_put ht ho] at hd; cases hd
    | del key => rw [hr, plain_del ht ho] at hd; cases hd
    | putIf key val oldVal => rw [hr, plain_putIf ht ho] at hd; cases hd
  | midway hr hl hv hne => rw [hd] at hl; cases hl
  | settled he hid hl =>
    rw [hd] at hl
    cases hl
    exact ⟨_, he, hid, rfl⟩

end Standing

/-! ## Runs -/

/-- The invariant of an undisturbed run, with the effects so far. -/
structure PlainWorkers.Inv (dbObj : Db) (initial : Bytes → Option Bytes) (es : List WorkersEvent)
    (s : PlainWorkers) (effects : List Effect) : Prop where
  linearizes : Linearizes initial es s.data effects
  requests : s.threads.map Thread.request = submissions es
  standing : ∀ (i : Nat) th, s.threads[i]? = some th → Standing dbObj s.data effects i th

section Steps

variable {dbObj : Db} {initial : Bytes → Option Bytes} {es : List WorkersEvent} {s : PlainWorkers}
  {effects : List Effect}

theorem PlainWorkers.Inv.id_lt (h : s.Inv dbObj initial es effects) {e : Effect} (he : e ∈ effects) :
    e.id < s.threads.length := by
  have hlt := (List.getElem?_eq_some_iff.mp (h.linearizes.submitted e he)).1
  rwa [← h.requests, List.length_map] at hlt

theorem PlainWorkers.Inv.submit (h : s.Inv dbObj initial es effects) (r : KeyRequest) :
    PlainWorkers.Inv dbObj initial (es ++ [.submit r])
      { s with threads := s.threads ++ [{ request := r, prog := r.request.deliver dbObj }] }
      effects where
  linearizes := h.linearizes.snoc (by simp)
  requests := by rw [List.map_append, h.requests]; simp [submissions]
  standing i th hi := by
    cases Table.get_append hi with
    | inl hnew =>
      obtain ⟨rfl, rfl⟩ := hnew
      exact .fresh rfl fun e he => Nat.ne_of_lt (h.id_lt he)
    | inr hold => exact h.standing i th hold.2

theorem PlainWorkers.Inv.callback (ht : dbObj._transactional = false) (ho : dbObj._db ≠ none)
    (h : s.Inv dbObj initial es effects) {i : Nat} {th : Thread} {d : Delivery}
    (hi : s.threads[i]? = some th) (hd : th.prog = .ret d) :
    PlainWorkers.Inv dbObj initial (es ++ [.callback i d])
      { s with threads := s.threads.set i { th with called := true } } effects where
  linearizes := h.linearizes.callback ((h.standing i th hi).returned ht ho hd)
  requests := (requests_set { th with called := true } hi rfl).trans
    (by rw [h.requests]; simp [submissions])
  standing j u hj := by
    cases Table.get_set hi hj with
    | inl hown =>
      obtain ⟨rfl, rfl⟩ := hown
      cases h.standing j th hi with
      | fresh hp hne => exact .fresh hp hne
      | midway hr hl hv hne => exact .midway hr hl hv hne
      | settled he hid hl => exact .settled he hid hl
    | inr hother => exact h.standing j u hother.2

theorem PlainWorkers.Inv.bdb (ht : dbObj._transactional = false) (ho : dbObj._db ≠ none)
    (h : s.Inv dbObj initial es effects) {i : Nat} {th : Thread} {c : Call Bytes}
    {k : Reply c → BdbProg Bytes Delivery} {r : Reply c} (hi : s.threads[i]? = some th)
    (hc : th.prog = .call c k) (ha : Answers s.data ⟨c, r⟩) (hu : Undisturbed s (.bdb i ⟨c, r⟩)) :
    ∃ effects', PlainWorkers.Inv dbObj initial (es ++ [.bdb i ⟨c, r⟩])
      { data := BdbEvent.after ⟨c, r⟩ s.data, threads := s.threads.set i { th with prog := k r } }
      effects' := by
  have hrequests : (s.threads.set i { th with prog := k r }).map Thread.request =
      submissions (es ++ [.bdb i ⟨c, r⟩]) := by
    rw [requests_set { th with prog := k r } hi rfl, h.requests]
    simp [submissions]
  cases (h.standing i th hi).call ht ho hc ha with
  | inl hdone =>
    obtain ⟨d, hex, hl, hne⟩ := hdone
    have hsub : (submissions es)[i]? = some th.request := by
      rw [← h.requests, List.getElem?_map, hi]; rfl
    refine ⟨effects ++ [⟨i, th.request, d⟩], ?_, hrequests, fun j u hj => ?_⟩
    · exact (h.linearizes.effect hne hsub hex).snoc (by simp)
    · cases Table.get_set hi hj with
      | inl hown =>
        obtain ⟨rfl, rfl⟩ := hown
        exact .settled (List.mem_append_right _ (List.mem_singleton_self _)) rfl hl
      | inr hother =>
        apply (h.standing j u hother.2).frame
        · exact fun key hm => hu j u key hother.1 hother.2 hm
        · exact fun e he => List.mem_append_left _ he
        · intro e he
          cases List.mem_append.mp he with
          | inl hold => exact .inl hold
          | inr hnew => rw [List.mem_singleton.mp hnew]; exact .inr (Ne.symm hother.1)
  | inr hquiet =>
    obtain ⟨hm, hstage⟩ := hquiet
    rw [hm]
    refine ⟨effects, h.linearizes.snoc (by simp), hrequests, fun j u hj => ?_⟩
    cases Table.get_set hi hj with
    | inl hown =>
      obtain ⟨rfl, rfl⟩ := hown
      exact hstage
    | inr hother => exact h.standing j u hother.2

end Steps

/-- Nothing has been submitted yet. -/
def PlainWorkers.initial (m : Bytes → Option Bytes) : PlainWorkers := { data := m }

theorem PlainWorkers.inv_initial (dbObj : Db) (m : Bytes → Option Bytes) :
    (PlainWorkers.initial m).Inv dbObj m [] [] where
  linearizes := ⟨by simp, by simp, by simp, by simp, .nil⟩
  requests := rfl
  standing i th h := by simp [PlainWorkers.initial] at h

/-- Without transactions the requests of an undisturbed run have a linearization. -/
theorem plainWorkers_linearizable (dbObj : Db) (ht : dbObj._transactional = false)
    (ho : dbObj._db ≠ none) (m : Bytes → Option Bytes) (es : List WorkersEvent) (s : PlainWorkers)
    (h : Path (fun s e s' => PlainWorkers.Step dbObj s e s' ∧ Undisturbed s e)
      (PlainWorkers.initial m) es s) :
    ∃ effects, Linearizes m es s.data effects := by
  have hinv : ∃ effects, s.Inv dbObj m es effects := by
    apply h.invariant (I := fun es s => ∃ effects, s.Inv dbObj m es effects)
    · exact ⟨[], PlainWorkers.inv_initial dbObj m⟩
    · rintro es s e s' ⟨effects, hs⟩ ⟨hstep, hu⟩
      cases hstep with
      | submit r => exact ⟨effects, hs.submit r⟩
      | bdb hi hc ha => exact hs.bdb ht ho hi hc ha hu
      | callback hi hd hcalled => exact ⟨effects, hs.callback ht ho hi hd⟩
  obtain ⟨effects, hs⟩ := hinv
  exact ⟨effects, hs.linearizes⟩

/-! ## Two putIfs with one old value -/

/-- In any order, at most one of the putIfs that expect the same value stores its own. -/
theorem explainsAll_one_stores {m m' : Bytes → Option Bytes} {effects : List Effect}
    {key oldVal : Bytes} (h : ExplainsAll m effects m')
    (hp : ∀ e ∈ effects, ∃ val, e.request = .putIf key val oldVal ∧ val ≠ oldVal) :
    (∀ e ∈ effects, ∀ e' ∈ effects, e.delivery.code = 0 → e'.delivery.code = 0 → e = e') ∧
      ∀ e ∈ effects, e.delivery.code = 0 → m' key ≠ some oldVal := by
  induction h with
  | nil => exact ⟨fun _ he => (nomatch he), fun _ he => (nomatch he)⟩
  | @snoc effects e m₁ m₂ _ hex ih =>
    obtain ⟨hone, hgone⟩ := ih fun e he => hp e (List.mem_append_left _ he)
    obtain ⟨val, hr, hne⟩ := hp e (List.mem_append_right _ (List.mem_singleton_self e))
    -- the last one either stores, on the old value, or leaves the content alone
    have hlast : (e.delivery.code = 0 ∧ m₁ key = some oldVal ∧ m₂ key ≠ some oldVal) ∨
        (e.delivery.code ≠ 0 ∧ m₂ = m₁) := by
      rw [hr] at hex
      cases hex with
      | putIf hold hc => exact .inl ⟨hc, hold, by simp [hne]⟩
      | putIfOther _ _ hc => exact .inr ⟨by rw [hc]; decide, rfl⟩
      | putIfMissing _ hc => exact .inr ⟨by rw [hc]; decide, rfl⟩
      | failed hf => exact .inr ⟨hf.1, rfl⟩
    constructor
    · intro a ha b hb ha0 hb0
      cases List.mem_append.mp ha with
      | inl hold =>
        cases List.mem_append.mp hb with
        | inl hold' => exact hone a hold b hold' ha0 hb0
        | inr hnew =>
          rw [List.mem_singleton.mp hnew] at hb0
          exact absurd (hlast.resolve_right fun h => h.1 hb0).2.1 (hgone a hold ha0)
      | inr hnew =>
        rw [List.mem_singleton.mp hnew] at ha0 ⊢
        cases List.mem_append.mp hb with
        | inl hold' => exact absurd (hlast.resolve_right fun h => h.1 ha0).2.1 (hgone b hold' hb0)
        | inr hnew' => exact (List.mem_singleton.mp hnew').symm
    · intro a ha ha0
      cases hlast with
      | inl hstored => exact hstored.2.2
      | inr hquiet =>
        rw [hquiet.2]
        cases List.mem_append.mp ha with
        | inl hold => exact hgone a hold ha0
        | inr hnew => exact absurd (List.mem_singleton.mp hnew ▸ ha0) hquiet.1

/-- An open Db in an environment without `DB_INIT_TXN`. -/
def plainDb : Db := { _db := some 1, _env := some 0, _retries := 1 }

/-- One key, with the value 1. -/
def oneKey : Bytes → Option Bytes := Function.update (fun _ => none) [107] (some [1])

def putIfTwo : KeyRequest := .putIf [107] [2] [1]
def putIfThree : KeyRequest := .putIf [107] [3] [1]

def getOf (v : Bytes) : BdbEvent Bytes :=
  ⟨.get (some 1) none (buffer [107]) { flags := dbDbtMalloc } 0, (0, v)⟩
def loadOf : BdbEvent Bytes := ⟨.load [1] 1, [1]⟩
def putOf (v : Bytes) : BdbEvent Bytes :=
  ⟨.put (some 1) none (buffer [107]) (buffer v) 0, (0 : Int)⟩

/-- Both putIfs find the 1, and both replace it. -/
def lostRun : List WorkersEvent :=
  [.submit putIfTwo, .submit putIfThree, .bdb 0 (getOf [1]), .bdb 1 (getOf [1]),
   .bdb 0 loadOf, .bdb 0 (putOf [2]), .bdb 1 loadOf, .bdb 1 (putOf [3]),
   .callback 0 (told 0), .callback 1 (told 0)]

theorem putIfTwo_prog : putIfTwo.request.deliver plainDb =
    .call (getOf [1]).1 fun r =>
      if r.1 = 0 then comparing plainDb [107] [2] [1] r.2 else .ret (told r.1) :=
  plain_putIf rfl (by decide) _ _ _

theorem putIfThree_prog : putIfThree.request.deliver plainDb =
    .call (getOf [1]).1 fun r =>
      if r.1 = 0 then comparing plainDb [107] [3] [1] r.2 else .ret (told r.1) :=
  plain_putIf rfl (by decide) _ _ _

theorem get_answers {m : Bytes → Option Bytes} {v : Bytes} (h : m [107] = some v) :
    Answers m (getOf v) := .access rfl rfl h

theorem put_answers (m : Bytes → Option Bytes) (v : Bytes) : Answers m (putOf v) :=
  .access rfl rfl trivial

theorem load_answers (m : Bytes → Option Bytes) : Answers m loadOf := .load

theorem lostRun_path : ∃ s, Path (PlainWorkers.Step plainDb) (PlainWorkers.initial oneKey) lostRun s := by
  have hsubmit : PlainWorkers.Step plainDb (.initial oneKey) (.submit putIfTwo) _ := .submit putIfTwo
  have h := (Path.nil.snoc hsubmit).snoc (.submit putIfThree)
  have h := h.snoc (.bdb (i := 0) rfl putIfTwo_prog (get_answers (v := [1]) rfl))
  have h := h.snoc (.bdb (i := 1) rfl putIfThree_prog (get_answers (v := [1]) rfl))
  have h := h.snoc (.bdb (i := 0) rfl rfl (load_answers _))
  have h := h.snoc (.bdb (i := 0) rfl rfl (put_answers _ [2]))
  have h := h.snoc (.bdb (i := 1) rfl rfl (load_answers _))
  have h := h.snoc (.bdb (i := 1) rfl rfl (put_answers _ [3]))
  have h := h.snoc (.callback (i := 0) rfl rfl rfl)
  have h := h.snoc (.callback (i := 1) rfl rfl rfl)
  exact ⟨_, h⟩

/-- No order of the two putIfs explains that both report success. -/
theorem lostRun_unexplained :
    ∃ s, Path (PlainWorkers.Step plainDb) (PlainWorkers.initial oneKey) lostRun s ∧
      ¬ ∃ effects, Linearizes oneKey lostRun s.data effects := by
  obtain ⟨s, hpath⟩ := lostRun_path
  refine ⟨s, hpath, ?_⟩
  rintro ⟨effects, h⟩
  have hp : ∀ e ∈ effects, ∃ val, e.request = .putIf [107] val [1] ∧ val ≠ [1] := by
    intro e he
    have hs := h.submitted e he
    have hreq : e.request = putIfTwo ∨ e.request = putIfThree := by
      match hid : e.id with
      | 0 => rw [hid] at hs; exact .inl (Option.some.inj hs).symm
      | 1 => rw [hid] at hs; exact .inr (Option.some.inj hs).symm
      | n + 2 => rw [hid] at hs; cases hs
    cases hreq with
    | inl htwo => exact ⟨[2], htwo, by decide⟩
    | inr hthree => exact ⟨[3], hthree, by decide⟩
  obtain ⟨a, ha, ha0, had⟩ := h.called 0 (told 0) (by simp [lostRun])
  obtain ⟨b, hb, hb1, hbd⟩ := h.called 1 (told 0) (by simp [lostRun])
  have heq := (explainsAll_one_stores h.explains hp).1 a ha b hb (by rw [had]; rfl) (by rw [hbd]; rfl)
  rw [heq, hb1] at ha0
  cases ha0

/-- The second putIf starts when the first has stored, and finds the 2. -/
def politeRun : List WorkersEvent :=
  [.submit putIfTwo, .submit putIfThree, .bdb 0 (getOf [1]), .bdb 0 loadOf, .bdb 0 (putOf [2]),
   .bdb 1 (getOf [2]), .callback 0 (told 0), .bdb 1 loadOf, .callback 1 (told consistencyError)]

theorem undisturbed_quiet {s : PlainWorkers} {i : Nat} {e : BdbEvent Bytes}
    (h : e.after s.data = s.data) : Undisturbed s (.bdb i e) :=
  fun _ _ _ _ _ _ => by rw [h]

/-- A worker that is about to get is not midway. -/
theorem getting_not_midway {th : Thread} {key v : Bytes}
    {k : Reply (getOf v).1 → BdbProg Bytes Delivery} (h : th.prog = .call (getOf v).1 k) :
    ¬ th.Midway key := by
  rintro ⟨-, db, x, dbtKey, dbtVal, flags, k', hl⟩
  rw [h] at hl
  cases hl

theorem politeRun_path : ∃ s, Path (fun s e s' => PlainWorkers.Step plainDb s e s' ∧ Undisturbed s e)
    (PlainWorkers.initial oneKey) politeRun s := by
  have hsubmit : PlainWorkers.Step plainDb (.initial oneKey) (.submit putIfTwo) _ := .submit putIfTwo
  have h : Path (fun s e s' => PlainWorkers.Step plainDb s e s' ∧ Undisturbed s e) _ _ _ :=
    Path.nil.snoc ⟨hsubmit, trivial⟩
  have h := h.snoc ⟨.submit putIfThree, trivial⟩
  have h := h.snoc ⟨.bdb (i := 0) rfl putIfTwo_prog (get_answers (v := [1]) rfl), undisturbed_quiet rfl⟩
  have h := h.snoc ⟨.bdb (i := 0) rfl rfl (load_answers _), undisturbed_quiet rfl⟩
  have h := h.snoc ⟨.bdb (i := 0) rfl rfl (put_answers _ [2]), ?_⟩
  · have h := h.snoc ⟨.bdb (i := 1) rfl putIfThree_prog (get_answers (v := [2]) rfl),
      undisturbed_quiet rfl⟩
    have h := h.snoc ⟨.callback (i := 0) rfl rfl rfl, trivial⟩
    have h := h.snoc ⟨.bdb (i := 1) rfl rfl (load_answers _), undisturbed_quiet rfl⟩
    have h := h.snoc ⟨.callback (i := 1) rfl rfl rfl, trivial⟩
    exact ⟨_, h⟩
  · intro j th key hj hth hm
    match j with
    | 0 => exact absurd rfl hj
    | 1 =>
      cases hth
      exact absurd hm (getting_not_midway putIfThree_prog)
    | j + 2 => cases hth

theorem politeRun_linearizable :
    ∃ s, Path (fun s e s' => PlainWorkers.Step plainDb s e s' ∧ Undisturbed s e)
        (PlainWorkers.initial oneKey) politeRun s ∧
      ∃ effects, Linearizes oneKey politeRun s.data effects := by
  obtain ⟨s, h⟩ := politeRun_path
  exact ⟨s, h, plainWorkers_linearizable plainDb rfl (by decide) oneKey politeRun s h⟩

end NodeBdb
