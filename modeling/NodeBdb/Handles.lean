import NodeBdb.Pinned
import NodeBdb.Overtaken
import NodeBdb.Calling

/-!
# The life of a DB handle

`Db::CloseS` sets the pointer to NULL and the destructor closes what is left, so a handle
is closed once. Whether the pointer is NULL is asked by `openSync` and by the workers;
the synchronous operations, `setFlags`, `setEncrypt`, `_associateSync` and `closeSync`
itself call through it, and a worker that finds it NULL has no error to report.
-/

namespace NodeBdb

open Interaction Transition

/-! ## Calls on a handle -/

/-- The handle whose method a call enters. -/
def Call.onDb {δ : Type} : Call δ → Option (Option DbHandle)
  | .get db .. | .put db .. | .del db .. | .cursor db _ => some db
  | _ => none

/-- A program that enters the handles `P` and no others. -/
def onHandles {δ : Type} (P : Option DbHandle → Prop) : Monitor (Call δ) Reply Unit where
  admits _ c := ∀ q, c.onDb = some q → P q
  next _ _ _ := ()

theorem onHandles_other {δ : Type} {P : Option DbHandle → Prop} {c : Call δ} (hc : c.onDb = none) :
    (onHandles P).admits () c := by
  intro q hq
  rw [hc] at hq
  cases hq

/-- An operation calls through no handle but that of its Db. -/
theorem onHandles_admits {δ : Type} (dbObj : Db) :
    Admits (onHandles (· = dbObj._db) : Monitor (Call δ) Reply Unit) dbObj where
  txn _ := ⟨onHandles_other rfl, fun _ => onHandles_other rfl, fun _ => onHandles_other rfl⟩
  get _ _ _ _ _ hq := (Option.some.inj hq).symm
  put _ _ _ _ _ hq := (Option.some.inj hq).symm
  del _ _ _ _ hq := (Option.some.inj hq).symm
  cursor _ _ hq := (Option.some.inj hq).symm
  cursorGet _ _ _ _ := onHandles_other rfl
  cursorClose _ := onHandles_other rfl
  load _ _ := onHandles_other rfl

/-- The handles the worker of a job may call through. -/
def Job.through : Job → Option DbHandle → Prop
  | .db j _ _, h => h = some j
  | .checkpoint .., _ => False

theorem consults_onDb {δ : Type} {c : Call δ} (h : c.consults = true) : ∃ q, c.onDb = some q := by
  cases c with
  | get db => exact ⟨db, rfl⟩
  | put db => exact ⟨db, rfl⟩
  | del db => exact ⟨db, rfl⟩
  | cursor db => exact ⟨db, rfl⟩
  | _ => cases h

/-- The handles an entry calls through, a secondary among them. -/
def Entry.onDb : Entry → List (Option DbHandle)
  | .db _ h _ (.associate secondary _) _ => [h, secondary]
  | .db _ h _ _ _ => [h]
  | .direct _ t _ => t.filterMap fun e => e.1.onDb
  | .call _ e => e.1.onDb.toList
  | _ => []

/-- The close of the handle `q`. -/
def Entry.closesHandle (q : DbHandle) : Entry → Bool
  | .db _ h _ m _ => h == some q && m.closes
  | _ => false

/-- The handle is no NULL, and has not been closed. -/
def HandleOpen (log : List Entry) (h : Option DbHandle) : Prop :=
  ∃ q, h = some q ∧ ∀ entry ∈ log, entry.closesHandle q = false

/-- What an entry owes to the log before it: it calls through open handles, and a synchronous
operation on a closed Db returns an error. -/
structure Sound (log : List Entry) (entry : Entry) : Prop where
  calls : ∀ h ∈ entry.onDb, HandleOpen log h
  told : ∀ j t d, entry = .direct j t d → DbClosed j log → d.code ≠ 0

/-- A worker that started after the close of its Db comes to an error, and delivers it. -/
def Tells (s : System) : Prop :=
  ∀ k req j r baton job, s.requests[k]? = some req → req.job = .db j r baton →
    Overtaken s.log k j → req.stage = .working (.ret job) ∨ .callback k job.after ∈ s.log →
    job.after.code ≠ 0

structure HandleLaw (s : System) : Prop where
  sound : Table.Each Sound s.log
  tells : Tells s

/-- No method is called on a Db whose close has been called, `openSync` apart, and no worker
starts on one. -/
def UsesOpen (s : System) : SysEvent → Prop
  | .js (.db j (.sync m args _)) => m ≠ .openS → ∀ db out, s.dbs[j]? = some db →
      m.run db.fields args = .ok out → ¬ DbClosed j s.log
  | .js (.db j (.associateSync args (.found _))) => ∀ k flags,
      associateArgs args = .ok (.wrapper (.db k), flags) → ¬ DbClosed j s.log ∧ ¬ DbClosed k s.log
  | .js (.db j (.direct m args _)) => ∀ c, m.parse args = .ok c → ¬ DbClosed j s.log
  | .start k => ∀ req j r baton, s.requests[k]? = some req → req.job = .db j r baton →
      ¬ DbClosed j s.log
  | _ => True

section

variable {s s' : System} {e : SysEvent} {n : Int} {es : List SysEvent}

/-! ## Whose handle it is -/

/-- The j-th `Db` has the j-th handle, or none any more; and only it closes it. -/
structure Named (s : System) : Prop where
  dbs : ∀ (j : Nat) db, s.dbs[j]? = some db → db.fields._db = none ∨ db.fields._db = some j
  closes : ∀ entry ∈ s.log, ∀ q, entry.closesHandle q = true → entry.closesDb q = true

theorem Named.append (h : Named s) {entries : List Entry} (hl : s'.log = s.log ++ entries)
    (hd : ∀ (j : Nat) db, s'.dbs[j]? = some db → db.fields._db = none ∨ db.fields._db = some j)
    (he : ∀ entry ∈ entries, ∀ q, entry.closesHandle q = true → entry.closesDb q = true) :
    Named s' := by
  refine ⟨hd, fun entry hm => ?_⟩
  rw [hl] at hm
  exact (List.mem_append.mp hm).elim (h.closes entry) (he entry)

theorem named_entry {j : Nat} {h : Option DbHandle} {env : Option EnvHandle} {m : DbMethod}
    {rc : Int} (hj : h = none ∨ h = some j) (q : DbHandle)
    (hc : (Entry.db j h env m rc).closesHandle q = true) : (Entry.db j h env m rc).closesDb q = true := by
  cases hj with
  | inl hnone => simp [Entry.closesHandle, hnone] at hc
  | inr hsome => simpa [Entry.closesHandle, Entry.closesDb, hsome] using hc

theorem Named.step (h : Named s) (hs : s.Step e s') : Named s' := by
  have hd : ∀ (j : Nat) db, s'.dbs[j]? = some db → db.fields._db = none ∨ db.fields._db = some j := by
    intro j db' hj
    cases dbs_step hs hj with
    | inl hold =>
      obtain ⟨db, hdb, hm⟩ := hold
      cases hm.handle with
      | inl hsame => rw [hsame.1]; exact h.dbs j db hdb
      | inr hnone => exact .inl hnone.1
    | inr hnew =>
      obtain ⟨rfl, i, env, rc, -, -, -, rfl⟩ := hnew
      by_cases hrc : rc = 0
      · exact .inr (by simp [Db.new, hrc])
      · exact .inl (by simp [Db.new, hrc])
  cases hs with
  | dbSync _ hdb _ _ =>
    exact h.append rfl hd fun x hx => by
      rw [List.mem_singleton.mp hx]; exact named_entry (h.dbs _ _ hdb)
  | associate _ hdb =>
    exact h.append rfl hd fun x hx => by
      rw [List.mem_singleton.mp hx]; exact named_entry (h.dbs _ _ hdb)
  | closedDb _ hdb _ =>
    apply h.append (List.append_assoc ..) hd
    intro x hx
    cases List.mem_cons.mp hx with
    | inl hfin =>
      rw [hfin]
      intro _ hq
      cases hq
    | inr hx => rw [List.mem_singleton.mp hx]; exact named_entry (h.dbs _ _ hdb)
  | unchanged => exact ⟨hd, h.closes⟩
  | drop => exact ⟨hd, h.closes⟩
  | dbUncalled => exact ⟨hd, h.closes⟩
  | closedEnv => exact h.append (List.append_assoc ..) hd (by simp [Entry.closesHandle])
  | _ => exact h.append rfl hd (by simp [Entry.closesHandle])

theorem path_named_dbs (hp : FPath System.step (.initial n) es s) : Named s := by
  induction hp with
  | nil => exact ⟨fun _ _ hj => (nomatch hj), fun _ hm => (nomatch hm)⟩
  | snoc _ hst ih => exact ih.step (step_cases hst)

theorem closesHandle_closed {j : Nat} (hn : Named s) {entry : Entry} (hm : entry ∈ s.log)
    (hc : entry.closesHandle j = true) : DbClosed j s.log :=
  List.any_eq_true.mpr ⟨entry, hm, hn.closes entry hm j hc⟩

/-- A handle that is still in its field is open. -/
theorem handle_open {j : Nat} {db : WrappedDb} (hp : FPath System.step (.initial n) es s)
    (hj : s.dbs[j]? = some db) (ho : db.fields._db ≠ none) : HandleOpen s.log db.fields._db := by
  have hn := path_named_dbs hp
  refine ⟨j, (hn.dbs j db hj).resolve_left ho, fun entry hm => ?_⟩
  by_contra hc
  have hclosed := closesHandle_closed hn hm (by simpa using hc)
  exact ho ((path_closing hp).closed j db hclosed hj)

/-- The handle of a Db somebody knows is open exactly until its close is called. -/
theorem handle_open_iff {j : Nat} {db : WrappedDb} (hp : FPath System.step (.initial n) es s)
    (hj : s.dbs[j]? = some db) (hk : s.Known (.db j)) :
    HandleOpen s.log db.fields._db ↔ ¬ DbClosed j s.log := by
  constructor
  · rintro ⟨q, hq, -⟩ hclosed
    rw [(path_closing hp).closed j db hclosed hj] at hq
    cases hq
  · intro hopen
    apply handle_open hp hj
    intro hnone
    exact hopen ((path_closing hp).known j db hk hj hnone)

/-! ## Workers -/

/-- Every worker on a Db calls through the handle of that Db. -/
def WorkersOn (s : System) : Prop :=
  ∀ (k : Nat) (req : EioReq) p, s.requests[k]? = some req → req.stage = .working p →
    (onHandles req.job.through).Obeys (fun _ _ => True) () p

theorem program_on {job : Job} {p : BdbProg Bytes Job} (hn : Named s)
    (hp : s.program job = some p) : (onHandles job.through).Obeys (fun _ _ => True) () p := by
  cases job with
  | db j r baton =>
    obtain ⟨db, hdb, rfl⟩ := Option.map_eq_some_iff.mp hp
    rw [Job.workDb, obeys_bind]
    cases hn.dbs j db hdb with
    | inl hnone =>
      rw [worker_closed hnone]
      exact trivial
    | inr hsome =>
      have hw := worker_admitted (onHandles_admits db.fields) r baton
      rw [hsome] at hw
      exact hw
  | checkpoint i baton =>
    obtain ⟨env, henv, rfl⟩ := Option.map_eq_some_iff.mp hp
    rw [Job.workEnv, obeys_bind, eioCheckpoint]
    split
    · trivial
    · exact ⟨onHandles_other rfl, fun _ _ => trivial⟩

theorem WorkersOn.step (h : WorkersOn s) (hn : Named s) (hs : s.Step e s') : WorkersOn s' := by
  intro i x p hi hp
  apply working_step (P := fun job p => (onHandles job.through).Obeys (fun _ _ => True) () p) hs
    _ _ h hi hp
  · exact fun _ _ hprog => program_on hn hprog
  · exact fun _ _ _ r hw => hw.2 r trivial

theorem path_workersOn (hp : FPath System.step (.initial n) es s) : WorkersOn s := by
  induction hp with
  | nil => exact fun _ _ _ hk => nomatch hk
  | snoc hp hst ih => exact ih.step (path_named_dbs hp) (step_cases hst)

theorem worker_sound {k : Nat} {req : EioReq} {c : Call Bytes} {next : Reply c → BdbProg Bytes Job}
    (hp : FPath System.step (.initial n) es s) (hk : s.requests[k]? = some req)
    (hw : req.stage = .working (.call c next)) (r : Reply c) : Sound s.log (.call k ⟨c, r⟩) := by
  refine ⟨fun h hm => ?_, fun _ _ _ he => nomatch he⟩
  have hon : c.onDb = some h := Option.mem_toList.mp hm
  have hthrough := (path_workersOn hp k req _ hk hw).1 h hon
  cases hj : req.job with
  | db j r baton =>
    obtain ⟨db, hdb, ho⟩ := path_workersOpen hp k req j r baton hk (by rw [hw]; rfl) hj
    rw [hj] at hthrough
    have hname := ((path_named_dbs hp).dbs j db hdb).resolve_left ho
    have hopen := handle_open hp hdb ho
    rw [hname] at hopen
    rw [show h = some j from hthrough]
    exact hopen
  | checkpoint i baton =>
    rw [hj] at hthrough
    exact hthrough.elim

/-! ## The script -/

theorem sound_other {entry : Entry} (h : entry.onDb = []) (hd : ∀ j t d, entry ≠ .direct j t d)
    (log : List Entry) : Sound log entry :=
  ⟨fun q hq => (by rw [h] at hq; cases hq), fun j t d he => absurd he (hd j t d)⟩

/-- An entry of a method of the j-th Db, with the handle it was called on. -/
theorem sound_method {j : Nat} {db : WrappedDb} {m : DbMethod} {rc : Int} {log : List Entry}
    (hm : ∀ secondary flags, m ≠ .associate secondary flags) :
    Sound log (.db j db.fields._db db.fields._env m rc) ↔ HandleOpen log db.fields._db := by
  have hon : (Entry.db j db.fields._db db.fields._env m rc).onDb = [db.fields._db] := by
    cases m with
    | associate secondary flags => exact absurd rfl (hm secondary flags)
    | _ => rfl
  constructor
  · intro h
    exact h.calls _ (by rw [hon]; exact List.mem_singleton_self _)
  · intro h
    refine ⟨fun q hq => ?_, fun _ _ _ he => nomatch he⟩
    rw [hon] at hq
    rw [List.mem_singleton.mp hq]
    exact h

theorem sound_associate {j : Nat} {db : WrappedDb} {secondary : Option DbHandle} {flags rc : Int}
    {log : List Entry} : Sound log (.db j db.fields._db db.fields._env (.associate secondary flags) rc) ↔
      HandleOpen log db.fields._db ∧ HandleOpen log secondary := by
  constructor
  · intro h
    exact ⟨h.calls _ List.mem_cons_self, h.calls _ (List.mem_cons_of_mem _ List.mem_cons_self)⟩
  · rintro ⟨hp, hs⟩
    refine ⟨fun q hq => ?_, fun _ _ _ he => nomatch he⟩
    cases List.mem_cons.mp hq with
    | inl he => rw [he]; exact hp
    | inr hq => rw [List.mem_singleton.mp hq]; exact hs

/-- A synchronous operation is sound exactly on a Db whose close has not been called. -/
theorem sound_direct {j : Nat} {db : WrappedDb} {c : DirectCall Bytes} {t : BdbTrace Bytes}
    {d : Delivery} (hp : FPath System.step (.initial n) es s) (hj : s.dbs[j]? = some db)
    (hk : s.Known (.db j)) (hr : Runs (c.deliver db.fields) t d) :
    Sound s.log (.direct j t d) ↔ ¬ DbClosed j s.log := by
  constructor
  · intro h hclosed
    have hnone : db.fields._db = none := (path_closing hp).closed j db hclosed hj
    have hcalls : ∀ e ∈ t, e.1.consults = false := by
      intro e he
      by_contra hc
      obtain ⟨q, hq⟩ := consults_onDb (by simpa using hc)
      have honly := admitted_runs (fun _ _ => trivial) (direct_admitted (onHandles_admits db.fields) c)
        hr e he q hq
      obtain ⟨q', hq', -⟩ := h.calls q (List.mem_filterMap.mpr ⟨e, he, hq⟩)
      rw [honly, hnone] at hq'
      cases hq'
    -- so the only call was a refused `txn_begin`, which is told as success
    obtain ⟨d₀, h0, hop⟩ := direct_opening db.fields c
    cases ht : db.fields._transactional with
    | false =>
      obtain ⟨c', k, he, hc⟩ := hop.plain ht
      rw [he] at hr
      obtain ⟨r, t', rfl, -⟩ := hr
      rw [hcalls _ List.mem_cons_self] at hc
      cases hc
    | true =>
      obtain ⟨k, he, hrefused, hgranted⟩ := hop.transactional ht
      rw [he] at hr
      obtain ⟨r, t', rfl, hr⟩ := hr
      by_cases hc : r.1 = 0
      · obtain ⟨c', k', he', hc'⟩ := hgranted r hc
        rw [he'] at hr
        obtain ⟨r', t'', rfl, -⟩ := hr
        rw [hcalls ⟨c', r'⟩ (by simp)] at hc'
        cases hc'
      · rw [hrefused r hc] at hr
        have hd := h.told j _ d rfl hclosed
        rw [hr.2] at hd
        exact hd h0
  · intro hopen
    refine ⟨fun q hq => ?_, fun j' t' d' he hclosed => ?_⟩
    · obtain ⟨e, he, hon⟩ := List.mem_filterMap.mp hq
      rw [admitted_runs (fun _ _ => trivial) (direct_admitted (onHandles_admits db.fields) c)
        hr e he q hon]
      exact (handle_open_iff hp hj hk).mpr hopen
    · cases he
      exact absurd hclosed hopen

/-- Of the synchronous methods only `openSync` asks for the handle, and calls none if it is NULL. -/
theorem dbSync_method {m : DbSync} {db fields : Db} {args : List JsValue} {method : Option DbMethod}
    (h : m.run db args = .ok (fields, method)) :
    (∀ secondary flags, method ≠ some (.associate secondary flags)) ∧
      if m = .openS then method = none ∨ db._db ≠ none else method ≠ none := by
  cases m with
  | openS =>
    obtain ⟨_, -, h⟩ := bind_ok h
    obtain ⟨_, -, h⟩ := bind_ok h
    obtain ⟨_, -, h⟩ := bind_ok h
    obtain ⟨_, -, h⟩ := bind_ok h
    obtain ⟨_, -, h⟩ := bind_ok h
    cases h
    by_cases ho : db._db = none <;> simp [ho]
  | closeS =>
    obtain ⟨_, -, h⟩ := bind_ok h
    cases h
    simp
  | setFlags =>
    obtain ⟨_, -, h⟩ := bind_ok h
    cases h
    simp
  | setEncrypt =>
    obtain ⟨_, -, h⟩ := bind_ok h
    cases h
    simp

theorem sync_sound_iff {j : Nat} {m : DbSync} {args : List JsValue} {rc : Int}
    (hp : FPath System.step (.initial n) es s)
    (hs : s.step (.js (.db j (.sync m args rc))) = some s') :
    Table.Each Sound s'.log ↔
      Table.Each Sound s.log ∧ UsesOpen s (.js (.db j (.sync m args rc))) := by
  obtain ⟨hm, o, hjs⟩ := step_js hs
  obtain ⟨db, hdb, hjs⟩ := Option.bind_eq_some_iff.mp hjs
  cases checked_cases hjs with
  | inl hbad =>
    obtain ⟨msg, hbad, -, rfl⟩ := hbad
    refine (and_iff_left ?_).symm
    intro _ db' out hdb' hrun
    obtain rfl : db = db' := Option.some.inj (hdb.symm.trans hdb')
    rw [hbad] at hrun
    cases hrun
  | inr hgood =>
    obtain ⟨⟨fields, method⟩, hrun, hjs⟩ := hgood
    by_cases hb : fields ≠ db.fields ∧ s.busy j = true
    · simp [hb] at hjs
    · simp only [hb, ↓reduceIte] at hjs
      obtain ⟨hassoc, hmethod⟩ := dbSync_method hrun
      cases method with
      | none =>
        cases hjs
        refine (and_iff_left ?_).symm
        intro hne
        simp [hne] at hmethod
      | some method =>
        cases hjs
        have hopen := handle_open_iff hp hdb (.inl (hm _ List.mem_cons_self))
        refine Table.each_snoc.trans (and_congr_right fun _ => ?_)
        rw [sound_method fun secondary flags he => hassoc secondary flags (congrArg some he)]
        by_cases ho : m = .openS
        · rw [if_pos ho] at hmethod
          constructor
          · exact fun _ hne => absurd ho hne
          · exact fun _ => handle_open hp hdb (hmethod.resolve_left (Option.some_ne_none _))
        · rw [hopen]
          constructor
          · exact fun h _ _ _ _ _ => h
          · exact fun h => h ho db _ hdb hrun

theorem associateArgs_mem {args : List JsValue} {sdb : JsValue} {flags : Int}
    (h : associateArgs args = .ok (sdb, flags)) : sdb ∈ args := by
  obtain ⟨_, hobj, h⟩ := bind_ok h
  obtain ⟨_, -, h⟩ := bind_ok h
  obtain ⟨_, -, h⟩ := bind_ok h
  obtain ⟨_, -, h⟩ := bind_ok h
  cases h
  exact reqObjArg_mem hobj

theorem associate_sound_iff {j : Nat} {args : List JsValue} {rc : Int}
    (hp : FPath System.step (.initial n) es s)
    (hs : s.step (.js (.db j (.associateSync args (.found rc)))) = some s') :
    Table.Each Sound s'.log ↔
      Table.Each Sound s.log ∧ UsesOpen s (.js (.db j (.associateSync args (.found rc)))) := by
  obtain ⟨hm, o, hjs⟩ := step_js hs
  obtain ⟨db, hdb, hjs⟩ := Option.bind_eq_some_iff.mp hjs
  cases checked_cases hjs with
  | inl hbad =>
    obtain ⟨msg, hbad, -, rfl⟩ := hbad
    refine (and_iff_left ?_).symm
    intro k flags hargs
    rw [hbad] at hargs
    cases hargs
  | inr hgood =>
    obtain ⟨⟨sdb, flags⟩, hargs, hjs⟩ := hgood
    match sdb, hargs, hjs with
    | .wrapper (.db k), hargs, hjs =>
      obtain ⟨second, hsecond, hjs⟩ := Option.bind_eq_some_iff.mp hjs
      cases hjs
      have hk : s.Known (.db k) := by
        refine .inl (hm _ (List.mem_cons_of_mem _ ?_))
        exact List.mem_flatMap.mpr ⟨_, associateArgs_mem hargs, List.mem_singleton_self _⟩
      refine Table.each_snoc.trans (and_congr_right fun _ => ?_)
      rw [sound_associate, handle_open_iff hp hdb (.inl (hm _ List.mem_cons_self)),
        handle_open_iff hp hsecond hk]
      constructor
      · intro h k' flags' hargs'
        rw [hargs] at hargs'
        cases hargs'
        exact h
      · exact fun h => h k flags hargs

theorem direct_sound_iff {j : Nat} {m : SyncMethod} {args : List JsValue}
    {o : Oracle (Call Bytes) Reply} (hp : FPath System.step (.initial n) es s)
    (hs : s.step (.js (.db j (.direct m args o))) = some s') :
    Table.Each Sound s'.log ↔
      Table.Each Sound s.log ∧ UsesOpen s (.js (.db j (.direct m args o))) := by
  obtain ⟨hm, out, hjs⟩ := step_js hs
  obtain ⟨db, hdb, hjs⟩ := Option.bind_eq_some_iff.mp hjs
  cases checked_cases hjs with
  | inl hbad =>
    obtain ⟨msg, hbad, -, rfl⟩ := hbad
    refine (and_iff_left ?_).symm
    intro c hparse
    rw [hbad] at hparse
    cases hparse
  | inr hgood =>
    obtain ⟨c, hparse, hjs⟩ := hgood
    cases hjs
    refine Table.each_snoc.trans (and_congr_right fun _ => ?_)
    rw [sound_direct hp hdb (.inl (hm _ List.mem_cons_self)) (runs_exec o (c.deliver db.fields))]
    constructor
    · exact fun h _ _ => h
    · exact fun h => h c hparse

/-- The other steps make no call through a Db handle but on an open one. -/
theorem other_sound (hp : FPath System.step (.initial n) es s) (hs : s.Step e s')
    (hj : ∀ j c, e = .js (.db j c) → ∃ m args captured, c = .request m args captured) :
    Table.Each Sound s'.log ↔ Table.Each Sound s.log := by
  have hone : ∀ {log : List Entry} {entry : Entry}, Sound log entry →
      (Table.Each Sound (log ++ [entry]) ↔ Table.Each Sound log) :=
    fun h => Table.each_snoc.trans (and_iff_left h)
  cases hs with
  | bdb hk hw => exact hone (worker_sound hp hk hw _)
  | @closedDb j rc db _ hdb ho =>
    refine (hone ?_).trans (hone (sound_other rfl (by simp) _))
    rw [sound_method (by simp)]
    obtain ⟨q, hq, hopen⟩ := handle_open hp hdb ho
    refine ⟨q, hq, fun entry hm => ?_⟩
    cases List.mem_append.mp hm with
    | inl hm => exact hopen entry hm
    | inr hm => rw [List.mem_singleton.mp hm]; rfl
  | closedEnv => exact (hone (sound_other rfl (by simp) _)).trans (hone (sound_other rfl (by simp) _))
  | unchanged => exact Iff.rfl
  | drop => exact Iff.rfl
  | dbSync => obtain ⟨_, _, _, he⟩ := hj _ _ rfl; cases he
  | dbUncalled => exact Iff.rfl
  | associate => obtain ⟨_, _, _, he⟩ := hj _ _ rfl; cases he
  | direct => obtain ⟨_, _, _, he⟩ := hj _ _ rfl; cases he
  | _ => exact hone (sound_other rfl (by simp) _)

/-! ## Workers that start too late -/

/-- No worker on a Db started after its close. -/
def NoneOvertaken (s : System) : Prop :=
  ∀ k req j r baton, s.requests[k]? = some req → req.job = .db j r baton → ¬ Overtaken s.log k j

/-- A worker that started after the close has come to code 0, and delivers it. -/
theorem overtaken_zero {k j : Nat} {req : EioReq} {r : Request Bytes} {baton : EIODbBaton Bytes}
    (hp : FPath System.step (.initial n) es s) (hk : s.requests[k]? = some req)
    (hj : req.job = .db j r baton) (ho : Overtaken s.log k j) :
    ∃ job, (req.stage = .working (.ret job) ∨ .callback k job.after ∈ s.log) ∧
      job.after.code = 0 := by
  have hrec := path_recounted hp
  have hm := path_met hp k req hk j r baton hj
  have hstory := hrec.story k req hk
  have hf := hrec.fresh req (List.mem_of_getElem? hk)
  have hmem : ∀ {entry}, entry ∈ history k s.log → entry ∈ s.log :=
    fun h => (List.mem_filter.mp h).1
  -- a worker of the job that makes no call returns the baton as it was
  have hzero : ∀ {p job}, req.job.Worker p → Runs p req.calls job → req.calls = [] →
      job.after.code = 0 := by
    intro p job hw hr hnil
    rw [hj] at hw hf
    obtain ⟨dbObj, rfl⟩ := hw
    obtain rfl : baton = r.baton := hf
    rw [hnil] at hr
    by_cases hdb : dbObj._db = none
    · rw [workDb_closed hdb] at hr
      rw [hr.2]
      cases r <;> rfl
    · obtain ⟨c, next, he⟩ := workDb_calls hdb j r
      rw [he] at hr
      obtain ⟨_, _, hcalls, -⟩ := hr
      cases hcalls
  generalize hlog : history k s.log = log at hstory
  cases hstory with
  | queued =>
    obtain ⟨pre, post, he, -⟩ := ho
    have hin := mem_history (k := k) (by simp [Entry.about]) (he ▸ List.mem_append_right pre
      (List.mem_cons_self (a := Entry.start k) (l := post)))
    rw [hlog] at hin
    simp at hin
  | working hw _ _ =>
    rw [hw] at hm
    obtain ⟨-, rfl⟩ := hm.1 ho
    refine ⟨req.job, .inl hw, ?_⟩
    rw [hj] at hf ⊢
    obtain rfl : baton = r.baton := hf
    cases r <;> rfl
  | @calling p job hc hw hr =>
    rw [hc] at hm
    exact ⟨job, .inr (hmem (by rw [hlog]; simp)), hzero hw hr (hm.mp ho)⟩
  | @completed p job hc hw hr =>
    rw [hc] at hm
    exact ⟨job, .inr (hmem (by rw [hlog]; simp)), hzero hw hr (hm.mp ho)⟩

theorem tells_iff (hp : FPath System.step (.initial n) es s) : Tells s ↔ NoneOvertaken s := by
  constructor
  · intro h k req j r baton hk hj ho
    obtain ⟨job, hjob, h0⟩ := overtaken_zero hp hk hj ho
    exact h k req j r baton job hk hj ho hjob h0
  · intro h k req j r baton job hk hj ho
    exact absurd ho (h k req j r baton hk hj)

theorem overtaken_grows {log entries : List Entry} {k j : Nat} (h : Overtaken log k j) :
    Overtaken (log ++ entries) k j := by
  obtain ⟨pre, post, rfl, hc⟩ := h
  exact ⟨pre, post ++ entries, by simp, hc⟩

/-- A worker is overtaken where it starts, or never. -/
theorem overtaken_new {k j : Nat} {req : EioReq} (hr : Recounted s) (hs : s.Step e s')
    (hk : s.requests[k]? = some req) (h : Overtaken s'.log k j) :
    Overtaken s.log k j ∨ e = .start k ∧ DbClosed j s.log := by
  have hold : ∀ {entries : List Entry}, .start k ∉ entries → Overtaken (s.log ++ entries) k j →
      Overtaken s.log k j ∨ e = .start k ∧ DbClosed j s.log :=
    fun hn h => .inl ((overtaken_append hn).mp h)
  cases hs with
  | @start i req' p hi hq _ =>
    by_cases he : i = k
    · subst he
      obtain ⟨hlog, -⟩ := (hr.story i req' hi).of_queued hq
      have hstart : .start i ∉ s.log := by
        intro hm
        have hin := mem_history (k := i) (by simp [Entry.about]) hm
        rw [hlog] at hin
        simp at hin
      exact .inr ⟨rfl, (overtaken_start hstart).mp h⟩
    · refine hold ?_ h
      simpa using Ne.symm he
  | unchanged => exact .inl h
  | drop => exact .inl h
  | dbUncalled => exact .inl h
  | closedEnv =>
    rw [System.callEnv, System.markFinalized, List.append_assoc] at h
    exact hold (by simp) h
  | closedDb =>
    rw [System.callDb, System.setDb, System.markFinalized, List.append_assoc] at h
    exact hold (by simp) h
  | _ => exact hold (by simp) h

theorem requests_kept {k : Nat} {req : EioReq} (hs : s.Step e s') (hk : s.requests[k]? = some req) :
    ∃ req', s'.requests[k]? = some req' ∧ req'.job = req.job := by
  cases requests_step hs with
  | same hq _ _ => exact ⟨req, hq ▸ hk, rfl⟩
  | accept _ _ hs' =>
    subst hs'
    exact ⟨req, Table.append_left hk, rfl⟩
  | @move i x x' entry hi hadv hq _ =>
    rw [hq]
    by_cases he : k = i
    · subst he
      obtain rfl : x = req := Option.some.inj (hi.symm.trans hk)
      exact ⟨x', Table.set_self hi, hadv.job⟩
    · exact ⟨req, by rw [Table.set_other he]; exact hk, rfl⟩

theorem requests_old {k : Nat} {req' : EioReq} (hs : s.Step e s')
    (hk : s'.requests[k]? = some req') :
    (∃ req, s.requests[k]? = some req ∧ req'.job = req.job) ∨ s'.log = s.log ++ [.accept k] ∧
      s.requests.length ≤ k := by
  cases requests_step hs with
  | same hq _ _ => exact .inl ⟨req', hq ▸ hk, rfl⟩
  | accept _ _ hs' =>
    subst hs'
    cases Table.get_append hk with
    | inl hnew =>
      obtain ⟨rfl, -⟩ := hnew
      exact .inr ⟨rfl, Nat.le_refl _⟩
    | inr hold => exact .inl ⟨req', hold.2, rfl⟩
  | @move i x x' entry hi hadv hq _ =>
    rw [hq] at hk
    cases Table.get_set hi hk with
    | inl hmoved =>
      obtain ⟨rfl, rfl⟩ := hmoved
      exact .inl ⟨x, hi, hadv.job⟩
    | inr hold => exact .inl ⟨req', hold.2, rfl⟩

theorem overtaken_step_iff (hp : FPath System.step (.initial n) es s) (hs : s.step e = some s') :
    NoneOvertaken s' ↔ NoneOvertaken s ∧ ∀ k, e = .start k → UsesOpen s (.start k) := by
  have hr := path_recounted hp
  have hst := step_cases hs
  obtain ⟨entries, hl⟩ := log_grows hst
  constructor
  · intro h
    constructor
    · intro k req j r baton hk hj ho
      obtain ⟨req', hk', hj'⟩ := requests_kept hst hk
      exact h k req' j r baton hk' (hj'.trans hj) (hl ▸ overtaken_grows ho)
    · rintro k rfl req j r baton hk hj hc
      obtain ⟨req', hk', hj'⟩ := requests_kept hst hk
      refine h k req' j r baton hk' (hj'.trans hj) ?_
      cases hst with
      | start => exact ⟨s.log, [], rfl, hc⟩
  · rintro ⟨hold, hstart⟩ k req' j r baton hk' hj' ho
    cases requests_old hst hk' with
    | inl hwas =>
      obtain ⟨req, hk, hj⟩ := hwas
      cases overtaken_new hr hst hk ho with
      | inl ho => exact hold k req j r baton hk (hj.symm.trans hj') ho
      | inr hnew => exact hstart k hnew.1 req j r baton hk (hj.symm.trans hj') hnew.2
    | inr hnew =>
      obtain ⟨hlog, hlen⟩ := hnew
      rw [hlog] at ho
      obtain ⟨pre, post, he, -⟩ := (overtaken_append (by simp)).mp ho
      have hin := mem_history (k := k) (by simp [Entry.about]) (he ▸ List.mem_append_right pre
        (List.mem_cons_self (a := Entry.start k) (l := post)))
      rw [hr.others k hlen] at hin
      cases hin

/-! ## The law -/

/-- Where the library or its symbol is missing, nothing is associated. -/
theorem missing_same {j : Nat} {args : List JsValue} {dlerror : String}
    (hs : s.step (.js (.db j (.associateSync args (.missing dlerror)))) = some s') : s' = s := by
  obtain ⟨-, o, hjs⟩ := step_js hs
  obtain ⟨db, -, hjs⟩ := Option.bind_eq_some_iff.mp hjs
  cases checked_cases hjs with
  | inl hbad => exact hbad.choose_spec.2.2
  | inr hgood =>
    obtain ⟨⟨sdb, flags⟩, -, hjs⟩ := hgood
    match sdb, hjs with
    | .wrapper (.db k), hjs =>
      obtain ⟨second, -, hjs⟩ := Option.bind_eq_some_iff.mp hjs
      cases hjs
      rfl

theorem law_iff (hp : FPath System.step (.initial n) es s) :
    HandleLaw s ↔ Table.Each Sound s.log ∧ NoneOvertaken s := by
  rw [← tells_iff hp]
  exact ⟨fun h => ⟨h.sound, h.tells⟩, fun h => ⟨h.1, h.2⟩⟩

/-- The calls stay on open handles exactly if the step uses open Dbs, or only starts a worker. -/
theorem step_sound_iff (hp : FPath System.step (.initial n) es s) (hs : s.step e = some s') :
    Table.Each Sound s'.log ↔
      Table.Each Sound s.log ∧ ((∀ k, e ≠ .start k) → UsesOpen s e) := by
  match e with
  | .js (.db j (.sync m args _)) =>
    rw [sync_sound_iff hp hs]
    exact ⟨fun h => ⟨h.1, fun _ => h.2⟩, fun h => ⟨h.1, h.2 nofun⟩⟩
  | .js (.db j (.direct m args o)) =>
    rw [direct_sound_iff hp hs]
    exact ⟨fun h => ⟨h.1, fun _ => h.2⟩, fun h => ⟨h.1, h.2 nofun⟩⟩
  | .js (.db j (.associateSync args (.found _))) =>
    rw [associate_sound_iff hp hs]
    exact ⟨fun h => ⟨h.1, fun _ => h.2⟩, fun h => ⟨h.1, h.2 nofun⟩⟩
  | .js (.db j (.associateSync args (.missing _))) =>
    rw [missing_same hs]
    exact ⟨fun h => ⟨h, fun _ => trivial⟩, And.left⟩
  | .start k =>
    rw [other_sound hp (step_cases hs) (by simp)]
    exact ⟨fun h => ⟨h, fun hn => absurd rfl (hn k)⟩, And.left⟩
  | .js (.newDbEnv _) | .js (.newDb _ _) | .js (.env _ _) | .js (.db _ (.request ..)) | .drop _
  | .bdb .. | .begin _ | .finish _ | .finalize .. =>
    rw [other_sound hp (step_cases hs) (by simp)]
    exact ⟨fun h => ⟨h, fun _ => trivial⟩, And.left⟩

/-- A step keeps the law exactly if it uses open Dbs. -/
theorem step_law_iff (hp : FPath System.step (.initial n) es s) (hs : s.step e = some s') :
    HandleLaw s' ↔ HandleLaw s ∧ UsesOpen s e := by
  rw [law_iff hp, law_iff (hp.snoc hs), overtaken_step_iff hp hs, step_sound_iff hp hs]
  constructor
  · rintro ⟨⟨hsound, huses⟩, hnone, hstart⟩
    refine ⟨⟨hsound, hnone⟩, ?_⟩
    cases e with
    | start k => exact hstart k rfl
    | _ => exact huses nofun
  · rintro ⟨⟨hsound, hnone⟩, huses⟩
    exact ⟨⟨hsound, fun _ => huses⟩, hnone, fun k he => he ▸ huses⟩

/-! ## Closed once -/

/-- A handle is closed only while it is open. -/
theorem path_closes (hp : FPath System.step (.initial n) es s) (q : DbHandle) :
    Table.Each (fun before entry => entry.closesHandle q = true →
      ∀ old ∈ before, old.closesHandle q = false) s.log := by
  induction hp with
  | nil => exact Table.each_nil
  | @snoc es s s' e hp hst ih =>
    have hone : ∀ {entry : Entry}, (entry.closesHandle q = true → HandleOpen s.log (some q)) →
        Table.Each (fun before entry => entry.closesHandle q = true →
          ∀ old ∈ before, old.closesHandle q = false) (s.log ++ [entry]) := by
      intro entry he
      refine Table.each_snoc.mpr ⟨ih, fun hc old hm => ?_⟩
      obtain ⟨q', hq, hopen⟩ := he hc
      cases hq
      exact hopen old hm
    have hmethod : ∀ {j : Nat} {db : WrappedDb} {m : DbMethod} {rc : Int}, s.dbs[j]? = some db →
        (Entry.db j db.fields._db db.fields._env m rc).closesHandle q = true →
        HandleOpen s.log (some q) := by
      intro j db m rc hdb hc
      have hq : db.fields._db = some q := by
        simp only [Entry.closesHandle, Bool.and_eq_true, beq_iff_eq] at hc
        exact hc.1
      rw [← hq]
      exact handle_open hp hdb (by rw [hq]; exact Option.some_ne_none q)
    cases step_cases hst with
    | dbSync _ hdb _ _ => exact hone (hmethod hdb)
    | associate _ hdb => exact hone (hmethod hdb)
    | closedDb _ hdb _ =>
      refine Table.each_snoc.mpr ⟨hone (by simp [Entry.closesHandle]), fun hc old hm => ?_⟩
      obtain ⟨q', hq, hopen⟩ := hmethod hdb hc
      cases hq
      cases List.mem_append.mp hm with
      | inl hm => exact hopen old hm
      | inr hm => rw [List.mem_singleton.mp hm]; rfl
    | unchanged => exact ih
    | drop => exact ih
    | dbUncalled => exact ih
    | closedEnv =>
      refine Table.each_snoc.mpr ⟨hone (by simp [Entry.closesHandle]), fun hc => ?_⟩
      cases hc
    | _ => exact hone (by simp [Entry.closesHandle])

/-- The close of a Db names the handle the Db had. -/
theorem close_names {j : Nat} {db : WrappedDb} (hs : s.Step e s') (hj : s.dbs[j]? = some db)
    (hold : ¬ DbClosed j s.log) (hnew : DbClosed j s'.log) : ∃ m rc, m.closes = true ∧
      .db j db.fields._db db.fields._env m rc ∈ s'.log := by
  have hmethod : ∀ {i : Nat} {x : WrappedDb} {m : DbMethod} {rc : Int} {entries : List Entry},
      s.dbs[i]? = some x → s'.log = s.log ++ entries →
      (DbClosed j entries → i = j ∧ m.closes = true) →
      .db i x.fields._db x.fields._env m rc ∈ entries → ∃ m rc, m.closes = true ∧
        .db j db.fields._db db.fields._env m rc ∈ s'.log := by
    intro i x m rc entries hx hl hc hm
    rw [hl, dbClosed_append] at hnew
    obtain ⟨rfl, hclose⟩ := hc (hnew.resolve_left hold)
    obtain rfl : db = x := Option.some.inj (hj.symm.trans hx)
    exact ⟨m, rc, hclose, hl ▸ List.mem_append_right _ hm⟩
  have hquiet : ∀ {entries : List Entry}, s'.log = s.log ++ entries → ¬ DbClosed j entries → False := by
    intro entries hl hc
    rw [hl, dbClosed_append] at hnew
    exact hnew.elim hold hc
  cases hs with
  | dbSync _ hdb _ _ => exact hmethod hdb rfl (dbClosed_single ..).mp (List.mem_singleton_self _)
  | associate _ hdb => exact hmethod hdb rfl (dbClosed_single ..).mp (List.mem_singleton_self _)
  | @closedDb i rc x _ hdb _ =>
    refine hmethod hdb (List.append_assoc ..) (fun hc => ?_)
      (List.mem_cons_of_mem _ (List.mem_singleton_self _))
    cases (dbClosed_append j [.finalize _] _).mp hc with
    | inl hc => simp [DbClosed, Entry.closesDb] at hc
    | inr hc => exact (dbClosed_single ..).mp hc
  | unchanged => exact absurd hnew hold
  | drop => exact absurd hnew hold
  | dbUncalled => exact absurd hnew hold
  | closedEnv => exact (hquiet (List.append_assoc ..) (by simp [DbClosed, Entry.closesDb])).elim
  | _ => exact (hquiet rfl (by simp [DbClosed, Entry.closesDb])).elim

/-- A handle that was created is in its field, or has been closed. -/
theorem handle_kept {j : Nat} {db : WrappedDb} {es' : List SysEvent}
    (hp : FPath System.step (.initial n) es s) (hp' : FPath System.step s es' s')
    (hj : s.dbs[j]? = some db) (ho : db.fields._db ≠ none) : ∃ db', s'.dbs[j]? = some db' ∧
      (db'.fields._db = none → ∃ entry ∈ s'.log, entry.closesHandle j = true) := by
  induction hp' with
  | nil => exact ⟨db, hj, fun hnone => absurd hnone ho⟩
  | @snoc es' u u' e hu hst ih =>
    obtain ⟨x, hx, hclosed⟩ := ih
    have hpu := hp.append hu
    have hstep := step_cases hst
    obtain ⟨entries, hl⟩ := log_grows hstep
    have hlt : u.Exists (.db j) := (List.getElem?_eq_some_iff.mp hx).1
    refine ⟨_, List.getElem?_eq_getElem (exists_step hstep hlt), fun hnone => ?_⟩
    by_cases hxn : x.fields._db = none
    · obtain ⟨entry, hm, hc⟩ := hclosed hxn
      exact ⟨entry, hl ▸ List.mem_append_left _ hm, hc⟩
    · have hname := ((path_named_dbs hpu).dbs j x hx).resolve_left hxn
      have hold : ¬ DbClosed j u.log := fun hc => hxn ((path_closing hpu).closed j x hc hx)
      have hnew : DbClosed j u'.log := by
        cases dbs_step hstep (List.getElem?_eq_getElem (exists_step hstep hlt)) with
        | inl hmoved =>
          obtain ⟨y, hy, hm⟩ := hmoved
          obtain rfl : x = y := Option.some.inj (hx.symm.trans hy)
          cases hm.handle with
          | inl hsame => exact absurd (hsame.1.symm.trans hnone) hxn
          | inr hclosed => exact hclosed.2
        | inr hfresh => exact absurd hlt (by rw [hfresh.1]; exact Nat.lt_irrefl _)
      obtain ⟨m, rc, hc, hm⟩ := close_names hstep hx hold hnew
      exact ⟨_, hm, by simp [Entry.closesHandle, hname, hc]⟩

/-- By the time its wrapper is finalized, a handle has been closed exactly once. -/
theorem closed_once {j : Nat} {db : WrappedDb} {q : DbHandle} {es' : List SysEvent}
    (hp : FPath System.step (.initial n) es s) (hp' : FPath System.step s es' s')
    (hj : s.dbs[j]? = some db) (hq : db.fields._db = some q) (hf : .db j ∈ s'.finalized) :
    s'.log.countP (Entry.closesHandle q) = 1 := by
  have hpath := hp.append hp'
  have ho : db.fields._db ≠ none := by
    rw [hq]
    exact Option.some_ne_none q
  obtain rfl : q = j := Option.some.inj (hq.symm.trans (((path_named_dbs hp).dbs j db hj).resolve_left ho))
  obtain ⟨db', hj', hclosed⟩ := handle_kept hp hp' hj ho
  obtain ⟨entry, hm, hc⟩ := hclosed (((path_attached hpath).2.dbs q db' hj').2.2 hf)
  have hpos : 0 < s'.log.countP (Entry.closesHandle q) := List.countP_pos_iff.mpr ⟨entry, hm, hc⟩
  have hle := Table.countP_le_one (path_closes hpath q)
  omega

/-- `openSync` on a closed Db calls nothing and returns an error. -/
theorem open_closed {j : Nat} {db : WrappedDb} {args : List JsValue} {out : Db × Option DbMethod}
    (hp : FPath System.step (.initial n) es s) (hj : s.dbs[j]? = some db)
    (hnone : db.fields._db = none) (hrun : DbSync.openS.run db.fields args = .ok out) (rc : Int) :
    s.js (.db j (.sync .openS args rc)) = some (.value (dbRes (-1)), s.setDb j db out.1) := by
  have hidle : s.busy j = false := by
    by_contra hb
    obtain ⟨req, hm, hbusy⟩ := List.any_eq_true.mp (show s.busy j = true by simpa using hb)
    obtain ⟨k, hk⟩ := List.mem_iff_getElem?.mp hm
    simp only [Bool.and_eq_true, beq_iff_eq] at hbusy
    cases hjob : req.job with
    | db i r baton =>
      rw [hjob] at hbusy
      cases hbusy.1
      obtain ⟨x, hx, ho⟩ := path_workersOpen hp k req j r baton hk hbusy.2 hjob
      obtain rfl : db = x := Option.some.inj (hj.symm.trans hx)
      exact ho hnone
    | checkpoint i baton =>
      rw [hjob] at hbusy
      cases hbusy.1
  obtain ⟨fields, method⟩ := out
  have hmethod := (dbSync_method hrun).2
  simp only [↓reduceIte, hnone, ne_eq, not_true_eq_false, or_false] at hmethod
  subst hmethod
  simp only [System.js, System.jsDb, hj, Option.bind_eq_bind, Option.bind_some, System.checked, hrun,
    hidle, Bool.false_eq_true, and_false, ↓reduceIte]

end

/-- In every run a handle is closed exactly once by the time its wrapper is finalized, and
`openSync` on a closed Db returns an error. No call goes through a NULL or closed handle and
every other method that meets one reports an error exactly in the runs that use open Dbs. -/
theorem handle_law_iff (n : Int) (es : List SysEvent) (s : System)
    (h : FPath System.step (.initial n) es s) :
    (∀ es₁ s₁ es₂ j db q, FPath System.step (.initial n) es₁ s₁ → FPath System.step s₁ es₂ s →
      s₁.dbs[j]? = some db → db.fields._db = some q → .db j ∈ s.finalized →
      s.log.countP (Entry.closesHandle q) = 1) ∧
    (∀ (j : Nat) db args out rc, s.dbs[j]? = some db → db.fields._db = none →
      DbSync.openS.run db.fields args = .ok out →
      s.js (.db j (.sync .openS args rc)) = some (.value (dbRes (-1)), s.setDb j db out.1)) ∧
    (HandleLaw s ↔ Along System.step UsesOpen (.initial n) es s) := by
  refine ⟨fun es₁ s₁ es₂ j db q h₁ h₂ hj hq hf => closed_once h₁ h₂ hj hq hf,
    fun j db args out rc hj hnone hrun => open_closed h hj hnone hrun rc, ?_⟩
  induction h with
  | nil =>
    constructor
    · exact fun _ => .nil
    · exact fun _ => ⟨Table.each_nil, fun _ _ _ _ _ _ hk => nomatch hk⟩
  | snoc hp hst ih => rw [step_law_iff hp hst, along_snoc hp hst, ih]

/-- A Db is closed twice. -/
def closedTwiceRun : List SysEvent :=
  [.js (.newDbEnv 0), .js (.newDb [.wrapper (.env 0)] 0),
   .js (.db 0 (.sync .closeS [.number 0] 0)), .js (.db 0 (.sync .closeS [.number 0] 0))]

/-- The second close calls through NULL. -/
theorem closedTwiceRun_unlawful :
    ∃ s, run System.step (.initial 0) closedTwiceRun = some s ∧ ¬ HandleLaw s := by
  refine ⟨_, rfl, fun h => ?_⟩
  have hsound := h.sound [.newDbEnv 0, .newDb 0 0, .db 0 (some 0) (some 0) (.close 0) 0]
    (.db 0 none (some 0) (.close 0) 0) [] rfl
  obtain ⟨q, hq, -⟩ := hsound.calls none (List.mem_singleton_self _)
  cases hq

theorem closedTwiceRun_iff :
    ∃ s, run System.step (.initial 0) closedTwiceRun = some s ∧
      (HandleLaw s ↔ Along System.step UsesOpen (.initial 0) closedTwiceRun s) :=
  ⟨_, rfl, (handle_law_iff 0 closedTwiceRun _ (run_path rfl)).2.2⟩

end NodeBdb
