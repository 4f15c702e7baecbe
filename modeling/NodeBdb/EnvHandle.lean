import NodeBdb.Balance
import NodeBdb.Calling

/-!
# The life of a DB_ENV handle

`DbEnv::CloseS` leaves the pointer to the handle it has closed in its field, and a `Db`
has a copy of it in any case. So what keeps a closed handle from being entered again is
the script alone: it has to let the environment and everything created on it rest,
and the wrapper must never be collected.
-/

namespace NodeBdb

open Interaction Transition

/-! ## Calls on the environment -/

section Calls

variable {δ α : Type}

/-- The environment whose method a call enters. -/
def Call.onEnv : Call δ → Option (Option EnvHandle)
  | .txnBegin env => some env
  | .txnCheckpoint env _ _ _ => some env
  | _ => none

/-- A program that enters the environments `P` and no others. -/
def keepsTo (P : Option EnvHandle → Prop) : Monitor (Call δ) Reply Unit where
  admits _ c := ∀ h, c.onEnv = some h → P h
  next _ _ _ := ()

/-- The environment that operations on a Db enter. -/
def Db.enters (dbObj : Db) (h : Option EnvHandle) : Prop :=
  dbObj._transactional = true ∧ h = dbObj._env

variable {P : Option EnvHandle → Prop}

theorem keepsTo_other {c : Call δ} (hc : c.onEnv = none) : (keepsTo P).admits () c := by
  intro h he
  rw [hc] at he
  cases he

/-- An operation enters no environment but the one its Db was created on. -/
theorem keepsTo_admits (dbObj : Db) :
    Admits (keepsTo dbObj.enters : Monitor (Call δ) Reply Unit) dbObj where
  txn ht := ⟨fun _ he => ⟨ht, (Option.some.inj he).symm⟩, fun _ => keepsTo_other rfl,
    fun _ => keepsTo_other rfl⟩
  get _ _ _ _ := keepsTo_other rfl
  put _ _ _ _ := keepsTo_other rfl
  del _ _ _ := keepsTo_other rfl
  cursor _ := keepsTo_other rfl
  cursorGet _ _ _ _ := keepsTo_other rfl
  cursorClose _ := keepsTo_other rfl
  load _ _ := keepsTo_other rfl

theorem worker_keepsTo (dbObj : Db) (r : Request δ) (b : EIODbBaton δ) :
    (keepsTo dbObj.enters).Obeys (fun _ _ => True) () (r.worker dbObj b) :=
  worker_admitted (keepsTo_admits dbObj) r b

theorem direct_keepsTo (dbObj : Db) (c : DirectCall δ) :
    (keepsTo dbObj.enters).Obeys (fun _ _ => True) () (c.deliver dbObj) :=
  direct_admitted (keepsTo_admits dbObj) c

end Calls

/-! ## Entering a handle -/

/-- The environments whose methods are entered. -/
def Entry.onEnv : Entry → List (Option EnvHandle)
  | .env _ h _ _ => [h]
  | .direct _ t _ => t.filterMap fun e => e.1.onEnv
  | .call _ e => e.1.onEnv.toList
  | _ => []

def EnvMethod.closes : EnvMethod → Bool
  | .close _ => true
  | _ => false

/-- The close of the handle `h`. -/
def Entry.closesEnv (h : Option EnvHandle) : Entry → Bool
  | .env _ h' m _ => h' == h && m.closes
  | _ => false

/-- No method of a handle is entered after its close, the close itself included. -/
def EnvSafe (log : List Entry) : Prop :=
  log.Pairwise fun entry entry' => ∀ h ∈ entry'.onEnv, entry.closesEnv h = false

/-- The i-th `DbEnv` has been closed, by its method or by its destructor. -/
def EnvClosed (i : Nat) (log : List Entry) : Prop :=
  ∃ h flags rc, .env i h (.close flags) rc ∈ log

/-- The `DbEnv` a job is on, or was created on. -/
def System.envOf (s : System) : Job → Option Nat
  | .db j _ _ => s.dbs[j]?.map WrappedDb.createdOn
  | .checkpoint i _ => some i

/-- The step comes to the handle of the i-th `DbEnv`: by a synchronous method of it that accepts
its arguments, by the destructor, by a synchronous operation on a transactional Db created on
it, or because a worker begins a transaction or takes a checkpoint there. -/
def SysEvent.entersEnv (s : System) (i : Nat) : SysEvent → Prop
  | .js (.env i' (.sync m args rc)) => i' = i ∧ ∃ env env' method, s.envs[i]? = some env ∧
      m.run env args = .ok (env', method) ∧ method.entered rc = true
  | .js (.db j (.direct m args _)) => ∃ db c, s.dbs[j]? = some db ∧ db.createdOn = i ∧
      db.fields._transactional = true ∧ m.parse args = .ok c
  | .bdb k c _ => c.onEnv ≠ none ∧ ∃ req, s.requests[k]? = some req ∧ s.envOf req.job = some i
  | .finalize r _ => r = .env i
  | _ => False

/-- No step comes to the handle of a `DbEnv` that has been closed. -/
def LeavesClosed (s : System) (e : SysEvent) : Prop :=
  ∀ i, EnvClosed i s.log → ¬ e.entersEnv s i

section

variable {s s' : System} {e : SysEvent}

/-- Every worker keeps to the environment its object was created on. -/
def WorkersKeep (s : System) : Prop :=
  ∀ (k : Nat) (req : EioReq) p, s.requests[k]? = some req → req.stage = .working p →
    ∃ i, s.envOf req.job = some i ∧ (keepsTo (· = some i)).Obeys (fun _ _ => True) () p

theorem envOf_step {job : Job} {i : Nat} (hs : s.Step e s') (h : s.envOf job = some i) :
    s'.envOf job = some i := by
  cases job with
  | checkpoint i' baton => exact h
  | db j r baton =>
    obtain ⟨db, hdb, rfl⟩ := Option.map_eq_some_iff.mp h
    have hlt : s.Exists (.db j) := (List.getElem?_eq_some_iff.mp hdb).1
    obtain ⟨db', hdb'⟩ : ∃ db', s'.dbs[j]? = some db' :=
      ⟨_, List.getElem?_eq_getElem (exists_step hs hlt)⟩
    rcases dbs_step hs hdb' with ⟨x, hx, hm⟩ | ⟨rfl, -⟩
    · obtain rfl : db = x := Option.some.inj (hdb.symm.trans hx)
      rw [System.envOf, hdb', Option.map_some, hm.createdOn]
    · exact absurd hlt (Nat.lt_irrefl _)

theorem keepsTo_mono {δ α : Type} {P Q : Option EnvHandle → Prop} {p : BdbProg δ α}
    (hPQ : ∀ h, P h → Q h) (h : (keepsTo P).Obeys (fun _ _ => True) () p) :
    (keepsTo Q).Obeys (fun _ _ => True) () p :=
  obeys_weaken (μ := keepsTo P) (fun _ hc q he => hPQ q (hc q he)) (fun _ _ _ => trivial) h

theorem program_keeps {job : Job} {p : BdbProg Bytes Job} (ha : Attached s)
    (hp : s.program job = some p) :
    ∃ i, s.envOf job = some i ∧ (keepsTo (· = some i)).Obeys (fun _ _ => True) () p := by
  cases job with
  | db j r baton =>
    obtain ⟨db, hdb, rfl⟩ := Option.map_eq_some_iff.mp hp
    refine ⟨db.createdOn, by rw [System.envOf, hdb]; rfl, ?_⟩
    rw [Job.workDb, obeys_bind]
    refine keepsTo_mono (fun h hh => ?_) (worker_keepsTo db.fields r baton)
    rw [hh.2, (ha.dbs j db hdb).2.1]
  | checkpoint i baton =>
    obtain ⟨env, henv, rfl⟩ := Option.map_eq_some_iff.mp hp
    refine ⟨i, rfl, ?_⟩
    have hh := ha.envs i env henv
    rw [Job.workEnv, obeys_bind, eioCheckpoint]
    split
    · exact trivial
    · rename_i hne
      refine ⟨fun h he => ?_, fun _ _ => trivial⟩
      obtain rfl := Option.some.inj he
      by_cases hf : ObjRef.env i ∈ s.finalized
      · rw [if_pos hf] at hh
        exact absurd hh hne
      · rw [if_neg hf] at hh
        exact hh

theorem WorkersKeep.step (h : WorkersKeep s) (ha : Attached s) (hs : s.Step e s') :
    WorkersKeep s' := by
  intro i x p hi hp
  obtain ⟨n, hn, hkeep⟩ := working_step hs (fun _ _ hprog => program_keeps ha hprog)
    (fun _ _ _ r ⟨n, hn, hkeep⟩ => ⟨n, hn, hkeep.2 r trivial⟩) h hi hp
  exact ⟨n, envOf_step hs hn, hkeep⟩

theorem path_workersKeep {n : Int} {es : List SysEvent} (h : FPath System.step (.initial n) es s) :
    WorkersKeep s := by
  induction h with
  | nil => exact fun _ _ _ hk => nomatch hk
  | snoc hp hst ih => exact ih.step (path_attached hp).2 (step_cases hst)

/-- What a step writes into the log: the environments it enters are those it comes to. -/
structure Enters (s : System) (e : SysEvent) (entries : List Entry) : Prop where
  enters : ∀ entry ∈ entries, ∀ h ∈ entry.onEnv, ∃ i, h = some i ∧ e.entersEnv s i
  once : EnvSafe entries
  named : ∀ i h m rc, .env i h m rc ∈ entries → h = some i

theorem Enters.quiet {entries : List Entry} (h : ∀ entry ∈ entries, entry.onEnv = []) :
    Enters s e entries := by
  refine ⟨fun entry hm q hq => ?_, ?_, fun i q m rc hm => ?_⟩
  · rw [h entry hm] at hq
    cases hq
  · refine List.pairwise_of_forall_mem_list fun _ _ entry hm q hq => ?_
    rw [h entry hm] at hq
    cases hq
  · exact nomatch h _ hm

/-- The last of the new entries is the only one that enters an environment. -/
theorem Enters.last {b : List Entry} {entry : Entry}
    (hb : ∀ x ∈ b, x.onEnv = [] ∧ ∀ h, x.closesEnv h = false)
    (he : ∀ h ∈ entry.onEnv, ∃ i, h = some i ∧ e.entersEnv s i)
    (hn : ∀ i h m rc, entry = .env i h m rc → h = some i) : Enters s e (b ++ [entry]) := by
  refine ⟨fun x hm => ?_, ?_, fun i h m rc hm => ?_⟩
  · cases List.mem_append.mp hm with
    | inl hm =>
      rw [(hb x hm).1]
      exact fun h hh => nomatch hh
    | inr hm =>
      rw [List.mem_singleton.mp hm]
      exact he
  · refine List.pairwise_append.mpr ⟨?_, List.pairwise_singleton _ _, fun x hx _ _ h _ => (hb x hx).2 h⟩
    exact List.pairwise_of_forall_mem_list fun x hx _ _ h _ => (hb x hx).2 h
  · cases List.mem_append.mp hm with
    | inl hm => exact nomatch (hb _ hm).1
    | inr hm => exact hn i h m rc (List.mem_singleton.mp hm).symm

theorem step_enters (hh : Held s) (ha : Attached s) (hw : WorkersKeep s) (hs : s.Step e s') :
    ∃ entries, s'.log = s.log ++ entries ∧ Enters s e entries := by
  cases hs with
  | @envSync i m args rc env env' method hi henv hrun _ hent =>
    have hlive : env._env = some i := ha.live henv (hh.roots _ hi).1
    refine ⟨[.env i env._env method rc], rfl, ?_⟩
    rw [hlive]
    refine Enters.last (b := []) (by simp) (fun h hm => ?_) (fun _ _ _ _ he => by cases he; rfl)
    exact ⟨i, List.mem_singleton.mp hm, rfl, env, env', method, henv, hrun, hent⟩
  | @direct j m args o db c t d hj hdb hparse hexec =>
    have hr := runs_exec o (c.deliver db.fields)
    rw [hexec] at hr
    refine ⟨[.direct j t d], rfl, ?_⟩
    refine Enters.last (b := []) (by simp) (fun h hm => ?_) (fun _ _ _ _ he => nomatch he)
    obtain ⟨x, hx, hon⟩ := List.mem_filterMap.mp hm
    obtain ⟨ht, rfl⟩ := admitted_runs (fun _ _ => trivial) (direct_keepsTo db.fields c) hr x hx h hon
    exact ⟨db.createdOn, (ha.dbs j db hdb).2.1, db, c, hdb, rfl, ht, hparse⟩
  | @bdb k req c r next hk hstage =>
    refine ⟨[.call k ⟨c, r⟩], rfl, ?_⟩
    refine Enters.last (b := []) (by simp) (fun h hm => ?_) (fun _ _ _ _ he => nomatch he)
    have hon : c.onEnv = some h := Option.mem_toList.mp hm
    obtain ⟨i, hi, hkeep⟩ := hw k req _ hk hstage
    exact ⟨i, hkeep.1 h hon, by simp [hon], req, hk, hi⟩
  | @closedEnv i rc env hc henv hne =>
    have hlive : env._env = some i := ha.live henv hc.1
    refine ⟨[.finalize (.env i), .env i env._env (.close 0) rc], List.append_assoc .., ?_⟩
    rw [hlive]
    refine Enters.last (b := [.finalize (.env i)]) (by simp [Entry.onEnv, Entry.closesEnv])
      (fun h hm => ?_) (fun _ _ _ _ he => by cases he; rfl)
    exact ⟨i, List.mem_singleton.mp hm, rfl⟩
  | unchanged => exact ⟨[], (List.append_nil _).symm, .quiet (by simp)⟩
  | drop => exact ⟨[], (List.append_nil _).symm, .quiet (by simp)⟩
  | dbUncalled => exact ⟨[], (List.append_nil _).symm, .quiet (by simp)⟩
  | closedDb => exact ⟨_, List.append_assoc .., .quiet (by simp [Entry.onEnv])⟩
  | _ => exact ⟨_, rfl, .quiet (by simp [Entry.onEnv])⟩

/-- A step that comes to the handle of a `DbEnv` leaves an entry that enters it. -/
theorem enters_entry {i : Nat} (hh : Held s) (ha : Attached s) (hw : WorkersKeep s)
    (hs : s.step e = some s') (he : e.entersEnv s i) :
    ∃ entries entry, s'.log = s.log ++ entries ∧ entry ∈ entries ∧ some i ∈ entry.onEnv := by
  match e, he with
  | .js (.env i' (.sync m args rc)), he =>
    obtain ⟨rfl, env, env', method, henv, hrun, hent⟩ := he
    obtain ⟨hm, o, hjs⟩ := step_js hs
    have hlive : env._env = some i' := ha.live henv (hh.roots _ (hm _ List.mem_cons_self)).1
    simp only [System.js, System.jsEnv, henv, Option.bind_eq_bind, Option.bind_some, System.checked,
      hrun, hent, ↓reduceIte] at hjs
    split at hjs
    · cases hjs
    · simp only [Option.some.injEq, Prod.mk.injEq] at hjs
      rw [← hjs.2]
      exact ⟨[_], _, rfl, List.mem_singleton_self _, by simp [Entry.onEnv, hlive]⟩
  | .js (.db j (.direct m args o)), he =>
    obtain ⟨db, c, hdb, rfl, ht, hparse⟩ := he
    obtain ⟨hm, out, hjs⟩ := step_js hs
    simp only [System.js, System.jsDb, hdb, Option.bind_eq_bind, Option.bind_some, System.checked,
      hparse, Option.some.injEq, Prod.mk.injEq] at hjs
    rw [← hjs.2]
    refine ⟨[_], _, rfl, List.mem_singleton_self _, ?_⟩
    obtain ⟨d, -, hop⟩ := direct_opening db.fields c
    obtain ⟨k, hp, -⟩ := hop.transactional ht
    obtain ⟨t, htr, -⟩ := exec_runs o [⟨.txnBegin db.fields._env, o [] (.txnBegin db.fields._env)⟩]
      (k (o [] (.txnBegin db.fields._env)))
    refine List.mem_filterMap.mpr ⟨⟨.txnBegin db.fields._env, o [] (.txnBegin db.fields._env)⟩, ?_, ?_⟩
    · rw [hp, exec_call, List.nil_append, htr]
      exact List.mem_append_left _ (List.mem_singleton_self _)
    · exact congrArg some (ha.dbs j db hdb).2.1
  | .bdb k c r, he =>
    obtain ⟨hon, req, hk, hi⟩ := he
    cases step_cases hs with
    | @bdb _ req' _ _ next hk' hstage =>
      obtain rfl : req = req' := Option.some.inj (hk.symm.trans hk')
      obtain ⟨n, hn, hkeep⟩ := hw k req _ hk hstage
      obtain rfl := Option.some.inj (hi.symm.trans hn)
      refine ⟨[_], _, rfl, List.mem_singleton_self _, ?_⟩
      obtain ⟨h, hc⟩ := Option.ne_none_iff_exists'.mp hon
      rw [Entry.onEnv, hc, hkeep.1 h hc]
      exact List.mem_singleton_self _
  | .finalize r rc, he =>
    subst he
    cases step_cases hs with
    | @finalizedEnv _ _ env hc henv h0 =>
      have hlive := ha.live henv hc.1
      rw [h0] at hlive
      cases hlive
    | @closedEnv _ _ env hc henv _ =>
      refine ⟨[.finalize (.env i), .env i env._env (.close 0) rc], _, List.append_assoc ..,
        List.mem_cons_of_mem _ (List.mem_singleton_self _), ?_⟩
      rw [ha.live henv hc.1]
      exact List.mem_singleton_self _

theorem path_named {n : Int} {es : List SysEvent} (h : FPath System.step (.initial n) es s) :
    ∀ i q m rc, .env i q m rc ∈ s.log → q = some i := by
  induction h with
  | nil => exact fun _ _ _ _ hm => nomatch hm
  | snoc hp hst ih =>
    intro i q m rc hm
    obtain ⟨hh, ha⟩ := path_attached hp
    obtain ⟨entries, hl, hent⟩ := step_enters hh ha (path_workersKeep hp) (step_cases hst)
    rw [hl] at hm
    cases List.mem_append.mp hm with
    | inl hm => exact ih i q m rc hm
    | inr hm => exact hent.named i q m rc hm

/-- A step keeps the log safe exactly if it leaves closed environments alone. -/
theorem step_safe_iff {n : Int} {es : List SysEvent} (hp : FPath System.step (.initial n) es s)
    (hs : s.step e = some s') : EnvSafe s'.log ↔ EnvSafe s.log ∧ LeavesClosed s e := by
  obtain ⟨hh, ha⟩ := path_attached hp
  have hw := path_workersKeep hp
  obtain ⟨entries, hl, hent⟩ := step_enters hh ha hw (step_cases hs)
  rw [hl, EnvSafe, List.pairwise_append]
  constructor
  · rintro ⟨hold, -, hcross⟩
    refine ⟨hold, ?_⟩
    rintro i ⟨q, flags, rc, hm⟩ hi
    obtain rfl := path_named hp i q _ rc hm
    obtain ⟨entries', entry, hl', hentry, hon⟩ := enters_entry hh ha hw hs hi
    obtain rfl : entries = entries' := List.append_cancel_left (hl.symm.trans hl')
    have hno := hcross _ hm entry hentry _ hon
    simp [Entry.closesEnv, EnvMethod.closes] at hno
  · rintro ⟨hold, hleave⟩
    refine ⟨hold, hent.once, fun old hm new hnew q hq => ?_⟩
    obtain ⟨i, rfl, hi⟩ := hent.enters new hnew q hq
    -- a close of the handle is a close of the object
    cases old with
    | env i' q' m rc =>
      cases m with
      | close flags =>
        obtain rfl := path_named hp i' q' _ rc hm
        by_contra hcl
        obtain rfl : i' = i := by simpa [Entry.closesEnv, EnvMethod.closes] using hcl
        exact hleave i' ⟨_, flags, rc, hm⟩ hi
      | _ => exact Bool.and_false _
    | _ => rfl

/-- A closed handle is never entered exactly in the runs that leave closed environments alone. -/
theorem envSafe_iff (n : Int) (es : List SysEvent) (s : System)
    (h : FPath System.step (.initial n) es s) :
    EnvSafe s.log ↔ Along System.step LeavesClosed (.initial n) es s := by
  induction h with
  | nil => exact ⟨fun _ => .nil, fun _ => List.Pairwise.nil⟩
  | snoc hp hst ih => rw [step_safe_iff hp hst, along_snoc hp hst, ih]

end

/-- An environment is closed, dropped and collected. -/
def closedEnvRun : List SysEvent :=
  [.js (.newDbEnv 0), .js (.env 0 (.sync .closeS [.number 0] 0)), .drop (.env 0),
   .finalize (.env 0) 0]

/-- The destructor closes the handle again. -/
theorem closedEnvRun_unsafe :
    ∃ s, run System.step (.initial 0) closedEnvRun = some s ∧ ¬ EnvSafe s.log := by
  refine ⟨_, rfl, fun h => ?_⟩
  have hpair := List.pairwise_iff_getElem.mp h 1 3 (by decide) (by decide) (by decide)
  exact absurd (hpair (some 0) (List.mem_singleton_self _)) (by decide)

theorem closedEnvRun_iff :
    ∃ s, run System.step (.initial 0) closedEnvRun = some s ∧
      (EnvSafe s.log ↔ Along System.step LeavesClosed (.initial 0) closedEnvRun s) :=
  ⟨_, rfl, envSafe_iff 0 closedEnvRun _ (run_path rfl)⟩

end NodeBdb
