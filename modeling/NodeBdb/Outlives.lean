import NodeBdb.EnvHandle
import NodeBdb.Pinned

/-!
# Environments and the databases created on them

`Db::New` copies the handle of its environment and takes no reference on the `DbEnv`, as
the entry points do on the object of a request. So an environment outlives its databases
just in those programs that keep it reachable themselves.
-/

namespace NodeBdb

open Interaction Transition

/-! ## Open databases -/

/-- The j-th `Db` was created on the i-th `DbEnv`, has not been finalized, and its handle has not
been closed. -/
def System.OpenOn (s : System) (j i : Nat) : Prop :=
  ∃ db, s.dbs[j]? = some db ∧ db.createdOn = i ∧ db.fields._db ≠ none ∧ .db j ∉ s.finalized

/-- Something leads to the wrapper: the script, a pending callback, or a request on it. -/
def System.Reached (s : System) (r : ObjRef) : Prop :=
  r ∈ s.roots ∨ s.refs r ≠ 0 ∨ ∃ req ∈ s.requests, req.stage.isCompleted = false ∧ r ∈ req.captured

/-- The environment of every open Db is there. -/
def Outlived (s : System) : Prop := ∀ j i, s.OpenOn j i → .env i ∉ s.finalized

/-- The environment whose Db handle is closed; a close of NULL reaches none. -/
def Entry.closesIn : Entry → Option (Option EnvHandle)
  | .db _ (some _) h (.close _) _ => some h
  | _ => none

/-- No Db handle is closed, by a method or by a destructor, in an environment after its close. -/
def DbsFirst (log : List Entry) : Prop :=
  log.Pairwise fun entry entry' => ∀ h, entry'.closesIn = some h → entry.closesEnv h = false

structure Safe (s : System) : Prop where
  outlived : Outlived s
  envSafe : EnvSafe s.log
  dbsFirst : DbsFirst s.log

/-- The state is safe, and it still is whatever the collector takes next. -/
def Outlives (s : System) : Prop :=
  Safe s ∧ ∀ r rc s', s.step (.finalize r rc) = some s' → Safe s'

/-- The program keeps the environment of every open Db reachable. -/
def KeepsEnvs (s : System) : Prop := ∀ j i, s.OpenOn j i → s.Reached (.env i)

/-- No synchronous operation is made on a closed transactional Db whose environment is gone. -/
def Rests (s : System) : SysEvent → Prop
  | .js (.db j (.direct m args _)) => ∀ db c, s.dbs[j]? = some db → m.parse args = .ok c →
      db.fields._transactional = true → db.fields._db = none → .env db.createdOn ∉ s.finalized
  | _ => True

/-- The explicit `closeSync` of a `DbEnv`. -/
def SysEvent.closesEnv : SysEvent → Bool
  | .js (.env _ (.sync .closeS _ _)) => true
  | _ => false

section

variable {s s' : System} {e : SysEvent} {n : Int} {es : List SysEvent}

theorem collectable_iff {r : ObjRef} : s.Collectable r ↔ r ∉ s.finalized ∧ ¬ s.Reached r := by
  simp only [System.Collectable, System.Reached, not_or, not_exists, not_and]
  constructor
  · rintro ⟨hf, hr, h0, hc⟩
    exact ⟨hf, hr, fun hne => hne h0, hc⟩
  · rintro ⟨hf, hr, h0, hc⟩
    exact ⟨hf, hr, by omega, hc⟩

/-! ## Closed is finalized -/

theorem envClosed_append (i : Nat) (log log' : List Entry) :
    EnvClosed i (log ++ log') ↔ EnvClosed i log ∨ EnvClosed i log' := by
  simp only [EnvClosed, List.mem_append, exists_or]

theorem envClosed_quiet {i : Nat} {entries : List Entry}
    (h : ∀ entry ∈ entries, ∀ q, entry.closesEnv q = false) : ¬ EnvClosed i entries := by
  rintro ⟨q, flags, rc, hm⟩
  have hno := h _ hm q
  simp [Entry.closesEnv, EnvMethod.closes] at hno

theorem setter_closes {m : EnvSetter} {args : List JsValue} {method : EnvMethod}
    (h : m.parse args = .ok method) : method.closes = false := by
  cases m with
  | setFlags =>
    obtain ⟨_, -, h⟩ := bind_ok h
    obtain ⟨_, -, h⟩ := bind_ok h
    cases h
    rfl
  | _ =>
    obtain ⟨_, -, h⟩ := bind_ok h
    cases h
    rfl

theorem envSync_closes {m : EnvSync} {env env' : DbEnv} {args : List JsValue} {method : EnvMethod}
    (h : m.run env args = .ok (env', method)) (hm : m ≠ .closeS) : method.closes = false := by
  cases m with
  | openS =>
    obtain ⟨_, -, h⟩ := bind_ok h
    obtain ⟨_, -, h⟩ := bind_ok h
    obtain ⟨_, -, h⟩ := bind_ok h
    cases h
    rfl
  | closeS => exact absurd rfl hm
  | set m =>
    obtain ⟨method, hm, h⟩ := bind_ok h
    cases h
    exact setter_closes hm

/-- Without `closeSync`, the environments that are closed are the finalized ones. -/
def ClosedByCollector (s : System) : Prop := ∀ i, EnvClosed i s.log ↔ .env i ∈ s.finalized

theorem ClosedByCollector.quiet (h : ClosedByCollector s) {entries : List Entry}
    (hl : s'.log = s.log ++ entries) (he : ∀ i, ¬ EnvClosed i entries)
    (hf : ∀ i, .env i ∈ s'.finalized ↔ .env i ∈ s.finalized) : ClosedByCollector s' := by
  intro i
  rw [hl, envClosed_append, hf, h i]
  exact or_iff_left (he i)

theorem ClosedByCollector.step (h : ClosedByCollector s) (ha : Attached s) (hs : s.Step e s')
    (he : e.closesEnv = false) : ClosedByCollector s' := by
  cases hs with
  | @envSync i m args rc env env' method _ _ hrun _ _ =>
    refine h.quiet rfl (fun i' => ?_) (fun _ => Iff.rfl)
    rintro ⟨q, flags, rc', hm⟩
    cases List.mem_singleton.mp hm
    have hno := envSync_closes hrun (by rintro rfl; cases he)
    cases hno
  | finalizedEnv hc henv h0 =>
    have hlive := ha.live henv hc.1
    rw [h0] at hlive
    cases hlive
  | @closedEnv i rc env hc henv _ =>
    intro i'
    have hnew : EnvClosed i' [.finalize (.env i), .env i env._env (.close 0) rc] ↔ i' = i := by
      simp [EnvClosed]
    rw [System.callEnv, System.markFinalized, List.append_assoc, envClosed_append,
      List.singleton_append, hnew, h i']
    simp [or_comm]
  | @finalizedDb j rc db hc hdb h0 =>
    exact h.quiet rfl (fun _ => envClosed_quiet (by simp [Entry.closesEnv]))
      (fun i => by simp [System.markFinalized])
  | @closedDb j rc db hc hdb _ =>
    exact h.quiet (List.append_assoc ..) (fun _ => envClosed_quiet (by simp [Entry.closesEnv]))
      (fun i => by simp [System.callDb, System.setDb, System.markFinalized])
  | unchanged => exact h
  | drop => exact h
  | dbUncalled => exact h
  | _ => exact h.quiet rfl (fun _ => envClosed_quiet (by simp [Entry.closesEnv])) (fun _ => Iff.rfl)

theorem path_closed (hp : FPath System.step (.initial n) es s)
    (hes : ∀ e ∈ es, e.closesEnv = false) : ClosedByCollector s := by
  induction hp with
  | nil => exact fun i => ⟨fun ⟨_, _, _, hm⟩ => (nomatch hm), fun hf => (nomatch hf)⟩
  | snoc hp hst ih =>
    refine (ih fun e he => hes e (List.mem_append_left _ he)).step (path_attached hp).2
      (step_cases hst) ?_
    exact hes _ (List.mem_append_right _ (List.mem_singleton_self _))

/-! ## Safety -/

/-- Only a collection finalizes, and it takes nothing that is reached. -/
theorem finalized_step {r : ObjRef} (hs : s.Step e s') (h : r ∈ s'.finalized) :
    r ∈ s.finalized ∨ s.Collectable r := by
  cases hs with
  | finalizedEnv hc _ _ =>
    rcases List.mem_cons.mp h with rfl | h
    · exact .inr hc
    · exact .inl h
  | finalizedDb hc _ _ =>
    rcases List.mem_cons.mp h with rfl | h
    · exact .inr hc
    · exact .inl h
  | closedEnv hc _ _ =>
    rcases List.mem_cons.mp h with rfl | h
    · exact .inr hc
    · exact .inl h
  | closedDb hc _ _ =>
    rcases List.mem_cons.mp h with rfl | h
    · exact .inr hc
    · exact .inl h
  | _ => exact .inl h

theorem finalized_grows {r : ObjRef} (hs : s.Step e s') (h : r ∈ s.finalized) :
    r ∈ s'.finalized := by
  cases hs with
  | finalizedEnv => exact List.mem_cons_of_mem _ h
  | finalizedDb => exact List.mem_cons_of_mem _ h
  | closedEnv => exact List.mem_cons_of_mem _ h
  | closedDb => exact List.mem_cons_of_mem _ h
  | _ => exact h

theorem outlived_step (hh : Held s) (hs : s.Step e s') (ho : Outlived s) (hk : KeepsEnvs s) :
    Outlived s' := by
  rintro j i ⟨db', hj, rfl, hopen, hlive⟩ hf
  rcases dbs_step hs hj with ⟨db, hdb, hm⟩ | ⟨rfl, i, env, rc, hi, henv, rfl, rfl⟩
  · have hwas : s.OpenOn j db'.createdOn := by
      refine ⟨db, hdb, hm.createdOn.symm, ?_, fun hfin => hlive (finalized_grows hs hfin)⟩
      rcases hm.handle with ⟨hsame, -⟩ | ⟨hnone, -⟩
      · rw [← hsame]
        exact hopen
      · exact absurd hnone hopen
    cases finalized_step hs hf with
    | inl hfin => exact ho j _ hwas hfin
    | inr hc => exact (collectable_iff.mp hc).2 (hk j _ hwas)
  · exact (hh.roots _ hi).1 hf

/-- The environments that are closed are left alone where no closed Db calls for them. -/
theorem leaves_closed (hp : FPath System.step (.initial n) es s)
    (hes : ∀ e ∈ es, e.closesEnv = false) (ho : Outlived s) (hs : s.step e = some s')
    (hr : Rests s e) : LeavesClosed s e := by
  intro i hclosed he
  have hfin : .env i ∈ s.finalized := (path_closed hp hes i).mp hclosed
  obtain ⟨hh, ha⟩ := path_attached hp
  match e, he, hr with
  | .js (.env i' (.sync m args rc)), he, _ =>
    obtain ⟨rfl, -⟩ := he
    exact (hh.roots _ ((step_js hs).1 _ List.mem_cons_self)).1 hfin
  | .js (.db j (.direct m args o)), he, hr =>
    obtain ⟨db, c, hdb, rfl, ht, hparse⟩ := he
    have hlive := (hh.roots _ ((step_js hs).1 _ List.mem_cons_self)).1
    by_cases hopen : db.fields._db = none
    · exact hr db c hdb hparse ht hopen hfin
    · exact ho j _ ⟨db, hdb, rfl, hopen, hlive⟩ hfin
  | .bdb k c r, he, _ =>
    obtain ⟨-, req, hk, hi⟩ := he
    cases step_cases hs with
    | @bdb _ req' _ _ next hk' hw =>
      obtain rfl : req = req' := Option.some.inj (hk.symm.trans hk')
      have hpin := pinned ((balanced_initial n).path hp) hk (by rw [EioReq.outstanding, hw]; rfl)
      cases hjob : req.job with
      | db j r' baton =>
        obtain ⟨db, hdb, hopen⟩ := path_workersOpen hp k req j r' baton hk (by rw [hw]; rfl) hjob
        rw [hjob, System.envOf, hdb] at hi
        rw [hjob] at hpin
        exact ho j i ⟨db, hdb, Option.some.inj hi, hopen, fun hf => hpin (hh.finalized _ hf).2⟩ hfin
      | checkpoint i' baton =>
        rw [hjob] at hi hpin
        cases hi
        exact hpin (hh.finalized _ hfin).2
  | .finalize r rc, he, _ =>
    subst he
    by_cases hc : s.Collectable (.env i)
    · exact hc.1 hfin
    · simp [System.step, System.finalize, hc] at hs

theorem dbsFirst_snoc {log : List Entry} {entry : Entry} : DbsFirst (log ++ [entry]) ↔ DbsFirst log ∧
    ∀ h, entry.closesIn = some h → ∀ old ∈ log, old.closesEnv h = false := by
  rw [DbsFirst, List.pairwise_append]
  constructor
  · rintro ⟨hold, -, hcross⟩
    exact ⟨hold, fun h he old hm => hcross old hm entry (List.mem_singleton_self _) h he⟩
  · rintro ⟨hold, hnew⟩
    refine ⟨hold, List.pairwise_singleton _ _, fun old hm x hx h he => ?_⟩
    obtain rfl := List.mem_singleton.mp hx
    exact hnew h he old hm

theorem dbsFirst_quiet {log : List Entry} {entry : Entry} (h : DbsFirst log)
    (he : entry.closesIn = none) : DbsFirst (log ++ [entry]) :=
  dbsFirst_snoc.mpr ⟨h, fun q hq => by rw [he] at hq; cases hq⟩

/-- A close of the handle is a close of the object. -/
theorem not_closed {i : Nat} (hp : FPath System.step (.initial n) es s) (h : ¬ EnvClosed i s.log)
    {old : Entry} (hm : old ∈ s.log) : old.closesEnv (some i) = false := by
  cases old with
  | env i' q m rc =>
    cases m with
    | close flags =>
      obtain rfl := path_named hp i' q _ rc hm
      by_contra hcl
      obtain rfl : i' = i := by simpa [Entry.closesEnv, EnvMethod.closes] using hcl
      exact h ⟨_, flags, rc, hm⟩
    | _ => exact Bool.and_false _
  | _ => rfl

/-- A Db handle that is closed belongs to an open Db. -/
theorem closesIn_fresh {j : Nat} {db : WrappedDb} {m : DbMethod} {rc : Int}
    (hp : FPath System.step (.initial n) es s) (hes : ∀ e ∈ es, e.closesEnv = false)
    (ho : Outlived s) (hj : s.dbs[j]? = some db) (hl : .db j ∉ s.finalized) :
    ∀ h, (Entry.db j db.fields._db db.fields._env m rc).closesIn = some h →
      ∀ old ∈ s.log, old.closesEnv h = false := by
  intro h hc old hm
  cases hdb : db.fields._db with
  | none =>
    rw [hdb] at hc
    cases hc
  | some q =>
    have hopen : s.OpenOn j db.createdOn := ⟨db, hj, rfl, by rw [hdb]; exact Option.some_ne_none _, hl⟩
    have hclosed : ¬ EnvClosed db.createdOn s.log := fun hcl =>
      ho j _ hopen ((path_closed hp hes _).mp hcl)
    have henv : h = some db.createdOn := by
      rw [← ((path_attached hp).2.dbs j db hj).2.1]
      rw [hdb] at hc
      cases m with
      | close flags => exact (Option.some.inj hc).symm
      | _ => cases hc
    rw [henv]
    exact not_closed hp hclosed hm

theorem dbsFirst_step (hp : FPath System.step (.initial n) es s)
    (hes : ∀ e ∈ es, e.closesEnv = false) (ho : Outlived s) (hs : s.Step e s')
    (h : DbsFirst s.log) : DbsFirst s'.log := by
  obtain ⟨hh, -⟩ := path_attached hp
  cases hs with
  | dbSync hj hdb _ _ =>
    exact dbsFirst_snoc.mpr ⟨h, closesIn_fresh hp hes ho hdb (hh.roots _ hj).1⟩
  | @closedDb j rc db hc hdb _ =>
    have hfin : DbsFirst (s.log ++ [.finalize (.db j)]) := dbsFirst_quiet h rfl
    refine dbsFirst_snoc.mpr ⟨hfin, fun q hq old hm => ?_⟩
    cases List.mem_append.mp hm with
    | inl hm => exact closesIn_fresh hp hes ho hdb hc.1 q hq old hm
    | inr hm =>
      rw [List.mem_singleton.mp hm]
      rfl
  | closedEnv => exact dbsFirst_quiet (dbsFirst_quiet h rfl) rfl
  | associate hj hdb =>
    exact dbsFirst_snoc.mpr ⟨h, closesIn_fresh hp hes ho hdb (hh.roots _ hj).1⟩
  | unchanged => exact h
  | drop => exact h
  | dbUncalled => exact h
  | _ => exact dbsFirst_quiet h rfl

/-- What keeps a state safe: the environments of open Dbs are reachable, and closed Dbs rest. -/
theorem step_safe (hp : FPath System.step (.initial n) es s) (hes : ∀ e ∈ es, e.closesEnv = false)
    (hs : s.step e = some s') (h : Safe s) (hk : KeepsEnvs s) (hr : Rests s e) : Safe s' where
  outlived := outlived_step (path_attached hp).1 (step_cases hs) h.outlived hk
  envSafe := (step_safe_iff hp hs).mpr ⟨h.envSafe, leaves_closed hp hes h.outlived hs hr⟩
  dbsFirst := dbsFirst_step hp hes h.outlived (step_cases hs) h.dbsFirst

/-- An environment that nothing leads to is the collector's to take. -/
theorem outlives_keeps (ha : Attached s) (h : Outlives s) : KeepsEnvs s := by
  intro j i hopen
  by_contra hr
  have hlive := h.1.outlived j i hopen
  have hc : s.Collectable (.env i) := collectable_iff.mpr ⟨hlive, hr⟩
  obtain ⟨db, hj, rfl, ho, hl⟩ := hopen
  obtain ⟨env, henv⟩ : ∃ env, s.envs[db.createdOn]? = some env :=
    ⟨_, List.getElem?_eq_getElem (ha.dbs j db hj).1⟩
  have hsome : env._env ≠ none := by
    rw [ha.live henv hlive]
    exact Option.some_ne_none _
  have hs : s.step (.finalize (.env db.createdOn) 0) = some ((s.markFinalized (.env db.createdOn)).callEnv
      db.createdOn env { env with _env := none } (.close 0) 0) := by
    simp [System.step, System.finalize, hc, henv, hsome]
  have hnext := (h.2 _ _ _ hs).outlived
  refine hnext j db.createdOn ⟨db, hj, rfl, ho, ?_⟩ List.mem_cons_self
  simpa [System.callEnv, System.markFinalized] using hl

/-- A closed Db that calls for a closed environment enters it. -/
theorem safe_rests (hp : FPath System.step (.initial n) es s) (hes : ∀ e ∈ es, e.closesEnv = false)
    (hs : s.step e = some s') (h : Safe s') : Rests s e := by
  have hleave := ((step_safe_iff hp hs).mp h.envSafe).2
  match e with
  | .js (.db j (.direct m args o)) =>
    intro db c hdb hparse ht _ hf
    exact hleave db.createdOn ((path_closed hp hes _).mpr hf) ⟨db, c, hdb, rfl, ht, hparse⟩
  | .js (.newDbEnv _) => trivial
  | .js (.newDb _ _) => trivial
  | .js (.env _ _) => trivial
  | .js (.db _ (.sync ..)) => trivial
  | .js (.db _ (.associateSync ..)) => trivial
  | .js (.db _ (.request ..)) => trivial
  | .drop _ => trivial
  | .start _ => trivial
  | .bdb .. => trivial
  | .begin _ => trivial
  | .finish _ => trivial
  | .finalize .. => trivial

/-- In a run without explicit closes, every environment outlives its databases exactly if the
program keeps it reachable as long as one of them is open, and makes no synchronous operation on
a closed one afterwards. -/
theorem outlives_iff (n : Int) (es : List SysEvent) (s : System)
    (h : FPath System.step (.initial n) es s) (hes : ∀ e ∈ es, e.closesEnv = false) :
    Throughout System.step Outlives (.initial n) es s ↔
      Throughout System.step KeepsEnvs (.initial n) es s ∧
        Along System.step Rests (.initial n) es s := by
  induction h with
  | nil =>
    have hsafe : Safe (.initial n) :=
      ⟨fun _ _ ⟨_, hj, _⟩ => (nomatch hj), List.Pairwise.nil, List.Pairwise.nil⟩
    have hk : KeepsEnvs (.initial n) := fun _ _ ⟨_, hj, _⟩ => nomatch hj
    refine ⟨fun _ => ⟨⟨.nil, hk⟩, .nil⟩, fun _ => ⟨.nil, hsafe, fun r rc s' hs => ?_⟩⟩
    exact step_safe .nil (by simp) hs hsafe hk trivial
  | @snoc es s s' e hp hst ih =>
    have hes' : ∀ e ∈ es, e.closesEnv = false := fun e he => hes e (List.mem_append_left _ he)
    rw [throughout_snoc hp hst, throughout_snoc hp hst, along_snoc hp hst, ih hes']
    constructor
    · rintro ⟨⟨hkeep, hrest⟩, hout⟩
      exact ⟨⟨hkeep, outlives_keeps (path_attached (hp.snoc hst)).2 hout⟩, hrest,
        safe_rests hp hes' hst hout.1⟩
    · rintro ⟨⟨hkeep, hk⟩, hrest, hr⟩
      have hsafe : Safe s := ((ih hes').mpr ⟨hkeep, hrest⟩).2.1
      have hsafe' := step_safe hp hes' hst hsafe hkeep.2 hr
      refine ⟨⟨hkeep, hrest⟩, hsafe', fun r rc s'' hs => ?_⟩
      exact step_safe (hp.snoc hst) hes hs hsafe' hk trivial

end

/-- An environment is dropped and collected while the Db created on it is open. -/
def droppedEnvRun : List SysEvent :=
  [.js (.newDbEnv 0), .js (.newDb [.wrapper (.env 0)] 0), .drop (.env 0), .finalize (.env 0) 0]

/-- The open Db is still there, and its environment is gone. -/
theorem droppedEnvRun_unsafe :
    (∀ e ∈ droppedEnvRun, e.closesEnv = false) ∧
      ∃ s, run System.step (.initial 0) droppedEnvRun = some s ∧ ¬ Outlived s := by
  refine ⟨by decide, _, rfl, fun h => ?_⟩
  exact h 0 0 ⟨_, rfl, rfl, by decide, by decide⟩ (by decide)

theorem droppedEnvRun_iff :
    ∃ s, run System.step (.initial 0) droppedEnvRun = some s ∧
      (Throughout System.step Outlives (.initial 0) droppedEnvRun s ↔
        Throughout System.step KeepsEnvs (.initial 0) droppedEnvRun s ∧
          Along System.step Rests (.initial 0) droppedEnvRun s) :=
  ⟨_, rfl, outlives_iff 0 droppedEnvRun _ (run_path rfl) (by decide)⟩

end NodeBdb
