import NodeBdb.System

/-!
# What is alive

What the script or a pending callback can reach has not been finalized, and the handle
fields of the wrapper objects say which objects they belong to: a `DbEnv` that has not
been finalized has its handle, and a `Db` has the handle of the `DbEnv` it was created on.
-/

namespace NodeBdb

open Interaction Transition

/-! ## The methods -/

theorem envSync_env {m : EnvSync} {env env' : DbEnv} {args : List JsValue} {method : EnvMethod}
    (h : m.run env args = .ok (env', method)) : env'._env = env._env := by
  cases m with
  | openS =>
    obtain ⟨_, -, h⟩ := bind_ok h
    obtain ⟨_, -, h⟩ := bind_ok h
    obtain ⟨_, -, h⟩ := bind_ok h
    cases h
    rfl
  | closeS =>
    obtain ⟨_, -, h⟩ := bind_ok h
    cases h
    rfl
  | set m =>
    obtain ⟨_, -, h⟩ := bind_ok h
    cases h
    rfl

def DbMethod.closes : DbMethod → Bool
  | .close _ => true
  | _ => false

/-- A method of `Db` never writes what was copied from the environment, and only the one that
closes the handle writes the handle. -/
theorem dbSync_fields {m : DbSync} {db fields : Db} {args : List JsValue} {method : Option DbMethod}
    (h : m.run db args = .ok (fields, method)) :
    fields._env = db._env ∧ fields._transactional = db._transactional ∧
      fields._db = if method.any DbMethod.closes then none else db._db := by
  cases m with
  | openS =>
    obtain ⟨_, -, h⟩ := bind_ok h
    obtain ⟨_, -, h⟩ := bind_ok h
    obtain ⟨_, -, h⟩ := bind_ok h
    obtain ⟨_, -, h⟩ := bind_ok h
    obtain ⟨_, -, h⟩ := bind_ok h
    cases h
    refine ⟨rfl, rfl, ?_⟩
    by_cases ho : db._db = none <;> simp [ho, DbMethod.closes]
  | closeS =>
    obtain ⟨_, -, h⟩ := bind_ok h
    cases h
    exact ⟨rfl, rfl, rfl⟩
  | setFlags =>
    obtain ⟨_, -, h⟩ := bind_ok h
    cases h
    exact ⟨rfl, rfl, rfl⟩
  | setEncrypt =>
    obtain ⟨_, -, h⟩ := bind_ok h
    cases h
    exact ⟨rfl, rfl, rfl⟩

/-! ## Reachability -/

def System.Exists (s : System) : ObjRef → Prop
  | .env i => i < s.envs.length
  | .db j => j < s.dbs.length

def System.Live (s : System) (r : ObjRef) : Prop := r ∉ s.finalized ∧ s.Exists r

theorem log_grows {s s' : System} {e : SysEvent} (h : s.Step e s') :
    ∃ entries, s'.log = s.log ++ entries := by
  cases h with
  | unchanged => exact ⟨[], (List.append_nil _).symm⟩
  | drop => exact ⟨[], (List.append_nil _).symm⟩
  | dbUncalled => exact ⟨[], (List.append_nil _).symm⟩
  | closedEnv => exact ⟨_, List.append_assoc ..⟩
  | closedDb => exact ⟨_, List.append_assoc ..⟩
  | _ => exact ⟨_, rfl⟩

theorem exists_step {s s' : System} {e : SysEvent} {r : ObjRef} (h : s.Step e s')
    (hr : s.Exists r) : s'.Exists r := by
  have henvs : s.envs.length ≤ s'.envs.length := by
    cases h <;>
      simp [System.addEnv, System.addDb, System.callEnv, System.callDb, System.setDb, System.accept,
        System.setReq, System.markFinalized]
  have hdbs : s.dbs.length ≤ s'.dbs.length := by
    cases h <;>
      simp [System.addEnv, System.addDb, System.callEnv, System.callDb, System.setDb, System.accept,
        System.setReq, System.markFinalized]
  cases r with
  | env i => exact Nat.lt_of_lt_of_le hr henvs
  | db j => exact Nat.lt_of_lt_of_le hr hdbs

structure Held (s : System) : Prop where
  roots : ∀ r ∈ s.roots, s.Live r
  captured : ∀ req ∈ s.requests, req.stage.isCompleted = false → ∀ r ∈ req.captured, s.Live r
  objects : ∀ req ∈ s.requests, s.Exists req.job.object
  finalized : ∀ r ∈ s.finalized, s.Exists r ∧ s.refs r = 0

section

variable {s s' : System} {k : Nat} {req : EioReq}

theorem held_initial (n : Int) : Held (.initial n) where
  roots _ h := nomatch h
  captured _ h := nomatch h
  objects _ h := nomatch h
  finalized _ h := nomatch h

theorem System.Live.mono {r : ObjRef} (h : s.Live r) (hf : s'.finalized = s.finalized)
    (he : ∀ r, s.Exists r → s'.Exists r) : s'.Live r :=
  ⟨by rw [hf]; exact h.1, he r h.2⟩

/-- Steps that add objects and reach new ones leave the rest as it is. -/
theorem Held.grow (h : Held s) (he : ∀ r, s.Exists r → s'.Exists r)
    (hf : s'.finalized = s.finalized) (hq : s'.requests = s.requests) (hr : s'.refs = s.refs)
    (hroots : ∀ r ∈ s'.roots, r ∈ s.roots ∨ (s'.Exists r ∧ ¬ s.Exists r)) : Held s' where
  roots r hm := by
    rcases hroots r hm with hm | ⟨hn, ho⟩
    · exact (h.roots r hm).mono hf he
    · exact ⟨by rw [hf]; exact fun hfin => ho (h.finalized r hfin).1, hn⟩
  captured req hm hc r hr := by
    rw [hq] at hm
    exact (h.captured req hm hc r hr).mono hf he
  objects req hm := by
    rw [hq] at hm
    exact he _ (h.objects req hm)
  finalized r hm := by
    rw [hf] at hm
    rw [hr]
    exact ⟨he r (h.finalized r hm).1, (h.finalized r hm).2⟩

theorem exists_set_env {i : Nat} {env : DbEnv} (r : ObjRef)
    (hs : s'.envs = s.envs.set i env) (hd : s'.dbs = s.dbs) : s'.Exists r ↔ s.Exists r := by
  cases r <;> simp [System.Exists, hs, hd]

theorem exists_set_db {j : Nat} {db : WrappedDb} (r : ObjRef)
    (hs : s'.envs = s.envs) (hd : s'.dbs = s.dbs.set j db) : s'.Exists r ↔ s.Exists r := by
  cases r <;> simp [System.Exists, hs, hd]

theorem Held.accept (h : Held s) {job : Job} (cb : Nat) {captured : List ObjRef}
    (hj : job.object ∈ s.roots) (hc : ∀ r ∈ captured, r ∈ s.roots) :
    Held (s.accept job cb captured) where
  roots := h.roots
  captured req hm hs r hr := by
    cases List.mem_append.mp hm with
    | inl hm => exact h.captured req hm hs r hr
    | inr hm =>
      cases List.mem_singleton.mp hm
      exact h.roots r (hc r hr)
  objects req hm := by
    cases List.mem_append.mp hm with
    | inl hm => exact h.objects req hm
    | inr hm =>
      cases List.mem_singleton.mp hm
      exact (h.roots _ hj).2
  finalized r hm := by
    have hne : r ≠ job.object := fun he => (h.roots _ hj).1 (he ▸ hm)
    exact ⟨(h.finalized r hm).1, (Function.update_of_ne hne _ _).trans (h.finalized r hm).2⟩

/-- A request that moves keeps its job and its closure. -/
theorem Held.move (h : Held s) (hk : s.requests[k]? = some req) {req' : EioReq}
    (hj : req'.job = req.job) (hc : req'.captured = req.captured)
    {entry : Entry}
    (hs : req'.stage.isCompleted = false → req.stage.isCompleted = false) :
    Held (s.setReq k req' entry) where
  roots := h.roots
  captured x hm hx r hr := by
    rcases List.mem_or_eq_of_mem_set hm with hm | rfl
    · exact h.captured x hm hx r hr
    · exact h.captured req (List.mem_of_getElem? hk) (hs hx) r (hc ▸ hr)
  objects x hm := by
    rcases List.mem_or_eq_of_mem_set hm with hm | rfl
    · exact h.objects x hm
    · have he := h.objects req (List.mem_of_getElem? hk)
      rw [← hj] at he
      exact he
  finalized := h.finalized

theorem Held.markFinalized {r : ObjRef} (h : Held s) (hc : s.Collectable r) (he : s.Exists r) :
    Held (s.markFinalized r) where
  roots q hq := by
    refine ⟨fun hm => ?_, (h.roots q hq).2⟩
    rcases List.mem_cons.mp hm with rfl | hm
    · exact hc.2.1 hq
    · exact (h.roots q hq).1 hm
  captured req hm hs q hq := by
    have hl := h.captured req hm hs q hq
    refine ⟨fun hm' => ?_, hl.2⟩
    rcases List.mem_cons.mp hm' with rfl | hm'
    · exact hc.2.2.2 req hm hs hq
    · exact hl.1 hm'
  objects := h.objects
  finalized q hm := by
    rcases List.mem_cons.mp hm with rfl | hm
    · exact ⟨he, hc.2.2.1⟩
    · exact h.finalized q hm

/-- The handle of a finalized wrapper is closed and its fields are written, nothing else. -/
theorem Held.fields (h : Held s) (he : ∀ r, s'.Exists r ↔ s.Exists r)
    (hf : s'.finalized = s.finalized) (hq : s'.requests = s.requests) (hr : s'.refs = s.refs)
    (hroots : s'.roots = s.roots) : Held s' :=
  h.grow (fun r => (he r).mpr) hf hq hr fun _ hm => .inl (hroots ▸ hm)

theorem Held.step {e : SysEvent} (h : Held s) (hs : s.Step e s') : Held s' := by
  cases hs with
  | unchanged => exact h
  | newDbEnv =>
    refine h.grow (fun r hr => ?_) rfl rfl rfl fun q hq => ?_
    · cases r with
      | env i => exact Nat.lt_of_lt_of_le hr (by simp [System.addEnv])
      | db j => exact hr
    · rcases List.mem_cons.mp hq with rfl | hq
      · exact .inr ⟨by simp [System.Exists, System.addEnv], Nat.lt_irrefl _⟩
      · exact .inl hq
  | @newDb args i env rc hi henv =>
    refine h.grow (fun r hr => ?_) rfl rfl rfl fun r hr => ?_
    · cases r with
      | env i => exact hr
      | db j => exact Nat.lt_of_lt_of_le hr (by simp [System.addDb])
    · by_cases hrc : rc = 0
      · simp only [System.addDb, hrc, ↓reduceIte] at hr
        rcases List.mem_cons.mp hr with rfl | hr
        · exact .inr ⟨by simp [System.Exists, System.addDb], Nat.lt_irrefl _⟩
        · exact .inl hr
      · simp only [System.addDb, hrc, ↓reduceIte] at hr
        exact .inl hr
  | envSync => exact h.fields (fun r => exists_set_env r rfl rfl) rfl rfl rfl rfl
  | dbSync => exact h.fields (fun r => exists_set_db r rfl rfl) rfl rfl rfl rfl
  | dbUncalled => exact h.fields (fun r => exists_set_db r rfl rfl) rfl rfl rfl rfl
  | associate => exact h.fields (fun r => exists_set_db r rfl rfl) rfl rfl rfl rfl
  | direct => exact h.fields (fun _ => Iff.rfl) rfl rfl rfl rfl
  | accept hj hc _ => exact h.accept _ hj hc
  | drop => exact h.grow (fun _ => id) rfl rfl rfl fun _ hr => .inl (List.mem_filter.mp hr).1
  | start hk hq _ => exact h.move hk (by rfl) (by rfl) (fun _ => by rw [hq]; rfl)
  | bdb hk hw => exact h.move hk (by rfl) (by rfl) (fun _ => by rw [hw]; rfl)
  | @begin k req job hk hw _ =>
    have hm : Held (s.setReq k { req with stage := .calling } (.callback k job.after)) :=
      h.move hk (by rfl) (by rfl) fun _ => by rw [hw]; rfl
    refine ⟨fun r hr => ?_, hm.captured, hm.objects, hm.finalized⟩
    cases List.mem_append.mp hr with
    | inl hr => exact h.captured req (List.mem_of_getElem? hk) (by rw [hw]; rfl) r hr
    | inr hr => exact h.roots r hr
  | @finish threw k req _ hk =>
    have hm : Held (s.setReq k { req with stage := .completed } (.delete k)) :=
      h.move hk (by rfl) (by rfl) (fun hc => nomatch hc)
    refine ⟨hm.roots, hm.captured, hm.objects, fun r hr => ⟨(hm.finalized r hr).1, ?_⟩⟩
    have h0 : s.refs r = 0 := (h.finalized r hr).2
    by_cases he : r = req.job.object
    · subst he
      exact (Function.update_self ..).trans (by omega)
    · exact (Function.update_of_ne he _ _).trans h0
  | finalizedEnv hc henv _ => exact h.markFinalized hc (List.getElem?_eq_some_iff.mp henv).1
  | finalizedDb hc hdb _ => exact h.markFinalized hc (List.getElem?_eq_some_iff.mp hdb).1
  | closedEnv hc henv _ =>
    exact (h.markFinalized hc (List.getElem?_eq_some_iff.mp henv).1).fields
      (fun r => exists_set_env r rfl rfl) rfl rfl rfl rfl
  | closedDb hc hdb _ =>
    exact (h.markFinalized hc (List.getElem?_eq_some_iff.mp hdb).1).fields
      (fun r => exists_set_db r rfl rfl) rfl rfl rfl rfl

end

/-! ## What a step does to an object -/

/-- The close of the j-th `Db` has been called. -/
def Entry.closesDb (j : Nat) : Entry → Bool
  | .db i _ _ m _ => i == j && m.closes
  | _ => false

def DbClosed (j : Nat) (log : List Entry) : Prop := log.any (Entry.closesDb j) = true

instance (j : Nat) (log : List Entry) : Decidable (DbClosed j log) :=
  inferInstanceAs (Decidable (_ = true))

theorem dbClosed_append (j : Nat) (log log' : List Entry) :
    DbClosed j (log ++ log') ↔ DbClosed j log ∨ DbClosed j log' := by
  simp [DbClosed, List.any_append]

/-- A `Db` that was there before the step: what it copied stays, and its handle is lost only
where it is closed. -/
structure DbMoved (s s' : System) (j : Nat) (db db' : WrappedDb) : Prop where
  createdOn : db'.createdOn = db.createdOn
  env : db'.fields._env = db.fields._env
  transactional : db'.fields._transactional = db.fields._transactional
  handle : (db'.fields._db = db.fields._db ∧ (DbClosed j s'.log → DbClosed j s.log)) ∨
    (db'.fields._db = none ∧ DbClosed j s'.log)

section

variable {s s' : System} {e : SysEvent} {j : Nat} {db' : WrappedDb}

theorem DbMoved.rfl {db : WrappedDb} (h : DbClosed j s'.log → DbClosed j s.log) :
    DbMoved s s' j db db := ⟨.refl _, .refl _, .refl _, .inl ⟨.refl _, h⟩⟩

/-- The Dbs of a step that has nothing to do with them. -/
theorem dbs_same {entries : List Entry} (hd : s'.dbs = s.dbs) (hl : s'.log = s.log ++ entries)
    (hne : ∀ j, ¬ DbClosed j entries) (hj : s'.dbs[j]? = some db') :
    ∃ db, s.dbs[j]? = some db ∧ DbMoved s s' j db db' := by
  rw [hd] at hj
  refine ⟨db', hj, .rfl fun h => ?_⟩
  rw [hl, dbClosed_append] at h
  exact h.resolve_right (hne j)

/-- The Dbs of a step that writes the fields of one of them. -/
theorem dbs_set {i : Nat} {db : WrappedDb} {fields : Db} {entries : List Entry} {c : Bool}
    (hdb : s.dbs[i]? = some db) (hd : s'.dbs = s.dbs.set i { db with fields := fields })
    (hl : s'.log = s.log ++ entries) (hc : ∀ j, DbClosed j entries ↔ i = j ∧ c = true)
    (he : fields._env = db.fields._env) (ht : fields._transactional = db.fields._transactional)
    (hf : fields._db = if c then none else db.fields._db) (hj : s'.dbs[j]? = some db') :
    ∃ db, s.dbs[j]? = some db ∧ DbMoved s s' j db db' := by
  have hlog : DbClosed j s'.log ↔ DbClosed j s.log ∨ (i = j ∧ c = true) := by
    rw [hl, dbClosed_append, hc]
  rw [hd] at hj
  rcases Table.get_set hdb hj with ⟨rfl, rfl⟩ | ⟨hne, hj⟩
  · refine ⟨db, hdb, .refl _, he, ht, ?_⟩
    cases c with
    | true => exact .inr ⟨hf, hlog.mpr (.inr ⟨.refl _, .refl _⟩)⟩
    | false => exact .inl ⟨hf, fun h => (hlog.mp h).resolve_right fun hi => nomatch hi.2⟩
  · exact ⟨db', hj, .rfl fun h => (hlog.mp h).resolve_right fun hi => hne hi.1.symm⟩

theorem dbClosed_single (i j : Nat) (h : Option DbHandle) (env : Option EnvHandle) (m : DbMethod)
    (rc : Int) : DbClosed j [.db i h env m rc] ↔ i = j ∧ m.closes = true := by
  simp [DbClosed, Entry.closesDb]

theorem dbs_step (hs : s.Step e s') (hj : s'.dbs[j]? = some db') :
    (∃ db, s.dbs[j]? = some db ∧ DbMoved s s' j db db') ∨
      j = s.dbs.length ∧ ∃ i env rc, .env i ∈ s.roots ∧ s.envs[i]? = some env ∧
        s' = s.addDb i env rc ∧
        db' = { fields := Db.new env (if rc = 0 then some s.dbs.length else none), createdOn := i } := by
  cases hs with
  | @newDb args i env rc hi henv =>
    rcases Table.get_append hj with ⟨rfl, rfl⟩ | ⟨-, hj⟩
    · exact .inr ⟨rfl, i, env, rc, hi, henv, rfl, rfl⟩
    · refine .inl ⟨db', hj, .rfl fun h => ?_⟩
      rw [System.addDb, dbClosed_append] at h
      exact h.resolve_right (by simp [DbClosed, Entry.closesDb])
  | dbSync _ hdb hrun _ =>
    obtain ⟨he, ht, hf⟩ := dbSync_fields hrun
    exact .inl (dbs_set hdb rfl rfl (fun j => dbClosed_single ..) he ht hf hj)
  | dbUncalled _ hdb hrun =>
    obtain ⟨he, ht, hf⟩ := dbSync_fields hrun
    refine .inl (dbs_set (c := false) hdb rfl (List.append_nil _).symm (fun j => ?_) he ht hf hj)
    simp [DbClosed]
  | associate _ hdb =>
    exact .inl (dbs_set hdb rfl rfl (fun j => dbClosed_single ..) rfl rfl rfl hj)
  | closedDb _ hdb _ =>
    refine .inl (dbs_set (c := true) hdb rfl (List.append_assoc ..) (fun j => ?_) rfl rfl rfl hj)
    exact (dbClosed_append j [.finalize _] _).trans
      (by simp [DbClosed, Entry.closesDb, DbMethod.closes])
  | unchanged => exact .inl ⟨db', hj, .rfl id⟩
  | drop => exact .inl ⟨db', hj, .rfl id⟩
  | closedEnv => exact .inl (dbs_same rfl (List.append_assoc ..) (by simp [DbClosed, Entry.closesDb]) hj)
  | _ => exact .inl (dbs_same rfl rfl (by simp [DbClosed, Entry.closesDb]) hj)

end

/-! ## Handles -/

/-- The handle fields name the objects they belong to. -/
structure Attached (s : System) : Prop where
  envs : ∀ i env, s.envs[i]? = some env → env._env = if .env i ∈ s.finalized then none else some i
  dbs : ∀ j db, s.dbs[j]? = some db → db.createdOn < s.envs.length ∧
    db.fields._env = some db.createdOn ∧ (.db j ∈ s.finalized → db.fields._db = none)

section

variable {s s' : System}

theorem attached_initial (n : Int) : Attached (.initial n) where
  envs _ _ h := nomatch h
  dbs _ _ h := nomatch h

theorem Attached.live {i : Nat} {env : DbEnv} (h : Attached s) (henv : s.envs[i]? = some env)
    (hl : .env i ∉ s.finalized) : env._env = some i := by
  rw [h.envs i env henv, if_neg hl]

theorem Attached.setEnv (h : Attached s) {i : Nat} {env env' : DbEnv} (henv : s.envs[i]? = some env)
    (he : s'.envs = s.envs.set i env') (hd : s'.dbs = s.dbs)
    (hdb : ∀ j, .db j ∈ s'.finalized ↔ .db j ∈ s.finalized)
    (hother : ∀ i', i' ≠ i → (.env i' ∈ s'.finalized ↔ .env i' ∈ s.finalized))
    (hnew : env'._env = if .env i ∈ s'.finalized then none else some i) : Attached s' where
  envs i' x hx := by
    rw [he] at hx
    rcases Table.get_set henv hx with ⟨rfl, rfl⟩ | ⟨hi, hx⟩
    · exact hnew
    · have hold := h.envs i' x hx
      simp only [← hother i' hi] at hold
      exact hold
  dbs j db hj := by
    rw [hd] at hj
    have hold := h.dbs j db hj
    rw [he, List.length_set, hdb]
    exact hold

theorem Attached.setDb (h : Attached s) {j : Nat} {db : WrappedDb} {fields : Db}
    (hdb : s.dbs[j]? = some db) (he : s'.envs = s.envs)
    (hd : s'.dbs = s.dbs.set j { db with fields := fields })
    (henv : ∀ i, .env i ∈ s'.finalized ↔ .env i ∈ s.finalized)
    (hother : ∀ j', j' ≠ j → (.db j' ∈ s'.finalized ↔ .db j' ∈ s.finalized))
    (hnew : fields._env = db.fields._env ∧ (.db j ∈ s'.finalized → fields._db = none)) :
    Attached s' where
  envs i env hi := by
    rw [he] at hi
    have hold := h.envs i env hi
    simp only [← henv i] at hold
    exact hold
  dbs j' x hx := by
    rw [hd] at hx
    rw [he]
    rcases Table.get_set hdb hx with ⟨rfl, rfl⟩ | ⟨hj, hx⟩
    · have hold := h.dbs j' db hdb
      exact ⟨hold.1, hnew.1.trans hold.2.1, hnew.2⟩
    · have hold := h.dbs j' x hx
      rw [hother j' hj]
      exact hold

theorem Attached.same (h : Attached s) (he : s'.envs = s.envs) (hd : s'.dbs = s.dbs)
    (hf : s'.finalized = s.finalized) : Attached s' where
  envs i env hi := by
    rw [he] at hi
    rw [hf]
    exact h.envs i env hi
  dbs j db hj := by
    rw [hd] at hj
    rw [he, hf]
    exact h.dbs j db hj

theorem Attached.step {e : SysEvent} (h : Attached s) (hheld : Held s) (hs : s.Step e s') :
    Attached s' := by
  cases hs with
  | newDbEnv =>
    constructor
    · intro i env hi
      rcases Table.get_append hi with ⟨rfl, rfl⟩ | ⟨-, hi⟩
      · have hnew : ObjRef.env s.envs.length ∉ s.finalized := fun hf =>
          Nat.lt_irrefl _ (hheld.finalized _ hf).1
        exact (if_neg hnew).symm
      · exact h.envs i env hi
    · intro j db hj
      have hold := h.dbs j db hj
      refine ⟨?_, hold.2⟩
      simp only [System.addEnv, List.length_append, List.length_singleton]
      omega
  | @newDb args i env rc hi henv =>
    constructor
    · exact h.envs
    · intro j db hj
      rcases Table.get_append hj with ⟨rfl, rfl⟩ | ⟨-, hj⟩
      · refine ⟨(List.getElem?_eq_some_iff.mp henv).1, ?_, fun hf => ?_⟩
        · exact h.live henv (hheld.roots _ hi).1
        · exact absurd (hheld.finalized _ hf).1 (Nat.lt_irrefl _)
      · exact h.dbs j db hj
  | envSync hi henv hrun _ _ =>
    refine h.setEnv henv rfl rfl (fun _ => Iff.rfl) (fun _ _ => Iff.rfl) ?_
    exact (envSync_env hrun).trans (h.envs _ _ henv)
  | dbSync hj hdb hrun _ =>
    refine h.setDb hdb rfl rfl (fun _ => Iff.rfl) (fun _ _ => Iff.rfl) ⟨(dbSync_fields hrun).1, ?_⟩
    exact fun hf => absurd hf (hheld.roots _ hj).1
  | dbUncalled hj hdb hrun =>
    refine h.setDb hdb rfl rfl (fun _ => Iff.rfl) (fun _ _ => Iff.rfl) ⟨(dbSync_fields hrun).1, ?_⟩
    exact fun hf => absurd hf (hheld.roots _ hj).1
  | associate hj hdb =>
    refine h.setDb hdb rfl rfl (fun _ => Iff.rfl) (fun _ _ => Iff.rfl) ⟨rfl, ?_⟩
    exact fun hf => absurd hf (hheld.roots _ hj).1
  | finalizedEnv hc henv h0 =>
    have hlive := h.live henv hc.1
    rw [h0] at hlive
    cases hlive
  | @finalizedDb j rc db _ hdb h0 =>
    constructor
    · intro i env hi
      simpa [System.markFinalized] using h.envs i env hi
    · intro j' db' hj
      have hold := h.dbs j' db' hj
      refine ⟨hold.1, hold.2.1, fun hf => ?_⟩
      cases List.mem_cons.mp hf with
      | inl he =>
        cases he
        obtain rfl : db' = db := Option.some.inj (hj.symm.trans hdb)
        exact h0
      | inr hf => exact hold.2.2 hf
  | closedEnv _ henv _ =>
    refine h.setEnv henv rfl rfl (fun j => ?_) (fun i' hi => ?_) ?_
    · simp [System.callEnv, System.markFinalized]
    · simp [System.callEnv, System.markFinalized, hi]
    · simp [System.callEnv, System.markFinalized]
  | closedDb _ hdb _ =>
    refine h.setDb hdb rfl rfl (fun i => ?_) (fun j' hj => ?_) ⟨rfl, fun _ => rfl⟩
    · simp [System.callDb, System.setDb, System.markFinalized]
    · simp [System.callDb, System.setDb, System.markFinalized, hj]
  | _ => exact h.same rfl rfl rfl

theorem Held.path {es : List SysEvent} (h : Held s) (hp : FPath System.step s es s') : Held s' :=
  hp.invariant (I := fun _ s => Held s) h fun _ _ _ _ hi hs => hi.step (step_cases hs)

theorem path_attached {n : Int} {es : List SysEvent} (hp : FPath System.step (.initial n) es s) :
    Held s ∧ Attached s :=
  hp.invariant (I := fun _ s => Held s ∧ Attached s) ⟨held_initial n, attached_initial n⟩
    fun _ _ _ _ hi hs => ⟨hi.1.step (step_cases hs), hi.2.step hi.1 (step_cases hs)⟩

end

end NodeBdb
