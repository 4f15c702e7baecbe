import NodeBdb.Balance
import NodeBdb.Discipline

/-!
# Requests overtaken by a close

A worker that finds its Db closed returns at once, and the status of its baton is still
the 0 it was created with. So the callback is told that everything went well, unless
the worker started before the close.
-/

namespace NodeBdb

open Interaction Transition

/-! ## Closed handles -/

/-- What the script has been handed, or will be by a callback, or a request is on. -/
def System.Known (s : System) (r : ObjRef) : Prop :=
  r ∈ s.roots ∨ ∃ req ∈ s.requests, req.job.object = r ∨
    (req.stage.isCompleted = false ∧ r ∈ req.captured)

/-- The handle of a Db is NULL where its close has been called, and of the Dbs anyone knows
only there. -/
structure Closing (s : System) : Prop where
  closed : ∀ j db, DbClosed j s.log → s.dbs[j]? = some db → db.fields._db = none
  created : ∀ j, DbClosed j s.log → j < s.dbs.length
  known : ∀ j db, s.Known (.db j) → s.dbs[j]? = some db → db.fields._db = none → DbClosed j s.log

section

variable {s s' : System} {e : SysEvent} {r : ObjRef} {k : Nat}

theorem known_exists (h : Held s) (hk : s.Known r) : s.Exists r := by
  rcases hk with hr | ⟨req, hm, rfl | ⟨hc, hr⟩⟩
  · exact (h.roots r hr).2
  · exact h.objects req hm
  · exact (h.captured req hm hc r hr).2

theorem known_move {req req' : EioReq} {entry : Entry} (hk : s.requests[k]? = some req)
    (hj : req'.job = req.job) (hc : req'.captured = req.captured)
    (hs : req'.stage.isCompleted = false → req.stage.isCompleted = false)
    (h : (s.setReq k req' entry).Known r) : s.Known r := by
  rcases h with hr | ⟨x, hm, hx⟩
  · exact .inl hr
  · rcases List.mem_or_eq_of_mem_set hm with hm | rfl
    · exact .inr ⟨x, hm, hx⟩
    · rw [hj, hc] at hx
      exact .inr ⟨req, List.mem_of_getElem? hk, hx.imp id fun hx => ⟨hs hx.1, hx.2⟩⟩

/-- Nothing becomes known but what a step creates. -/
theorem known_step (hs : s.Step e s') (h : s'.Known r) : s.Known r ∨ ¬ s.Exists r := by
  cases hs with
  | newDbEnv =>
    cases h with
    | inl hr =>
      rcases List.mem_cons.mp hr with rfl | hr
      · exact .inr (Nat.lt_irrefl _)
      · exact .inl (.inl hr)
    | inr h => exact .inl (.inr h)
  | @newDb args i env rc _ _ =>
    cases h with
    | inl hr =>
      by_cases hrc : rc = 0
      · simp only [System.addDb, hrc, ↓reduceIte] at hr
        rcases List.mem_cons.mp hr with rfl | hr
        · exact .inr (Nat.lt_irrefl _)
        · exact .inl (.inl hr)
      · simp only [System.addDb, hrc, ↓reduceIte] at hr
        exact .inl (.inl hr)
    | inr h => exact .inl (.inr h)
  | accept hj hc _ =>
    rcases h with hr | ⟨req, hm, hr⟩
    · exact .inl (.inl hr)
    · cases List.mem_append.mp hm with
      | inl hm => exact .inl (.inr ⟨req, hm, hr⟩)
      | inr hm =>
        cases List.mem_singleton.mp hm
        rcases hr with rfl | ⟨-, hr⟩
        · exact .inl (.inl hj)
        · exact .inl (.inl (hc r hr))
  | drop =>
    cases h with
    | inl hr => exact .inl (.inl (List.mem_filter.mp hr).1)
    | inr h => exact .inl (.inr h)
  | start hk hq _ => exact .inl (known_move hk (by rfl) (by rfl) (fun _ => by rw [hq]; rfl) h)
  | bdb hk hw => exact .inl (known_move hk (by rfl) (by rfl) (fun _ => by rw [hw]; rfl) h)
  | @begin k req job hk hw _ =>
    have hold : (s.setReq k { req with stage := .calling } (.callback k job.after)).Known r ∨
        r ∈ req.captured := by
      cases h with
      | inl hr => exact (List.mem_append.mp hr).elim .inr fun hr => .inl (.inl hr)
      | inr h => exact .inl (.inr h)
    cases hold with
    | inl hold => exact .inl (known_move hk (by rfl) (by rfl) (fun _ => by rw [hw]; rfl) hold)
    | inr hr => exact .inl (.inr ⟨req, List.mem_of_getElem? hk, .inr ⟨by rw [hw]; rfl, hr⟩⟩)
  | @finish threw k req _ hk =>
    have hold : (s.setReq k { req with stage := .completed } (.delete k)).Known r := h
    refine .inl (known_move hk (by rfl) (by rfl) ?_ hold)
    intro hc
    cases hc
  | _ => exact .inl h

theorem closed_step {j : Nat} (hs : s.Step e s') (h : DbClosed j s'.log) :
    DbClosed j s.log ∨ s.Exists (.db j) := by
  have hlog : ∀ {entries : List Entry}, (DbClosed j entries → s.Exists (.db j)) →
      DbClosed j (s.log ++ entries) → DbClosed j s.log ∨ s.Exists (.db j) :=
    fun he h => ((dbClosed_append ..).mp h).imp id he
  cases hs with
  | unchanged => exact .inl h
  | drop => exact .inl h
  | dbUncalled => exact .inl h
  | dbSync _ hdb _ _ =>
    refine hlog (fun hc => ?_) h
    rw [← ((dbClosed_single ..).mp hc).1]
    exact (List.getElem?_eq_some_iff.mp hdb).1
  | associate _ hdb =>
    refine hlog (fun hc => ?_) h
    rw [← ((dbClosed_single ..).mp hc).1]
    exact (List.getElem?_eq_some_iff.mp hdb).1
  | closedEnv =>
    rw [System.callEnv, System.markFinalized, List.append_assoc] at h
    exact hlog (by simp [DbClosed, Entry.closesDb]) h
  | @closedDb j' rc db _ hdb _ =>
    rw [System.callDb, System.setDb, System.markFinalized, List.append_assoc] at h
    refine hlog (fun hc => ?_) h
    cases (dbClosed_append j [.finalize _] _).mp hc with
    | inl hc => simp [DbClosed, Entry.closesDb] at hc
    | inr hc =>
      rw [← ((dbClosed_single ..).mp hc).1]
      exact (List.getElem?_eq_some_iff.mp hdb).1
  | _ => exact hlog (by simp [DbClosed, Entry.closesDb]) h

theorem Closing.step (h : Closing s) (hh : Held s) (hs : s.Step e s') : Closing s' := by
  constructor
  · intro j db' hc hj
    rcases dbs_step hs hj with ⟨db, hdb, hm⟩ | ⟨rfl, i, env, rc, -, -, rfl, -⟩
    · rcases hm.handle with ⟨he, hold⟩ | ⟨hnone, -⟩
      · rw [he]
        exact h.closed j db (hold hc) hdb
      · exact hnone
    · cases closed_step hs hc with
      | inl hold => exact absurd (h.created _ hold) (Nat.lt_irrefl _)
      | inr hold => exact absurd hold (Nat.lt_irrefl _)
  · intro j hc
    have hold := (closed_step hs hc).elim (h.created j) id
    exact exists_step (r := .db j) hs hold
  · intro j db' hk hj hnone
    rcases dbs_step hs hj with ⟨db, hdb, hm⟩ | ⟨rfl, i, env, rc, -, -, rfl, rfl⟩
    · have hold := (known_step hs hk).resolve_right fun hn =>
        hn (List.getElem?_eq_some_iff.mp hdb).1
      rcases hm.handle with ⟨he, -⟩ | ⟨-, hc⟩
      · obtain ⟨entries, hl⟩ := log_grows hs
        rw [hl, dbClosed_append]
        exact .inl (h.known j db hold hdb (he ▸ hnone))
      · exact hc
    · -- a Db whose handle was not created is handed to nobody
      by_cases hrc : rc = 0
      · simp [Db.new, hrc] at hnone
      · have hold : s.Known (.db s.dbs.length) := by
          simpa [System.Known, System.addDb, hrc] using hk
        exact absurd (known_exists hh hold) (Nat.lt_irrefl _)

end

/-! ## Requests that start after the close -/

/-- The worker of request `k` started after the close of the j-th Db. -/
def Overtaken (log : List Entry) (k j : Nat) : Prop :=
  ∃ pre post, log = pre ++ .start k :: post ∧ DbClosed j pre

theorem overtaken_append {log entries : List Entry} {k j : Nat} (h : .start k ∉ entries) :
    Overtaken (log ++ entries) k j ↔ Overtaken log k j := by
  constructor
  · rintro ⟨pre, post, he, hc⟩
    rcases List.append_eq_append_iff.mp he with ⟨mid, hpre, hpost⟩ | ⟨mid, hlog, hentries⟩
    · exact absurd (hpost ▸ List.mem_append_right _ List.mem_cons_self) h
    · cases mid with
      | nil =>
        rw [List.nil_append] at hentries
        exact absurd (hentries ▸ List.mem_cons_self) h
      | cons x mid =>
        simp only [List.cons_append, List.cons.injEq] at hentries
        exact ⟨pre, mid, by rw [hlog, hentries.1], hc⟩
  · rintro ⟨pre, post, rfl, hc⟩
    exact ⟨pre, post ++ entries, by simp, hc⟩

theorem overtaken_start {log : List Entry} {k j : Nat} (h : .start k ∉ log) :
    Overtaken (log ++ [.start k]) k j ↔ DbClosed j log := by
  constructor
  · rintro ⟨pre, post, he, hc⟩
    have hpost : post = [] := by
      cases List.eq_nil_or_concat post with
      | inl hp => exact hp
      | inr hp =>
        obtain ⟨post', x, rfl⟩ := hp
        rw [List.concat_eq_append, ← List.cons_append, ← List.append_assoc] at he
        have hlog := (List.append_inj' he rfl).1
        exact absurd (hlog ▸ List.mem_append_right _ List.mem_cons_self) h
    subst hpost
    rw [(List.append_inj' he rfl).1]
    exact hc
  · intro hc
    exact ⟨log, [], rfl, hc⟩

/-- A request on a Db is overtaken exactly if its worker has nothing to call. -/
def Met (log : List Entry) (k : Nat) (req : EioReq) : Prop :=
  ∀ j r baton, req.job = .db j r baton →
    match req.stage with
    | .queued => True
    | .working p => (Overtaken log k j → req.calls = [] ∧ p = .ret req.job) ∧
        (¬ Overtaken log k j → req.calls ≠ [] ∨ ∃ c next, p = .call c next)
    | .calling | .completed => Overtaken log k j ↔ req.calls = []

section

variable {s s' : System} {e : SysEvent} {k : Nat} {req req' : EioReq} {entry : Entry}

theorem Met.append {log entries : List Entry} (h : Met log k req)
    (hs : .start k ∉ entries) : Met (log ++ entries) k req := by
  intro j r baton hj
  have hold := h j r baton hj
  simp only [overtaken_append hs]
  exact hold

theorem start_not_mem {entries : List Entry} (h : history k entries = []) : .start k ∉ entries := by
  intro hm
  have hin := mem_history (k := k) (by simp [Entry.about]) hm
  rw [h] at hin
  cases hin

/-- The worker of a request on an open Db begins with a call. -/
theorem workDb_calls {dbObj : Db} (ho : dbObj._db ≠ none) (j : Nat) (r : Request Bytes) :
    ∃ c next, Job.workDb j r r.baton dbObj = .call c next := by
  obtain ⟨d, -, hop⟩ := request_opening ho r
  have hcall : ∃ c k, r.deliver dbObj = .call c k := by
    cases ht : dbObj._transactional with
    | true =>
      obtain ⟨k, he, -⟩ := hop.transactional ht
      exact ⟨_, k, he⟩
    | false =>
      obtain ⟨c, k, he, -⟩ := hop.plain ht
      exact ⟨c, k, he⟩
  obtain ⟨c, k, he⟩ := hcall
  cases hw : r.worker dbObj r.baton with
  | ret b => simp [Request.deliver, hw] at he
  | call c' k' => exact ⟨c', _, by rw [Job.workDb, hw]; rfl⟩

theorem workDb_closed {dbObj : Db} (hc : dbObj._db = none) (j : Nat) (r : Request Bytes) :
    Job.workDb j r r.baton dbObj = .ret (.db j r r.baton) := by
  rw [Job.workDb, worker_closed hc]
  rfl

theorem Met.advance (h : Met s.log k req) (hstory : Story k req (history k s.log))
    (hf : req.job.Fresh) (hk : s.requests[k]? = some req) (hc : Closing s)
    (hcur : s.current = some k → req.stage = .calling) (ha : Advance s k req req' entry) :
    Met (s.log ++ [entry]) k req' := by
  intro j r baton hj
  rw [ha.job] at hj
  have hold := h j r baton hj
  cases ha with
  | @start p hq hp =>
    obtain ⟨hlog, hcalls⟩ := hstory.of_queued hq
    have hstart : .start k ∉ s.log := fun hm => by
      have hin := mem_history (k := k) (by simp [Entry.about]) hm
      rw [hlog] at hin
      simp at hin
    rw [hj] at hp hf
    obtain ⟨db, hdb, rfl⟩ := Option.map_eq_some_iff.mp hp
    obtain rfl : baton = r.baton := hf
    simp only [overtaken_start hstart]
    constructor
    · intro hclosed
      exact ⟨hcalls, (workDb_closed (hc.closed j db hclosed hdb) j r).trans (by rw [hj])⟩
    · intro hopen
      refine .inr (workDb_calls (fun hnone => hopen (hc.known j db (.inr ⟨req, ?_, .inl ?_⟩) hdb hnone)) j r)
      · exact List.mem_of_getElem? hk
      · rw [hj]
        rfl
  | @call c next x hw =>
    rw [hw] at hold
    simp only [overtaken_append (show Entry.start k ∉ [.call k ⟨c, x⟩] by simp)]
    exact ⟨fun ho => absurd (hold.1 ho).2 (by simp), fun _ => .inl (by simp)⟩
  | @callback job hw =>
    rw [hw] at hold
    simp only [overtaken_append (show Entry.start k ∉ [.callback k job.after] by simp)]
    refine ⟨fun ho => (hold.1 ho).1, fun hnil => Classical.byContradiction fun ho => ?_⟩
    rcases hold.2 ho with hne | ⟨c, next, he⟩
    · exact hne hnil
    · cases he
  | delete hd =>
    rw [hcur hd] at hold
    simp only [overtaken_append (show Entry.start k ∉ [.delete k] by simp)]
    exact hold

theorem met_step (h : ∀ k req, s.requests[k]? = some req → Met s.log k req) (hr : Recounted s)
    (hc : Closing s)
    (hcur : ∀ k, s.current = some k → ∃ req, s.requests[k]? = some req ∧ req.stage = .calling)
    (hs : s.Step e s') : ∀ k req, s'.requests[k]? = some req → Met s'.log k req := by
  intro i x hi
  cases requests_step hs with
  | same hq hl he =>
    rw [hl]
    exact (h i x (hq ▸ hi)).append (start_not_mem (he i))
  | accept _ _ hs' =>
    subst hs'
    rcases Table.get_append hi with ⟨rfl, rfl⟩ | ⟨-, hi⟩
    · exact fun _ _ _ _ => trivial
    · exact (h i x hi).append (by simp)
  | @move k req req' entry hk ha hq hl =>
    rw [hq] at hi
    rw [hl]
    rcases Table.get_set hk hi with ⟨rfl, rfl⟩ | ⟨hne, hi⟩
    · refine (h i req hk).advance (hr.story i req hk) (hr.fresh req (List.mem_of_getElem? hk)) hk hc
        (fun hcall => ?_) ha
      obtain ⟨y, hy, hs⟩ := hcur i hcall
      obtain rfl : req = y := Option.some.inj (hk.symm.trans hy)
      exact hs
    · exact (h i x hi).append (start_not_mem (history_other (ha.about i) hne))

end

/-! ## What the callback is told -/

/-- The first `txn_begin` of the request was refused. -/
def Refused (req : EioReq) : Prop :=
  ∃ env c x, c ≠ 0 ∧ req.calls.head? = some ⟨.txnBegin env, (c, x)⟩

/-- A callback of a Db request is told a code other than 0 wherever the database was not
consulted. -/
def Reported (s : System) : Prop :=
  ∀ k req j r baton d, s.requests[k]? = some req → req.job = .db j r baton →
    .callback k d ∈ s.log → (∀ e ∈ req.calls, e.1.consults = false) → d.code ≠ 0

section

variable {s : System} {k j : Nat} {req : EioReq} {r : Request Bytes} {baton : EIODbBaton Bytes}

/-- The delivery of a request, by what its worker met. -/
theorem told_iff {p : BdbProg Bytes Job} {job : Job} (hj : req.job = .db j r baton)
    (hf : req.job.Fresh) (hp : req.job.Worker p) (hr : Runs p req.calls job) :
    ((∀ e ∈ req.calls, e.1.consults = false) → job.after.code ≠ 0) ↔
      req.calls ≠ [] ∧ ¬ Refused req := by
  rw [hj] at hf hp
  obtain ⟨dbObj, rfl⟩ := hp
  obtain rfl : baton = r.baton := hf
  obtain ⟨hd, -⟩ := workDb_runs hr
  by_cases ho : dbObj._db = none
  · obtain ⟨hnil, he⟩ := closed_runs ho hd
    have h0 : job.after.code = 0 := by
      rw [he]
      cases r <;> rfl
    constructor
    · intro h
      exact absurd h0 (h (by simp [hnil]))
    · rintro ⟨hne, -⟩
      exact absurd hnil hne
  · obtain ⟨d₀, h0, hop⟩ := request_opening ho r
    cases ht : dbObj._transactional with
    | true =>
      obtain ⟨next, he, hrefused, hgranted⟩ := hop.transactional ht
      rw [he] at hd
      obtain ⟨x, t, hcalls, hd⟩ := hd
      by_cases hx : x.1 = 0
      · obtain ⟨c, next', hnext, hc⟩ := hgranted x hx
        rw [hnext] at hd
        obtain ⟨y, t', rfl, -⟩ := hd
        constructor
        · intro _
          refine ⟨by simp [hcalls], ?_⟩
          rintro ⟨env, c', x', hne, hhead⟩
          rw [hcalls] at hhead
          simp only [List.head?_cons, Option.some.injEq] at hhead
          cases hhead
          exact hne hx
        · rintro - hnone
          have := hnone ⟨c, y⟩ (by simp [hcalls])
          rw [hc] at this
          cases this
      · rw [hrefused x hx] at hd
        obtain ⟨rfl, hjob⟩ := hd
        constructor
        · intro h
          refine absurd ?_ (h (by simp [hcalls, Call.consults]))
          rw [hjob, h0]
        · rintro ⟨-, hnot⟩
          exact absurd ⟨_, x.1, x.2, hx, by rw [hcalls]; rfl⟩ hnot
    | false =>
      obtain ⟨c, next, he, hc⟩ := hop.plain ht
      rw [he] at hd
      obtain ⟨y, t', hcalls, -⟩ := hd
      constructor
      · intro _
        refine ⟨by simp [hcalls], ?_⟩
        rintro ⟨env, c', x', -, hhead⟩
        rw [hcalls] at hhead
        simp only [List.head?_cons, Option.some.injEq] at hhead
        cases hhead
        cases hc
      · rintro - hnone
        have := hnone ⟨c, y⟩ (by simp [hcalls])
        rw [hc] at this
        cases this

theorem path_closing {n : Int} {es : List SysEvent} (h : FPath System.step (.initial n) es s) :
    Closing s := by
  induction h with
  | nil =>
    constructor
    · intro j db _ hj
      cases hj
    · intro j hc
      simp [DbClosed, System.initial] at hc
    · intro j db _ hj
      cases hj
  | snoc hp hst ih => exact ih.step (path_attached hp).1 (step_cases hst)

theorem path_met {n : Int} {es : List SysEvent} (h : FPath System.step (.initial n) es s) :
    ∀ k req, s.requests[k]? = some req → Met s.log k req := by
  induction h with
  | nil => exact fun _ _ hk => nomatch hk
  | snoc hp hst ih =>
    have hb := (balanced_initial n).path hp
    exact met_step ih (path_recounted hp) (path_closing hp) (fun k => (hb.current k).mp)
      (step_cases hst)

/-- Every callback is told the truth about a database that was not consulted exactly if no
worker started after the close of its Db and no first transaction was refused. -/
theorem overtaken_reported_iff (n : Int) (es : List SysEvent) (s : System)
    (h : FPath System.step (.initial n) es s) :
    Reported s ↔ ∀ k req j r baton d, s.requests[k]? = some req → req.job = .db j r baton →
      .callback k d ∈ s.log → ¬ Overtaken s.log k j ∧ ¬ Refused req := by
  have hone : ∀ k req j r baton d, s.requests[k]? = some req → req.job = .db j r baton →
      .callback k d ∈ s.log → (((∀ e ∈ req.calls, e.1.consults = false) → d.code ≠ 0) ↔
        ¬ Overtaken s.log k j ∧ ¬ Refused req) := by
    intro k req j r baton d hk hj hd
    have hrec := path_recounted h
    obtain ⟨hs, p, job, hp, hr, rfl⟩ :=
      (hrec.story k req hk).of_callback (mem_history (by simp [Entry.about]) hd)
    rw [told_iff hj (hrec.fresh req (List.mem_of_getElem? hk)) hp hr]
    have hm := path_met h k req hk j r baton hj
    have hover : Overtaken s.log k j ↔ req.calls = [] := by
      rcases hs with hs | hs <;> simpa only [hs] using hm
    rw [hover]
  constructor
  · intro hrep k req j r baton d hk hj hd
    exact (hone k req j r baton d hk hj hd).mp (hrep k req j r baton d hk hj hd)
  · intro hcond k req j r baton d hk hj hd
    exact (hone k req j r baton d hk hj hd).mpr (hcond k req j r baton d hk hj hd)

end

/-- A put that is accepted, and whose Db is closed before a worker takes it. -/
def overtakenRun : List SysEvent :=
  [.js (.newDbEnv 0), .js (.newDb [.wrapper (.env 0)] 0),
   .js (.db 0 (.request .put [.buffer [107], .buffer [118], .number 0, .function 1] [])),
   .js (.db 0 (.sync .closeS [.number 0] 0)), .start 0, .begin 0]

/-- The worker started too late, and the put is told it was done. -/
theorem overtakenRun_unreported :
    ∃ s, run System.step (.initial 0) overtakenRun = some s ∧ ¬ Reported s := by
  refine ⟨_, rfl, fun h => ?_⟩
  exact h 0 _ 0 _ _ _ rfl rfl (List.mem_of_getElem? (i := 5) rfl) (by simp) rfl

theorem overtakenRun_iff :
    ∃ s, run System.step (.initial 0) overtakenRun = some s ∧
      (Reported s ↔ ∀ k req j r baton d, s.requests[k]? = some req → req.job = .db j r baton →
        .callback k d ∈ s.log → ¬ Overtaken s.log k j ∧ ¬ Refused req) :=
  ⟨_, rfl, overtaken_reported_iff 0 overtakenRun _ (run_path rfl)⟩

end NodeBdb
