import NodeBdb.Budget
import NodeBdb.Balance
import Mathlib.Data.Option.Basic

/-!
# The counter that the process has

In the steps of `NodeBdb.System` a worker counts its attempts without a bound. Here the process
runs the loop of the macros with `_attempts` as the `int` that it is. At `INT_MAX` retries that
loop may go on for ever; with fewer it comes to its end within a number of attempts that does
not depend on what the calls return, and the two processes are one.
-/

namespace NodeBdb

open Interaction

variable {δ α : Type}

/-! ## Workers -/

/-- The worker, for at most `fuel` attempts. -/
def Request.workerInt (fuel : Nat) (dbObj : Db) (r : Request δ) (baton : EIODbBaton δ) :
    BdbProg δ (Option (EIODbBaton δ)) :=
  if dbObj._db = none then .ret (some baton)
  else match r with
  | .get .. => againInt dbObj EIODbBaton.statusVar (getBody dbObj) fuel 0
      { baton with val := { baton.val with flags := dbDbtMalloc } }
  | .put .. => againInt dbObj EIODbBaton.statusVar (putBody dbObj) fuel 0 baton
  | .putIf .. => do
    let s ← againInt dbObj PutIfLocals.statusVar (putIfBody dbObj) fuel 0
      { baton := baton, oldVal := { flags := dbDbtMalloc } }
    return s.map fun s => { s.baton with ledger := s.baton.ledger.freeData s.oldVal.data }
  | .del .. => againInt dbObj EIODbBaton.statusVar (delBody dbObj) fuel 0 baton
  | .cursorGet .. => do
    let s ← againInt dbObj CursorLocals.statusVar (cursorGetBody dbObj) fuel 0 { baton := baton }
    return s.map cursorGetOut

/-- With fewer than `INT_MAX` retries the worker is the one with an unbounded counter. -/
theorem workerInt_worker {dbObj : Db} (hr : dbObj._retries < intMax) {fuel : Nat}
    (hf : dbObj._retries.toNat < fuel) (r : Request δ) (baton : EIODbBaton δ) :
    r.workerInt fuel dbObj baton = r.worker dbObj baton >>= fun b => .ret (some b) := by
  have hloop : ∀ {σ : Type} (status : Status σ) (body : Option TxnHandle → σ → BdbProg δ σ) (s : σ),
      againInt dbObj status body fuel 0 s = txn dbObj status body s >>= fun s => .ret (some s) :=
    fun status body => againInt_again dbObj status body hr fuel 0 (by decide) (by decide) (by omega)
  rw [Request.workerInt.eq_def]
  by_cases ho : dbObj._db = none
  · rw [if_pos ho, worker_closed ho]
    rfl
  · rw [if_neg ho]
    cases r with
    | get key flags =>
      rw [Request.worker, eioGet, if_neg ho]
      exact hloop _ _ _
    | put key val flags =>
      rw [Request.worker, eioPut, if_neg ho]
      exact hloop _ _ _
    | putIf key val oldVal flags =>
      rw [Request.worker, eioPutIf, if_neg ho]
      simp only [hloop, Prog.bind_assoc, Prog.pure_eq, Prog.ret_bind, Option.map_some]
    | del key flags =>
      rw [Request.worker, eioDel, if_neg ho]
      exact hloop _ _ _
    | cursorGet key limit initFlag flags =>
      rw [Request.worker, eioCursorGet, if_neg ho]
      simp only [hloop, Prog.bind_assoc, Prog.pure_eq, Prog.ret_bind, Option.map_some]

/-- Whatever the calls return, so many attempts are enough, and then `p` is what is done. -/
def Halts (loop : Nat → BdbProg δ (Option α)) (p : BdbProg δ α) : Prop :=
  ∃ n, ∀ fuel, n ≤ fuel → loop fuel = p >>= fun a => .ret (some a)

theorem Halts.unique {loop : Nat → BdbProg δ (Option α)} {p q : BdbProg δ α} (hp : Halts loop p)
    (hq : Halts loop q) : p = q := by
  obtain ⟨n, hn⟩ := hp
  obtain ⟨m, hm⟩ := hq
  apply Prog.map_injective (Option.some_injective α)
  rw [← hn (max n m) (Nat.le_max_left n m), ← hm (max n m) (Nat.le_max_right n m)]

/-! ## The process -/

/-- What the worker of a job does, for at most so many attempts. -/
def Job.workInt (fuel : Nat) (s : System) : Job → Option (BdbProg Bytes (Option Job))
  | .db j r baton => s.dbs[j]?.map fun db => do
    return (← r.workerInt fuel db.fields baton).map (.db j r)
  | .checkpoint i baton => s.envs[i]?.map fun env => do return some (← Job.workEnv i baton env)

/-- The event starts the loop of an operation. -/
def SysEvent.loops : SysEvent → Bool
  | .start _ => true
  | .js (.db _ (.direct m args _)) => (m.parse args).toBool
  | _ => false

/-- A step of the process where the loops count in an `int`. A loop that need not come to an end
has no step here. -/
inductive System.StepInt (s : System) : SysEvent → System → Prop where
  | start {k : Nat} {req : EioReq} {loop : Nat → BdbProg Bytes (Option Job)} {p : BdbProg Bytes Job} :
      s.requests[k]? = some req → req.stage = .queued →
      (∀ fuel, req.job.workInt fuel s = some (loop fuel)) → Halts loop p →
      StepInt s (.start k) (s.setReq k { req with stage := .working p } (.start k))
  | direct {j : Nat} {m : SyncMethod} {args : List JsValue} {o : Oracle (Call Bytes) Reply}
      {db : WrappedDb} {c : DirectCall Bytes} {p : BdbProg Bytes Delivery} {t : BdbTrace Bytes}
      {d : Delivery} : (∀ r ∈ (Script.db j (.direct m args o)).mentions, r ∈ s.roots) →
      s.dbs[j]? = some db → m.parse args = .ok c →
      Halts (fun fuel => (Operation.direct c).deliverInt fuel db.fields) p → exec o [] p = (t, d) →
      StepInt s (.js (.db j (.direct m args o))) { s with log := s.log ++ [.direct j t d] }
  | other {e : SysEvent} {s' : System} : e.loops = false → s.step e = some s' → StepInt s e s'

/-- Every Db has fewer than `INT_MAX` retries. -/
def System.BelowMax (s : System) : Prop := ∀ db ∈ s.dbs, db.fields._retries < intMax

instance (s : System) : Decidable s.BelowMax :=
  inferInstanceAs (Decidable (∀ db ∈ s.dbs, db.fields._retries < intMax))

section Steps

variable {s s' : System}

theorem work_ends (h : s.BelowMax) {job : Job} {p : BdbProg Bytes Job} (hp : s.program job = some p) :
    ∃ loop, (∀ fuel, job.workInt fuel s = some (loop fuel)) ∧ Halts loop p := by
  cases job with
  | db j r baton =>
    obtain ⟨db, hdb, rfl⟩ := Option.map_eq_some_iff.mp hp
    have hr := h db (List.mem_of_getElem? hdb)
    refine ⟨_, fun fuel => by rw [Job.workInt, hdb]; rfl, db.fields._retries.toNat + 1, ?_⟩
    intro fuel hf
    dsimp only
    rw [workerInt_worker hr hf, Job.workDb]
    simp only [Prog.bind_assoc, Prog.pure_eq, Prog.ret_bind, Option.map_some]
  | checkpoint i baton =>
    obtain ⟨env, henv, rfl⟩ := Option.map_eq_some_iff.mp hp
    exact ⟨_, fun fuel => by rw [Job.workInt, henv]; rfl, 0, fun fuel _ => rfl⟩

theorem work_program {job : Job} {loop : Nat → BdbProg Bytes (Option Job)}
    (h : ∀ fuel, job.workInt fuel s = some (loop fuel)) : ∃ p, s.program job = some p := by
  cases job with
  | db j r baton =>
    obtain ⟨db, hdb, -⟩ := Option.map_eq_some_iff.mp (h 0)
    exact ⟨_, by rw [System.program, hdb]; rfl⟩
  | checkpoint i baton =>
    obtain ⟨env, henv, -⟩ := Option.map_eq_some_iff.mp (h 0)
    exact ⟨_, by rw [System.program, henv]; rfl⟩

theorem direct_halts (h : s.BelowMax) {j : Nat} {db : WrappedDb} (hdb : s.dbs[j]? = some db)
    (c : DirectCall Bytes) :
    Halts (fun fuel => (Operation.direct c).deliverInt fuel db.fields) (c.deliver db.fields) := by
  have hr := h db (List.mem_of_getElem? hdb)
  refine ⟨db.fields._retries.toNat + 1, fun fuel hf => ?_⟩
  refine deliverInt_deliver ?_ hr hf
  intro r hop
  cases hop

/-- With fewer than `INT_MAX` retries the counter makes no difference to what can happen. -/
theorem stepInt_iff (h : s.BelowMax) {e : SysEvent} : s.StepInt e s' ↔ s.step e = some s' := by
  constructor
  · intro hs
    cases hs with
    | start hk hq hloop hends =>
      obtain ⟨p, hp⟩ := work_program hloop
      obtain ⟨loop', hloop', hends'⟩ := work_ends h hp
      obtain rfl : loop' = _ := funext fun fuel =>
        Option.some.inj ((hloop' fuel).symm.trans (hloop fuel))
      obtain rfl := hends.unique hends'
      exact step_start hk hq hp
    | @direct j m args o db c p t d hm hdb hparse hends hexec =>
      obtain rfl := hends.unique (direct_halts h hdb c)
      rw [System.step, if_pos hm]
      simp only [System.js, System.jsDb, System.checked, hdb, hparse, hexec, Option.bind_eq_bind,
        Option.bind_some, Option.map_some]
    | other _ hs => exact hs
  · intro hs
    cases e with
    | start k =>
      cases step_cases hs with
      | start hk hq hp =>
        obtain ⟨loop, hloop, hends⟩ := work_ends h hp
        exact .start hk hq hloop hends
    | js c =>
      cases c with
      | db j c =>
        cases c with
        | direct m args o =>
          cases hparse : m.parse args with
          | error msg =>
            apply System.StepInt.other _ hs
            rw [SysEvent.loops, hparse]
            rfl
          | ok c =>
            obtain ⟨hm, out, hjs⟩ := step_js hs
            obtain ⟨db, hdb, hrest⟩ := Option.bind_eq_some_iff.mp hjs
            simp only [System.checked, hparse, Option.some.injEq, Prod.mk.injEq] at hrest
            rw [← hrest.2]
            exact .direct hm hdb hparse (direct_halts h hdb c) rfl
        | _ => exact .other rfl hs
      | _ => exact .other rfl hs
    | _ => exact .other rfl hs

end Steps

end NodeBdb
