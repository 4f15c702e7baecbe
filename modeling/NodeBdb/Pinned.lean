import NodeBdb.Balance

/-!
# Workers and their Db

A request that is not completed pins its object, and a worker reads the handle of its Db
when it starts. So while it has calls to make, the wrapper is there and its handle is open.
-/

namespace NodeBdb

open Interaction Transition

section

variable {s s' : System} {e : SysEvent} {n : Int} {es : List SysEvent}

/-- An object with a request that is not completed is not collected. -/
theorem pinned {k : Nat} {req : EioReq} (hb : Balanced n s) (hk : s.requests[k]? = some req)
    (ho : req.outstanding = true) : s.refs req.job.object ≠ 0 := by
  rw [hb.wrapper]
  have hpos : 0 < s.outstandingOn req.job.object :=
    List.countP_pos_iff.mpr ⟨req, List.mem_of_getElem? hk, by simp [EioReq.on, ho]⟩
  omega

/-- The handle of the j-th `Db` is open. -/
def System.HasHandle (s : System) (j : Nat) : Prop := ∃ db, s.dbs[j]? = some db ∧ db.fields._db ≠ none

/-- A worker with calls to make works on an open handle. -/
def WorkersOpen (s : System) : Prop :=
  ∀ (k : Nat) (req : EioReq) j r baton, s.requests[k]? = some req → req.stage.isBusy = true →
    req.job = .db j r baton → s.HasHandle j

theorem System.HasHandle.set {i j : Nat} {db : WrappedDb} {fields : Db} (hdb : s.dbs[i]? = some db)
    (hd : s'.dbs = s.dbs.set i { db with fields := fields })
    (hf : i = j → db.fields._db ≠ none → fields._db ≠ none) (h : s.HasHandle j) : s'.HasHandle j := by
  obtain ⟨x, hx, ho⟩ := h
  by_cases hij : j = i
  · subst hij
    obtain rfl : db = x := Option.some.inj (hdb.symm.trans hx)
    exact ⟨_, by rw [hd]; exact Table.set_self hdb, hf rfl ho⟩
  · exact ⟨x, by rw [hd, Table.set_other hij]; exact hx, ho⟩

/-- The handle of a Db stays open while a worker is between two calls on it. -/
theorem hasHandle_step {k j : Nat} {req : EioReq} {r : Request Bytes} {baton : EIODbBaton Bytes}
    (hb : Balanced n s) (hk : s.requests[k]? = some req) (hbusy : req.stage.isBusy = true)
    (hj : req.job = .db j r baton) (hs : s.Step e s') (h : s.HasHandle j) : s'.HasHandle j := by
  have hout : req.outstanding = true := by
    cases hst : req.stage <;> simp_all [EioReq.outstanding, Stage.isBusy]
  have hrefs : s.refs (.db j) ≠ 0 := by
    have hp := pinned hb hk hout
    rw [hj] at hp
    exact hp
  have hsbusy : s.busy j = true :=
    List.any_eq_true.mpr ⟨req, List.mem_of_getElem? hk, by simp [hj, Job.object, hbusy]⟩
  cases hs with
  | @newDb args i env rc _ _ =>
    obtain ⟨db, hdb, ho⟩ := h
    exact ⟨db, Table.append_left hdb, ho⟩
  | @dbSync i m args rc db fields method _ hdb _ hrace =>
    refine h.set hdb rfl ?_
    rintro rfl ho
    by_cases hne : fields = db.fields
    · rw [hne]
      exact ho
    · rw [hrace hne] at hsbusy
      cases hsbusy
  | dbUncalled _ hdb hrun =>
    refine h.set hdb rfl fun _ ho => ?_
    rw [(dbSync_fields hrun).2.2]
    exact ho
  | associate _ hdb => exact h.set hdb rfl fun _ ho => ho
  | @closedDb i rc db hc hdb _ =>
    refine h.set hdb rfl ?_
    rintro rfl -
    exact absurd hc.2.2.1 hrefs
  | _ => exact h

theorem program_busy {j : Nat} {r : Request Bytes} {baton : EIODbBaton Bytes}
    {p : BdbProg Bytes Job} (hp : s.program (.db j r baton) = some p)
    (hb : (Stage.working p).isBusy = true) : s.HasHandle j := by
  obtain ⟨db, hdb, rfl⟩ := Option.map_eq_some_iff.mp hp
  refine ⟨db, hdb, fun ho => ?_⟩
  -- every worker function returns at once where the handle is NULL
  rw [Job.workDb, worker_closed ho] at hb
  cases hb

theorem WorkersOpen.step (h : WorkersOpen s) (hb : Balanced n s) (hs : s.Step e s') :
    WorkersOpen s' := by
  intro i x j r baton hi hx hj
  have hold : ∀ x, s.requests[i]? = some x → x.stage.isBusy = true → x.job = .db j r baton →
      s'.HasHandle j := fun x hi hx hj => hasHandle_step hb hi hx hj hs (h i x j r baton hi hx hj)
  cases hs with
  | accept =>
    rcases Table.get_append hi with ⟨-, rfl⟩ | ⟨-, hi⟩
    · cases hx
    · exact hold x hi hx hj
  | start hk _ hp =>
    rcases Table.get_set hk hi with ⟨rfl, rfl⟩ | ⟨-, hi⟩
    · rw [hj] at hp
      exact program_busy hp hx
    · exact hold x hi hx hj
  | @bdb k req _ _ _ hk hw =>
    rcases Table.get_set hk hi with ⟨rfl, rfl⟩ | ⟨-, hi⟩
    · exact hold req hk (by rw [hw]; rfl) hj
    · exact hold x hi hx hj
  | begin hk =>
    rcases Table.get_set hk hi with ⟨rfl, rfl⟩ | ⟨-, hi⟩
    · cases hx
    · exact hold x hi hx hj
  | finish _ hk =>
    rcases Table.get_set hk hi with ⟨rfl, rfl⟩ | ⟨-, hi⟩
    · cases hx
    · exact hold x hi hx hj
  | _ => exact hold x hi hx hj

theorem path_workersOpen (hp : FPath System.step (.initial n) es s) : WorkersOpen s := by
  induction hp with
  | nil => exact fun _ _ _ _ _ hk => nomatch hk
  | snoc hp hst ih => exact ih.step ((balanced_initial n).path hp) (step_cases hst)

end

end NodeBdb
