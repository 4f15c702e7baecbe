import NodeBdb.Wraparound
import NodeBdb.Fairness
import Mathlib.Order.Filter.Finite

/-!
# What happens at last

The process with fair threads: a queued request is taken up, a call to Berkeley DB returns, a
callback returns, and the loop comes back to a request whose worker has returned if it is free
to again and again. Then every accepted request completes, the loop is left with the references
it had, and what the script has dropped is finalized. All this is only true of a process in
which no Db has `INT_MAX` retries, for there a worker may be retried for ever; it is proved with
the unbounded counter first, and then of the process with the counter that it has.
-/

namespace NodeBdb

open Interaction Transition Filter

/-- A run of the process without end. -/
abbrev Endless := Behaviour fun (s : System) e s' => s.step e = some s'

/-- A run without end of the process with its own counter. -/
abbrev Counting := Behaviour System.StepInt

structure Fair {step : System → SysEvent → System → Prop} (b : Behaviour step) : Prop where
  start : ∀ k, b.WeaklyFair fun e => e = .start k
  bdb : ∀ k, b.WeaklyFair fun e => ∃ c r, e = .bdb k c r
  begin : ∀ k, b.StronglyFair fun e => e = .begin k
  finish : b.WeaklyFair fun e => ∃ threw, e = .finish threw

/-! ## The stages of a request -/

/-- Where request `k` stands. -/
def System.Stands (s : System) (k : Nat) (stage : Stage) : Prop :=
  ∃ req, s.requests[k]? = some req ∧ req.stage = stage

/-- The stage after this one. -/
inductive Stage.Next : Stage → Stage → Prop where
  | start (p : BdbProg Bytes Job) : Next .queued (.working p)
  | call {c : Call Bytes} (next : Reply c → BdbProg Bytes Job) (r : Reply c) :
      Next (.working (.call c next)) (.working (next r))
  | begin (job : Job) : Next (.working (.ret job)) .calling
  | finish : Next .calling .completed

section Steps

variable {n : Int} {s s' : System} {k : Nat} {e : SysEvent} {stage : Stage}

theorem Stage.Next.of_advance {req req' : EioReq} {entry : Entry} (h : Advance s k req req' entry)
    (hcur : s.current = some k → req.stage = .calling) : req.stage.Next req'.stage := by
  cases h with
  | start hq => rw [hq]; exact .start _
  | call r hw => rw [hw]; exact .call _ r
  | callback hw => rw [hw]; exact .begin _
  | delete hc => rw [hcur hc]; exact .finish

theorem calling_of_current (hb : Balanced n s) {req : EioReq} (hk : s.requests[k]? = some req)
    (hc : s.current = some k) : req.stage = .calling := by
  obtain ⟨req', hk', hs⟩ := (hb.current k).mp hc
  obtain rfl := Option.some.inj (hk.symm.trans hk')
  exact hs

/-- A request stays where it stands or goes on to the next stage. -/
theorem stands_step (hb : Balanced n s) (hs : s.step e = some s') (h : s.Stands k stage) :
    s'.Stands k stage ∨ ∃ stage', stage.Next stage' ∧ s'.Stands k stage' := by
  obtain ⟨req, hk, rfl⟩ := h
  cases requests_step (step_cases hs) with
  | same hq => exact .inl ⟨req, by rw [hq]; exact hk, rfl⟩
  | accept _ _ hs' =>
    subst hs'
    apply Or.inl
    refine ⟨req, ?_, rfl⟩
    rw [System.accept, List.getElem?_append_left (List.getElem?_eq_some_iff.mp hk).1]
    exact hk
  | @move i x x' entry hi ha hq =>
    by_cases hne : k = i
    · subst hne
      obtain rfl := Option.some.inj (hk.symm.trans hi)
      apply Or.inr
      refine ⟨x'.stage, .of_advance ha (calling_of_current hb hk), x', ?_, rfl⟩
      rw [hq, Table.set_self hk]
    · exact .inl ⟨req, by rw [hq, Table.set_other hne]; exact hk, rfl⟩

/-- Once completed, a request stays so. -/
theorem completed_step (hs : s.step e = some s') (h : s.Stands k .completed) :
    s'.Stands k .completed := by
  obtain ⟨req, hk, hc⟩ := h
  cases requests_step (step_cases hs) with
  | same hq => exact ⟨req, by rw [hq]; exact hk, hc⟩
  | accept _ _ hs' =>
    subst hs'
    refine ⟨req, ?_, hc⟩
    rw [System.accept, List.getElem?_append_left (List.getElem?_eq_some_iff.mp hk).1]
    exact hk
  | @move i x x' entry hi ha hset =>
    by_cases hne : k = i
    · subst hne
      obtain rfl := Option.some.inj (hk.symm.trans hi)
      refine ⟨x', by rw [hset, Table.set_self hk], ?_⟩
      cases ha with
      | start hq => rw [hc] at hq; cases hq
      | call r hw => rw [hc] at hw; cases hw
      | callback hw => rw [hc] at hw; cases hw
      | delete => rfl
    · exact ⟨req, by rw [hset, Table.set_other hne]; exact hk, hc⟩

theorem start_moves (hs : s.step (.start k) = some s') : ∃ p, s'.Stands k (.working p) := by
  cases step_cases hs with
  | start hk => exact ⟨_, _, Table.set_self hk, rfl⟩

theorem bdb_moves {c c' : Call Bytes} {r : Reply c} {next : Reply c' → BdbProg Bytes Job}
    (hs : s.step (.bdb k c r) = some s') (h : s.Stands k (.working (.call c' next))) :
    ∃ r', s'.Stands k (.working (next r')) := by
  obtain ⟨req, hk, hw⟩ := h
  cases step_cases hs with
  | bdb hk' hw' =>
    obtain rfl := Option.some.inj (hk.symm.trans hk')
    cases hw.symm.trans hw'
    exact ⟨r, _, Table.set_self hk, rfl⟩

theorem begin_moves (hs : s.step (.begin k) = some s') : s'.Stands k .calling := by
  cases step_cases hs with
  | begin hk => exact ⟨_, Table.set_self hk, rfl⟩

theorem finish_moves {threw : Bool} (hb : Balanced n s) (hs : s.step (.finish threw) = some s')
    (h : s.Stands k .calling) : s'.Stands k .completed := by
  have hcur := (hb.current k).mpr h
  cases step_cases hs with
  | finish hc hk =>
    obtain rfl := Option.some.inj (hcur.symm.trans hc)
    exact ⟨_, Table.set_self hk, rfl⟩

theorem finish_frees {threw : Bool} (hs : s.step (.finish threw) = some s') : s'.current = none := by
  cases step_cases hs with
  | finish => rfl

/-! ## What can happen -/

theorem program_exists {job : Job} (h : s.Exists job.object) : ∃ p, s.program job = some p := by
  cases job with
  | db j r baton =>
    obtain ⟨db, hdb⟩ : ∃ db, s.dbs[j]? = some db := ⟨_, List.getElem?_eq_getElem h⟩
    exact ⟨Job.workDb j r baton db.fields, by rw [System.program, hdb]; rfl⟩
  | checkpoint i baton =>
    obtain ⟨env, henv⟩ : ∃ env, s.envs[i]? = some env := ⟨_, List.getElem?_eq_getElem h⟩
    exact ⟨Job.workEnv i baton env, by rw [System.program, henv]; rfl⟩

end Steps

section Run

variable {n : Int} {b : Endless} {k : Nat}

theorem endless_path (h0 : b.state 0 = .initial n) (m : Nat) :
    ∃ es, FPath System.step (.initial n) es (b.state m) := by
  have h := b.path m
  rw [h0] at h
  exact ⟨_, h⟩

theorem endless_balanced (h0 : b.state 0 = .initial n) (m : Nat) : Balanced n (b.state m) := by
  obtain ⟨es, h⟩ := endless_path h0 m
  exact (balanced_initial n).path h

theorem endless_held (h0 : b.state 0 = .initial n) (m : Nat) : Held (b.state m) := by
  obtain ⟨es, h⟩ := endless_path h0 m
  exact (path_attached h).1

/-! ## From stage to stage -/

/-- A request stands where it does until it stands at the next stage. -/
theorem stands_until (h0 : b.state 0 = .initial n) {stage : Stage} {Q : System → Prop}
    (hQ : ∀ stage' s, stage.Next stage' → s.Stands k stage' → Q s) :
    b.Unless (fun s => s.Stands k stage) Q := by
  intro m hm
  cases stands_step (endless_balanced h0 m) (b.steps m) hm with
  | inl h => exact .inl h
  | inr h =>
    obtain ⟨stage', hnext, h⟩ := h
    exact .inr (hQ stage' _ hnext h)

theorem queued_leadsTo (h0 : b.state 0 = .initial n) (hf : Fair b) :
    b.LeadsTo (fun s => s.Stands k .queued) fun s => ∃ p, s.Stands k (.working p) := by
  apply (hf.start k).leadsTo
  · apply stands_until h0
    intro stage s hnext h
    cases hnext with
    | start p => exact ⟨p, h⟩
  · intro m _ he
    have hs := b.steps m
    rw [he] at hs
    exact start_moves hs
  · rintro m ⟨req, hk, hq⟩
    obtain ⟨p, hp⟩ := program_exists ((endless_held h0 m).objects req (List.mem_of_getElem? hk))
    exact ⟨_, _, rfl, step_start hk hq hp⟩

theorem call_leadsTo (h0 : b.state 0 = .initial n) (hf : Fair b) {c : Call Bytes}
    (next : Reply c → BdbProg Bytes Job) :
    b.LeadsTo (fun s => s.Stands k (.working (.call c next)))
      fun s => ∃ r, s.Stands k (.working (next r)) := by
  apply (hf.bdb k).leadsTo
  · apply stands_until h0
    intro stage s hnext h
    cases hnext with
    | call _ r => exact ⟨r, h⟩
  · rintro m hm ⟨c', r, he⟩
    have hs := b.steps m
    rw [he] at hs
    exact bdb_moves hs hm
  · rintro m ⟨req, hk, hw⟩
    exact ⟨_, _, ⟨c, replyCode 0 c, rfl⟩, step_bdb hk hw (replyCode 0 c)⟩

/-- The main thread becomes free again and again. -/
theorem free_again (h0 : b.state 0 = .initial n) (hf : Fair b) (m : Nat) :
    ∃ m', m ≤ m' ∧ (b.state m').current = none := by
  by_cases hc : (b.state m).current = none
  · exact ⟨m, Nat.le_refl m, hc⟩
  · have hleads : b.LeadsTo (fun s => s.current ≠ none) fun s => s.current = none := by
      apply hf.finish.leadsTo
      · intro i _
        exact (ne_or_eq (b.state (i + 1)).current none)
      · rintro i _ ⟨threw, he⟩
        have hs := b.steps i
        rw [he] at hs
        exact finish_frees hs
      · intro i hi
        obtain ⟨j, hj⟩ := Option.ne_none_iff_exists'.mp hi
        obtain ⟨req, hk, -⟩ := ((endless_balanced h0 i).current j).mp hj
        exact ⟨.finish false, _, ⟨false, rfl⟩, step_finish false hj hk⟩
    exact hleads m hc

theorem returned_leadsTo (h0 : b.state 0 = .initial n) (hf : Fair b) (job : Job) :
    b.LeadsTo (fun s => s.Stands k (.working (.ret job))) fun s => s.Stands k .calling := by
  apply (hf.begin k).leadsTo (R := fun s => s.current = none)
  · apply stands_until h0
    intro stage s hnext h
    cases hnext with
    | begin => exact h
  · intro m _ he
    have hs := b.steps m
    rw [he] at hs
    exact begin_moves hs
  · rintro m ⟨req, hk, hw⟩ hc
    exact ⟨_, _, rfl, step_begin hk hw hc⟩
  · exact free_again h0 hf

theorem calling_leadsTo (h0 : b.state 0 = .initial n) (hf : Fair b) :
    b.LeadsTo (fun s => s.Stands k .calling) fun s => s.Stands k .completed := by
  apply hf.finish.leadsTo
  · apply stands_until h0
    intro stage s hnext h
    cases hnext with
    | finish => exact h
  · rintro m hm ⟨threw, he⟩
    have hs := b.steps m
    rw [he] at hs
    exact finish_moves (endless_balanced h0 m) hs hm
  · rintro m ⟨req, hk, hs⟩
    have hcur := ((endless_balanced h0 m).current k).mpr ⟨req, hk, hs⟩
    exact ⟨.finish false, _, ⟨false, rfl⟩, step_finish false hcur hk⟩

/-- A worker comes to its end, by induction on what is left of its program. -/
theorem working_leadsTo (h0 : b.state 0 = .initial n) (hf : Fair b) (p : BdbProg Bytes Job) :
    b.LeadsTo (fun s => s.Stands k (.working p)) fun s => s.Stands k .completed := by
  induction p with
  | ret job => exact (returned_leadsTo h0 hf job).trans (calling_leadsTo h0 hf)
  | call c next ih =>
    apply (call_leadsTo h0 hf next).trans
    rintro m ⟨r, hm⟩
    exact ih r m hm

theorem accepted_completed (h0 : b.state 0 = .initial n) (hf : Fair b) {i : Nat}
    (hk : k < (b.state i).requests.length) : ∀ᶠ m in atTop, (b.state m).Stands k .completed := by
  have hleads : ∃ m, i ≤ m ∧ (b.state m).Stands k .completed := by
    have hreq := List.getElem?_eq_getElem hk
    cases hs : ((b.state i).requests[k]).stage with
    | queued =>
      have hqueued : b.LeadsTo (fun s => s.Stands k .queued) fun s => s.Stands k .completed := by
        apply (queued_leadsTo h0 hf).trans
        rintro m ⟨p, hm⟩
        exact working_leadsTo h0 hf p m hm
      exact hqueued i ⟨_, hreq, hs⟩
    | working p => exact working_leadsTo h0 hf p i ⟨_, hreq, hs⟩
    | calling => exact calling_leadsTo h0 hf i ⟨_, hreq, hs⟩
    | completed => exact ⟨i, Nat.le_refl i, _, hreq, hs⟩
  obtain ⟨m, -, hm⟩ := hleads
  exact Behaviour.keeps_eventually (P := fun s : System => s.Stands k .completed)
    (fun _ _ _ h hs => completed_step hs h) hm

end Run

/-! ## Completion -/

/-- Request `k` has been through all its stages, each of them once. -/
def System.Done (s : System) (k : Nat) : Prop :=
  ∃ req p job, s.requests[k]? = some req ∧ req.job.Worker p ∧ Runs p req.calls job ∧
    history k s.log = .accept k :: .start k ::
      (req.calls.map (.call k) ++ [.callback k job.after, .delete k])

theorem Recounted.done {s : System} {k : Nat} (h : Recounted s) (hk : s.Stands k .completed) :
    s.Done k := by
  obtain ⟨req, hk, hc⟩ := hk
  have hstory := h.story k req hk
  generalize hlog : history k s.log = log at hstory
  cases hstory with
  | queued hs => rw [hc] at hs; cases hs
  | working hs => rw [hc] at hs; cases hs
  | calling hs => rw [hc] at hs; cases hs
  | @completed p job _ hp hr => exact ⟨req, p, job, hk, hp, hr, hlog⟩

theorem accepted_done {n : Int} {b : Endless} (h0 : b.state 0 = .initial n) (hf : Fair b) {i k : Nat}
    (hk : k < (b.state i).requests.length) : ∀ᶠ m in atTop, (b.state m).Done k := by
  filter_upwards [accepted_completed h0 hf hk] with m hm
  obtain ⟨es, h⟩ := endless_path h0 m
  exact (path_recounted h).done hm

/-! ## Rest -/

section Rest

variable {n : Int} {s s' : System} {k : Nat} {e : SysEvent} {r : ObjRef}

theorem all_completed {b : Endless} (h0 : b.state 0 = .initial n) (hf : Fair b) {i : Nat} :
    ∀ᶠ m in atTop, ∀ k < (b.state i).requests.length, (b.state m).Stands k .completed := by
  have hfin := (Set.finite_lt_nat (b.state i).requests.length)
  exact (eventually_all_finite hfin).mpr fun k hk => accepted_completed h0 hf hk

/-- Where every request has completed, nothing is left of them. -/
theorem Balanced.at_rest (hb : Balanced n s) (h : ∀ req ∈ s.requests, req.stage = .completed) :
    s.loopRefs = n ∧ s.current = none ∧ ∀ r, s.refs r = 0 := by
  have hpending : s.pending = 0 := by
    apply List.countP_eq_zero.mpr
    intro req hm
    simp [h req hm]
  refine ⟨by rw [hb.loop, hpending]; exact Int.add_zero n, ?_, fun r => ?_⟩
  · rw [Option.eq_none_iff_forall_ne_some]
    intro k hk
    obtain ⟨req, hreq, hs⟩ := (hb.current k).mp hk
    rw [h req (List.mem_of_getElem? hreq)] at hs
    cases hs
  · rw [hb.wrapper r]
    apply List.countP_eq_zero.mpr
    intro req hm
    simp [EioReq.on, EioReq.outstanding, h req hm]

theorem endless_rests {b : Endless} (h0 : b.state 0 = .initial n) (hf : Fair b) {i : Nat}
    (hi : ∀ m, i ≤ m → (b.state m).requests.length = (b.state i).requests.length) :
    ∀ᶠ m in atTop, (b.state m).loopRefs = n ∧ (b.state m).current = none ∧
      ∀ r, (b.state m).refs r = 0 := by
  filter_upwards [all_completed h0 hf (i := i), eventually_ge_atTop i] with m hm hle
  apply (endless_balanced h0 m).at_rest
  intro req hreq
  obtain ⟨k, hk⟩ := List.mem_iff_getElem?.mp hreq
  have hlt := (List.getElem?_eq_some_iff.mp hk).1
  obtain ⟨req', hk', hs⟩ := hm k (hi m hle ▸ hlt)
  obtain rfl := Option.some.inj (hk.symm.trans hk')
  exact hs

/-! ## What the script has dropped -/

/-- A request after a step was there before it, with the same object and closure, or has these
from the script. -/
theorem request_from (hs : s.step e = some s') {req' : EioReq} (hk : s'.requests[k]? = some req') :
    (∃ req, s.requests[k]? = some req ∧ req'.job = req.job ∧ req'.captured = req.captured) ∨
      req'.job.object ∈ s.roots ∧ ∀ r ∈ req'.captured, r ∈ s.roots := by
  cases step_cases hs with
  | accept hj hc =>
    cases Table.get_append hk with
    | inl hnew =>
      obtain ⟨-, rfl⟩ := hnew
      exact .inr ⟨hj, hc⟩
    | inr hold => exact .inl ⟨req', hold.2, rfl, rfl⟩
  | start hi =>
    cases Table.get_set hi hk with
    | inl hmoved =>
      obtain ⟨rfl, rfl⟩ := hmoved
      exact .inl ⟨_, hi, rfl, rfl⟩
    | inr hold => exact .inl ⟨req', hold.2, rfl, rfl⟩
  | bdb hi =>
    cases Table.get_set hi hk with
    | inl hmoved =>
      obtain ⟨rfl, rfl⟩ := hmoved
      exact .inl ⟨_, hi, rfl, rfl⟩
    | inr hold => exact .inl ⟨req', hold.2, rfl, rfl⟩
  | begin hi =>
    cases Table.get_set hi hk with
    | inl hmoved =>
      obtain ⟨rfl, rfl⟩ := hmoved
      exact .inl ⟨_, hi, rfl, rfl⟩
    | inr hold => exact .inl ⟨req', hold.2, rfl, rfl⟩
  | finish _ hi =>
    cases Table.get_set hi hk with
    | inl hmoved =>
      obtain ⟨rfl, rfl⟩ := hmoved
      exact .inl ⟨_, hi, rfl, rfl⟩
    | inr hold => exact .inl ⟨req', hold.2, rfl, rfl⟩
  | _ => exact .inl ⟨req', hk, rfl, rfl⟩

/-- No request from number `i` on has anything to do with the object. -/
def System.Spares (s : System) (i : Nat) (r : ObjRef) : Prop :=
  ∀ k req, i ≤ k → s.requests[k]? = some req → req.job.object ≠ r ∧ r ∉ req.captured

theorem System.Spares.step {i : Nat} (h : s.Spares i r) (hr : r ∉ s.roots)
    (hs : s.step e = some s') : s'.Spares i r := by
  intro k req' hle hk
  cases request_from hs hk with
  | inl hold =>
    obtain ⟨req, hreq, hj, hc⟩ := hold
    rw [hj, hc]
    exact h k req hle hreq
  | inr hnew => exact ⟨fun he => hr (he ▸ hnew.1), fun hm => hr (hnew.2 r hm)⟩

theorem stays_finalized (hs : s.step e = some s') (h : r ∈ s.finalized) : r ∈ s'.finalized := by
  cases step_cases hs with
  | finalizedEnv => exact List.mem_cons_of_mem _ h
  | finalizedDb => exact List.mem_cons_of_mem _ h
  | closedEnv => exact List.mem_cons_of_mem _ h
  | closedDb => exact List.mem_cons_of_mem _ h
  | _ => exact h

theorem finalize_finalizes {rc : Int} (hs : s.step (.finalize r rc) = some s') : r ∈ s'.finalized := by
  cases step_cases hs <;> exact List.mem_cons_self

theorem collectable_enabled (hc : s.Collectable r) (he : s.Exists r) :
    ∃ s', s.step (.finalize r 0) = some s' := by
  simp only [System.step, System.finalize, hc, ↓reduceIte]
  cases r with
  | env i =>
    obtain ⟨env, henv⟩ : ∃ env, s.envs[i]? = some env := ⟨_, List.getElem?_eq_getElem he⟩
    by_cases hn : env._env = none <;> simp [henv, hn]
  | db j =>
    obtain ⟨db, hdb⟩ : ∃ db, s.dbs[j]? = some db := ⟨_, List.getElem?_eq_getElem he⟩
    by_cases hn : db.fields._db = none <;> simp [hdb, hn]

/-- What only completed requests have to do with, and the script cannot reach, may be collected. -/
theorem spared_collectable (hb : Balanced n s) {i : Nat} (hs : s.Spares i r)
    (hdone : ∀ k < i, ∀ req, s.requests[k]? = some req → req.stage = .completed)
    (hr : r ∉ s.roots) (hf : r ∉ s.finalized) : s.Collectable r := by
  have hall : ∀ req ∈ s.requests, req.stage = .completed ∨ req.job.object ≠ r ∧ r ∉ req.captured := by
    intro req hm
    obtain ⟨k, hk⟩ := List.mem_iff_getElem?.mp hm
    by_cases hlt : k < i
    · exact .inl (hdone k hlt req hk)
    · exact .inr (hs k req (Nat.le_of_not_lt hlt) hk)
  refine ⟨hf, hr, ?_, fun req hm hc => ?_⟩
  · rw [hb.wrapper r]
    apply List.countP_eq_zero.mpr
    intro req hm
    cases hall req hm with
    | inl h => simp [EioReq.on, EioReq.outstanding, h]
    | inr h => simp [EioReq.on, h.1]
  · cases hall req hm with
    | inl h => rw [h] at hc; cases hc
    | inr h => exact h.2

theorem endless_finalizes {b : Endless} (h0 : b.state 0 = .initial n) (hf : Fair b)
    (hgc : b.WeaklyFair fun e => ∃ rc, e = .finalize r rc) {i : Nat}
    (hr : (b.state i).Exists r) (hdrop : ∀ m, i ≤ m → r ∉ (b.state m).roots) :
    ∀ᶠ m in atTop, r ∈ (b.state m).finalized := by
  by_contra hnever
  have hno : ∀ m, r ∉ (b.state m).finalized := by
    intro m hm
    exact hnever (Behaviour.keeps_eventually (P := fun s : System => r ∈ s.finalized)
      (fun _ _ _ h hs => stays_finalized hs h) hm)
  have hspares : ∀ m, i ≤ m → (b.state m).Spares (b.state i).requests.length r := by
    intro m hle
    induction hle with
    | refl =>
      intro k req hle hk
      rw [List.getElem?_eq_none hle] at hk
      cases hk
    | @step m hle ih => exact ih.step (hdrop m hle) (b.steps m)
  have hen : ∀ᶠ m in atTop, Enabled (fun (s : System) e s' => s.step e = some s')
      (fun e => ∃ rc, e = .finalize r rc) (b.state m) := by
    filter_upwards [all_completed h0 hf (i := i), eventually_ge_atTop i] with m hm hle
    have hexists : (b.state m).Exists r :=
      Behaviour.keeps (P := fun s : System => s.Exists r)
        (fun _ _ _ h hs => exists_step (step_cases hs) h) hle hr
    have hdone : ∀ k < (b.state i).requests.length, ∀ req, (b.state m).requests[k]? = some req →
        req.stage = .completed := by
      intro k hk req hreq
      obtain ⟨req', hreq', hs⟩ := hm k hk
      obtain rfl := Option.some.inj (hreq.symm.trans hreq')
      exact hs
    obtain ⟨s', hs'⟩ := collectable_enabled
      (spared_collectable (endless_balanced h0 m) (hspares m hle) hdone (hdrop m hle) (hno m)) hexists
    exact ⟨_, s', ⟨0, rfl⟩, hs'⟩
  obtain ⟨m, rc, he⟩ := (hgc hen).exists
  have hs := b.steps m
  rw [he] at hs
  exact hno (m + 1) (finalize_finalizes hs)

end Rest

/-! ## With the counter of the process -/

theorem Fair.transfer {step step' : System → SysEvent → System → Prop} {b : Behaviour step}
    (hf : Fair b) (h : b.Agrees step') : Fair (b.transfer h) where
  start k := (hf.start k).transfer h
  bdb k := (hf.bdb k).transfer h
  begin k := (hf.begin k).transfer h
  finish := hf.finish.transfer h

/-- As long as no Db has `INT_MAX` retries, the run is one of the process that counts on. -/
theorem counting_agrees {b : Counting} (hmax : ∀ m, (b.state m).BelowMax) :
    b.Agrees fun s e s' => s.step e = some s' :=
  fun m _ _ => stepInt_iff (hmax m)

/-- In every fair run each accepted request is told once what its own worker came to. -/
theorem fair_requests_complete (n : Int) (b : Counting) (h0 : b.state 0 = .initial n)
    (hmax : ∀ m, (b.state m).BelowMax) (hf : Fair b) (i k : Nat)
    (hk : k < (b.state i).requests.length) : ∀ᶠ m in atTop, (b.state m).Done k :=
  accepted_done (b := b.transfer (counting_agrees hmax)) h0 (hf.transfer _) hk

/-- Once no more requests are made, the event loop is at last left with the references that it had
before the first of them, and no object with any. -/
theorem fair_process_rests (n : Int) (b : Counting) (h0 : b.state 0 = .initial n)
    (hmax : ∀ m, (b.state m).BelowMax) (hf : Fair b) (i : Nat)
    (hi : ∀ m, i ≤ m → (b.state m).requests.length = (b.state i).requests.length) :
    ∀ᶠ m in atTop, (b.state m).loopRefs = n ∧ (b.state m).current = none ∧
      ∀ r, (b.state m).refs r = 0 :=
  endless_rests (b := b.transfer (counting_agrees hmax)) h0 (hf.transfer _) hi

/-- What the script reaches no more is finalized at last, by a collector that is fair to it. -/
theorem dropped_finalized (n : Int) (b : Counting) (h0 : b.state 0 = .initial n)
    (hmax : ∀ m, (b.state m).BelowMax) (hf : Fair b) (r : ObjRef)
    (hgc : b.WeaklyFair fun e => ∃ rc, e = .finalize r rc) (i : Nat)
    (hr : (b.state i).Exists r) (hdrop : ∀ m, i ≤ m → r ∉ (b.state m).roots) :
    ∀ᶠ m in atTop, r ∈ (b.state m).finalized :=
  endless_finalizes (b := b.transfer (counting_agrees hmax)) h0 (hf.transfer _) (hgc.transfer _) hr
    hdrop

/-! ## Runs that end -/

section Resting

variable {step : System → SysEvent → System → Prop} {b : Behaviour step} {s : System} {m : Nat}

/-- Where every request has completed, nothing is denied to a thread. -/
theorem fair_of_completed (hstep : ∀ s e s', step s e s' → s.step e = some s')
    (hrest : ∀ i, m ≤ i → b.state i = s)
    (h : ∀ req ∈ s.requests, req.stage = .completed) (hc : s.current = none) : Fair b := by
  have hstands : ∀ k (req : EioReq), s.requests[k]? = some req → req.stage = .completed :=
    fun k req hk => h req (List.mem_of_getElem? hk)
  constructor
  · intro k
    apply Behaviour.StronglyFair.weakly
    apply Behaviour.fair_at_rest hrest
    rintro ⟨_, s', rfl, hs⟩
    cases step_cases (hstep _ _ _ hs) with
    | start hk hq => rw [hstands k _ hk] at hq; cases hq
  · intro k
    apply Behaviour.StronglyFair.weakly
    apply Behaviour.fair_at_rest hrest
    rintro ⟨_, s', ⟨c, r, rfl⟩, hs⟩
    cases step_cases (hstep _ _ _ hs) with
    | bdb hk hw => rw [hstands k _ hk] at hw; cases hw
  · intro k
    apply Behaviour.fair_at_rest hrest
    rintro ⟨_, s', rfl, hs⟩
    cases step_cases (hstep _ _ _ hs) with
    | begin hk hw => rw [hstands k _ hk] at hw; cases hw
  · apply Behaviour.StronglyFair.weakly
    apply Behaviour.fair_at_rest hrest
    rintro ⟨_, s', ⟨threw, rfl⟩, hs⟩
    cases step_cases (hstep _ _ _ hs) with
    | finish hcur => rw [hc] at hcur; cases hcur

end Resting

/-- A Db is opened with one retry; a checkpoint of its environment is carried through, and both are
dropped and finalized. -/
def restingRun : List SysEvent :=
  [.js (.newDbEnv 0), .js (.newDb [.wrapper (.env 0)] 0),
   .js (.db 0 (.sync .openS [.string "db", .number 1, .number 0, .number 0, .number 1] 0)),
   .js (.env 0 (.txnCheckpoint [.number 1, .number 1, .number 0, .function 5] [.env 0])),
   .drop (.db 0), .finalize (.db 0) 0, .drop (.env 0), .start 0,
   .bdb 0 (.txnCheckpoint (some 0) 1 1 0) (0 : Int), .begin 0, .finish true,
   .drop (.env 0), .finalize (.env 0) 0]

/-- What a run has to be like to show all three results. -/
structure Resting (b : Counting) : Prop where
  initial : b.state 0 = .initial 1
  below : ∀ m, (b.state m).BelowMax
  fair : Fair b
  request : ∀ m, 13 ≤ m → (b.state m).requests.length = 1
  dropped : ∀ m, 13 ≤ m → .env 0 ∉ (b.state m).roots
  object : (b.state 13).Exists (.env 0)
  collected : b.WeaklyFair fun e => ∃ rc, e = .finalize (.env 0) rc

theorem restingRun_fair : ∃ b : Counting, Resting b := by
  obtain ⟨s, hs, hrest, hdone, hc, hbelow, hroots, hexists, hfin⟩ :
      ∃ s, run (guarded System.step fun s _ => s.BelowMax) (.initial 1) restingRun = some s ∧
        s.step (.drop (.env 0)) = some s ∧ s.requests.map EioReq.stage = [.completed] ∧
        s.current = none ∧ s.BelowMax ∧ s.roots = [] ∧ s.Exists (.env 0) ∧ .env 0 ∈ s.finalized :=
    ⟨_, rfl, rfl, rfl, rfl, by decide, rfl, Nat.one_pos, List.mem_cons_self⟩
  have hstage : ∀ req ∈ s.requests, req.stage = .completed := by
    intro req hm
    have hmem := List.mem_map_of_mem (f := EioReq.stage) hm
    rw [hdone] at hmem
    exact List.mem_singleton.mp hmem
  have hlen := congrArg List.length hdone
  rw [List.length_map] at hlen
  obtain ⟨b, h0, hb⟩ := (run_guarded hs).comes_to_rest (e := .drop (.env 0)) ⟨hrest, hbelow⟩
  have hagree : b.Agrees System.StepInt := by
    intro n e s'
    have hn := (b.steps n).2
    rw [stepInt_iff hn]
    exact and_iff_left hn
  refine ⟨b.transfer hagree, h0, fun m => (b.steps m).2, ?_, ?_, ?_, ?_, ?_⟩
  · exact (fair_of_completed (fun _ _ _ h => h.1) hb hstage hc).transfer hagree
  · intro m hle
    exact (congrArg (fun s : System => s.requests.length) (hb m hle)).trans hlen
  · intro m hle
    show .env 0 ∉ (b.state m).roots
    rw [hb m hle, hroots]
    exact List.not_mem_nil
  · show (b.state 13).Exists (.env 0)
    rw [hb 13 (Nat.le_refl 13)]
    exact hexists
  · apply Behaviour.WeaklyFair.transfer (Behaviour.StronglyFair.weakly _)
    apply Behaviour.fair_at_rest hb
    rintro ⟨_, s', ⟨rc, rfl⟩, hs, -⟩
    cases step_cases hs with
    | finalizedEnv hcol => exact hcol.1 hfin
    | closedEnv hcol => exact hcol.1 hfin

theorem restingRun_completes :
    ∃ b : Counting, Resting b ∧ ∀ᶠ m in atTop, (b.state m).Done 0 := by
  obtain ⟨b, hb⟩ := restingRun_fair
  refine ⟨b, hb, fair_requests_complete 1 b hb.initial hb.below hb.fair 13 0 ?_⟩
  rw [hb.request 13 (Nat.le_refl 13)]
  exact Nat.one_pos

theorem restingRun_rests :
    ∃ b : Counting, Resting b ∧ ∀ᶠ m in atTop, (b.state m).loopRefs = 1 ∧
      (b.state m).current = none ∧ ∀ r, (b.state m).refs r = 0 := by
  obtain ⟨b, hb⟩ := restingRun_fair
  refine ⟨b, hb, fair_process_rests 1 b hb.initial hb.below hb.fair 13 fun m hle => ?_⟩
  rw [hb.request m hle, hb.request 13 (Nat.le_refl 13)]

theorem restingRun_finalized :
    ∃ b : Counting, Resting b ∧ ∀ᶠ m in atTop, .env 0 ∈ (b.state m).finalized := by
  obtain ⟨b, hb⟩ := restingRun_fair
  exact ⟨b, hb, dropped_finalized 1 b hb.initial hb.below hb.fair (.env 0) hb.collected 13 hb.object
    hb.dropped⟩

end NodeBdb
