import NodeBdb.Objects
import NodeBdb.Success

/-!
# Balance of the requests

An accepted request holds a reference of the event loop until its completion begins and a
reference of its object until its completion is over. Its own entries in the log tell
one story: accepted, started, the calls of its worker, one callback with what that
worker came to, one deletion of the baton, and nothing after it.
-/

namespace NodeBdb

open Interaction Transition

/-! ## Counts -/

def EioReq.outstanding (req : EioReq) : Bool := !req.stage.isCompleted

def EioReq.on (r : ObjRef) (req : EioReq) : Bool := req.outstanding && req.job.object == r

def System.outstanding (s : System) : Nat := s.requests.countP EioReq.outstanding

def System.outstandingOn (s : System) (r : ObjRef) : Nat := s.requests.countP (EioReq.on r)

def System.pending (s : System) : Nat := s.requests.countP fun req => req.stage.isPending

/-- The counters follow the requests, also while a callback is running. -/
structure Balanced (n : Int) (s : System) : Prop where
  loop : s.loopRefs = n + s.pending
  wrapper : ∀ r, s.refs r = s.outstandingOn r
  current : ∀ k, s.current = some k ↔ ∃ req, s.requests[k]? = some req ∧ req.stage = .calling

section Counting

variable {s : System} {k : Nat} {req req' : EioReq} {p : EioReq → Bool}

/-- With no callback running, what is not completed is pending. -/
theorem Balanced.pending_eq {n : Int} (h : Balanced n s) (hc : s.current = none) :
    s.pending = s.outstanding := by
  refine List.countP_congr fun req hreq => ?_
  obtain ⟨k, hk⟩ := List.mem_iff_getElem?.mp hreq
  have hcall : req.stage ≠ .calling := fun hs => by
    have hcur := (h.current k).mpr ⟨req, hk, hs⟩
    rw [hc] at hcur
    cases hcur
  cases hs : req.stage with
  | calling => exact absurd hs hcall
  | _ => simp [hs, EioReq.outstanding]

end Counting

section Steps

variable {n : Int} {s s' : System} {k : Nat} {req : EioReq}

theorem balanced_initial (n : Int) : Balanced n (.initial n) where
  loop := by simp [System.initial, System.pending]
  wrapper _ := rfl
  current k := by simp [System.initial]

theorem Balanced.accept (h : Balanced n s) (job : Job) (cb : Nat) (captured : List ObjRef) :
    Balanced n (s.accept job cb captured) where
  loop := by
    have hl := h.loop
    simp only [System.accept, System.pending, List.countP_append, List.countP_singleton,
      pending_queued, ↓reduceIte] at hl ⊢
    omega
  wrapper r := by
    have hw := h.wrapper r
    simp only [System.accept, System.outstandingOn, List.countP_append, List.countP_singleton,
      EioReq.on, EioReq.outstanding, completed_queued, Bool.not_false, Bool.true_and] at hw ⊢
    by_cases hr : job.object = r
    · subst hr
      simp [hw]
    · have hr' : r ≠ job.object := fun he => hr he.symm
      simp [hw, hr, hr']
  current k := by
    refine (h.current k).trans ?_
    constructor
    · rintro ⟨req, hk, hs⟩
      refine ⟨req, ?_, hs⟩
      rw [System.accept, List.getElem?_append_left (List.getElem?_eq_some_iff.mp hk).1]
      exact hk
    · rintro ⟨req, hk, hs⟩
      rcases Table.get_append hk with ⟨-, rfl⟩ | ⟨-, hk⟩
      · cases hs
      · exact ⟨req, hk, hs⟩

/-- A worker's step moves a pending request to a pending stage. -/
theorem Balanced.work (h : Balanced n s) (hk : s.requests[k]? = some req)
    (hp : req.stage.isPending = true) {req' : EioReq} (hj : req'.job = req.job)
    (hp' : req'.stage.isPending = true) (entry : Entry) : Balanced n (s.setReq k req' entry) := by
  have hstage : ∀ st : Stage, st.isPending = true → st.isCompleted = false ∧ st ≠ .calling := by
    intro st hst
    cases st <;> simp_all
  constructor
  · have hc := Table.countP_set (p := fun req => req.stage.isPending) (b := req') hk
    have hl := h.loop
    simp only [hp, hp', ↓reduceIte, System.pending, System.setReq] at hc hl ⊢
    omega
  · intro r
    have hc := Table.countP_set (p := EioReq.on r) (b := req') hk
    have hon : EioReq.on r req' = EioReq.on r req := by
      simp only [EioReq.on, EioReq.outstanding, hj, (hstage _ hp).1, (hstage _ hp').1]
    have hw := h.wrapper r
    rw [hon] at hc
    simp only [System.outstandingOn, System.setReq] at hc hw ⊢
    omega
  · intro i
    refine (h.current i).trans ?_
    by_cases hi : i = k
    · subst hi
      simp only [System.setReq, Table.set_self hk, hk, Option.some.injEq, exists_eq_left',
        (hstage _ hp).2, (hstage _ hp').2]
    · simp only [System.setReq, Table.set_other hi]

theorem Balanced.begin (h : Balanced n s) (hk : s.requests[k]? = some req)
    (hp : req.stage.isPending = true) (hc : s.current = none) (entry : Entry) (roots : List ObjRef) :
    Balanced n { s.setReq k { req with stage := .calling } entry with
      loopRefs := s.loopRefs - 1, current := some k, roots := roots } := by
  constructor
  · have hc := Table.countP_set (p := fun req => req.stage.isPending)
      (b := { req with stage := .calling }) hk
    have hl := h.loop
    simp only [hp, pending_calling, Bool.false_eq_true, ↓reduceIte, System.pending,
      System.setReq] at hc hl ⊢
    omega
  · intro r
    have hc := Table.countP_set (p := EioReq.on r) (b := { req with stage := .calling }) hk
    have hon : EioReq.on r { req with stage := .calling } = EioReq.on r req := by
      cases hs : req.stage <;>
        simp_all [EioReq.on, EioReq.outstanding]
    have hw := h.wrapper r
    rw [hon] at hc
    simp only [System.outstandingOn, System.setReq] at hc hw ⊢
    omega
  · intro i
    by_cases hi : i = k
    · subst hi
      simp [System.setReq, Table.set_self hk]
    · have hno := h.current i
      rw [hc] at hno
      simp only [System.setReq, Table.set_other hi, Option.some.injEq]
      simp only [reduceCtorEq, false_iff] at hno
      exact ⟨fun he => absurd he.symm hi, fun he => absurd he hno⟩

theorem Balanced.finish (h : Balanced n s) (hc : s.current = some k)
    (hk : s.requests[k]? = some req) (entry : Entry) :
    Balanced n { s.setReq k { req with stage := .completed } entry with
      refs := Function.update s.refs req.job.object (s.refs req.job.object - 1)
      current := none } := by
  obtain ⟨req', hk', hs⟩ := (h.current k).mp hc
  rw [hk] at hk'
  cases hk'
  constructor
  · have hc := Table.countP_set (p := fun req => req.stage.isPending)
      (b := { req with stage := .completed }) hk
    have hl := h.loop
    simp only [hs, pending_calling, pending_completed, Bool.false_eq_true, ↓reduceIte,
      System.pending, System.setReq] at hc hl ⊢
    omega
  · intro r
    have hc := Table.countP_set (p := EioReq.on r) (b := { req with stage := .completed }) hk
    have hw := h.wrapper r
    simp only [EioReq.on, EioReq.outstanding, hs, completed_calling, completed_completed,
      Bool.not_true, Bool.false_and, Bool.not_false, Bool.true_and, Bool.false_eq_true, ↓reduceIte, System.outstandingOn,
      System.setReq] at hc hw ⊢
    by_cases hr : req.job.object = r
    · subst hr
      simp only [beq_self_eq_true, ↓reduceIte, Function.update_self] at hc ⊢
      omega
    · have hr' : r ≠ req.job.object := fun he => hr he.symm
      simp only [beq_iff_eq, hr, ↓reduceIte, ne_eq, hr', not_false_eq_true,
        Function.update_of_ne] at hc ⊢
      omega
  · intro i
    by_cases hi : i = k
    · subst hi
      simp [System.setReq, Table.set_self hk]
    · have hno := h.current i
      rw [hc] at hno
      simp only [System.setReq, Table.set_other hi, reduceCtorEq, false_iff]
      simp only [Option.some.injEq] at hno
      exact fun he => hi (hno.mpr he).symm

theorem Balanced.step {e : SysEvent} (h : Balanced n s) (hs : s.Step e s') : Balanced n s' := by
  cases hs with
  | accept => exact h.accept _ _ _
  | start hk hq hp => exact h.work hk (by rw [hq]; rfl) (by rfl) (by rfl) _
  | bdb hk hw => exact h.work hk (by rw [hw]; rfl) (by rfl) (by rfl) _
  | begin hk hw hc => exact h.begin hk (by rw [hw]; rfl) hc _ _
  | finish hc hk => exact h.finish hc hk _
  | _ => exact ⟨h.loop, h.wrapper, h.current⟩

theorem Balanced.path {es : List SysEvent} (h : Balanced n s) (hp : FPath System.step s es s') :
    Balanced n s' :=
  hp.invariant (I := fun _ s => Balanced n s) h fun _ _ _ _ hi hs => hi.step (step_cases hs)

end Steps

/-! ## The story of a request -/

/-- The entry is about request `k`. -/
def Entry.about (k : Nat) : Entry → Bool
  | .accept i | .start i | .call i _ | .callback i _ | .delete i => i == k
  | _ => false

def history (k : Nat) (log : List Entry) : List Entry := log.filter (Entry.about k)

/-- The program is the worker of the job, on whatever the fields of its object were. -/
def Job.Worker : Job → BdbProg Bytes Job → Prop
  | .db j r baton, p => ∃ dbObj, p = Job.workDb j r baton dbObj
  | .checkpoint i baton, p => ∃ env, p = Job.workEnv i baton env

/-- What the log says of request `k`, stage by stage. -/
inductive Story (k : Nat) (req : EioReq) : List Entry → Prop where
  | queued : req.stage = .queued → req.calls = [] → Story k req [.accept k]
  | working {p q : BdbProg Bytes Job} : req.stage = .working q → req.job.Worker p →
      Reaches p req.calls q → Story k req (.accept k :: .start k :: req.calls.map (.call k))
  | calling {p : BdbProg Bytes Job} {job : Job} : req.stage = .calling → req.job.Worker p →
      Runs p req.calls job →
      Story k req (.accept k :: .start k :: (req.calls.map (.call k) ++ [.callback k job.after]))
  | completed {p : BdbProg Bytes Job} {job : Job} : req.stage = .completed → req.job.Worker p →
      Runs p req.calls job →
      Story k req (.accept k :: .start k ::
        (req.calls.map (.call k) ++ [.callback k job.after, .delete k]))

/-- Every request has its story, and nothing else is in the log about requests. -/
structure Recounted (s : System) : Prop where
  story : ∀ k req, s.requests[k]? = some req → Story k req (history k s.log)
  fresh : ∀ req ∈ s.requests, req.job.Fresh
  others : ∀ k, s.requests.length ≤ k → history k s.log = []

section Stories

variable {s s' : System} {k : Nat} {req : EioReq}

@[simp] theorem history_append (k : Nat) (log log' : List Entry) :
    history k (log ++ log') = history k log ++ history k log' := List.filter_append ..

theorem program_worker {job : Job} {p : BdbProg Bytes Job} (h : s.program job = some p) :
    job.Worker p := by
  cases job with
  | db j r baton =>
    obtain ⟨db, -, rfl⟩ := Option.map_eq_some_iff.mp h
    exact ⟨db.fields, rfl⟩
  | checkpoint i baton =>
    obtain ⟨env, -, rfl⟩ := Option.map_eq_some_iff.mp h
    exact ⟨env, rfl⟩

/-- How one request moves on, with the entry that is written. -/
inductive Advance (s : System) (k : Nat) (req : EioReq) : EioReq → Entry → Prop where
  | start {p : BdbProg Bytes Job} : req.stage = .queued → s.program req.job = some p →
      Advance s k req { req with stage := .working p } (.start k)
  | call {c : Call Bytes} {next : Reply c → BdbProg Bytes Job} (r : Reply c) :
      req.stage = .working (.call c next) →
      Advance s k req { req with stage := .working (next r), calls := req.calls ++ [⟨c, r⟩] }
        (.call k ⟨c, r⟩)
  | callback {job : Job} : req.stage = .working (.ret job) →
      Advance s k req { req with stage := .calling } (.callback k job.after)
  | delete : s.current = some k → Advance s k req { req with stage := .completed } (.delete k)

/-- What a step does to the requests: nothing, one more, or one moves on. -/
inductive RequestsStep (s s' : System) : Prop where
  | same {entries : List Entry} : s'.requests = s.requests → s'.log = s.log ++ entries →
      (∀ k, history k entries = []) → RequestsStep s s'
  | accept {job : Job} {cb : Nat} {captured : List ObjRef} : job.object ∈ s.roots → job.Fresh →
      s' = s.accept job cb captured → RequestsStep s s'
  | move {k : Nat} {req req' : EioReq} {entry : Entry} : s.requests[k]? = some req →
      Advance s k req req' entry → s'.requests = s.requests.set k req' →
      s'.log = s.log ++ [entry] → RequestsStep s s'

theorem requests_step {e : SysEvent} (hs : s.Step e s') : RequestsStep s s' := by
  cases hs with
  | accept hj _ hf => exact .accept hj hf rfl
  | start hk hq hp => exact .move hk (.start hq hp) rfl rfl
  | bdb hk hw => exact .move hk (.call _ hw) rfl rfl
  | begin hk hw _ => exact .move hk (.callback hw) rfl rfl
  | finish hc hk => exact .move hk (.delete hc) rfl rfl
  | unchanged => exact .same rfl (List.append_nil _).symm fun _ => rfl
  | dbUncalled => exact .same rfl (List.append_nil _).symm fun _ => rfl
  | drop => exact .same rfl (List.append_nil _).symm fun _ => rfl
  | closedEnv => exact .same rfl (List.append_assoc ..) fun _ => rfl
  | closedDb => exact .same rfl (List.append_assoc ..) fun _ => rfl
  | _ => exact .same rfl rfl fun _ => rfl

/-- What a worker is given to run has, and each of its calls keeps, all that is left to run has. -/
theorem working_step {P : Job → BdbProg Bytes Job → Prop} {e : SysEvent} (hs : s.Step e s')
    (hstart : ∀ job p, s.program job = some p → P job p)
    (hcall : ∀ job c (next : Reply c → BdbProg Bytes Job) r, P job (.call c next) → P job (next r))
    (h : ∀ (i : Nat) req p, s.requests[i]? = some req → req.stage = .working p → P req.job p)
    {i : Nat} {x : EioReq} {p : BdbProg Bytes Job} (hi : s'.requests[i]? = some x)
    (hp : x.stage = .working p) : P x.job p := by
  cases requests_step hs with
  | same hq _ _ => exact h i x p (hq ▸ hi) hp
  | accept _ _ hs' =>
    subst hs'
    cases Table.get_append hi with
    | inl hnew =>
      rw [hnew.2] at hp
      cases hp
    | inr hold => exact h i x p hold.2 hp
  | @move k req req' entry hk hadv hq _ =>
    rw [hq] at hi
    cases Table.get_set hk hi with
    | inr hold => exact h i x p hold.2 hp
    | inl hmoved =>
      obtain ⟨rfl, rfl⟩ := hmoved
      cases hadv with
      | start _ hprog =>
        cases hp
        exact hstart _ _ hprog
      | call r hw =>
        cases hp
        exact hcall _ _ _ r (h i req _ hk hw)
      | callback => cases hp
      | delete => cases hp

theorem Advance.about {req' : EioReq} {entry : Entry} (h : Advance s k req req' entry) (i : Nat) :
    entry.about i = (k == i) := by
  cases h <;> rfl

theorem Advance.job {req' : EioReq} {entry : Entry} (h : Advance s k req req' entry) :
    req'.job = req.job := by
  cases h <;> rfl

theorem Story.of_queued {log : List Entry} (h : Story k req log) (hq : req.stage = .queued) :
    log = [.accept k] ∧ req.calls = [] := by
  cases h with
  | queued _ hc => exact ⟨rfl, hc⟩
  | _ => simp_all

/-- A request whose callback is in the log has it from a run of its worker. -/
theorem Story.of_callback {log : List Entry} {d : Delivery} (h : Story k req log)
    (hd : .callback k d ∈ log) : (req.stage = .calling ∨ req.stage = .completed) ∧
      ∃ p job, req.job.Worker p ∧ Runs p req.calls job ∧ d = job.after := by
  cases h with
  | queued => simp at hd
  | working => simp at hd
  | @calling p job hs hp hr => exact ⟨.inl hs, p, job, hp, hr, by simpa using hd⟩
  | @completed p job hs hp hr => exact ⟨.inr hs, p, job, hp, hr, by simpa using hd⟩

theorem mem_history {log : List Entry} {entry : Entry} (he : entry.about k = true)
    (hm : entry ∈ log) : entry ∈ history k log := List.mem_filter.mpr ⟨hm, he⟩

theorem Story.advance {log : List Entry} {req' : EioReq} {entry : Entry} (h : Story k req log)
    (ha : Advance s k req req' entry) (hcur : s.current = some k → req.stage = .calling) :
    Story k req' (log ++ [entry]) := by
  cases ha with
  | @start p hq hp =>
    cases h with
    | queued _ hc =>
      have hstory : Story k { req with stage := .working p } _ := .working rfl (program_worker hp)
        (show Reaches p req.calls p by rw [hc]; exact .refl p)
      simpa [hc] using hstory
    | _ => simp_all
  | @call c next r hw =>
    cases h with
    | working hw' hp hr =>
      rw [hw] at hw'
      cases hw'
      have hstory : Story k { req with stage := .working (next r), calls := req.calls ++ [⟨c, r⟩] } _ :=
        .working rfl hp (hr.snoc r)
      simpa using hstory
    | _ => simp_all
  | @callback job hw =>
    cases h with
    | working hw' hp hr =>
      rw [hw] at hw'
      cases hw'
      have hstory : Story k { req with stage := .calling } _ := .calling rfl hp (reaches_ret hr)
      simpa using hstory
    | _ => simp_all
  | delete hc =>
    have hcall := hcur hc
    cases h with
    | calling _ hp hr =>
      have hstory : Story k { req with stage := .completed } _ := .completed rfl hp hr
      simpa using hstory
    | _ => simp_all

theorem history_other {entry : Entry} {i : Nat} (he : entry.about i = (k == i)) (hi : i ≠ k) :
    history i [entry] = [] := by
  simp [history, he, Ne.symm hi]

theorem history_self {entry : Entry} (he : entry.about k = (k == k)) :
    history k [entry] = [entry] := by
  simp [history, he]

theorem Recounted.step {e : SysEvent} (h : Recounted s)
    (hcur : ∀ k, s.current = some k → ∃ req, s.requests[k]? = some req ∧ req.stage = .calling)
    (hs : s.Step e s') : Recounted s' := by
  cases requests_step hs with
  | same hq hl he =>
    refine ⟨fun k req hk => ?_, fun req hm => h.fresh req (hq ▸ hm), fun k hk => ?_⟩
    · rw [hl, history_append, he, List.append_nil]
      exact h.story k req (hq ▸ hk)
    · rw [hl, history_append, he, List.append_nil]
      exact h.others k (hq ▸ hk)
  | @accept job cb captured _ hf hs' =>
    subst hs'
    refine ⟨fun i x hi => ?_, fun x hm => ?_, fun i hi => ?_⟩
    · rw [System.accept, history_append]
      rcases Table.get_append hi with ⟨rfl, rfl⟩ | ⟨hlt, hi⟩
      · rw [h.others _ (Nat.le_refl _), history_self (by rfl)]
        exact .queued rfl rfl
      · rw [history_other (k := s.requests.length) rfl (Nat.ne_of_lt hlt), List.append_nil]
        exact h.story i x hi
    · cases List.mem_append.mp hm with
      | inl hm => exact h.fresh x hm
      | inr hm =>
        cases List.mem_singleton.mp hm
        exact hf
    · simp only [System.accept, List.length_append, List.length_singleton] at hi
      rw [System.accept, history_append, history_other (k := s.requests.length) rfl (by omega),
        List.append_nil]
      exact h.others i (by omega)
  | @move k req req' entry hk ha hq hl =>
    have hcall : s.current = some k → req.stage = .calling := fun hc => by
      obtain ⟨x, hx, hs⟩ := hcur k hc
      obtain rfl : req = x := Option.some.inj (hk.symm.trans hx)
      exact hs
    refine ⟨fun i x hi => ?_, fun x hm => ?_, fun i hi => ?_⟩
    · rw [hl, history_append]
      rw [hq] at hi
      rcases Table.get_set hk hi with ⟨rfl, rfl⟩ | ⟨hne, hi⟩
      · rw [history_self (ha.about i)]
        exact (h.story i req hk).advance ha hcall
      · rw [history_other (ha.about i) hne, List.append_nil]
        exact h.story i x hi
    · rw [hq] at hm
      rcases List.mem_or_eq_of_mem_set hm with hm | rfl
      · exact h.fresh x hm
      · rw [ha.job]
        exact h.fresh req (List.mem_of_getElem? hk)
    · rw [hq, List.length_set] at hi
      have hne : i ≠ k := by
        have hlt := (List.getElem?_eq_some_iff.mp hk).1
        omega
      rw [hl, history_append, history_other (ha.about i) hne, List.append_nil]
      exact h.others i hi

theorem path_recounted {n : Int} {es : List SysEvent} (hp : FPath System.step (.initial n) es s) :
    Recounted s := by
  have hinit : Recounted (.initial n) :=
    ⟨fun _ _ h => (nomatch h), fun _ h => (nomatch h), fun _ _ => rfl⟩
  refine (hp.invariant (I := fun _ s => Balanced n s ∧ Recounted s) ⟨balanced_initial n, hinit⟩
    fun _ s _ _ hi hs => ⟨hi.1.step (step_cases hs), hi.2.step ?_ (step_cases hs)⟩).2
  exact fun k => (hi.1.current k).mp

end Stories

/-! ## Progress -/

/-- The events of worker threads and completions, as opposed to the script and the collector. -/
def SysEvent.completes : SysEvent → Bool
  | .start _ | .bdb .. | .begin _ | .finish _ => true
  | _ => false

section Progress

variable {n : Int} {s s' : System} {k : Nat} {req : EioReq}

/-- The path takes request `k` to its end and moves no other. -/
def Completes (s : System) (k : Nat) (s' : System) : Prop :=
  ∃ es req', FPath System.step s es s' ∧ (∀ e ∈ es, e.completes = true) ∧
    s'.requests = s.requests.set k req' ∧ req'.stage = .completed ∧ s'.current = none

theorem Completes.prepend {e : SysEvent} {s₁ : System} {req₁ : EioReq} (he : s.step e = some s₁)
    (hc : e.completes = true) (hq : s₁.requests = s.requests.set k req₁)
    (h : Completes s₁ k s') : Completes s k s' := by
  obtain ⟨es, req', hp, hes, hq', hs, hcur⟩ := h
  refine ⟨[e] ++ es, req', Path.append (.snoc .nil he) hp, ?_, ?_, hs, hcur⟩
  · intro x hx
    cases List.mem_append.mp hx with
    | inl hx =>
      cases List.mem_singleton.mp hx
      exact hc
    | inr hx => exact hes x hx
  · rw [hq', hq, List.set_set]

theorem step_start {p : BdbProg Bytes Job} (hk : s.requests[k]? = some req)
    (hq : req.stage = .queued) (hp : s.program req.job = some p) :
    s.step (.start k) = some (s.setReq k { req with stage := .working p } (.start k)) := by
  simp [System.step, System.start, hk, hq, hp]

theorem step_bdb {c : Call Bytes} {next : Reply c → BdbProg Bytes Job}
    (hk : s.requests[k]? = some req) (hw : req.stage = .working (.call c next)) (r : Reply c) :
    s.step (.bdb k c r) = some (s.setReq k
      { req with stage := .working (next r), calls := req.calls ++ [⟨c, r⟩] } (.call k ⟨c, r⟩)) := by
  simp [System.step, System.bdb, hk, hw]

theorem step_begin {job : Job} (hk : s.requests[k]? = some req)
    (hw : req.stage = .working (.ret job)) (hc : s.current = none) :
    s.step (.begin k) = some
      { s.setReq k { req with stage := .calling } (.callback k job.after) with
        loopRefs := s.loopRefs - 1, current := some k, roots := req.captured ++ s.roots } := by
  simp [System.step, System.begin, hk, hw, hc]

theorem step_finish (threw : Bool) (hc : s.current = some k) (hk : s.requests[k]? = some req) :
    s.step (.finish threw) = some
      { s.setReq k { req with stage := .completed } (.delete k) with
        refs := Function.update s.refs req.job.object (s.refs req.job.object - 1)
        current := none } := by
  simp [System.step, System.finish, hk, hc]

theorem calling_completes (hc : s.current = some k) (hk : s.requests[k]? = some req) :
    ∃ s', Completes s k s' :=
  ⟨_, [.finish false], _, .snoc .nil (step_finish false hc hk), by simp [SysEvent.completes], rfl, rfl, rfl⟩

/-- A worker comes to its end whatever it is answered, here always with code 0. -/
theorem working_completes (p : BdbProg Bytes Job) (s : System) (req : EioReq)
    (hk : s.requests[k]? = some req) (hw : req.stage = .working p) (hc : s.current = none) :
    ∃ s', Completes s k s' := by
  induction p generalizing s req with
  | ret job =>
    have hcalling : ∃ s', Completes
        { s.setReq k { req with stage := .calling } (.callback k job.after) with
          loopRefs := s.loopRefs - 1, current := some k, roots := req.captured ++ s.roots } k s' :=
      calling_completes rfl (Table.set_self hk)
    obtain ⟨s', h⟩ := hcalling
    exact ⟨s', h.prepend (step_begin hk hw hc) rfl rfl⟩
  | call c next ih =>
    obtain ⟨s', h⟩ := ih (replyCode 0 c)
      (s.setReq k { req with stage := .working (next (replyCode 0 c)),
                             calls := req.calls ++ [⟨c, replyCode 0 c⟩] } (.call k ⟨c, replyCode 0 c⟩))
      _ (Table.set_self hk) rfl hc
    exact ⟨s', h.prepend (step_bdb hk hw _) rfl rfl⟩

theorem queued_completes (hh : Held s) (hk : s.requests[k]? = some req)
    (hq : req.stage = .queued) (hc : s.current = none) : ∃ s', Completes s k s' := by
  have hobj := hh.objects req (List.mem_of_getElem? hk)
  have hprog : ∃ p, s.program req.job = some p := by
    cases hj : req.job with
    | db j r baton =>
      rw [hj] at hobj
      obtain ⟨db, hdb⟩ : ∃ db, s.dbs[j]? = some db := ⟨_, List.getElem?_eq_getElem hobj⟩
      exact ⟨Job.workDb j r baton db.fields, by rw [System.program, hdb]; rfl⟩
    | checkpoint i baton =>
      rw [hj] at hobj
      obtain ⟨env, henv⟩ : ∃ env, s.envs[i]? = some env := ⟨_, List.getElem?_eq_getElem hobj⟩
      exact ⟨Job.workEnv i baton env, by rw [System.program, henv]; rfl⟩
  obtain ⟨p, hp⟩ := hprog
  obtain ⟨s', h⟩ := working_completes p (s.setReq k { req with stage := .working p } (.start k)) _
    (Table.set_self hk) rfl hc
  exact ⟨s', h.prepend (step_start hk hq hp) rfl rfl⟩

/-- Whatever the state, some request that is not completed can be. -/
theorem some_completes (hb : Balanced n s) (hh : Held s) (ho : s.outstanding ≠ 0) :
    ∃ k req s', s.requests[k]? = some req ∧ req.outstanding = true ∧ Completes s k s' := by
  cases hc : s.current with
  | some k =>
    obtain ⟨req, hk, hs⟩ := (hb.current k).mp hc
    obtain ⟨s', h⟩ := calling_completes hc hk
    exact ⟨k, req, s', hk, by simp [EioReq.outstanding, hs], h⟩
  | none =>
    obtain ⟨req, hm, hout⟩ := List.countP_pos_iff.mp (Nat.pos_of_ne_zero ho)
    obtain ⟨k, hk⟩ := List.mem_iff_getElem?.mp hm
    cases hs : req.stage with
    | queued =>
      obtain ⟨s', h⟩ := queued_completes hh hk hs hc
      exact ⟨k, req, s', hk, hout, h⟩
    | working p =>
      obtain ⟨s', h⟩ := working_completes p s req hk hs hc
      exact ⟨k, req, s', hk, hout, h⟩
    | calling =>
      have hcur := (hb.current k).mpr ⟨req, hk, hs⟩
      rw [hc] at hcur
      cases hcur
    | completed => simp [EioReq.outstanding, hs] at hout

/-- The loop drains: with no more calls of the script, every accepted request completes. -/
theorem drains (left : Nat) : ∀ s, s.outstanding = left → Balanced n s → Held s →
    ∃ es s', FPath System.step s es s' ∧ (∀ e ∈ es, e.completes = true) ∧
      s'.requests.length = s.requests.length ∧ ∀ req ∈ s'.requests, req.stage = .completed := by
  induction left with
  | zero =>
    intro s h0 _ _
    refine ⟨[], s, .nil, by simp, rfl, fun req hm => ?_⟩
    have hout := List.countP_eq_zero.mp h0 req hm
    cases hs : req.stage <;> simp_all [EioReq.outstanding]
  | succ left ih =>
    intro s hl hb hh
    obtain ⟨k, req, s₁, hk, hout, es, req', hp, hes, hq, hdone, -⟩ := some_completes hb hh (by omega)
    have hcount := Table.countP_set (p := EioReq.outstanding) (b := req') hk
    have hout' : req'.outstanding = false := by simp [EioReq.outstanding, hdone]
    simp only [hout, hout', ↓reduceIte, Bool.false_eq_true, ← hq] at hcount
    have hl' : s₁.outstanding = left := by
      have hl' := hl
      simp only [System.outstanding] at hl' ⊢
      omega
    obtain ⟨es', s', hp', hes', hlen, hall⟩ := ih s₁ hl' (hb.path hp) (hh.path hp)
    refine ⟨es ++ es', s', hp.append hp', ?_, ?_, hall⟩
    · intro e he
      exact (List.mem_append.mp he).elim (hes e) (hes' e)
    · rw [hlen, hq, List.length_set]

end Progress

/-! ## Runs -/

/-- What the bindings owe the event loop, the objects and the callers of the requests. -/
structure Balance (n : Int) (s : System) : Prop where
  loop : s.current = none → s.loopRefs = n + s.outstanding
  wrapper : ∀ r, s.refs r = s.outstandingOn r
  story : ∀ k req, s.requests[k]? = some req → Story k req (history k s.log)
  others : ∀ k, s.requests.length ≤ k → history k s.log = []
  finalized : ∀ r ∈ s.finalized, s.outstandingOn r = 0
  rejectedRequest : ∀ j (m : AsyncMethod) args captured msg, m.parse args = .error msg →
    s.js (.db j (.request m args captured)) = some (.threw (.text msg), s)
  rejectedCheckpoint : ∀ i args captured msg, txnCheckpointArgs args = .error msg →
    s.js (.env i (.txnCheckpoint args captured)) = some (.threw (.text msg), s)
  drains : ∃ es s', FPath System.step s es s' ∧ (∀ e ∈ es, e.completes = true) ∧
    s'.requests.length = s.requests.length ∧ ∀ req ∈ s'.requests, req.stage = .completed

/-- The next call of one worker, after any run. -/
theorem next_bdb {n : Int} {es : List SysEvent} {s : System}
    (hs : FPath System.step (.initial n) es s) {k : Nat} {req : EioReq} {p : BdbProg Bytes Job}
    {e : BdbEvent Bytes} {t : BdbTrace Bytes} {job : Job} (hk : s.requests[k]? = some req)
    (hw : req.stage = .working p) (h : Runs p (e :: t) job) :
    ∃ q, Runs q t job ∧ FPath System.step (.initial n) (es ++ [.bdb k e.1 e.2])
      (s.setReq k { req with stage := .working q, calls := req.calls ++ [e] } (.call k e)) := by
  obtain ⟨c, r⟩ := e
  obtain ⟨next, rfl, hrest⟩ := runs_cons h
  exact ⟨next r, hrest, hs.snoc (step_bdb hk hw r)⟩

/-- A Db that is opened without transactions. -/
def plainOpening : List SysEvent :=
  [.js (.newDbEnv 0), .js (.newDb [.wrapper (.env 0)] 0),
   .js (.db 0 (.sync .openS [.string "db", .number 1, .number 0, .number 0, .number 1] 0))]

def openedPlain : Db := { _db := some 0, _env := some 0, _retries := 1 }

def queuedPut : Request Bytes := .put (buffer [107]) (buffer [118]) 0
def queuedGet : Request Bytes := .get (buffer [107]) 0

def putCall : BdbEvent Bytes := ⟨.put (some 0) none (buffer [107]) (buffer [118]) 0, (0 : Int)⟩
def getCall : BdbEvent Bytes :=
  ⟨.get (some 0) none (buffer [107]) { flags := dbDbtMalloc } 0, (dbNotfound, [])⟩

/-- A put and a get are submitted, and two workers take them. -/
def submittedRun : List SysEvent :=
  plainOpening ++
    [.js (.db 0 (.request .put [.buffer [107], .buffer [118], .number 0, .function 5] [])),
     .js (.db 0 (.request .get [.buffer [107], .number 0, .function 6] [.db 0])),
     .start 0, .start 1]

/-- The two workers take turns. The callback of the put submits a del, makes a request with a bad
argument and throws. -/
def busyRun : List SysEvent :=
  submittedRun ++
    [.bdb 1 getCall.1 getCall.2, .bdb 0 putCall.1 putCall.2, .begin 0,
     .js (.db 0 (.request .del [.buffer [107], .number 0, .function 7] [])),
     .js (.db 0 (.request .del [.string "k", .number 0, .function 8] [])), .finish true,
     .begin 1, .finish false]

theorem queuedPut_runs : Runs (Job.workDb 0 queuedPut queuedPut.baton openedPlain) [putCall]
    (.db 0 queuedPut { queuedPut.baton with status := 0 }) := by
  simp [Job.workDb, queuedPut, Request.worker, eioPut, openedPlain, txn, again, putBody, putCall,
    Request.baton]

theorem queuedGet_runs : Runs (Job.workDb 0 queuedGet queuedGet.baton openedPlain) [getCall]
    (.db 0 queuedGet
      { queuedGet.baton with status := dbNotfound, val := { flags := dbDbtMalloc } }) := by
  simp [Job.workDb, queuedGet, Request.worker, eioGet, openedPlain, txn, again, getBody, getCall,
    Request.baton, dbNotfound]

theorem busyRun_path : ∃ s, FPath System.step (.initial 1) busyRun s := by
  obtain ⟨s, hsub⟩ : ∃ s, run System.step (.initial 1) submittedRun = some s := ⟨_, rfl⟩
  have hs := run_path hsub
  cases hsub
  obtain ⟨g, hg, hs⟩ := next_bdb hs (k := 1) rfl rfl queuedGet_runs
  obtain ⟨p, hp, hs⟩ := next_bdb hs (k := 0) rfl rfl queuedPut_runs
  have hs := hs.snoc (step_begin (k := 0) rfl (congrArg Stage.working (runs_nil hp)) rfl)
  have hs := hs.snoc (show System.step _ (.js (.db 0 (.request .del
    [.buffer [107], .number 0, .function 7] []))) = some _ from rfl)
  have hs := hs.snoc (show System.step _ (.js (.db 0 (.request .del
    [.string "k", .number 0, .function 8] []))) = some _ from rfl)
  have hs := hs.snoc (step_finish (k := 0) true rfl rfl)
  have hs := hs.snoc (step_begin (k := 1) rfl (congrArg Stage.working (runs_nil hg)) rfl)
  exact ⟨_, hs.snoc (step_finish (k := 1) false rfl rfl)⟩

end NodeBdb
