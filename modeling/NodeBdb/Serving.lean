import NodeBdb.Service
import NodeBdb.Handles

/-!
# The process over the engine

The process of `NodeBdb.System`, with Berkeley DB behind one open transactional Db of it. A
request on that Db and a synchronous method on it are operations of the service: their calls
are answered by the engine, and everything else the process does passes the service by. While
the main thread is inside a synchronous method, the workers go on. So every run of the process
is a run of the service.
-/

namespace NodeBdb

open Interaction Transition RangeLocks

/-- The synchronous method the main thread is in, as operation `index`, with the program it has
left and what it has called so far. -/
structure MainCall where
  index : Nat
  op : Invocation
  prog : BdbProg Bytes Delivery
  calls : BdbTrace Bytes := []

/-- `ops` are the operations of the Db in the order of their invocation, each with its request if
it has one. -/
structure Serving where
  system : System
  engine : Engine
  ops : List (Option Nat) := []
  main : Option MainCall := none

/-- The event is a call on Db `j`, or the completion of one of its requests. -/
def SysEvent.works (s : System) (j : Nat) : SysEvent → Bool
  | .js (.db i (.direct ..)) => i == j
  | .bdb k _ _ | .begin k => s.requests[k]?.any fun req => req.job.object == .db j
  | _ => false

/-- The event is one of a worker thread, or of the collector, which any allocation may start. -/
def SysEvent.aside : SysEvent → Bool
  | .start _ | .bdb .. | .finalize .. => true
  | _ => false

def System.fieldsOf (s : System) (j : Nat) : Option Db := s.dbs[j]?.map WrappedDb.fields

open AtomicObject in
/-- A step of the process, with what a client of Db `j` sees of it. The Db is not opened or closed,
and its operations pass no flags; a method that threw has done nothing. While the main thread is in
a synchronous method of the Db only workers and the collector take steps, and in `System` the method
is one event, at its return. -/
inductive Serving.Step (moves : Moves Int Bytes Bytes) (j : Nat) (dbObj : Db) (p : Serving) :
    List (Visible Nat Invocation Result) → Serving → Prop where
  | accept {c : Script} {op : Invocation} {r : Request Bytes} {cb : Nat} {captured : List ObjRef} :
      p.main = none →
      p.system.step (.js c) = some (p.system.accept (.db j r r.baton) cb captured) →
      op.operation = .request r →
      Step moves j dbObj p [.invoke p.ops.length op]
        { p with
          system := p.system.accept (.db j r r.baton) cb captured
          ops := p.ops ++ [some p.system.requests.length] }
  | bdb {k : Nat} {req : EioReq} {c : Call Bytes} {r : Reply c} {s : System} {engine : Engine} :
      p.system.step (.bdb k c r) = some s → p.system.requests[k]? = some req →
      req.job.object = .db j → p.engine.Step moves ⟨c, r⟩ engine →
      Step moves j dbObj p [] { p with system := s, engine := engine }
  | begin {i k : Nat} {req : EioReq} {job : Job} {s : System} : p.main = none →
      p.system.step (.begin k) = some s → p.ops[i]? = some (some k) →
      p.system.requests[k]? = some req → req.stage = .working (.ret job) →
      Step moves j dbObj p [.respond i (.of req.calls job.after)] { p with system := s }
  | enter {c : DirectCall Bytes} {op : Invocation} : p.main = none → op.operation = .direct c →
      Step moves j dbObj p [.invoke p.ops.length op]
        { p with
          ops := p.ops ++ [none]
          main := some { index := p.ops.length, op := op, prog := c.deliver dbObj } }
  | inside {call : MainCall} {c : Call Bytes} {next : Reply c → BdbProg Bytes Delivery} {r : Reply c}
      {engine : Engine} : p.main = some call → call.prog = .call c next →
      p.engine.Step moves ⟨c, r⟩ engine →
      Step moves j dbObj p []
        { p with
          engine := engine
          main := some { call with prog := next r, calls := call.calls ++ [⟨c, r⟩] } }
  | leave {call : MainCall} {m : SyncMethod} {args : List JsValue} {o : Oracle (Call Bytes) Reply}
      {c : DirectCall Bytes} {d : Delivery} {s : System} : p.main = some call → call.prog = .ret d →
      p.system.step (.js (.db j (.direct m args o))) = some s → m.parse args = .ok c →
      call.op.operation = .direct c → exec o [] (c.deliver dbObj) = (call.calls, d) →
      Step moves j dbObj p [.respond call.index (.of call.calls d)] { p with system := s, main := none }
  | other {e : SysEvent} {s : System} : p.main = none ∨ e.aside = true →
      p.system.step e = some s → e.works p.system j = false ∨ s = p.system →
      (∀ k req, s.requests[k]? = some req → req.job.object = .db j → k < p.system.requests.length) →
      s.fieldsOf j = some dbObj → Step moves j dbObj p [] { p with system := s }

/-- Nothing that was asked of Db `j` is still on its way. -/
def System.Idle (s : System) (j : Nat) : Prop :=
  ∀ (k : Nat) (req : EioReq), s.requests[k]? = some req → req.job.object = .db j →
    req.stage = .completed

/-! ## A run of the process is a run of the service -/

/-- Where the worker of the service stands, beside the request. -/
inductive Follows (dbObj : Db) (req : EioReq) (w : Worker) : Prop where
  | queued : req.stage = .queued → req.calls = [] → w.prog = w.op.operation.deliver dbObj →
      w.responded = false → Follows dbObj req w
  | working {q : BdbProg Bytes Job} : req.stage = .working q →
      w.prog = (q >>= fun job => .ret job.after) → w.responded = false → Follows dbObj req w
  | answered : req.stage = .calling ∨ req.stage = .completed → w.responded = true →
      Follows dbObj req w

/-- A request of Db `j`, and the worker that does it in the service. -/
structure Serves (j : Nat) (dbObj : Db) (req : EioReq) (w : Worker) : Prop where
  request : ∃ r, req.job = .db j r r.baton ∧ w.op.operation = .request r
  calls : w.calls = req.calls
  follows : Follows dbObj req w

/-- The refinement relation. -/
structure Serving.Refines (j : Nat) (dbObj : Db) (p : Serving) (v : Service) : Prop where
  engine : v.engine = p.engine
  fields : p.system.fieldsOf j = some dbObj
  balanced : ∃ n, Balanced n p.system
  length : v.workers.length = p.ops.length
  known : ∀ (k : Nat) (req : EioReq), p.system.requests[k]? = some req → req.job.object = .db j →
    req.stage ≠ .completed → ∃ i : Nat, p.ops[i]? = some (some k)
  once : ∀ (i i' k : Nat), p.ops[i]? = some (some k) → p.ops[i']? = some (some k) → i = i'
  serves : ∀ (i k : Nat), p.ops[i]? = some (some k) → ∃ req w,
    p.system.requests[k]? = some req ∧ v.workers[i]? = some w ∧ Serves j dbObj req w
  returned : ∀ (i : Nat) (w : Worker), p.ops[i]? = some none → v.workers[i]? = some w →
    (∃ d, w.prog = .ret d) ∨ ∃ call, p.main = some call ∧ call.index = i
  inside : ∀ call, p.main = some call → p.ops[call.index]? = some none ∧ ∃ w,
    v.workers[call.index]? = some w ∧ w.prog = call.prog ∧ w.calls = call.calls ∧
    w.responded = false

section Refinement

variable {moves : Moves Int Bytes Bytes} {j : Nat} {dbObj : Db} {p : Serving} {v : Service}
  {s s' : System}

/-- A request of Db `j` that no call concerns stays, starts or is deleted. -/
inductive Quiet (s : System) (k : Nat) (req : EioReq) : EioReq → Prop where
  | same : Quiet s k req req
  | start {q : BdbProg Bytes Job} : req.stage = .queued → s.program req.job = some q →
      Quiet s k req { req with stage := .working q }
  | finish : s.current = some k → Quiet s k req { req with stage := .completed }

theorem quiet_step {e : SysEvent} (h : s.Step e s') (hw : e.works s j = false) {k : Nat}
    {req : EioReq} (hk : s.requests[k]? = some req) (hj : req.job.object = .db j) :
    ∃ req', s'.requests[k]? = some req' ∧ Quiet s k req req' := by
  have hmoved : ∀ {i : Nat} {x x' : EioReq}, s.requests[i]? = some x → (k = i → Quiet s k req x') →
      ∃ req', (s.requests.set i x')[k]? = some req' ∧ Quiet s k req req' := by
    intro i x x' hi hq
    by_cases hki : k = i
    · refine ⟨x', ?_, hq hki⟩
      rw [hki]
      exact Table.set_self hi
    · exact ⟨req, (Table.set_other hki).trans hk, .same⟩
  have hidle : ∀ {i : Nat} {x : EioReq}, s.requests[i]? = some x →
      (s.requests[i]?.any fun req => req.job.object == .db j) = false → k ≠ i := by
    rintro i x hi hany rfl
    rw [hk, Option.any_some, hj] at hany
    simp at hany
  cases h with
  | accept => exact ⟨req, Table.append_left hk, .same⟩
  | start hi hq hp =>
    apply hmoved hi
    rintro rfl
    rw [hk] at hi
    cases hi
    exact .start hq hp
  | bdb hi hstage => exact hmoved hi fun he => absurd he (hidle hi hw)
  | begin hi hstage hc => exact hmoved hi fun he => absurd he (hidle hi hw)
  | finish hc hi =>
    apply hmoved hi
    rintro rfl
    rw [hk] at hi
    cases hi
    exact .finish hc
  | _ => exact ⟨req, hk, .same⟩

/-- What the worker of a job on Db `j` does is what the operation does. -/
theorem program_delivers (hf : s.fieldsOf j = some dbObj) {r : Request Bytes}
    {q : BdbProg Bytes Job} (h : s.program (.db j r r.baton) = some q) :
    (q >>= fun job => .ret job.after) = r.deliver dbObj := by
  obtain ⟨db, hdb, rfl⟩ := Option.map_eq_some_iff.mp h
  rw [System.fieldsOf, hdb] at hf
  cases hf
  simp [Job.workDb, Request.deliver, Job.after]

theorem Follows.program {req : EioReq} {w : Worker} (h : Follows dbObj req w)
    {q : BdbProg Bytes Job} (hq : req.stage = .working q) :
    w.prog = (q >>= fun job => .ret job.after) ∧ w.responded = false := by
  cases h with
  | queued hs =>
    rw [hq] at hs
    cases hs
  | working hs hprog hresp =>
    rw [hq] at hs
    cases hs
    exact ⟨hprog, hresp⟩
  | answered hs =>
    rw [hq] at hs
    cases hs with
    | inl h => cases h
    | inr h => cases h

theorem Follows.responded {req : EioReq} {w : Worker} (h : Follows dbObj req w)
    (hc : req.stage = .calling) : w.responded = true := by
  cases h with
  | queued hs =>
    rw [hc] at hs
    cases hs
  | working hs =>
    rw [hc] at hs
    cases hs
  | answered _ hresp => exact hresp

/-- The worker stays where it is while its request is queued, started or deleted. -/
theorem Serves.quiet {k : Nat} {req req' : EioReq} {w : Worker} (h : Serves j dbObj req w)
    (hq : Quiet s k req req') (hf : s.fieldsOf j = some dbObj)
    (hcur : s.current = some k → req.stage = .calling) : Serves j dbObj req' w := by
  cases hq with
  | same => exact h
  | @start q hs hp =>
    refine ⟨h.request, h.calls, ?_⟩
    obtain ⟨r, hjob, hop⟩ := h.request
    cases h.follows with
    | queued _ _ hprog hresp =>
      refine .working rfl ?_ hresp
      rw [hjob] at hp
      rw [hprog, hop, program_delivers hf hp]
      rfl
    | working hs' =>
      rw [hs] at hs'
      cases hs'
    | answered hs' =>
      rw [hs] at hs'
      cases hs' with
      | inl h => cases h
      | inr h => cases h
  | finish hc =>
    exact ⟨h.request, h.calls, .answered (.inr rfl) (h.follows.responded (hcur hc))⟩

theorem Serving.Refines.quiet {e : SysEvent} (h : p.Refines j dbObj v) (hs : p.system.step e = some s)
    (hw : e.works p.system j = false)
    (hnew : ∀ (k : Nat) (req : EioReq), s.requests[k]? = some req → req.job.object = .db j →
      k < p.system.requests.length)
    (hf : s.fieldsOf j = some dbObj) : Serving.Refines j dbObj { p with system := s } v := by
  have hstep := step_cases hs
  obtain ⟨n, hb⟩ := h.balanced
  refine ⟨h.engine, hf, ⟨n, hb.step hstep⟩, h.length, ?_, h.once, ?_, h.returned, h.inside⟩
  · intro k req' hk hj hc
    have hlt := hnew k req' hk hj
    cases requests_old hstep hk with
    | inr hadded => omega
    | inl hold =>
      obtain ⟨req, hreq, hjob⟩ := hold
      rw [hjob] at hj
      obtain ⟨x, hx, hq⟩ := quiet_step hstep hw hreq hj
      rw [hk] at hx
      cases hx
      apply h.known k req hreq hj
      cases hq with
      | same => exact hc
      | start hs =>
        rw [hs]
        simp
      | finish => exact absurd rfl hc
  · intro i k hi
    obtain ⟨req, w, hk, hw', hserves⟩ := h.serves i k hi
    have hj : req.job.object = .db j := by
      obtain ⟨r, hjob, -⟩ := hserves.request
      rw [hjob]
      rfl
    obtain ⟨req', hk', hq⟩ := quiet_step hstep hw hk hj
    refine ⟨req', w, hk', hw', hserves.quiet hq h.fields ?_⟩
    intro hcur
    obtain ⟨x, hx, hcalling⟩ := (hb.current k).mp hcur
    rw [hk] at hx
    cases hx
    exact hcalling

theorem Serving.Refines.accept {c : Script} {op : Invocation} {r : Request Bytes} {cb : Nat}
    {captured : List ObjRef} (h : p.Refines j dbObj v) (hmain : p.main = none)
    (hs : p.system.step (.js c) = some (p.system.accept (.db j r r.baton) cb captured))
    (hop : op.operation = .request r) :
    Serving.Refines j dbObj
      { p with
        system := p.system.accept (.db j r r.baton) cb captured
        ops := p.ops ++ [some p.system.requests.length] }
      { v with workers := v.workers ++ [{ op := op, prog := op.operation.deliver dbObj }] } := by
  obtain ⟨n, hb⟩ := h.balanced
  have hlen : ∀ i k : Nat, p.ops[i]? = some (some k) → k < p.system.requests.length := by
    intro i k hi
    obtain ⟨req, w, hk, -⟩ := h.serves i k hi
    exact (List.getElem?_eq_some_iff.mp hk).1
  refine ⟨h.engine, h.fields, ⟨n, hb.step (step_cases hs)⟩, by simp [h.length], ?_, ?_, ?_, ?_, ?_⟩
  · intro k req hk hj hc
    cases Table.get_append hk with
    | inl hnew =>
      obtain ⟨rfl, -⟩ := hnew
      exact ⟨p.ops.length, List.getElem?_concat_length⟩
    | inr hold =>
      obtain ⟨i, hi⟩ := h.known k req hold.2 hj hc
      exact ⟨i, Table.append_left hi⟩
  · intro i i' k hi hi'
    cases Table.get_append hi with
    | inl hnew =>
      cases Table.get_append hi' with
      | inl hnew' => exact hnew.1.trans hnew'.1.symm
      | inr hold' =>
        have hlt := hlen i' k hold'.2
        have hk : k = p.system.requests.length := Option.some.inj hnew.2
        omega
    | inr hold =>
      cases Table.get_append hi' with
      | inl hnew' =>
        have hlt := hlen i k hold.2
        have hk : k = p.system.requests.length := Option.some.inj hnew'.2
        omega
      | inr hold' => exact h.once i i' k hold.2 hold'.2
  · intro i k hi
    cases Table.get_append hi with
    | inl hnew =>
      obtain ⟨rfl, hk⟩ := hnew
      cases hk
      refine ⟨_, { op := op, prog := op.operation.deliver dbObj }, List.getElem?_concat_length, ?_, ?_⟩
      · rw [← h.length]
        exact List.getElem?_concat_length
      · exact ⟨⟨r, rfl, hop⟩, rfl, .queued rfl rfl rfl rfl⟩
    | inr hold =>
      obtain ⟨req, w, hk, hw, hserves⟩ := h.serves i k hold.2
      exact ⟨req, w, Table.append_left hk, Table.append_left hw, hserves⟩
  · intro i w hi hw
    cases Table.get_append hi with
    | inl hnew => cases hnew.2
    | inr hold =>
      cases Table.get_append hw with
      | inl hnew =>
        have hlen := h.length
        omega
      | inr hw => exact h.returned i w hold.2 hw.2
  · intro call hcall
    rw [show p.main = some call from hcall] at hmain
    cases hmain

/-- One request and its worker move on together. -/
theorem Serving.Refines.move {i k : Nat} {req req' : EioReq} {w w' : Worker} {engine : Engine}
    (h : p.Refines j dbObj v) (hi : p.ops[i]? = some (some k))
    (hk : p.system.requests[k]? = some req) (hw : v.workers[i]? = some w)
    (hrequests : s.requests = p.system.requests.set k req')
    (hf : s.fieldsOf j = some dbObj) (hb : ∃ n, Balanced n s) (hserves : Serves j dbObj req' w') :
    Serving.Refines j dbObj { p with system := s, engine := engine }
      { engine := engine, workers := v.workers.set i w' } := by
  have hother : ∀ i' : Nat, p.ops[i']? = some none → i' ≠ i := by
    rintro i' hi' rfl
    rw [hi] at hi'
    cases hi'
  refine ⟨rfl, hf, hb, by simp [h.length], ?_, h.once, ?_, ?_, ?_⟩
  · intro k' x hx hj hc
    rw [hrequests] at hx
    cases Table.get_set hk hx with
    | inl hself =>
      obtain ⟨rfl, rfl⟩ := hself
      exact ⟨i, hi⟩
    | inr hother => exact h.known k' x hother.2 hj hc
  · intro i' k' hi'
    by_cases hii : i' = i
    · subst hii
      rw [hi] at hi'
      cases hi'
      refine ⟨req', w', ?_, Table.set_self hw, hserves⟩
      rw [hrequests]
      exact Table.set_self hk
    · have hkk : k' ≠ k := by
        rintro rfl
        exact hii (h.once i' i k' hi' hi)
      obtain ⟨x, u, hx, hu, hs⟩ := h.serves i' k' hi'
      refine ⟨x, u, ?_, (Table.set_other hii).trans hu, hs⟩
      rw [hrequests]
      exact (Table.set_other hkk).trans hx
  · intro i' u hi' hu
    rw [Table.set_other (hother i' hi')] at hu
    exact h.returned i' u hi' hu
  · intro call hcall
    obtain ⟨hnone, u, hu, hfollows⟩ := h.inside call hcall
    exact ⟨hnone, u, (Table.set_other (hother _ hnone)).trans hu, hfollows⟩

theorem Serving.Refines.bdb {k : Nat} {req : EioReq} {c : Call Bytes} {r : Reply c}
    {engine : Engine} (h : p.Refines j dbObj v) (hs : p.system.step (.bdb k c r) = some s)
    (hk : p.system.requests[k]? = some req) (hj : req.job.object = .db j)
    (he : p.engine.Step moves ⟨c, r⟩ engine) :
    ∃ i v', Service.Step moves dbObj v (.bdb i ⟨c, r⟩) v' ∧
      Serving.Refines j dbObj { p with system := s, engine := engine } v' := by
  have hstep := step_cases hs
  obtain ⟨n, hb⟩ := h.balanced
  have hbal := hb.step hstep
  cases hstep with
  | @bdb k req' c r next hk' hstage =>
    rw [hk] at hk'
    cases hk'
    have hc : req.stage ≠ .completed := by
      rw [hstage]
      simp
    obtain ⟨i, hi⟩ := h.known k req hk hj hc
    obtain ⟨x, w, hx, hw, hserves⟩ := h.serves i k hi
    rw [hk] at hx
    cases hx
    obtain ⟨hprog, hresp⟩ := hserves.follows.program hstage
    refine ⟨i, _, .bdb hw hprog (h.engine ▸ he), ?_⟩
    apply h.move hi hk hw rfl ?_ ⟨n, hbal⟩
    · refine ⟨hserves.request, ?_, .working rfl rfl hresp⟩
      rw [hserves.calls]
    · exact h.fields

theorem Serving.Refines.begin {i k : Nat} {req : EioReq} {job : Job} (h : p.Refines j dbObj v)
    (hs : p.system.step (.begin k) = some s) (hi : p.ops[i]? = some (some k))
    (hk : p.system.requests[k]? = some req) (hstage : req.stage = .working (.ret job)) :
    ∃ v', Service.Step moves dbObj v (.respond i (.of req.calls job.after)) v' ∧
      Serving.Refines j dbObj { p with system := s } v' := by
  have hstep := step_cases hs
  obtain ⟨n, hb⟩ := h.balanced
  have hbal := hb.step hstep
  cases hstep with
  | @begin k req' job' hk' hstage' hcur =>
    rw [hk] at hk'
    cases hk'
    obtain ⟨x, w, hx, hw, hserves⟩ := h.serves i k hi
    rw [hk] at hx
    cases hx
    obtain ⟨hprog, hresp⟩ := hserves.follows.program hstage
    have hresult : w.result job.after = .of req.calls job.after := by
      rw [Worker.result, hserves.calls]
    rw [← hresult]
    refine ⟨_, .respond hw hprog hresp, ?_⟩
    rw [h.engine]
    apply h.move hi hk hw rfl ?_ ⟨n, hbal⟩
    · exact ⟨hserves.request, hserves.calls, .answered (.inl rfl) rfl⟩
    · exact h.fields

theorem direct_step {m : SyncMethod} {args : List JsValue} {o : Oracle (Call Bytes) Reply}
    {c : DirectCall Bytes} {t : BdbTrace Bytes} {d : Delivery}
    (hs : s.step (.js (.db j (.direct m args o))) = some s') (hm : m.parse args = .ok c)
    (hf : s.fieldsOf j = some dbObj) (hd : exec o [] (c.deliver dbObj) = (t, d)) :
    s' = { s with log := s.log ++ [.direct j t d] } := by
  obtain ⟨-, out, hjs⟩ := step_js hs
  obtain ⟨db, hdb, h⟩ := Option.bind_eq_some_iff.mp hjs
  rw [System.fieldsOf, hdb] at hf
  cases hf
  simp only [System.checked, hm, hd, Option.some.injEq, Prod.mk.injEq] at h
  exact h.2.symm

/-- The main thread enters a synchronous method. -/
theorem Serving.Refines.enter {c : DirectCall Bytes} {op : Invocation} (h : p.Refines j dbObj v)
    (hmain : p.main = none) (hop : op.operation = .direct c) :
    Serving.Refines j dbObj
      { p with
        ops := p.ops ++ [none]
        main := some { index := p.ops.length, op := op, prog := c.deliver dbObj } }
      { v with workers := v.workers ++ [{ op := op, prog := op.operation.deliver dbObj }] } := by
  refine ⟨h.engine, h.fields, h.balanced, by simp [h.length], ?_, ?_, ?_, ?_, ?_⟩
  · intro k req hk hj hc
    obtain ⟨i, hi⟩ := h.known k req hk hj hc
    exact ⟨i, Table.append_left hi⟩
  · intro i i' k hi hi'
    cases Table.get_append hi with
    | inl hnew => cases hnew.2
    | inr hold =>
      cases Table.get_append hi' with
      | inl hnew' => cases hnew'.2
      | inr hold' => exact h.once i i' k hold.2 hold'.2
  · intro i k hi
    cases Table.get_append hi with
    | inl hnew => cases hnew.2
    | inr hold =>
      obtain ⟨req, w, hk, hw, hserves⟩ := h.serves i k hold.2
      exact ⟨req, w, hk, Table.append_left hw, hserves⟩
  · intro i w hi hw
    cases Table.get_append hi with
    | inl hnew => exact .inr ⟨_, rfl, hnew.1.symm⟩
    | inr hold =>
      cases Table.get_append hw with
      | inl hnew =>
        have hlen := h.length
        omega
      | inr hw =>
        apply (h.returned i w hold.2 hw.2).imp_right
        rintro ⟨call, hcall, -⟩
        rw [hmain] at hcall
        cases hcall
  · intro call hcall
    cases hcall
    refine ⟨List.getElem?_concat_length, { op := op, prog := op.operation.deliver dbObj }, ?_, ?_,
      rfl, rfl⟩
    · rw [← h.length]
      exact List.getElem?_concat_length
    · rw [hop]
      rfl

/-- The synchronous method and its worker in the service move on together. -/
theorem Serving.Refines.follow {call : MainCall} {w : Worker} (w' : Worker) (main : Option MainCall)
    (engine : Engine) (h : p.Refines j dbObj v) (hcall : p.main = some call)
    (hw : v.workers[call.index]? = some w)
    (hreturned : (∃ d, w'.prog = .ret d) ∨ ∃ next, main = some next ∧ next.index = call.index)
    (hinside : ∀ next, main = some next → next.index = call.index ∧ w'.prog = next.prog ∧
      w'.calls = next.calls ∧ w'.responded = false) :
    Serving.Refines j dbObj { p with engine := engine, main := main }
      { engine := engine, workers := v.workers.set call.index w' } := by
  obtain ⟨hnone, -⟩ := h.inside call hcall
  refine ⟨rfl, h.fields, h.balanced, by simp [h.length], h.known, h.once, ?_, ?_, ?_⟩
  · intro i k hi
    obtain ⟨req, u, hk, hu, hserves⟩ := h.serves i k hi
    have hne : i ≠ call.index := by
      rintro rfl
      rw [hnone] at hi
      cases hi
    exact ⟨req, u, hk, (Table.set_other hne).trans hu, hserves⟩
  · intro i u hi hu
    cases Table.get_set hw hu with
    | inl hself =>
      obtain ⟨rfl, rfl⟩ := hself
      exact hreturned
    | inr hother =>
      apply Or.inl
      cases h.returned i u hi hother.2 with
      | inl hret => exact hret
      | inr hsame =>
        obtain ⟨call', hcall', hi'⟩ := hsame
        rw [hcall] at hcall'
        cases hcall'
        exact absurd hi'.symm hother.1
  · intro next hnext
    obtain ⟨hindex, hrest⟩ := hinside next hnext
    rw [hindex]
    exact ⟨hnone, w', Table.set_self hw, hrest⟩

theorem Serving.Refines.within {call : MainCall} {c : Call Bytes}
    {next : Reply c → BdbProg Bytes Delivery} {r : Reply c} {engine : Engine}
    (h : p.Refines j dbObj v) (hcall : p.main = some call) (hprog : call.prog = .call c next)
    (he : p.engine.Step moves ⟨c, r⟩ engine) :
    ∃ v', Service.Step moves dbObj v (.bdb call.index ⟨c, r⟩) v' ∧
      Serving.Refines j dbObj
        { p with
          engine := engine
          main := some { call with prog := next r, calls := call.calls ++ [⟨c, r⟩] } } v' := by
  obtain ⟨-, w, hw, hwprog, hcalls, hresp⟩ := h.inside call hcall
  refine ⟨_, .bdb hw (hwprog.trans hprog) (h.engine ▸ he), ?_⟩
  refine .follow _ _ engine h hcall hw (.inr ?_) ?_
  · exact ⟨_, rfl, rfl⟩
  · intro next' hnext
    cases hnext
    exact ⟨rfl, rfl, by rw [hcalls], hresp⟩

/-- The main thread returns from a synchronous method. -/
theorem Serving.Refines.leave {call : MainCall} {m : SyncMethod} {args : List JsValue}
    {o : Oracle (Call Bytes) Reply} {c : DirectCall Bytes} {d : Delivery}
    (h : p.Refines j dbObj v) (hcall : p.main = some call) (hprog : call.prog = .ret d)
    (hs : p.system.step (.js (.db j (.direct m args o))) = some s) (hm : m.parse args = .ok c)
    (hd : exec o [] (c.deliver dbObj) = (call.calls, d)) :
    ∃ v', Service.Step moves dbObj v (.respond call.index (.of call.calls d)) v' ∧
      Serving.Refines j dbObj { p with system := s, main := none } v' := by
  obtain ⟨-, w, hw, hwprog, hcalls, hresp⟩ := h.inside call hcall
  have hresult : w.result d = .of call.calls d := by rw [Worker.result, hcalls]
  rw [← hresult]
  refine ⟨_, .respond hw (hwprog.trans hprog) hresp, ?_⟩
  have hleft : Serving.Refines j dbObj { p with main := none } _ :=
    .follow { w with responded := true } none p.engine h hcall hw (.inl ⟨d, hwprog.trans hprog⟩)
      (fun next hnext => by cases hnext)
  rw [h.engine]
  obtain ⟨n, hb⟩ := h.balanced
  have hbal := hb.step (step_cases hs)
  obtain rfl := direct_step hs hm h.fields hd
  exact ⟨hleft.engine, hleft.fields, ⟨n, hbal⟩, hleft.length, hleft.known, hleft.once, hleft.serves,
    hleft.returned, hleft.inside⟩

/-- A step of the process is a run of the service. -/
theorem Serving.Refines.step {vs : List (AtomicObject.Visible Nat Invocation Result)} {p' : Serving}
    (h : p.Refines j dbObj v) (hs : Serving.Step moves j dbObj p vs p') :
    ∃ es v', Path (Service.Step moves dbObj) v es v' ∧ es.filterMap ServiceEvent.visible = vs ∧
      p'.Refines j dbObj v' := by
  cases hs with
  | accept hmain hstep hop =>
    refine ⟨_, _, Path.nil.snoc (.invoke _), ?_, h.accept hmain hstep hop⟩
    simp [ServiceEvent.visible, h.length]
  | bdb hstep hk hj he =>
    obtain ⟨i, v', hv, hrefines⟩ := h.bdb hstep hk hj he
    exact ⟨_, v', Path.nil.snoc hv, rfl, hrefines⟩
  | begin _ hstep hi hk hstage =>
    obtain ⟨v', hv, hrefines⟩ := h.begin hstep hi hk hstage
    exact ⟨_, v', Path.nil.snoc hv, rfl, hrefines⟩
  | enter hmain hop =>
    refine ⟨_, _, Path.nil.snoc (.invoke _), ?_, h.enter hmain hop⟩
    simp [ServiceEvent.visible, h.length]
  | inside hcall hprog he =>
    obtain ⟨v', hv, hrefines⟩ := h.within hcall hprog he
    exact ⟨_, v', Path.nil.snoc hv, rfl, hrefines⟩
  | leave hcall hprog hstep hm _ hd =>
    obtain ⟨v', hv, hrefines⟩ := h.leave hcall hprog hstep hm hd
    exact ⟨_, v', Path.nil.snoc hv, rfl, hrefines⟩
  | other _ hstep hw hnew hf =>
    refine ⟨[], v, .nil, rfl, ?_⟩
    cases hw with
    | inl hw => exact h.quiet hstep hw hnew hf
    | inr hsame =>
      rw [hsame]
      exact h

end Refinement

section Run

variable {moves : Moves Int Bytes Bytes} {j : Nat} {dbObj : Db} {m : Contents} {s₀ : System}
  {p : Serving} {vs : List (List (AtomicObject.Visible Nat Invocation Result))}

theorem refines_initial {n : Int} {es : List SysEvent} (hs : FPath System.step (.initial n) es s₀)
    (hf : s₀.fieldsOf j = some dbObj) (hidle : s₀.Idle j) (m : Contents) :
    Serving.Refines j dbObj { system := s₀, engine := .initial m } (.initial m) where
  engine := rfl
  fields := hf
  balanced := ⟨n, (balanced_initial n).path hs⟩
  length := rfl
  known k req hk hj hc := absurd (hidle k req hk hj) hc
  once i i' k hi := by cases hi
  serves i k hi := by cases hi
  returned i w hi := by cases hi
  inside call hcall := by cases hcall

/-- A run of the process is a run of the service with the same history. -/
theorem process_refines {n : Int} {es : List SysEvent}
    (hs : FPath System.step (.initial n) es s₀) (hf : s₀.fieldsOf j = some dbObj)
    (hidle : s₀.Idle j)
    (h : Path (Serving.Step moves j dbObj) { system := s₀, engine := .initial m } vs p) :
    ∃ es v, Path (Service.Step moves dbObj) (.initial m) es v ∧
      es.filterMap ServiceEvent.visible = vs.flatten ∧ p.Refines j dbObj v := by
  apply h.invariant (I := fun vs p => ∃ es v, Path (Service.Step moves dbObj) (.initial m) es v ∧
    es.filterMap ServiceEvent.visible = vs.flatten ∧ p.Refines j dbObj v)
  · exact ⟨[], _, .nil, rfl, refines_initial hs hf hidle m⟩
  · intro vs p x p' hi hstep
    obtain ⟨es, v, hv, hvis, hrefines⟩ := hi
    obtain ⟨es', v', hv', hvis', hrefines'⟩ := hrefines.step hstep
    refine ⟨es ++ es', v', hv.append hv', ?_, hrefines'⟩
    rw [List.filterMap_append, hvis, hvis', List.flatten_append, List.flatten_singleton]

end Run

/-- Whatever else the process does, what its clients see of an open transactional Db is
linearizable. -/
theorem process_linearizable (moves : Moves Int Bytes Bytes) (j : Nat) (dbObj : Db)
    (ht : dbObj._transactional = true) (ho : dbObj._db ≠ none) (m : Contents) (n : Int)
    (es : List SysEvent) (s₀ : System) (hs : FPath System.step (.initial n) es s₀)
    (hf : s₀.fieldsOf j = some dbObj) (hidle : s₀.Idle j)
    (vs : List (List (AtomicObject.Visible Nat Invocation Result))) (p : Serving)
    (h : Path (Serving.Step moves j dbObj) { system := s₀, engine := .initial m } vs p) :
    ∃ effects, AtomicObject.Linearizes (Invocation.Does moves) m vs.flatten p.engine.store.data
      effects := by
  obtain ⟨es', v, hv, hvis, hrefines⟩ := process_refines hs hf hidle h
  obtain ⟨o, effects, hmatch, hl⟩ := service_matches moves ht ho hv
  rw [hmatch.state, hvis, hrefines.engine] at hl
  exact ⟨effects, hl⟩

/-- The engine answers the synchronous method the main thread is in through to its return. -/
theorem main_runs {moves : Moves Int Bytes Bytes} {j : Nat} {dbObj : Db} {t : BdbTrace Bytes}
    {d : Delivery} {p : Serving} {call : MainCall} {engine : Engine} (hcall : p.main = some call)
    (hr : Runs call.prog t d) (hp : Path (Engine.Step moves) p.engine t engine) :
    Path (Serving.Step moves j dbObj) p (t.map fun _ => [])
      { p with
        engine := engine
        main := some { call with prog := .ret d, calls := call.calls ++ t } } := by
  induction t generalizing p call with
  | nil =>
    obtain rfl := hp.unchanged
    rw [← runs_nil hr, List.append_nil, ← hcall]
    exact .nil
  | cons e t ih =>
    obtain ⟨c, r⟩ := e
    obtain ⟨k, hk, hrest⟩ := runs_cons hr
    obtain ⟨engine₁, hstep, hpath⟩ := hp.first
    have hone : Serving.Step moves j dbObj p []
        { p with
          engine := engine₁
          main := some { call with prog := k r, calls := call.calls ++ [⟨c, r⟩] } } :=
      .inside hcall hk hstep
    have hmore := (Path.nil.snoc hone).append (ih rfl hrest hpath)
    simpa using hmore

/-- A transactional environment, and two Dbs on it of which the second is opened. -/
def openingRun : List SysEvent :=
  [.js (.newDbEnv 0), .js (.env 0 (.sync .openS [.string "env", .number 2048, .number 0] 0)),
   .js (.newDb [.wrapper (.env 0)] 0), .js (.newDb [.wrapper (.env 0)] 0),
   .js (.db 1 (.sync .openS [.string "db", .number 1, .number 0, .number 0, .number 1] 0))]

def putScript : Script :=
  .db 1 (.request .put [.buffer [107], .buffer [118], .number 0, .function 5] [])

def putJob : Job := .db 1 putRequest.request { putRequest.request.baton with status := 0 }

def putCalls : BdbTrace Bytes :=
  [⟨.txnBegin (some 0), (0, 7)⟩,
   ⟨.put (some 1) (some 7) (buffer [107]) (buffer [118]) 0, (0 : Int)⟩, ⟨.commit 7, (0 : Int)⟩]

theorem putJob_runs : Runs (Job.workDb 1 putRequest.request putRequest.request.baton openDb)
    putCalls putJob := by
  simp [Job.workDb, putRequest, KeyRequest.request, Request.worker, eioPut, openDb, txn, again,
    putBody, EIODbBaton.statusVar, Request.baton, putJob, putCalls]

def openedSystem : System := (run System.step (.initial 1) openingRun).getD (.initial 1)

/-- The put, from its submission to its callback. -/
def putHistory : List (List (AtomicObject.Visible Nat Invocation Result)) :=
  [[.invoke 0 (.request putRequest)], [], [], [], [], [.respond 0 (.of putCalls putJob.after)]]

theorem opened_put : ∃ p, Path (Serving.Step btreeMoves 1 openDb)
    { system := openedSystem, engine := .initial fun _ => none } putHistory p := by
  obtain ⟨k₁, h₁, hruns⟩ := runs_cons putJob_runs
  obtain ⟨k₂, h₂, hruns⟩ := runs_cons hruns
  obtain ⟨k₃, h₃, hruns⟩ := runs_cons hruns
  have hkept : ∀ {s : System} (k : Nat) (req : EioReq), s.requests[k]? = some req →
      req.job.object = .db 1 → k < s.requests.length :=
    fun k req hk _ => (List.getElem?_eq_some_iff.mp hk).1
  have haccept : Serving.Step btreeMoves 1 openDb
      { system := openedSystem, engine := .initial fun _ => none } [.invoke 0 (.request putRequest)] _ :=
    .accept (c := putScript) (r := putRequest.request) rfl rfl rfl
  have hs := Path.nil.snoc haccept
  have hstart := hs.snoc (.other (e := .start 0) (.inl rfl) rfl (.inl rfl) hkept rfl)
  let req (calls : BdbTrace Bytes) (q : BdbProg Bytes Job) : EioReq :=
    { job := .db 1 putRequest.request putRequest.request.baton, cb := 5, captured := [],
      calls := calls, stage := .working q }
  let q := Job.workDb 1 putRequest.request putRequest.request.baton openDb
  have hbegin := hstart.snoc (.bdb (k := 0)
    (step_bdb (show _ = some (req [] q) from rfl) (congrArg Stage.working h₁) _)
    (show _ = some (req [] q) from rfl) rfl (.txnBegin (x := 7) rfl))
  have hput := hbegin.snoc (.bdb (k := 0)
    (step_bdb (show _ = some (req (putCalls.take 1) (k₁ (0, 7))) from rfl)
      (congrArg Stage.working h₂) _)
    (show _ = some (req (putCalls.take 1) (k₁ (0, 7))) from rfl) rfl
    (show Engine.Step btreeMoves _
        ⟨.put (some 1) (some 7) (buffer [107]) (buffer [118]) 0, (0 : Int)⟩ _ from
      .access (x := 7) rfl rfl ⟨[], rfl, trivial, fun y log' hy hlog => by
        simp [Engine.initial, RangeLocks.Store.begin, RangeLocks.Store.put, hy] at hlog⟩))
  have hcommit := hput.snoc (.bdb (k := 0)
    (step_bdb (show _ = some (req (putCalls.take 2) (k₂ (0 : Int))) from rfl) (congrArg Stage.working h₃) _)
    (show _ = some (req (putCalls.take 2) (k₂ (0 : Int))) from rfl) rfl
    (show Engine.Step btreeMoves _ ⟨.commit 7, (0 : Int)⟩ _ from .commit
      (by simp [RangeLocks.Store.record, RangeLocks.Store.begin])))
  exact ⟨_, hcommit.snoc (.begin (i := 0) (k := 0) rfl
    (step_begin (show _ = some (req putCalls (k₃ (0 : Int))) from rfl)
      (congrArg Stage.working (runs_nil hruns)) rfl)
    rfl (show _ = some (req putCalls (k₃ (0 : Int))) from rfl) (congrArg Stage.working (runs_nil hruns)))⟩

theorem opened_put_linearizable :
    ∃ p, Path (Serving.Step btreeMoves 1 openDb)
        { system := openedSystem, engine := .initial fun _ => none } putHistory p ∧
      ∃ effects, AtomicObject.Linearizes (Invocation.Does btreeMoves) (fun _ => none)
        putHistory.flatten p.engine.store.data effects := by
  obtain ⟨p, h⟩ := opened_put
  refine ⟨p, h, process_linearizable btreeMoves 1 openDb rfl (by decide) _ 1 openingRun openedSystem
    (run_path rfl) rfl ?_ putHistory p h⟩
  intro k req hk
  cases hk

end NodeBdb
