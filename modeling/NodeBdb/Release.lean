import NodeBdb.Serving

/-!
# Nothing stays locked

A transaction that nobody ends keeps its locks for ever, and so does a cursor that nobody closes.
Every transaction and every cursor that the engine holds belongs to the session of a worker, or of
a synchronous method, between two of its calls. So where no request of the Db is being worked on
and the main thread is in none of its methods, nothing is held.
-/

namespace NodeBdb

open Interaction Transition RangeLocks

section Owned

variable {moves : Moves Int Bytes Bytes} {s s' : Engine}

/-- What the engine holds after a reply it held before, or the caller has it now; and the caller
keeps what it had as long as the engine does. -/
structure Engine.Passes (s s' : Engine) (m m' : Handles) : Prop where
  active : ∀ x, s'.store.active x ≠ none →
    (s.store.active x ≠ none ∨ m'.live = some x) ∧ (m.live = some x → m'.live = some x)
  placed : ∀ k, s'.cursors k ≠ none →
    (s.cursors k ≠ none ∨ m'.cursor = some k) ∧ (m.cursor = some k → m'.cursor = some k)

theorem place_other (s : Engine) {k k' : CursorHandle} (p : Option (TxnHandle × Option Bytes))
    (h : k' ≠ k) : (s.place k p).cursors k' = s.cursors k' := Function.update_of_ne h _ _

theorem record_active {x y : TxnHandle} {a : Access Bytes Bytes} (st : Store Bytes Bytes TxnHandle)
    (h : (st.record x a).active y ≠ none) : st.active y ≠ none := by
  by_cases hy : y = x
  · subst hy
    intro hnone
    exact h ((Store.put_active_self _ _ _).trans (by rw [hnone]; rfl))
  · rwa [Store.record, Store.put_active_other st _ hy] at h

theorem discard_active {x y : TxnHandle} (st : Store Bytes Bytes TxnHandle)
    (h : (st.discard x).active y ≠ none) : y ≠ x ∧ st.active y ≠ none := by
  have hy : y ≠ x := by
    rintro rfl
    exact h (Store.put_active_self _ _ _)
  refine ⟨hy, ?_⟩
  rwa [Store.discard, Store.put_active_other st _ hy] at h

/-- The handles of the caller do not change. -/
theorem Engine.Passes.stay {m : Handles} (ha : ∀ x, s'.store.active x ≠ none → s.store.active x ≠ none)
    (hp : ∀ k, s'.cursors k ≠ none → s.cursors k ≠ none) : s.Passes s' m m :=
  ⟨fun x hx => ⟨.inl (ha x hx), id⟩, fun k hk => ⟨.inl (hp k hk), id⟩⟩

/-- The caller's transaction ends, its cursor having been closed. -/
theorem Engine.Passes.resolve {x : TxnHandle} {m m' : Handles} (hl : m.live = some x)
    (hc : m.cursor = none) (ha : ∀ y, s'.store.active y ≠ none → y ≠ x ∧ s.store.active y ≠ none)
    (hp : s'.cursors = s.cursors) : s.Passes s' m m' where
  active y hy := by
    refine ⟨.inl (ha y hy).2, fun hm => ?_⟩
    rw [hl] at hm
    exact absurd (Option.some.inj hm).symm (ha y hy).1
  placed k hk := by
    rw [hp] at hk
    refine ⟨.inl hk, fun hm => ?_⟩
    rw [hc] at hm
    cases hm

theorem Engine.Step.passes {e : BdbEvent Bytes} {m : Handles} (hm : discipline.admits m e.1)
    (h : s.Step moves e s') : s.Passes s' m (discipline.next m e.1 e.2) := by
  cases h with
  | @refused env c x hc =>
    have hnext : discipline.next m (.txnBegin env : Call Bytes) (c, x) = m := if_neg hc
    rw [hnext]
    exact .stay (fun _ hy => hy) fun _ hk => hk
  | @txnBegin env x hx =>
    constructor
    · intro y hy
      refine ⟨?_, fun hl => ?_⟩
      · by_cases hyx : y = x
        · subst hyx
          exact .inr rfl
        · rw [Store.begin, Store.put_active_other s.store _ hyx] at hy
          exact .inl hy
      · rw [hm.1] at hl
        cases hl
    · intro k hk
      refine ⟨.inl hk, fun hc => ?_⟩
      rw [hm.2.1] at hc
      cases hc
  | @access e x a hd _ _ =>
    obtain ⟨c, r⟩ := e
    cases c <;> first | cases hd | exact .stay (fun _ hy => record_active s.store hy) fun _ hk => hk
  | @fault e x hd _ _ =>
    obtain ⟨c, r⟩ := e
    cases c <;> first | cases hd | exact .stay (fun _ hy => hy) fun _ hk => hk
  | @opened db x k hx hk =>
    constructor
    · exact fun y hy => ⟨.inl hy, id⟩
    · intro k' hk'
      refine ⟨?_, fun hc => ?_⟩
      · by_cases hkk : k' = k
        · subst hkk
          exact .inr rfl
        · rw [place_other s _ hkk] at hk'
          exact .inl hk'
      · rw [hm.2] at hc
        cases hc
  | @unopened db x c k hx hf =>
    have hnext : discipline.next m (.cursor db (some x) : Call Bytes) (c, k) = m := if_neg hf.1
    rw [hnext]
    exact .stay (fun _ hy => hy) fun _ hk => hk
  | @found k x pos key val flags r hk hg =>
    apply Engine.Passes.stay fun _ hy => record_active s.store hy
    intro k' hk'
    by_cases hkk : k' = k
    · subst hkk
      rw [hk]
      exact Option.some_ne_none _
    · change (s.place k _).cursors k' ≠ none at hk'
      rwa [place_other s _ hkk] at hk'
  | missing => exact .stay (fun _ hy => record_active s.store hy) fun _ hk => hk
  | unmoved => exact .stay (fun _ hy => hy) fun _ hk => hk
  | @closed k c hk hc =>
    constructor
    · exact fun y hy => ⟨.inl hy, id⟩
    · intro k' hk'
      have hkk : k' ≠ k := by
        rintro rfl
        exact hk' (Function.update_self _ _ _)
      rw [place_other s _ hkk] at hk'
      refine ⟨.inl hk', fun hcur => ?_⟩
      rw [hm.1] at hcur
      exact absurd (Option.some.inj hcur).symm hkk
  | commit => exact .resolve hm.1 hm.2.1 (fun y hy => discard_active s.store hy) rfl
  | commitFailed => exact .resolve hm.1 hm.2.1 (fun y hy => discard_active s.store hy) rfl
  | abort => exact .resolve hm.1 hm.2.1 (fun y hy => discard_active s.store hy) rfl
  | load => exact .stay (fun _ hy => hy) fun _ hk => hk

/-- Whatever the engine holds is in the session of some worker, whose calls so far are `calls i`. -/
structure Engine.Owned (moves : Moves Int Bytes Bytes) (s : Engine) (calls : Nat → BdbTrace Bytes) :
    Prop where
  active : ∀ x, s.store.active x ≠ none → ∃ i, (session moves (calls i)).map Session.txn = some x
  placed : ∀ k, s.cursors k ≠ none →
    ∃ i, ((session moves (calls i)).bind fun a => a.cursor.map Prod.fst) = some k

/-- A reply to a call that the discipline admits leaves nothing without an owner. -/
theorem Engine.Owned.step {calls : Nat → BdbTrace Bytes} {i : Nat} (h : s.Owned moves calls)
    {e : BdbEvent Bytes} {m : Handles} (hm : discipline.admits m e.1)
    (hag : Session.Agrees (session moves (calls i)) m) (hr : s.Step moves e s') :
    s'.Owned moves (Function.update calls i (calls i ++ [e])) := by
  have hpass := hr.passes hm
  have hnext : Session.Agrees (session moves (Function.update calls i (calls i ++ [e]) i))
      (discipline.next m e.1 e.2) := by
    rw [Function.update_self, session_append]
    exact hag.step hm
  constructor
  · intro x hx
    obtain ⟨hold, hkept⟩ := hpass.active x hx
    cases hold with
    | inr hnew => exact ⟨i, hnext.live.trans hnew⟩
    | inl hold =>
      obtain ⟨j, hj⟩ := h.active x hold
      by_cases hji : j = i
      · subst hji
        exact ⟨j, hnext.live.trans (hkept (hag.live.symm.trans hj))⟩
      · exact ⟨j, by rwa [Function.update_of_ne hji]⟩
  · intro k hk
    obtain ⟨hold, hkept⟩ := hpass.placed k hk
    cases hold with
    | inr hnew => exact ⟨i, hnext.cursor.trans hnew⟩
    | inl hold =>
      obtain ⟨j, hj⟩ := h.placed k hold
      by_cases hji : j = i
      · subst hji
        exact ⟨j, hnext.cursor.trans (hkept (hag.cursor.symm.trans hj))⟩
      · exact ⟨j, by rwa [Function.update_of_ne hji]⟩

end Owned

/-! ## In the service -/

section Service

variable {moves : Moves Int Bytes Bytes} {dbObj : Db} {s s' : Service}

theorem Service.Step.owned {e : ServiceEvent} {o : AtomicObject.Object Nat Invocation Result Contents}
    (ht : dbObj._transactional = true) (hmatch : s.Matches moves dbObj o)
    (h : s.engine.Owned moves s.calls) (hs : Service.Step moves dbObj s e s') :
    s'.engine.Owned moves s'.calls := by
  cases hs with
  | invoke op =>
    rw [calls_invoke s _ rfl]
    exact h
  | @respond i w d hi hd hr =>
    have hsame : Function.update s.calls i w.calls = s.calls := by
      rw [Function.update_eq_self_iff, s.calls_worker hi]
    rw [calls_set hi, hsame]
    exact h
  | @bdb i w c k r engine hi hc hstep =>
    obtain ⟨m, hag, hm⟩ := hmatch.admitted ht hi hc
    rw [calls_set hi, ← s.calls_worker hi]
    exact h.step hm hag hstep

theorem service_owned (ht : dbObj._transactional = true) (ho : dbObj._db ≠ none) {m : Contents}
    {es : List ServiceEvent} (h : Path (Service.Step moves dbObj) (Service.initial m) es s) :
    s.engine.Owned moves s.calls := by
  have hboth : Path (Service.Step moves dbObj) (Service.initial m) es s ∧
      s.engine.Owned moves s.calls := by
    apply h.invariant (I := fun es s => Path (Service.Step moves dbObj) (Service.initial m) es s ∧
      s.engine.Owned moves s.calls)
    · exact ⟨.nil, ⟨fun x hx => absurd rfl hx, fun k hk => absurd rfl hk⟩⟩
    · intro es s e s' hi hs
      obtain ⟨o, effects, hmatch, -⟩ := service_matches moves ht ho hi.1
      exact ⟨hi.1.snoc hs, hs.owned ht hmatch hi.2⟩
  exact hboth.2

/-- A worker that has returned is in no transaction. -/
theorem returned_session (moves : Moves Int Bytes Bytes) (ht : dbObj._transactional = true)
    {op : Operation Bytes} {t : BdbTrace Bytes} {d : Delivery} (h : Runs (op.deliver dbObj) t d) :
    session moves t = none := by
  obtain ⟨m, ha, b, rfl⟩ := (operation_obeys ht op).runs h (answered _ _)
  have hag : Session.Agrees (session moves t) _ := session_agrees (a := none) ha ⟨rfl, rfl⟩
  exact Option.map_eq_none_iff.mp hag.live

end Service

/-! ## In the process -/

/-- A request of Db `j`, or the synchronous method the main thread is in, stands between two calls,
and what it is in is this session. -/
inductive Serving.Works (moves : Moves Int Bytes Bytes) (j : Nat) (p : Serving) (a : Session) : Prop where
  | request {k : Nat} {req : EioReq} : p.system.requests[k]? = some req → req.job.object = .db j →
      req.stage.isBusy = true → session moves req.calls = some a → Works moves j p a
  | direct {call : MainCall} {c : Call Bytes} {next : Reply c → BdbProg Bytes Delivery} :
      p.main = some call → call.prog = .call c next → session moves call.calls = some a →
      Works moves j p a

section Process

variable {moves : Moves Int Bytes Bytes} {j : Nat} {dbObj : Db} {p : Serving} {v : Service}

/-- A worker of the service that is in a transaction stands for one of these. -/
theorem Serving.Refines.works {o : AtomicObject.Object Nat Invocation Result Contents}
    (ht : dbObj._transactional = true) (h : p.Refines j dbObj v) (hmatch : v.Matches moves dbObj o)
    {i : Nat} {a : Session} (hi : session moves (v.calls i) = some a) : p.Works moves j a := by
  obtain ⟨w, hw⟩ : ∃ w, v.workers[i]? = some w := by
    by_contra hno
    have hnone := Option.eq_none_iff_forall_ne_some.mpr fun w hw => hno ⟨w, hw⟩
    rw [Service.calls, hnone] at hi
    cases hi
  rw [v.calls_worker hw] at hi
  -- a worker that has returned is in no session
  have hprog : ∀ d, w.prog ≠ .ret d := by
    intro d hd
    have hreach := hmatch.reaches i w hw
    rw [hd] at hreach
    rw [returned_session moves ht (reaches_ret hreach)] at hi
    cases hi
  have hlt := (List.getElem?_eq_some_iff.mp hw).1
  rw [h.length] at hlt
  have hops := List.getElem?_eq_getElem hlt
  cases hop : p.ops[i] with
  | none =>
    rw [hop] at hops
    cases h.returned i w hops hw with
    | inl hret =>
      obtain ⟨d, hd⟩ := hret
      exact absurd hd (hprog d)
    | inr hmain =>
      obtain ⟨call, hcall, rfl⟩ := hmain
      obtain ⟨-, u, hu, hwprog, hcalls, -⟩ := h.inside call hcall
      rw [hw] at hu
      cases hu
      cases hc : call.prog with
      | ret d => exact absurd (hwprog.trans hc) (hprog d)
      | call c next => exact .direct hcall hc (hcalls ▸ hi)
  | some k =>
    rw [hop] at hops
    obtain ⟨req, w', hk, hw', hserves⟩ := h.serves i k hops
    rw [hw] at hw'
    cases hw'
    obtain ⟨r, hjob, -⟩ := hserves.request
    refine .request hk (by rw [hjob]; rfl) ?_ (hserves.calls ▸ hi)
    cases hserves.follows with
    | queued _ hcalls =>
      rw [hserves.calls, hcalls] at hi
      cases hi
    | @working q hs hq =>
      rw [hs]
      cases q with
      | ret job => exact absurd hq (hprog job.after)
      | call c next => rfl
    | answered _ hresp =>
      obtain ⟨d, hd⟩ := hmatch.returned i w hw hresp
      exact absurd hd (hprog d)

end Process

/-- In every run of the process, each transaction and each cursor that Berkeley DB holds is that of
a request or a method between two calls; so where there is none, nothing is held or locked. -/
theorem process_releases (moves : Moves Int Bytes Bytes) (j : Nat) (dbObj : Db)
    (ht : dbObj._transactional = true) (ho : dbObj._db ≠ none) (m : Contents) (n : Int)
    (es : List SysEvent) (s₀ : System) (hs : FPath System.step (.initial n) es s₀)
    (hf : s₀.fieldsOf j = some dbObj) (hidle : s₀.Idle j)
    (vs : List (List (AtomicObject.Visible Nat Invocation Result))) (p : Serving)
    (h : Path (Serving.Step moves j dbObj) { system := s₀, engine := .initial m } vs p) :
    (∀ x, p.engine.store.active x ≠ none → ∃ a, p.Works moves j a ∧ a.txn = x) ∧
      (∀ c, p.engine.cursors c ≠ none → ∃ a pos, p.Works moves j a ∧ a.cursor = some (c, pos)) ∧
      (p.system.busy j = false → p.main = none →
        (∀ x, p.engine.store.active x = none) ∧ ∀ c, p.engine.cursors c = none) := by
  obtain ⟨es', v, hv, -, hrefines⟩ := process_refines hs hf hidle h
  obtain ⟨o, effects, hmatch, -⟩ := service_matches moves ht ho hv
  have howned := service_owned ht ho hv
  rw [hrefines.engine] at howned
  have hactive : ∀ x, p.engine.store.active x ≠ none → ∃ a, p.Works moves j a ∧ a.txn = x := by
    intro x hx
    obtain ⟨i, hi⟩ := howned.active x hx
    obtain ⟨a, ha, hax⟩ := Option.map_eq_some_iff.mp hi
    exact ⟨a, hrefines.works ht hmatch ha, hax⟩
  have hplaced : ∀ c, p.engine.cursors c ≠ none →
      ∃ a pos, p.Works moves j a ∧ a.cursor = some (c, pos) := by
    intro c hc
    obtain ⟨i, hi⟩ := howned.placed c hc
    obtain ⟨a, ha, hac⟩ := Option.bind_eq_some_iff.mp hi
    obtain ⟨⟨c', pos⟩, hpos, hcc⟩ := Option.map_eq_some_iff.mp hac
    cases hcc
    exact ⟨a, pos, hrefines.works ht hmatch ha, hpos⟩
  refine ⟨hactive, hplaced, fun hbusy hmain => ?_⟩
  have hnone : ∀ a, ¬ p.Works moves j a := by
    intro a ha
    cases ha with
    | @request k req hk hj hb _ =>
      have hany : p.system.busy j = true := by
        refine List.any_eq_true.mpr ⟨req, List.mem_of_getElem? hk, ?_⟩
        simp [hj, hb]
      rw [hbusy] at hany
      cases hany
    | direct hcall =>
      rw [hmain] at hcall
      cases hcall
  constructor
  · intro x
    by_contra hx
    obtain ⟨a, ha, -⟩ := hactive x hx
    exact hnone a ha
  · intro c
    by_contra hc
    obtain ⟨a, pos, ha, -⟩ := hplaced c hc
    exact hnone a ha

theorem opened_put_releases :
    ∃ p, Path (Serving.Step btreeMoves 1 openDb)
        { system := openedSystem, engine := .initial fun _ => none } putHistory p ∧
      (∀ x, p.engine.store.active x ≠ none → ∃ a, p.Works btreeMoves 1 a ∧ a.txn = x) ∧
      (∀ c, p.engine.cursors c ≠ none → ∃ a pos, p.Works btreeMoves 1 a ∧ a.cursor = some (c, pos)) ∧
      (p.system.busy 1 = false → p.main = none →
        (∀ x, p.engine.store.active x = none) ∧ ∀ c, p.engine.cursors c = none) := by
  obtain ⟨p, h⟩ := opened_put
  refine ⟨p, h, process_releases btreeMoves 1 openDb rfl (by decide) _ 1 openingRun openedSystem
    (run_path rfl) rfl ?_ putHistory p h⟩
  intro k req hk
  cases hk

end NodeBdb
