import NodeBdb.Success
import NodeBdb.Transition

/-!
# Buffers of pending requests

The pointers of a baton lead into JavaScript Buffers, and all that keeps a Buffer alive is
the script, or the callback whose persistent handle the baton holds. Here memory is bytes
at addresses, a collection may take any Buffer that is out of reach, and a later
allocation may use its storage again. A worker hands on what was passed as long as no
allocation comes to lie over a Buffer that one of the calls left to it may read.
-/

namespace NodeBdb

open Interaction Transition

/-! ## Memory -/

abbrev Address := Nat

abbrev Mem := Nat → UInt8

/-- The storage of a Buffer. -/
structure Region where
  addr : Nat
  len : Nat
  deriving DecidableEq, Repr

def Mem.read (mem : Mem) (r : Region) : Bytes :=
  (List.range r.len).map fun i => mem (r.addr + i)

def Mem.write (mem : Mem) (addr : Nat) (bytes : Bytes) : Mem := fun a =>
  if addr ≤ a ∧ a < addr + bytes.length then bytes.getD (a - addr) 0 else mem a

def Region.Disjoint (r q : Region) : Prop := r.addr + r.len ≤ q.addr ∨ q.addr + q.len ≤ r.addr

instance (r q : Region) : Decidable (r.Disjoint q) := inferInstanceAs (Decidable (_ ∨ _))

theorem read_write_disjoint {mem : Mem} {r q : Region} {bytes : Bytes} (hr : bytes.length = r.len)
    (h : r.Disjoint q) : (mem.write r.addr bytes).read q = mem.read q := by
  refine List.map_congr_left fun i hi => ?_
  have hlt := List.mem_range.mp hi
  have hout : ¬(r.addr ≤ q.addr + i ∧ q.addr + i < r.addr + bytes.length) := by
    rcases h with h | h <;> omega
  simp only [Mem.write, hout, ↓reduceIte]

/-! ## What a call reads of it -/

def Dbt.region (dbt : Dbt Address) : List Region :=
  match dbt.data with
  | .buffer p len => [⟨p, len⟩]
  | _ => []

/-- The Buffers behind the arguments of a request. -/
def Request.regions : Request Address → List Region
  | get key _ => key.region
  | put key val _ => key.region ++ val.region
  | putIf key val oldVal _ => key.region ++ val.region ++ oldVal.region
  | del key _ => key.region
  | cursorGet key _ _ _ => key.region

/-- The caller memory a worker hands to Berkeley DB in this call, or reads itself. -/
def Call.reads : Call Address → List Region
  | .get _ _ key val _ => key.region ++ val.region
  | .put _ _ key val _ => key.region ++ val.region
  | .del _ _ key _ => key.region
  | .cursorGet _ key val _ => key.region ++ val.region
  | .load p len => [⟨p, len⟩]
  | _ => []

@[simp] theorem receive_region (dbt : Dbt Address) (bytes : Bytes) (l : Ledger) :
    (dbt.receive bytes l).1.region = [] := by unfold Dbt.receive; split <;> rfl

/-- A worker may read the Buffers `rs` and no other caller memory. -/
def owned (rs : List Region) : Monitor (Call Address) Reply Unit where
  admits _ c := ∀ q ∈ c.reads, q ∈ rs
  next _ _ _ := ()

section Owned

variable {rs : List Region} {σ : Type}

theorem owned_none {c : Call Address} (h : c.reads = []) : (owned rs).admits () c := by
  simp [owned, h]

theorem contents_owned {α : Type} {Q : Unit → α → Prop} (dbt : Dbt Address)
    {f : Bytes → BdbProg Address α} (hd : ∀ q ∈ dbt.region, q ∈ rs)
    (h : ∀ v, (owned rs).Obeys Q () (f v)) : (owned rs).Obeys Q () (dbt.data.contents >>= f) := by
  obtain ⟨data, flags⟩ := dbt
  cases data with
  | buffer p len => exact ⟨fun q hq => hd q (by simpa [Dbt.region, Call.reads] using hq), fun v _ => h v⟩
  | _ => exact h _

theorem txn_owned {dbObj : Db} {status : Status σ}
    {body : Option TxnHandle → σ → BdbProg Address σ} (I : σ → Prop)
    (hbody : ∀ x s, I s → (owned rs).Obeys (fun _ s' => I s') () (body x s)) (s : σ) (hI : I s) :
    (owned rs).Obeys (fun _ _ => True) () (txn dbObj status body s) :=
  txn_keeps (fun _ => ⟨owned_none rfl, fun _ => owned_none rfl, fun _ => owned_none rfl⟩) hbody s hI

variable {dbObj : Db} {key val oldVal : Dbt Address}

theorem getBody_owned (x : Option TxnHandle) (b : EIODbBaton Address)
    (h : b.key = key ∧ b.val.region = []) :
    (owned key.region).Obeys (fun _ b' => b'.key = key ∧ b'.val.region = []) ()
      (getBody dbObj x b) := by
  simp only [getBody, Prog.call_bind, Prog.ret_bind, obeys_call]
  refine ⟨by simp [owned, Call.reads, h.1, h.2], fun r _ => ?_⟩
  split
  · exact ⟨h.1, receive_region _ _ _⟩
  · exact h

theorem putBody_owned (x : Option TxnHandle) (b : EIODbBaton Address)
    (h : b.key = key ∧ b.val = val) :
    (owned (key.region ++ val.region)).Obeys (fun _ b' => b'.key = key ∧ b'.val = val) ()
      (putBody dbObj x b) :=
  ⟨by simp [owned, Call.reads, h.1, h.2], fun _ _ => h⟩

theorem delBody_owned (x : Option TxnHandle) (b : EIODbBaton Address) (h : b.key = key) :
    (owned key.region).Obeys (fun _ b' => b'.key = key) () (delBody dbObj x b) :=
  ⟨by simp [owned, Call.reads, h], fun _ _ => h⟩

/-- The arguments of a putIf and the local `oldVal`, which never points into a Buffer. -/
structure PutIfArgs (key val oldVal : Dbt Address) (s : PutIfLocals Address) : Prop where
  key : s.baton.key = key
  val : s.baton.val = val
  expected : s.baton.oldVal = oldVal
  found : s.oldVal.region = []

theorem compareAndPut_owned (x : Option TxnHandle) (s : PutIfLocals Address)
    (h : PutIfArgs key val oldVal s) :
    (owned (key.region ++ val.region ++ oldVal.region)).Obeys
      (fun _ s' => PutIfArgs key val oldVal s') () (compareAndPut dbObj x s) := by
  unfold compareAndPut
  split
  · exact ⟨h.key, h.val, h.expected, h.found⟩
  · rw [h.expected]
    refine contents_owned _ (fun q hq => by simp [hq]) fun v => ?_
    dsimp only
    split
    · exact ⟨h.key, h.val, h.expected, h.found⟩
    · refine ⟨fun q hq => ?_, fun _ _ => ⟨h.key, h.val, h.expected, h.found⟩⟩
      simp only [Call.reads, h.key, h.val] at hq
      exact List.mem_append_left _ hq

theorem putIfBody_owned (x : Option TxnHandle) (s : PutIfLocals Address)
    (h : PutIfArgs key val oldVal s) :
    (owned (key.region ++ val.region ++ oldVal.region)).Obeys
      (fun _ s' => PutIfArgs key val oldVal s') () (putIfBody dbObj x s) := by
  simp only [putIfBody, Prog.call_bind, Prog.ret_bind, obeys_call]
  refine ⟨fun q hq => ?_, fun r _ => ?_⟩
  · simp only [Call.reads, h.key, h.found, List.append_nil] at hq
    simp [hq]
  · split
    · exact compareAndPut_owned x _ ⟨h.key, h.val, h.expected, receive_region _ _ _⟩
    · exact ⟨h.key, h.val, h.expected, h.found⟩

/-- The scratch pair of a walk points into the C heap or nowhere. -/
def Scratch (pair : DbtPtr Address × DbtPtr Address) : Prop :=
  pair.1.dbt.region = [] ∧ pair.2.dbt.region = []

theorem cursorError_owned (s : CursorLocals Address) (h : s.baton.key = key) :
    (owned key.region).Obeys (fun _ s' => s'.baton.key = key) () (cursorError s) := by
  unfold cursorError
  split
  · exact ⟨owned_none rfl, fun _ _ => h⟩
  · exact h

theorem walk_owned (k : CursorHandle) (left : Nat) (pair : DbtPtr Address × DbtPtr Address)
    (s : CursorLocals Address) (hl : (s.baton.limit - s.i).toNat = left) (hp : Scratch pair)
    (h : s.baton.key = key) :
    (owned key.region).Obeys (fun _ s' => s'.baton.key = key) () (walk k pair s) := by
  induction left using Nat.strongRecOn generalizing pair s with
  | ind left ih =>
    rw [walk]
    by_cases hlt : s.i < s.baton.limit
    · rw [if_pos hlt]
      refine ⟨by simp [owned, Call.reads, hp.1, hp.2], fun r _ => ?_⟩
      by_cases hr : r.1 = 0
      · simp only [hr, ↓reduceIte]
        refine ih _ ?_ _ _ rfl ⟨rfl, rfl⟩ h
        simp only [CursorLocals.push, CursorLocals.allocPair, EIODbBaton.pushRecord]
        omega
      · simp only [hr, ↓reduceIte]
        exact h
    · rw [if_neg hlt]
      exact h

theorem positionAndWalk_owned (k : CursorHandle) (pair : DbtPtr Address × DbtPtr Address)
    (s : CursorLocals Address) (hp : Scratch pair) (h : s.baton.key = key) :
    (owned key.region).Obeys (fun _ s' => s'.baton.key = key) () (positionAndWalk k pair s) := by
  unfold positionAndWalk CursorLocals.copyKey
  rw [obeys_bind, h]
  refine contents_owned key (fun q hq => hq) fun v => ?_
  simp only [Prog.pure_eq, obeys_ret, Prog.call_bind, Prog.ret_bind, obeys_call]
  refine ⟨fun q hq => ?_, fun got _ => ?_⟩
  · have hk : (s.storeKey pair.1 v).1.dbt.region = [] := rfl
    simp [Call.reads, hk, hp.2] at hq
  · by_cases hg : got.1 = 0
    · simp only [hg, ne_eq, not_true_eq_false, ↓reduceIte, obeys_bind]
      refine (walk_owned k _ _ _ rfl ⟨rfl, rfl⟩ ?_).mono fun _ s' h' => cursorError_owned s' h'
      exact h
    · simp only [hg, ne_eq, not_false_eq_true, ↓reduceIte]
      exact cursorError_owned _ h

theorem cursorGetBody_owned (x : Option TxnHandle) (s : CursorLocals Address)
    (h : s.baton.key = key) :
    (owned key.region).Obeys (fun _ s' => s'.baton.key = key) () (cursorGetBody dbObj x s) := by
  simp only [cursorGetBody, Prog.call_bind, Prog.ret_bind, obeys_call]
  refine ⟨owned_none rfl, fun r _ => ?_⟩
  by_cases hr : r.1 = 0
  · simp only [hr, ne_eq, not_true_eq_false, ↓reduceIte]
    exact positionAndWalk_owned r.2 _ _ ⟨rfl, rfl⟩ h
  · simp only [hr, ne_eq, not_false_eq_true, ↓reduceIte]
    exact cursorError_owned _ h

/-- A worker reads the Buffers of its own request only, through any number of attempts. -/
theorem deliver_owned (dbObj : Db) (r : Request Address) :
    (owned r.regions).Obeys (fun _ _ => True) () (r.deliver dbObj) := by
  by_cases ho : dbObj._db = none
  · rw [Request.deliver, worker_closed ho]
    exact trivial
  · rw [request_bracket ho, obeys_bind]
    cases r with
    | get key flags =>
      exact txn_owned (fun b => b.key = key ∧ b.val.region = [])
        (fun x s => getBody_owned x s) _ ⟨rfl, rfl⟩
    | put key val flags =>
      exact txn_owned (fun b => b.key = key ∧ b.val = val)
        (fun x s => putBody_owned x s) _ ⟨rfl, rfl⟩
    | putIf key val oldVal flags =>
      exact txn_owned (PutIfArgs key val oldVal)
        (fun x s => putIfBody_owned x s) _ ⟨rfl, rfl, rfl, rfl⟩
    | del key flags =>
      exact txn_owned (fun b => b.key = key) (fun x s => delBody_owned x s) _ rfl
    | cursorGet key limit initFlag flags =>
      exact txn_owned (fun s => s.baton.key = key) (fun x s => cursorGetBody_owned x s) _ rfl

end Owned

/-! ## The process -/

/-- An accepted request. `captured` is what its callback's closure holds; `passed` is ghost,
the memory at its submission. -/
structure Pending where
  request : Request Address
  prog : BdbProg Address Delivery
  captured : List Region
  passed : Mem
  called : Bool := false

/-- `live` are the Buffers not yet collected, `roots` the references that scripts hold. -/
structure Process where
  mem : Mem
  live : List Region := []
  roots : List Region := []
  pending : List Pending := []

inductive HeapEvent where
  | alloc : (r : Region) → (bytes : Bytes) → HeapEvent
  | drop : (r : Region) → HeapEvent
  | collect : (r : Region) → HeapEvent
  | submit : (request : Request Address) → (captured : List Region) → HeapEvent
  | work : (i : Nat) → (reply : (c : Call Address) → Reply c) → HeapEvent
  | callback : (i : Nat) → HeapEvent

/-- Berkeley DB answers as it likes; caller memory reads as it is. -/
def Mem.answer (mem : Mem) (reply : (c : Call Address) → Reply c) : (c : Call Address) → Reply c
  | .load p len => mem.read ⟨p, len⟩
  | c => reply c

/-- Held by a script, or by the callback of a request that has not been called. -/
def Process.Reachable (s : Process) (r : Region) : Prop :=
  r ∈ s.roots ∨ ∃ p ∈ s.pending, p.called = false ∧ r ∈ p.captured

instance (s : Process) (r : Region) : Decidable (s.Reachable r) :=
  inferInstanceAs (Decidable (_ ∨ _))

def Process.step (dbObj : Db) (s : Process) : HeapEvent → Option Process
  | .alloc r bytes =>
    if bytes.length = r.len ∧ ∀ q ∈ s.live, r.Disjoint q then
      some { s with mem := s.mem.write r.addr bytes, live := r :: s.live, roots := r :: s.roots }
    else none
  | .drop r => some { s with roots := s.roots.erase r }
  | .collect r => if s.Reachable r then none else some { s with live := s.live.erase r }
  | .submit request captured =>
    if ∀ q ∈ request.regions ++ captured, q ∈ s.roots then
      some { s with pending := s.pending ++
        [{ request := request, prog := request.deliver dbObj, captured := captured,
           passed := s.mem }] }
    else none
  | .work i reply =>
    s.pending[i]?.bind fun p =>
      match p.prog with
      | .call c k =>
        some { s with pending := s.pending.set i { p with prog := k (s.mem.answer reply c) } }
      | .ret _ => none
  | .callback i =>
    s.pending[i]?.bind fun p =>
      match p.prog with
      | .call _ _ => none
      | .ret _ =>
        if p.called then none
        else some { s with roots := p.captured ++ s.roots,
                           pending := s.pending.set i { p with called := true } }

/-- One of the calls left to the worker reads `q`, whatever it takes to get there. -/
def Pending.StillReads (p : Pending) (q : Region) : Prop :=
  ∃ t c k, Reaches p.prog t (.call c k) ∧ q ∈ c.reads

/-- Each Buffer of the next call, as it reads now and as it was passed. -/
def Pending.handed (mem : Mem) (p : Pending) : List (Bytes × Bytes) :=
  match p.prog with
  | .call c _ => c.reads.map fun q => (mem.read q, p.passed.read q)
  | .ret _ => []

/-- Whatever a worker hands on next is what its request was given. -/
def Process.Faithful (s : Process) : Prop :=
  ∀ p ∈ s.pending, ∀ bytes ∈ p.handed s.mem, bytes.1 = bytes.2

instance (s : Process) : Decidable s.Faithful :=
  inferInstanceAs (Decidable (∀ p ∈ s.pending, ∀ bytes ∈ p.handed s.mem, bytes.1 = bytes.2))

/-- An allocation does not lie over a Buffer that a worker still reads. -/
def Careful (s : Process) : HeapEvent → Prop
  | .alloc r _ => ∀ p ∈ s.pending, ∀ q, p.StillReads q → r.Disjoint q
  | _ => True

/-- A call reads what it reads, and later calls are left to the worker until they are made. -/
theorem Pending.reads_next {p : Pending} {c : Call Address} {k : Reply c → BdbProg Address Delivery}
    (hp : p.prog = .call c k) {q : Region} (hq : q ∈ c.reads) : p.StillReads q :=
  ⟨[], c, k, hp ▸ .refl _, hq⟩

theorem Pending.reads_later {p : Pending} {c : Call Address} {k : Reply c → BdbProg Address Delivery}
    (hp : p.prog = .call c k) {r : Reply c} {q : Region}
    (h : Pending.StillReads { p with prog := k r } q) : p.StillReads q := by
  obtain ⟨t, c', k', hreach, hq⟩ := h
  exact ⟨⟨c, r⟩ :: t, c', k', hp ▸ .step hreach, hq⟩

/-- A worker that has just been given its request reads the Buffers of the request only. -/
theorem Pending.reads_regions (dbObj : Db) {p : Pending} (hp : p.prog = p.request.deliver dbObj)
    {q : Region} (h : p.StillReads q) : q ∈ p.request.regions := by
  obtain ⟨t, c, k, hreach, hq⟩ := h
  have howned := deliver_owned dbObj p.request
  rw [← hp] at howned
  obtain ⟨_, -, hc⟩ := howned.reaches hreach (answered_of_forall (fun _ _ _ => trivial) _ _)
  exact hc.1 q hq

/-- What a worker still reads is what was passed. -/
def Process.Intact (s : Process) : Prop :=
  ∀ p ∈ s.pending, ∀ q, p.StillReads q → s.mem.read q = p.passed.read q

theorem Process.Intact.faithful {s : Process} (h : s.Intact) : s.Faithful := by
  intro p hp bytes hb
  unfold Pending.handed at hb
  split at hb
  · rename_i c k hprog
    obtain ⟨q, hq, rfl⟩ := List.mem_map.mp hb
    exact h p hp q (Pending.reads_next hprog hq)
  · cases hb

theorem Process.Intact.step {dbObj : Db} {s s' : Process} {e : HeapEvent} (h : s.Intact)
    (hs : s.step dbObj e = some s') (hc : Careful s e) : s'.Intact := by
  cases e with
  | alloc r bytes =>
    simp only [Process.step] at hs
    split at hs
    · rename_i hr
      cases hs
      intro p hp q hq
      rw [read_write_disjoint hr.1 (hc p hp q hq)]
      exact h p hp q hq
    · cases hs
  | drop r => cases hs; exact h
  | collect r =>
    simp only [Process.step] at hs
    split at hs
    · cases hs
    · cases hs; exact h
  | submit request captured =>
    simp only [Process.step] at hs
    split at hs
    · cases hs
      intro p hp q hq
      cases List.mem_append.mp hp with
      | inl hp => exact h p hp q hq
      | inr hp => rw [List.mem_singleton.mp hp]
    · cases hs
  | work i reply =>
    simp only [Process.step] at hs
    obtain ⟨p, hp, hs⟩ := Option.bind_eq_some_iff.mp hs
    split at hs
    · rename_i c k hprog
      cases hs
      intro p' hp' q hq
      rcases List.mem_or_eq_of_mem_set hp' with hp' | rfl
      · exact h p' hp' q hq
      · exact h p (List.mem_of_getElem? hp) q (Pending.reads_later hprog hq)
    · cases hs
  | callback i =>
    simp only [Process.step] at hs
    obtain ⟨p, hp, hs⟩ := Option.bind_eq_some_iff.mp hs
    split at hs
    · cases hs
    · split at hs
      · cases hs
      · cases hs
        intro p' hp' q hq
        rcases List.mem_or_eq_of_mem_set hp' with hp' | rfl
        · exact h p' hp' q hq
        · exact h p (List.mem_of_getElem? hp) q hq

/-- In every run in which no allocation comes to lie over a Buffer that a worker still reads,
every worker hands on the bytes that were passed, in every attempt. -/
theorem careful_faithful (dbObj : Db) (mem : Mem) (es : List HeapEvent) (s : Process)
    (h : Along (Process.step dbObj) Careful { mem := mem } es s) :
    s.Faithful := by
  have hintact : s.Intact := by
    refine h.invariant (I := fun _ s => s.Intact) (fun p hp => nomatch hp) ?_
    intro _ s e s' hs hstep
    exact hs.step hstep.1 hstep.2
  exact hintact.faithful

/-- A collection does not take a Buffer that a worker still reads. -/
def Spares (s : Process) : HeapEvent → Prop
  | .collect r => ∀ p ∈ s.pending, ¬ p.StillReads r
  | _ => True

/-- Nothing in reach and nothing a worker still reads has been collected. -/
structure Process.Alive (s : Process) : Prop where
  reachable : ∀ r, s.Reachable r → r ∈ s.live
  read : ∀ p ∈ s.pending, ∀ q, p.StillReads q → q ∈ s.live

theorem Process.Alive.careful {dbObj : Db} {s s' : Process} {e : HeapEvent} (h : s.Alive)
    (hs : s.step dbObj e = some s') : Careful s e := by
  cases e with
  | alloc r bytes =>
    simp only [Process.step] at hs
    split at hs
    · rename_i hr
      exact fun p hp q hq => hr.2 q (h.read p hp q hq)
    · cases hs
  | _ => trivial

/-- Replacing a request by one with the same closure, no less called and with no more to read. -/
theorem Process.Alive.set {s : Process} (h : s.Alive) {i : Nat} {p p' : Pending}
    (hp : s.pending[i]? = some p) (hc : p'.captured = p.captured)
    (hcalled : p'.called = false → p.called = false) (hread : ∀ q, p'.StillReads q → p.StillReads q) :
    Process.Alive { s with pending := s.pending.set i p' } where
  reachable r hr' := by
    have hmem := List.mem_of_getElem? hp
    refine h.reachable r ?_
    rcases hr' with hr' | ⟨u, hu', hun, hcap⟩
    · exact .inl hr'
    · rcases List.mem_or_eq_of_mem_set hu' with hu' | rfl
      · exact .inr ⟨u, hu', hun, hcap⟩
      · exact .inr ⟨p, hmem, hcalled hun, hc ▸ hcap⟩
  read u hu' q hq := by
    rcases List.mem_or_eq_of_mem_set hu' with hu' | rfl
    · exact h.read u hu' q hq
    · exact h.read p (List.mem_of_getElem? hp) q (hread q hq)

theorem Process.Alive.step {dbObj : Db} {s s' : Process} {e : HeapEvent} (h : s.Alive)
    (hs : s.step dbObj e = some s') (hc : Spares s e) : s'.Alive := by
  cases e with
  | alloc r bytes =>
    simp only [Process.step] at hs
    split at hs
    · cases hs
      constructor
      · rintro q (hq | hq)
        · rcases List.mem_cons.mp hq with rfl | hq
          · exact List.mem_cons_self
          · exact List.mem_cons_of_mem _ (h.reachable q (.inl hq))
        · exact List.mem_cons_of_mem _ (h.reachable q (.inr hq))
      · exact fun p hp q hq => List.mem_cons_of_mem _ (h.read p hp q hq)
    · cases hs
  | drop r =>
    cases hs
    refine ⟨fun q hq => h.reachable q ?_, h.read⟩
    exact hq.imp List.mem_of_mem_erase id
  | collect r =>
    simp only [Process.step] at hs
    split at hs
    · cases hs
    · rename_i hr
      cases hs
      constructor
      · intro q hq
        have hne : q ≠ r := by rintro rfl; exact hr hq
        exact (List.mem_erase_of_ne hne).mpr (h.reachable q hq)
      · intro p hp q hq
        have hne : q ≠ r := by rintro rfl; exact hc p hp hq
        exact (List.mem_erase_of_ne hne).mpr (h.read p hp q hq)
  | submit request captured =>
    simp only [Process.step] at hs
    split at hs
    · rename_i hr
      cases hs
      constructor
      · rintro q (hq | ⟨p, hp, hcalled, hq⟩)
        · exact h.reachable q (.inl hq)
        · cases List.mem_append.mp hp with
          | inl hp => exact h.reachable q (.inr ⟨p, hp, hcalled, hq⟩)
          | inr hp =>
            rw [List.mem_singleton.mp hp] at hq
            exact h.reachable q (.inl (hr q (List.mem_append_right _ hq)))
      · intro p hp q hq
        cases List.mem_append.mp hp with
        | inl hp => exact h.read p hp q hq
        | inr hp =>
          rw [List.mem_singleton.mp hp] at hq
          have hown : q ∈ request.regions := Pending.reads_regions dbObj rfl hq
          exact h.reachable q (.inl (hr q (List.mem_append_left _ hown)))
    · cases hs
  | work i reply =>
    simp only [Process.step] at hs
    obtain ⟨p, hp, hs⟩ := Option.bind_eq_some_iff.mp hs
    split at hs
    · rename_i c k hprog
      cases hs
      exact h.set hp rfl id fun _ => Pending.reads_later hprog
    · cases hs
  | callback i =>
    simp only [Process.step] at hs
    obtain ⟨p, hp, hs⟩ := Option.bind_eq_some_iff.mp hs
    split at hs
    · cases hs
    · split at hs
      · cases hs
      · rename_i hcalled
        cases hs
        have hset : Process.Alive { s with pending := s.pending.set i { p with called := true } } :=
          h.set hp rfl (fun h => nomatch h) fun _ => id
        refine ⟨?_, hset.read⟩
        rintro q (hq | hq)
        · cases List.mem_append.mp hq with
          | inl hq =>
            exact h.reachable q (.inr ⟨p, List.mem_of_getElem? hp, by simpa using hcalled, hq⟩)
          | inr hq => exact h.reachable q (.inl hq)
        · exact hset.reachable q (.inr hq)

/-- It is enough that every Buffer is kept in reach until its worker has read it for the last
time. -/
theorem spared_careful (dbObj : Db) (mem : Mem) (es : List HeapEvent) (s : Process)
    (h : Along (Process.step dbObj) Spares { mem := mem } es s) :
    Along (Process.step dbObj) Careful { mem := mem } es s := by
  have hrun : s.Alive ∧
      Along (Process.step dbObj) Careful { mem := mem } es s := by
    induction h with
    | nil => exact ⟨⟨by simp [Process.Reachable], by simp⟩, .nil⟩
    | snoc _ hst ih => exact ⟨ih.1.step hst.1 hst.2, .snoc ih.2 ⟨hst.1, ih.1.careful hst.1⟩⟩
  exact hrun.2

/-- A put whose Buffers the script drops after the call, a collection, and another Buffer that
takes the place of the value; then the worker begins its transaction. -/
def reclaimedRun : List HeapEvent :=
  [.alloc ⟨0, 1⟩ [107], .alloc ⟨1, 1⟩ [118],
   .submit (.put { data := .buffer 0 1 } { data := .buffer 1 1 } 0) [],
   .drop ⟨0, 1⟩, .drop ⟨1, 1⟩, .collect ⟨1, 1⟩, .alloc ⟨1, 1⟩ [120],
   .work 0 (replyCode 0)]

/-- The put that comes next would store `x` where `v` was passed. -/
theorem reclaimedRun_unfaithful :
    ∃ s, FPath (Process.step openDb) { mem := fun _ => 0 } reclaimedRun s ∧ ¬ s.Faithful := by
  have h : (run (Process.step openDb) { mem := fun _ => 0 } reclaimedRun).any
      (fun s => !decide s.Faithful) = true := by decide +kernel
  obtain ⟨s, hs, hf⟩ := (Option.any_eq_true _ _).mp h
  exact ⟨s, run_path hs, by simpa using hf⟩

def latePut : Request Address := .put { data := .buffer 0 1 } { data := .buffer 1 1 } 0

/-- What the worker of the put does when it is answered 0 twice; the rest is the commit. -/
theorem latePut_commits : ∃ k, latePut.deliver openDb = .call (.txnBegin (some 0)) k ∧
    ∃ k', k (0, 0) = .call (.put (some 1) (some 0) { data := .buffer 0 1 } { data := .buffer 1 1 } 0) k' ∧
      ∃ d : Int → Delivery, k' (0 : Int) = .call (.commit 0) fun rc => .ret (d rc) := by
  rw [latePut, Request.deliver, Request.worker, eioPut, if_neg (by decide), txn, again]
  exact ⟨_, rfl, _, rfl, _, rfl⟩

/-- Nothing is read by a commit and after it. -/
theorem Pending.reads_nothing {p : Pending} {x : TxnHandle} {d : Int → Delivery}
    (hp : p.prog = .call (.commit x) fun rc => .ret (d rc)) (q : Region) : ¬ p.StillReads q := by
  rintro ⟨t, c, k, hreach, hq⟩
  rw [hp] at hreach
  cases hreach with
  | refl => cases hq
  | step hlast => cases hlast

/-- The same put, and the value is reclaimed between the put and its commit. -/
def lateRun : List HeapEvent :=
  [.alloc ⟨0, 1⟩ [107], .alloc ⟨1, 1⟩ [118], .submit latePut [], .drop ⟨0, 1⟩, .drop ⟨1, 1⟩,
   .work 0 (replyCode 0), .work 0 (replyCode 0), .collect ⟨1, 1⟩, .alloc ⟨1, 1⟩ [120],
   .work 0 (replyCode 0), .callback 0]

theorem Process.work_step {dbObj : Db} {s : Process} {i : Nat} {p : Pending} {c : Call Address}
    {k : Reply c → BdbProg Address Delivery} (hi : s.pending[i]? = some p) (hp : p.prog = .call c k)
    (reply : (c : Call Address) → Reply c) : s.step dbObj (.work i reply) =
      some { s with pending := s.pending.set i { p with prog := k (s.mem.answer reply c) } } := by
  simp [Process.step, hi, hp]

theorem lateRun_path : ∃ s, Along (Process.step openDb) Careful { mem := fun _ => 0 } lateRun s := by
  obtain ⟨k, h₀, k', h₁, d, h₂⟩ := latePut_commits
  have hs : Along (Process.step openDb) Careful { mem := fun _ => 0 } _ _ :=
    Path.nil.snoc (e := HeapEvent.alloc ⟨0, 1⟩ [107]) ⟨rfl, fun p hp => nomatch hp⟩
  have hs := hs.snoc (e := HeapEvent.alloc ⟨1, 1⟩ [118]) ⟨rfl, fun p hp => nomatch hp⟩
  have hs := hs.snoc (e := HeapEvent.submit latePut []) ⟨rfl, trivial⟩
  have hs := hs.snoc (e := HeapEvent.drop ⟨0, 1⟩) ⟨rfl, trivial⟩
  have hs := hs.snoc (e := HeapEvent.drop ⟨1, 1⟩) ⟨rfl, trivial⟩
  have hs := hs.snoc (e := HeapEvent.work 0 (replyCode 0)) ⟨Process.work_step rfl h₀ _, trivial⟩
  have hs := hs.snoc (e := HeapEvent.work 0 (replyCode 0)) ⟨Process.work_step rfl h₁ _, trivial⟩
  have hs := hs.snoc (e := HeapEvent.collect ⟨1, 1⟩) ⟨rfl, trivial⟩
  have hs := hs.snoc (e := HeapEvent.alloc ⟨1, 1⟩ [120]) ⟨rfl, fun p hp q hq => by
    obtain rfl := List.mem_singleton.mp hp
    exact absurd hq (Pending.reads_nothing h₂ q)⟩
  have hs := hs.snoc (e := HeapEvent.work 0 (replyCode 0)) ⟨Process.work_step rfl h₂ _, trivial⟩
  exact ⟨_, hs.snoc (e := HeapEvent.callback 0) ⟨rfl, trivial⟩⟩

theorem lateRun_faithful :
    ∃ s, Along (Process.step openDb) Careful { mem := fun _ => 0 } lateRun s ∧ s.Faithful := by
  obtain ⟨s, hs⟩ := lateRun_path
  exact ⟨s, hs, careful_faithful openDb _ lateRun s hs⟩

end NodeBdb
