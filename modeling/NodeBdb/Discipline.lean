import NodeBdb.Success

/-!
# Transaction and cursor discipline

A monitor follows one operation on a transactional Db: which transaction is live, which
cursor is open, and whether a commit has been attempted. It admits a call only in the
order the Berkeley DB handles allow. Every wrapped operation keeps to it, through any
number of attempts.
-/

namespace NodeBdb

open Interaction

variable {δ : Type}

structure Handles where
  live : Option TxnHandle := none
  cursor : Option CursorHandle := none
  committed : Bool := false
  deriving DecidableEq, Repr

/-- Every call on the database takes the live transaction, and there must be one. -/
def Handles.passes (m : Handles) (x : Option TxnHandle) : Prop :=
  x ≠ none ∧ x = m.live ∧ m.committed = false

def discipline : Monitor (Call δ) Reply Handles where
  admits m
    | .txnBegin _ => m.live = none ∧ m.cursor = none ∧ m.committed = false
    | .commit x | .abort x => m.live = some x ∧ m.cursor = none ∧ m.committed = false
    | .get _ x _ _ _ | .put _ x _ _ _ | .del _ x _ _ => m.passes x
    | .cursor _ x => m.passes x ∧ m.cursor = none
    | .cursorGet c _ _ _ | .cursorClose c => m.cursor = some c ∧ m.live ≠ none ∧ m.committed = false
    | .load _ _ => m.committed = false
    | .txnCheckpoint .. => False
  next m
    | .txnBegin _, r => if r.1 = 0 then { m with live := some r.2 } else m
    | .commit _, _ => { m with live := none, committed := true }
    | .abort _, _ => { m with live := none }
    | .cursor _ _, r => if r.1 = 0 then { m with cursor := some r.2 } else m
    | .cursorClose _, _ => { m with cursor := none }
    | _, _ => m

/-- The state inside the body of an attempt under the transaction `x`. -/
def inBody (x : TxnHandle) (k : Option CursorHandle) : Handles := { live := some x, cursor := k }

theorem answered (m : Handles) (t : BdbTrace δ) : discipline.Answered m t :=
  answered_of_forall (fun _ _ _ => trivial) m t

def Resolves (x : TxnHandle) : Call δ → Prop
  | .commit y | .abort y => y = x
  | _ => False

def UsesTxn (x : TxnHandle) : Call δ → Prop
  | .commit y | .abort y => y = x
  | .get _ y _ _ _ | .put _ y _ _ _ | .del _ y _ _ | .cursor _ y => y = some x
  | _ => False

def UsesCursor (k : CursorHandle) : Call δ → Prop
  | .cursorGet j _ _ _ | .cursorClose j => j = k
  | _ => False

/-- The events after `txn_begin` returned `x`: one of them resolves `x`, with the attempt it
belongs to in between, and none after it takes `x` before Berkeley DB hands `x` out anew. -/
def ResolvedOnce (x : TxnHandle) (post : BdbTrace δ) : Prop :=
  ∃ mid e rest, post = mid ++ e :: rest ∧ Resolves x e.1 ∧ (∀ e' ∈ mid, ¬ Boundary e'.1) ∧
    ∀ p e' q, rest = p ++ e' :: q → UsesTxn x e'.1 → ∃ env, ⟨.txnBegin env, (0, x)⟩ ∈ p

/-- The events after the cursor `k` was opened: one of them closes it, inside the same attempt,
and none after it takes `k` before Berkeley DB hands `k` out anew. -/
def ClosedOnce (k : CursorHandle) (post : BdbTrace δ) : Prop :=
  ∃ mid c rest, post = mid ++ ⟨.cursorClose k, c⟩ :: rest ∧
    (∀ e' ∈ mid, ¬ Boundary e'.1 ∧ e'.1 ≠ .cursorClose k) ∧
    ∀ p e' q, rest = p ++ e' :: q → UsesCursor k e'.1 → ∃ db x, ⟨.cursor db x, (0, k)⟩ ∈ p

structure Disciplined (t : BdbTrace δ) : Prop where
  /-- In the order of the events, and with nothing left live or open at the end. -/
  accepted : ∃ b, discipline.Accepts {} t { committed := b }
  resolved : ∀ pre env x post, t = pre ++ ⟨.txnBegin env, (0, x)⟩ :: post → ResolvedOnce x post
  closed : ∀ pre db y k post, t = pre ++ ⟨.cursor db y, (0, k)⟩ :: post → ClosedOnce k post
  /-- A commit that was attempted is the last call of the operation. -/
  last : ∀ pre x c post, t = pre ++ ⟨.commit x, c⟩ :: post → post = []

section Steps

variable {m : Handles} {c : Call δ} {r : Reply c}

theorem admits_committed (h : discipline.admits m c) : m.committed = false := by
  cases c with
  | txnBegin => exact h.2.2
  | commit => exact h.2.2
  | abort => exact h.2.2
  | get => exact h.2.2
  | put => exact h.2.2
  | del => exact h.2.2
  | cursor => exact h.1.2.2
  | cursorGet => exact h.2.2
  | cursorClose => exact h.2.2
  | load => exact h
  | txnCheckpoint => exact h.elim

theorem admits_usesTxn {x : TxnHandle} (h : discipline.admits m c) (hu : UsesTxn x c) :
    m.live = some x := by
  cases c with
  | commit y => exact hu ▸ h.1
  | abort y => exact hu ▸ h.1
  | get => exact (h.2.1 ▸ hu : m.live = some x)
  | put => exact (h.2.1 ▸ hu : m.live = some x)
  | del => exact (h.2.1 ▸ hu : m.live = some x)
  | cursor => exact (h.1.2.1 ▸ hu : m.live = some x)
  | _ => exact hu.elim

theorem admits_usesCursor {k : CursorHandle} (h : discipline.admits m c) (hu : UsesCursor k c) :
    m.cursor = some k := by
  cases c with
  | cursorGet j => exact hu ▸ h.1
  | cursorClose j => exact hu ▸ h.1
  | _ => exact hu.elim

/-- A transaction becomes live by being handed out, and in no other way. -/
theorem next_live {x : TxnHandle} (h : (discipline.next m c r).live = some x) :
    m.live = some x ∨ ∃ env, (⟨c, r⟩ : BdbEvent δ) = ⟨.txnBegin env, (0, x)⟩ := by
  cases c with
  | txnBegin env =>
    obtain ⟨c, y⟩ := r
    by_cases hc : c = 0
    · subst hc
      simp only [discipline, ↓reduceIte, Option.some.injEq] at h
      exact .inr ⟨env, by rw [h]⟩
    · simp only [discipline, hc, ↓reduceIte] at h
      exact .inl h
  | commit => cases h
  | abort => cases h
  | cursor => simp only [discipline] at h; split at h <;> exact .inl h
  | _ => exact .inl h

theorem next_cursor {k : CursorHandle} (h : (discipline.next m c r).cursor = some k) :
    m.cursor = some k ∨ ∃ db x, (⟨c, r⟩ : BdbEvent δ) = ⟨.cursor db x, (0, k)⟩ := by
  cases c with
  | cursor db x =>
    obtain ⟨c, j⟩ := r
    by_cases hc : c = 0
    · subst hc
      simp only [discipline, ↓reduceIte, Option.some.injEq] at h
      exact .inr ⟨db, x, by rw [h]⟩
    · simp only [discipline, hc, ↓reduceIte] at h
      exact .inl h
  | cursorClose => cases h
  | txnBegin => simp only [discipline] at h; split at h <;> exact .inl h
  | _ => exact .inl h

/-- While a transaction is live it is resolved, or the attempt goes on. -/
theorem live_step {x : TxnHandle} (h : discipline.admits m c) (hl : m.live = some x) :
    Resolves x c ∧ (discipline.next m c r).live = none ∨
      ¬ Boundary c ∧ (discipline.next m c r).live = some x := by
  cases c with
  | txnBegin => rw [h.1] at hl; cases hl
  | commit y => exact .inl ⟨Option.some.inj (h.1.symm.trans hl), rfl⟩
  | abort y => exact .inl ⟨Option.some.inj (h.1.symm.trans hl), rfl⟩
  | cursor => right; refine ⟨id, ?_⟩; simp only [discipline]; split <;> exact hl
  | _ => exact .inr ⟨id, hl⟩

/-- While a cursor is open it is closed, or the attempt goes on. -/
theorem cursor_step {k : CursorHandle} (h : discipline.admits m c) (hl : m.cursor = some k) :
    c = .cursorClose k ∧ (discipline.next m c r).cursor = none ∨
      (¬ Boundary c ∧ c ≠ .cursorClose k) ∧ (discipline.next m c r).cursor = some k := by
  cases c with
  | txnBegin => rw [h.2.1] at hl; cases hl
  | commit => rw [h.2.1] at hl; cases hl
  | abort => rw [h.2.1] at hl; cases hl
  | cursor => rw [h.2] at hl; cases hl
  | cursorClose j =>
    have hj : j = k := Option.some.inj (h.1.symm.trans hl)
    exact .inl ⟨by rw [hj], rfl⟩
  | _ => exact .inr ⟨⟨id, by simp⟩, hl⟩

end Steps

section Accepted

variable {m m' : Handles} {t : BdbTrace δ}

/-- A transaction that is not live is not passed on before it is handed out. -/
theorem accepted_txn_unused {x : TxnHandle} (h : discipline.Accepts m t m') (hl : m.live ≠ some x) :
    ∀ p e q, t = p ++ e :: q → UsesTxn x e.1 → ∃ env, ⟨.txnBegin env, (0, x)⟩ ∈ p := by
  induction t generalizing m with
  | nil => intro p e q ht; simp at ht
  | cons e₀ t ih =>
    intro p e q ht hu
    cases p with
    | nil => cases ht; exact absurd (admits_usesTxn h.1 hu) hl
    | cons e₁ p =>
      cases ht
      by_cases hn : (discipline.next m e₀.1 e₀.2).live = some x
      · obtain ⟨env, he⟩ := (next_live hn).resolve_left hl
        exact ⟨env, by rw [← he]; exact List.mem_cons_self⟩
      · obtain ⟨env, hm⟩ := ih h.2 hn p e q rfl hu
        exact ⟨env, List.mem_cons_of_mem _ hm⟩

theorem accepted_cursor_unused {k : CursorHandle} (h : discipline.Accepts m t m')
    (hl : m.cursor ≠ some k) :
    ∀ p e q, t = p ++ e :: q → UsesCursor k e.1 → ∃ db x, ⟨.cursor db x, (0, k)⟩ ∈ p := by
  induction t generalizing m with
  | nil => intro p e q ht; simp at ht
  | cons e₀ t ih =>
    intro p e q ht hu
    cases p with
    | nil => cases ht; exact absurd (admits_usesCursor h.1 hu) hl
    | cons e₁ p =>
      cases ht
      by_cases hn : (discipline.next m e₀.1 e₀.2).cursor = some k
      · obtain ⟨db, x, he⟩ := (next_cursor hn).resolve_left hl
        exact ⟨db, x, by rw [← he]; exact List.mem_cons_self⟩
      · obtain ⟨db, x, hm⟩ := ih h.2 hn p e q rfl hu
        exact ⟨db, x, List.mem_cons_of_mem _ hm⟩

theorem accepted_resolved {x : TxnHandle} (h : discipline.Accepts m t m') (hl : m.live = some x)
    (hm' : m'.live = none) : ResolvedOnce x t := by
  induction t generalizing m with
  | nil => cases h; rw [hl] at hm'; cases hm'
  | cons e t ih =>
    rcases live_step (r := e.2) h.1 hl with ⟨hr, hn⟩ | ⟨hb, hn⟩
    · exact ⟨[], e, t, rfl, hr, by simp, accepted_txn_unused h.2 (by simp [hn])⟩
    · obtain ⟨mid, e', rest, rfl, hr, hmid, hrest⟩ := ih h.2 hn
      exact ⟨e :: mid, e', rest, rfl, hr, by simpa using ⟨hb, hmid⟩, hrest⟩

theorem accepted_closed {k : CursorHandle} (h : discipline.Accepts m t m') (hl : m.cursor = some k)
    (hm' : m'.cursor = none) : ClosedOnce k t := by
  induction t generalizing m with
  | nil => cases h; rw [hl] at hm'; cases hm'
  | cons e t ih =>
    obtain ⟨c, r⟩ := e
    rcases cursor_step (r := r) h.1 hl with ⟨rfl, hn⟩ | ⟨hb, hn⟩
    · exact ⟨[], r, t, rfl, by simp, accepted_cursor_unused h.2 (by simp [hn])⟩
    · obtain ⟨mid, r', rest, rfl, hmid, hrest⟩ := ih h.2 hn
      exact ⟨⟨c, r⟩ :: mid, r', rest, rfl, by simpa using ⟨hb, hmid⟩, hrest⟩

theorem accepted_committed (h : discipline.Accepts m t m') (hc : m.committed = true) : t = [] := by
  cases t with
  | nil => rfl
  | cons e t => exact absurd (admits_committed h.1) (by simp [hc])

/-- Everything the discipline promises follows from the monitor's verdict. -/
theorem disciplined_of_accepted {b : Bool} (h : discipline.Accepts {} t { committed := b }) :
    Disciplined t where
  accepted := ⟨b, h⟩
  resolved := by
    rintro pre env x post rfl
    obtain ⟨m, -, ha, hp⟩ := h.split
    exact accepted_resolved hp rfl rfl
  closed := by
    rintro pre db y k post rfl
    obtain ⟨m, -, ha, hp⟩ := h.split
    exact accepted_closed hp rfl rfl
  last := by
    rintro pre x c post rfl
    obtain ⟨m, -, ha, hp⟩ := h.split
    exact accepted_committed hp rfl

end Accepted

/-! ## The bodies -/

/-- The body `p` of an attempt under `x` obeys the monitor, leaves no cursor open, and
returns locals that satisfy `I`. -/
def BodyObeys {σ : Type} (I : σ → Prop) (x : TxnHandle) (p : BdbProg δ σ) : Prop :=
  discipline.Obeys (fun m s => m = inBody x none ∧ I s) (inBody x none) p

section Bodies

variable {dbObj : Db} {x : TxnHandle}

theorem passes_inBody (x : TxnHandle) (k : Option CursorHandle) : (inBody x k).passes (some x) :=
  ⟨by simp, rfl, rfl⟩

theorem contents_obeys {α : Type} {Q : Handles → α → Prop} {m : Handles} (d : Data δ)
    {f : Bytes → BdbProg δ α} (hm : m.committed = false) (h : ∀ v, discipline.Obeys Q m (f v)) :
    discipline.Obeys Q m (d.contents >>= f) := by
  cases d with
  | buffer p len => exact ⟨hm, fun v _ => h v⟩
  | _ => exact h _

theorem getBody_obeys (b : EIODbBaton δ) :
    BodyObeys (fun _ => True) x (getBody dbObj (some x) b) := by
  simp only [BodyObeys, getBody, Prog.call_bind, Prog.ret_bind, obeys_call]
  refine ⟨passes_inBody x none, fun r _ => ?_⟩
  split <;> exact ⟨rfl, trivial⟩

theorem putBody_obeys (b : EIODbBaton δ) :
    BodyObeys (fun _ => True) x (putBody dbObj (some x) b) :=
  ⟨passes_inBody x none, fun _ _ => ⟨rfl, trivial⟩⟩

theorem delBody_obeys (b : EIODbBaton δ) :
    BodyObeys (fun _ => True) x (delBody dbObj (some x) b) :=
  ⟨passes_inBody x none, fun _ _ => ⟨rfl, trivial⟩⟩

theorem getSBody_obeys (key : Dbt δ) (flags : Int) (s : SyncLocals δ) :
    BodyObeys (fun _ => True) x (getSBody dbObj key flags (some x) s) := by
  simp only [BodyObeys, getSBody, Prog.call_bind, Prog.ret_bind, obeys_call]
  refine ⟨passes_inBody x none, fun r _ => ?_⟩
  split <;> exact ⟨rfl, trivial⟩

theorem putSBody_obeys (key val : Dbt δ) (flags : Int) (s : SyncLocals δ) :
    BodyObeys (fun _ => True) x (putSBody dbObj key val flags (some x) s) :=
  ⟨passes_inBody x none, fun _ _ => ⟨rfl, trivial⟩⟩

theorem delSBody_obeys (key : Dbt δ) (flags : Int) (s : SyncLocals δ) :
    BodyObeys (fun _ => True) x (delSBody dbObj key flags (some x) s) :=
  ⟨passes_inBody x none, fun _ _ => ⟨rfl, trivial⟩⟩

theorem compareAndPut_obeys (s : PutIfLocals δ) :
    BodyObeys (fun _ => True) x (compareAndPut dbObj (some x) s) := by
  unfold BodyObeys compareAndPut
  split
  · exact ⟨rfl, trivial⟩
  · refine contents_obeys _ rfl fun v => ?_
    dsimp only
    split
    · exact ⟨rfl, trivial⟩
    · exact ⟨passes_inBody x none, fun _ _ => ⟨rfl, trivial⟩⟩

theorem putIfBody_obeys (s : PutIfLocals δ) :
    BodyObeys (fun _ => True) x (putIfBody dbObj (some x) s) := by
  simp only [BodyObeys, putIfBody, Prog.call_bind, Prog.ret_bind, obeys_call]
  refine ⟨passes_inBody x none, fun r _ => ?_⟩
  split
  · exact compareAndPut_obeys _
  · exact ⟨rfl, trivial⟩

theorem next_opened {db : Option DbHandle} {y : Option TxnHandle} {r : Int × CursorHandle}
    (h : r.1 = 0) : discipline.next (inBody x none) (.cursor db y : Call δ) r = inBody x (some r.2) :=
  if_pos h

theorem next_not_opened {db : Option DbHandle} {y : Option TxnHandle} {r : Int × CursorHandle}
    (h : r.1 ≠ 0) : discipline.next (inBody x none) (.cursor db y : Call δ) r = inBody x none :=
  if_neg h

/-- The label `error` closes whatever cursor is open. -/
theorem cursorError_obeys (s : CursorLocals δ) {o : Option CursorHandle} (ho : s.cursor = o) :
    discipline.Obeys (fun m (s' : CursorLocals δ) => m = inBody x none ∧ s'.cursor = none)
      (inBody x o) (cursorError s) := by
  unfold cursorError
  subst ho
  cases hc : s.cursor with
  | none => exact ⟨rfl, hc⟩
  | some k => exact ⟨⟨rfl, by simp [inBody], rfl⟩, fun r _ => ⟨rfl, rfl⟩⟩

/-- The loop calls only on its own cursor and leaves it open. The induction is on the records
the limit still allows. -/
theorem walk_obeys (k : CursorHandle) (left : Nat) (pair : DbtPtr δ × DbtPtr δ)
    (s : CursorLocals δ) (hl : (s.baton.limit - s.i).toNat = left) (hs : s.cursor = some k) :
    discipline.Obeys (fun m (s' : CursorLocals δ) => m = inBody x (some k) ∧ s'.cursor = some k)
      (inBody x (some k)) (walk k pair s) := by
  induction left using Nat.strongRecOn generalizing pair s with
  | ind left ih =>
    rw [walk]
    by_cases hlt : s.i < s.baton.limit
    · rw [if_pos hlt]
      refine ⟨⟨rfl, by simp [inBody], rfl⟩, fun r _ => ?_⟩
      by_cases hr : r.1 = 0
      · simp only [hr, ↓reduceIte]
        refine ih _ ?_ _ _ rfl hs
        simp only [CursorLocals.push, CursorLocals.allocPair, EIODbBaton.pushRecord]
        omega
      · simp only [hr, ↓reduceIte]
        exact ⟨rfl, hs⟩
    · rw [if_neg hlt]
      exact ⟨rfl, hs⟩

theorem copyKey_obeys {α : Type} {Q : Handles → α → Prop} {m : Handles} (s : CursorLocals δ)
    (key : DbtPtr δ) {f : DbtPtr δ × CursorLocals δ → BdbProg δ α} (hm : m.committed = false)
    (h : ∀ r : DbtPtr δ × CursorLocals δ, r.2.cursor = s.cursor → discipline.Obeys Q m (f r)) :
    discipline.Obeys Q m (s.copyKey key >>= f) := by
  unfold CursorLocals.copyKey
  rw [obeys_bind]
  exact contents_obeys _ hm fun v => h _ rfl

theorem positionAndWalk_obeys (k : CursorHandle) (pair : DbtPtr δ × DbtPtr δ) (s : CursorLocals δ)
    (hs : s.cursor = some k) :
    discipline.Obeys (fun m (s' : CursorLocals δ) => m = inBody x none ∧ s'.cursor = none)
      (inBody x (some k)) (positionAndWalk k pair s) := by
  unfold positionAndWalk
  refine copyKey_obeys s pair.1 rfl fun r hr => ?_
  rw [hs] at hr
  simp only [Prog.call_bind, Prog.ret_bind, obeys_call]
  refine ⟨⟨rfl, by simp [inBody], rfl⟩, fun got _ => ?_⟩
  by_cases hg : got.1 = 0
  · simp only [hg, ne_eq, not_true_eq_false, ↓reduceIte, obeys_bind]
    refine (walk_obeys k _ _ _ rfl ?_).mono fun m s' h => ?_
    · exact hr
    rw [h.1]
    exact cursorError_obeys s' h.2
  · simp only [hg, ne_eq, not_false_eq_true, ↓reduceIte]
    exact cursorError_obeys _ hr

theorem cursorGetBody_obeys (s : CursorLocals δ) (hs : s.cursor = none) :
    BodyObeys (fun s' => s'.cursor = none) x (cursorGetBody dbObj (some x) s) := by
  simp only [BodyObeys, cursorGetBody, Prog.call_bind, Prog.ret_bind, obeys_call]
  refine ⟨⟨passes_inBody x none, rfl⟩, fun r _ => ?_⟩
  by_cases hr : r.1 = 0
  · rw [next_opened hr]
    simp only [hr, ne_eq, not_true_eq_false, ↓reduceIte]
    exact positionAndWalk_obeys r.2 _ _ rfl
  · rw [next_not_opened hr]
    simp only [hr, ne_eq, not_false_eq_true, ↓reduceIte]
    exact cursorError_obeys _ hs

theorem cursorSError_obeys (s : CursorSLocals δ) {o : Option CursorHandle} (ho : s.cursor = o) :
    discipline.Obeys (fun m (s' : CursorSLocals δ) => m = inBody x none ∧ s'.cursor = none)
      (inBody x o) (cursorSError s) := by
  unfold cursorSError
  subst ho
  cases hc : s.cursor with
  | none => exact ⟨rfl, hc⟩
  | some k => exact ⟨⟨rfl, by simp [inBody], rfl⟩, fun r _ => ⟨rfl, rfl⟩⟩

theorem walkS_obeys (k : CursorHandle) (limit flags : Int) (left : Nat) (s : CursorSLocals δ)
    (hl : (limit - s.i).toNat = left) (hs : s.cursor = some k) :
    discipline.Obeys (fun m (s' : CursorSLocals δ) => m = inBody x (some k) ∧ s'.cursor = some k)
      (inBody x (some k)) (walkS k limit flags s) := by
  induction left using Nat.strongRecOn generalizing s with
  | ind left ih =>
    rw [walkS]
    by_cases hlt : s.i < limit
    · rw [if_pos hlt]
      refine ⟨⟨rfl, by simp [inBody], rfl⟩, fun r _ => ?_⟩
      by_cases hr : r.1 = 0
      · simp only [hr, ↓reduceIte]
        refine ih _ ?_ _ rfl hs
        simp only [CursorSLocals.addRecord]
        omega
      · simp only [hr, ↓reduceIte]
        exact ⟨rfl, hs⟩
    · rw [if_neg hlt]
      exact ⟨rfl, hs⟩

theorem positionAndWalkS_obeys (k : CursorHandle) (key : Dbt δ) (limit initFlag flags : Int)
    (s : CursorSLocals δ) (hs : s.cursor = some k) :
    discipline.Obeys (fun m (s' : CursorSLocals δ) => m = inBody x none ∧ s'.cursor = none)
      (inBody x (some k)) (positionAndWalkS k key limit initFlag flags s) := by
  unfold positionAndWalkS
  refine contents_obeys _ rfl fun v => ?_
  simp only [Prog.call_bind, Prog.ret_bind, obeys_call]
  refine ⟨⟨rfl, by simp [inBody], rfl⟩, fun got _ => ?_⟩
  by_cases hg : got.1 = 0
  · simp only [hg, ne_eq, not_true_eq_false, ↓reduceIte, obeys_bind]
    refine (walkS_obeys k limit flags _ _ rfl ?_).mono fun m s' h => ?_
    · exact hs
    rw [h.1]
    exact cursorSError_obeys _ (by split <;> exact h.2)
  · simp only [hg, ne_eq, not_false_eq_true, ↓reduceIte]
    exact cursorSError_obeys _ hs

theorem cursorGetSBody_obeys (key : Dbt δ) (limit initFlag flags : Int) (s : CursorSLocals δ)
    (hs : s.cursor = none) :
    BodyObeys (fun s' => s'.cursor = none) x
      (cursorGetSBody dbObj key limit initFlag flags (some x) s) := by
  simp only [BodyObeys, cursorGetSBody, Prog.call_bind, Prog.ret_bind, obeys_call]
  refine ⟨⟨passes_inBody x none, rfl⟩, fun r _ => ?_⟩
  by_cases hr : r.1 = 0
  · rw [next_opened hr]
    simp only [hr, ne_eq, not_true_eq_false, ↓reduceIte]
    exact positionAndWalkS_obeys r.2 key limit initFlag flags _ rfl
  · rw [next_not_opened hr]
    simp only [hr, ne_eq, not_false_eq_true, ↓reduceIte]
    exact cursorSError_obeys _ hs

end Bodies

/-! ## The operations -/

/-- Nothing is live and nothing is open. -/
def AtRest (m : Handles) : Prop := ∃ b, m = { committed := b }

/-- The rule for the macro pair: a body that obeys under every transaction makes the loop obey.
The induction is on the retries left. -/
theorem again_obeys {σ : Type} {dbObj : Db} {status : Status σ}
    {body : Option TxnHandle → σ → BdbProg δ σ} {I : σ → Prop}
    (ht : dbObj._transactional = true)
    (hbody : ∀ x s, I s → BodyObeys I x (body (some x) s)) (left : Nat) (n : Int)
    (hn : (dbObj._retries - n).toNat = left) (s : σ) (hI : I s) :
    discipline.Obeys (fun m _ => AtRest m) {} (again dbObj status body n s) := by
  induction left using Nat.strongRecOn generalizing n s with
  | ind left ih =>
    rw [again, if_pos ht]
    refine ⟨⟨rfl, rfl, rfl⟩, fun r _ => ?_⟩
    by_cases hr : r.1 = 0
    · have hb : discipline.next {} (.txnBegin dbObj._env : Call δ) r = inBody r.2 none :=
        if_pos hr
      rw [hb]
      simp only [hr, ne_eq, not_true_eq_false, ↓reduceIte, obeys_bind]
      refine (hbody r.2 s hI).mono ?_
      rintro m s₁ ⟨rfl, hI₁⟩
      by_cases h0 : status.get s₁ = 0
      · simp only [h0, ↓reduceIte]
        exact ⟨⟨rfl, rfl, rfl⟩, fun _ _ => ⟨true, rfl⟩⟩
      · by_cases hd : status.get s₁ = dbLockDeadlock ∧ n + 1 ≤ dbObj._retries
        · simp only [hd, and_self, ↓reduceIte]
          exact ⟨⟨rfl, rfl, rfl⟩, fun _ _ => ih _ (by omega) (n + 1) rfl s₁ hI₁⟩
        · simp only [h0, hd, ↓reduceIte]
          exact ⟨⟨rfl, rfl, rfl⟩, fun _ _ => ⟨false, rfl⟩⟩
    · have hb : discipline.next {} (.txnBegin dbObj._env : Call δ) r = {} := if_neg hr
      rw [hb]
      simp only [ne_eq, hr, not_false_eq_true, ↓reduceIte]
      exact ⟨false, rfl⟩

theorem txn_obeys {σ : Type} {dbObj : Db} {status : Status σ}
    {body : Option TxnHandle → σ → BdbProg δ σ} {I : σ → Prop}
    (ht : dbObj._transactional = true)
    (hbody : ∀ x s, I s → BodyObeys I x (body (some x) s)) (s : σ) (hI : I s) :
    discipline.Obeys (fun m _ => AtRest m) {} (txn dbObj status body s) :=
  again_obeys ht hbody _ 0 rfl s hI

/-- The text between the macros keeps the discipline; a walk finds no cursor open. -/
theorem bracket_obeys (dbObj : Db) (op : Operation δ) :
    ∃ I, I op.bracket.start ∧
      ∀ x s, I s → BodyObeys I x (op.bracket.body dbObj (some x) s) := by
  match op with
  | .request (.get ..) => exact ⟨_, trivial, fun _ s _ => getBody_obeys s⟩
  | .request (.put ..) => exact ⟨_, trivial, fun _ s _ => putBody_obeys s⟩
  | .request (.putIf ..) => exact ⟨_, trivial, fun _ s _ => putIfBody_obeys s⟩
  | .request (.del ..) => exact ⟨_, trivial, fun _ s _ => delBody_obeys s⟩
  | .request (.cursorGet ..) =>
    exact ⟨fun s : CursorLocals δ => s.cursor = none, rfl, fun _ s hs => cursorGetBody_obeys s hs⟩
  | .direct (.getS key flags) => exact ⟨_, trivial, fun _ s _ => getSBody_obeys key flags s⟩
  | .direct (.putS key val flags) => exact ⟨_, trivial, fun _ s _ => putSBody_obeys key val flags s⟩
  | .direct (.delS key flags) => exact ⟨_, trivial, fun _ s _ => delSBody_obeys key flags s⟩
  | .direct (.cursorGetS key limit initFlag flags) =>
    exact ⟨fun s : CursorSLocals δ => s.cursor = none, rfl,
      fun _ s hs => cursorGetSBody_obeys key limit initFlag flags s hs⟩

theorem operation_obeys {dbObj : Db} (ht : dbObj._transactional = true) (op : Operation δ) :
    discipline.Obeys (fun m _ => AtRest m) {} (op.deliver dbObj) := by
  by_cases ho : ∀ r, op = .request r → dbObj._db ≠ none
  · obtain ⟨I, hstart, hbody⟩ := bracket_obeys dbObj op
    rw [deliver_bracket ho, obeys_bind]
    exact txn_obeys ht hbody _ hstart
  · simp only [not_forall, not_not] at ho
    obtain ⟨r, rfl, ho⟩ := ho
    rw [Operation.deliver, Request.deliver, worker_closed ho]
    exact ⟨false, rfl⟩

theorem operation_disciplined {dbObj : Db} {op : Operation δ} {t : BdbTrace δ} {d : Delivery}
    (ht : dbObj._transactional = true) (hr : Runs (op.deliver dbObj) t d) : Disciplined t := by
  obtain ⟨m, ha, b, rfl⟩ := (operation_obeys ht op).runs hr (answered _ _)
  exact disciplined_of_accepted ha

/-- A request on a closed Db makes no call at all. -/
theorem closed_runs {dbObj : Db} {r : Request δ} {t : BdbTrace δ} {d : Delivery}
    (hc : dbObj._db = none) (hr : Runs (r.deliver dbObj) t d) : t = [] ∧ d = r.after r.baton := by
  rw [Request.deliver, worker_closed hc] at hr
  exact hr

/-- A commit stands at the end, after an attempt whose body performed the operation. -/
theorem Ending.commit_performed {dbObj : Db} {op : Operation δ} {t pre : BdbTrace δ} {d : Delivery}
    {x : TxnHandle} {c : Int} (h : Ending dbObj op t d) (ht : t = pre ++ [⟨.commit x, c⟩]) :
    ∃ pre' b, pre = pre' ++ ⟨.txnBegin dbObj._env, (0, x)⟩ :: b ∧ Performed dbObj (some x) b op := by
  cases h with
  | refused hc hp => cases (List.append_inj' ht rfl).2
  | @committed pre' b y d hb =>
    rw [← List.cons_append, ← List.append_assoc] at ht
    obtain ⟨rfl, he⟩ := List.append_inj' ht rfl
    cases he
    exact ⟨pre', b, rfl, outcome_performed hb⟩
  | aborted hb hc =>
    rw [← List.cons_append, ← List.append_assoc] at ht
    cases (List.append_inj' ht rfl).2

/-- Every wrapped operation on a transactional Db keeps the discipline, and an operation on one
key attempts a commit only after the body of that attempt ended with status 0. -/
theorem wrapped_disciplined (dbObj : Db) (op : Operation δ) (t : BdbTrace δ) (d : Delivery)
    (ht : dbObj._transactional = true) (hr : Runs (op.deliver dbObj) t d) :
    Disciplined t ∧
      (op.onKey = true → ∀ pre x c post, t = pre ++ ⟨.commit x, c⟩ :: post →
        ∃ pre' b, pre = pre' ++ ⟨.txnBegin dbObj._env, (0, x)⟩ :: b ∧
          Performed dbObj (some x) b op) := by
  have hd := operation_disciplined ht hr
  refine ⟨hd, fun hk pre x c post he => ?_⟩
  obtain rfl := hd.last pre x c post he
  by_cases ho : ∀ r, op = .request r → dbObj._db ≠ none
  · exact ((onKey_spec hk ho hr).transactional ht).commit_performed he
  · -- a request on a closed Db makes no call at all
    simp only [not_forall, not_not] at ho
    obtain ⟨r, rfl, ho⟩ := ho
    rw [(closed_runs ho hr).1] at he
    simp at he

/-- A put whose first attempt is a deadlock victim and whose second is committed. -/
def deadlockedOnce : BdbTrace Bytes :=
  [⟨.txnBegin (some 0), (0, 7)⟩,
   ⟨.put (some 1) (some 7) { data := .buffer [107] 1 } { data := .buffer [118] 1 } 0, dbLockDeadlock⟩,
   ⟨.abort 7, 0⟩,
   ⟨.txnBegin (some 0), (0, 8)⟩,
   ⟨.put (some 1) (some 8) { data := .buffer [107] 1 } { data := .buffer [118] 1 } 0, 0⟩,
   ⟨.commit 8, 0⟩]

theorem deadlockedOnce_disciplined :
    Disciplined deadlockedOnce ∧
      (putOne.onKey = true → ∀ pre x c post, deadlockedOnce = pre ++ ⟨.commit x, c⟩ :: post →
        ∃ pre' b, pre = pre' ++ ⟨.txnBegin openDb._env, (0, x)⟩ :: b ∧
          Performed openDb (some x) b putOne) := by
  refine wrapped_disciplined openDb putOne deadlockedOnce
    { code := 0, message := .dbStrerror 0 } rfl ?_
  simp [openDb, putOne, deadlockedOnce, Operation.deliver, Request.deliver, Request.worker, eioPut,
    txn, again, putBody, EIODbBaton.statusVar, Request.baton, Request.after, eioAfterReturnStatus,
    errMsg, dbLockDeadlock, consistencyError]

end NodeBdb
