import NodeBdb.Walks
import NodeBdb.Success
import NodeBdb.Options
import Mathlib.Order.Bounds.Basic

/-!
# How many calls an operation makes

Each attempt pays for its `txn_begin`, its end, and the fixed part of its body. The gets of
a cursor walk past the first are paid for once in all: the counter of the loop is not reset
by a retry, so what an attempt has read, or tried to, no later one reads again. The
greatest number of calls follows, and a server that makes every attempt a victim of a
deadlock at its last call asks for it.
-/

namespace NodeBdb

open Interaction

variable {δ σ : Type}

/-- Reading caller memory is no call of Berkeley DB. -/
def Call.isBdb : Call δ → Bool
  | .load .. => false
  | _ => true

/-- The calls of Berkeley DB in a trace. -/
def calls (t : BdbTrace δ) : Nat := t.countP fun e => e.1.isBdb

@[simp] theorem calls_nil : calls ([] : BdbTrace δ) = 0 := rfl
@[simp] theorem calls_cons (e : BdbEvent δ) (t : BdbTrace δ) :
    calls (e :: t) = calls t + if e.1.isBdb then 1 else 0 := List.countP_cons ..
@[simp] theorem calls_append (t u : BdbTrace δ) : calls (t ++ u) = calls t + calls u :=
  List.countP_append ..

@[simp] theorem calls_contents {d : Data δ} {t : BdbTrace δ} {w : Bytes}
    (h : Runs d.contents t w) : calls t = 0 := by
  cases contents_calls h with
  | inl h => rw [h, calls_nil]
  | inr h =>
    obtain ⟨p, len, rfl⟩ := h
    rfl

/-! ## Under the macro pair -/

section Pair

variable {dbObj : Db} {status : Status σ} {body : Option TxnHandle → σ → BdbProg δ σ}
  {I : σ → Prop} {left : σ → Nat} {width : Nat}

/-- What the attempts from the `n`-th retry on may cost, beside what is left of the potential. -/
def attemptsCost (dbObj : Db) (width : Nat) (n : Int) : Nat :=
  ((dbObj._retries - n).toNat + 1) * (width + 2)

theorem attemptsCost_retry (dbObj : Db) (width : Nat) {n : Int} (hn : n + 1 ≤ dbObj._retries) :
    attemptsCost dbObj width n = width + 2 + attemptsCost dbObj width (n + 1) := by
  have h : (dbObj._retries - n).toNat = (dbObj._retries - (n + 1)).toNat + 1 := by omega
  rw [attemptsCost, attemptsCost, h, Nat.succ_mul, Nat.add_comm]

theorem attemptsCost_ge (dbObj : Db) (width : Nat) (n : Int) :
    width + 2 ≤ attemptsCost dbObj width n :=
  Nat.le_mul_of_pos_left _ (Nat.succ_pos _)

/-- A body that is paid for by `width` and by what it takes from the potential. -/
def Pays (body : Option TxnHandle → σ → BdbProg δ σ) (I : σ → Prop) (left : σ → Nat)
    (width : Nat) : Prop :=
  ∀ x s b s₁, I s → Runs (body x s) b s₁ → I s₁ ∧ calls b + left s₁ ≤ width + left s

/-- A body that may cost all that, and end as a victim of a deadlock. -/
def Spends (status : Status σ) (body : Option TxnHandle → σ → BdbProg δ σ) (I : σ → Prop)
    (left : σ → Nat) (width : Nat) : Prop :=
  ∀ x s, I s → ∃ b s₁, Runs (body x s) b s₁ ∧ status.get s₁ = dbLockDeadlock ∧ left s₁ = 0 ∧
    calls b = width + left s

theorem Attempts.pays (hbody : Pays body I left width) {n : Int} {s s' : σ} {t : BdbTrace δ}
    (h : Attempts dbObj status body n s t s') (hI : I s) :
    calls t ≤ attemptsCost dbObj width n + left s := by
  induction h with
  | @refused n s c x _ =>
    have := attemptsCost_ge dbObj width n
    simp only [calls_cons, calls_nil, Call.isBdb, ↓reduceIte]
    omega
  | @committed n s s₁ x b c hb _ =>
    have := attemptsCost_ge dbObj width n
    have := (hbody _ _ _ _ hI hb).2
    simp only [calls_cons, calls_append, calls_nil, Call.isBdb, ↓reduceIte]
    omega
  | @givenUp n s s₁ x b c hb _ _ =>
    have := attemptsCost_ge dbObj width n
    have := (hbody _ _ _ _ hI hb).2
    simp only [calls_cons, calls_append, calls_nil, Call.isBdb, ↓reduceIte]
    omega
  | @retried n s s₁ s₂ x b t c hb _ hn _ ih =>
    obtain ⟨hI₁, hpaid⟩ := hbody _ _ _ _ hI hb
    have hrest := ih hI₁
    rw [attemptsCost_retry dbObj width hn]
    simp only [calls_cons, calls_append, Call.isBdb, ↓reduceIte]
    omega

/-- Every attempt is made and costs all it may. The induction is on the retries left. -/
theorem attempts_spend (hpays : Pays body I left width) (hspends : Spends status body I left width)
    (more : Nat) (n : Int) (hn : (dbObj._retries - n).toNat = more) (s : σ) (hI : I s) :
    ∃ t s', Attempts dbObj status body n s t s' ∧
      calls t = attemptsCost dbObj width n + left s := by
  induction more generalizing n s with
  | zero =>
    obtain ⟨b, s₁, hb, hd, -, hcost⟩ := hspends (some 0) s hI
    have h0 : status.get s₁ ≠ 0 := by rw [hd]; decide
    refine ⟨_, s₁, .givenUp (c := 0) hb h0 (by omega), ?_⟩
    rw [attemptsCost, hn]
    simp only [calls_cons, calls_append, calls_nil, Call.isBdb, ↓reduceIte, hcost]
    omega
  | succ more ih =>
    obtain ⟨b, s₁, hb, hd, hnone, hcost⟩ := hspends (some 0) s hI
    have hmore : n + 1 ≤ dbObj._retries := by omega
    obtain ⟨t, s', hrest, hcosts⟩ := ih (n + 1) (by omega) s₁ (hpays _ _ _ _ hI hb).1
    refine ⟨_, s', .retried (c := 0) hb hd hmore hrest, ?_⟩
    rw [attemptsCost_retry dbObj width hmore]
    simp only [calls_cons, calls_append, Call.isBdb, ↓reduceIte, hcost, hcosts, hnone]
    omega

end Pair

/-! ## The bodies on one key -/

/-- The calls of one attempt beside the gets that a loop makes. -/
def Operation.width : Operation δ → Nat
  | request (.putIf ..) => 2
  | request (.cursorGet ..) => 3
  | direct (.cursorGetS ..) => 3
  | _ => 1

theorem PutIfOutcome.calls_le {dbObj : Db} {x : Option TxnHandle} {s : PutIfLocals δ}
    {b : BdbTrace δ} {c : Int} (h : PutIfOutcome dbObj x s b c) : calls b ≤ 2 := by
  cases h with
  | missed => simp [Call.isBdb]
  | otherSize => simp [Call.isBdb]
  | otherBytes _ he => simp [Call.isBdb, calls_contents he]
  | put _ he => simp [Call.isBdb, calls_contents he]

theorem Outcome.calls_le {dbObj : Db} {x : Option TxnHandle} {op : Operation δ} {b : BdbTrace δ}
    {c : Int} {value : Option Bytes} (h : Outcome dbObj x op b c value) : calls b ≤ op.width := by
  cases op with
  | request r =>
    cases r with
    | get => obtain ⟨_, _, rfl, -⟩ := h; exact Nat.le_refl 1
    | put => cases h; exact Nat.le_refl 1
    | putIf => obtain ⟨_, -, -, -, -, h⟩ := h; exact h.calls_le
    | del => cases h; exact Nat.le_refl 1
    | cursorGet => cases h
  | direct c =>
    cases c with
    | getS => obtain ⟨_, _, rfl, -⟩ := h; exact Nat.le_refl 1
    | putS => cases h; exact Nat.le_refl 1
    | delS => cases h; exact Nat.le_refl 1
    | cursorGetS => cases h

/-- Caller memory can hold as many bytes as its length says. -/
theorem contents_some (d : Data δ) : ∃ e v, Runs d.contents e v ∧ v.length = d.size := by
  cases d with
  | buffer p len =>
    exact ⟨_, List.replicate len 0, ⟨_, [], rfl, rfl, rfl⟩, List.length_replicate⟩
  | _ => exact ⟨[], _, ⟨rfl, rfl⟩, rfl⟩

theorem compareAndPut_spends (dbObj : Db) (x : Option TxnHandle) {s : PutIfLocals δ}
    {e : BdbTrace δ} (hs : s.oldVal.data.size = s.baton.oldVal.data.size)
    (he : Runs s.baton.oldVal.data.contents e s.oldVal.data.bytes) :
    ∃ s₁, Runs (compareAndPut dbObj x s)
        (e ++ [⟨.put dbObj._db x s.baton.key s.baton.val s.baton.flags, dbLockDeadlock⟩]) s₁ ∧
      s₁.baton.status = dbLockDeadlock := by
  rw [compareAndPut, if_neg (not_not_intro hs)]
  simp only [runs_bind]
  refine ⟨PutIfLocals.setStatus dbLockDeadlock
    { s with baton := { s.baton with ledger := s.baton.ledger.read s.oldVal.data } },
    ⟨e, _, _, he, ?_, rfl⟩, rfl⟩
  rw [if_neg (not_not_intro rfl)]
  exact ⟨dbLockDeadlock, [], rfl, rfl, rfl⟩

/-- The value is the one expected, and the put is a victim of a deadlock. -/
theorem putIfBody_spends (dbObj : Db) (x : Option TxnHandle) (s : PutIfLocals δ) :
    ∃ b s₁, Runs (putIfBody dbObj x s) b s₁ ∧ s₁.baton.status = dbLockDeadlock ∧ calls b = 2 := by
  obtain ⟨e, v, he, hv⟩ := contents_some s.baton.oldVal.data
  obtain ⟨s₁, h, hd⟩ := compareAndPut_spends dbObj x
    (s := { baton := { s.baton with status := 0, ledger := (s.oldVal.receive v s.baton.ledger).2 },
            oldVal := (s.oldVal.receive v s.baton.ledger).1 })
    (by rw [receive_size]; exact hv) (by rw [receive_bytes]; exact he)
  refine ⟨_, s₁, ⟨(0, v), _, rfl, h⟩, hd, ?_⟩
  simp [Call.isBdb, calls_contents he]

theorem onKey_spends (dbObj : Db) {op : Operation δ} (hk : op.onKey = true) (x : Option TxnHandle)
    (s : op.bracket.Locals) :
    ∃ b s₁, Runs (op.bracket.body dbObj x s) b s₁ ∧ op.bracket.status.get s₁ = dbLockDeadlock ∧
      calls b = op.width := by
  cases op with
  | request r =>
    cases r with
    | get => exact ⟨_, _, ⟨(dbLockDeadlock, []), [], rfl, rfl, rfl⟩, rfl, rfl⟩
    | put => exact ⟨_, _, ⟨dbLockDeadlock, [], rfl, rfl, rfl⟩, rfl, rfl⟩
    | putIf => exact putIfBody_spends dbObj x s
    | del => exact ⟨_, _, ⟨dbLockDeadlock, [], rfl, rfl, rfl⟩, rfl, rfl⟩
    | cursorGet => cases hk
  | direct c =>
    cases c with
    | getS => exact ⟨_, _, ⟨(dbLockDeadlock, []), [], rfl, rfl, rfl⟩, rfl, rfl⟩
    | putS => exact ⟨_, _, ⟨dbLockDeadlock, [], rfl, rfl, rfl⟩, rfl, rfl⟩
    | delS => exact ⟨_, _, ⟨dbLockDeadlock, [], rfl, rfl, rfl⟩, rfl, rfl⟩
    | cursorGetS => cases hk

/-! ## The cursor walks -/

/-- The gets the loop still has. -/
def CursorLocals.left (s : CursorLocals δ) : Nat := (s.baton.limit - s.i).toNat

theorem push_left (s : CursorLocals δ) (flags : Int) (pair : DbtPtr δ × DbtPtr δ) (bytes : Bytes × Bytes) :
    (s.push flags pair bytes).2.left = s.left := rfl

theorem walk_pays {k : CursorHandle} (more : Nat) {pair : DbtPtr δ × DbtPtr δ}
    {s s' : CursorLocals δ} {t : BdbTrace δ} (hl : s.left = more) (h : Runs (walk k pair s) t s') :
    s'.cursor = s.cursor ∧ calls t + s'.left ≤ s.left := by
  induction more generalizing pair s t with
  | zero =>
    have hlt : ¬ s.i < s.baton.limit := by rw [CursorLocals.left] at hl; omega
    rw [walk, if_neg hlt] at h
    obtain ⟨rfl, rfl⟩ := h
    refine ⟨rfl, ?_⟩
    simp only [calls_nil, CursorLocals.left]
    omega
  | succ more ih =>
    have hlt : s.i < s.baton.limit := by rw [CursorLocals.left] at hl; omega
    have hnext : ∀ rc, ({ s with i := s.i + 1, rc := rc } : CursorLocals δ).left = more := by
      intro rc
      simp only [CursorLocals.left] at hl ⊢
      omega
    rw [walk, if_pos hlt] at h
    obtain ⟨⟨c, bytes⟩, t, rfl, h⟩ := h
    by_cases hc : c = 0
    · subst hc
      simp only [↓reduceIte] at h
      obtain ⟨hcur, hle⟩ := ih ((push_left _ _ pair bytes).trans (hnext 0)) h
      refine ⟨hcur, ?_⟩
      rw [push_left, hnext] at hle
      simp only [calls_cons, Call.isBdb, ↓reduceIte]
      omega
    · simp only [hc, ↓reduceIte, runs_ret] at h
      obtain ⟨rfl, rfl⟩ := h
      refine ⟨rfl, ?_⟩
      rw [hnext]
      simp only [calls_cons, calls_nil, Call.isBdb, ↓reduceIte]
      omega

theorem walk_spends (k : CursorHandle) (more : Nat) (pair : DbtPtr δ × DbtPtr δ)
    (s : CursorLocals δ) (hl : s.left = more) :
    ∃ t s', Runs (walk k pair s) t s' ∧ s'.cursor = s.cursor ∧ s'.left = 0 ∧ calls t = more := by
  induction more generalizing pair s with
  | zero =>
    have hlt : ¬ s.i < s.baton.limit := by rw [CursorLocals.left] at hl; omega
    rw [walk, if_neg hlt]
    refine ⟨[], _, ⟨rfl, rfl⟩, rfl, ?_, rfl⟩
    simp only [CursorLocals.left]
    omega
  | succ more ih =>
    have hlt : s.i < s.baton.limit := by rw [CursorLocals.left] at hl; omega
    have hnext : ({ s with i := s.i + 1, rc := 0 } : CursorLocals δ).left = more := by
      simp only [CursorLocals.left] at hl ⊢
      omega
    obtain ⟨t, s', h, hcur, hleft, hcalls⟩ := ih _ _ ((push_left _ _ pair ([], [])).trans hnext)
    rw [walk, if_pos hlt]
    refine ⟨⟨.cursorGet k pair.1.dbt pair.2.dbt s.baton.flags, (0, [], [])⟩ :: t, s',
      ⟨(0, [], []), t, rfl, h⟩, hcur, hleft, ?_⟩
    simp [Call.isBdb, hcalls]

theorem cursorError_spends (s : CursorLocals δ) {k : CursorHandle} (hk : s.cursor = some k) (c : Int) :
    Runs (cursorError s) [⟨.cursorClose k, c⟩] { s.setStatus c with cursor := none } := by
  rw [cursorError, hk]
  exact ⟨c, [], rfl, rfl, rfl⟩

theorem positionAndWalk_pays {k : CursorHandle} {pair : DbtPtr δ × DbtPtr δ} {s s' : CursorLocals δ}
    {t : BdbTrace δ} (hk : s.cursor = some k) (h : Runs (positionAndWalk k pair s) t s') :
    s'.cursor = none ∧ calls t + s'.left ≤ 2 + s.left := by
  rw [positionAndWalk, CursorLocals.copyKey, runs_bind] at h
  obtain ⟨t₁, r, t₂, hload, h, rfl⟩ := h
  obtain ⟨e, v, t₃, he, ⟨rfl, rfl⟩, rfl⟩ := (runs_bind _ _ _ _).mp hload
  simp only [Prog.call_bind, Prog.ret_bind, runs_call] at h
  obtain ⟨⟨c, bytes⟩, t, rfl, h⟩ := h
  have hload := calls_contents he
  by_cases hc : c = 0
  · subst hc
    simp only [ne_eq, not_true_eq_false, ↓reduceIte, runs_bind] at h
    obtain ⟨t₁, s₁, t₂, hw, herr, rfl⟩ := h
    obtain ⟨hcur, hle⟩ := walk_pays _ rfl hw
    obtain ⟨c, rfl, rfl⟩ := cursorError_runs (hcur.trans hk) herr
    refine ⟨rfl, ?_⟩
    have hleft : calls t₁ + s₁.left ≤ s.left := hle
    have hout : ({ s₁.setStatus c with cursor := none } : CursorLocals δ).left = s₁.left := rfl
    rw [hout]
    simp only [calls_append, calls_cons, calls_nil, Call.isBdb, ↓reduceIte, hload]
    omega
  · simp only [ne_eq, hc, not_false_eq_true, ↓reduceIte] at h
    obtain ⟨c', rfl, rfl⟩ := cursorError_runs (by exact hk) h
    refine ⟨rfl, ?_⟩
    simp only [calls_append, calls_cons, calls_nil, Call.isBdb, ↓reduceIte, hload,
      CursorLocals.left, CursorLocals.setStatus, CursorLocals.storeKey]
    omega

theorem cursorGetBody_pays (dbObj : Db) :
    Pays (cursorGetBody (δ := δ) dbObj) (fun s => s.cursor = none) CursorLocals.left 3 := by
  intro x s b s₁ hs h
  simp only [cursorGetBody, Prog.call_bind, Prog.ret_bind, runs_call] at h
  obtain ⟨⟨c, k⟩, t, rfl, h⟩ := h
  by_cases hc : c = 0
  · subst hc
    simp only [ne_eq, not_true_eq_false, ↓reduceIte] at h
    obtain ⟨hcur, hle⟩ := positionAndWalk_pays rfl h
    refine ⟨hcur, ?_⟩
    have hleft : calls t + s₁.left ≤ 2 + s.left := hle
    simp only [calls_cons, Call.isBdb, ↓reduceIte]
    omega
  · simp only [ne_eq, hc, not_false_eq_true, ↓reduceIte, cursorError, CursorLocals.setStatus, hs] at h
    obtain ⟨rfl, rfl⟩ := h
    refine ⟨rfl, ?_⟩
    simp only [calls_cons, calls_nil, Call.isBdb, ↓reduceIte, CursorLocals.left]
    omega

/-- Every get finds a record, and the close is a victim of a deadlock. -/
theorem positionAndWalk_spends (k : CursorHandle) (pair : DbtPtr δ × DbtPtr δ) (s : CursorLocals δ)
    (hk : s.cursor = some k) :
    ∃ t s', Runs (positionAndWalk k pair s) t s' ∧ s'.baton.status = dbLockDeadlock ∧
      s'.left = 0 ∧ calls t = 2 + s.left := by
  obtain ⟨e, v, he, -⟩ := contents_some s.baton.key.data
  have hpos : ∀ rc, ({ (s.storeKey pair.1 v).2 with rc := rc } : CursorLocals δ).left = s.left :=
    fun _ => rfl
  obtain ⟨t, s₁, hw, hcur, hleft, hcalls⟩ := walk_spends k s.left _ _
    ((push_left { (s.storeKey pair.1 v).2 with rc := 0 } _ ((s.storeKey pair.1 v).1, pair.2)
      ([], [])).trans (hpos 0))
  have hclose := cursorError_spends s₁ (hcur.trans hk) dbLockDeadlock
  refine ⟨e ++ ⟨.cursorGet k (s.storeKey pair.1 v).1.dbt pair.2.dbt s.baton.initFlag, (0, [], [])⟩ ::
      (t ++ [⟨.cursorClose k, dbLockDeadlock⟩]),
    { s₁.setStatus dbLockDeadlock with cursor := none }, ?_, rfl, hleft, ?_⟩
  · rw [positionAndWalk, CursorLocals.copyKey, runs_bind]
    refine ⟨e, s.storeKey pair.1 v, _,
      (runs_bind _ _ _ _).mpr ⟨e, v, [], he, ⟨rfl, rfl⟩, (List.append_nil e).symm⟩, ?_, rfl⟩
    simp only [Prog.call_bind, Prog.ret_bind, runs_call]
    refine ⟨(0, [], []), _, rfl, ?_⟩
    rw [if_neg (not_not_intro rfl), runs_bind]
    exact ⟨t, s₁, _, hw, hclose, rfl⟩
  · simp only [calls_append, calls_cons, calls_nil, Call.isBdb, ↓reduceIte, calls_contents he, hcalls]
    omega

theorem cursorGetBody_spends (dbObj : Db) :
    Spends CursorLocals.statusVar (cursorGetBody (δ := δ) dbObj) (fun s => s.cursor = none)
      CursorLocals.left 3 := by
  intro x s _
  obtain ⟨t, s₁, h, hd, hleft, hcalls⟩ := positionAndWalk_spends 0
    ({ s with rc := 0, cursor := some 0 } : CursorLocals δ).allocPair.1
    ({ s with rc := 0, cursor := some 0 } : CursorLocals δ).allocPair.2 rfl
  refine ⟨⟨.cursor dbObj._db x, (0, 0)⟩ :: t, s₁, ?_, hd, hleft, ?_⟩
  · simp only [cursorGetBody, Prog.call_bind, Prog.ret_bind, runs_call]
    refine ⟨(0, 0), t, rfl, ?_⟩
    rw [if_neg (not_not_intro rfl)]
    exact h
  · have hstart : calls t = 2 + s.left := hcalls
    simp only [calls_cons, Call.isBdb, ↓reduceIte]
    omega

/-! ## The synchronous walk -/

def CursorSLocals.left (limit : Int) (s : CursorSLocals δ) : Nat := (limit - s.i).toNat

theorem addRecord_left (limit : Int) (s : CursorSLocals δ) (bytes : Bytes × Bytes) :
    (s.addRecord bytes).left limit = s.left limit := rfl

theorem walkS_pays {k : CursorHandle} {limit flags : Int} (more : Nat) {s s' : CursorSLocals δ}
    {t : BdbTrace δ} (hl : s.left limit = more) (h : Runs (walkS k limit flags s) t s') :
    s'.cursor = s.cursor ∧ calls t + s'.left limit ≤ s.left limit := by
  induction more generalizing s t with
  | zero =>
    have hlt : ¬ s.i < limit := by rw [CursorSLocals.left] at hl; omega
    rw [walkS, if_neg hlt] at h
    obtain ⟨rfl, rfl⟩ := h
    refine ⟨rfl, ?_⟩
    simp only [calls_nil, CursorSLocals.left]
    omega
  | succ more ih =>
    have hlt : s.i < limit := by rw [CursorSLocals.left] at hl; omega
    have hnext : ∀ rc, ({ s with i := s.i + 1, rc := rc } : CursorSLocals δ).left limit = more := by
      intro rc
      simp only [CursorSLocals.left] at hl ⊢
      omega
    rw [walkS, if_pos hlt] at h
    obtain ⟨⟨c, bytes⟩, t, rfl, h⟩ := h
    by_cases hc : c = 0
    · subst hc
      simp only [↓reduceIte] at h
      obtain ⟨hcur, hle⟩ := ih ((addRecord_left limit _ bytes).trans (hnext 0)) h
      refine ⟨hcur, ?_⟩
      rw [addRecord_left, hnext] at hle
      simp only [calls_cons, Call.isBdb, ↓reduceIte]
      omega
    · simp only [hc, ↓reduceIte, runs_ret] at h
      obtain ⟨rfl, rfl⟩ := h
      refine ⟨rfl, ?_⟩
      rw [hnext]
      simp only [calls_cons, calls_nil, Call.isBdb, ↓reduceIte]
      omega

theorem walkS_spends (k : CursorHandle) (limit flags : Int) (more : Nat) (s : CursorSLocals δ)
    (hl : s.left limit = more) :
    ∃ t s', Runs (walkS k limit flags s) t s' ∧ s'.cursor = s.cursor ∧ s'.left limit = 0 ∧
      calls t = more := by
  induction more generalizing s with
  | zero =>
    have hlt : ¬ s.i < limit := by rw [CursorSLocals.left] at hl; omega
    rw [walkS, if_neg hlt]
    refine ⟨[], _, ⟨rfl, rfl⟩, rfl, ?_, rfl⟩
    simp only [CursorSLocals.left]
    omega
  | succ more ih =>
    have hlt : s.i < limit := by rw [CursorSLocals.left] at hl; omega
    have hnext : ({ s with i := s.i + 1, rc := 0 } : CursorSLocals δ).left limit = more := by
      simp only [CursorSLocals.left] at hl ⊢
      omega
    obtain ⟨t, s', h, hcur, hleft, hcalls⟩ := ih _ ((addRecord_left limit _ ([], [])).trans hnext)
    rw [walkS, if_pos hlt]
    refine ⟨⟨.cursorGet k s.key s.val flags, (0, [], [])⟩ :: t, s', ⟨(0, [], []), t, rfl, h⟩, hcur,
      hleft, ?_⟩
    simp [Call.isBdb, hcalls]

theorem cursorSError_spends (s : CursorSLocals δ) {k : CursorHandle} (hk : s.cursor = some k)
    (c : Int) : Runs (cursorSError s) [⟨.cursorClose k, c⟩] { s with rc := c, cursor := none } := by
  rw [cursorSError, hk]
  exact ⟨c, [], rfl, rfl, rfl⟩

theorem positionAndWalkS_pays {k : CursorHandle} {key : Dbt δ} {limit initFlag flags : Int}
    {s s' : CursorSLocals δ} {t : BdbTrace δ} (hk : s.cursor = some k)
    (h : Runs (positionAndWalkS k key limit initFlag flags s) t s') :
    s'.cursor = none ∧ calls t + s'.left limit ≤ 2 + s.left limit := by
  rw [positionAndWalkS, runs_bind] at h
  obtain ⟨e, v, t₂, he, h, rfl⟩ := h
  simp only [Prog.call_bind, Prog.ret_bind, runs_call] at h
  obtain ⟨⟨c, bytes⟩, t, rfl, h⟩ := h
  have hload := calls_contents he
  by_cases hc : c = 0
  · subst hc
    simp only [ne_eq, not_true_eq_false, ↓reduceIte, runs_bind] at h
    obtain ⟨t₁, s₁, t₂, hw, herr, rfl⟩ := h
    obtain ⟨hcur, hle⟩ := walkS_pays _ rfl hw
    obtain ⟨c, rfl, rfl⟩ := cursorSError_runs (by split <;> exact hcur.trans hk) herr
    refine ⟨rfl, ?_⟩
    have hleft : calls t₁ + s₁.left limit ≤ s.left limit := hle
    have hlast : (if s₁.rc = dbNotfound then { s₁ with last := true } else s₁).i = s₁.i := by
      split <;> rfl
    simp only [calls_append, calls_cons, calls_nil, Call.isBdb, ↓reduceIte, hload,
      CursorSLocals.left, hlast] at hleft ⊢
    omega
  · simp only [ne_eq, hc, not_false_eq_true, ↓reduceIte] at h
    obtain ⟨c', rfl, rfl⟩ := cursorSError_runs (by exact hk) h
    refine ⟨rfl, ?_⟩
    simp only [calls_append, calls_cons, calls_nil, Call.isBdb, ↓reduceIte, hload,
      CursorSLocals.left]
    omega

theorem cursorGetSBody_pays (dbObj : Db) (key : Dbt δ) (limit initFlag flags : Int) :
    Pays (cursorGetSBody dbObj key limit initFlag flags) (fun s => s.cursor = none)
      (CursorSLocals.left limit) 3 := by
  intro x s b s₁ hs h
  simp only [cursorGetSBody, Prog.call_bind, Prog.ret_bind, runs_call] at h
  obtain ⟨⟨c, k⟩, t, rfl, h⟩ := h
  by_cases hc : c = 0
  · subst hc
    simp only [ne_eq, not_true_eq_false, ↓reduceIte] at h
    obtain ⟨hcur, hle⟩ := positionAndWalkS_pays rfl h
    have hleft : calls t + s₁.left limit ≤ 2 + s.left limit := hle
    refine ⟨hcur, ?_⟩
    simp only [calls_cons, Call.isBdb, ↓reduceIte]
    omega
  · simp only [ne_eq, hc, not_false_eq_true, ↓reduceIte, cursorSError, hs] at h
    obtain ⟨rfl, rfl⟩ := h
    refine ⟨rfl, ?_⟩
    simp only [calls_cons, calls_nil, Call.isBdb, ↓reduceIte, CursorSLocals.left]
    omega

theorem positionAndWalkS_spends (k : CursorHandle) (key : Dbt δ) (limit initFlag flags : Int)
    (s : CursorSLocals δ) (hk : s.cursor = some k) :
    ∃ t s', Runs (positionAndWalkS k key limit initFlag flags s) t s' ∧ s'.rc = dbLockDeadlock ∧
      s'.left limit = 0 ∧ calls t = 2 + s.left limit := by
  obtain ⟨e, v, he, -⟩ := contents_some key.data
  obtain ⟨t, s₁, hw, hcur, hleft, hcalls⟩ := walkS_spends k limit flags (s.left limit)
    (CursorSLocals.addRecord { s with key := { data := .block s.ledger.next v }, val := {},
                                      ledger := s.ledger.malloc, rc := 0 } ([], [])) rfl
  obtain ⟨s₂, hs₂, hcur₂, hleft₂⟩ : ∃ s₂ : CursorSLocals δ,
      (if s₁.rc = dbNotfound then { s₁ with last := true } else s₁) = s₂ ∧ s₂.cursor = some k ∧
        s₂.left limit = 0 := by
    refine ⟨_, rfl, ?_, ?_⟩
    · split <;> exact hcur.trans hk
    · split <;> exact hleft
  refine ⟨e ++ ⟨.cursorGet k { data := .block s.ledger.next v } {} initFlag, (0, [], [])⟩ ::
      (t ++ [⟨.cursorClose k, dbLockDeadlock⟩]), { s₂ with rc := dbLockDeadlock, cursor := none },
    ?_, rfl, hleft₂, ?_⟩
  · rw [positionAndWalkS, runs_bind]
    refine ⟨e, v, _, he, ?_, rfl⟩
    simp only [Prog.call_bind, Prog.ret_bind, runs_call]
    refine ⟨(0, [], []), _, rfl, ?_⟩
    rw [if_neg (not_not_intro rfl), runs_bind]
    refine ⟨t, s₁, _, hw, ?_, rfl⟩
    rw [hs₂]
    exact cursorSError_spends s₂ hcur₂ dbLockDeadlock
  · simp only [calls_append, calls_cons, calls_nil, Call.isBdb, ↓reduceIte, calls_contents he, hcalls]
    omega

theorem cursorGetSBody_spends (dbObj : Db) (key : Dbt δ) (limit initFlag flags : Int) :
    Spends CursorSLocals.statusVar (cursorGetSBody dbObj key limit initFlag flags)
      (fun s => s.cursor = none) (CursorSLocals.left limit) 3 := by
  intro x s _
  obtain ⟨t, s₁, h, hd, hleft, hcalls⟩ := positionAndWalkS_spends 0 key limit initFlag flags
    { s with rc := 0, cursor := some 0 } rfl
  refine ⟨⟨.cursor dbObj._db x, (0, 0)⟩ :: t, s₁, ?_, hd, hleft, ?_⟩
  · simp only [cursorGetSBody, Prog.call_bind, Prog.ret_bind, runs_call]
    refine ⟨(0, 0), t, rfl, ?_⟩
    rw [if_neg (not_not_intro rfl)]
    exact h
  · have hstart : calls t = 2 + s.left limit := hcalls
    simp only [calls_cons, Call.isBdb, ↓reduceIte]
    omega

/-! ## The operations -/

/-- The gets of the loop, which are paid for once. -/
def Operation.further : Operation δ → Nat
  | request (.cursorGet _ limit _ _) => (limit - 1).toNat
  | direct (.cursorGetS _ limit _ _) => (limit - 1).toNat
  | _ => 0

/-- The greatest number of calls, on either kind of Db. -/
def Operation.most (dbObj : Db) (op : Operation δ) : Nat :=
  if dbObj._transactional then attemptsCost dbObj op.width 0 + op.further
  else op.width + op.further

/-- The text between the macros costs what the attempts are charged for. -/
theorem bracket_costs (dbObj : Db) (op : Operation δ) :
    ∃ (I : op.bracket.Locals → Prop) (left : op.bracket.Locals → Nat), I op.bracket.start ∧
      left op.bracket.start = op.further ∧ Pays (op.bracket.body dbObj) I left op.width ∧
      Spends op.bracket.status (op.bracket.body dbObj) I left op.width := by
  by_cases hk : op.onKey = true
  · obtain ⟨I, hmeets⟩ := onKey_meets dbObj hk
    refine ⟨I, fun _ => 0, hmeets.start, ?_, ?_, ?_⟩
    · match op, hk with
      | .request (.get ..), _ => rfl
      | .request (.put ..), _ => rfl
      | .request (.putIf ..), _ => rfl
      | .request (.del ..), _ => rfl
      | .direct (.getS ..), _ => rfl
      | .direct (.putS ..), _ => rfl
      | .direct (.delS ..), _ => rfl
    · intro x s b s₁ hI hb
      obtain ⟨hI₁, ho⟩ := hmeets.body x s b s₁ hI hb
      exact ⟨hI₁, ho.calls_le⟩
    · intro x s _
      obtain ⟨b, s₁, hb, hd, hcalls⟩ := onKey_spends dbObj hk x s
      exact ⟨b, s₁, hb, hd, rfl, hcalls⟩
  · match op, hk with
    | .request (.cursorGet key limit initFlag flags), _ =>
      exact ⟨fun s : CursorLocals δ => s.cursor = none, CursorLocals.left, rfl, rfl,
        cursorGetBody_pays dbObj, cursorGetBody_spends dbObj⟩
    | .direct (.cursorGetS key limit initFlag flags), _ =>
      exact ⟨fun s : CursorSLocals δ => s.cursor = none, CursorSLocals.left limit, rfl, rfl,
        cursorGetSBody_pays dbObj key limit initFlag flags,
        cursorGetSBody_spends dbObj key limit initFlag flags⟩

/-- The most calls that an operation can make on an open Db, whatever they return. -/
theorem operation_calls (dbObj : Db) (ho : dbObj._db ≠ none) (op : Operation δ) :
    IsGreatest {n | ∃ t d, Runs (op.deliver dbObj) t d ∧ calls t = n} (op.most dbObj) := by
  obtain ⟨I, left, hI, hleft, hpays, hspends⟩ := bracket_costs dbObj op
  rw [deliver_bracket fun _ _ => ho, Operation.most, ← hleft]
  cases ht : dbObj._transactional with
  | false =>
    rw [if_neg Bool.false_ne_true, txn, again_plain _ _ _ _ _ ht]
    constructor
    · obtain ⟨b, s₁, hb, -, -, hcalls⟩ := hspends none _ hI
      exact ⟨b, _, (runs_bind _ _ _ _).mpr ⟨b, s₁, [], hb, ⟨rfl, rfl⟩, (List.append_nil b).symm⟩,
        hcalls⟩
    · rintro n ⟨t, d, hr, rfl⟩
      obtain ⟨b, s₁, t₂, hb, ⟨rfl, rfl⟩, rfl⟩ := (runs_bind _ _ _ _).mp hr
      have hle := (hpays none _ _ _ hI hb).2
      rw [List.append_nil]
      omega
  | true =>
    rw [if_pos rfl]
    constructor
    · obtain ⟨t, s', hatt, hcalls⟩ := attempts_spend hpays hspends _ 0 rfl _ hI
      exact ⟨t, _, (runs_bind _ _ _ _).mpr
        ⟨t, s', [], hatt.runs ht, ⟨rfl, rfl⟩, (List.append_nil t).symm⟩, hcalls⟩
    · rintro n ⟨t, d, hr, rfl⟩
      obtain ⟨b, s₁, t₂, hb, ⟨rfl, rfl⟩, rfl⟩ := (runs_bind _ _ _ _).mp hr
      rw [List.append_nil]
      exact (txn_attempts ht hb).pays hpays hI

/-- Two attempts at a walk of four records: the second finds the counter where the first left it. -/
theorem operation_calls_page :
    IsGreatest {n | ∃ t d, Runs ((Operation.request (.cursorGet (buffer []) 4 dbFirst dbNext)).deliver
      openDb) t d ∧ calls t = n} 13 :=
  operation_calls openDb (by decide) (.request (.cursorGet (buffer []) 4 dbFirst dbNext))

end NodeBdb
