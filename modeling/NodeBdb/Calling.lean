import NodeBdb.Operations

/-!
# Which calls an operation makes

Every body calls the handle of its own Db, the cursor it opened and nothing else, and the
macro pair adds the calls on the environment. So a monitor without state that admits these
admits whatever an operation does.
-/

namespace NodeBdb

open Interaction

variable {δ α : Type}

/-- A monitor that admits the calls of the operations on this Db. -/
structure Admits (μ : Monitor (Call δ) Reply Unit) (dbObj : Db) : Prop where
  txn : dbObj._transactional = true → AdmitsTxn μ dbObj
  get : ∀ x key val flags, μ.admits () (.get dbObj._db x key val flags)
  put : ∀ x key val flags, μ.admits () (.put dbObj._db x key val flags)
  del : ∀ x key flags, μ.admits () (.del dbObj._db x key flags)
  cursor : ∀ x, μ.admits () (.cursor dbObj._db x)
  cursorGet : ∀ k key val flags, μ.admits () (.cursorGet k key val flags)
  cursorClose : ∀ k, μ.admits () (.cursorClose k)
  load : ∀ p len, μ.admits () (.load p len)

section Bodies

variable {μ : Monitor (Call δ) Reply Unit} {dbObj : Db} (hμ : Admits μ dbObj) (x : Option TxnHandle)

include hμ

theorem contents_admitted {Q : Unit → α → Prop} (d : Data δ) {f : Bytes → BdbProg δ α}
    (hf : ∀ v, μ.Obeys Q () (f v)) : μ.Obeys Q () (d.contents >>= f) := by
  cases d with
  | buffer p len => exact ⟨hμ.load p len, fun v _ => hf v⟩
  | _ => exact hf _

theorem getBody_admitted (b : EIODbBaton δ) : μ.Obeys (fun _ _ => True) () (getBody dbObj x b) := by
  simp only [getBody, Prog.call_bind, Prog.ret_bind, obeys_call]
  refine ⟨hμ.get _ _ _ _, fun r _ => ?_⟩
  split <;> exact trivial

theorem putIfBody_admitted (s : PutIfLocals δ) :
    μ.Obeys (fun _ _ => True) () (putIfBody dbObj x s) := by
  simp only [putIfBody, Prog.call_bind, Prog.ret_bind, obeys_call]
  refine ⟨hμ.get _ _ _ _, fun r _ => ?_⟩
  split
  · unfold compareAndPut
    split
    · exact trivial
    · apply contents_admitted hμ
      intro v
      dsimp only
      split
      · exact trivial
      · exact ⟨hμ.put _ _ _ _, fun _ _ => trivial⟩
  · exact trivial

theorem getSBody_admitted (key : Dbt δ) (flags : Int) (s : SyncLocals δ) :
    μ.Obeys (fun _ _ => True) () (getSBody dbObj key flags x s) := by
  simp only [getSBody, Prog.call_bind, Prog.ret_bind, obeys_call]
  refine ⟨hμ.get _ _ _ _, fun r _ => ?_⟩
  split <;> exact trivial

theorem cursorError_admitted (s : CursorLocals δ) :
    μ.Obeys (fun _ _ => True) () (cursorError s) := by
  unfold cursorError
  split
  · exact ⟨hμ.cursorClose _, fun _ _ => trivial⟩
  · exact trivial

theorem walk_admitted (k : CursorHandle) (left : Nat) (pair : DbtPtr δ × DbtPtr δ)
    (s : CursorLocals δ) (hl : (s.baton.limit - s.i).toNat = left) :
    μ.Obeys (fun _ _ => True) () (walk k pair s) := by
  induction left using Nat.strongRecOn generalizing pair s with
  | ind left ih =>
    rw [walk]
    by_cases hlt : s.i < s.baton.limit
    · rw [if_pos hlt]
      refine ⟨hμ.cursorGet _ _ _ _, fun r _ => ?_⟩
      by_cases hr : r.1 = 0
      · simp only [hr, ↓reduceIte]
        refine ih _ ?_ _ _ rfl
        simp only [CursorLocals.push, CursorLocals.allocPair, EIODbBaton.pushRecord]
        omega
      · simp only [hr, ↓reduceIte]
        exact trivial
    · rw [if_neg hlt]
      exact trivial

theorem cursorGetBody_admitted (s : CursorLocals δ) :
    μ.Obeys (fun _ _ => True) () (cursorGetBody dbObj x s) := by
  simp only [cursorGetBody, Prog.call_bind, Prog.ret_bind, obeys_call]
  refine ⟨hμ.cursor _, fun r _ => ?_⟩
  split
  · exact cursorError_admitted hμ _
  · unfold positionAndWalk CursorLocals.copyKey
    rw [obeys_bind]
    apply contents_admitted hμ
    intro v
    simp only [Prog.pure_eq, obeys_ret, Prog.call_bind, Prog.ret_bind, obeys_call]
    refine ⟨hμ.cursorGet _ _ _ _, fun got _ => ?_⟩
    split
    · exact cursorError_admitted hμ _
    · rw [obeys_bind]
      exact (walk_admitted hμ _ _ _ _ rfl).mono fun _ s' _ => cursorError_admitted hμ s'

theorem cursorSError_admitted (s : CursorSLocals δ) :
    μ.Obeys (fun _ _ => True) () (cursorSError s) := by
  unfold cursorSError
  split
  · exact ⟨hμ.cursorClose _, fun _ _ => trivial⟩
  · exact trivial

theorem walkS_admitted (k : CursorHandle) (limit flags : Int) (left : Nat) (s : CursorSLocals δ)
    (hl : (limit - s.i).toNat = left) :
    μ.Obeys (fun _ _ => True) () (walkS k limit flags s) := by
  induction left using Nat.strongRecOn generalizing s with
  | ind left ih =>
    rw [walkS]
    by_cases hlt : s.i < limit
    · rw [if_pos hlt]
      refine ⟨hμ.cursorGet _ _ _ _, fun r _ => ?_⟩
      by_cases hr : r.1 = 0
      · simp only [hr, ↓reduceIte]
        refine ih _ ?_ _ rfl
        simp only [CursorSLocals.addRecord]
        omega
      · simp only [hr, ↓reduceIte]
        exact trivial
    · rw [if_neg hlt]
      exact trivial

theorem cursorGetSBody_admitted (key : Dbt δ) (limit initFlag flags : Int) (s : CursorSLocals δ) :
    μ.Obeys (fun _ _ => True) () (cursorGetSBody dbObj key limit initFlag flags x s) := by
  simp only [cursorGetSBody, Prog.call_bind, Prog.ret_bind, obeys_call]
  refine ⟨hμ.cursor _, fun r _ => ?_⟩
  split
  · exact cursorSError_admitted hμ _
  · unfold positionAndWalkS
    apply contents_admitted hμ
    intro v
    simp only [Prog.call_bind, Prog.ret_bind, obeys_call]
    refine ⟨hμ.cursorGet _ _ _ _, fun got _ => ?_⟩
    split
    · exact cursorSError_admitted hμ _
    · rw [obeys_bind]
      exact (walkS_admitted hμ _ _ _ _ _ rfl).mono fun _ s' _ => cursorSError_admitted hμ _

theorem worker_admitted (r : Request δ) (b : EIODbBaton δ) :
    μ.Obeys (fun _ _ => True) () (r.worker dbObj b) := by
  by_cases ho : dbObj._db = none
  · rw [worker_closed ho]
    exact trivial
  · cases r with
    | get key flags =>
      simp only [Request.worker, eioGet, ho, ↓reduceIte]
      exact txn_keeps hμ.txn (fun x s _ => getBody_admitted hμ x s) _ trivial
    | put key val flags =>
      simp only [Request.worker, eioPut, ho, ↓reduceIte]
      exact txn_keeps (I := fun _ => True) hμ.txn
        (fun _ _ _ => by exact ⟨hμ.put _ _ _ _, fun _ _ => trivial⟩) _ trivial
    | putIf key val oldVal flags =>
      simp only [Request.worker, eioPutIf, ho, ↓reduceIte, obeys_bind]
      exact txn_keeps hμ.txn (fun x s _ => putIfBody_admitted hμ x s) _ trivial
    | del key flags =>
      simp only [Request.worker, eioDel, ho, ↓reduceIte]
      exact txn_keeps (I := fun _ => True) hμ.txn
        (fun _ _ _ => by exact ⟨hμ.del _ _ _, fun _ _ => trivial⟩) _ trivial
    | cursorGet key limit initFlag flags =>
      simp only [Request.worker, eioCursorGet, ho, ↓reduceIte, obeys_bind]
      exact txn_keeps hμ.txn (fun x s _ => cursorGetBody_admitted hμ x s) _ trivial

theorem direct_admitted (c : DirectCall δ) : μ.Obeys (fun _ _ => True) () (c.deliver dbObj) := by
  rw [direct_bracket, obeys_bind]
  cases c with
  | getS key flags =>
    exact txn_keeps hμ.txn (fun x s _ => getSBody_admitted hμ x key flags s) _ trivial
  | putS key val flags =>
    exact txn_keeps (I := fun _ => True) hμ.txn
      (fun _ _ _ => by exact ⟨hμ.put _ _ _ _, fun _ _ => trivial⟩) _ trivial
  | delS key flags =>
    exact txn_keeps (I := fun _ => True) hμ.txn
      (fun _ _ _ => by exact ⟨hμ.del _ _ _, fun _ _ => trivial⟩) _ trivial
  | cursorGetS key limit initFlag flags =>
    exact txn_keeps hμ.txn
      (fun x s _ => cursorGetSBody_admitted hμ x key limit initFlag flags s) _ trivial

end Bodies

section Runs

variable {μ : Monitor (Call δ) Reply Unit} {p : BdbProg δ α} {t : BdbTrace δ} {a : α}

/-- Every call of a run is admitted, where all replies are possible. -/
theorem admitted_runs (hα : ∀ c r, μ.answers () c r) (hp : μ.Obeys (fun _ _ => True) () p)
    (hr : Runs p t a) : ∀ e ∈ t, μ.admits () e.1 := by
  induction p generalizing t with
  | ret b =>
    obtain ⟨rfl, -⟩ := hr
    simp
  | call c k ih =>
    obtain ⟨r, t', rfl, hr⟩ := hr
    intro e he
    cases he with
    | head => exact hp.1
    | tail _ he => exact ih r (hp.2 r (hα c r)) hr e he

/-- A monitor that admits more is obeyed as well. -/
theorem obeys_weaken {ν : Monitor (Call δ) Reply Unit} {Q : Unit → α → Prop}
    (hc : ∀ c, μ.admits () c → ν.admits () c) (hα : ∀ c r, ν.answers () c r → μ.answers () c r)
    (hp : μ.Obeys Q () p) : ν.Obeys Q () p := by
  induction p with
  | ret b => exact hp
  | call c k ih => exact ⟨hc c hp.1, fun r hr => ih r (hp.2 r (hα c r hr))⟩

end Runs

end NodeBdb
