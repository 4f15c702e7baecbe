import NodeBdb.Walks
import NodeBdb.Success

/-!
# Walks cut short

A get that fails ends the walk at the label `error`, where the close overwrites its code.
What is delivered is the code of the close, or of the commit after it, so an error of a
get is told only where one of these fails as well. An error of the cursor open is kept,
and a refused `txn_begin` leaves the deadlock of the attempt before it.
-/

namespace NodeBdb

open Interaction

variable {δ σ : Type}

/-- A code other than 0 and `DB_NOTFOUND`. -/
def Failed (c : Int) : Prop := c ≠ 0 ∧ c ≠ dbNotfound

instance (c : Int) : Decidable (Failed c) := inferInstanceAs (Decidable (_ ∧ _))

/-- A call whose failure cuts the walk short. -/
def Call.walks : Call δ → Bool
  | .txnBegin _ | .cursor .. | .cursorGet .. => true
  | _ => false

/-- A call whose code the status keeps. -/
def Call.kept : Call δ → Bool
  | .cursor .. | .cursorClose _ | .commit _ => true
  | _ => false

/-- The last attempt met an error before the walk was done. -/
def CutShort (t : BdbTrace δ) : Prop :=
  ∃ e : BdbEvent δ, e ∈ lastAttempt t ∧ e.1.walks = true ∧ Failed e.code

instance (t : BdbTrace δ) : Decidable (CutShort t) :=
  inferInstanceAs (Decidable (∃ e : BdbEvent δ, e ∈ lastAttempt t ∧ e.1.walks = true ∧ Failed e.code))

/-- In the last attempt a call failed whose code is kept, or the attempt is a retry that was
refused. -/
def Kept (t : BdbTrace δ) : Prop :=
  (∃ e : BdbEvent δ, e ∈ lastAttempt t ∧ e.1.kept = true ∧ Failed e.code) ∨
    1 < (attemptsOf t).length ∧ ∃ e : BdbEvent δ, e ∈ lastAttempt t ∧ e.1.begins = true ∧ e.code ≠ 0

/-! ## The macro pair -/

theorem Gets.not_kept {t : BdbTrace δ} {rc : Int} {n : Nat} (h : Gets t rc n) :
    ∀ e ∈ t, e.1.kept = false :=
  h.calls (P := fun c => c.kept = false) (fun _ _ => rfl) fun _ _ _ _ => rfl

section

variable {dbObj : Db} {x : Option TxnHandle} {b t : BdbTrace δ} {st rc : Int} {n : Nat}

theorem not_failed_zero : ¬ Failed 0 := fun h => h.1 rfl

/-- Of the calls of a body only the open and the close are kept, and the status is theirs. -/
theorem CursorRun.kept (h : CursorRun dbObj x b st rc n) :
    (∃ e : BdbEvent δ, e ∈ b ∧ e.1.kept = true ∧ Failed e.code) ↔ Failed st := by
  cases h with
  | unopened hc => simp [Call.kept, BdbEvent.code]
  | @closed k mid rc n c hg =>
    constructor
    · rintro ⟨e, he, hk, hf⟩
      cases List.mem_cons.mp he with
      | inl hopen => rw [hopen] at hf; exact absurd hf not_failed_zero
      | inr he =>
        cases List.mem_append.mp he with
        | inl hmid => rw [hg.not_kept e hmid] at hk; cases hk
        | inr hclose => rw [List.mem_singleton.mp hclose] at hf; exact hf
    · intro hf
      exact ⟨⟨.cursorClose k, st⟩, by simp, rfl, hf⟩

theorem CursorRun.ne_nil (h : CursorRun dbObj x b st rc n) : ∃ e b', b = e :: b' := by
  cases h with
  | unopened _ => exact ⟨_, _, rfl⟩
  | closed _ => exact ⟨_, _, rfl⟩

/-- The last attempt, from its `txn_begin` to its end. -/
theorem CursorRun.lastAttempt (h : CursorRun dbObj x b st rc n) (p : BdbTrace δ)
    {env : Option EnvHandle} {y : TxnHandle} {e : BdbEvent δ} (he : e.1.begins = false) :
    lastAttempt (p ++ ⟨.txnBegin env, (0, y)⟩ :: (b ++ [e])) =
      ⟨.txnBegin env, (0, y)⟩ :: (b ++ [e]) :=
  lastAttempt_append p rfl (begins_once h.begins he)

/-- A granted last attempt keeps the status of its body and the code of its end. -/
theorem CursorRun.kept_attempt (h : CursorRun dbObj x b st rc n) (p : BdbTrace δ)
    {env : Option EnvHandle} {y : TxnHandle} {e : BdbEvent δ} (he : e.1.begins = false) :
    Kept (p ++ ⟨.txnBegin env, (0, y)⟩ :: (b ++ [e])) ↔
      Failed st ∨ e.1.kept = true ∧ Failed e.code := by
  -- the `txn_begin` of a granted attempt returned 0, and the attempt has no other
  have hgranted : ¬ ∃ e' : BdbEvent δ, e' ∈ ⟨.txnBegin env, (0, y)⟩ :: (b ++ [e]) ∧
      e'.1.begins = true ∧ e'.code ≠ 0 := by
    rw [exists_mem_attempt]
    rintro (⟨-, hc⟩ | ⟨e', hbody, hb, -⟩ | ⟨hb, -⟩)
    · exact hc rfl
    · rw [h.begins e' hbody] at hb
      cases hb
    · rw [he] at hb
      cases hb
  rw [Kept, h.lastAttempt p he, exists_mem_attempt, h.kept]
  simp only [hgranted, and_false, or_false]
  simp [Call.kept]

/-- Between the macros, a status that fails is one that was kept. -/
theorem txn_kept {status : Status σ} {body : Option TxnHandle → σ → BdbProg δ σ} {I : σ → Prop}
    (hbody : ∀ x s b s₁, I s → Runs (body x s) b s₁ →
      I s₁ ∧ ∃ rc n, CursorRun dbObj x b (status.get s₁) rc n)
    {s₀ s' : σ} (hI : I s₀) (h0 : status.get s₀ = 0) (hr : Runs (txn dbObj status body s₀) t s') :
    Failed (status.get s') ↔ Kept t := by
  cases ht : dbObj._transactional with
  | false =>
    obtain ⟨-, rc, n, hrun⟩ := hbody none s₀ t s' hI (txn_plain ht hr)
    obtain ⟨e, b, rfl⟩ := hrun.ne_nil
    have hlast := lastAttempt_single (e := e) fun e' he => hrun.begins e' (List.mem_cons_of_mem _ he)
    rw [Kept, hlast, hrun.kept, attemptsOf_single fun e' he =>
      hrun.begins e' (List.mem_cons_of_mem _ he)]
    simp
  | true =>
    have hatt := txn_attempts ht hr
    have hends := hatt.ends (B := fun x b s => ∃ rc n, CursorRun dbObj (some x) b (status.get s) rc n)
      (fun x s b s₁ => hbody (some x) s b s₁) hI
    cases hends with
    | @refused p c x _ hc hp =>
      have hlast := lastAttempt_append p (e := ⟨.txnBegin dbObj._env, (c, x)⟩) (b := []) rfl
        fun _ he => nomatch he
      have hlen := congrArg List.length (attemptsOf_append p (e := ⟨.txnBegin dbObj._env, (c, x)⟩)
        (b := []) rfl fun _ he => nomatch he)
      by_cases hnil : p = []
      · subst hnil
        rw [hatt.single rfl, h0]
        constructor
        · exact fun h => absurd h not_failed_zero
        · rintro (⟨e, he, hk, -⟩ | ⟨hne, -⟩)
          · rw [hlast, List.mem_singleton] at he
            rw [he] at hk
            cases hk
          · rw [hlen] at hne
            exact absurd hne (Nat.lt_irrefl 1)
      · rw [hp hnil]
        constructor
        · intro _
          have hpos : 0 < (attemptsOf p).length :=
            List.length_pos_iff.mpr (List.splitBy_ne_nil.mpr hnil)
          refine .inr ⟨?_, ⟨.txnBegin dbObj._env, (c, x)⟩, by rw [hlast]; simp, rfl, hc⟩
          rw [hlen, List.length_append]
          exact Nat.lt_add_of_pos_left hpos
        · exact fun _ => by decide
    | committed hb hs =>
      obtain ⟨rc, n, hrun⟩ := hb
      rw [hrun.kept_attempt _ rfl, hs, status.get_set]
      simp [not_failed_zero, Call.kept, BdbEvent.code]
    | aborted hb hs =>
      obtain ⟨rc, n, hrun⟩ := hb
      rw [hrun.kept_attempt _ rfl]
      simp [Call.kept]

end

/-! ## The two walks -/

/-- The end of data is no failure, so reporting it makes none and hides none. -/
theorem cursorGetOut_failed (s : CursorLocals δ) :
    Failed (cursorGetOut s).status ↔ Failed s.baton.status := by
  simp only [cursorGetOut]
  split
  · next h => simp [Failed, h.1]
  · rfl

theorem cursorGetSOut_failed (s : CursorSLocals δ) : Failed (cursorGetSOut s).rc ↔ Failed s.rc := by
  simp only [cursorGetSOut]
  split
  · next h => simp [Failed, h.1]
  · rfl

/-- What a walk delivers fails exactly where its trace says that a failure was kept. -/
theorem walk_failed_iff {dbObj : Db} {op : Operation δ} {t : BdbTrace δ} {d : Delivery}
    (hk : op.onKey = false) (ho : dbObj._db ≠ none) (hr : Runs (op.deliver dbObj) t d) :
    Failed d.code ↔ Kept t := by
  match op with
  | .request (.cursorGet key limit initFlag flags) =>
    simp only [Operation.deliver, Request.deliver, Request.worker, eioCursorGet, ho, ↓reduceIte,
      runs_bind, Prog.pure_eq, runs_ret] at hr
    obtain ⟨t₁, b', t₂, ⟨t₃, s', t₄, hr, ⟨rfl, rfl⟩, rfl⟩, ⟨rfl, rfl⟩, rfl⟩ := hr
    rw [List.append_nil, List.append_nil]
    refine (cursorGetOut_failed s').trans
      (txn_kept (I := fun s => s.cursor = none) ?_ rfl rfl hr)
    intro x s b s₁ hs hb
    obtain ⟨n, hrun, hcur, -⟩ := cursorGetBody_runs hs hb
    exact ⟨hcur, s₁.rc, n, hrun⟩
  | .direct (.cursorGetS key limit initFlag flags) =>
    simp only [Operation.deliver, DirectCall.deliver, cursorGetS, runs_bind, Prog.pure_eq,
      runs_ret] at hr
    obtain ⟨t₁, b', t₂, ⟨t₃, s', t₄, hr, ⟨rfl, rfl⟩, rfl⟩, ⟨rfl, rfl⟩, rfl⟩ := hr
    rw [List.append_nil, List.append_nil]
    refine (cursorGetSOut_failed s').trans
      (txn_kept (I := fun s => s.cursor = none) ?_ rfl rfl hr)
    intro x s b s₁ hs hb
    obtain ⟨rc, n, hrun, hcur, -⟩ := cursorGetSBody_runs hs hb
    exact ⟨hcur, rc, n, hrun⟩

/-- A walk that was cut short is told to have failed exactly where a failure was kept. -/
theorem cutShort_told_iff (dbObj : Db) (op : Operation δ) (t : BdbTrace δ) (d : Delivery)
    (hk : op.onKey = false) (ho : dbObj._db ≠ none) (hr : Runs (op.deliver dbObj) t d) :
    (CutShort t → Failed d.code) ↔ (CutShort t → Kept t) := by
  rw [walk_failed_iff hk ho hr]

/-- `cursorGet` with the defaults for a walk from the first record on. -/
def walkAll : Operation Bytes := .request (.cursorGet (buffer []) 100 7 16)

/-- Every get returns `c` and the close `close`; the other calls succeed. -/
def brokenGets (c close : Int) : BdbOracle Bytes := fun _ call =>
  match call with
  | .cursorGet .. => (c, [], [])
  | .cursorClose _ => close
  | call => replyCode 0 call

/-- `EIO` from the positioning get, and code 0. -/
theorem brokenGet_silent :
    ∃ t d, Runs (walkAll.deliver openDb) t d ∧ CutShort t ∧ ¬ Failed d.code :=
  ⟨_, _, runs_exec (brokenGets 5 0) _, by decide +kernel, by decide +kernel⟩

/-- `EIO` from the positioning get and from the close. -/
theorem brokenClose_told :
    ∃ t d, Runs (walkAll.deliver openDb) t d ∧ CutShort t ∧
      ((CutShort t → Failed d.code) ↔ (CutShort t → Kept t)) :=
  ⟨_, _, runs_exec (brokenGets 5 5) _, by decide +kernel,
    cutShort_told_iff openDb walkAll _ _ rfl (by decide) (runs_exec (brokenGets 5 5) _)⟩

end NodeBdb
