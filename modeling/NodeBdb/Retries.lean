import NodeBdb.Walks
import NodeBdb.Success

/-!
# Deadlock retries of a cursor walk

A retry of `EIO_CursorGet` starts from the locals the aborted attempt left. Where that
attempt read no record they differ from the first ones in nothing that the next attempt
does not overwrite, so it does what it would have done alone. A record that was read stays
in `records`, and its count in `i`; and a deadlock at a get is overwritten by the close,
so that the attempt is committed instead of retried.
-/

namespace NodeBdb

open Interaction

variable {δ : Type}

/-! ## What a scenario is -/

/-- A call of the walk itself. -/
def Call.onCursor : Call δ → Bool
  | .cursor .. | .cursorGet .. | .cursorClose _ => true
  | _ => false

/-- The open or the close of the cursor. -/
def Call.endsCursor : Call δ → Bool
  | .cursor .. | .cursorClose _ => true
  | _ => false

def Call.gets : Call δ → Bool
  | .cursorGet .. => true
  | _ => false

/-- The attempt met a deadlock at one of its calls. -/
def Deadlocked (a : BdbTrace δ) : Prop :=
  ∃ e : BdbEvent δ, e ∈ a ∧ e.1.onCursor = true ∧ e.code = dbLockDeadlock

instance (a : BdbTrace δ) : Decidable (Deadlocked a) :=
  inferInstanceAs (Decidable (∃ e : BdbEvent δ, e ∈ a ∧ _))

/-- No call failed; a get may have met the end of the data. -/
def Faultless (a : BdbTrace δ) : Prop :=
  ∀ e : BdbEvent δ, e ∈ a → e.code = 0 ∨ e.code = dbNotfound ∧ e.1.gets = true

instance (a : BdbTrace δ) : Decidable (Faultless a) :=
  inferInstanceAs (Decidable (∀ e : BdbEvent δ, e ∈ a → _))

/-- The first attempts met a deadlock and the one after them no fault; or none came after
them, although the retries were not used up. -/
structure DeadlockedFirst (retries : Int) (t : BdbTrace δ) : Prop where
  granted : ∀ e : BdbEvent δ, e ∈ t → e.1.begins = true → e.code = 0
  deadlocked : ∀ a ∈ (attemptsOf t).dropLast, Deadlocked a
  last : Faultless (lastAttempt t) ∨
    Deadlocked (lastAttempt t) ∧ ((attemptsOf t).length : Int) ≤ retries

/-- A `cursorGet` request, where `l` has been allocated before. -/
def cursorGetFrom (dbObj : Db) (l : Ledger) (key : Dbt δ) (limit initFlag flags : Int) :
    BdbProg δ Delivery := do
  let baton ← eioCursorGet dbObj
    { (Request.cursorGet key limit initFlag flags).baton with ledger := l }
  return eioAfterCursorGet baton

/-- Every attempt but the last was aborted, and the last, which met no fault, delivers what it
would deliver alone. -/
structure Invisible (dbObj : Db) (key : Dbt δ) (limit initFlag flags : Int) (t : BdbTrace δ)
    (d : Delivery) : Prop where
  aborted : ∀ a ∈ (attemptsOf t).dropLast, Aborted a
  faultless : Faultless (lastAttempt t)
  alone : ∃ l, Runs (cursorGetFrom dbObj l key limit initFlag flags) (lastAttempt t) d

/-- The deadlock was met by the open or the close, and no record was read. -/
def Clean (a : BdbTrace δ) : Prop :=
  (∃ e : BdbEvent δ, e ∈ a ∧ e.1.endsCursor = true ∧ e.code = dbLockDeadlock) ∧
    ∀ e : BdbEvent δ, e ∈ a → e.record = false

instance (a : BdbTrace δ) : Decidable (Clean a) :=
  inferInstanceAs (Decidable ((∃ e : BdbEvent δ, e ∈ a ∧ _) ∧ ∀ e : BdbEvent δ, e ∈ a → _))

/-! ## Locals that only differ in what is overwritten -/

/-- The locals an attempt starts from when no record has been read before it. -/
def Fresh (b : EIODbBaton δ) (s : CursorLocals δ) : Prop :=
  ∃ st l rc key val,
    s = { baton := { b with status := st, ledger := l }, rc := rc, key := key, val := val }

theorem walk_setStatus (k : CursorHandle) (c : Int) (left : Nat) (pair : DbtPtr δ × DbtPtr δ)
    (s : CursorLocals δ) (hl : (s.baton.limit - s.i).toNat = left) (hk : s.cursor = some k) :
    walk k pair (s.setStatus c) >>= cursorError = walk k pair s >>= cursorError := by
  induction left using Nat.strongRecOn generalizing pair s with
  | ind left ih =>
    rw [walk, walk]
    by_cases hlt : s.i < s.baton.limit
    · rw [if_pos hlt, if_pos (by exact hlt), Prog.call_bind, Prog.call_bind]
      congr 1
      funext r
      by_cases hr : r.1 = 0
      · simp only [hr, ↓reduceIte]
        exact ih _ (by
          simp only [CursorLocals.push, CursorLocals.allocPair, EIODbBaton.pushRecord]
          omega) _ ({ s with i := s.i + 1, rc := 0 }.push s.baton.flags pair r.2).2 rfl hk
      · simp only [hr, ↓reduceIte, Prog.ret_bind, cursorError, CursorLocals.setStatus, hk]
    · rw [if_neg hlt, if_neg (by exact hlt)]
      simp only [Prog.ret_bind, cursorError, CursorLocals.setStatus, hk]

/-- The status a walk starts with is overwritten by its close. -/
theorem positionAndWalk_setStatus (k : CursorHandle) (c : Int) (pair : DbtPtr δ × DbtPtr δ)
    (s : CursorLocals δ) (hk : s.cursor = some k) :
    positionAndWalk k pair (s.setStatus c) = positionAndWalk k pair s := by
  simp only [positionAndWalk, CursorLocals.copyKey, Prog.bind_assoc, Prog.pure_eq, Prog.ret_bind,
    Prog.call_bind]
  congr 1
  funext v
  congr 1
  funext got
  by_cases hg : got.1 = 0
  · simp only [hg, ne_eq, not_true_eq_false, ↓reduceIte]
    exact walk_setStatus k c _ _ (({ (s.storeKey pair.1 v).2 with rc := 0 } : CursorLocals δ).push s.baton.initFlag
      ((s.storeKey pair.1 v).1, pair.2) got.2).2 rfl hk
  · simp only [ne_eq, hg, not_false_eq_true, ↓reduceIte]
    rfl

section Bodies

variable {dbObj : Db} {x : Option TxnHandle} {b : EIODbBaton δ} {s s₁ : CursorLocals δ}
  {t : BdbTrace δ}

/-- From fresh locals the body does what it does from the first ones. -/
theorem cursorGetBody_alone (hf : Fresh b s) (h : Runs (cursorGetBody dbObj x s) t s₁) :
    ∃ s₂, Runs (cursorGetBody dbObj x { baton := { b with ledger := s.baton.ledger } }) t s₂ ∧
      s₂.baton = s₁.baton ∧ s₂.rc = s₁.rc := by
  obtain ⟨st, l, rc, key, val, rfl⟩ := hf
  simp only [cursorGetBody, Prog.call_bind, Prog.ret_bind, runs_call] at h ⊢
  obtain ⟨r, t, rfl, h⟩ := h
  by_cases hr : r.1 = 0
  · simp only [hr, ne_eq, not_true_eq_false, ↓reduceIte] at h
    refine ⟨s₁, ⟨r, t, rfl, ?_⟩, rfl, rfl⟩
    simp only [hr, ne_eq, not_true_eq_false, ↓reduceIte]
    rw [← positionAndWalk_setStatus r.2 st _ _ rfl]
    exact h
  · simp only [hr, ne_eq, not_false_eq_true, ↓reduceIte] at h
    obtain ⟨rfl, rfl⟩ := h
    refine ⟨{ baton := { b with status := r.1, ledger := l }, rc := r.1 }, ⟨r, [], rfl, ?_⟩, rfl, rfl⟩
    simp only [hr, ne_eq, not_false_eq_true, ↓reduceIte]
    exact ⟨rfl, rfl⟩

/-- A body that read no record leaves fresh locals fresh. -/
theorem cursorGetBody_fresh (hf : Fresh b s) (h : Runs (cursorGetBody dbObj x s) t s₁)
    (hn : ∀ e : BdbEvent δ, e ∈ t → e.record = false) : Fresh b s₁ := by
  obtain ⟨st, l, rc, key, val, rfl⟩ := hf
  simp only [cursorGetBody, Prog.call_bind, Prog.ret_bind, runs_call] at h
  obtain ⟨r, t, rfl, h⟩ := h
  by_cases hr : r.1 = 0
  · simp only [hr, ne_eq, not_true_eq_false, ↓reduceIte, positionAndWalk, CursorLocals.copyKey,
      Prog.bind_assoc, Prog.pure_eq, Prog.ret_bind, Prog.call_bind] at h
    obtain ⟨e, v, t₁, -, ⟨got, t₂, rfl, hnext⟩, rfl⟩ := (runs_bind _ _ _ _).mp h
    by_cases hg : got.1 = 0
    · have hrec : (got.1 == 0) = false :=
        hn _ (List.mem_cons_of_mem _ (List.mem_append_right e List.mem_cons_self))
      rw [hg] at hrec
      cases hrec
    · simp only [hg, not_false_eq_true, ↓reduceIte] at hnext
      obtain ⟨c, rfl, rfl⟩ := cursorError_runs (by rfl) hnext
      exact ⟨c, _, _, _, _, rfl⟩
  · simp only [hr, ne_eq, not_false_eq_true, ↓reduceIte] at h
    obtain ⟨rfl, rfl⟩ := h
    exact ⟨r.1, _, _, _, _, rfl⟩

end Bodies

/-! ## Attempt after attempt -/

section Runs

variable {dbObj : Db} {b : EIODbBaton δ} {n : Int} {s s' : CursorLocals δ} {t : BdbTrace δ}

/-- Each attempt leaves the records it has read. -/
theorem attempts_records (h : Attempts dbObj CursorLocals.statusVar (cursorGetBody dbObj) n s t s')
    (hs : s.cursor = none) :
    s'.baton.records.length = s.baton.records.length + t.countP BdbEvent.record := by
  induction h with
  | refused _ => rfl
  | committed hb _ =>
    obtain ⟨m, hrun, -, hm⟩ := cursorGetBody_runs hs hb
    refine hm.trans ?_
    simp [BdbEvent.record, hrun.count]
  | givenUp hb _ _ =>
    obtain ⟨m, hrun, -, hm⟩ := cursorGetBody_runs hs hb
    refine hm.trans ?_
    simp [BdbEvent.record, hrun.count]
  | retried hb _ _ _ ih =>
    obtain ⟨m, hrun, hcur, hm⟩ := cursorGetBody_runs hs hb
    rw [ih hcur, hm]
    simp [BdbEvent.record, hrun.count]
    omega

/-- A deadlock in the status was met by the open or by the close. -/
theorem CursorRun.deadlock_ends {x : Option TxnHandle} {rc : Int} {m : Nat} {a : BdbTrace δ}
    (h : CursorRun dbObj x a dbLockDeadlock rc m) :
    ∃ e : BdbEvent δ, e ∈ a ∧ e.1.endsCursor = true ∧ e.code = dbLockDeadlock := by
  cases h with
  | unopened _ => exact ⟨_, List.mem_singleton_self _, rfl, rfl⟩
  | closed _ => exact ⟨_, List.mem_cons_of_mem _ (List.mem_append_right _ (List.mem_singleton_self _)), rfl, rfl⟩

/-- And the other way round. -/
theorem CursorRun.ends_deadlock {x : Option TxnHandle} {st rc : Int} {m : Nat} {a : BdbTrace δ}
    (h : CursorRun dbObj x a st rc m)
    (he : ∃ e : BdbEvent δ, e ∈ a ∧ e.1.endsCursor = true ∧ e.code = dbLockDeadlock) :
    st = dbLockDeadlock := by
  obtain ⟨e, he, hends, hc⟩ := he
  cases h with
  | unopened _ => rw [List.mem_singleton.mp he] at hc; exact hc
  | closed hg =>
    cases List.mem_cons.mp he with
    | inl hopen =>
      rw [hopen] at hc
      exact absurd (show (0 : Int) = dbLockDeadlock from hc) (by decide)
    | inr he =>
      cases List.mem_append.mp he with
      | inr hclose => rw [List.mem_singleton.mp hclose] at hc; exact hc
      | inl hmid =>
        rw [hg.calls (P := fun c => c.endsCursor = false) (fun _ _ => rfl) (fun _ _ _ _ => rfl) e hmid]
          at hends
        cases hends

/-- Every attempt but the last met the deadlock where it ends, and was aborted. -/
theorem attempts_earlier (h : Attempts dbObj CursorLocals.statusVar (cursorGetBody dbObj) n s t s')
    (hs : s.cursor = none) : ∀ a ∈ (attemptsOf t).dropLast, Aborted a ∧
      ∃ e : BdbEvent δ, e ∈ a ∧ e.1.endsCursor = true ∧ e.code = dbLockDeadlock := by
  induction h with
  | refused _ =>
    rw [attemptsOf_single (b := []) (by simp)]
    simp
  | committed hb _ =>
    obtain ⟨m, hrun, -, -⟩ := cursorGetBody_runs hs hb
    rw [attemptsOf_granted _ _ _ hrun.begins rfl]
    simp
  | givenUp hb _ _ =>
    obtain ⟨m, hrun, -, -⟩ := cursorGetBody_runs hs hb
    rw [attemptsOf_granted _ _ _ hrun.begins rfl]
    simp
  | @retried n s s₁ s₂ x b t c hb hd _ hrest ih =>
    obtain ⟨m, hrun, hcur, -⟩ := cursorGetBody_runs hs hb
    have hd : s₁.baton.status = dbLockDeadlock := hd
    rw [hrest.attemptsOf_retried _ _ _ hrun.begins, List.dropLast_cons_of_ne_nil hrest.attemptsOf_ne_nil]
    intro a ha
    cases List.mem_cons.mp ha with
    | inr hlater => exact ih hcur a hlater
    | inl hfirst =>
      rw [hfirst]
      rw [hd] at hrun
      obtain ⟨e, he, hends⟩ := hrun.deadlock_ends
      exact ⟨⟨_ :: b, x, c, rfl⟩, e, List.mem_cons_of_mem _ (List.mem_append_left _ he), hends⟩

/-- A last attempt that met the deadlock where it ends has used up the retries. -/
theorem attempts_used_up (h : Attempts dbObj CursorLocals.statusVar (cursorGetBody dbObj) n s t s')
    (hs : s.cursor = none) (hg : ∀ e : BdbEvent δ, e ∈ t → e.1.begins = true → e.code = 0)
    (hl : ∃ e : BdbEvent δ, e ∈ lastAttempt t ∧ e.1.endsCursor = true ∧ e.code = dbLockDeadlock) :
    dbObj._retries < n + (attemptsOf t).length := by
  induction h with
  | refused hc => exact absurd (hg _ (List.mem_singleton_self _) rfl) hc
  | @committed n s s₁ x b c hb h0 =>
    obtain ⟨m, hrun, -, -⟩ := cursorGetBody_runs hs hb
    rw [lastAttempt_granted _ _ _ hrun.begins rfl, exists_mem_attempt] at hl
    have hbody := (hl.resolve_left (by simp [Call.endsCursor])).resolve_right
      (by simp [Call.endsCursor])
    have h0 : s₁.baton.status = 0 := h0
    rw [hrun.ends_deadlock hbody] at h0
    exact absurd h0 (by decide)
  | givenUp hb _ hn =>
    obtain ⟨m, hrun, -, -⟩ := cursorGetBody_runs hs hb
    rw [lastAttempt_granted _ _ _ hrun.begins rfl, exists_mem_attempt] at hl
    have hbody := (hl.resolve_left (by simp [Call.endsCursor])).resolve_right
      (by simp [Call.endsCursor])
    rw [attemptsOf_granted _ _ _ hrun.begins rfl]
    by_contra hlt
    apply hn ⟨hrun.ends_deadlock hbody, ?_⟩
    simp only [List.length_singleton] at hlt
    omega
  | @retried n s s₁ s₂ x b t c hb hd _ hrest ih =>
    obtain ⟨m, hrun, hcur, -⟩ := cursorGetBody_runs hs hb
    have hcut := hrest.attemptsOf_retried dbObj._env x c hrun.begins
    rw [lastAttempt_cons hcut hrest.attemptsOf_ne_nil] at hl
    have h := ih hcur (fun e he => hg e (by simp [he])) hl
    rw [hcut, List.length_cons]
    omega

/-- A call of a faultless attempt that is no get returned 0. -/
theorem Faultless.code {a : BdbTrace δ} (h : Faultless a) {e : BdbEvent δ} (he : e ∈ a)
    (hne : e.1.gets = false) : e.code = 0 := by
  cases h e he with
  | inl h0 => exact h0
  | inr hend => rw [hne] at hend; exact nomatch hend.2

theorem CursorRun.faultless {x : Option TxnHandle} {st rc : Int} {m : Nat} {a : BdbTrace δ}
    {first last : BdbEvent δ} (h : CursorRun dbObj x a st rc m)
    (hf : Faultless (first :: (a ++ [last]))) : st = 0 := by
  have hmem : ∀ e ∈ a, e ∈ first :: (a ++ [last]) := fun e he =>
    List.mem_cons_of_mem _ (List.mem_append_left _ he)
  cases h with
  | unopened _ => exact hf.code (hmem _ (List.mem_singleton_self _)) rfl
  | closed _ =>
    exact hf.code (hmem _ (List.mem_cons_of_mem _ (List.mem_append_right _ (List.mem_singleton_self _)))) rfl

/-- After attempts that read no record, a last one that met no fault is what it is alone. -/
theorem attempts_alone (ht : dbObj._transactional = true)
    (h : Attempts dbObj CursorLocals.statusVar (cursorGetBody dbObj) n s t s') (hf : Fresh b s)
    (hn : ∀ a ∈ (attemptsOf t).dropLast, ∀ e : BdbEvent δ, e ∈ a → e.record = false)
    (hl : Faultless (lastAttempt t)) :
    ∃ l s₂, Runs (txn dbObj CursorLocals.statusVar (cursorGetBody dbObj)
        { baton := { b with ledger := l } }) (lastAttempt t) s₂ ∧
      s₂.baton = s'.baton ∧ s₂.rc = s'.rc := by
  have hcur : s.cursor = none := by
    obtain ⟨_, _, _, _, _, rfl⟩ := hf
    rfl
  induction h with
  | refused hc =>
    rw [lastAttempt_single (b := []) (by simp)] at hl
    exact absurd (hl.code (List.mem_singleton_self _) rfl) hc
  | @committed n s s₁ x a c hb h0 =>
    obtain ⟨m, hrun, -, -⟩ := cursorGetBody_runs hcur hb
    obtain ⟨s₂, halone, hbaton, hrc⟩ := cursorGetBody_alone hf hb
    rw [lastAttempt_granted _ _ _ hrun.begins rfl]
    refine ⟨s.baton.ledger, CursorLocals.statusVar.set c s₂, ?_, ?_, hrc⟩
    · rw [txn, again, if_pos ht]
      refine ⟨(0, x), _, rfl, ?_⟩
      simp only [ne_eq, not_true_eq_false, ↓reduceIte, runs_bind]
      refine ⟨a, s₂, [⟨.commit x, c⟩], halone, ?_, rfl⟩
      have h0 : CursorLocals.statusVar.get s₂ = 0 := (congrArg EIODbBaton.status hbaton).trans h0
      rw [if_pos h0]
      exact ⟨c, [], rfl, rfl, rfl⟩
    · exact congrArg (fun baton : EIODbBaton δ => { baton with status := c }) hbaton
  | @givenUp n s s₁ x a c hb h0 _ =>
    obtain ⟨m, hrun, -, -⟩ := cursorGetBody_runs hcur hb
    rw [lastAttempt_granted _ _ _ hrun.begins rfl] at hl
    exact absurd (hrun.faultless hl) h0
  | @retried n s s₁ s₂ x a t c hb hd _ hrest ih =>
    obtain ⟨m, hrun, hcur', -⟩ := cursorGetBody_runs hcur hb
    have hcut := hrest.attemptsOf_retried dbObj._env x c hrun.begins
    rw [lastAttempt_cons hcut hrest.attemptsOf_ne_nil] at hl ⊢
    rw [hcut, List.dropLast_cons_of_ne_nil hrest.attemptsOf_ne_nil] at hn
    have hfirst := hn _ List.mem_cons_self
    apply ih (cursorGetBody_fresh hf hb fun e he => hfirst e (by simp [he])) _ hl hcur'
    exact fun a ha => hn a (List.mem_cons_of_mem _ ha)

end Runs

/-! ## The request -/

section Request

variable {dbObj : Db} {l : Ledger} {key : Dbt δ} {limit initFlag flags : Int} {t : BdbTrace δ}
  {d : Delivery}

/-- The request is the macro pair around the walk, and what is made of the locals it leaves. -/
theorem cursorGetFrom_runs (ho : dbObj._db ≠ none) :
    Runs (cursorGetFrom dbObj l key limit initFlag flags) t d ↔
      ∃ s', Runs (txn dbObj CursorLocals.statusVar (cursorGetBody dbObj)
          { baton := { (Request.cursorGet key limit initFlag flags).baton with ledger := l } }) t s' ∧
        d = eioAfterCursorGet (cursorGetOut s') := by
  simp only [cursorGetFrom, eioCursorGet, ho, ↓reduceIte, Prog.bind_assoc, Prog.pure_eq,
    Prog.ret_bind, runs_bind, runs_ret]
  constructor
  · rintro ⟨t₁, s', t₂, hr, ⟨rfl, rfl⟩, rfl⟩
    exact ⟨s', by simpa using hr, rfl⟩
  · rintro ⟨s', hr, rfl⟩
    exact ⟨t, s', [], hr, ⟨rfl, rfl⟩, by simp⟩

theorem addCursorRecords_length (n : Nat) (records : List (DbtPtr δ × DbtPtr δ)) :
    (addCursorRecords n records).length = records.length := by
  induction records generalizing n with
  | nil => rfl
  | cons r records ih => simp [addCursorRecords, ih]

/-- Every record that was read is delivered, of whichever attempt. -/
theorem cursorGetFrom_count (ht : dbObj._transactional = true) (ho : dbObj._db ≠ none)
    (h : Runs (cursorGetFrom dbObj l key limit initFlag flags) t d) :
    d.array.map List.length = some (t.countP BdbEvent.record) := by
  obtain ⟨s', hr, rfl⟩ := (cursorGetFrom_runs ho).mp h
  have hcount := attempts_records (txn_attempts ht hr) rfl
  simp only [eioAfterCursorGet, cursorGetOut, Option.map_some, addCursorRecords_length, hcount]
  exact congrArg some (Nat.zero_add _)

theorem not_deadlocked_faultless {a : BdbTrace δ} (hd : Deadlocked a) : ¬ Faultless a := by
  rintro hf
  obtain ⟨e, he, -, hc⟩ := hd
  rcases hf e he with h0 | ⟨hn, -⟩
  · rw [hc] at h0; exact absurd h0 (by decide)
  · rw [hc] at hn; exact absurd hn (by decide)

/-- The deadlocks of a walk are invisible exactly where each was met by the open or the close,
before any record was read. -/
theorem deadlocks_invisible_iff (dbObj : Db) (ht : dbObj._transactional = true)
    (ho : dbObj._db ≠ none) (key : Dbt δ) (limit initFlag flags : Int) (t : BdbTrace δ) (d : Delivery)
    (hr : Runs ((Request.cursorGet key limit initFlag flags).deliver dbObj) t d)
    (hs : DeadlockedFirst dbObj._retries t) :
    Invisible dbObj key limit initFlag flags t d ↔ ∀ a ∈ attemptsOf t, Deadlocked a → Clean a := by
  have hfrom : Runs (cursorGetFrom dbObj {} key limit initFlag flags) t d := hr
  obtain ⟨s', htxn, hd⟩ := (cursorGetFrom_runs ho).mp hfrom
  have hatt := txn_attempts ht htxn
  have hlast := attemptsOf_last hatt.attemptsOf_ne_nil
  have hearlier := attempts_earlier hatt rfl
  constructor
  · rintro ⟨-, hfaultless, l, halone⟩ a ha hdead
    rw [hlast] at ha
    cases List.mem_append.mp ha with
    | inr hlast => exact absurd (List.mem_singleton.mp hlast ▸ hfaultless) (not_deadlocked_faultless hdead)
    | inl hold =>
      refine ⟨(hearlier a hold).2, ?_⟩
      -- the last attempt alone delivers as many records as it reads, so the others read none
      have hsplit : t = (attemptsOf t).dropLast.flatten ++ lastAttempt t := by
        have h := congrArg List.flatten hlast
        rw [List.flatten_append, List.flatten_singleton] at h
        rw [← h]
        exact (List.flatten_splitBy _ t).symm
      have hcount := (cursorGetFrom_count ht ho hfrom).symm.trans (cursorGetFrom_count ht ho halone)
      have hsum := (congrArg (List.countP BdbEvent.record) hsplit).trans List.countP_append
      have hzero : (attemptsOf t).dropLast.flatten.countP BdbEvent.record = 0 := by
        have heq := Option.some.inj hcount
        omega
      intro e he
      exact Bool.not_eq_true _ ▸ List.countP_eq_zero.mp hzero e (List.mem_flatten.mpr ⟨a, hold, he⟩)
  · intro hclean
    cases hs.last with
    | inl hfaultless =>
      refine ⟨fun a ha => (hearlier a ha).1, hfaultless, ?_⟩
      obtain ⟨l, s₂, halone, hbaton, hrc⟩ := attempts_alone ht hatt
        ⟨0, _, _, _, _, rfl⟩ (fun a ha => (hclean a ((List.dropLast_sublist _).subset ha)
          (hs.deadlocked a ha)).2) hfaultless
      refine ⟨l, (cursorGetFrom_runs ho).mpr ⟨s₂, halone, ?_⟩⟩
      rw [hd]
      simp only [eioAfterCursorGet, cursorGetOut, hbaton, hrc]
    | inr hstuck =>
      have hin : lastAttempt t ∈ attemptsOf t := by rw [hlast]; simp
      have hused := attempts_used_up hatt rfl hs.granted (hclean _ hin hstuck.1).1
      omega

end Request

/-- The first attempt is a deadlock victim at the call that `victim` picks; there are two
records. -/
def deadlockOnce (victim : Call Bytes → Bool) : BdbOracle Bytes := fun h call =>
  if victim call && (attemptsOf h).length ≤ 1 then replyCode dbLockDeadlock call
  else match call with
  | .cursorGet .. =>
    if h.countP BdbEvent.record < 2 then (0, [107], [118]) else (dbNotfound, [], [])
  | call => replyCode 0 call

/-- The deadlock of the positioning get is committed and told as success. -/
theorem deadlockedGet_not_retried :
    ∃ t d, Runs ((Request.cursorGet (buffer []) 100 7 16).deliver openDb) t d ∧
      DeadlockedFirst openDb._retries t ∧ ¬ Invisible openDb (buffer []) 100 7 16 t d := by
  refine ⟨_, _, runs_exec (deadlockOnce Call.gets) _, ⟨by decide +kernel, by decide +kernel, ?_⟩, ?_⟩
  · exact .inr (by decide +kernel)
  · intro h
    exact not_deadlocked_faultless (by decide +kernel) h.faultless

/-- The cursor cannot be opened at first; the second attempt reads the two records. -/
theorem deadlockedOpen_invisible :
    ∃ t d, Runs ((Request.cursorGet (buffer []) 100 7 16).deliver openDb) t d ∧
      DeadlockedFirst openDb._retries t ∧ Invisible openDb (buffer []) 100 7 16 t d := by
  have hs : DeadlockedFirst openDb._retries (exec (deadlockOnce fun c => c.endsCursor) []
      ((Request.cursorGet (buffer []) 100 7 16).deliver openDb)).1 :=
    ⟨by decide +kernel, by decide +kernel, .inl (by decide +kernel)⟩
  exact ⟨_, _, runs_exec _ _, hs, (deadlocks_invisible_iff openDb rfl (by decide) (buffer []) 100 7 16 _ _
    (runs_exec _ _) hs).mpr (by decide +kernel)⟩

end NodeBdb
