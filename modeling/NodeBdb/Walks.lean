import NodeBdb.Operations
import NodeBdb.Attempts

/-!
# The runs of a cursor walk

Both walks open a cursor, position it, get until a get fails or the limit is reached, and
close the cursor. One description of such a run serves both: its calls, the status with
which `TXN_END` is entered, what the last get said, and how many records were read.
-/

namespace NodeBdb

open Interaction

variable {δ : Type}

/-! ## One run of a body -/

/-- A record was read. -/
def BdbEvent.record : BdbEvent δ → Bool
  | ⟨.cursorGet .., r⟩ => r.1 == 0
  | _ => false

/-- What stands between the open and the close: the key is read, records are read, and at most
the last get fails. -/
inductive Gets : BdbTrace δ → Int → Nat → Prop where
  | nil : Gets [] 0 0
  | load {t : BdbTrace δ} {rc : Int} {n : Nat} {p : δ} {len : Nat} {v : Bytes} :
      Gets t rc n → Gets (⟨.load p len, v⟩ :: t) rc n
  | got {t : BdbTrace δ} {rc : Int} {n : Nat} {k : CursorHandle} {key val : Dbt δ} {flags : Int}
      {bytes : Bytes × Bytes} :
      Gets t rc n → Gets (⟨.cursorGet k key val flags, (0, bytes)⟩ :: t) rc (n + 1)
  | stopped {c : Int} {k : CursorHandle} {key val : Dbt δ} {flags : Int} {bytes : Bytes × Bytes} :
      c ≠ 0 → Gets [⟨.cursorGet k key val flags, (c, bytes)⟩] c 0

/-- The calls of a body, its status, the code of the last get, and the records read. -/
inductive CursorRun (dbObj : Db) (x : Option TxnHandle) : BdbTrace δ → Int → Int → Nat → Prop where
  | unopened {c : Int} {k : CursorHandle} : c ≠ 0 →
      CursorRun dbObj x [⟨.cursor dbObj._db x, (c, k)⟩] c c 0
  | closed {k : CursorHandle} {mid : BdbTrace δ} {rc : Int} {n : Nat} {c : Int} : Gets mid rc n →
      CursorRun dbObj x (⟨.cursor dbObj._db x, (0, k)⟩ :: (mid ++ [⟨.cursorClose k, c⟩])) c rc n

theorem Gets.append_load {t : BdbTrace δ} {rc : Int} {n : Nat} (d : Data δ) {e : BdbTrace δ}
    {v : Bytes} (he : Runs d.contents e v) (h : Gets t rc n) : Gets (e ++ t) rc n := by
  cases d with
  | buffer p len =>
    obtain ⟨w, _, rfl, rfl, rfl⟩ := he
    exact .load h
  | _ =>
    obtain ⟨rfl, -⟩ := he
    exact h

/-- It is made of loads and gets. -/
theorem Gets.calls {P : Call δ → Prop} (hload : ∀ p len, P (.load p len))
    (hget : ∀ k key val flags, P (.cursorGet k key val flags)) {t : BdbTrace δ} {rc : Int} {n : Nat}
    (h : Gets t rc n) : ∀ e ∈ t, P e.1 := by
  induction h with
  | nil => exact fun _ he => nomatch he
  | load _ ih => exact List.forall_mem_cons.mpr ⟨hload _ _, ih⟩
  | got _ ih => exact List.forall_mem_cons.mpr ⟨hget _ _ _ _, ih⟩
  | stopped _ => exact List.forall_mem_singleton.mpr (hget _ _ _ _)

theorem Gets.begins {t : BdbTrace δ} {rc : Int} {n : Nat} (h : Gets t rc n) :
    ∀ e ∈ t, e.1.begins = false :=
  h.calls (P := fun c => c.begins = false) (fun _ _ => rfl) fun _ _ _ _ => rfl

theorem Gets.count {t : BdbTrace δ} {rc : Int} {n : Nat} (h : Gets t rc n) :
    t.countP BdbEvent.record = n := by
  induction h with
  | nil => rfl
  | load _ ih => simpa [BdbEvent.record] using ih
  | got _ ih => simpa [BdbEvent.record] using ih
  | stopped hc => simpa [BdbEvent.record] using hc

section

variable {dbObj : Db} {x : Option TxnHandle} {b : BdbTrace δ} {status rc : Int} {n : Nat}

theorem CursorRun.begins (h : CursorRun dbObj x b status rc n) : ∀ e ∈ b, e.1.begins = false := by
  cases h with
  | unopened _ => exact List.forall_mem_singleton.mpr rfl
  | closed hg =>
    intro e he
    cases List.mem_cons.mp he with
    | inl hopen => rw [hopen]; rfl
    | inr he =>
      cases List.mem_append.mp he with
      | inl hmid => exact hg.begins e hmid
      | inr hclose => rw [List.mem_singleton.mp hclose]; rfl

theorem CursorRun.count (h : CursorRun dbObj x b status rc n) : b.countP BdbEvent.record = n := by
  cases h with
  | unopened _ => rfl
  | closed hg => simp [hg.count, BdbEvent.record]

end

/-! ## The asynchronous walk -/

/-- The loop of `EIO_CursorGet`. The induction is on the records the limit still allows. -/
theorem walk_runs {k : CursorHandle} (left : Nat) {pair : DbtPtr δ × DbtPtr δ}
    {s s' : CursorLocals δ} {t : BdbTrace δ} (hl : (s.baton.limit - s.i).toNat = left)
    (h0 : s.rc = 0) (h : Runs (walk k pair s) t s') :
    ∃ n, Gets t s'.rc n ∧ s'.cursor = s.cursor ∧
      s'.baton.records.length = s.baton.records.length + n := by
  induction left using Nat.strongRecOn generalizing pair s t with
  | ind left ih =>
    rw [walk] at h
    by_cases hlt : s.i < s.baton.limit
    · rw [if_pos hlt] at h
      obtain ⟨⟨c, bytes⟩, t, rfl, h⟩ := h
      by_cases hc : c = 0
      · subst hc
        simp only [↓reduceIte] at h
        obtain ⟨n, hg, hcur, hn⟩ := ih _ (by
          simp only [CursorLocals.push, CursorLocals.allocPair, EIODbBaton.pushRecord]
          omega) rfl rfl h
        refine ⟨n + 1, .got hg, hcur, ?_⟩
        rw [hn]
        simp only [CursorLocals.push, CursorLocals.allocPair, EIODbBaton.pushRecord,
          List.length_append, List.length_singleton]
        omega
      · simp only [hc, ↓reduceIte, runs_ret] at h
        obtain ⟨rfl, rfl⟩ := h
        exact ⟨0, .stopped hc, rfl, rfl⟩
    · rw [if_neg hlt] at h
      obtain ⟨rfl, rfl⟩ := h
      exact ⟨0, by rw [h0]; exact .nil, rfl, rfl⟩

theorem cursorError_runs {s s' : CursorLocals δ} {t : BdbTrace δ} {k : CursorHandle}
    (hk : s.cursor = some k) (h : Runs (cursorError s) t s') :
    ∃ c, t = [⟨.cursorClose k, c⟩] ∧ s' = { s.setStatus c with cursor := none } := by
  simp only [cursorError, hk, Prog.call_bind, Prog.ret_bind, runs_call, Prog.pure_eq, runs_ret] at h
  obtain ⟨c, _, rfl, rfl, rfl⟩ := h
  exact ⟨c, rfl, rfl⟩

/-- From the positioning get to the close. -/
theorem positionAndWalk_runs {k : CursorHandle} {pair : DbtPtr δ × DbtPtr δ} {s s' : CursorLocals δ}
    {t : BdbTrace δ} (hk : s.cursor = some k) (h : Runs (positionAndWalk k pair s) t s') :
    ∃ mid n, t = mid ++ [⟨.cursorClose k, s'.baton.status⟩] ∧ Gets mid s'.rc n ∧ s'.cursor = none ∧
      s'.baton.records.length = s.baton.records.length + n := by
  rw [positionAndWalk, CursorLocals.copyKey, runs_bind] at h
  obtain ⟨t₁, r, t₂, hload, h, rfl⟩ := h
  obtain ⟨e, v, t₃, he, ⟨rfl, rfl⟩, rfl⟩ := (runs_bind _ _ _ _).mp hload
  simp only [Prog.call_bind, Prog.ret_bind, runs_call] at h
  obtain ⟨⟨c, bytes⟩, t, rfl, h⟩ := h
  rw [List.append_nil]
  by_cases hc : c = 0
  · subst hc
    simp only [ne_eq, not_true_eq_false, ↓reduceIte, runs_bind] at h
    obtain ⟨t₁, s₁, t₂, hw, herr, rfl⟩ := h
    obtain ⟨n, hg, hcur, hn⟩ := walk_runs _ rfl rfl hw
    obtain ⟨c, rfl, rfl⟩ := cursorError_runs (hcur.trans hk) herr
    refine ⟨_, n + 1, (List.append_assoc e (_ :: t₁) _).symm, hg.got.append_load _ he, rfl, ?_⟩
    have hpush : s₁.baton.records.length = s.baton.records.length + 1 + n := by
      rw [hn]
      simp [CursorLocals.push, CursorLocals.allocPair, EIODbBaton.pushRecord, CursorLocals.storeKey]
    exact hpush.trans (by omega)
  · simp only [ne_eq, hc, not_false_eq_true, ↓reduceIte] at h
    obtain ⟨c', rfl, rfl⟩ := cursorError_runs (by exact hk) h
    exact ⟨_, 0, (List.append_assoc e [_] _).symm, (Gets.stopped hc).append_load _ he, rfl, rfl⟩

theorem cursorGetBody_runs {dbObj : Db} {x : Option TxnHandle} {s s' : CursorLocals δ}
    {t : BdbTrace δ} (hs : s.cursor = none) (h : Runs (cursorGetBody dbObj x s) t s') :
    ∃ n, CursorRun dbObj x t s'.baton.status s'.rc n ∧ s'.cursor = none ∧
      s'.baton.records.length = s.baton.records.length + n := by
  simp only [cursorGetBody, Prog.call_bind, Prog.ret_bind, runs_call] at h
  obtain ⟨⟨c, k⟩, t, rfl, h⟩ := h
  by_cases hc : c = 0
  · subst hc
    simp only [ne_eq, not_true_eq_false, ↓reduceIte] at h
    obtain ⟨mid, n, rfl, hg, hcur, hn⟩ := positionAndWalk_runs rfl h
    exact ⟨n, .closed hg, hcur, hn⟩
  · simp only [ne_eq, hc, not_false_eq_true, ↓reduceIte, cursorError, CursorLocals.setStatus, hs] at h
    obtain ⟨rfl, rfl⟩ := h
    exact ⟨0, .unopened hc, rfl, rfl⟩

/-! ## The synchronous walk -/

theorem walkS_runs {k : CursorHandle} {limit flags : Int} (left : Nat) {s s' : CursorSLocals δ}
    {t : BdbTrace δ} (hl : (limit - s.i).toNat = left) (h0 : s.rc = 0)
    (h : Runs (walkS k limit flags s) t s') :
    ∃ n, Gets t s'.rc n ∧ s'.cursor = s.cursor ∧ s'.arr.length = s.arr.length + n := by
  induction left using Nat.strongRecOn generalizing s t with
  | ind left ih =>
    rw [walkS] at h
    by_cases hlt : s.i < limit
    · rw [if_pos hlt] at h
      obtain ⟨⟨c, bytes⟩, t, rfl, h⟩ := h
      by_cases hc : c = 0
      · subst hc
        simp only [↓reduceIte] at h
        obtain ⟨n, hg, hcur, hn⟩ := ih _ (by simp only [CursorSLocals.addRecord]; omega) rfl rfl h
        refine ⟨n + 1, .got hg, hcur, ?_⟩
        rw [hn]
        simp only [CursorSLocals.addRecord, List.length_append, List.length_singleton]
        omega
      · simp only [hc, ↓reduceIte, runs_ret] at h
        obtain ⟨rfl, rfl⟩ := h
        exact ⟨0, .stopped hc, rfl, rfl⟩
    · rw [if_neg hlt] at h
      obtain ⟨rfl, rfl⟩ := h
      exact ⟨0, by rw [h0]; exact .nil, rfl, rfl⟩

theorem cursorSError_runs {s s' : CursorSLocals δ} {t : BdbTrace δ} {k : CursorHandle}
    (hk : s.cursor = some k) (h : Runs (cursorSError s) t s') :
    ∃ c, t = [⟨.cursorClose k, c⟩] ∧ s' = { s with rc := c, cursor := none } := by
  simp only [cursorSError, hk, Prog.call_bind, Prog.ret_bind, runs_call, Prog.pure_eq, runs_ret] at h
  obtain ⟨c, _, rfl, rfl, rfl⟩ := h
  exact ⟨c, rfl, rfl⟩

theorem positionAndWalkS_runs {k : CursorHandle} {key : Dbt δ} {limit initFlag flags : Int}
    {s s' : CursorSLocals δ} {t : BdbTrace δ} (hk : s.cursor = some k)
    (h : Runs (positionAndWalkS k key limit initFlag flags s) t s') :
    ∃ mid rc n, t = mid ++ [⟨.cursorClose k, s'.rc⟩] ∧ Gets mid rc n ∧ s'.cursor = none ∧
      s'.arr.length = s.arr.length + n := by
  rw [positionAndWalkS, runs_bind] at h
  obtain ⟨e, v, t₂, he, h, rfl⟩ := h
  simp only [Prog.call_bind, Prog.ret_bind, runs_call] at h
  obtain ⟨⟨c, bytes⟩, t, rfl, h⟩ := h
  by_cases hc : c = 0
  · subst hc
    simp only [ne_eq, not_true_eq_false, ↓reduceIte, runs_bind] at h
    obtain ⟨t₁, s₁, t₂, hw, herr, rfl⟩ := h
    obtain ⟨n, hg, hcur, hn⟩ := walkS_runs _ rfl rfl hw
    obtain ⟨c, rfl, rfl⟩ := cursorSError_runs (by split <;> exact hcur.trans hk) herr
    refine ⟨_, s₁.rc, n + 1, (List.append_assoc e (_ :: t₁) _).symm, hg.got.append_load _ he, ?_, ?_⟩
    · rfl
    · have hadd : s₁.arr.length = s.arr.length + 1 + n := by
        rw [hn]
        simp [CursorSLocals.addRecord]
      split <;> exact hadd.trans (by omega)
  · simp only [ne_eq, hc, not_false_eq_true, ↓reduceIte] at h
    obtain ⟨c', rfl, rfl⟩ := cursorSError_runs (by exact hk) h
    exact ⟨_, c, 0, (List.append_assoc e [_] _).symm, (Gets.stopped hc).append_load _ he, rfl, rfl⟩

theorem cursorGetSBody_runs {dbObj : Db} {x : Option TxnHandle} {key : Dbt δ}
    {limit initFlag flags : Int} {s s' : CursorSLocals δ} {t : BdbTrace δ} (hs : s.cursor = none)
    (h : Runs (cursorGetSBody dbObj key limit initFlag flags x s) t s') :
    ∃ rc n, CursorRun dbObj x t s'.rc rc n ∧ s'.cursor = none ∧
      s'.arr.length = s.arr.length + n := by
  simp only [cursorGetSBody, Prog.call_bind, Prog.ret_bind, runs_call] at h
  obtain ⟨⟨c, k⟩, t, rfl, h⟩ := h
  by_cases hc : c = 0
  · subst hc
    simp only [ne_eq, not_true_eq_false, ↓reduceIte] at h
    obtain ⟨mid, rc, n, rfl, hg, hcur, hn⟩ := positionAndWalkS_runs rfl h
    exact ⟨rc, n, .closed hg, hcur, hn⟩
  · simp only [ne_eq, hc, not_false_eq_true, ↓reduceIte, cursorSError, hs] at h
    obtain ⟨rfl, rfl⟩ := h
    exact ⟨c, 0, .unopened hc, rfl, rfl⟩

end NodeBdb
