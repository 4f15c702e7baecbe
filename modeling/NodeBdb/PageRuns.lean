import NodeBdb.Retries
import NodeBdb.Contents

/-!
# The records of a walk

A walk delivers what its gets returned: the first is given the key, and every later one a
DBT with nothing in it. The loop counts from 1, so it takes one record less than the limit
after the first. A retry starts from what the attempt before it left: the records stay, and
the loop counts on.
-/

namespace NodeBdb

open Interaction

/-- The gets of the loop where it may take `left` more records, what they read, and what the
last of them said. -/
inductive Moved (k : CursorHandle) (flags : Int) :
    Nat → BdbTrace Bytes → List (Bytes × Bytes) → Int → Prop where
  | full : Moved k flags 0 [] [] 0
  | got {left : Nat} {key val : Dbt Bytes} {r : Bytes × Bytes} {t : BdbTrace Bytes}
      {rs : List (Bytes × Bytes)} {rc : Int} : key.input = [] → Moved k flags left t rs rc →
      Moved k flags (left + 1) (⟨.cursorGet k key val flags, (0, r)⟩ :: t) (r :: rs) rc
  | stopped {left : Nat} {key val : Dbt Bytes} {r : Bytes × Bytes} {c : Int} : key.input = [] →
      c ≠ 0 → Moved k flags (left + 1) [⟨.cursorGet k key val flags, (c, r)⟩] [] c

/-- The calls of a body, the status at `TXN_END`, the records, and what the last get said. -/
inductive Paged (dbObj : Db) (x : Option TxnHandle) (key : Dbt Bytes) (initFlag flags : Int)
    (left : Nat) : BdbTrace Bytes → Int → List (Bytes × Bytes) → Int → Prop where
  | unopened {c : Int} {k : CursorHandle} : c ≠ 0 →
      Paged dbObj x key initFlag flags left [⟨.cursor dbObj._db x, (c, k)⟩] c [] c
  | missed {k : CursorHandle} {e : BdbTrace Bytes} {dbt val : Dbt Bytes} {c c' : Int}
      {r : Bytes × Bytes} : Runs key.data.contents e dbt.input → c ≠ 0 →
      Paged dbObj x key initFlag flags left (⟨.cursor dbObj._db x, (0, k)⟩ ::
        (e ++ [⟨.cursorGet k dbt val initFlag, (c, r)⟩, ⟨.cursorClose k, c'⟩])) c' [] c
  | walked {k : CursorHandle} {e : BdbTrace Bytes} {dbt val : Dbt Bytes} {c' : Int}
      {r : Bytes × Bytes} {t : BdbTrace Bytes} {rs : List (Bytes × Bytes)} {rc : Int} :
      Runs key.data.contents e dbt.input → Moved k flags left t rs rc →
      Paged dbObj x key initFlag flags left (⟨.cursor dbObj._db x, (0, k)⟩ ::
        (e ++ ⟨.cursorGet k dbt val initFlag, (0, r)⟩ :: (t ++ [⟨.cursorClose k, c'⟩])))
        c' (r :: rs) rc

/-- The elements of a result array from position `n` on. -/
def numbered (n : Nat) (rs : List (Bytes × Bytes)) : List CursorRecord :=
  rs.mapIdx fun i r => { pos := n + i, key := r.1, value := r.2 }

@[simp] theorem numbered_nil (n : Nat) : numbered n [] = [] := rfl
@[simp] theorem numbered_cons (n : Nat) (r : Bytes × Bytes) (rs : List (Bytes × Bytes)) :
    numbered n (r :: rs) = { pos := n, key := r.1, value := r.2 } :: numbered (n + 1) rs := by
  simp [numbered, List.mapIdx_cons, Nat.add_assoc, Nat.add_comm 1]

theorem numbered_append (n : Nat) (rs rs' : List (Bytes × Bytes)) :
    numbered n (rs ++ rs') = numbered n rs ++ numbered (n + rs.length) rs' := by
  induction rs generalizing n with
  | nil => rfl
  | cons r rs ih =>
    rw [List.cons_append, numbered_cons, numbered_cons, ih, List.length_cons, List.cons_append]
    simp [Nat.add_assoc, Nat.add_comm 1]

/-- The record that a cursor get returned. -/
def BdbEvent.found? : BdbEvent Bytes → Option (Bytes × Bytes)
  | ⟨.cursorGet .., r⟩ => if r.1 = 0 then some r.2 else none
  | _ => none

/-- The records that the cursor gets of a trace returned. -/
def recordsOf (t : BdbTrace Bytes) : List (Bytes × Bytes) := t.filterMap BdbEvent.found?

@[simp] theorem recordsOf_nil : recordsOf [] = [] := rfl
@[simp] theorem recordsOf_cons (e : BdbEvent Bytes) (t : BdbTrace Bytes) :
    recordsOf (e :: t) = e.found?.toList ++ recordsOf t := by
  rw [recordsOf, List.filterMap_cons]
  cases e.found? <;> rfl
@[simp] theorem recordsOf_append (t t' : BdbTrace Bytes) :
    recordsOf (t ++ t') = recordsOf t ++ recordsOf t' := List.filterMap_append

theorem Moved.recordsOf {k : CursorHandle} {flags : Int} {left : Nat} {t : BdbTrace Bytes}
    {rs : List (Bytes × Bytes)} {rc : Int} (h : Moved k flags left t rs rc) : recordsOf t = rs := by
  induction h with
  | full => rfl
  | got _ _ ih => exact congrArg _ ih
  | stopped _ hc => exact List.filterMap_cons_none (if_neg hc)

theorem contents_recordsOf {d : Data Bytes} {e : BdbTrace Bytes} {w : Bytes}
    (h : Runs d.contents e w) : recordsOf e = [] := by
  cases contents_calls h with
  | inl hnone => rw [hnone]; rfl
  | inr hone => obtain ⟨p, len, rfl⟩ := hone; rfl

theorem Paged.recordsOf {dbObj : Db} {x : Option TxnHandle} {key : Dbt Bytes} {initFlag flags : Int}
    {left : Nat} {b : BdbTrace Bytes} {st rc : Int} {rs : List (Bytes × Bytes)}
    (h : Paged dbObj x key initFlag flags left b st rs rc) : recordsOf b = rs := by
  cases h with
  | unopened hc => rfl
  | missed he hc =>
    rw [recordsOf_cons, recordsOf_append, contents_recordsOf he, recordsOf_cons]
    simp [BdbEvent.found?, hc]
  | walked he hm =>
    rw [recordsOf_cons, recordsOf_append, contents_recordsOf he, recordsOf_cons, recordsOf_append,
      hm.recordsOf]
    simp [BdbEvent.found?]

/-! ## The asynchronous walk -/

theorem EIODbBaton.SameArgs.trans {b b' b'' : EIODbBaton Bytes} (h : b.SameArgs b')
    (h' : b'.SameArgs b'') : b.SameArgs b'' where
  flags := h'.flags.trans h.flags
  key := h'.key.trans h.key
  limit := h'.limit.trans h.limit
  initFlag := h'.initFlag.trans h.initFlag
  oldVal := h'.oldVal.trans h.oldVal

theorem push_input (s : CursorLocals Bytes) (flags : Int) (pair : DbtPtr Bytes × DbtPtr Bytes)
    (r : Bytes × Bytes) : (s.push flags pair r).1.1.dbt.input = [] := rfl

theorem push_args (s : CursorLocals Bytes) (flags : Int) (pair : DbtPtr Bytes × DbtPtr Bytes)
    (r : Bytes × Bytes) : s.baton.SameArgs (s.push flags pair r).2.baton :=
  ⟨rfl, rfl, rfl, rfl, rfl⟩

/-- The induction is on the records the limit still allows. -/
theorem walk_moved {k : CursorHandle} (left : Nat) {pair : DbtPtr Bytes × DbtPtr Bytes}
    {s s' : CursorLocals Bytes} {t : BdbTrace Bytes} (hl : (s.baton.limit - s.i).toNat = left)
    (h0 : s.rc = 0) (hp : pair.1.dbt.input = []) (h : Runs (walk k pair s) t s') :
    ∃ rs, Moved k s.baton.flags left t rs s'.rc ∧ s'.cursor = s.cursor ∧ s.i ≤ s'.i ∧
      s'.baton.read = s.baton.read ++ rs ∧ s.baton.SameArgs s'.baton := by
  induction left generalizing pair s t with
  | zero =>
    rw [walk, if_neg (by omega)] at h
    obtain ⟨rfl, rfl⟩ := h
    exact ⟨[], by rw [h0]; exact .full, rfl, Int.le_add_one le_rfl, (List.append_nil _).symm,
      ⟨rfl, rfl, rfl, rfl, rfl⟩⟩
  | succ left ih =>
    rw [walk, if_pos (by omega)] at h
    obtain ⟨⟨c, r⟩, t, rfl, h⟩ := h
    by_cases hc : c = 0
    · subst hc
      simp only [↓reduceIte] at h
      have hleft : (s.baton.limit - (s.i + 1)).toNat = left := by omega
      obtain ⟨rs, hm, hcur, hi, hread, hargs⟩ := ih hleft rfl (push_input _ _ _ _) h
      have hpushed := push_args { s with i := s.i + 1, rc := 0 } s.baton.flags pair r
      refine ⟨r :: rs, .got hp hm, hcur, le_trans (Int.le_add_one le_rfl) hi, ?_,
        hpushed.trans hargs⟩
      rw [hread, push_read, List.append_assoc]
      rfl
    · simp only [hc, ↓reduceIte, runs_ret] at h
      obtain ⟨rfl, rfl⟩ := h
      exact ⟨[], .stopped hp hc, rfl, Int.le_add_one le_rfl, (List.append_nil _).symm,
        ⟨rfl, rfl, rfl, rfl, rfl⟩⟩

/-- The walk that goes on from a record. -/
theorem walk_pushed {k : CursorHandle} {flags : Int} {pair : DbtPtr Bytes × DbtPtr Bytes}
    {r : Bytes × Bytes} {s s' : CursorLocals Bytes} {t : BdbTrace Bytes} (h0 : s.rc = 0)
    (h : Runs (walk k (s.push flags pair r).1 (s.push flags pair r).2) t s') :
    ∃ rs, Moved k s.baton.flags (s.baton.limit - s.i).toNat t rs s'.rc ∧ s'.cursor = s.cursor ∧
      s.i ≤ s'.i ∧ s'.baton.read = s.baton.read ++ r :: rs ∧ s.baton.SameArgs s'.baton := by
  have hpushed := push_args s flags pair r
  have hrc : (s.push flags pair r).2.rc = 0 := h0
  obtain ⟨rs, hm, hcur, hi, hread, hargs⟩ := walk_moved _ rfl hrc (push_input s flags pair r) h
  rw [hpushed.flags, hpushed.limit] at hm
  rw [push_read, List.append_assoc] at hread
  exact ⟨rs, hm, hcur, hi, hread, hpushed.trans hargs⟩

theorem cursorGetBody_paged {dbObj : Db} {x : Option TxnHandle} {s s' : CursorLocals Bytes}
    {t : BdbTrace Bytes} (hs : s.cursor = none) (h : Runs (cursorGetBody dbObj x s) t s') :
    ∃ rs, Paged dbObj x s.baton.key s.baton.initFlag s.baton.flags (s.baton.limit - s.i).toNat t
        s'.baton.status rs s'.rc ∧ s'.cursor = none ∧ s'.baton.read = s.baton.read ++ rs ∧
      s.i ≤ s'.i ∧ (rs = [] → s'.i = s.i) ∧ s.baton.SameArgs s'.baton := by
  simp only [cursorGetBody, Prog.call_bind, Prog.ret_bind, runs_call] at h
  obtain ⟨⟨c, k⟩, t, rfl, h⟩ := h
  by_cases hc : c = 0
  · subst hc
    simp only [ne_eq, not_true_eq_false, ↓reduceIte] at h
    rw [positionAndWalk, CursorLocals.copyKey, runs_bind] at h
    obtain ⟨t₁, r, t₂, hload, h, rfl⟩ := h
    obtain ⟨e, v, t₃, he, ⟨rfl, rfl⟩, rfl⟩ := (runs_bind _ _ _ _).mp hload
    simp only [Prog.call_bind, Prog.ret_bind, runs_call] at h
    obtain ⟨⟨c, r⟩, t, rfl, h⟩ := h
    rw [List.append_nil]
    by_cases hc : c = 0
    · subst hc
      simp only [ne_eq, not_true_eq_false, ↓reduceIte, runs_bind] at h
      obtain ⟨t₁, s₁, t₂, hw, herr, rfl⟩ := h
      obtain ⟨rs, hm, hcur, hi, hread, hargs⟩ := walk_pushed rfl hw
      obtain ⟨c, rfl, rfl⟩ := cursorError_runs hcur herr
      exact ⟨r :: rs, .walked he hm, rfl, hread, hi, by simp,
        ⟨hargs.flags, hargs.key, hargs.limit, hargs.initFlag, hargs.oldVal⟩⟩
    · simp only [ne_eq, hc, not_false_eq_true, ↓reduceIte] at h
      obtain ⟨c', rfl, rfl⟩ := cursorError_runs rfl h
      exact ⟨[], .missed he hc, rfl, (List.append_nil _).symm, le_rfl, fun _ => rfl,
        ⟨rfl, rfl, rfl, rfl, rfl⟩⟩
  · simp only [ne_eq, hc, not_false_eq_true, ↓reduceIte, cursorError, CursorLocals.setStatus, hs] at h
    obtain ⟨rfl, rfl⟩ := h
    exact ⟨[], .unopened hc, rfl, (List.append_nil _).symm, le_rfl, fun _ => rfl,
      ⟨rfl, rfl, rfl, rfl, rfl⟩⟩

/-! ## The synchronous walk -/

theorem walkS_moved {k : CursorHandle} {limit flags : Int} (left : Nat) {s s' : CursorSLocals Bytes}
    {t : BdbTrace Bytes} (hl : (limit - s.i).toNat = left) (h0 : s.rc = 0) (hk : s.key.input = [])
    (h : Runs (walkS k limit flags s) t s') :
    ∃ rs, Moved k flags left t rs s'.rc ∧ s'.cursor = s.cursor ∧ s'.last = s.last ∧ s.i ≤ s'.i ∧
      s'.count = s.count + rs.length ∧ s'.arr = s.arr ++ numbered s.count rs := by
  induction left generalizing s t with
  | zero =>
    rw [walkS, if_neg (by omega)] at h
    obtain ⟨rfl, rfl⟩ := h
    exact ⟨[], by rw [h0]; exact .full, rfl, rfl, Int.le_add_one le_rfl, rfl,
      (List.append_nil _).symm⟩
  | succ left ih =>
    rw [walkS, if_pos (by omega)] at h
    obtain ⟨⟨c, r⟩, t, rfl, h⟩ := h
    by_cases hc : c = 0
    · subst hc
      simp only [↓reduceIte] at h
      have hleft : (limit - (s.i + 1)).toNat = left := by omega
      obtain ⟨rs, hm, hcur, hlast, hi, hcount, harr⟩ := ih hleft rfl rfl h
      refine ⟨r :: rs, .got hk hm, hcur, hlast, le_trans (Int.le_add_one le_rfl) hi, ?_, ?_⟩
      · rw [hcount, List.length_cons]
        simp only [CursorSLocals.addRecord]
        omega
      · rw [harr, numbered_cons]
        simp [CursorSLocals.addRecord]
    · simp only [hc, ↓reduceIte, runs_ret] at h
      obtain ⟨rfl, rfl⟩ := h
      exact ⟨[], .stopped hk hc, rfl, rfl, Int.le_add_one le_rfl, rfl, (List.append_nil _).symm⟩

/-- The end of the data is told only where it was met after a first record. -/
theorem cursorGetSBody_paged {dbObj : Db} {x : Option TxnHandle} {key : Dbt Bytes}
    {limit initFlag flags : Int} {s s' : CursorSLocals Bytes} {t : BdbTrace Bytes}
    (hs : s.cursor = none) (h : Runs (cursorGetSBody dbObj key limit initFlag flags x s) t s') :
    ∃ rs rc, Paged dbObj x key initFlag flags (limit - s.i).toNat t s'.rc rs rc ∧ s'.cursor = none ∧
      s'.count = s.count + rs.length ∧ s'.arr = s.arr ++ numbered s.count rs ∧
      s'.last = (s.last || rc == dbNotfound && rs != []) ∧ s.i ≤ s'.i ∧ (rs = [] → s'.i = s.i) := by
  simp only [cursorGetSBody, Prog.call_bind, Prog.ret_bind, runs_call] at h
  obtain ⟨⟨c, k⟩, t, rfl, h⟩ := h
  by_cases hc : c = 0
  · subst hc
    simp only [ne_eq, not_true_eq_false, ↓reduceIte] at h
    rw [positionAndWalkS, runs_bind] at h
    obtain ⟨e, v, t₂, he, h, rfl⟩ := h
    simp only [Prog.call_bind, Prog.ret_bind, runs_call] at h
    obtain ⟨⟨c, r⟩, t, rfl, h⟩ := h
    by_cases hc : c = 0
    · subst hc
      simp only [ne_eq, not_true_eq_false, ↓reduceIte, runs_bind] at h
      obtain ⟨t₁, s₁, t₂, hw, herr, rfl⟩ := h
      obtain ⟨rs, hm, hcur, hlast, hi, hcount, harr⟩ := walkS_moved _ rfl rfl rfl hw
      have hcount' : s₁.count = s.count + (r :: rs).length := by
        rw [hcount, List.length_cons]
        simp only [CursorSLocals.addRecord]
        omega
      have harr' : s₁.arr = s.arr ++ numbered s.count (r :: rs) := by
        rw [harr, numbered_cons]
        simp [CursorSLocals.addRecord]
      by_cases hn : s₁.rc = dbNotfound
      · rw [if_pos hn] at herr
        obtain ⟨c, rfl, rfl⟩ := cursorSError_runs (by exact hcur) herr
        exact ⟨r :: rs, s₁.rc, .walked he hm, rfl, hcount', harr', by simp [hn], hi, by simp⟩
      · rw [if_neg hn] at herr
        obtain ⟨c, rfl, rfl⟩ := cursorSError_runs hcur herr
        refine ⟨r :: rs, s₁.rc, .walked he hm, rfl, hcount', harr', ?_, hi, by simp⟩
        have hlast' : s₁.last = s.last := hlast
        simp [hn, hlast']
    · simp only [ne_eq, hc, not_false_eq_true, ↓reduceIte] at h
      obtain ⟨c', rfl, rfl⟩ := cursorSError_runs rfl h
      exact ⟨[], c, .missed he hc, rfl, rfl, (List.append_nil _).symm, by simp, le_rfl, fun _ => rfl⟩
  · simp only [ne_eq, hc, not_false_eq_true, ↓reduceIte, cursorSError, hs] at h
    obtain ⟨rfl, rfl⟩ := h
    exact ⟨[], c, .unopened hc, rfl, rfl, (List.append_nil _).symm, by simp, le_rfl, fun _ => rfl⟩

/-! ## The last attempt -/

theorem Faultless.zero {t : BdbTrace Bytes} (h : Faultless t) {e : BdbEvent Bytes} (he : e ∈ t)
    (hm : e.1.gets = false) : e.code = 0 := by
  cases h e he with
  | inl h0 => exact h0
  | inr hn =>
    rw [hm] at hn
    cases hn.2

section

variable {dbObj : Db} {x : Option TxnHandle} {key : Dbt Bytes} {initFlag flags : Int} {left : Nat}
  {b : BdbTrace Bytes} {st rc : Int} {rs : List (Bytes × Bytes)}

theorem Moved.begins {k : CursorHandle} {t : BdbTrace Bytes} (h : Moved k flags left t rs rc) :
    ∀ e ∈ t, e.1.begins = false := by
  induction h with
  | full => exact fun _ he => nomatch he
  | got _ _ ih => exact List.forall_mem_cons.mpr ⟨rfl, ih⟩
  | stopped _ _ => exact List.forall_mem_singleton.mpr rfl

theorem contents_begins {δ : Type} {d : Data δ} {e : BdbTrace δ} {w : Bytes}
    (h : Runs d.contents e w) : ∀ e' ∈ e, e'.1.begins = false := by
  cases contents_calls h with
  | inl hnone =>
    rw [hnone]
    exact fun _ he => nomatch he
  | inr hone =>
    obtain ⟨p, len, rfl⟩ := hone
    exact List.forall_mem_singleton.mpr rfl

theorem Paged.begins (h : Paged dbObj x key initFlag flags left b st rs rc) :
    ∀ e ∈ b, e.1.begins = false := by
  cases h with
  | unopened hne => exact List.forall_mem_singleton.mpr rfl
  | missed he hne =>
    have hload := contents_begins he
    simpa [Call.begins, or_imp, forall_and] using hload
  | walked he hm =>
    have hload := contents_begins he
    have hmoved := hm.begins
    simp only [List.forall_mem_cons, List.forall_mem_append]
    exact ⟨rfl, hload, rfl, hmoved, rfl, fun _ he => nomatch he⟩

theorem Paged.status_zero (h : Paged dbObj x key initFlag flags left b st rs rc)
    (hc : Faultless b) : st = 0 := by
  cases h with
  | @unopened c k hne => exact hc.zero (e := ⟨.cursor dbObj._db x, (st, k)⟩) (by simp) rfl
  | @missed k => exact hc.zero (e := ⟨.cursorClose k, st⟩) (by simp) rfl
  | @walked k => exact hc.zero (e := ⟨.cursorClose k, st⟩) (by simp) rfl

theorem Moved.ends {k : CursorHandle} {t : BdbTrace Bytes} (h : Moved k flags left t rs rc)
    (hc : Faultless t) : rc = 0 ∨ rc = dbNotfound := by
  induction h with
  | full => exact .inl rfl
  | got _ _ ih => exact ih fun e he => hc e (List.mem_cons_of_mem _ he)
  | @stopped left key val r c hk hne =>
    exact (hc ⟨.cursorGet k key val flags, (c, r)⟩ List.mem_cons_self).imp_right And.left

/-- A walk in which no call failed came to its limit or to the end of the data. -/
theorem Paged.ends (h : Paged dbObj x key initFlag flags left b st rs rc) (hc : Faultless b) :
    rc = 0 ∨ rc = dbNotfound := by
  cases h with
  | @unopened c k hne => exact .inl (hc.zero (e := ⟨.cursor dbObj._db x, (st, k)⟩) (by simp) rfl)
  | @missed k e dbt val c c' r he hne =>
    exact (hc ⟨.cursorGet k dbt val initFlag, (rc, r)⟩ (by simp)).imp_right And.left
  | walked he hm => exact hm.ends fun e he => hc e (by simp [he])

end

/-- The body of the last attempt `x`, after the calls `p`. Of the limit it has left what the
attempts before it did not count, which is all of it where they read nothing. -/
structure LastPage (dbObj : Db) (key : Dbt Bytes) (limit initFlag flags : Int) (p : BdbTrace Bytes)
    (x : TxnHandle) (b : BdbTrace Bytes) (left : Nat) (st : Int) (rs : List (Bytes × Bytes))
    (rc : Int) (d : Delivery) : Prop where
  paged : Paged dbObj (some x) key initFlag flags left b st rs rc
  left_le : left ≤ (limit - 1).toNat
  first : recordsOf p = [] → left = (limit - 1).toNat
  array : d.array = some (numbered 0 (recordsOf p ++ rs))

/-- How a walk ends, whatever its calls came to. `sync` is the synchronous one, which does not tell
that it found nothing to start from. -/
inductive PageEnds (dbObj : Db) (key : Dbt Bytes) (limit initFlag flags : Int) (sync : Bool) :
    BdbTrace Bytes → Delivery → Prop where
  | refused {p : BdbTrace Bytes} {c : Int} {x : TxnHandle} {d : Delivery} : c ≠ 0 →
      d.array = some (numbered 0 (recordsOf p)) →
      PageEnds dbObj key limit initFlag flags sync (p ++ [⟨.txnBegin dbObj._env, (c, x)⟩]) d
  | committed {p b : BdbTrace Bytes} {x : TxnHandle} {c : Int} {left : Nat}
      {rs : List (Bytes × Bytes)} {rc : Int} {d : Delivery} :
      LastPage dbObj key limit initFlag flags p x b left 0 rs rc d →
      (c = 0 → recordsOf p = [] →
        d.code = if rc = dbNotfound ∧ (sync = true → rs ≠ []) then dbNotfound else 0) →
      PageEnds dbObj key limit initFlag flags sync
        (p ++ ⟨.txnBegin dbObj._env, (0, x)⟩ :: (b ++ [⟨.commit x, c⟩])) d
  | aborted {p b : BdbTrace Bytes} {x : TxnHandle} {c : Int} {left : Nat} {st : Int}
      {rs : List (Bytes × Bytes)} {rc : Int} {d : Delivery} : st ≠ 0 →
      LastPage dbObj key limit initFlag flags p x b left st rs rc d →
      PageEnds dbObj key limit initFlag flags sync
        (p ++ ⟨.txnBegin dbObj._env, (0, x)⟩ :: (b ++ [⟨.abort x, c⟩])) d

theorem recordsOf_attempt (env : Option EnvHandle) (x : TxnHandle) (c : Int) (p b : BdbTrace Bytes) :
    recordsOf (p ++ ⟨.txnBegin env, (0, x)⟩ :: (b ++ [⟨.abort x, c⟩])) =
      recordsOf p ++ recordsOf b := by
  rw [recordsOf_append, recordsOf_cons, recordsOf_append, recordsOf_cons]
  simp [BdbEvent.found?]

section

variable {dbObj : Db} {key : Dbt Bytes} {limit initFlag flags : Int} {p t : BdbTrace Bytes}
  {d : Delivery}

/-- The locals of `EIO_CursorGet` after the calls `p` of earlier attempts. -/
structure CursorLocals.After (key : Dbt Bytes) (limit initFlag flags : Int) (p : BdbTrace Bytes)
    (s : CursorLocals Bytes) : Prop where
  cursor : s.cursor = none
  counted : 1 ≤ s.i
  first : recordsOf p = [] → s.i = 1
  read : s.baton.read = recordsOf p
  key : s.baton.key = key
  limit : s.baton.limit = limit
  initFlag : s.baton.initFlag = initFlag
  flags : s.baton.flags = flags

theorem CursorLocals.After.attempt (p : BdbTrace Bytes) (x : TxnHandle) (s : CursorLocals Bytes)
    (b : BdbTrace Bytes) (s₁ : CursorLocals Bytes) (c : Int)
    (hs : s.After key limit initFlag flags p) (hb : Runs (cursorGetBody dbObj (some x) s) b s₁) :
    s₁.After key limit initFlag flags
      (p ++ ⟨.txnBegin dbObj._env, (0, x)⟩ :: (b ++ [⟨.abort x, c⟩])) := by
  obtain ⟨rs, hp, hcur, hread, hi, hsame, hargs⟩ := cursorGetBody_paged hs.cursor hb
  refine ⟨hcur, le_trans hs.counted hi, fun hnone => ?_, ?_, hargs.key.trans hs.key,
    hargs.limit.trans hs.limit, hargs.initFlag.trans hs.initFlag, hargs.flags.trans hs.flags⟩
  · rw [recordsOf_attempt, List.append_eq_nil_iff, hp.recordsOf] at hnone
    rw [hsame hnone.2, hs.first hnone.1]
  · rw [hread, hs.read, recordsOf_attempt, hp.recordsOf]

theorem delivered_read (s : CursorLocals Bytes) :
    (eioAfterCursorGet (cursorGetOut s)).array = some (numbered 0 s.baton.read) :=
  congrArg some (addCursorRecords_read 0 s.baton.records)

theorem CursorLocals.After.body {x : TxnHandle} {s s₁ : CursorLocals Bytes} {b : BdbTrace Bytes}
    (hs : s.After key limit initFlag flags p) (hb : Runs (cursorGetBody dbObj (some x) s) b s₁)
    (s' : CursorLocals Bytes) (hrecords : s'.baton.records = s₁.baton.records) :
    ∃ left rs, LastPage dbObj key limit initFlag flags p x b left s₁.baton.status rs s₁.rc
      (eioAfterCursorGet (cursorGetOut s')) := by
  obtain ⟨rs, hp, -, hread, -⟩ := cursorGetBody_paged hs.cursor hb
  rw [hs.key, hs.limit, hs.initFlag, hs.flags] at hp
  refine ⟨_, rs, hp, ?_, fun hnone => by rw [hs.first hnone], ?_⟩
  · have hcounted := hs.counted
    omega
  · have hsame : s'.baton.read = s₁.baton.read := by rw [EIODbBaton.read, hrecords, EIODbBaton.read]
    rw [delivered_read, hsame, hread, hs.read]

theorem cursorGet_ends (ht : dbObj._transactional = true) (ho : dbObj._db ≠ none)
    (h : Runs ((Request.cursorGet key limit initFlag flags).deliver dbObj) t d) :
    PageEnds dbObj key limit initFlag flags false t d := by
  rw [request_bracket ho, runs_bind] at h
  obtain ⟨t₁, s', t₂, h, ⟨rfl, rfl⟩, rfl⟩ := h
  rw [List.append_nil]
  have hlast := (txn_attempts ht h).last (J := CursorLocals.After key limit initFlag flags)
    CursorLocals.After.attempt [] ⟨rfl, le_rfl, fun _ => rfl, rfl, rfl, rfl, rfl, rfl⟩
  rw [List.nil_append] at hlast
  cases hlast with
  | @refused p c x s hs hc =>
    apply PageEnds.refused hc
    rw [← hs.read]
    exact delivered_read s'
  | @committed p b x c s s₁ hs hb h0 =>
    obtain ⟨left, rs, hpage⟩ := hs.body hb (CursorLocals.statusVar.set c s₁) rfl
    rw [show s₁.baton.status = 0 from h0] at hpage
    refine .committed hpage ?_
    rintro rfl -
    by_cases hn : s₁.rc = dbNotfound
    · rw [if_pos ⟨hn, by simp⟩]
      exact if_pos ⟨rfl, hn⟩
    · rw [if_neg fun h => hn h.1]
      exact if_neg fun h => hn h.2
  | @aborted p b x c s s₁ hs hb hne =>
    obtain ⟨left, rs, hpage⟩ := hs.body hb s' rfl
    exact .aborted hne hpage

/-- The locals of `CursorGetS` after the calls `p` of earlier attempts. -/
structure CursorSLocals.After (p : BdbTrace Bytes) (s : CursorSLocals Bytes) : Prop where
  cursor : s.cursor = none
  counted : 1 ≤ s.i
  first : recordsOf p = [] → s.i = 1 ∧ s.last = false
  count : s.count = (recordsOf p).length
  arr : s.arr = numbered 0 (recordsOf p)

theorem CursorSLocals.After.attempt (p : BdbTrace Bytes) (x : TxnHandle) (s : CursorSLocals Bytes)
    (b : BdbTrace Bytes) (s₁ : CursorSLocals Bytes) (c : Int) (hs : s.After p)
    (hb : Runs (cursorGetSBody dbObj key limit initFlag flags (some x) s) b s₁) :
    s₁.After (p ++ ⟨.txnBegin dbObj._env, (0, x)⟩ :: (b ++ [⟨.abort x, c⟩])) := by
  obtain ⟨rs, rc, hp, hcur, hcount, harr, hlast, hi, hsame⟩ := cursorGetSBody_paged hs.cursor hb
  refine ⟨hcur, le_trans hs.counted hi, fun hnone => ?_, ?_, ?_⟩
  · rw [recordsOf_attempt, List.append_eq_nil_iff, hp.recordsOf] at hnone
    rw [hsame hnone.2, hlast, (hs.first hnone.1).1, (hs.first hnone.1).2, hnone.2]
    simp
  · rw [hcount, hs.count, recordsOf_attempt, hp.recordsOf, List.length_append]
  · rw [harr, hs.arr, hs.count, recordsOf_attempt, hp.recordsOf, numbered_append, Nat.zero_add]

theorem cursorGetSOut_arr (s : CursorSLocals Bytes) : (cursorGetSOut s).arr = s.arr := by
  unfold cursorGetSOut
  split <;> rfl

theorem CursorSLocals.After.body {x : TxnHandle} {s s₁ : CursorSLocals Bytes} {b : BdbTrace Bytes}
    (hs : s.After p) (hb : Runs (cursorGetSBody dbObj key limit initFlag flags (some x) s) b s₁)
    (s' : CursorSLocals Bytes) (hsame : s'.arr = s₁.arr) :
    ∃ left rs rc, LastPage dbObj key limit initFlag flags p x b left s₁.rc rs rc
        (cursorGetSOut s').result ∧
      s₁.last = (s.last || rc == dbNotfound && rs != []) := by
  obtain ⟨rs, rc, hp, -, -, harr, hlast, -⟩ := cursorGetSBody_paged hs.cursor hb
  refine ⟨_, rs, rc, ⟨hp, ?_, fun hnone => by rw [(hs.first hnone).1], ?_⟩, hlast⟩
  · have hcounted := hs.counted
    omega
  · have hall : s₁.arr = numbered 0 (recordsOf p ++ rs) := by
      rw [harr, hs.arr, hs.count, numbered_append, Nat.zero_add]
    exact congrArg some ((cursorGetSOut_arr s').trans (hsame.trans hall))

theorem cursorGetS_ends (ht : dbObj._transactional = true)
    (h : Runs ((DirectCall.cursorGetS key limit initFlag flags).deliver dbObj) t d) :
    PageEnds dbObj key limit initFlag flags true t d := by
  rw [direct_bracket, runs_bind] at h
  obtain ⟨t₁, s', t₂, h, ⟨rfl, rfl⟩, rfl⟩ := h
  rw [List.append_nil]
  have hlast := (txn_attempts ht h).last (J := CursorSLocals.After)
    CursorSLocals.After.attempt [] ⟨rfl, le_rfl, fun _ => ⟨rfl, rfl⟩, rfl, rfl⟩
  rw [List.nil_append] at hlast
  cases hlast with
  | @refused p c x s hs hc =>
    apply PageEnds.refused hc
    exact congrArg some ((cursorGetSOut_arr s').trans hs.arr)
  | @committed p b x c s s₁ hs hb h0 =>
    obtain ⟨left, rs, rc, hpage, hlast⟩ := hs.body hb (CursorSLocals.statusVar.set c s₁) rfl
    rw [show s₁.rc = 0 from h0] at hpage
    refine .committed hpage ?_
    rintro rfl hnone
    have hlast' : s₁.last = true ↔ rc = dbNotfound ∧ rs ≠ [] := by
      rw [hlast, (hs.first hnone).2]
      simp
    by_cases hl : s₁.last = true
    · rw [if_pos ⟨(hlast'.mp hl).1, fun _ => (hlast'.mp hl).2⟩]
      have hout : cursorGetSOut (CursorSLocals.statusVar.set 0 s₁) =
        { CursorSLocals.statusVar.set 0 s₁ with rc := dbNotfound } := if_pos ⟨rfl, hl⟩
      exact congrArg CursorSLocals.rc hout
    · rw [if_neg fun h => hl (hlast'.mpr ⟨h.1, h.2 rfl⟩)]
      have hout : cursorGetSOut (CursorSLocals.statusVar.set 0 s₁) =
        CursorSLocals.statusVar.set 0 s₁ := if_neg fun h => hl h.2
      exact congrArg CursorSLocals.rc hout
  | @aborted p b x c s s₁ hs hb hne =>
    obtain ⟨left, rs, rc, hpage, -⟩ := hs.body hb s' rfl
    exact .aborted hne hpage

end

end NodeBdb
