import NodeBdb.Sessions
import NodeBdb.PageRuns

/-!
# Workers in their transactions

Every worker's session is what the engine holds of its transaction: nobody else is in it,
and nobody else moves its cursor. So the log the engine replays at the end of a transaction
is what the calls of one attempt did.
-/

namespace NodeBdb

open Interaction RangeLocks

section Holds

variable {moves : Moves Int Bytes Bytes}

/-- How the engine holds the sessions of the workers, whose calls so far are `calls i`. -/
structure Engine.Holds (moves : Moves Int Bytes Bytes) (s : Engine) (calls : Nat → BdbTrace Bytes) :
    Prop where
  active : ∀ i a, session moves (calls i) = some a → s.store.active a.txn = some a.log
  placed : ∀ i a k pos, session moves (calls i) = some a → a.cursor = some (k, pos) →
    s.cursors k = some (a.txn, pos)
  apart : ∀ i j a b, i ≠ j → session moves (calls i) = some a → session moves (calls j) = some b →
    a.txn ≠ b.txn

/-- What the others see of a change that one worker made. -/
structure Engine.Keeps (s s' : Engine) (a : Session) : Prop where
  active : s'.store.active a.txn = s.store.active a.txn
  placed : ∀ k pos, a.cursor = some (k, pos) → s'.cursors k = s.cursors k

/-- What the engine has to hold of the worker's own session after that. -/
structure Engine.HoldsOne (s : Engine) (a : Session) : Prop where
  active : s.store.active a.txn = some a.log
  placed : ∀ k pos, a.cursor = some (k, pos) → s.cursors k = some (a.txn, pos)

variable {s s' : Engine} {calls : Nat → BdbTrace Bytes} {i : Nat} {t : BdbTrace Bytes}

theorem Engine.Holds.one (h : s.Holds moves calls) {a : Session}
    (ha : session moves (calls i) = some a) : s.HoldsOne a :=
  ⟨h.active i a ha, fun k pos => h.placed i a k pos ha⟩

/-- The worker's own entry is replaced in the engine and in its session. -/
theorem Engine.Holds.replace (h : s.Holds moves calls) {o : Option Session}
    (ht : session moves t = o)
    (hothers : ∀ j a, j ≠ i → session moves (calls j) = some a →
      s.Keeps s' a ∧ ∀ b, o = some b → a.txn ≠ b.txn)
    (hown : ∀ a, o = some a → s'.HoldsOne a) : s'.Holds moves (Function.update calls i t) where
  active j a hj := by
    by_cases hji : j = i
    · subst hji
      rw [Function.update_self, ht] at hj
      exact (hown a hj).active
    · rw [Function.update_of_ne hji] at hj
      rw [(hothers j a hji hj).1.active]
      exact h.active j a hj
  placed j a k pos hj hk := by
    by_cases hji : j = i
    · subst hji
      rw [Function.update_self, ht] at hj
      exact (hown a hj).placed k pos hk
    · rw [Function.update_of_ne hji] at hj
      rw [(hothers j a hji hj).1.placed k pos hk]
      exact h.placed j a k pos hj hk
  apart j k a b hjk hj hk := by
    by_cases hji : j = i
    · subst hji
      rw [Function.update_self, ht] at hj
      rw [Function.update_of_ne hjk.symm] at hk
      exact ((hothers k b hjk.symm hk).2 a hj).symm
    · rw [Function.update_of_ne hji] at hj
      by_cases hki : k = i
      · subst hki
        rw [Function.update_self, ht] at hk
        exact (hothers j a hji hj).2 b hk
      · rw [Function.update_of_ne hki] at hk
        exact h.apart j k a b hjk hj hk

/-- Another worker's cursor is not the one that stands in this worker's transaction. -/
theorem Engine.Holds.other_cursor (h : s.Holds moves calls) {j : Nat} {a b : Session}
    (hji : j ≠ i) (ha : session moves (calls j) = some a) (hb : session moves (calls i) = some b)
    {k k' : CursorHandle} {pos pos' : Option Bytes} (hk : b.cursor = some (k, pos))
    (hk' : a.cursor = some (k', pos')) : k' ≠ k := by
  rintro rfl
  have hown := h.placed i b k' pos hb hk
  rw [h.placed j a k' pos' ha hk'] at hown
  have htxn : a.txn = b.txn := congrArg Prod.fst (Option.some.inj hown)
  exact h.apart j i a b hji ha hb htxn

/-- A change to the log of one transaction, seen by the sessions of the others. -/
theorem keeps_put (s : Engine) {a : Session} {x : TxnHandle} (o : Option (List (Access Bytes Bytes)))
    (h : a.txn ≠ x) : s.Keeps { s with store := s.store.put x o } a :=
  ⟨Store.put_active_other s.store o h, fun _ _ _ => rfl⟩

/-- A reply to a call that the discipline admits keeps engine and workers together. -/
theorem Engine.Holds.step (h : s.Holds moves calls) {e : BdbEvent Bytes} {m : Handles}
    (hm : discipline.admits m e.1) (hag : Session.Agrees (session moves (calls i)) m)
    (hr : s.Step moves e s') : s'.Holds moves (Function.update calls i (calls i ++ [e])) := by
  have hlive : ∀ x, UsesTxn x e.1 → ∃ a, session moves (calls i) = some a ∧ a.txn = x := by
    intro x hx
    have hl := hag.live
    rw [admits_usesTxn hm hx] at hl
    exact Option.map_eq_some_iff.mp hl
  have hcur : ∀ k, UsesCursor k e.1 →
      ∃ a pos, session moves (calls i) = some a ∧ a.cursor = some (k, pos) := by
    intro k hk
    have hc := hag.cursor
    rw [admits_usesCursor hm hk] at hc
    obtain ⟨a, ha, hc⟩ := Option.bind_eq_some_iff.mp hc
    obtain ⟨⟨k', pos⟩, hp, hk⟩ := Option.map_eq_some_iff.mp hc
    cases hk
    exact ⟨a, pos, ha, hp⟩
  have hnext : session moves (calls i ++ [e]) = Session.next moves (session moves (calls i)) e :=
    session_append moves _ _
  -- a worker that stays in its transaction, while the log or the cursor changes
  have hstay : ∀ a b, session moves (calls i) = some a → session moves (calls i ++ [e]) = some b →
      b.txn = a.txn → (∀ j c, j ≠ i → session moves (calls j) = some c → s.Keeps s' c) →
      s'.HoldsOne b → s'.Holds moves (Function.update calls i (calls i ++ [e])) := by
    intro a b ha hb htxn hkeeps hone
    apply h.replace hb
    · intro j c hj hc
      refine ⟨hkeeps j c hj hc, fun b' hb' => ?_⟩
      cases hb'
      rw [htxn]
      exact h.apart j i c a hj hc ha
    · intro b' hb'
      cases hb'
      exact hone
  -- a worker whose transaction ends
  have hend : ∀ a, session moves (calls i) = some a → session moves (calls i ++ [e]) = none →
      (∀ j c, j ≠ i → session moves (calls j) = some c → s.Keeps s' c) →
      s'.Holds moves (Function.update calls i (calls i ++ [e])) := by
    intro a ha hb hkeeps
    apply h.replace hb
    · intro j c hj hc
      refine ⟨hkeeps j c hj hc, fun b' hb' => ?_⟩
      cases hb'
    · intro b' hb'
      cases hb'
  have hsame : session moves (calls i ++ [e]) = session moves (calls i) → s' = s →
      s'.Holds moves (Function.update calls i (calls i ++ [e])) := by
    intro hb hs
    subst hs
    apply h.replace hb
    · intro j a hj ha
      exact ⟨⟨rfl, fun _ _ _ => rfl⟩, fun b hb => h.apart j i a b hj ha hb⟩
    · intro a ha
      exact h.one ha
  cases hr with
  | @refused env c x hc =>
    apply hsame ?_ rfl
    rw [hnext]
    exact if_neg hc
  | @txnBegin env x hx =>
    apply h.replace hnext
    · intro j a hj ha
      have hne : a.txn ≠ x := by
        intro hax
        have hactive := h.active j a ha
        rw [hax, hx] at hactive
        cases hactive
      refine ⟨keeps_put s _ hne, fun b hb => ?_⟩
      cases hb
      exact hne
    · intro a ha
      cases ha
      exact ⟨Store.put_active_self _ _ _, fun k pos hk => by cases hk⟩
  | @access e x acc hd ha hg =>
    obtain ⟨a, hi, rfl⟩ := hlive x (onData_uses hd)
    rw [hi, session_data hd, ha] at hnext
    refine hstay a _ hi hnext rfl (fun j c hj hc => keeps_put s _ (h.apart j i c a hj hc hi)) ⟨?_, ?_⟩
    · exact (Store.put_active_self _ _ _).trans (by rw [h.active i a hi]; rfl)
    · intro k pos hk
      exact h.placed i a k pos hi hk
  | @fault e x hd hx hf =>
    obtain ⟨a, hi, -⟩ := hlive x (onData_uses hd)
    apply hsame ?_ rfl
    rw [hnext, hi, session_data hd, fault_access hd hf]
    simp
  | @opened db x k hx hk =>
    obtain ⟨a, hi, rfl⟩ := hlive x rfl
    rw [hi] at hnext
    refine hstay a _ hi hnext rfl (fun j c hj hc => ⟨rfl, fun k' pos hk' => ?_⟩) ⟨h.active i a hi, ?_⟩
    · have hne : k' ≠ k := by
        rintro rfl
        rw [h.placed j c k' pos hc hk'] at hk
        cases hk
      exact Function.update_of_ne hne _ _
    · intro k' pos hk'
      cases hk'
      exact Function.update_self _ _ _
  | @unopened db x c k hx hf =>
    obtain ⟨a, hi, -⟩ := hlive x rfl
    apply hsame ?_ rfl
    rw [hnext, hi]
    simp [Session.next, hf.1]
  | @found k x pos key val flags r hk hg =>
    obtain ⟨a, pos', hi, hc⟩ := hcur k rfl
    have hplaced := h.placed i a k pos' hi hc
    rw [hk] at hplaced
    cases hplaced
    have hmoved : session moves (calls i ++ [⟨.cursorGet k key val flags, (0, r)⟩]) =
        some { a.did (moves.look flags pos key.input (some r)) with cursor := some (k, some r.1) } := by
      rw [hnext, hi]
      simp [Session.next, Session.moved, hc]
    refine hstay a _ hi hmoved rfl (fun j c hj hc' => ⟨?_, ?_⟩) ⟨?_, ?_⟩
    · exact Store.put_active_other _ _ (h.apart j i c a hj hc' hi)
    · intro k' pos' hk'
      exact Function.update_of_ne (h.other_cursor hj hc' hi hc hk') _ _
    · exact (Store.put_active_self _ _ _).trans (by rw [h.active i a hi]; rfl)
    · intro k' pos' hk'
      cases hk'
      exact Function.update_self _ _ _
  | @missing k x pos key val flags r hk hg =>
    obtain ⟨a, pos', hi, hc⟩ := hcur k rfl
    have hplaced := h.placed i a k pos' hi hc
    rw [hk] at hplaced
    cases hplaced
    have hmoved : session moves (calls i ++ [⟨.cursorGet k key val flags, (dbNotfound, r)⟩]) =
        some (a.did (moves.look flags pos key.input none)) := by
      rw [hnext, hi]
      simp [Session.next, Session.moved, hc, dbNotfound]
    refine hstay a _ hi hmoved rfl (fun j c hj hc' => ⟨?_, fun _ _ _ => rfl⟩) ⟨?_, ?_⟩
    · exact Store.put_active_other _ _ (h.apart j i c a hj hc' hi)
    · exact (Store.put_active_self _ _ _).trans (by rw [h.active i a hi]; rfl)
    · intro k' pos' hk'
      exact h.placed i a k' pos' hi hk'
  | @unmoved k key val flags c r hk hf =>
    obtain ⟨a, pos, hi, hc⟩ := hcur k rfl
    apply hsame ?_ rfl
    rw [hnext, hi]
    simp [Session.next, Session.moved, hc, hf.1, hf.2.1]
  | @closed k c hk hcode =>
    obtain ⟨a, pos, hi, hc⟩ := hcur k rfl
    rw [hi] at hnext
    refine hstay a _ hi hnext rfl (fun j b hj hb => ⟨rfl, fun k' pos' hk' => ?_⟩)
      ⟨h.active i a hi, ?_⟩
    · exact Function.update_of_ne (h.other_cursor hj hb hi hc hk') _ _
    · intro k' pos' hk'
      cases hk'
  | @commit x hx =>
    obtain ⟨a, hi, rfl⟩ := hlive x rfl
    exact hend a hi hnext fun j c hj hc =>
      ⟨Store.put_active_other _ _ (h.apart j i c a hj hc hi), fun _ _ _ => rfl⟩
  | @commitFailed x c hx hf =>
    obtain ⟨a, hi, rfl⟩ := hlive x rfl
    exact hend a hi hnext fun j c hj hc => keeps_put s _ (h.apart j i c a hj hc hi)
  | @abort x c hx =>
    obtain ⟨a, hi, rfl⟩ := hlive x rfl
    exact hend a hi hnext fun j c hj hc => keeps_put s _ (h.apart j i c a hj hc hi)
  | @load p len =>
    -- reading memory is no access, and the worker stays where it is
    apply hsame ?_ rfl
    rw [hnext]
    cases session moves (calls i) with
    | none => rfl
    | some a => simp [Session.next, BdbEvent.access]

end Holds

/-! ## What an attempt did -/

section Attempt

variable {moves : Moves Int Bytes Bytes} {dbObj : Db} {x : TxnHandle} {a : Session}
  {b : BdbTrace Bytes}

/-- An attempt starts from nothing, whatever was before it. -/
theorem session_begun (env : Option EnvHandle) (x : TxnHandle) (p b : BdbTrace Bytes) :
    session moves (p ++ ⟨.txnBegin env, (0, x)⟩ :: b) =
      b.foldl (Session.next moves) (some { txn := x }) := by
  simp [session, Session.next]

/-- A call of an operation on one key. -/
def Call.onRecord : Call Bytes → Bool
  | .get .. | .put .. | .del .. | .load .. => true
  | _ => false

theorem records_session (hb : ∀ e ∈ b, e.1.onRecord = true) :
    b.foldl (Session.next moves) (some a) =
      some { a with log := a.log ++ (b.filterMap BdbEvent.access).map .ofPoint } := by
  induction b generalizing a with
  | nil => simp
  | cons e b ih =>
    have he : Session.next moves (some a) e = some (a.did ((BdbEvent.access e).map .ofPoint)) := by
      have hrec := hb e List.mem_cons_self
      obtain ⟨c, r⟩ := e
      cases c <;> first | rfl | cases hrec
    rw [List.foldl_cons, he, ih fun e he => hb e (List.mem_cons_of_mem _ he)]
    cases hacc : BdbEvent.access e <;> simp [hacc, Session.did]

theorem outcome_onRecord {r : KeyRequest} {c : Int} {v : Option Bytes}
    (h : Outcome dbObj (some x) (.request r.request) b c v) : ∀ e ∈ b, e.1.onRecord = true := by
  cases r with
  | get key =>
    obtain ⟨val, v, rfl, -⟩ := h
    simp [Call.onRecord]
  | put key val =>
    obtain rfl := h
    simp [Call.onRecord]
  | putIf key val oldVal =>
    obtain ⟨dbt, v, ⟨-, rfl⟩ | ⟨-, -, rfl⟩ | ⟨w, -, -, rfl⟩ | rfl⟩ := putIf_outcome h <;>
      simp [Call.onRecord]
  | del key =>
    obtain rfl := h
    simp [Call.onRecord]

/-- The loop of a walk sees the first of what one scan of the data sees at once, and all of it
where no get failed. -/
theorem Moved.session (moves : Moves Int Bytes Bytes) {a : Session} {k : CursorHandle} {flags : Int}
    {left : Nat} {t : BdbTrace Bytes} {rs : List (Bytes × Bytes)} {rc : Int}
    (h : Moved k flags left t rs rc) {k' : CursorHandle} {pos : Option Bytes}
    (hc : a.cursor = some (k', pos)) :
    ∃ looks pos', t.foldl (Session.next moves) (some a) =
        some { a with log := a.log ++ looks, cursor := some (k', pos') } ∧
      (∀ l ∈ looks, l.leaves = none) ∧ ∀ m, Replays m looks →
        rs <+: moves.onward flags [] m left pos ∧
        (rc = 0 ∨ rc = dbNotfound →
          rs = moves.onward flags [] m left pos ∧ (rc = dbNotfound ↔ rs.length < left)) := by
  induction h generalizing a pos with
  | full =>
    refine ⟨[], pos, ?_, by simp, fun m _ => ⟨List.nil_prefix, fun _ => ⟨rfl, by decide⟩⟩⟩
    rw [List.foldl_nil, List.append_nil, ← hc]
  | @got left key val r t rs rc hk hm ih =>
    obtain ⟨looks, pos', hfold, hreads, hsees⟩ := ih
      (a := { a.did (moves.look flags pos [] (some r)) with cursor := some (k', some r.1) }) rfl
    refine ⟨moves.look flags pos [] (some r) :: looks, pos', ?_,
      List.forall_mem_cons.mpr ⟨rfl, hreads⟩, fun m hr => ?_⟩
    · have hnext : Session.next moves (some a) ⟨.cursorGet k key val flags, (0, r)⟩ =
          some { a.did (moves.look flags pos [] (some r)) with cursor := some (k', some r.1) } := by
        simp [Session.next, Session.moved, hc, hk]
      rw [List.foldl_cons, hnext, hfold]
      simp [Session.did]
    · have hnext : moves.next flags pos [] m = some r := hr.1
      obtain ⟨hfirst, hall⟩ := hsees m hr.2
      rw [moves.onward_some hnext]
      refine ⟨List.cons_prefix_cons.mpr ⟨rfl, hfirst⟩, fun hrc => ?_⟩
      obtain ⟨hrs, hend⟩ := hall hrc
      rw [← hrs, List.length_cons]
      exact ⟨rfl, hend.trans (Nat.add_lt_add_iff_right).symm⟩
  | @stopped left key val r c hk hne =>
    by_cases hcode : c = dbNotfound
    · subst hcode
      refine ⟨[moves.look flags pos [] none], pos, ?_, List.forall_mem_singleton.mpr rfl,
        fun m hr => ⟨List.nil_prefix, fun _ => ?_⟩⟩
      · simp [Session.next, Session.moved, hc, hk, dbNotfound, Session.did]
      · have hnext : moves.next flags pos [] m = none := hr.1
        exact ⟨(moves.onward_none hnext).symm, by simp⟩
    · refine ⟨[], pos, ?_, by simp, fun m _ => ⟨List.nil_prefix, fun hrc => ?_⟩⟩
      · have hsame : a = { a with log := a.log ++ [], cursor := some (k', pos) } := by
          rw [List.append_nil, ← hc]
        have hnext : Session.next moves (some a) ⟨.cursorGet k key val flags, (c, r)⟩ = some a := by
          simp [Session.next, Session.moved, hc, hne, hcode]
        exact hnext.trans (congrArg some hsame)
      · cases hrc with
        | inl h0 => exact absurd h0 hne
        | inr hn => exact absurd hn hcode

/-- So does the whole walk, from its positioning get on. -/
theorem Paged.session (moves : Moves Int Bytes Bytes) {key : Bytes} {initFlag flags : Int}
    {left : Nat} {rs : List (Bytes × Bytes)} {st rc : Int}
    (h : Paged dbObj (some x) (buffer key) initFlag flags left b st rs rc)
    (hreg : ∀ e ∈ b, Regular e) :
    ∃ looks, b.foldl (Session.next moves) (some { txn := x }) = some { txn := x, log := looks } ∧
      (∀ l ∈ looks, l.leaves = none) ∧ ∀ m, Replays m looks →
        rs <+: moves.page initFlag flags key [] m left ∧
        (rc = 0 ∨ rc = dbNotfound →
          rs = moves.page initFlag flags key [] m left ∧
          (rc = dbNotfound ↔ rs.length < left + 1)) := by
  have hload : ∀ {e : BdbTrace Bytes} {w : Bytes} (a : Session), (∀ e' ∈ e, Regular e') →
      Runs (buffer key).data.contents e w →
      w = key ∧ e.foldl (Session.next moves) (some a) = some a := by
    intro e w a he hr
    obtain ⟨v, _, rfl, rfl, rfl⟩ := hr
    refine ⟨he ⟨.load key key.length, w⟩ List.mem_cons_self, ?_⟩
    simp [Session.next, BdbEvent.access]
  cases h with
  | @unopened c k hne =>
    have hfault : Fault st := (hreg ⟨.cursor dbObj._db (some x), (st, k)⟩ List.mem_cons_self).resolve_left hne
    refine ⟨[], ?_, by simp, fun m _ => ⟨List.nil_prefix, fun hrc => ?_⟩⟩
    · simp [Session.next, hne]
    · cases hrc with
      | inl h0 => exact absurd h0 hfault.1
      | inr hn => exact absurd hn hfault.2.1
  | @missed k e dbt val c c' r he hne =>
    obtain ⟨hkey, hfold⟩ := hload { txn := x, cursor := some (k, none) }
      (fun e' he' => hreg e' (by simp [he'])) he
    by_cases hcode : rc = dbNotfound
    · subst hcode
      refine ⟨[moves.look initFlag none key none], ?_, List.forall_mem_singleton.mpr rfl,
        fun m hr => ⟨List.nil_prefix, fun _ => ?_⟩⟩
      · rw [List.foldl_cons, List.foldl_append]
        simp only [Session.next, Option.map_some, ↓reduceIte]
        rw [hfold, hkey.symm]
        simp [Session.next, Session.moved, dbNotfound, Session.did]
      · have hnext : moves.next initFlag none key m = none := hr.1
        simp [Moves.page, hnext]
    · refine ⟨[], ?_, by simp, fun m _ => ⟨List.nil_prefix, fun hrc => ?_⟩⟩
      · rw [List.foldl_cons, List.foldl_append]
        simp only [Session.next, Option.map_some, ↓reduceIte]
        rw [hfold]
        simp [Session.next, Session.moved, hne, hcode]
      · cases hrc with
        | inl h0 => exact absurd h0 hne
        | inr hn => exact absurd hn hcode
  | @walked k e dbt val c' r t rs rc he hm =>
    obtain ⟨hkey, hfold⟩ := hload { txn := x, cursor := some (k, none) }
      (fun e' he' => hreg e' (by simp [he'])) he
    obtain ⟨looks, pos', hwalk, hreads, hsees⟩ := hm.session moves
      (a := { txn := x, log := [moves.look initFlag none key (some r)], cursor := some (k, some r.1) })
      rfl
    refine ⟨moves.look initFlag none key (some r) :: looks, ?_,
      List.forall_mem_cons.mpr ⟨rfl, hreads⟩, fun m hr => ?_⟩
    · rw [List.foldl_cons, List.foldl_append]
      simp only [Session.next, Option.map_some, ↓reduceIte]
      rw [hfold, List.foldl_cons, List.foldl_append]
      have hnext : Session.next moves (some { txn := x, cursor := some (k, none) })
          ⟨.cursorGet k dbt val initFlag, (0, r)⟩ = some
            { txn := x, log := [moves.look initFlag none key (some r)], cursor := some (k, some r.1) } := by
        simp [Session.next, Session.moved, hkey, Session.did]
      rw [hnext, hwalk]
      simp [Session.next]
    · have hnext : moves.next initFlag none key m = some r := hr.1
      obtain ⟨hfirst, hall⟩ := hsees m hr.2
      have hpage : moves.page initFlag flags key [] m left =
          r :: moves.onward flags [] m left (some r.1) := by simp [Moves.page, hnext]
      rw [hpage]
      refine ⟨List.cons_prefix_cons.mpr ⟨rfl, hfirst⟩, fun hrc => ?_⟩
      obtain ⟨hrs, hend⟩ := hall hrc
      rw [← hrs, List.length_cons]
      exact ⟨rfl, hend.trans (Nat.add_lt_add_iff_right).symm⟩

end Attempt

end NodeBdb
