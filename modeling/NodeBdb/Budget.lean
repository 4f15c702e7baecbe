import NodeBdb.Retries
import NodeBdb.Options

/-!
# The retry budget

The number given as `retries` crosses three layers. JavaScript replaces a 0 by its default
of 1; the addon keeps the low 32 bits; and `TXN_END` compares a C counter with what is left,
which wraps where that is `INT_MAX`. And it looks for a deadlock before the commit only.
-/

namespace NodeBdb

open Interaction

variable {δ σ : Type}

/-! ## The counter of the macros -/

def intMax : Int := 2 ^ 31 - 1

theorem toInt_le (n : Int) : toInt n ≤ intMax := by
  simp only [toInt, Int.bmod_def, intMax]
  omega

theorem toInt_of_le {n : Int} (h₀ : 0 ≤ n) (h : n ≤ intMax) : toInt n = n := by
  simp only [intMax] at h
  simp only [toInt, Int.bmod_def]
  omega

theorem toInt_lt {n : Int} (h : intMax < n) : toInt n < n := by
  have hle := toInt_le n
  omega

theorem toInt_eq_intMax (n : Int) : toInt n = intMax ↔ n % 2 ^ 32 = intMax := by
  simp only [toInt, Int.bmod_def, intMax]
  omega

/-- The loop of the macros for at most `fuel` attempts, with `_attempts` as the `int` it is. -/
def againInt (dbObj : Db) (status : Status σ) (body : Option TxnHandle → σ → BdbProg δ σ) :
    (fuel : Nat) → (_attempts : Int) → σ → BdbProg δ (Option σ)
  | 0, _, _ => .ret none
  | fuel + 1, _attempts, s =>
    if dbObj._transactional then
      .call (.txnBegin dbObj._env) fun (_rc, _txn) =>
        if _rc ≠ 0 then .ret (some s)
        else body (some _txn) s >>= fun s =>
          if status.get s = 0 then
            .call (.commit _txn) fun rc => .ret (some (status.set rc s))
          else if status.get s = dbLockDeadlock ∧ toInt (_attempts + 1) ≤ dbObj._retries then
            .call (.abort _txn) fun _ => againInt dbObj status body fuel (toInt (_attempts + 1)) s
          else
            .call (.abort _txn) fun _ => .ret (some s)
    else body none s >>= fun s => .ret (some s)

/-- Short of `INT_MAX` retries the counter never wraps. -/
theorem againInt_again (dbObj : Db) (status : Status σ) (body : Option TxnHandle → σ → BdbProg δ σ)
    (hr : dbObj._retries < intMax) (fuel : Nat) (n : Int) (h₀ : 0 ≤ n) (hn : n < intMax)
    (hf : (dbObj._retries - n).toNat < fuel) (s : σ) :
    againInt dbObj status body fuel n s = again dbObj status body n s >>= fun s => .ret (some s) := by
  induction fuel generalizing n s with
  | zero => omega
  | succ fuel ih =>
    have hcount : toInt (n + 1) = n + 1 := toInt_of_le (by omega) (by omega)
    rw [againInt, again]
    by_cases ht : dbObj._transactional = true
    · simp only [ht, ↓reduceIte, Prog.call_bind]
      congr 1
      funext r
      by_cases hc : r.1 = 0
      · simp only [hc, ne_eq, not_true_eq_false, ↓reduceIte, Prog.bind_assoc]
        congr 1
        funext s₁
        by_cases h0 : status.get s₁ = 0
        · simp only [h0, ↓reduceIte, Prog.call_bind, Prog.ret_bind]
        · rw [hcount]
          by_cases hd : status.get s₁ = dbLockDeadlock ∧ n + 1 ≤ dbObj._retries
          · rw [if_neg h0, if_pos hd, if_neg h0, if_pos hd, Prog.call_bind]
            congr 1
            funext _
            exact ih (n + 1) (by omega) (by omega) (by omega) s₁
          · simp only [h0, hd, ↓reduceIte, Prog.call_bind, Prog.ret_bind]
      · simp only [ne_eq, hc, not_false_eq_true, ↓reduceIte, Prog.ret_bind]
    · rw [if_neg ht, if_neg ht]

def Bracket.deliverInt (β : Bracket δ) (fuel : Nat) (dbObj : Db) : BdbProg δ (Option Delivery) :=
  againInt dbObj β.status (β.body dbObj) fuel 0 β.start >>= fun s => .ret (s.map β.out)

/-- The operation, for at most `fuel` attempts. -/
def Operation.deliverInt (fuel : Nat) (dbObj : Db) : Operation δ → BdbProg δ (Option Delivery)
  | request r =>
    if dbObj._db = none then .ret (some (r.after r.baton)) else r.bracket.deliverInt fuel dbObj
  | direct c => c.bracket.deliverInt fuel dbObj

theorem deliverInt_bracket {dbObj : Db} {op : Operation δ}
    (ho : ∀ r, op = .request r → dbObj._db ≠ none) (fuel : Nat) :
    op.deliverInt fuel dbObj = op.bracket.deliverInt fuel dbObj := by
  cases op with
  | request r => exact if_neg (ho r rfl)
  | direct c => rfl

/-- With fewer than `INT_MAX` retries the operation is the one with an unbounded counter. -/
theorem deliverInt_deliver {dbObj : Db} {op : Operation δ}
    (ho : ∀ r, op = .request r → dbObj._db ≠ none) (hr : dbObj._retries < intMax) {fuel : Nat}
    (hf : dbObj._retries.toNat < fuel) :
    op.deliverInt fuel dbObj = op.deliver dbObj >>= fun d => .ret (some d) := by
  rw [deliverInt_bracket ho, deliver_bracket ho, Bracket.deliverInt,
    againInt_again dbObj _ _ hr fuel 0 (by decide) (by decide) (by omega)]
  simp only [Prog.bind_assoc, Prog.ret_bind, Option.map_some]
  rfl

/-! ## Lost attempts -/

/-- The last call of the body was a deadlock victim, and the attempt was aborted. -/
def lostInBody (a : BdbTrace δ) : Bool :=
  match a.reverse with
  | ⟨.abort _, _⟩ :: e :: _ => BdbEvent.code e == dbLockDeadlock
  | _ => false

def lostAtCommit (a : BdbTrace δ) : Bool :=
  match a.reverse with
  | ⟨.commit _, c⟩ :: _ => c == dbLockDeadlock
  | _ => false

/-- The attempt ended in a deadlock. -/
def lost (a : BdbTrace δ) : Bool := lostInBody a || lostAtCommit a

/-- The first `k` attempts end in a deadlock and the one after them, if it is reached, does not. -/
structure LostFirst (k : Nat) (t : BdbTrace δ) : Prop where
  granted : ∀ e : BdbEvent δ, e ∈ t → e.1.begins = true → e.code = 0
  lost : ∀ i (h : i < (attemptsOf t).length), i ≤ k → (lost (attemptsOf t)[i] = true ↔ i < k)

instance (k : Nat) (t : BdbTrace δ) : Decidable (LostFirst k t) :=
  decidable_of_iff (_ ∧ _) ⟨fun h => ⟨h.1, h.2⟩, fun h => ⟨h.granted, h.lost⟩⟩

theorem LostFirst.attempt {k : Nat} {t a : BdbTrace δ} {as : List (BdbTrace δ)} (h : LostFirst k t)
    (ht : attemptsOf t = as) {i : Nat} (hi : as[i]? = some a) (hk : i ≤ k) :
    NodeBdb.lost a = true ↔ i < k := by
  subst ht
  obtain ⟨hlt, rfl⟩ := List.getElem?_eq_some_iff.mp hi
  exact h.lost i hlt hk

/-- The calls of a body: its status is a deadlock exactly where its last call was a victim. -/
structure BodyCalls (b : BdbTrace δ) (c : Int) : Prop where
  begins : ∀ e ∈ b, e.1.begins = false
  last : ∃ b' e, b = b' ++ [e] ∧ (BdbEvent.code e = dbLockDeadlock ↔ c = dbLockDeadlock)

theorem BodyCalls.single {e : BdbEvent δ} {c : Int} (hb : e.1.begins = false) (hc : e.code = c) :
    BodyCalls [e] c where
  begins e' he := by rw [List.mem_singleton.mp he]; exact hb
  last := ⟨[], e, rfl, by rw [hc]⟩

theorem mismatch_no_deadlock : (0 : Int) = dbLockDeadlock ↔ consistencyError = dbLockDeadlock := by
  decide

/-- A comparison that fails is no deadlock, whether or not it read memory. -/
theorem putIf_calls {dbObj : Db} {x : Option TxnHandle} {s : PutIfLocals δ} {b : BdbTrace δ} {c : Int}
    (h : PutIfOutcome dbObj x s b c) : BodyCalls b c := by
  cases h with
  | missed _ => exact .single rfl rfl
  | otherSize _ => exact ⟨by simp [Call.begins], [], _, rfl, mismatch_no_deadlock⟩
  | otherBytes _ he _ =>
    rcases contents_calls he with rfl | ⟨p, len, rfl⟩
    · exact ⟨by simp [Call.begins], [], _, rfl, mismatch_no_deadlock⟩
    · exact ⟨by simp [Call.begins], [_], _, rfl, mismatch_no_deadlock⟩
  | put _ he =>
    rcases contents_calls he with rfl | ⟨p, len, rfl⟩
    · exact ⟨by simp [Call.begins], [_], _, rfl, Iff.rfl⟩
    · exact ⟨by simp [Call.begins], [_, _], _, rfl, Iff.rfl⟩

theorem outcome_calls {dbObj : Db} {x : Option TxnHandle} {op : Operation δ} {b : BdbTrace δ} {c : Int}
    {value : Option Bytes} (h : Outcome dbObj x op b c value) : BodyCalls b c := by
  match op, h with
  | .request (.get ..), h => obtain ⟨_, _, rfl, _⟩ := h; exact .single rfl rfl
  | .request (.put ..), h => obtain rfl := h; exact .single rfl rfl
  | .request (.putIf ..), h => obtain ⟨_, _, _, _, _, h⟩ := h; exact putIf_calls h
  | .request (.del ..), h => obtain rfl := h; exact .single rfl rfl
  | .direct (.getS ..), h => obtain ⟨_, _, rfl, _⟩ := h; exact .single rfl rfl
  | .direct (.putS ..), h => obtain rfl := h; exact .single rfl rfl
  | .direct (.delS ..), h => obtain rfl := h; exact .single rfl rfl

section Attempts

variable {b : BdbTrace δ} {c : Int} {env : Option EnvHandle} {x : TxnHandle} {r : Int}

theorem lost_committed (first : BdbEvent δ) :
    lostInBody (first :: (b ++ [⟨.commit x, r⟩])) = false ∧
      lostAtCommit (first :: (b ++ [⟨.commit x, r⟩])) = (r == dbLockDeadlock) := by
  simp [lostInBody, lostAtCommit]

theorem BodyCalls.lost_aborted (h : BodyCalls b c) (first : BdbEvent δ) :
    lostAtCommit (first :: (b ++ [⟨.abort x, r⟩])) = false ∧
      (lostInBody (first :: (b ++ [⟨.abort x, r⟩])) = true ↔ c = dbLockDeadlock) := by
  obtain ⟨b', e, rfl, hc⟩ := h.last
  simp [lostInBody, lostAtCommit, hc]

end Attempts

/-! ## How the attempts are spent -/

/-- The attempts `as` that are made from the counter `n` on where `k` of them end in a deadlock,
and the status `c` that they end with. -/
structure Spent (retries n : Int) (k : Nat) (as : List (BdbTrace δ)) (c : Int) : Prop where
  pos : 0 < as.length
  le : as.length ≤ k + 1
  earlier : ∀ i a, i + 1 < as.length → as[i]? = some a → lostAtCommit a = false
  within : retries ≠ intMax → as.length ≤ (retries - n).toNat + 1
  stopped : as.length ≤ k → (∃ a, as[as.length - 1]? = some a ∧ lostAtCommit a = true) ∨
    retries ≠ intMax ∧ (retries - n).toNat + 1 ≤ as.length
  code : c = dbLockDeadlock ↔ as.length ≤ k

theorem Spent.single {retries n : Int} {k : Nat} {a : BdbTrace δ} {c : Int}
    (hc : c = dbLockDeadlock ↔ 0 < k)
    (hstop : 0 < k → lostAtCommit a = true ∨ retries ≠ intMax ∧ retries ≤ n) :
    Spent retries n k [a] c where
  pos := by simp
  le := by simp
  earlier i a hi := by simp at hi
  within _ := by simp
  stopped h := by
    cases hstop h with
    | inl hcommit => exact .inl ⟨a, rfl, hcommit⟩
    | inr hused =>
      refine .inr ⟨hused.1, ?_⟩
      rw [List.length_singleton]
      omega
  code := hc

theorem Spent.cons {retries n n' : Int} {k : Nat} {a : BdbTrace δ} {as : List (BdbTrace δ)} {c : Int}
    (h : Spent retries n' k as c) (ha : lostAtCommit a = false)
    (hn : retries ≠ intMax → n' = n + 1 ∧ n + 1 ≤ retries) : Spent retries n (k + 1) (a :: as) c where
  pos := by simp
  le := Nat.succ_le_succ h.le
  earlier i a' hi hget := by
    cases i with
    | zero => cases hget; exact ha
    | succ i => exact h.earlier i a' (by simpa using hi) hget
  within hr := by
    obtain ⟨rfl, hle⟩ := hn hr
    have hw := h.within hr
    rw [List.length_cons]
    omega
  stopped hk := by
    have hpos := h.pos
    cases h.stopped (by simpa using hk) with
    | inl hlast =>
      obtain ⟨a', hget, hcommit⟩ := hlast
      refine .inl ⟨a', ?_, hcommit⟩
      obtain ⟨m, hm⟩ := Nat.exists_eq_succ_of_ne_zero (by omega : as.length ≠ 0)
      rw [hm] at hget
      rw [List.length_cons, hm]
      exact hget
    | inr hused =>
      obtain ⟨rfl, hle⟩ := hn hused.1
      refine .inr ⟨hused.1, ?_⟩
      rw [List.length_cons]
      omega
  code := by rw [h.code, List.length_cons, Nat.succ_le_succ_iff]

section Counting

variable {dbObj : Db} {status : Status σ} {body : Option TxnHandle → σ → BdbProg δ σ} {I : σ → Prop}

theorem againInt_head (ht : dbObj._transactional = true) {fuel : Nat} {n : Int} {s : σ}
    {t : BdbTrace δ} {o : Option σ} (h : Runs (againInt dbObj status body fuel n s) t o) :
    ∀ e t', t = e :: t' → e.1.begins = true := by
  intro e t' he
  subst he
  cases fuel with
  | zero => exact absurd h.1 (by simp)
  | succ fuel =>
    rw [againInt, if_pos ht] at h
    obtain ⟨r, t'', heq, -⟩ := h
    cases heq
    rfl

/-- The induction is on the attempts there is fuel for. -/
theorem againInt_spent (ht : dbObj._transactional = true) (hmax : dbObj._retries ≤ intMax)
    (hbody : ∀ x s b s₁, I s → Runs (body (some x) s) b s₁ → I s₁ ∧ BodyCalls b (status.get s₁))
    (fuel : Nat) (n : Int) (hn : dbObj._retries ≠ intMax → 0 ≤ n ∧ n < intMax) (s : σ) (hI : I s)
    (k : Nat) (hk : k < fuel) (t : BdbTrace δ) (o : Option σ)
    (hr : Runs (againInt dbObj status body fuel n s) t o) (hl : LostFirst k t) :
    ∃ s', o = some s' ∧ Spent dbObj._retries n k (attemptsOf t) (status.get s') := by
  induction fuel generalizing n s k t with
  | zero => omega
  | succ fuel ih =>
    rw [againInt, if_pos ht] at hr
    obtain ⟨⟨c, x⟩, t, rfl, hr⟩ := hr
    have hc : c = 0 := hl.granted _ List.mem_cons_self rfl
    subst hc
    simp only [ne_eq, not_true_eq_false, ↓reduceIte, runs_bind] at hr
    obtain ⟨b, s₁, t₂, hb, hr, rfl⟩ := hr
    obtain ⟨hI₁, hcalls⟩ := hbody x s b s₁ hI hb
    by_cases h0 : status.get s₁ = 0
    · simp only [h0, ↓reduceIte, runs_call, runs_ret] at hr
      obtain ⟨rc, _, rfl, rfl, rfl⟩ := hr
      have has := attemptsOf_granted dbObj._env x ⟨.commit x, rc⟩ hcalls.begins rfl
      have hfirst := hl.attempt (i := 0) has rfl (Nat.zero_le k)
      obtain ⟨hin, hcommit⟩ := lost_committed (b := b) (x := x) (r := rc) ⟨.txnBegin dbObj._env, (0, x)⟩
      rw [lost, hin, hcommit, Bool.false_or, beq_iff_eq] at hfirst
      rw [has]
      refine ⟨_, rfl, .single ?_ fun hpos => .inl ?_⟩
      · rw [status.get_set]; exact hfirst
      · rw [hcommit]; exact beq_iff_eq.mpr (hfirst.mpr hpos)
    · by_cases hd : status.get s₁ = dbLockDeadlock ∧ toInt (n + 1) ≤ dbObj._retries
      · rw [if_neg h0, if_pos hd] at hr
        obtain ⟨rc, t₃, rfl, hr⟩ := hr
        have has := attemptsOf_cut dbObj._env x ⟨.abort x, rc⟩ hcalls.begins rfl (againInt_head ht hr)
        have hfirst := hl.attempt (i := 0) has rfl (Nat.zero_le k)
        obtain ⟨hcommit, hin⟩ := hcalls.lost_aborted (x := x) (r := rc)
          ⟨.txnBegin dbObj._env, (0, x)⟩
        rw [lost, hcommit, Bool.or_false, hin] at hfirst
        obtain ⟨k, rfl⟩ := Nat.exists_eq_succ_of_ne_zero (Nat.pos_iff_ne_zero.mp (hfirst.mp hd.1))
        have hstep : dbObj._retries ≠ intMax → toInt (n + 1) = n + 1 ∧ n + 1 ≤ dbObj._retries := by
          intro hne
          obtain ⟨h₀, hlt⟩ := hn hne
          have hcount := toInt_of_le (n := n + 1) (by omega) (by omega)
          exact ⟨hcount, hcount ▸ hd.2⟩
        have hrest : LostFirst k t₃ := by
          constructor
          · exact fun e he => hl.granted e (by simp [he])
          · intro i hi hle
            rw [hl.attempt (i := i + 1) has (List.getElem?_eq_getElem hi) (by omega)]
            omega
        obtain ⟨s', rfl, hspent⟩ := ih (toInt (n + 1)) (fun hne => by
          have h := hstep hne
          have hnn := hn hne
          omega) s₁ hI₁ k (by omega) t₃ hr hrest
        rw [has]
        exact ⟨s', rfl, hspent.cons hcommit hstep⟩
      · rw [if_neg h0, if_neg hd] at hr
        obtain ⟨rc, _, rfl, rfl, rfl⟩ := hr
        have has := attemptsOf_granted dbObj._env x ⟨.abort x, rc⟩ hcalls.begins rfl
        have hfirst := hl.attempt (i := 0) has rfl (Nat.zero_le k)
        obtain ⟨hcommit, hin⟩ := hcalls.lost_aborted (x := x) (r := rc)
          ⟨.txnBegin dbObj._env, (0, x)⟩
        rw [lost, hcommit, Bool.or_false, hin] at hfirst
        rw [has]
        refine ⟨_, rfl, .single hfirst fun hpos => .inr ?_⟩
        -- a victim that is not retried has used up what is left
        have hused : ¬ toInt (n + 1) ≤ dbObj._retries := fun hle => hd ⟨hfirst.mpr hpos, hle⟩
        have hle := toInt_le (n + 1)
        have hne : dbObj._retries ≠ intMax := fun heq => hused (heq ▸ hle)
        have hnn := hn hne
        rw [toInt_of_le (by omega) (by omega)] at hused
        exact ⟨hne, by omega⟩

end Counting

/-! ## The budget of an operation -/

/-- What `retries: r` promises where `k` attempts in a row end in a deadlock: that many are
retried, but no more than `r`, and the caller hears of the deadlock only after that. -/
structure Budgeted (r k : Nat) (as : List (BdbTrace δ)) (code : Int) : Prop where
  attempts : as.length = min k r + 1
  code : code = dbLockDeadlock ↔ r < k

/-- The attempt `i` was made, and lost at its commit. -/
def CommitLost (as : List (BdbTrace δ)) (i : Nat) : Prop := ∃ a, as[i]? = some a ∧ lostAtCommit a = true

instance (as : List (BdbTrace δ)) (i : Nat) : Decidable (CommitLost as i) :=
  decidable_of_iff (as[i]?.any lostAtCommit = true) (Option.any_eq_true _ _)

/-- No layer changes the number to one that matters, and no deadlock is met by a commit. -/
structure Fits (r k : Nat) (as : List (BdbTrace δ)) : Prop where
  commits : ∀ i < min k r, ¬ CommitLost as i
  zero : r = 0 → k = 0 ∨ CommitLost as 0
  narrowed : 2 ^ 31 ≤ r → r % 2 ^ 32 ≠ 2 ^ 31 - 1 → k ≤ (toInt r).toNat
  wrapped : r % 2 ^ 32 = 2 ^ 31 - 1 → k ≤ r ∨ CommitLost as r

section Budget

variable {r k : Nat} {as : List (BdbTrace δ)} {c : Int}

theorem Spent.not_commitLost {retries n : Int} (h : Spent retries n k as c) {i : Nat}
    (hi : i + 1 < as.length) : ¬ CommitLost as i := by
  rintro ⟨a, hget, hcommit⟩
  exact absurd hcommit (by simp [h.earlier i a hi hget])

/-- The code is right wherever the number of attempts is. -/
theorem Spent.budgeted {retries n : Int} (h : Spent retries n k as c) :
    Budgeted r k as c ↔ as.length = min k r + 1 := by
  constructor
  · exact fun hb => hb.attempts
  · intro hlen
    refine ⟨hlen, ?_⟩
    rw [h.code, hlen]
    omega

theorem stored_eq_intMax : toInt (if (r : Int) = 0 then 1 else r) = intMax ↔ r % 2 ^ 32 = 2 ^ 31 - 1 := by
  by_cases h0 : r = 0
  · subst h0
    decide
  · rw [if_neg (by omega), toInt_eq_intMax, intMax]
    omega

theorem Spent.fits (h : Spent (toInt (if (r : Int) = 0 then 1 else r)) 0 k as c)
    (hlen : as.length = min k r + 1) : Fits r k as where
  commits i hi := h.not_commitLost (by omega)
  zero h0 := by
    subst h0
    by_cases hk : k = 0
    · exact .inl hk
    · have hone : as.length = 1 := by omega
      cases h.stopped (by omega) with
      | inl hlast => rw [hone] at hlast; exact .inr hlast
      | inr hused =>
        have hstored : toInt (if ((0 : Nat) : Int) = 0 then 1 else (0 : Nat)) = 1 := rfl
        rw [hstored] at hused
        omega
  narrowed hbig hlow := by
    have hw := h.within (fun heq => hlow (stored_eq_intMax.mp heq))
    rw [if_neg (by omega)] at hw
    have hlt := toInt_lt (n := r) (by simp only [intMax]; omega)
    omega
  wrapped hlow := by
    by_cases hk : k ≤ r
    · exact .inl hk
    · have hone : as.length - 1 = r := by omega
      cases h.stopped (by omega) with
      | inl hlast => rw [hone] at hlast; exact .inr hlast
      | inr hused => exact absurd (stored_eq_intMax.mpr hlow) hused.1

theorem Fits.attempts (hf : Fits r k as)
    (h : Spent (toInt (if (r : Int) = 0 then 1 else r)) 0 k as c) : as.length = min k r + 1 := by
  have hpos := h.pos
  have hle := h.le
  -- no attempt before the budget is used up may be the last
  have hstop : as.length ≤ min k r →
      toInt (if (r : Int) = 0 then 1 else r) ≠ intMax ∧
        (toInt (if (r : Int) = 0 then 1 else r) - 0).toNat + 1 ≤ as.length := by
    intro hlt
    cases h.stopped (by omega) with
    | inl hlast => exact absurd hlast (hf.commits _ (by omega))
    | inr hused => exact hused
  by_cases h0 : r = 0
  · cases hf.zero h0 with
    | inl hk => omega
    | inr hcommit =>
      by_contra hne
      exact h.not_commitLost (i := 0) (by omega) hcommit
  · have hstored : (if (r : Int) = 0 then 1 else (r : Int)) = r := if_neg (by omega)
    by_cases hlow : r % 2 ^ 32 = 2 ^ 31 - 1
    · have hmax := stored_eq_intMax.mpr hlow
      have hge : ¬ as.length ≤ min k r := fun hlt => (hstop hlt).1 hmax
      cases hf.wrapped hlow with
      | inl hk => omega
      | inr hcommit =>
        by_contra hne
        exact h.not_commitLost (i := r) (by omega) hcommit
    · have hw := h.within (fun heq => hlow (stored_eq_intMax.mp heq))
      rw [hstored] at hw hstop
      by_cases hbig : 2 ^ 31 ≤ r
      · have hk := hf.narrowed hbig hlow
        have hlt := toInt_lt (n := r) (by simp only [intMax]; omega)
        by_contra hne
        have h := (hstop (by omega)).2
        omega
      · rw [toInt_of_le (by omega) (by simp only [intMax]; omega)] at hw hstop
        by_contra hne
        have h := (hstop (by omega)).2
        omega

/-- For every number of retries that `openSync` is given, and every number of deadlocks in a row,
the operation ends, and the documented budget is kept exactly where the number fits. -/
theorem retryBudget_iff (db db' : Db) (ht : db._transactional = true) (ho : db._db ≠ none)
    (options : OpenOptions) (r : Nat) (hr : options.retries = .number r) (m : Option DbMethod)
    (hopen : db.openSync (some options) = .ok (db', m)) (op : Operation δ) (hk : op.onKey = true)
    (k fuel : Nat) (hf : k < fuel) (t : BdbTrace δ) (o : Option Delivery)
    (hrun : Runs (op.deliverInt fuel db') t o) (hl : LostFirst k t) :
    ∃ d, o = some d ∧ (Budgeted r k (attemptsOf t) d.code ↔ Fits r k (attemptsOf t)) := by
  have hdb := openSync_retries hr hopen
  obtain ⟨I, hmeets⟩ := onKey_meets db' hk
  rw [deliverInt_bracket (fun _ _ => by rw [hdb]; exact ho), Bracket.deliverInt, runs_bind] at hrun
  obtain ⟨t₁, s, t₂, hrun, ⟨rfl, rfl⟩, rfl⟩ := hrun
  rw [List.append_nil] at hl ⊢
  obtain ⟨s', rfl, hspent⟩ := againInt_spent (by rw [hdb]; exact ht) (by rw [hdb]; exact toInt_le _)
    (fun x s b s₁ hI hb => by
      have h := hmeets.body (some x) s b s₁ hI hb
      exact ⟨h.1, outcome_calls h.2⟩) fuel 0 (fun _ => by decide) _ hmeets.start k hf t₁ s hrun hl
  refine ⟨op.bracket.out s', rfl, ?_⟩
  rw [← hmeets.code, hdb] at hspent
  rw [hspent.budgeted]
  exact ⟨hspent.fits, fun h => h.attempts hspent⟩

end Budget

/-- `get` of the key `k`, whose first attempt is a deadlock victim, after `openSync` with this
number of retries. -/
def lostGet (r : Nat) : BdbTrace Bytes × Option Delivery :=
  exec (deadlockOnce Call.consults) []
    ((Operation.request (.get (buffer [107]) 0)).deliverInt 2
      { openDb with _retries := toInt (if r = 0 then 1 else r) })

theorem lostGet_budget :
    ∃ d, (lostGet 1).2 = some d ∧ (Budgeted 1 1 (attemptsOf (lostGet 1).1) d.code ↔
      Fits 1 1 (attemptsOf (lostGet 1).1)) :=
  retryBudget_iff openDb { openDb with _retries := 1 } rfl (by decide)
    { file := .string "f", retries := .number 1 } 1 rfl _ rfl (.request (.get (buffer [107]) 0)) rfl 1 2
    (by decide) _ _ (runs_exec _ _) (by decide +kernel)

/-- Without a retry to spend, the get is tried again and told as success. -/
theorem lostGet_retried :
    ∃ m, openDb.openSync (some { file := .string "f", retries := .number 0 }) =
        .ok ({ openDb with _retries := toInt (if (0 : Nat) = 0 then 1 else (0 : Nat)) }, m) ∧
      LostFirst 1 (lostGet 0).1 ∧ ∃ d, (lostGet 0).2 = some d ∧
        ¬ Budgeted 0 1 (attemptsOf (lostGet 0).1) d.code := by
  refine ⟨_, rfl, by decide +kernel, _, rfl, fun h => ?_⟩
  exact absurd h.attempts (by decide +kernel)

end NodeBdb
