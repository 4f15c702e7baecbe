import Mathlib.Logic.Basic
import Mathlib.Data.List.Basic

/-!
# Programs that call out

A program over a signature of calls `C` either returns or makes one call and
continues with the reply, whose type `R c` depends on the call. Nothing is fixed
about what answers: a run pairs a program with any sequence of replies, and an
oracle is any way of choosing them. The monitor rules below are the program logic
of the development: a monitor watches the calls and keeps ghost state of its own.
-/

namespace Interaction

inductive Prog (C : Type) (R : C → Type) (α : Type) where
  | ret : α → Prog C R α
  | call : (c : C) → (R c → Prog C R α) → Prog C R α

abbrev Event (C : Type) (R : C → Type) := (c : C) × R c

abbrev Trace (C : Type) (R : C → Type) := List (Event C R)

section

variable {C : Type} {R : C → Type} {α β : Type}

namespace Prog

def bind : Prog C R α → (α → Prog C R β) → Prog C R β
  | ret a, f => f a
  | call c k, f => call c fun r => (k r).bind f

instance : Monad (Prog C R) where
  pure := ret
  bind := bind

/-- Make one call and return its reply. -/
abbrev perform (c : C) : Prog C R (R c) := call c ret

@[simp] theorem pure_eq (a : α) : (pure a : Prog C R α) = ret a := rfl
@[simp] theorem ret_bind (a : α) (f : α → Prog C R β) : ret a >>= f = f a := rfl
@[simp] theorem call_bind (c : C) (k : R c → Prog C R α) (f : α → Prog C R β) :
    call c k >>= f = call c fun r => k r >>= f := rfl

@[simp] theorem bind_assoc {γ : Type} (p : Prog C R α) (f : α → Prog C R β) (g : β → Prog C R γ) :
    p >>= f >>= g = p >>= fun a => f a >>= g := by
  induction p with
  | ret a => rfl
  | call c k ih => simp only [call_bind, ih]

theorem map_injective {f : α → β} (hf : Function.Injective f) {p q : Prog C R α}
    (h : (p >>= fun a => ret (f a)) = q >>= fun a => ret (f a)) : p = q := by
  induction p generalizing q with
  | ret a =>
    cases q with
    | ret b =>
      injection h with h
      rw [hf h]
    | call c k => cases h
  | call c k ih =>
    cases q with
    | ret b => cases h
    | call c' k' =>
      injection h with hc hk
      subst hc
      congr
      funext r
      exact ih r (congrFun (eq_of_heq hk) r)

end Prog

open Prog

/-- The program makes exactly these calls, gets exactly these replies, and returns. -/
def Runs : Prog C R α → Trace C R → α → Prop
  | ret a, t, b => t = [] ∧ b = a
  | call c k, t, b => ∃ r t', t = ⟨c, r⟩ :: t' ∧ Runs (k r) t' b

@[simp] theorem runs_ret (a b : α) (t : Trace C R) : Runs (ret a) t b ↔ t = [] ∧ b = a := Iff.rfl
@[simp] theorem runs_call (c : C) (k : R c → Prog C R α) (t : Trace C R) (b : α) :
    Runs (call c k) t b ↔ ∃ r t', t = ⟨c, r⟩ :: t' ∧ Runs (k r) t' b := Iff.rfl

theorem runs_nil {p : Prog C R α} {a : α} (h : Runs p [] a) : p = .ret a := by
  cases p with
  | ret b => rw [h.2]
  | call c k => obtain ⟨r, t, he, -⟩ := h; cases he

/-- A program with a first event makes that call. -/
theorem runs_cons {p : Prog C R α} {c : C} {r : R c} {t : Trace C R} {a : α}
    (h : Runs p (⟨c, r⟩ :: t) a) : ∃ k, p = .call c k ∧ Runs (k r) t a := by
  cases p with
  | ret b => exact nomatch h.1
  | call c' k =>
    obtain ⟨r', t', he, h⟩ := h
    cases he
    exact ⟨k, rfl, h⟩

/-- A run of a sequence splits where the first part returns. -/
theorem runs_bind (p : Prog C R α) (f : α → Prog C R β) (t : Trace C R) (b : β) :
    Runs (p >>= f) t b ↔ ∃ t₁ a t₂, Runs p t₁ a ∧ Runs (f a) t₂ b ∧ t = t₁ ++ t₂ := by
  induction p generalizing t with
  | ret a =>
    constructor
    · intro h; exact ⟨[], a, t, ⟨rfl, rfl⟩, h, rfl⟩
    · rintro ⟨t₁, a', t₂, ⟨rfl, rfl⟩, h, rfl⟩; exact h
  | call c k ih =>
    simp only [call_bind, runs_call, ih]
    constructor
    · rintro ⟨r, t', rfl, t₁, a, t₂, h₁, h₂, rfl⟩
      exact ⟨⟨c, r⟩ :: t₁, a, t₂, ⟨r, t₁, rfl, h₁⟩, h₂, rfl⟩
    · rintro ⟨t₁, a, t₂, ⟨r, t', rfl, h₁⟩, h₂, rfl⟩
      exact ⟨r, t' ++ t₂, rfl, t', a, t₂, h₁, h₂, rfl⟩

/-- An oracle chooses each reply, knowing everything that happened before. -/
abbrev Oracle (C : Type) (R : C → Type) := Trace C R → (c : C) → R c

/-- Run against an oracle after the history `h`; the trace returned extends `h`. -/
def exec (o : Oracle C R) : Trace C R → Prog C R α → Trace C R × α
  | h, ret a => (h, a)
  | h, call c k => exec o (h ++ [⟨c, o h c⟩]) (k (o h c))

@[simp] theorem exec_ret (o : Oracle C R) (h : Trace C R) (a : α) :
    exec o h (ret a) = (h, a) := rfl
@[simp] theorem exec_call (o : Oracle C R) (h : Trace C R) (c : C) (k : R c → Prog C R α) :
    exec o h (call c k) = exec o (h ++ [⟨c, o h c⟩]) (k (o h c)) := rfl

/-- Every program returns whatever the replies are, and what the oracle produces is a run. -/
theorem exec_runs (o : Oracle C R) (h : Trace C R) (p : Prog C R α) :
    ∃ t, (exec o h p).1 = h ++ t ∧ Runs p t (exec o h p).2 := by
  induction p generalizing h with
  | ret a => exact ⟨[], by simp, rfl, rfl⟩
  | call c k ih =>
    obtain ⟨t, he, hr⟩ := ih (o h c) (h ++ [⟨c, o h c⟩])
    exact ⟨⟨c, o h c⟩ :: t, by simpa using he, o h c, t, rfl, hr⟩

theorem runs_exec (o : Oracle C R) (p : Prog C R α) : Runs p (exec o [] p).1 (exec o [] p).2 := by
  obtain ⟨t, he, hr⟩ := exec_runs o [] p
  simpa [he] using hr

/-- An oracle that answers as the run was answered leads to the same run. -/
theorem exec_of_runs {o : Oracle C R} {p : Prog C R α} {t : Trace C R} {a : α} (hr : Runs p t a)
    (ho : ∀ h, ∀ e : Event C R, e ∈ t → o h e.1 = e.2) (h : Trace C R) :
    exec o h p = (h ++ t, a) := by
  induction t generalizing p h with
  | nil =>
    rw [runs_nil hr, exec_ret, List.append_nil]
  | cons e t ih =>
    obtain ⟨c, r⟩ := e
    obtain ⟨k, rfl, hrest⟩ := runs_cons hr
    have hone : o h c = r := ho h ⟨c, r⟩ List.mem_cons_self
    rw [exec_call, hone, ih hrest fun h e he => ho h e (List.mem_cons_of_mem _ he)]
    simp

/-- The first event is the oracle's answer. -/
theorem exec_head (o : Oracle C R) (h : Trace C R) (p : Prog C R α) (c : C) (r : R c)
    (t : Trace C R) (he : (exec o h p).1 = h ++ ⟨c, r⟩ :: t) : r = o h c := by
  cases p with
  | ret a => simp at he
  | call c' k =>
    obtain ⟨t', ht, -⟩ := exec_runs o (h ++ [⟨c', o h c'⟩]) (k (o h c'))
    rw [exec_call, ht, List.append_assoc, List.append_cancel_left_eq] at he
    cases he
    rfl

/-- A partial run: after these calls and replies, `q` is what is left to do. -/
inductive Reaches : Prog C R α → Trace C R → Prog C R α → Prop where
  | refl (p : Prog C R α) : Reaches p [] p
  | step {c : C} {k : R c → Prog C R α} {r : R c} {t : Trace C R} {q : Prog C R α} :
      Reaches (k r) t q → Reaches (call c k) (⟨c, r⟩ :: t) q

theorem Reaches.snoc {p : Prog C R α} {t : Trace C R} {c : C} {k : R c → Prog C R α}
    (h : Reaches p t (call c k)) (r : R c) : Reaches p (t ++ [⟨c, r⟩]) (k r) := by
  generalize hq : call c k = q at h
  induction h with
  | refl p => subst hq; exact .step (.refl _)
  | step _ ih => exact .step (ih hq)

theorem reaches_runs {p q : Prog C R α} {t t' : Trace C R} {a : α} (h : Reaches p t q)
    (hr : Runs q t' a) : Runs p (t ++ t') a := by
  induction h with
  | refl p => exact hr
  | step _ ih => exact ⟨_, _, rfl, ih hr⟩

theorem reaches_ret {p : Prog C R α} {t : Trace C R} {a : α} (h : Reaches p t (ret a)) :
    Runs p t a := by
  simpa using reaches_runs h (show Runs (ret a) [] a from ⟨rfl, rfl⟩)

end

/-! ## Servers -/

/-- A server answers each call from a state of its own. -/
structure Server (C : Type) (R : C → Type) (M : Type) where
  reply : M → (c : C) → R c
  next : M → (c : C) → M

section

variable {C : Type} {R : C → Type} {M α β : Type}

def Server.serve (σ : Server C R M) : M → Prog C R α → M × α
  | m, .ret a => (m, a)
  | m, .call c k => σ.serve (σ.next m c) (k (σ.reply m c))

variable (σ : Server C R M)

@[simp] theorem serve_ret (m : M) (a : α) : σ.serve m (.ret a) = (m, a) := rfl
@[simp] theorem serve_call (m : M) (c : C) (k : R c → Prog C R α) :
    σ.serve m (.call c k) = σ.serve (σ.next m c) (k (σ.reply m c)) := rfl

@[simp] theorem serve_bind (m : M) (p : Prog C R α) (f : α → Prog C R β) :
    σ.serve m (p >>= f) = σ.serve (σ.serve m p).1 (f (σ.serve m p).2) := by
  induction p generalizing m with
  | ret a => rfl
  | call c k ih => simp only [Prog.call_bind, serve_call, ih]

end

/-! ## Monitors -/

/-- A monitor keeps ghost state `M` along a run: which calls it admits in a state,
how a call with its reply moves it, and which replies the outside is assumed to give. -/
structure Monitor (C : Type) (R : C → Type) (M : Type) where
  admits : M → C → Prop
  next : M → (c : C) → R c → M
  answers : M → (c : C) → R c → Prop := fun _ _ _ => True

section

variable {C : Type} {R : C → Type} {M α β : Type} (μ : Monitor C R M)

/-- Every call of the trace is admitted, and the monitor ends in the last state. -/
def Monitor.Accepts : M → Trace C R → M → Prop
  | m, [], m' => m' = m
  | m, ⟨c, r⟩ :: t, m' => μ.admits m c ∧ Monitor.Accepts (μ.next m c r) t m'

/-- Every reply of the trace is one that the outside is assumed to give. -/
def Monitor.Answered : M → Trace C R → Prop
  | _, [] => True
  | m, ⟨c, r⟩ :: t => μ.answers m c r ∧ Monitor.Answered (μ.next m c r) t

/-- From the monitor state `m` the program makes admitted calls only, whatever the
assumed replies are, and returns in a monitor state and with a value related by `Q`. -/
def Monitor.Obeys (Q : M → α → Prop) : M → Prog C R α → Prop
  | m, .ret a => Q m a
  | m, .call c k => μ.admits m c ∧ ∀ r, μ.answers m c r → Monitor.Obeys Q (μ.next m c r) (k r)

variable {μ}

@[simp] theorem obeys_ret (Q : M → α → Prop) (m : M) (a : α) : μ.Obeys Q m (.ret a) ↔ Q m a := Iff.rfl
@[simp] theorem obeys_call (Q : M → α → Prop) (m : M) (c : C) (k : R c → Prog C R α) :
    μ.Obeys Q m (.call c k) ↔
      μ.admits m c ∧ ∀ r, μ.answers m c r → μ.Obeys Q (μ.next m c r) (k r) := Iff.rfl

/-- The rule for sequencing. -/
@[simp] theorem obeys_bind (Q : M → β → Prop) (m : M) (p : Prog C R α) (f : α → Prog C R β) :
    μ.Obeys Q m (p >>= f) ↔ μ.Obeys (fun m' a => μ.Obeys Q m' (f a)) m p := by
  induction p generalizing m with
  | ret a => rfl
  | call c k ih => simp only [Prog.call_bind, obeys_call, ih]

/-- The rule of consequence. -/
theorem Monitor.Obeys.mono {Q Q' : M → α → Prop} {m : M} {p : Prog C R α} (h : μ.Obeys Q m p)
    (hq : ∀ m a, Q m a → Q' m a) : μ.Obeys Q' m p := by
  induction p generalizing m with
  | ret a => exact hq m a h
  | call c k ih => exact ⟨h.1, fun r hr => ih r (h.2 r hr)⟩

theorem Monitor.Accepts.split {m m'' : M} {t t' : Trace C R} (h : μ.Accepts m (t ++ t') m'') :
    ∃ m', μ.Accepts m t m' ∧ μ.Accepts m' t' m'' := by
  induction t generalizing m with
  | nil => exact ⟨m, rfl, h⟩
  | cons e t ih =>
    obtain ⟨m', hm, ht⟩ := ih h.2
    exact ⟨m', ⟨h.1, hm⟩, ht⟩

/-- What has been done was admitted, and what is left obeys from the state reached. -/
theorem Monitor.Obeys.reaches {Q : M → α → Prop} {m : M} {p q : Prog C R α} {t : Trace C R}
    (h : μ.Obeys Q m p) (hp : Reaches p t q) (ha : μ.Answered m t) :
    ∃ m', μ.Accepts m t m' ∧ μ.Obeys Q m' q := by
  induction hp generalizing m with
  | refl p => exact ⟨m, rfl, h⟩
  | step _ ih =>
    obtain ⟨m', hm, hq⟩ := ih (h.2 _ ha.1) ha.2
    exact ⟨m', ⟨h.1, hm⟩, hq⟩

/-- Soundness of the program logic for complete runs. -/
theorem Monitor.Obeys.runs {Q : M → α → Prop} {m : M} {p : Prog C R α} {t : Trace C R} {a : α}
    (h : μ.Obeys Q m p) (hp : Runs p t a) (ha : μ.Answered m t) :
    ∃ m', μ.Accepts m t m' ∧ Q m' a := by
  induction p generalizing m t with
  | ret b =>
    obtain ⟨rfl, rfl⟩ := hp
    exact ⟨m, rfl, h⟩
  | call c k ih =>
    obtain ⟨r, t', rfl, hr⟩ := hp
    obtain ⟨m', hm, hq⟩ := ih r (h.2 r ha.1) hr ha.2
    exact ⟨m', ⟨h.1, hm⟩, hq⟩

/-- A monitor that assumes nothing of the replies. -/
theorem answered_of_forall (h : ∀ m c r, μ.answers m c r) (m : M) (t : Trace C R) :
    μ.Answered m t := by
  induction t generalizing m with
  | nil => trivial
  | cons e t ih => exact ⟨h _ _ _, ih _⟩

end

end Interaction
