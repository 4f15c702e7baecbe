import Mathlib.Data.List.TakeDrop
import Mathlib.Algebra.Order.BigOperators.Group.List
import Mathlib.Algebra.Order.Ring.Nat

/-!
# Reading a sorted list page by page

A client that cannot keep a position between two reads remembers the key of the last
element it got, reads from that key on, and drops the first element it gets. Over a list
sorted by a key this loses and repeats nothing, whatever the sizes of the pages.
-/

namespace Pages

variable {α K : Type} (key : α → K) [LT K] [DecidableLT K]

/-- The elements from the key `k` on. -/
def fromKey (l : List α) (k : K) : List α := l.dropWhile fun a => key a < k

/-- The elements of a page, and whether there were as many as were asked for. -/
structure Page (α : Type) where
  items : List α
  full : Bool

def page (rest : List α) (n : Nat) : Page α :=
  { items := rest.take n, full := decide (n ≤ rest.length) }

/-- The pages read from `l` with these sizes, the first of them from `rest` on. -/
def pages (l : List α) : List α → List Nat → List (Page α)
  | _, [] => []
  | rest, n :: ns => page rest n ::
    if n ≤ rest.length then
      match (rest.take n).getLast? with
      | some a => pages l (fromKey key l (key a)) ns
      | none => []
    else []

/-- All that was read, without the element that each page repeats. -/
def joined : List (List α) → List α
  | [] => []
  | p :: ps => p ++ (ps.map List.tail).flatten

/-- The number of elements that pages of these sizes have between them. -/
def total : List Nat → Nat
  | [] => 0
  | n :: ns => n + (ns.map (· - 1)).sum

theorem total_cons {n : Nat} {ns : List Nat} (h : ∀ n ∈ ns, 1 ≤ n) : total (n :: ns) = n + (total ns - 1) := by
  cases ns with
  | nil => rfl
  | cons m ns =>
    have hm := h m List.mem_cons_self
    simp only [total, List.map_cons, List.sum_cons]
    omega

theorem total_eq {ns : List Nat} (h : ∀ n ∈ ns, 1 ≤ n) (hne : ns ≠ []) :
    total ns = (ns.map (· - 1)).sum + 1 := by
  cases ns with
  | nil => exact absurd rfl hne
  | cons n ns =>
    have hn := h n List.mem_cons_self
    simp only [total, List.map_cons, List.sum_cons]
    omega

/-- Pages that are nowhere larger and somewhere smaller hold less. -/
theorem total_map_lt {f : Nat → Nat} {ns : List Nat} (hpos : ∀ n ∈ ns, 1 ≤ f n)
    (hle : ∀ n ∈ ns, f n ≤ n) (hlt : ∃ n ∈ ns, f n < n) : total (ns.map f) < total ns := by
  obtain ⟨n, hn, hlt⟩ := hlt
  have hne : ns ≠ [] := List.ne_nil_of_mem hn
  have hns : ∀ n ∈ ns, 1 ≤ n := fun n hn => (hpos n hn).trans (hle n hn)
  have hsizes : ∀ n ∈ ns.map f, 1 ≤ n := by
    intro n hn
    obtain ⟨m, hm, rfl⟩ := List.mem_map.mp hn
    exact hpos m hm
  rw [total_eq hsizes (by simpa using hne), total_eq hns hne, List.map_map]
  apply Nat.succ_lt_succ
  apply List.sum_lt_sum
  · intro m hm
    exact Nat.sub_le_sub_right (hle m hm) 1
  · have h := hpos n hn
    refine ⟨n, hn, ?_⟩
    simp only [Function.comp_apply]
    omega

theorem joined_tail {ps : List (List α)} (h : ∀ p, ps.head? = some p → p ≠ []) :
    (ps.map List.tail).flatten = (joined ps).tail := by
  cases ps with
  | nil => rfl
  | cons p ps =>
    rw [joined, List.tail_append_of_ne_nil (h p rfl)]
    rfl

section Sorted

variable {l rest : List α}

/-- Reading from the key of an element on begins with that element. -/
theorem fromKey_append (hirr : ∀ k : K, ¬ k < k) (pre : List α) (a : α) (post : List α)
    (hl : (pre ++ a :: post).Pairwise fun a b => key a < key b) :
    fromKey key (pre ++ a :: post) (key a) = a :: post := by
  have hpre : ∀ b ∈ pre, decide (key b < key a) = true := fun b hb =>
    decide_eq_true ((List.pairwise_append.mp hl).2.2 b hb a List.mem_cons_self)
  rw [fromKey, List.dropWhile_append_of_pos hpre, List.dropWhile_cons_of_neg (by simp [hirr])]

variable (hirr : ∀ k : K, ¬ k < k) (hl : l.Pairwise fun a b => key a < key b) (hrest : rest <:+ l)

include hirr hl hrest

/-- After a full page the next one begins at its last element. -/
theorem fromKey_last {n : Nat} (hn : 1 ≤ n) (hfull : n ≤ rest.length) :
    ∃ a post, (rest.take n).getLast? = some a ∧ rest.drop (n - 1) = a :: post ∧
      fromKey key l (key a) = a :: post := by
  obtain ⟨pre, rfl⟩ := hrest
  have hlt : n - 1 < rest.length := by omega
  refine ⟨rest[n - 1], rest.drop n, ?_, ?_, ?_⟩
  · rw [List.getLast?_eq_getElem?, List.length_take, Nat.min_eq_left hfull,
      List.getElem?_take_of_lt (by omega), List.getElem?_eq_getElem hlt]
  · rw [List.drop_eq_getElem_cons hlt, Nat.sub_add_cancel hn]
  · have hsplit : pre ++ rest = (pre ++ rest.take (n - 1)) ++ rest[n - 1] :: rest.drop n := by
      rw [List.append_assoc]
      congr 1
      conv_lhs => rw [← List.take_append_drop (n - 1) rest, List.drop_eq_getElem_cons hlt,
        Nat.sub_add_cancel hn]
    rw [hsplit] at hl ⊢
    exact fromKey_append key hirr _ _ _ hl

/-- A page that is not full is the only one; after a full one the pages go on from its last
element. -/
theorem pages_cons {n : Nat} (hn : 1 ≤ n) (ns : List Nat) :
    rest.length < n ∧ pages key l rest (n :: ns) = [page rest n] ∨
      n ≤ rest.length ∧ ∃ a post, (rest.take n).getLast? = some a ∧ rest.drop (n - 1) = a :: post ∧
        pages key l rest (n :: ns) = page rest n :: pages key l (a :: post) ns := by
  by_cases hfull : n ≤ rest.length
  · obtain ⟨a, post, hlast, hdrop, hfrom⟩ := fromKey_last key hirr hl hrest hn hfull
    refine .inr ⟨hfull, a, post, hlast, hdrop, ?_⟩
    rw [pages, if_pos hfull, hlast]
    simp only [hfrom]
  · refine .inl ⟨by omega, ?_⟩
    rw [pages, if_neg hfull]

theorem pages_joined {ns : List Nat} (hns : ∀ n ∈ ns, 1 ≤ n) :
    joined ((pages key l rest ns).map Page.items) = rest.take (total ns) := by
  induction ns generalizing rest with
  | nil => simp [pages, joined, total]
  | cons n ns ih =>
    have hn := hns n List.mem_cons_self
    have hns' : ∀ n ∈ ns, 1 ≤ n := fun m hm => hns m (List.mem_cons_of_mem n hm)
    rw [total_cons hns']
    cases pages_cons key hirr hl hrest hn ns with
    | inl hshort =>
      rw [hshort.2, List.take_of_length_le (by omega)]
      simp only [page, List.map_cons, List.map_nil, joined, List.flatten_nil, List.append_nil]
      exact List.take_of_length_le (by omega)
    | inr hnext =>
      obtain ⟨hfull, a, post, -, hdrop, hpages⟩ := hnext
      have hpost : a :: post <:+ l := hdrop ▸ (List.drop_suffix (n - 1) rest).trans hrest
      have htail : ((pages key l (a :: post) ns).map Page.items |>.map List.tail).flatten =
          post.take (total ns - 1) := by
        rw [joined_tail, ih hpost hns', List.tail_take_eq_take_tail]
        · rfl
        · intro p hp
          cases ns with
          | nil => cases hp
          | cons m ns =>
            cases hp
            have hm := hns' m List.mem_cons_self
            simp [page]
            omega
      have hdrop' : rest.drop n = post := by
        have h := congrArg List.tail hdrop
        rwa [List.tail_drop, Nat.sub_add_cancel hn] at h
      rw [hpages, List.map_cons, joined, htail, List.take_add, hdrop']
      rfl

/-- Each page begins with the last element of the page before it. -/
theorem pages_overlap {ns : List Nat} (hns : ∀ n ∈ ns, 1 ≤ n) :
    ((pages key l rest ns).map Page.items).IsChain fun p q =>
      ∃ a, p.getLast? = some a ∧ q.head? = some a := by
  induction ns generalizing rest with
  | nil => exact .nil
  | cons n ns ih =>
    have hns' : ∀ n ∈ ns, 1 ≤ n := fun m hm => hns m (List.mem_cons_of_mem n hm)
    cases pages_cons key hirr hl hrest (hns n List.mem_cons_self) ns with
    | inl hshort => rw [hshort.2]; exact .singleton _
    | inr hnext =>
      obtain ⟨-, a, post, hlast, hdrop, hpages⟩ := hnext
      have hpost : a :: post <:+ l := hdrop ▸ (List.drop_suffix (n - 1) rest).trans hrest
      have hchain := ih hpost hns'
      rw [hpages]
      cases ns with
      | nil => exact .singleton _
      | cons m ns =>
        have hm := hns' m List.mem_cons_self
        apply List.IsChain.cons_cons
        · refine ⟨a, hlast, ?_⟩
          rw [page, List.head?_take, if_neg (by omega)]
          rfl
        · exact hchain

/-- A page that is not full comes last, and everything has been read by then. -/
theorem pages_ended {ns : List Nat} (hns : ∀ n ∈ ns, 1 ≤ n) (p : Page α)
    (hp : p ∈ pages key l rest ns) (hshort : p.full = false) : rest.length ≤ total ns := by
  induction ns generalizing rest with
  | nil => cases hp
  | cons n ns ih =>
    have hns' : ∀ n ∈ ns, 1 ≤ n := fun m hm => hns m (List.mem_cons_of_mem n hm)
    have hn := hns n List.mem_cons_self
    rw [total_cons hns']
    cases pages_cons key hirr hl hrest hn ns with
    | inl hend => omega
    | inr hnext =>
      obtain ⟨hfull, a, post, -, hdrop, hpages⟩ := hnext
      rw [hpages] at hp
      cases List.mem_cons.mp hp with
      | inl hfirst =>
        rw [hfirst, page, decide_eq_false_iff_not] at hshort
        exact absurd hfull hshort
      | inr hlater =>
        have hlen := congrArg List.length hdrop
        have h := ih (hdrop ▸ (List.drop_suffix (n - 1) rest).trans hrest) hns' hlater
        rw [List.length_drop] at hlen
        rw [List.length_cons] at hlen h
        omega

end Sorted

end Pages
