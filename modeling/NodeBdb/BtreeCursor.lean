import NodeBdb.Paging
import NodeBdb.Moves
import Mathlib.Data.List.TakeWhile

/-!
# The cursor of a BTREE

Six of the flags of a cursor get say where the cursor goes in the order of the keys. Over a
BTREE without duplicates a page read with them is the stretch of its records that a paging
client gets.
-/

namespace NodeBdb

open RangeLocks

def dbLast : Int := 15
def dbPrev : Int := 23

def btreeSeek (flags : Int) : Option Seek :=
  if flags = dbFirst then some .first
  else if flags = dbLast then some .last
  else if flags = dbNext then some .next
  else if flags = dbPrev then some .prev
  else if flags = dbSet then some .set
  else if flags = dbSetRange then some .setRange
  else none

theorem bytes_asymm (j k : Bytes) (h : j < k) : ¬ k < j := fun h' => List.lt_irrefl j (List.lt_trans h h')

theorem bytes_trichotomous (j k : Bytes) (h₁ : ¬ j < k) (h₂ : ¬ k < j) : j = k :=
  List.le_antisymm (List.not_lt.mp h₂) (List.not_lt.mp h₁)

noncomputable def btreeMoves : Moves Int Bytes Bytes := Moves.ordered btreeSeek bytes_trichotomous

/-- The map that a BTREE holds. -/
def Btree.contents (B : Btree) (k : Bytes) : Option Bytes :=
  (B.records.find? fun r => r.1 == k).map Prod.snd

theorem Btree.holds (B : Btree) : Holds B.records B.contents where
  sorted := B.sorted
  records k v := by
    have hsorted := B.sorted
    unfold Btree.contents
    generalize B.records = l at hsorted
    induction l with
    | nil => simp
    | cons r l ih =>
      obtain ⟨hr, hl⟩ := List.pairwise_cons.mp hsorted
      by_cases hk : r.1 = k
      · rw [List.find?_cons_of_pos (by simp [hk])]
        constructor
        · intro h
          cases h
          rw [← hk]
          exact List.mem_cons_self
        · intro h
          cases List.mem_cons.mp h with
          | inl he =>
            rw [← he]
            rfl
          | inr hmem =>
            -- a later record has another key
            have hlt := hr _ hmem
            rw [hk] at hlt
            exact absurd hlt (List.lt_irrefl k)
      · rw [List.find?_cons_of_neg (by simp [hk])]
        apply (ih hl).trans
        constructor
        · exact List.mem_cons_of_mem r
        · intro h
          cases List.mem_cons.mp h with
          | inl he => exact absurd (congrArg Prod.fst he).symm hk
          | inr hmem => exact hmem

/-- What a paging client reads from a starting point on is a page of the map. -/
theorem btree_page (B : Btree) (start : Start) (n : Nat) :
    btreeMoves.page start.initFlag dbNext start.key [] B.contents n = (B.from start).take (n + 1) := by
  cases start with
  | first =>
    have h : Holds ([] ++ B.from .first) B.contents := B.holds
    have hfirst : btreeSeek Start.first.initFlag = some .first := rfl
    have hnext : btreeSeek dbNext = some .next := rfl
    apply h.page bytes_asymm bytes_trichotomous hfirst rfl hnext
    · intro s hs
      cases hs
    · intro s _
      exact Set.mem_univ _
  | range key =>
    have hsplit : B.records.takeWhile (fun r => r.1 < key) ++ Pages.fromKey Prod.fst B.records key =
        B.records := List.takeWhile_append_dropWhile
    have h : Holds (B.records.takeWhile (fun r => r.1 < key) ++ B.from (.range key)) B.contents := by
      rw [show B.from (.range key) = Pages.fromKey Prod.fst B.records key from rfl, hsplit]
      exact B.holds
    have hrange : btreeSeek (Start.range key).initFlag = some .setRange := rfl
    have hnext : btreeSeek dbNext = some .next := rfl
    apply h.page bytes_asymm bytes_trichotomous hrange rfl hnext
    · intro s hs hnot
      have hlt := List.mem_takeWhile_imp hs
      exact hnot (of_decide_eq_true hlt)
    · intro s hs hlt
      have hsorted := B.sorted
      rw [← hsplit] at hsorted
      have hafter := (List.pairwise_append.mp hsorted).2.1
      have hs : s ∈ Pages.fromKey Prod.fst B.records key := hs
      cases hrest : Pages.fromKey Prod.fst B.records key with
      | nil =>
        rw [hrest] at hs
        cases hs
      | cons r rest =>
        have hr : ¬ r.1 < key := by
          have hhead := List.head?_dropWhile_not (fun r : Bytes × Bytes => decide (r.1 < key)) B.records
          rw [show B.records.dropWhile (fun r => decide (r.1 < key)) = r :: rest from hrest] at hhead
          simpa using hhead
        rw [hrest] at hs hafter
        cases List.mem_cons.mp hs with
        | inl he =>
          rw [he] at hlt
          exact hr hlt
        | inr hmem =>
          have hrs := (List.pairwise_cons.mp hafter).1 s hmem
          exact hr (List.lt_trans hrs hlt)

/-- The tree after a write of one key. -/
def Btree.write (B : Btree) (k : Bytes) (v : Option Bytes) : Btree where
  records := replaced B.records k v
  sorted := (B.holds.update bytes_asymm bytes_trichotomous (fun _ _ _ => List.lt_trans) k v).sorted

@[simp] theorem contents_write (B : Btree) (k : Bytes) (v : Option Bytes) :
    (B.write k v).contents = Function.update B.contents k v := by
  funext j
  apply Option.ext
  intro w
  rw [(B.write k v).holds.records j w]
  exact ((B.holds.update bytes_asymm bytes_trichotomous (fun _ _ _ => List.lt_trans) k v).records j w).symm

end NodeBdb
