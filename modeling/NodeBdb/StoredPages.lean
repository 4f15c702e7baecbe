import NodeBdb.Pagewise

/-!
# Paging over pages

A client that pages through a BTREE, down to the pages of the file: the requests it makes, the
worker that walks a cursor, and the searches and steps that move the cursor.
-/

namespace NodeBdb

open Interaction RangeLocks
open Stream' (Seq)

/-! ## Contents with the same records -/

section

variable {P Q : Type}

/-- What a walk finds at a position. -/
def Content.found (c : Content P) (p : P) : Bytes × Bytes := (c.key p, c.value p)

theorem mapIdx_found (c : Content P) (l : List P) :
    l.mapIdx c.record = (l.map c.found).mapIdx fun i r => { pos := i, key := r.1, value := r.2 } := by
  apply List.ext_getElem
  · simp
  · intro i h₁ h₂
    simp [Content.record, Content.found]

/-- A delivery tells of the records of the walk, whatever the positions are. -/
theorem delivery_congr {c : Content P} {d : Content Q} {limit initFlag flags : Int} {key : Bytes}
    (h : ((c.walk initFlag key flags).take (max limit 1).toNat).map c.found =
      ((d.walk initFlag key flags).take (max limit 1).toNat).map d.found) :
    c.delivery limit initFlag key flags = d.delivery limit initFlag key flags := by
  have hlen := congrArg List.length h
  rw [List.length_map, List.length_map] at hlen
  simp only [Content.delivery, mapIdx_found, h, hlen]

end

/-! ## The pages as a content -/

namespace Stored

variable {B : Btree} (S : Stored B)

/-- What a get comes to. Over a stored BTREE it does not fail but for the want of a record. -/
def got (cp : Option BtreeCursor) (flags : Int) (key : Bytes) :
    Option (BtreeCursor × Bytes × Bytes) :=
  match (dbcGet S.store S.fuel S.root flags key cp).run with
  | some (.ok p) => some p
  | _ => none

/-- Where the cursor stands, with the record it read there. -/
def content : Content (BtreeCursor × Bytes × Bytes) where
  key p := p.2.1
  value p := p.2.2
  position initFlag key := S.got none initFlag key
  step flags p := S.got (some p.1) flags []

/-- One page, through `cursorGet` and the worker to the callback `cb`. -/
def fetch (dbObj : Db) (cb : Nat) (start : Start) (n : Nat) : Except String Delivery := do
  let (request, _) ← AsyncMethod.cursorGet.parse
    (cursorGetArgs (.options (start.options n)) (.function cb))
  return (S.content.server.serve none (request.deliver dbObj)).2

/-- What a get came to, against what the records give. -/
inductive Gives : Option (BtreeCursor × Bytes × Bytes) → Option (Bytes × Bytes) → Prop where
  | found {p : BtreeCursor × Bytes × Bytes} : RestsOn S.leaves (some p.1) (some p.2.1) →
      Gives (some p) (some p.2)
  | none : Gives none none

variable {cp : Option BtreeCursor} {pos : Option Bytes} {flags : Int} {seek : Seek} {key : Bytes}

theorem got_gives (hs : btreeSeek flags = some seek) (hkey : key.length < 2 ^ 31)
    (hrests : RestsOn S.leaves cp pos) :
    S.Gives (S.got cp flags key) (btreeMoves.next flags pos key B.contents) := by
  have hanswers := S.get_answers hs hkey hrests
  rw [got]
  generalize btreeMoves.next flags pos key B.contents = found at hanswers
  generalize dbcGet S.store S.fuel S.root flags key cp = r at hanswers
  cases hanswers with
  | @found cp' record hrests' => exact @Gives.found B S (cp', record) hrests'
  | none => exact .none

/-- From a position on, the walk reads what the scan of the map reads. -/
theorem after_onward (n : Nat) (p : BtreeCursor × Bytes × Bytes) {k : Bytes}
    (hrests : RestsOn S.leaves (some p.1) (some k)) :
    ((S.content.after dbNext (S.content.step dbNext p)).take n).map S.content.found =
      btreeMoves.onward dbNext [] B.contents n (some k) := by
  induction n generalizing p k with
  | zero => simp
  | succ n ih =>
    have hnext : btreeSeek dbNext = some .next := rfl
    have hempty : ([] : Bytes).length < 2 ^ 31 := by decide
    have hgives := S.got_gives hnext hempty hrests
    have hstep : S.content.step dbNext p = S.got (some p.1) dbNext [] := rfl
    rw [hstep]
    generalize hr : btreeMoves.next dbNext (some k) [] B.contents = r at hgives
    generalize S.got (some p.1) dbNext [] = o at hgives
    cases hgives with
    | none =>
      rw [Content.after_none, Moves.onward_none _ hr]
      simp
    | @found q hq =>
      rw [Content.after_some, Seq.take_succ_cons, List.map_cons, Moves.onward_some _ hr]
      exact congrArg (q.2 :: ·) (ih q hq)

theorem walk_page (start : Start) (hkey : start.key.length < 2 ^ 31) (n : Nat) :
    ((S.content.walk start.initFlag start.key dbNext).take (n + 1)).map S.content.found =
      (B.from start).take (n + 1) := by
  obtain ⟨seek, hs⟩ : ∃ seek, btreeSeek start.initFlag = some seek := by
    cases start with
    | first => exact ⟨.first, rfl⟩
    | range key => exact ⟨.setRange, rfl⟩
  have hgives := S.got_gives hs hkey .nowhere
  rw [← btree_page, Moves.page, Content.walk]
  have hposition : S.content.position start.initFlag start.key =
      S.got none start.initFlag start.key := rfl
  rw [hposition]
  generalize btreeMoves.next start.initFlag none start.key B.contents = r at hgives
  generalize S.got none start.initFlag start.key = o at hgives
  cases hgives with
  | none =>
    rw [Content.after_none]
    simp
  | @found p hp =>
    rw [Content.after_some, Seq.take_succ_cons, List.map_cons]
    exact congrArg (p.2 :: ·) (S.after_onward n p hp)

/-- The request for a page delivers the same from the pages as from the records. -/
theorem delivery_stored (start : Start) (hkey : start.key.length < 2 ^ 31) (n : Nat) :
    S.content.delivery (toInt n) start.initFlag start.key dbNext =
      B.content.delivery (toInt n) start.initFlag start.key dbNext := by
  apply delivery_congr
  have hfound : B.content.found = Prod.fst := rfl
  obtain ⟨m, hm⟩ : ∃ m, pageSize n = m + 1 := by
    have hone := one_le_pageSize n
    exact ⟨pageSize n - 1, by omega⟩
  have hrecords := delivery_take B start n
  rw [← pageSize, hfound, hrecords, hm]
  exact S.walk_page start hkey m

theorem fetch_stored (dbObj : Db) (ho : dbObj._db ≠ none) (cb : Nat) (start : Start)
    (hkey : start.key.length < 2 ^ 31) {n : Nat} (hn : 1 ≤ n) :
    S.fetch dbObj cb start n = B.fetch dbObj cb start n := by
  rw [fetch_delivery B dbObj ho cb start hn, ← S.delivery_stored start hkey n,
    ← cursorGet_delivery S.content dbObj ho, fetch, parse_page start hn]
  exact rfl

/-- A client that pages through the file gets the pages of its records. The induction is on the
requests. -/
theorem paging_stored (dbObj : Db) (ho : dbObj._db ≠ none) (cb : Nat)
    (hB : ∀ r ∈ B.records, r.1.length < 2 ^ 31) (start : Start) (hkey : start.key.length < 2 ^ 31)
    (ns : List Nat) (hns : ∀ n ∈ ns, 1 ≤ n) :
    paging (S.fetch dbObj cb) start ns = paging (B.fetch dbObj cb) start ns := by
  induction ns generalizing start with
  | nil => rfl
  | cons n ns ih =>
    obtain ⟨hn, hns⟩ := List.forall_mem_cons.mp hns
    obtain ⟨d, hd, hrec⟩ : ∃ d, B.fetch dbObj cb start n = .ok d ∧
        d.records = (B.from start).take (pageSize n) :=
      ⟨_, fetch_delivery B dbObj ho cb start hn, page_records B start n⟩
    rw [paging, paging, S.fetch_stored dbObj ho cb start hkey hn, hd]
    simp only [bind, Except.bind]
    cases hlast : d.records.getLast? with
    | none => rfl
    | some last =>
      have hmem : last ∈ B.records := by
        have hin := List.mem_of_getLast? hlast
        rw [hrec] at hin
        exact (from_suffix B start).subset (List.mem_of_mem_take hin)
      have hlen : (Start.range last.1).key.length < 2 ^ 31 := by
        rw [Start.key]
        exact hB last hmem
      have hrest := ih (.range last.1) hlen hns
      simp only [hrest]

/-- From the requests of a client to the pages of the file: it gets the pages of the records, with
the limits that the worker finds. -/
theorem paging_file {B : Btree} (S : Stored B) (dbObj : Db) (ho : dbObj._db ≠ none) (cb : Nat)
    (hB : ∀ r ∈ B.records, r.1.length < 2 ^ 31) (start : Start) (hkey : start.key.length < 2 ^ 31)
    (ns : List Nat) (hns : ∀ n ∈ ns, 1 ≤ n) :
    ∃ ds, paging (S.fetch dbObj cb) start ns = .ok ds ∧
      ds.map Delivery.page = Pages.pages Prod.fst B.records (B.from start) (ns.map pageSize) := by
  rw [S.paging_stored dbObj ho cb hB start hkey ns hns]
  exact paging_pages B dbObj ho cb start ns hns

end Stored

theorem smallFile_paging :
    ∃ ds, paging (smallStored.fetch openDb 0) (.range [98]) [1, 2] = .ok ds ∧
      ds.map Delivery.page =
        Pages.pages Prod.fst smallBtree.records (smallBtree.from (.range [98]))
          ([1, 2].map pageSize) :=
  Stored.paging_file smallStored openDb (by decide) 0 (by decide) (.range [98]) (by decide) [1, 2]
    (by decide)

end NodeBdb
