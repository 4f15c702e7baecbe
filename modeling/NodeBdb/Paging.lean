import NodeBdb.Pages
import NodeBdb.Contents
import NodeBdb.Options
import Mathlib.Data.List.Chain

/-!
# Paging with a cursor

A client reads a BTREE a page at a time: it starts at `DB_FIRST` or at a key, and goes on
with `DB_SET_RANGE` at the last key it got, whose record it drops. The limit of a page is
a number of JavaScript's, of which the addon keeps 32 bits.
-/

namespace NodeBdb

open Interaction

/-! ## A BTREE as a cursor sees it -/

/-- A BTREE without duplicates: its records, in the order of their keys as byte strings. -/
structure Btree where
  records : List (Bytes × Bytes)
  sorted : records.Pairwise fun r s => r.1 < s.1

/-- A record and those after it. -/
abbrev Place := (Bytes × Bytes) × List (Bytes × Bytes)

def place : List (Bytes × Bytes) → Option Place
  | [] => none
  | r :: rest => some (r, rest)

namespace Btree

variable (B : Btree)

/-- The gets that a paging client uses. -/
def content : Content Place where
  key p := p.1.1
  value p := p.1.2
  position initFlag key :=
    if initFlag = dbFirst then place B.records
    else if initFlag = dbSetRange then place (Pages.fromKey Prod.fst B.records key)
    else none
  step flags p := if flags = dbNext then place p.2 else none

theorem after_take (n : Nat) (l : List (Bytes × Bytes)) :
    ((B.content.after dbNext (place l)).take n).map Prod.fst = l.take n := by
  induction n generalizing l with
  | zero => simp
  | succ n ih =>
    cases l with
    | nil => simp [place]
    | cons r rest =>
      rw [place, Content.after_some, Stream'.Seq.take_succ_cons, List.map_cons, List.take_succ_cons]
      exact congrArg (r :: ·) (ih rest)

end Btree

/-! ## The client -/

/-- Where a page starts. -/
inductive Start where
  | first : Start
  | range : (key : Bytes) → Start
  deriving DecidableEq, Repr

/-- The options of the request for a page. -/
def Start.options (n : Nat) : Start → CursorOptions
  | first => { limit := .number n, initFlag := .number dbFirst, flags := .number dbNext }
  | range key =>
    { key := .buffer key, limit := .number n, initFlag := .number dbSetRange, flags := .number dbNext }

/-- The records from there on. -/
def Btree.from (B : Btree) : Start → List (Bytes × Bytes)
  | .first => B.records
  | .range key => Pages.fromKey Prod.fst B.records key

/-- One page, through `cursorGet` and the worker to the callback `cb`. -/
def Btree.fetch (B : Btree) (dbObj : Db) (cb : Nat) (start : Start) (n : Nat) :
    Except String Delivery := do
  let (request, _) ← AsyncMethod.cursorGet.parse
    (cursorGetArgs (.options (start.options n)) (.function cb))
  return (B.content.server.serve none (request.deliver dbObj)).2

def Delivery.records (d : Delivery) : List (Bytes × Bytes) :=
  (d.array.getD []).map fun r => (r.key, r.value)

/-- Pages of these limits, as long as the last one delivered 0. -/
def paging (fetch : Start → Nat → Except String Delivery) :
    Start → List Nat → Except String (List Delivery)
  | _, [] => .ok []
  | start, n :: ns => do
    let d ← fetch start n
    if d.code = 0 then
      match d.records.getLast? with
      | some last => return d :: (← paging fetch (.range last.1) ns)
      | none => return [d]
    else return [d]

/-- The limit that the worker finds in its baton, which delivers a record in any case. -/
def pageSize (n : Nat) : Nat := (max (toInt n) 1).toNat

def Start.key : Start → Bytes
  | first => []
  | range key => key

def Start.initFlag : Start → Int
  | first => dbFirst
  | range _ => dbSetRange

theorem parse_page (start : Start) {n : Nat} (hn : 1 ≤ n) (cb : Nat) :
    AsyncMethod.cursorGet.parse (cursorGetArgs (.options (start.options n)) (.function cb)) =
      .ok (.cursorGet (buffer start.key) (toInt n) start.initFlag dbNext, cb) := by
  have hlimit := orDefault_number (n := (n : Int)) (by omega) (.number 100)
  cases start with
  | first => simp only [cursorGetArgs, CursorArg.fields, Start.options, hlimit]; rfl
  | range key => simp only [cursorGetArgs, CursorArg.fields, Start.options, hlimit]; rfl

theorem walk_from (B : Btree) (start : Start) :
    B.content.walk start.initFlag start.key dbNext = B.content.after dbNext (place (B.from start)) := by
  cases start <;> rfl

/-- A page is what the request delivers. -/
theorem fetch_delivery (B : Btree) (dbObj : Db) (ho : dbObj._db ≠ none) (cb : Nat) (start : Start)
    {n : Nat} (hn : 1 ≤ n) : B.fetch dbObj cb start n =
      .ok (B.content.delivery (toInt n) start.initFlag start.key dbNext) := by
  rw [Btree.fetch, parse_page start hn, ← cursorGet_delivery B.content dbObj ho]
  exact rfl

theorem delivery_take (B : Btree) (start : Start) (n : Nat) :
    ((B.content.walk start.initFlag start.key dbNext).take (pageSize n)).map Prod.fst =
      (B.from start).take (pageSize n) := by
  rw [walk_from, B.after_take]

theorem mapIdx_record (B : Btree) (l : List Place) :
    (l.mapIdx B.content.record).map (fun r => (r.key, r.value)) = l.map Prod.fst := by
  apply List.ext_getElem
  · simp
  · intro i h₁ h₂
    simp [Content.record, Btree.content]

theorem page_records (B : Btree) (start : Start) (n : Nat) :
    (B.content.delivery (toInt n) start.initFlag start.key dbNext).records =
      (B.from start).take (pageSize n) := by
  rw [Delivery.records, delivery_array, Option.getD_some, ← pageSize, mapIdx_record, delivery_take]

theorem page_code (B : Btree) (start : Start) (n : Nat) :
    (B.content.delivery (toInt n) start.initFlag start.key dbNext).code =
      if pageSize n ≤ (B.from start).length then 0 else dbNotfound := by
  have h := congrArg List.length (delivery_take B start n)
  rw [List.length_map, List.length_take] at h
  rw [delivery_code, ← pageSize, h]
  by_cases hfull : pageSize n ≤ (B.from start).length
  · rw [if_pos hfull, if_neg (by omega)]
  · rw [if_neg hfull, if_pos (by omega)]

theorem one_le_pageSize (n : Nat) : 1 ≤ pageSize n := by
  rw [pageSize]
  omega

theorem from_suffix (B : Btree) (start : Start) : B.from start <:+ B.records := by
  cases start with
  | first => exact List.suffix_refl _
  | range key => exact List.dropWhile_suffix _

/-- A delivery, as a page of a list. -/
def Delivery.page (d : Delivery) : Pages.Page (Bytes × Bytes) :=
  { items := d.records, full := d.code == 0 }

section Client

variable {fetch : Start → Nat → Except String Delivery} {start : Start} {n : Nat} {ns : List Nat}
  {d : Delivery}

theorem paging_full {last : Bytes × Bytes} {ds : List Delivery} (hd : fetch start n = .ok d)
    (hcode : d.code = 0) (hlast : d.records.getLast? = some last)
    (hds : paging fetch (.range last.1) ns = .ok ds) : paging fetch start (n :: ns) = .ok (d :: ds) := by
  rw [paging, hd]
  simp only [bind, Except.bind, hcode, hlast, hds, ↓reduceIte]
  rfl

theorem paging_short (hd : fetch start n = .ok d) (hcode : d.code ≠ 0) :
    paging fetch start (n :: ns) = .ok [d] := by
  rw [paging, hd]
  simp only [bind, Except.bind, hcode, ↓reduceIte]
  rfl

theorem page_of_take {rest : List (Bytes × Bytes)} (hrec : d.records = rest.take n)
    (hcode : d.code = if n ≤ rest.length then 0 else dbNotfound) : d.page = Pages.page rest n := by
  by_cases hfull : n ≤ rest.length
  · rw [if_pos hfull] at hcode
    simp [Delivery.page, Pages.page, hrec, hcode, hfull]
  · rw [if_neg hfull] at hcode
    simp [Delivery.page, Pages.page, hrec, hcode, hfull, dbNotfound]

end Client

/-- The client reads the pages of the records, with the limits the worker finds. -/
theorem paging_pages (B : Btree) (dbObj : Db) (ho : dbObj._db ≠ none) (cb : Nat) (start : Start)
    (ns : List Nat) (hns : ∀ n ∈ ns, 1 ≤ n) :
    ∃ ds, paging (B.fetch dbObj cb) start ns = .ok ds ∧
      ds.map Delivery.page =
        Pages.pages Prod.fst B.records (B.from start) (ns.map pageSize) := by
  induction ns generalizing start with
  | nil => exact ⟨[], rfl, rfl⟩
  | cons n ns ih =>
    have hd := fetch_delivery B dbObj ho cb start (hns n List.mem_cons_self)
    have hrec := page_records B start n
    have hcode := page_code B start n
    have hpos := one_le_pageSize n
    have hpage := page_of_take hrec hcode
    rw [List.map_cons, Pages.pages]
    by_cases hfull : pageSize n ≤ (B.from start).length
    · rw [if_pos hfull] at hcode
      have hne : (B.from start).take (pageSize n) ≠ [] := by
        intro hnil
        have h := congrArg List.length hnil
        rw [List.length_take, List.length_nil] at h
        omega
      have hlast := List.getLast?_eq_some_getLast hne
      obtain ⟨ds, hds, hpages⟩ := ih (.range (((B.from start).take (pageSize n)).getLast hne).1)
        fun m hm => hns m (List.mem_cons_of_mem n hm)
      refine ⟨_, paging_full hd hcode (by rw [hrec]; exact hlast) hds, ?_⟩
      rw [List.map_cons, hpage, hpages, if_pos hfull, hlast]
      rfl
    · rw [if_neg hfull] at hcode
      refine ⟨_, paging_short hd (by rw [hcode]; decide), ?_⟩
      rw [List.map_singleton, hpage, if_neg hfull]

/-! ## Nothing lost, nothing repeated -/

/-- What the pages of these limits give of the records from the starting point on. -/
structure ReadsAll (rest : List (Bytes × Bytes)) (ns : List Nat) (ds : List Delivery) : Prop where
  joined : Pages.joined (ds.map Delivery.records) = rest.take (Pages.total ns)
  overlap : ds.IsChain fun d d' =>
    ∃ r, d.records.getLast? = some r ∧ d'.records.head? = some r
  ended : ∀ d ∈ ds, d.code = dbNotfound → Pages.joined (ds.map Delivery.records) = rest

theorem pageSize_of_lt {n : Nat} (hn : 1 ≤ n) (h : n < 2 ^ 31) : pageSize n = n := by
  simp only [pageSize, toInt, Int.bmod_def]
  omega

theorem pageSize_lt {n : Nat} (h : 2 ^ 31 ≤ n) : pageSize n < n := by
  simp only [pageSize, toInt, Int.bmod_def]
  omega

theorem pageSize_le {n : Nat} (hn : 1 ≤ n) : pageSize n ≤ n := by
  by_cases h : n < 2 ^ 31
  · rw [pageSize_of_lt hn h]
  · exact (pageSize_lt (Nat.not_lt.mp h)).le

theorem map_pageSize {ns : List Nat} (hns : ∀ n ∈ ns, 1 ≤ n) (h : ∀ n ∈ ns, n < 2 ^ 31) :
    ns.map pageSize = ns := by
  rw [List.map_congr_left fun n hn => pageSize_of_lt (hns n hn) (h n hn)]
  exact List.map_id _

/-- A limit that is not kept makes the pages smaller. -/
theorem total_pageSize {ns : List Nat} (hns : ∀ n ∈ ns, 1 ≤ n) {n : Nat} (hn : n ∈ ns)
    (hbig : 2 ^ 31 ≤ n) : Pages.total (ns.map pageSize) < Pages.total ns := by
  apply Pages.total_map_lt
  · exact fun m _ => one_le_pageSize m
  · exact fun m hm => pageSize_le (hns m hm)
  · exact ⟨n, hn, pageSize_lt hbig⟩

/-- For every BTREE, starting point and limits, paging loses and repeats nothing exactly where
every limit fits into 31 bits, or those that are left of them reach the last record. -/
theorem paging_readsAll_iff (B : Btree) (dbObj : Db) (ho : dbObj._db ≠ none) (cb : Nat)
    (start : Start) (ns : List Nat) (hns : ∀ n ∈ ns, 1 ≤ n) :
    ∃ ds, paging (B.fetch dbObj cb) start ns = .ok ds ∧
      (ReadsAll (B.from start) ns ds ↔ (∀ n ∈ ns, n < 2 ^ 31) ∨
        (B.from start).length ≤ Pages.total (ns.map pageSize)) := by
  obtain ⟨ds, hds, hpages⟩ := paging_pages B dbObj ho cb start ns hns
  refine ⟨ds, hds, ?_⟩
  have hsizes : ∀ n ∈ ns.map pageSize, 1 ≤ n := by
    intro n hn
    obtain ⟨m, -, rfl⟩ := List.mem_map.mp hn
    exact one_le_pageSize m
  have hirr : ∀ k : Bytes, ¬ k < k := fun k => List.lt_irrefl k
  have hsuffix := from_suffix B start
  have hrecords : ds.map Delivery.records = (ds.map Delivery.page).map Pages.Page.items := by
    rw [List.map_map]
    rfl
  have hjoined := Pages.pages_joined Prod.fst hirr B.sorted hsuffix hsizes
  rw [← hpages, ← hrecords] at hjoined
  have hoverlap := Pages.pages_overlap Prod.fst hirr B.sorted hsuffix hsizes
  rw [← hpages, ← hrecords, List.isChain_map] at hoverlap
  have hended : ∀ d ∈ ds, d.code = dbNotfound →
      (B.from start).length ≤ Pages.total (ns.map pageSize) := by
    intro d hd hcode
    apply Pages.pages_ended Prod.fst hirr B.sorted hsuffix hsizes d.page
    · rw [← hpages]
      exact List.mem_map_of_mem hd
    · simp [Delivery.page, hcode, dbNotfound]
  constructor
  · rintro ⟨hall, -, -⟩
    by_cases hsmall : ∀ n ∈ ns, n < 2 ^ 31
    · exact .inl hsmall
    · simp only [not_forall, Nat.not_lt] at hsmall
      obtain ⟨n, hn, hbig⟩ := hsmall
      have hlt := total_pageSize hns hn hbig
      have h := congrArg List.length (hjoined.symm.trans hall)
      rw [List.length_take, List.length_take] at h
      exact .inr (by omega)
  · intro hfits
    have hall : Pages.joined (ds.map Delivery.records) = (B.from start).take (Pages.total ns) := by
      rw [hjoined]
      by_cases hsmall : ∀ n ∈ ns, n < 2 ^ 31
      · rw [map_pageSize hns hsmall]
      · have hreach := hfits.resolve_left hsmall
        simp only [not_forall, Nat.not_lt] at hsmall
        obtain ⟨n, hn, hbig⟩ := hsmall
        have hlt := total_pageSize hns hn hbig
        rw [List.take_of_length_le hreach, List.take_of_length_le (by omega)]
    refine ⟨hall, hoverlap, fun d hd hcode => ?_⟩
    rw [hjoined]
    exact List.take_of_length_le (hended d hd hcode)

/-- Two records. -/
def twoKeys : Btree where
  records := [([97], [1]), ([98], [2])]
  sorted := by decide

theorem twoKeys_readsAll :
    ∃ ds, paging (twoKeys.fetch openDb 0) .first [1, 2, 2] = .ok ds ∧
      (ReadsAll (twoKeys.from .first) [1, 2, 2] ds ↔ (∀ n ∈ [1, 2, 2], n < 2 ^ 31) ∨
        (twoKeys.from .first).length ≤ Pages.total ([1, 2, 2].map pageSize)) :=
  paging_readsAll_iff twoKeys openDb (by decide) 0 .first [1, 2, 2] (by decide)

/-- The limit is negative where the worker finds it: one record, told as if there were no end. -/
theorem hugeLimit_cut :
    ∃ ds, paging (twoKeys.fetch openDb 0) .first [2 ^ 31] = .ok ds ∧
      ¬ ReadsAll (twoKeys.from .first) [2 ^ 31] ds := by
  obtain ⟨ds, hds, hpages⟩ := paging_pages twoKeys openDb (by decide) 0 .first [2 ^ 31] (by decide)
  refine ⟨ds, hds, fun h => ?_⟩
  have hrecords : ds.map Delivery.records = [[([97], [1])]] := by
    have h := congrArg (List.map Pages.Page.items) hpages
    rw [List.map_map] at h
    exact h
  have hlen := congrArg List.length h.joined
  rw [hrecords, List.length_take] at hlen
  exact absurd hlen (by decide)

end NodeBdb
