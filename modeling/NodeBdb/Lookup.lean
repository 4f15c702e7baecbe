import NodeBdb.Bisect
import NodeBdb.Compare
import NodeBdb.BtreeCursor

/-!
# Finding a key in a tree of pages

How Berkeley DB finds a key of a BTREE: down from the root by a binary search on each page,
one comparison for each entry it meets, page by page where an item does not fit into one.
The search is that of a reader who has the pages to himself; there are no duplicates and no
record numbers.
-/

namespace NodeBdb

open Bisect

abbrev PageNo := Nat

def pgnoInvalid : PageNo := 0

/-- An item of a page: its bytes, or where they are and how many. -/
inductive Item where
  | keydata : (data : Bytes) → Item
  | overflow : (pgno : PageNo) → (tlen : Nat) → Item
  deriving DecidableEq, Repr

structure OverflowPage where
  data : Bytes
  nextPgno : PageNo
  deriving DecidableEq, Repr

/-- A leaf has a key and its data in turn, each with or without `B_DELETE`; an entry of an internal
page leads to a page. -/
inductive Page where
  | lbtree : (items : List (Item × Bool)) → (prevPgno nextPgno : PageNo) → Page
  | ibtree : (entries : List (Item × PageNo)) → Page
  deriving DecidableEq, Repr

/-- A read fails with a code, or nothing is known of it: it does not end, or what it reads is
not there. -/
abbrev Reads := ExceptT Int Option

def Reads.lost {α : Type} : Reads α := ExceptT.mk none

/-- `__memp_fget`, on the two kinds of pages. -/
structure PageStore where
  page : PageNo → Reads Page
  overflow : PageNo → Reads OverflowPage

/-! ## Comparing an item -/

/-- The bytes of the key against those of one page, as far as both go. -/
def chunkCmp : Bytes → Bytes → Int
  | p1 :: key, p2 :: data => if p1 ≠ p2 then (p1.toNat : Int) - p2.toNat else chunkCmp key data
  | _, _ => 0

/-- `__db_moff` without a comparison of the user's, from a page on. -/
def moffFrom (store : PageStore) (fuel : Nat) (key : Bytes) (pgno : PageNo) (tlen : Nat) :
    Reads Int :=
  if key.length = 0 ∨ pgno = pgnoInvalid then
    if 0 < key.length then pure 1 else if 0 < tlen then pure (-1) else pure 0
  else match fuel with
  | 0 => Reads.lost
  | fuel + 1 => do
    let pagep ← store.overflow pgno
    let cmpBytes := min pagep.data.length key.length
    if chunkCmp key pagep.data ≠ 0 then return chunkCmp key pagep.data
    else moffFrom store fuel (key.drop cmpBytes) pagep.nextPgno (toUnsigned (tlen - cmpBytes))

/-- The comparison is `__bam_defcmp`, or what stands for it on overflow pages. -/
def Item.cmp (store : PageStore) (fuel : Nat) (key : Bytes) : Item → Reads Int
  | keydata data => pure (bamDefcmp key data)
  | overflow pgno tlen => moffFrom store fuel key pgno tlen

/-- `__bam_cmp`: the first entry of an internal page is less than any key. -/
def bamCmp (store : PageStore) (fuel : Nat) (key : Bytes) (h : Page) (indx : Nat) : Reads Int :=
  match h with
  | .lbtree items _ _ =>
    match items[indx]? with
    | some (item, _) => item.cmp store fuel key
    | none => Reads.lost
  | .ibtree entries =>
    if indx = 0 then pure 1
    else match entries[indx]? with
      | some (item, _) => item.cmp store fuel key
      | none => Reads.lost

/-! ## The search -/

def Page.numEnt : Page → Nat
  | lbtree items _ _ => items.length
  | ibtree entries => entries.length

/-- `P_INDX` or `O_INDX`. -/
def Page.adjust : Page → Nat
  | lbtree _ _ _ => 2
  | ibtree _ => 1

/-- `IS_DELETED`, on a leaf: the data tells. -/
def isDeleted (items : List (Item × Bool)) (indx : Nat) : Reads Bool :=
  match items[indx + 1]? with
  | some (_, deleted) => pure deleted
  | none => Reads.lost

/-- What the flags ask for: `SR_MIN`, `SR_MAX`, or a key, with or without `SR_EXACT` and
`SR_DELNO`. -/
inductive Sought where
  | min : Sought
  | max : Sought
  | key : (key : Bytes) → (exact delno : Bool) → Sought
  deriving DecidableEq, Repr

def Sought.exact : Sought → Bool
  | key _ exact _ => exact
  | _ => false

def Sought.delno : Sought → Bool
  | key _ _ delno => delno
  | _ => false

/-- The index on one page. -/
def Page.spot (store : PageStore) (fuel : Nat) (h : Page) : Sought → Reads Spot
  | .min => pure (.found 0)
  | .max => pure (.found (if h.numEnt = 0 then 0 else h.numEnt - h.adjust))
  | .key key _ _ => halve (bamCmp store fuel key h) h.adjust 0 (h.numEnt / h.adjust)

/-- The entry of an internal page to go down from. -/
def childIndx : Spot → Nat
  | .found indx => indx
  | .missed base => if 0 < base then base - 1 else base

/-- Where a cursor of a BTREE stands. -/
structure BtreeCursor where
  pgno : PageNo
  indx : Nat
  deriving DecidableEq, Repr

/-- `__bam_search`, down from a page: where the cursor is to stand, and `*exactp`. -/
def bamSearch (store : PageStore) (fuel : Nat) (sought : Sought) :
    (levels : Nat) → (pgno : PageNo) → Reads (BtreeCursor × Bool)
  | 0, _ => Reads.lost
  | levels + 1, pgno => do
    let h ← store.page pgno
    let spot ← h.spot store fuel sought
    match h with
    | .lbtree items _ _ =>
      match spot with
      | .found indx =>
        let deleted ← if sought.delno then isDeleted items indx else pure false
        if deleted then throw dbNotfound else return (⟨pgno, indx⟩, true)
      | .missed base => if sought.exact then throw dbNotfound else return (⟨pgno, base⟩, false)
    | .ibtree entries =>
      match entries[childIndx spot]? with
      | some (_, pg) => bamSearch store fuel sought levels pg
      | none => Reads.lost

/-! ## Items -/

/-- The bytes on `n` overflow pages from one on. -/
inductive Chain (store : PageStore) : PageNo → Bytes → Nat → Prop where
  | nil : Chain store pgnoInvalid [] 0
  | cons {pgno next : PageNo} {data rest : Bytes} {n : Nat} : pgno ≠ pgnoInvalid →
      store.overflow pgno = pure ⟨data, next⟩ → Chain store next rest n →
      Chain store pgno (data ++ rest) (n + 1)

/-- The item has these bytes, and no more overflow pages than `fuel`. -/
inductive Item.Is (store : PageStore) (fuel : Nat) : Item → Bytes → Prop where
  | keydata {data : Bytes} : data.length < 2 ^ 16 → Is store fuel (.keydata data) data
  | overflow {pgno : PageNo} {data : Bytes} {n : Nat} : Chain store pgno data n → n ≤ fuel →
      data.length < 2 ^ 32 → Is store fuel (.overflow pgno data.length) data

/-- The sign of `c` tells how two keys are ordered. -/
structure Orders (c : Int) (a b : Bytes) : Prop where
  less : c < 0 ↔ a < b
  equal : c = 0 ↔ a = b

theorem Orders.greater {c : Int} {a b : Bytes} (h : Orders c a b) : 0 < c ↔ b < a := by
  have hless := h.less
  have hequal := h.equal
  constructor
  · intro hpos
    by_contra hba
    by_cases hab : a < b
    · have hneg := hless.mpr hab
      omega
    · have hzero := hequal.mpr (bytes_trichotomous a b hab hba)
      omega
  · intro hba
    have hneg : ¬ c < 0 := fun hneg => bytes_asymm b a hba (hless.mp hneg)
    have hzero : c ≠ 0 := by
      intro hzero
      rw [hequal.mp hzero] at hba
      exact List.lt_irrefl b hba
    omega

theorem Orders.append {c : Int} {s t : Bytes} (h : Orders c s t) (p : Bytes) :
    Orders c (p ++ s) (p ++ t) where
  less := by rw [append_lt_append, h.less]
  equal := by rw [List.append_right_inj, h.equal]

theorem orders_less {a b : Bytes} (h : a < b) : Orders (-1) a b where
  less := iff_of_true (by decide) h
  equal := iff_of_false (by decide) (fun he => List.lt_irrefl b (he ▸ h))

theorem orders_greater {a b : Bytes} (h : b < a) : Orders 1 a b where
  less := iff_of_false (by decide) (bytes_asymm b a h)
  equal := iff_of_false (by decide) (fun he => List.lt_irrefl a (by rwa [← he] at h))

theorem orders_equal (a : Bytes) : Orders 0 a a where
  less := iff_of_false (by decide) (List.lt_irrefl a)
  equal := iff_of_true rfl rfl

theorem orders_differ (p s t : Bytes) {x y : UInt8} (h : x ≠ y) :
    Orders ((x.toNat : Int) - y.toNat) (p ++ x :: s) (p ++ y :: t) where
  less := by
    rw [differ_lt p s t h, UInt8.lt_iff_toNat_lt]
    omega
  equal := by
    have hne : x.toNat ≠ y.toNat := fun he => h (UInt8.toNat_inj.mp he)
    apply iff_of_false
    · omega
    · simp [h]

theorem Compares.orders {a b : Bytes} (h : Compares a b) : Orders (bamDefcmp a b) a b :=
  ⟨h.less, h.equal⟩

/-! ### Overflow pages -/

theorem chunkCmp_append (p s t : Bytes) : chunkCmp (p ++ s) (p ++ t) = chunkCmp s t := by
  induction p with
  | nil => rfl
  | cons x p ih => rw [List.cons_append, List.cons_append, chunkCmp, if_neg (fun h => h rfl), ih]

theorem chunkCmp_left (p t : Bytes) : chunkCmp p (p ++ t) = 0 := by
  have h := chunkCmp_append p [] t
  rw [List.append_nil] at h
  exact h

theorem chunkCmp_right (p s : Bytes) : chunkCmp (p ++ s) p = 0 := by
  have h := chunkCmp_append p s []
  rw [List.append_nil] at h
  rw [h]
  cases s <;> rfl

theorem chunkCmp_differ (p s t : Bytes) {x y : UInt8} (h : x ≠ y) :
    chunkCmp (p ++ x :: s) (p ++ y :: t) = (x.toNat : Int) - y.toNat := by
  rw [chunkCmp_append, chunkCmp, if_pos h]

section

variable {store : PageStore} {fuel : Nat} {pgno next : PageNo} {key data rest : Bytes} {tlen : Nat}

theorem moff_no_key : moffFrom store fuel [] pgno tlen = pure (if 0 < tlen then -1 else 0) := by
  rw [moffFrom.eq_def, if_pos (.inl rfl), List.length_nil, if_neg (Nat.lt_irrefl 0)]
  split <;> rfl

theorem moff_no_page : moffFrom store fuel key pgnoInvalid 0 = pure (if key = [] then 0 else 1) := by
  rw [moffFrom.eq_def, if_pos (.inr rfl)]
  cases key <;> rfl

theorem moff_page (hkey : key ≠ []) (hpgno : pgno ≠ pgnoInvalid)
    (hpage : store.overflow pgno = pure ⟨data, next⟩) (htlen : data.length ≤ tlen)
    (hlong : tlen < 2 ^ 32) : moffFrom store (fuel + 1) key pgno tlen =
      if chunkCmp key data ≠ 0 then pure (chunkCmp key data)
      else moffFrom store fuel (key.drop data.length) next (tlen - min data.length key.length) := by
  have hempty : ¬ (key.length = 0 ∨ pgno = pgnoInvalid) := by
    rw [List.length_eq_zero_iff]
    exact not_or.mpr ⟨hkey, hpgno⟩
  have hleft : toUnsigned ((tlen : Int) - (min data.length key.length : Nat)) =
      tlen - min data.length key.length := by
    rw [toUnsigned]
    omega
  have hdrop : key.drop (min data.length key.length) = key.drop data.length := by
    by_cases hle : data.length ≤ key.length
    · rw [Nat.min_eq_left hle]
    · rw [Nat.min_eq_right (by omega), List.drop_length, List.drop_of_length_le (by omega)]
  rw [moffFrom.eq_def, if_neg hempty, hpage]
  simp only [pure_bind, hleft, hdrop]

/-- A key is ordered against an item on overflow pages as a byte string, whatever their sizes. The
induction is on the pages. -/
theorem moff_orders {b : Bytes} {n : Nat} (h : Chain store pgno b n) (hn : n ≤ fuel)
    (hb : b.length < 2 ^ 32) (key : Bytes) :
    ∃ c, moffFrom store fuel key pgno b.length = pure c ∧ Orders c key b := by
  induction h generalizing fuel key with
  | nil =>
    rw [List.length_nil, moff_no_page]
    refine ⟨_, rfl, ?_⟩
    cases key with
    | nil => exact orders_equal []
    | cons x s => exact orders_greater (List.nil_lt_cons x s)
  | @cons pgno next data rest n hpgno hpage hrest ih =>
    obtain ⟨fuel, rfl⟩ : ∃ f, fuel = f + 1 := ⟨fuel - 1, by omega⟩
    rw [List.length_append] at hb ⊢
    by_cases hkey : key = []
    · subst hkey
      rw [moff_no_key]
      refine ⟨_, rfl, ?_⟩
      cases hempty : data ++ rest with
      | nil =>
        have hlen : data.length + rest.length = 0 := by
          rw [← List.length_append, hempty, List.length_nil]
        rw [if_neg (by omega)]
        exact orders_equal []
      | cons x s =>
        have hlen : data.length + rest.length = s.length + 1 := by
          rw [← List.length_append, hempty, List.length_cons]
        rw [if_pos (by omega)]
        exact orders_less (List.nil_lt_cons x s)
    · rw [moff_page hkey hpgno hpage (by omega) (by omega)]
      -- the page ends within the key, or the two differ, or the key ends within the page
      have hlonger : ∀ s, key = data ++ s → ∃ c,
          (if chunkCmp key data ≠ 0 then pure (chunkCmp key data)
          else moffFrom store fuel (key.drop data.length) next
            (data.length + rest.length - min data.length key.length)) = pure c ∧
          Orders c key (data ++ rest) := by
        intro s hs
        have hle : n ≤ fuel := by omega
        obtain ⟨c, hc, horders⟩ := ih hle (by omega) s
        refine ⟨c, ?_, hs ▸ horders.append data⟩
        rw [hs, chunkCmp_right, if_neg (fun h => h rfl), List.drop_left, List.length_append,
          Nat.min_eq_left (Nat.le_add_right _ _), Nat.add_sub_cancel_left]
        exact hc
      cases hm : meets key data with
      | same => exact hlonger [] (List.append_nil data).symm
      | longer _ x s => exact hlonger (x :: s) rfl
      | @differ p x y s t hxy =>
        have horders := orders_differ p s (t ++ rest) hxy
        have hne : (x.toNat : Int) - y.toNat ≠ 0 := fun he => by
          have heq := horders.equal.mp he
          simp [hxy] at heq
        rw [chunkCmp_differ p s t hxy, if_pos hne, List.append_assoc, List.cons_append]
        exact ⟨_, rfl, horders⟩
      | shorter _ y t =>
        rw [chunkCmp_left, if_neg (fun h => h rfl), List.drop_of_length_le (by simp), moff_no_key,
          List.append_assoc, List.cons_append]
        refine ⟨_, rfl, ?_⟩
        rw [if_pos]
        · exact orders_less (lt_append key y (t ++ rest))
        · rw [List.length_append, List.length_cons]
          omega

end

/-- The comparison with an item tells how the key and its bytes are ordered. -/
theorem Item.Is.orders {store : PageStore} {fuel : Nat} {item : Item} {b key : Bytes}
    (h : item.Is store fuel b) (hkey : key.length < 2 ^ 31) :
    ∃ c, item.cmp store fuel key = pure c ∧ Orders c key b := by
  cases h with
  | keydata hlen => exact ⟨_, rfl, (short_compares hkey (by omega)).orders⟩
  | overflow hchain hn hlen => exact moff_orders hchain hn hlen key

/-- The comparison with what lies on overflow pages has the sign of the order of byte strings, for a
key of any size. -/
theorem moff_compares {store : PageStore} {fuel : Nat} {pgno : PageNo} {b : Bytes} {n : Nat}
    (h : Chain store pgno b n) (hn : n ≤ fuel) (hb : b.length < 2 ^ 32) (key : Bytes) :
    ∃ c, moffFrom store fuel key pgno b.length = pure c ∧
      (c < 0 ↔ key < b) ∧ (c = 0 ↔ key = b) ∧ (0 < c ↔ b < key) := by
  obtain ⟨c, hc, horders⟩ := moff_orders h hn hb key
  exact ⟨c, hc, horders.less, horders.equal, horders.greater⟩

def smallPage : PageNo → Reads Page
  | 1 => pure (.ibtree [(.keydata [], 2), (.overflow 10 3, 3)])
  | 2 => pure (.lbtree [(.keydata [97], false), (.keydata [1], false), (.keydata [98], false),
      (.keydata [2], true)] pgnoInvalid 3)
  | 3 => pure (.lbtree [(.overflow 10 3, false), (.keydata [3], false)] 2 pgnoInvalid)
  | _ => Reads.lost

def smallOverflow : PageNo → Reads OverflowPage
  | 10 => pure ⟨[98, 99], 11⟩
  | 11 => pure ⟨[100], pgnoInvalid⟩
  | _ => Reads.lost

/-- A root and two leaves, with a deleted record and a key on two overflow pages. -/
def smallStore : PageStore where
  page := smallPage
  overflow := smallOverflow

theorem smallChain : Chain smallStore 10 [98, 99, 100] 2 := by
  have h : Chain smallStore 10 ([98, 99] ++ ([100] ++ [])) 2 :=
    .cons (by decide) rfl (.cons (by decide) rfl .nil)
  exact h

theorem smallChain_compares : ∃ c, moffFrom smallStore 2 [98, 99] 10 3 = pure c ∧
    (c < 0 ↔ [98, 99] < ([98, 99, 100] : Bytes)) ∧ (c = 0 ↔ [98, 99] = ([98, 99, 100] : Bytes)) ∧
    (0 < c ↔ ([98, 99, 100] : Bytes) < [98, 99]) :=
  moff_compares smallChain (Nat.le_refl 2) (by decide) [98, 99]

/-! ## The tree -/

/-- A record on a leaf, which may be one that was deleted. -/
structure KeyData where
  key : Bytes
  value : Bytes
  deleted : Bool
  deriving DecidableEq, Repr

/-- The items are those of the entries, key and data in turn. -/
inductive Keeps (store : PageStore) (fuel : Nat) : List (Item × Bool) → List KeyData → Prop where
  | nil : Keeps store fuel [] []
  | cons {k d : Item} {b : Bool} {e : KeyData} {items : List (Item × Bool)} {es : List KeyData} :
      k.Is store fuel e.key → d.Is store fuel e.value → Keeps store fuel items es →
      Keeps store fuel ((k, b) :: (d, e.deleted) :: items) (e :: es)

/-- A leaf in the store, and the entries it keeps. -/
structure Leaf (store : PageStore) (fuel : Nat) where
  pgno : PageNo
  prevPgno : PageNo
  nextPgno : PageNo
  items : List (Item × Bool)
  entries : List KeyData
  valid : pgno ≠ pgnoInvalid
  stored : store.page pgno = pure (.lbtree items prevPgno nextPgno)
  keeps : Keeps store fuel items entries

def entriesOf {store : PageStore} {fuel : Nat} (leaves : List (Leaf store fuel)) : List KeyData :=
  leaves.flatMap Leaf.entries

/-- From the second on, the key of an entry lies between what the pages before it lead to and
what its own and those after it lead to. -/
structure Separates {store : PageStore} {fuel : Nat} (entries : List (Item × PageNo))
    (sep : Nat → Bytes) (parts : List (List (Leaf store fuel))) : Prop where
  item : ∀ i e, 0 < i → entries[i]? = some e → e.1.Is store fuel (sep i)
  increasing : ∀ i j, 0 < i → i < j → j < entries.length → sep i < sep j
  before : ∀ i, 0 < i → i < entries.length → ∀ e ∈ entriesOf (parts.take i).flatten, e.key < sep i
  after : ∀ i, 0 < i → i < entries.length → ∀ e ∈ entriesOf (parts.drop i).flatten, ¬ e.key < sep i

/-- A page that leads down to these leaves. -/
inductive Tree (store : PageStore) (fuel : Nat) : Nat → PageNo → List (Leaf store fuel) → Prop where
  | leaf (l : Leaf store fuel) : Tree store fuel 0 l.pgno [l]
  | node {depth : Nat} {pgno : PageNo} {entries : List (Item × PageNo)} {sep : Nat → Bytes}
      {parts : List (List (Leaf store fuel))} : store.page pgno = pure (.ibtree entries) →
      entries ≠ [] → parts.length = entries.length →
      (∀ (i : Nat) item pg part, entries[i]? = some (item, pg) → parts[i]? = some part →
        Tree store fuel depth pg part) →
      Separates entries sep parts → Tree store fuel (depth + 1) pgno parts.flatten

section

variable {store : PageStore} {fuel : Nat} {leaves : List (Leaf store fuel)}

@[simp] theorem entriesOf_nil : entriesOf ([] : List (Leaf store fuel)) = [] := rfl

@[simp] theorem entriesOf_cons (l : Leaf store fuel) (ls : List (Leaf store fuel)) :
    entriesOf (l :: ls) = l.entries ++ entriesOf ls := List.flatMap_cons

@[simp] theorem entriesOf_append (ls ms : List (Leaf store fuel)) :
    entriesOf (ls ++ ms) = entriesOf ls ++ entriesOf ms := List.flatMap_append

/-! ### One leaf -/

theorem Keeps.length {items : List (Item × Bool)} {es : List KeyData}
    (h : Keeps store fuel items es) : items.length = 2 * es.length := by
  induction h with
  | nil => rfl
  | cons _ _ _ ih =>
    simp only [List.length_cons, ih]
    omega

/-- The items of an entry. -/
theorem Keeps.entry {items : List (Item × Bool)} {es : List KeyData} (h : Keeps store fuel items es)
    {i : Nat} {e : KeyData} (hi : es[i]? = some e) :
    ∃ k d b, items[2 * i]? = some (k, b) ∧ items[2 * i + 1]? = some (d, e.deleted) ∧
      k.Is store fuel e.key ∧ d.Is store fuel e.value := by
  induction h generalizing i with
  | nil => cases hi
  | @cons k d b e' items es hk hd _ ih =>
    cases i with
    | zero =>
      cases hi
      exact ⟨k, d, b, rfl, rfl, hk, hd⟩
    | succ i =>
      obtain ⟨k, d, b, hk, hd, hkey, hvalue⟩ := ih (i := i) hi
      exact ⟨k, d, b, hk, hd, hkey, hvalue⟩

theorem Keeps.isDeleted {items : List (Item × Bool)} {es : List KeyData}
    (h : Keeps store fuel items es) {i : Nat} {e : KeyData} (hi : es[i]? = some e) :
    NodeBdb.isDeleted items (2 * i) = pure e.deleted := by
  obtain ⟨k, d, b, -, hd, -, -⟩ := h.entry hi
  rw [NodeBdb.isDeleted, hd]

theorem bytes_lt_of_not_lt {a b c : Bytes} (hab : a < b) (hcb : ¬ c < b) : a < c := by
  by_contra hac
  by_cases hca : c < a
  · exact hcb (List.lt_trans hca hab)
  · rw [bytes_trichotomous a c hac hca] at hab
    exact hcb hab

/-- Where a key is among the entries of a leaf. -/
inductive LeafSpot (key : Bytes) (es : List KeyData) : Spot → Prop where
  | found {before after : List KeyData} {e : KeyData} : es = before ++ e :: after → e.key = key →
      (∀ d ∈ before, d.key < key) → LeafSpot key es (.found (2 * before.length))
  | missed {before after : List KeyData} : es = before ++ after → (∀ d ∈ before, d.key < key) →
      (∀ d ∈ after, key < d.key) → LeafSpot key es (.missed (2 * before.length))

theorem leaf_cmp (l : Leaf store fuel) {key : Bytes} (hkey : key.length < 2 ^ 31) {i : Nat}
    (hi : i < l.entries.length) :
    ∃ c, bamCmp store fuel key (.lbtree l.items l.prevPgno l.nextPgno) (i * 2) = pure c ∧
      Orders c key l.entries[i].key := by
  obtain ⟨k, d, b, hk, -, hkis, -⟩ := l.keeps.entry (List.getElem?_eq_getElem hi)
  obtain ⟨c, hc, horders⟩ := hkis.orders hkey
  refine ⟨c, ?_, horders⟩
  rw [Nat.mul_comm] at hk
  simp only [bamCmp, hk]
  exact hc

theorem leaf_spot (l : Leaf store fuel) (hsorted : l.entries.Pairwise fun d e => d.key < e.key)
    {key : Bytes} (hkey : key.length < 2 ^ 31) (exact delno : Bool) :
    ∃ spot, (Page.lbtree l.items l.prevPgno l.nextPgno).spot store fuel (.key key exact delno) =
      pure spot ∧ LeafSpot key l.entries spot := by
  have hincreasing : ∀ i j (hj : j < l.entries.length) (hij : i < j),
      l.entries[i].key < l.entries[j].key := by
    intro i j hj hij
    exact List.pairwise_iff_getElem.mp hsorted i j (by omega) hj hij
  have hcmp : ∀ i < l.entries.length, ∃ c,
      bamCmp store fuel key (.lbtree l.items l.prevPgno l.nextPgno) (i * 2) = pure c ∧
      ∀ h : i < l.entries.length, Orders c key l.entries[i].key := by
    intro i hi
    obtain ⟨c, hc, horders⟩ := leaf_cmp l hkey hi
    exact ⟨c, hc, fun _ => horders⟩
  obtain ⟨spot, sign, hspot, hsign, hordered, hlands⟩ := halve_tells 2 _ hcmp (by
    intro i j c d hij hj hc hd hnonneg
    rw [(hc (by omega)).greater]
    apply bytes_lt_of_not_lt (hincreasing i j hj hij)
    intro hlt
    have hneg := (hd hj).less.mpr hlt
    omega)
  refine ⟨spot, ?_, ?_⟩
  · have hn : l.items.length / 2 = l.entries.length := by
      rw [l.keeps.length]
      omega
    rw [Page.spot, Page.numEnt, Page.adjust, hn]
    exact hspot
  · have hbefore : ∀ i, i ≤ l.entries.length → (∀ j < i, 0 < sign j) →
        ∀ d ∈ l.entries.take i, d.key < key := by
      intro i hi hpos d hd
      obtain ⟨j, hj, rfl⟩ := List.mem_take_iff_getElem.mp hd
      have hj' : j < l.entries.length := by omega
      exact (hsign j hj' hj').greater.mp (hpos j (by omega))
    cases hlands with
    | @found i hi hzero =>
      have hpos : ∀ j < i, 0 < sign j := fun j hj => hordered j i hj hi (by omega)
      have hlen : (l.entries.take i).length = i := List.length_take_of_le (by omega)
      rw [Nat.mul_comm, ← hlen]
      have hsplit : l.entries = l.entries.take i ++ l.entries[i] :: l.entries.drop (i + 1) := by
        rw [List.getElem_cons_drop, List.take_append_drop]
      apply LeafSpot.found hsplit
      · exact ((hsign i hi hi).equal.mp hzero).symm
      · exact hbefore i (by omega) hpos
    | @missed i hi hpos hneg =>
      have hlen : (l.entries.take i).length = i := List.length_take_of_le hi
      rw [Nat.mul_comm, ← hlen]
      apply LeafSpot.missed (List.take_append_drop i l.entries).symm (hbefore i hi hpos)
      intro d hd
      obtain ⟨j, hj, rfl⟩ := List.mem_drop_iff_getElem.mp hd
      have hj' : i + j < l.entries.length := by omega
      exact (hsign _ hj' hj').less.mp (hneg _ (Nat.le_add_right i j) hj')

/-! ### One internal page -/

/-- The child to go down to, by the keys at the entries of the page. -/
structure ChildSpot (sep : Nat → Bytes) (n : Nat) (key : Bytes) (i : Nat) : Prop where
  lt : i < n
  before : 0 < i → ¬ key < sep i
  after : ∀ j, i < j → j < n → key < sep j

theorem node_cmp {entries : List (Item × PageNo)} {sep : Nat → Bytes}
    {parts : List (List (Leaf store fuel))} (h : Separates entries sep parts) {key : Bytes}
    (hkey : key.length < 2 ^ 31) {i : Nat} (hi : i < entries.length) :
    ∃ c, bamCmp store fuel key (.ibtree entries) (i * 1) = pure c ∧ (i = 0 → 0 < c) ∧
      (0 < i → Orders c key (sep i)) := by
  rw [Nat.mul_one]
  by_cases hzero : i = 0
  · subst hzero
    exact ⟨1, rfl, fun _ => by decide, fun h => absurd h (Nat.lt_irrefl 0)⟩
  · have hget := List.getElem?_eq_getElem hi
    obtain ⟨c, hc, horders⟩ := (h.item i _ (by omega) hget).orders hkey
    refine ⟨c, ?_, fun h => absurd h hzero, fun _ => horders⟩
    simp only [bamCmp, hzero, hget, ↓reduceIte]
    exact hc

theorem node_spot {entries : List (Item × PageNo)} {sep : Nat → Bytes}
    {parts : List (List (Leaf store fuel))} (h : Separates entries sep parts) (hne : entries ≠ [])
    {key : Bytes} (hkey : key.length < 2 ^ 31) (exact delno : Bool) :
    ∃ spot, (Page.ibtree entries).spot store fuel (.key key exact delno) = pure spot ∧
      ChildSpot sep entries.length key (childIndx spot) := by
  obtain ⟨spot, sign, hspot, hsign, -, hlands⟩ :=
    halve_tells 1 _ (fun i hi => node_cmp h hkey hi) (by
      intro i j c d hij hj hc hd hnonneg
      cases i with
      | zero => exact hc.1 rfl
      | succ i =>
        rw [(hc.2 (by omega)).greater]
        apply bytes_lt_of_not_lt (h.increasing (i + 1) j (by omega) hij hj)
        intro hlt
        have hneg := (hd.2 (by omega)).less.mpr hlt
        omega)
  have hlen : 0 < entries.length := List.length_pos_iff.mpr hne
  have hzero : 0 < sign 0 := (hsign 0 hlen).1 rfl
  refine ⟨spot, ?_, ?_⟩
  · rw [Page.spot, Page.numEnt, Page.adjust, Nat.div_one]
    exact hspot
  · cases hlands with
    | @found i hi heq =>
      rw [Nat.mul_one, childIndx]
      have hpos : 0 < i := by
        by_contra hle
        have hi0 : i = 0 := by omega
        subst hi0
        omega
      have hat := ((hsign i hi).2 hpos).equal.mp heq
      refine ⟨hi, fun _ => ?_, ?_⟩
      · rw [hat]
        exact List.lt_irrefl _
      · intro j hij hj
        rw [hat]
        exact h.increasing i j hpos hij hj
    | @missed i hi hpos hneg =>
      have hi0 : 0 < i := by
        by_contra hle
        have hfirst := hneg 0 (by omega) hlen
        omega
      rw [Nat.mul_one, childIndx, if_pos hi0]
      refine ⟨by omega, ?_, ?_⟩
      · intro hlt
        have hgreater := ((hsign (i - 1) (by omega)).2 hlt).greater.mp (hpos (i - 1) (by omega))
        exact bytes_asymm _ _ hgreater
      · intro j hij hj
        exact ((hsign j hj).2 (by omega)).less.mp (hneg j (by omega) hj)

/-! ### From the root to a leaf -/

/-- The cursor stands between these entries of the leaves. -/
inductive Between (leaves : List (Leaf store fuel)) :
    BtreeCursor → List KeyData → List KeyData → Prop where
  | intro {before after : List (Leaf store fuel)} {l : Leaf store fuel} {es₁ es₂ : List KeyData} :
      leaves = before ++ l :: after → l.entries = es₁ ++ es₂ →
      Between leaves ⟨l.pgno, 2 * es₁.length⟩ (entriesOf before ++ es₁) (es₂ ++ entriesOf after)

/-- It stands on the entry between these. -/
inductive On (leaves : List (Leaf store fuel)) :
    BtreeCursor → List KeyData → KeyData → List KeyData → Prop where
  | intro {before after : List (Leaf store fuel)} {l : Leaf store fuel} {es₁ es₂ : List KeyData}
      {e : KeyData} : leaves = before ++ l :: after → l.entries = es₁ ++ e :: es₂ →
      On leaves ⟨l.pgno, 2 * es₁.length⟩ (entriesOf before ++ es₁) e (es₂ ++ entriesOf after)

/-- What the search for a key may come to. -/
inductive SearchEnds (leaves : List (Leaf store fuel)) (key : Bytes) (exact delno : Bool) :
    Reads (BtreeCursor × Bool) → Prop where
  | found {cp : BtreeCursor} {pre post : List KeyData} {e : KeyData} : On leaves cp pre e post →
      e.key = key → (∀ d ∈ pre, d.key < key) →
      SearchEnds leaves key exact delno
        (if delno && e.deleted then throw dbNotfound else pure (cp, true))
  | missed {cp : BtreeCursor} {pre post : List KeyData} : Between leaves cp pre post →
      (∀ d ∈ pre, d.key < key) → (∀ d ∈ post, key < d.key) →
      SearchEnds leaves key exact delno (if exact then throw dbNotfound else pure (cp, false))

variable {leaves left right : List (Leaf store fuel)} {cp : BtreeCursor} {pre post : List KeyData}
  {e : KeyData}

theorem On.between (h : On leaves cp pre e post) : Between leaves cp pre (e :: post) := by
  cases h with
  | intro hleaves hentries => exact .intro hleaves hentries

theorem Between.inside (h : Between leaves cp pre post) :
    Between (left ++ (leaves ++ right)) cp (entriesOf left ++ pre) (post ++ entriesOf right) := by
  cases h with
  | @intro before after l es₁ es₂ hleaves hentries =>
    have h : Between (left ++ (leaves ++ right)) ⟨l.pgno, 2 * es₁.length⟩
        (entriesOf (left ++ before) ++ es₁) (es₂ ++ entriesOf (after ++ right)) := by
      apply Between.intro _ hentries
      rw [hleaves]
      simp
    simpa using h

theorem On.inside (h : On leaves cp pre e post) :
    On (left ++ (leaves ++ right)) cp (entriesOf left ++ pre) e (post ++ entriesOf right) := by
  cases h with
  | @intro before after l es₁ es₂ e hleaves hentries =>
    have h : On (left ++ (leaves ++ right)) ⟨l.pgno, 2 * es₁.length⟩
        (entriesOf (left ++ before) ++ es₁) e (es₂ ++ entriesOf (after ++ right)) := by
      apply On.intro _ hentries
      rw [hleaves]
      simp
    simpa using h

theorem SearchEnds.inside {key : Bytes} {exact delno : Bool} {r : Reads (BtreeCursor × Bool)}
    (h : SearchEnds leaves key exact delno r) (hleft : ∀ d ∈ entriesOf left, d.key < key)
    (hright : ∀ d ∈ entriesOf right, key < d.key) :
    SearchEnds (left ++ (leaves ++ right)) key exact delno r := by
  cases h with
  | found hon hkey hpre =>
    apply SearchEnds.found hon.inside hkey
    intro d hd
    exact (List.mem_append.mp hd).elim (hleft d) (hpre d)
  | missed hbetween hpre hpost =>
    apply SearchEnds.missed hbetween.inside
    · intro d hd
      exact (List.mem_append.mp hd).elim (hleft d) (hpre d)
    · intro d hd
      exact (List.mem_append.mp hd).elim (hpost d) (hright d)

theorem leaf_ends (l : Leaf store fuel) (hsorted : l.entries.Pairwise fun d e => d.key < e.key)
    {key : Bytes} (hkey : key.length < 2 ^ 31) (exact delno : Bool) (levels : Nat) :
    SearchEnds [l] key exact delno
      (bamSearch store fuel (.key key exact delno) (levels + 1) l.pgno) := by
  obtain ⟨spot, hspot, hlands⟩ := leaf_spot l hsorted hkey exact delno
  rw [bamSearch, l.stored]
  simp only [pure_bind, hspot]
  cases hlands with
  | @found before after e hes he hbefore =>
    have hdeleted : isDeleted l.items (2 * before.length) = pure e.deleted := by
      apply l.keeps.isDeleted
      rw [hes]
      simp
    have hon := @On.intro store fuel [l] [] [] l before after e rfl hes
    have hends : SearchEnds [l] key exact delno _ := .found hon he hbefore
    cases delno with
    | false => exact hends
    | true =>
      simp only [Sought.delno, hdeleted, ↓reduceIte, pure_bind]
      exact hends
  | @missed before after hes hbefore hafter =>
    have hbetween := @Between.intro store fuel [l] [] [] l before after rfl hes
    apply SearchEnds.missed hbetween hbefore
    rw [entriesOf_nil, List.append_nil]
    exact hafter

/-- The child with the part of the leaves that it leads to. -/
theorem parts_split {α : Type} {parts : List (List α)} {i : Nat} {part : List α}
    (hi : parts[i]? = some part) :
    parts.flatten = (parts.take i).flatten ++ (part ++ (parts.drop (i + 1)).flatten) := by
  obtain ⟨hlt, hpart⟩ := List.getElem?_eq_some_iff.mp hi
  rw [← List.flatten_cons, ← List.flatten_append, ← hpart, List.getElem_cons_drop,
    List.take_append_drop]

/-- The induction is on the levels of the tree. -/
theorem search_ends {depth : Nat} {pgno : PageNo} (h : Tree store fuel depth pgno leaves)
    (hsorted : (entriesOf leaves).Pairwise fun d e => d.key < e.key) {key : Bytes}
    (hkey : key.length < 2 ^ 31) (exact delno : Bool) {levels : Nat} (hlevels : depth < levels) :
    SearchEnds leaves key exact delno (bamSearch store fuel (.key key exact delno) levels pgno) := by
  induction h generalizing levels with
  | leaf l =>
    obtain ⟨levels, rfl⟩ : ∃ n, levels = n + 1 := ⟨levels - 1, by omega⟩
    apply leaf_ends l _ hkey
    simpa using hsorted
  | @node depth pgno entries sep parts hpage hne hlen htree hsep ih =>
    obtain ⟨levels, rfl⟩ : ∃ n, levels = n + 1 := ⟨levels - 1, by omega⟩
    obtain ⟨spot, hspot, hchild⟩ := node_spot hsep hne hkey exact delno
    obtain ⟨⟨item, pg⟩, hentry⟩ : ∃ e, entries[childIndx spot]? = some e :=
      ⟨_, List.getElem?_eq_getElem hchild.lt⟩
    obtain ⟨part, hpart⟩ : ∃ part, parts[childIndx spot]? = some part :=
      ⟨_, List.getElem?_eq_getElem (hlen ▸ hchild.lt)⟩
    rw [bamSearch, hpage]
    simp only [pure_bind, hspot, hentry]
    rw [parts_split hpart] at hsorted ⊢
    rw [entriesOf_append, entriesOf_append] at hsorted
    have hinner := (List.pairwise_append.mp (List.pairwise_append.mp hsorted).2.1).1
    apply (ih _ item pg part hentry hpart hinner (by omega)).inside
    · intro d hd
      by_cases hzero : childIndx spot = 0
      · rw [hzero] at hd
        cases hd
      · have hbefore := hsep.before _ (by omega) hchild.lt d hd
        exact bytes_lt_of_not_lt hbefore (hchild.before (by omega))
    · intro d hd
      by_cases hlast : childIndx spot + 1 < entries.length
      · have hafter := hsep.after _ (by omega) hlast d hd
        exact bytes_lt_of_not_lt (hchild.after _ (by omega) hlast) hafter
      · rw [List.drop_of_length_le (by omega)] at hd
        cases hd

/-- `SR_MIN` finds the start of the first leaf. -/
theorem search_min {depth : Nat} {pgno : PageNo} (h : Tree store fuel depth pgno leaves)
    {levels : Nat} (hlevels : depth < levels) : ∃ l after, leaves = l :: after ∧
      bamSearch store fuel .min levels pgno = pure (⟨l.pgno, 0⟩, true) := by
  induction h generalizing levels with
  | leaf l =>
    obtain ⟨levels, rfl⟩ : ∃ n, levels = n + 1 := ⟨levels - 1, by omega⟩
    refine ⟨l, [], rfl, ?_⟩
    rw [bamSearch, l.stored]
    rfl
  | @node depth pgno entries sep parts hpage hne hlen htree hsep ih =>
    obtain ⟨levels, rfl⟩ : ∃ n, levels = n + 1 := ⟨levels - 1, by omega⟩
    obtain ⟨⟨item, pg⟩, entries, rfl⟩ := List.exists_cons_of_ne_nil hne
    obtain ⟨part, parts, rfl⟩ : ∃ part ps, parts = part :: ps := by
      apply List.exists_cons_of_ne_nil
      apply List.ne_nil_of_length_pos
      rw [hlen, List.length_cons]
      exact Nat.succ_pos _
    have hdown : depth < levels := by omega
    obtain ⟨l, after, rfl, hsearch⟩ := ih 0 item pg part rfl rfl hdown
    refine ⟨l, after ++ parts.flatten, rfl, ?_⟩
    rw [bamSearch, hpage]
    exact hsearch

/-- `SR_MAX` finds the last entry of the last leaf. -/
theorem search_max {depth : Nat} {pgno : PageNo} (h : Tree store fuel depth pgno leaves)
    {levels : Nat} (hlevels : depth < levels) : ∃ before l, leaves = before ++ [l] ∧
      bamSearch store fuel .max levels pgno = pure (⟨l.pgno, 2 * (l.entries.length - 1)⟩, true) := by
  induction h generalizing levels with
  | leaf l =>
    obtain ⟨levels, rfl⟩ : ∃ n, levels = n + 1 := ⟨levels - 1, by omega⟩
    refine ⟨[], l, rfl, ?_⟩
    have hindx : (if l.items.length = 0 then 0 else l.items.length - 2) =
        2 * (l.entries.length - 1) := by
      rw [l.keeps.length]
      split <;> omega
    rw [bamSearch, l.stored, ← hindx]
    rfl
  | @node depth pgno entries sep parts hpage hne hlen htree hsep ih =>
    obtain ⟨levels, rfl⟩ : ∃ n, levels = n + 1 := ⟨levels - 1, by omega⟩
    have hpos : 0 < entries.length := List.length_pos_iff.mpr hne
    obtain ⟨⟨item, pg⟩, hentry⟩ : ∃ e, entries[entries.length - 1]? = some e :=
      ⟨_, List.getElem?_eq_getElem (by omega)⟩
    obtain ⟨part, hpart⟩ : ∃ part, parts[entries.length - 1]? = some part :=
      ⟨_, List.getElem?_eq_getElem (by omega)⟩
    have hdown : depth < levels := by omega
    obtain ⟨before, l, rfl, hsearch⟩ := ih _ item pg part hentry hpart hdown
    refine ⟨(parts.take (entries.length - 1)).flatten ++ before, l, ?_, ?_⟩
    · rw [parts_split hpart, List.drop_of_length_le (by omega)]
      simp
    · have hspot : (Page.ibtree entries).spot store fuel .max =
          pure (.found (entries.length - 1)) := by
        have hnum : ¬ (Page.ibtree entries).numEnt = 0 := Nat.ne_of_gt hpos
        rw [Page.spot, if_neg hnum]
        rfl
      rw [bamSearch, hpage]
      simp only [pure_bind, hspot, childIndx, hentry]
      exact hsearch

end

end NodeBdb
