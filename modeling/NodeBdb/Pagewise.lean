import NodeBdb.Lookup

/-!
# A cursor over pages

The gets of a BTREE cursor as Berkeley DB makes them: a search that positions the cursor on a
leaf, and steps along the leaves that pass over what was deleted and over empty pages. Read
page by page they give what the records in the order of their keys give.
-/

namespace NodeBdb

open RangeLocks

/-! ## The cursor -/

/-- The loop of `__bamc_next`. -/
def bamcNext (store : PageStore) : (fuel : Nat) → (cp : BtreeCursor) → Reads BtreeCursor
  | 0, _ => Reads.lost
  | fuel + 1, cp => do
    let .lbtree items _ nextPgno ← store.page cp.pgno | Reads.lost
    if items.length ≤ cp.indx then
      if nextPgno = pgnoInvalid then throw dbNotfound
      else bamcNext store fuel ⟨nextPgno, 0⟩
    else
      let deleted ← isDeleted items cp.indx
      if deleted then bamcNext store fuel ⟨cp.pgno, cp.indx + 2⟩ else return cp

/-- The loop of `__bamc_prev`. It enters the page before at its end, and tests it again there, as an
empty one is left at once. -/
def bamcPrev (store : PageStore) : (fuel : Nat) → (cp : BtreeCursor) → Reads BtreeCursor
  | 0, _ => Reads.lost
  | fuel + 1, cp => do
    let .lbtree items prevPgno _ ← store.page cp.pgno | Reads.lost
    if cp.indx = 0 then
      if prevPgno = pgnoInvalid then throw dbNotfound
      else do
        let .lbtree prevItems _ _ ← store.page prevPgno | Reads.lost
        bamcPrev store fuel ⟨prevPgno, prevItems.length⟩
    else
      let deleted ← isDeleted items (cp.indx - 2)
      if deleted then bamcPrev store fuel ⟨cp.pgno, cp.indx - 2⟩ else return ⟨cp.pgno, cp.indx - 2⟩

/-- `__bamc_search` with `DB_FIRST`, `DB_LAST`, `DB_SET` or `DB_SET_RANGE`. -/
def bamcSearch (store : PageStore) (fuel : Nat) (root : PageNo) (flags : Int) (key : Bytes) :
    Reads BtreeCursor :=
  if flags = dbFirst then do
    let (cp, _) ← bamSearch store fuel .min fuel root
    let .lbtree items _ _ ← store.page cp.pgno | Reads.lost
    let skip ← if items.length = 0 then pure true else isDeleted items cp.indx
    if skip then bamcNext store fuel cp else return cp
  else if flags = dbLast then do
    let (cp, _) ← bamSearch store fuel .max fuel root
    let .lbtree items _ _ ← store.page cp.pgno | Reads.lost
    let skip ← if items.length = 0 then pure true else isDeleted items cp.indx
    if skip then bamcPrev store fuel cp else return cp
  else if flags = dbSet then do
    let (cp, _) ← bamSearch store fuel (.key key true true) fuel root
    return cp
  else if flags = dbSetRange then do
    let (cp, _) ← bamSearch store fuel (.key key false false) fuel root
    return cp
  else Reads.lost

/-- `__bamc_get` with one of the six flags; a cursor that stands nowhere has no page. -/
def bamcGet (store : PageStore) (fuel : Nat) (root : PageNo) (flags : Int) (key : Bytes)
    (cp : Option BtreeCursor) : Reads BtreeCursor :=
  if flags = dbNext then
    match cp with
    | none => bamcSearch store fuel root dbFirst []
    | some cp => bamcNext store fuel ⟨cp.pgno, cp.indx + 2⟩
  else if flags = dbPrev then
    match cp with
    | none => bamcSearch store fuel root dbLast []
    | some cp => bamcPrev store fuel cp
  else if flags = dbSetRange then do
    let cp ← bamcSearch store fuel root dbSetRange key
    let .lbtree items _ _ ← store.page cp.pgno | Reads.lost
    let skip ← if cp.indx = items.length then pure true else isDeleted items cp.indx
    if skip then bamcNext store fuel cp else return cp
  else bamcSearch store fuel root flags key

/-- `__db_goff` for a whole item; where a chain is too short the buffer is not filled. -/
def goffFrom (store : PageStore) (fuel : Nat) (pgno : PageNo) (needed : Nat) : Reads Bytes :=
  if needed = 0 then pure []
  else if pgno = pgnoInvalid then Reads.lost
  else match fuel with
  | 0 => Reads.lost
  | fuel + 1 => do
    let h ← store.overflow pgno
    let bytes := min h.data.length needed
    let rest ← goffFrom store fuel h.nextPgno (needed - bytes)
    return h.data.take bytes ++ rest

/-- `__db_ret`, on a leaf. -/
def dbRet (store : PageStore) (fuel : Nat) (items : List (Item × Bool)) (indx : Nat) : Reads Bytes :=
  match items[indx]? with
  | some (.keydata data, _) => pure data
  | some (.overflow pgno tlen, _) => goffFrom store fuel pgno tlen
  | none => Reads.lost

/-- `__dbc_iget`: the key is returned unless the caller gave it. -/
def dbcGet (store : PageStore) (fuel : Nat) (root : PageNo) (flags : Int) (key : Bytes)
    (cp : Option BtreeCursor) : Reads (BtreeCursor × Bytes × Bytes) := do
  let cp ← bamcGet store fuel root flags key cp
  let .lbtree items _ _ ← store.page cp.pgno | Reads.lost
  let key ← if flags = dbSet then pure key else dbRet store fuel items cp.indx
  let data ← dbRet store fuel items (cp.indx + 1)
  return (cp, key, data)

/-- One get after the other. They are made on a copy of the cursor, so one that fails leaves it
where it was. -/
def dbcGets (store : PageStore) (fuel : Nat) (root : PageNo) :
    Option BtreeCursor → List (Int × Bytes) → Option (List (Except Int (Bytes × Bytes)))
  | _, [] => some []
  | cp, (flags, key) :: gets => do
    match ← (dbcGet store fuel root flags key cp).run with
    | .ok (cp', r) => return .ok r :: (← dbcGets store fuel root (some cp') gets)
    | .error rc => return .error rc :: (← dbcGets store fuel root cp gets)

/-! ## A BTREE in its pages -/

def KeyData.record (e : KeyData) : Bytes × Bytes := (e.key, e.value)

/-- The records that were not deleted. -/
def live (es : List KeyData) : List (Bytes × Bytes) :=
  (es.filter fun e => !e.deleted).map KeyData.record

section

variable {store : PageStore} {fuel : Nat}

def InLine (leaves : List (Leaf store fuel)) : Prop :=
  ∀ before l after, leaves = before ++ l :: after →
    l.prevPgno = (before.getLast?.map Leaf.pgno).getD pgnoInvalid ∧
    l.nextPgno = (after.head?.map Leaf.pgno).getD pgnoInvalid

/-- The rounds of a loop over all entries of the leaves. -/
def rounds (leaves : List (Leaf store fuel)) : Nat := (leaves.map fun l => l.entries.length + 1).sum

end

/-- A BTREE as it lies in a file: a tree of pages whose leaves are linked in order and keep its
records, with others that were deleted. -/
structure Stored (B : Btree) where
  store : PageStore
  fuel : Nat
  root : PageNo
  depth : Nat
  leaves : List (Leaf store fuel)
  tree : Tree store fuel depth root leaves
  sorted : (entriesOf leaves).Pairwise fun d e => d.key < e.key
  records : live (entriesOf leaves) = B.records
  linked : InLine leaves
  levels : depth < fuel
  enough : rounds leaves ≤ fuel

section

variable {store : PageStore} {fuel : Nat} {leaves before after : List (Leaf store fuel)}
  {l : Leaf store fuel} {es₁ es₂ pre post : List KeyData} {e : KeyData} {cp : BtreeCursor}
  {r : Reads BtreeCursor}

@[simp] theorem live_append (ds es : List KeyData) : live (ds ++ es) = live ds ++ live es := by
  simp [live]

theorem live_cons (h : e.deleted = false) (es : List KeyData) :
    live (e :: es) = e.record :: live es := by
  simp [live, h]

theorem mem_live {s : Bytes × Bytes} {es : List KeyData} :
    s ∈ live es ↔ ∃ d ∈ es, d.deleted = false ∧ d.record = s := by
  simp [live, and_assoc]

/-- No key of these that was not deleted is one of `within`. -/
def Outside (within : Set Bytes) (es : List KeyData) : Prop :=
  ∀ d ∈ es, d.deleted = false → d.key ∉ within

section

variable {within : Set Bytes} {ds es : List KeyData}

theorem Outside.live (h : Outside within es) : ∀ s ∈ live es, s.1 ∉ within := by
  intro s hs
  obtain ⟨d, hd, hlive, rfl⟩ := mem_live.mp hs
  exact h d hd hlive

theorem Outside.append (hd : Outside within ds) (he : Outside within es) :
    Outside within (ds ++ es) := by
  intro d hmem
  cases List.mem_append.mp hmem with
  | inl hmem => exact hd d hmem
  | inr hmem => exact he d hmem

theorem outside_deleted (h : ∀ d ∈ es, d.deleted = true) : Outside within es := by
  intro d hd hlive
  rw [h d hd] at hlive
  cases hlive

end

@[simp] theorem rounds_append (ls ms : List (Leaf store fuel)) :
    rounds (ls ++ ms) = rounds ls + rounds ms := by
  simp [rounds]

@[simp] theorem rounds_cons (l : Leaf store fuel) (ls : List (Leaf store fuel)) :
    rounds (l :: ls) = l.entries.length + 1 + rounds ls := by
  simp [rounds]

theorem Between.entries (h : Between leaves cp pre post) : entriesOf leaves = pre ++ post := by
  cases h with
  | intro hleaves hentries => simp [hleaves, hentries]

theorem On.entries (h : On leaves cp pre e post) : entriesOf leaves = pre ++ e :: post :=
  h.between.entries

/-! ### Along the leaves -/

theorem leaf_length (h : l.entries = es₁ ++ es₂) :
    l.items.length = 2 * es₁.length + 2 * es₂.length := by
  rw [l.keeps.length, h, List.length_append]
  omega

theorem leaf_deleted (h : l.entries = es₁ ++ e :: es₂) :
    isDeleted l.items (2 * es₁.length) = pure e.deleted := by
  apply l.keeps.isDeleted
  rw [h]
  simp

/-- What a step onwards may come to. -/
inductive NextEnds (leaves : List (Leaf store fuel)) (pre post : List KeyData) :
    Reads BtreeCursor → Prop where
  | found (skipped : List KeyData) {rest : List KeyData} {e : KeyData} {cp : BtreeCursor} :
      post = skipped ++ e :: rest → (∀ d ∈ skipped, d.deleted = true) → e.deleted = false →
      On leaves cp (pre ++ skipped) e rest → NextEnds leaves pre post (pure cp)
  | ended : (∀ d ∈ post, d.deleted = true) → NextEnds leaves pre post (throw dbNotfound)

/-- What a step back may come to. -/
inductive PrevEnds (leaves : List (Leaf store fuel)) (pre post : List KeyData) :
    Reads BtreeCursor → Prop where
  | found (rest : List KeyData) (e : KeyData) (skipped : List KeyData) {cp : BtreeCursor} :
      pre = rest ++ e :: skipped → (∀ d ∈ skipped, d.deleted = true) → e.deleted = false →
      On leaves cp rest e (skipped ++ post) → PrevEnds leaves pre post (pure cp)
  | ended : (∀ d ∈ pre, d.deleted = true) → PrevEnds leaves pre post (throw dbNotfound)

theorem NextEnds.skip (h : NextEnds leaves (pre ++ [e]) post r) (he : e.deleted = true) :
    NextEnds leaves pre (e :: post) r := by
  cases h with
  | @found skipped rest e' cp hpost hskipped hlive hon =>
    apply NextEnds.found (e :: skipped) _ (List.forall_mem_cons.mpr ⟨he, hskipped⟩) hlive
    · rwa [List.append_assoc] at hon
    · rw [hpost, List.cons_append]
  | ended hdeleted => exact .ended (List.forall_mem_cons.mpr ⟨he, hdeleted⟩)

theorem PrevEnds.skip (h : PrevEnds leaves pre (e :: post) r) (he : e.deleted = true) :
    PrevEnds leaves (pre ++ [e]) post r := by
  cases h with
  | @found rest e' skipped cp hpre hskipped hlive hon =>
    apply PrevEnds.found rest e' (skipped ++ [e]) _ _ hlive
    · rwa [List.append_assoc]
    · rw [hpre, List.append_assoc, List.cons_append]
    · exact List.forall_mem_append.mpr ⟨hskipped, List.forall_mem_singleton.mpr he⟩
  | ended hdeleted =>
    exact .ended (List.forall_mem_append.mpr ⟨hdeleted, List.forall_mem_singleton.mpr he⟩)

/-- The induction is on the rounds of the loop. -/
theorem next_ends (hlinked : InLine leaves) {n : Nat} (before : List (Leaf store fuel))
    (l : Leaf store fuel) (after : List (Leaf store fuel)) (es₁ es₂ : List KeyData)
    (hleaves : leaves = before ++ l :: after)
    (hentries : l.entries = es₁ ++ es₂) (hn : es₂.length + 1 + rounds after ≤ n) :
    NextEnds leaves (entriesOf before ++ es₁) (es₂ ++ entriesOf after)
      (bamcNext store n ⟨l.pgno, 2 * es₁.length⟩) := by
  induction n generalizing before l after es₁ es₂ with
  | zero => omega
  | succ n ih =>
    have hlength := leaf_length hentries
    rw [bamcNext, l.stored]
    simp only [pure_bind]
    cases es₂ with
    | nil =>
      have hnext := (hlinked before l after hleaves).2
      rw [if_pos (by rw [hlength]; simp)]
      cases after with
      | nil =>
        have hnone : l.nextPgno = pgnoInvalid := hnext
        rw [if_pos hnone]
        apply NextEnds.ended
        intro d hd
        cases hd
      | cons m after =>
        have hm : l.nextPgno = m.pgno := hnext
        rw [hm, if_neg m.valid]
        have hleaves' : leaves = (before ++ [l]) ++ m :: after := by
          rw [hleaves, List.append_assoc]
          rfl
        have hrest := ih (before ++ [l]) m after [] m.entries hleaves' rfl
          (by rw [rounds_cons] at hn; simp at hn; omega)
        simpa [hentries] using hrest
    | cons e es =>
      rw [if_neg (by rw [hlength]; simp), leaf_deleted hentries, pure_bind]
      cases hdeleted : e.deleted with
      | true =>
        rw [if_pos rfl]
        have hentries' : l.entries = (es₁ ++ [e]) ++ es := by
          rw [hentries, List.append_assoc]
          rfl
        have hrest := ih before l after (es₁ ++ [e]) es hleaves hentries'
          (by rw [List.length_cons] at hn; omega)
        apply NextEnds.skip _ hdeleted
        rw [List.length_append, List.length_singleton, Nat.mul_add] at hrest
        rw [List.append_assoc]
        exact hrest
      | false =>
        rw [if_neg (by decide)]
        apply NextEnds.found [] rfl _ hdeleted
        · rw [List.append_nil]
          exact .intro hleaves hentries
        · intro d hd
          cases hd

theorem prev_ends (hlinked : InLine leaves) {n : Nat} (before : List (Leaf store fuel))
    (l : Leaf store fuel) (after : List (Leaf store fuel)) (es₁ es₂ : List KeyData)
    (hleaves : leaves = before ++ l :: after)
    (hentries : l.entries = es₁ ++ es₂) (hn : es₁.length + 1 + rounds before ≤ n) :
    PrevEnds leaves (entriesOf before ++ es₁) (es₂ ++ entriesOf after)
      (bamcPrev store n ⟨l.pgno, 2 * es₁.length⟩) := by
  induction n generalizing before l after es₁ es₂ with
  | zero => omega
  | succ n ih =>
    rw [bamcPrev, l.stored]
    simp only [pure_bind]
    cases List.eq_nil_or_concat es₁ with
    | inl hnil =>
      subst hnil
      have hprev := (hlinked before l after hleaves).1
      rw [List.length_nil, Nat.mul_zero, if_pos rfl]
      cases List.eq_nil_or_concat before with
      | inl hfirst =>
        subst hfirst
        have hnone : l.prevPgno = pgnoInvalid := hprev
        rw [if_pos hnone]
        apply PrevEnds.ended
        intro d hd
        cases hd
      | inr hlast =>
        obtain ⟨front, m, rfl⟩ := hlast
        have hm : l.prevPgno = m.pgno := by simpa using hprev
        have hrest := ih front m (l :: after) m.entries []
          (by rw [hleaves]; simp) (List.append_nil _).symm (by simp at hn; omega)
        rw [← m.keeps.length] at hrest
        rw [hm, if_neg m.valid, m.stored, pure_bind]
        simpa [hentries] using hrest
    | inr hlast =>
      obtain ⟨es, e, rfl⟩ := hlast
      have hentries' : l.entries = es ++ e :: es₂ := by rw [hentries]; simp
      have hindx : 2 * (es.concat e).length - 2 = 2 * es.length := by
        rw [List.length_concat]
        omega
      rw [if_neg (by simp), hindx, leaf_deleted hentries', pure_bind]
      cases hdeleted : e.deleted with
      | true =>
        have hrest := ih before l after es (e :: es₂) hleaves hentries'
          (by rw [List.length_concat] at hn; omega)
        have hskip := hrest.skip hdeleted
        rw [if_pos rfl, List.concat_eq_append, ← List.append_assoc]
        exact hskip
      | false =>
        rw [if_neg (by decide)]
        apply PrevEnds.found (entriesOf before ++ es) e [] _ _ hdeleted
        · exact .intro hleaves hentries'
        · simp
        · intro d hd
          cases hd

/-- From a place that may be the end of a page, or a deleted entry. -/
theorem settle_next (hlinked : InLine leaves) {n : Nat} (before : List (Leaf store fuel))
    (l : Leaf store fuel) (after : List (Leaf store fuel)) (es₁ es₂ : List KeyData)
    (hleaves : leaves = before ++ l :: after)
    (hentries : l.entries = es₁ ++ es₂) (hn : es₂.length + 1 + rounds after ≤ n) (atEnd : Prop)
    [Decidable atEnd] (hend : atEnd ↔ es₂ = []) :
    NextEnds leaves (entriesOf before ++ es₁) (es₂ ++ entriesOf after) (do
      let skip ← if atEnd then pure true else isDeleted l.items (2 * es₁.length)
      if skip then bamcNext store n ⟨l.pgno, 2 * es₁.length⟩ else pure ⟨l.pgno, 2 * es₁.length⟩) := by
  have hnext := next_ends hlinked before l after es₁ es₂ hleaves hentries hn
  cases es₂ with
  | nil =>
    rw [if_pos (hend.mpr rfl), pure_bind]
    exact hnext
  | cons e es =>
    have hnot : ¬ atEnd := fun h => List.cons_ne_nil e es (hend.mp h)
    rw [if_neg hnot, leaf_deleted hentries, pure_bind]
    cases hdeleted : e.deleted with
    | true => exact hnext
    | false =>
      change NextEnds leaves _ _ (pure ⟨l.pgno, 2 * es₁.length⟩)
      apply NextEnds.found [] rfl _ hdeleted
      · rw [List.append_nil]
        exact .intro hleaves hentries
      · intro d hd
        cases hd

theorem rounds_after (hleaves : leaves = before ++ l :: after) (hentries : l.entries = es₁ ++ es₂) :
    es₂.length + 1 + rounds after ≤ rounds leaves := by
  simp [hleaves, hentries]
  omega

theorem rounds_before (hleaves : leaves = before ++ l :: after) (hentries : l.entries = es₁ ++ es₂) :
    es₁.length + 1 + rounds before ≤ rounds leaves := by
  simp [hleaves, hentries]
  omega

end

/-! ### Against the records -/

/-- The cursor comes to stand on the record, or there is none. -/
inductive Finds {store : PageStore} {fuel : Nat} (leaves : List (Leaf store fuel)) :
    Reads BtreeCursor → Option (Bytes × Bytes) → Prop where
  | found {cp : BtreeCursor} {pre post : List KeyData} {e : KeyData} : On leaves cp pre e post →
      e.deleted = false → Finds leaves (pure cp) (some e.record)
  | none : Finds leaves (throw dbNotfound) none

namespace Stored

variable {B : Btree} (S : Stored B) {within : Set Bytes} {pre post : List KeyData} {e : KeyData}
  {cp : BtreeCursor} {r : Reads BtreeCursor}

theorem holds_entry (h : entriesOf S.leaves = pre ++ e :: post) (he : e.deleted = false) :
    RangeLocks.Holds (live pre ++ e.record :: live post) B.contents := by
  have hrecords := S.records
  rw [h, live_append, live_cons he] at hrecords
  rw [hrecords]
  exact B.holds

theorem before_lt (h : entriesOf S.leaves = pre ++ e :: post) : ∀ d ∈ pre, d.key < e.key := by
  have hsorted := S.sorted
  rw [h] at hsorted
  intro d hd
  exact (List.pairwise_append.mp hsorted).2.2 d hd e List.mem_cons_self

theorem lt_after (h : entriesOf S.leaves = pre ++ e :: post) : ∀ d ∈ post, e.key < d.key := by
  have hsorted := S.sorted
  rw [h] at hsorted
  exact (List.pairwise_cons.mp (List.pairwise_append.mp hsorted).2.1).1

/-- A scan finds nothing where every key it tries was deleted. -/
theorem first_absent (h : Outside within (entriesOf S.leaves)) (lt : Bytes → Bytes → Prop) :
    first lt within B.contents = none := by
  apply B.holds.absent
  rw [← S.records]
  exact h.live

theorem first_entry (h : entriesOf S.leaves = pre ++ e :: post) (he : e.deleted = false)
    (hpre : Outside within pre) (hwithin : e.key ∈ within) :
    first (· < ·) within B.contents = some e.record := by
  apply (first_some bytes_trichotomous).mpr
  exact (S.holds_entry h he).isFirst bytes_asymm hpre.live hwithin

theorem last_entry (h : entriesOf S.leaves = pre ++ e :: post) (he : e.deleted = false)
    (hpost : Outside within post) (hwithin : e.key ∈ within) :
    first (fun j k => k < j) within B.contents = some e.record := by
  apply (first_some fun j k h₁ h₂ => bytes_trichotomous j k h₂ h₁).mpr
  exact (S.holds_entry h he).isLast bytes_asymm hpost.live hwithin

/-- A step onwards finds the first record among the keys after the place. -/
theorem next_finds (h : NextEnds S.leaves pre post r) (hall : entriesOf S.leaves = pre ++ post)
    (hpre : ∀ d ∈ pre, d.key ∉ within) (hpost : ∀ d ∈ post, d.key ∈ within) :
    Finds S.leaves r (first (· < ·) within B.contents) := by
  have hbefore : Outside within pre := fun d hd _ => hpre d hd
  cases h with
  | @found skipped rest e cp hsplit hskipped hlive hon =>
    have hmem : e ∈ post := by
      rw [hsplit]
      simp
    have hskip := hbefore.append (outside_deleted hskipped)
    rw [S.first_entry hon.entries hlive hskip (hpost e hmem)]
    exact .found hon hlive
  | ended hdeleted =>
    have hnone := hbefore.append (outside_deleted hdeleted)
    rw [← hall] at hnone
    rw [S.first_absent hnone]
    exact .none

/-- A step back finds the last record among the keys before the place. -/
theorem prev_finds (h : PrevEnds S.leaves pre post r) (hall : entriesOf S.leaves = pre ++ post)
    (hpre : ∀ d ∈ pre, d.key ∈ within) (hpost : ∀ d ∈ post, d.key ∉ within) :
    Finds S.leaves r (first (fun j k => k < j) within B.contents) := by
  have hafter : Outside within post := fun d hd _ => hpost d hd
  cases h with
  | @found rest e skipped cp hsplit hskipped hlive hon =>
    have hmem : e ∈ pre := by
      rw [hsplit]
      simp
    have hskip := (outside_deleted hskipped).append hafter
    rw [S.last_entry hon.entries hlive hskip (hpre e hmem)]
    exact .found hon hlive
  | ended hdeleted =>
    have hnone := (outside_deleted hdeleted).append hafter
    rw [← hall] at hnone
    rw [S.first_absent hnone]
    exact .none

/-! ### The flags -/

variable {key : Bytes}

theorem first_ends (key : Bytes) :
    NextEnds S.leaves [] (entriesOf S.leaves) (bamcSearch S.store S.fuel S.root dbFirst key) := by
  obtain ⟨l, after, hleaves, hsearch⟩ := search_min S.tree S.levels
  have hentries : l.entries = [] ++ l.entries := rfl
  have hrounds := rounds_after (List.nil_append (l :: after) ▸ hleaves) hentries
  have hempty : l.items.length = 0 ↔ l.entries = [] := by
    rw [l.keeps.length, ← List.length_eq_zero_iff]
    omega
  have hends := settle_next S.linked [] l after [] l.entries hleaves hentries
    (hrounds.trans S.enough) (l.items.length = 0) hempty
  have hall : l.entries ++ entriesOf after = entriesOf S.leaves := by
    rw [hleaves, entriesOf_cons]
  rw [hall] at hends
  rw [bamcSearch, if_pos rfl, hsearch]
  simp only [pure_bind, l.stored]
  exact hends

theorem last_ends (key : Bytes) :
    PrevEnds S.leaves (entriesOf S.leaves) [] (bamcSearch S.store S.fuel S.root dbLast key) := by
  obtain ⟨before, l, hleaves, hsearch⟩ := search_max S.tree S.levels
  have hall : entriesOf S.leaves = entriesOf before ++ l.entries := by
    rw [hleaves]
    simp
  rw [bamcSearch, if_neg (by decide), if_pos rfl, hsearch, hall]
  simp only [pure_bind, l.stored]
  cases List.eq_nil_or_concat l.entries with
  | inl hnil =>
    have hempty : l.items.length = 0 := by rw [l.keeps.length, hnil, List.length_nil]
    have hends := prev_ends S.linked before l [] [] [] hleaves hnil
      ((rounds_before hleaves hnil).trans S.enough)
    rw [if_pos hempty, hnil]
    exact hends
  | inr hlast =>
    obtain ⟨es, e, hes⟩ := hlast
    rw [List.concat_eq_append] at hes
    have hindx : 2 * (l.entries.length - 1) = 2 * es.length := by
      rw [hes, List.length_append, List.length_singleton, Nat.add_sub_cancel]
    have hsome : ¬ l.items.length = 0 := by
      rw [l.keeps.length, hes, List.length_append, List.length_singleton]
      omega
    rw [if_neg hsome, hindx, leaf_deleted hes, pure_bind, hes, ← List.append_assoc]
    cases hdeleted : e.deleted with
    | true =>
      have hends := prev_ends S.linked before l [] es [e] hleaves hes
        ((rounds_before hleaves hes).trans S.enough)
      exact hends.skip hdeleted
    | false =>
      change PrevEnds S.leaves _ _ (pure ⟨l.pgno, 2 * es.length⟩)
      apply PrevEnds.found (entriesOf before ++ es) e [] rfl _ hdeleted
      · exact .intro hleaves hes
      · intro d hd
        cases hd

theorem range_ends (hkey : key.length < 2 ^ 31) : ∃ pre post, entriesOf S.leaves = pre ++ post ∧
    (∀ d ∈ pre, d.key < key) ∧ (∀ d ∈ post, ¬ d.key < key) ∧
    NextEnds S.leaves pre post (bamcGet S.store S.fuel S.root dbSetRange key none) := by
  have hends := search_ends S.tree S.sorted hkey false false S.levels
  generalize hr : bamSearch S.store S.fuel (.key key false false) S.fuel S.root = r at hends
  have hget : ∀ (before : List (Leaf S.store S.fuel)) l after es₁ es₂ (b : Bool),
      S.leaves = before ++ l :: after → l.entries = es₁ ++ es₂ →
      r = pure (⟨l.pgno, 2 * es₁.length⟩, b) →
      NextEnds S.leaves (entriesOf before ++ es₁) (es₂ ++ entriesOf after)
        (bamcGet S.store S.fuel S.root dbSetRange key none) := by
    intro before l after es₁ es₂ b hleaves hentries hr'
    have hends := settle_next S.linked before l after es₁ es₂ hleaves hentries
      ((rounds_after hleaves hentries).trans S.enough) (2 * es₁.length = l.items.length)
      (by rw [leaf_length hentries, ← List.length_eq_zero_iff]; omega)
    rw [bamcGet, if_neg (by decide), if_neg (by decide), if_pos rfl, bamcSearch, if_neg (by decide),
      if_neg (by decide), if_neg (by decide), if_pos rfl, hr, hr']
    simp only [pure_bind, l.stored]
    exact hends
  cases hends with
  | @found cp pre post e hon he hpre =>
    have hall := hon.entries
    refine ⟨pre, e :: post, hall, hpre, ?_, ?_⟩
    · intro d hd hlt
      cases List.mem_cons.mp hd with
      | inl heq =>
        rw [heq, he] at hlt
        exact List.lt_irrefl key hlt
      | inr hd =>
        have hafter := S.lt_after hall d hd
        rw [he] at hafter
        exact bytes_asymm key d.key hafter hlt
    · cases hon with
      | @intro before after l es₁ es₂ e hleaves hentries =>
        exact hget before l after es₁ (e :: es₂) true hleaves hentries rfl
  | @missed cp pre post hbetween hpre hpost =>
    refine ⟨pre, post, hbetween.entries, hpre, fun d hd => bytes_asymm key d.key (hpost d hd), ?_⟩
    cases hbetween with
    | @intro before after l es₁ es₂ hleaves hentries =>
      exact hget before l after es₁ es₂ false hleaves hentries rfl

theorem set_finds (hkey : key.length < 2 ^ 31) :
    Finds S.leaves (bamcSearch S.store S.fuel S.root dbSet key)
      (first (· < ·) {key} B.contents) := by
  have hends := search_ends S.tree S.sorted hkey true true S.levels
  have hless : ∀ k : Bytes, k < key → k ∉ ({key} : Set Bytes) := by
    intro k hlt heq
    rw [Set.mem_singleton_iff.mp heq] at hlt
    exact List.lt_irrefl key hlt
  have hgreater : ∀ k : Bytes, key < k → k ∉ ({key} : Set Bytes) := by
    intro k hlt heq
    rw [Set.mem_singleton_iff.mp heq] at hlt
    exact List.lt_irrefl key hlt
  rw [bamcSearch, if_neg (by decide), if_neg (by decide), if_pos rfl]
  generalize bamSearch S.store S.fuel (.key key true true) S.fuel S.root = r at hends
  cases hends with
  | @found cp pre post e hon he hpre =>
    have hall := hon.entries
    have hbefore : Outside {key} pre := fun d hd _ => hless d.key (hpre d hd)
    cases hdeleted : e.deleted with
    | true =>
      -- the only entry with the key is no record any more
      have hnone : first (· < ·) {key} B.contents = none := by
        apply S.first_absent
        rw [hall]
        apply hbefore.append
        intro d hd hlive
        cases List.mem_cons.mp hd with
        | inl heq =>
          rw [heq, hdeleted] at hlive
          cases hlive
        | inr hd => exact hgreater d.key (he ▸ S.lt_after hall d hd)
      rw [hnone]
      exact .none
    | false =>
      rw [S.first_entry hall hdeleted hbefore he]
      exact .found hon hdeleted
  | @missed cp pre post hbetween hpre hpost =>
    have hnone : first (· < ·) {key} B.contents = none := by
      apply S.first_absent
      rw [hbetween.entries]
      apply Outside.append
      · exact fun d hd _ => hless d.key (hpre d hd)
      · exact fun d hd _ => hgreater d.key (hpost d hd)
    rw [hnone]
    exact .none

/-- `DB_NEXT` from an entry. -/
theorem onward_finds (hon : On S.leaves cp pre e post) :
    Finds S.leaves (bamcNext S.store S.fuel ⟨cp.pgno, cp.indx + 2⟩)
      (first (· < ·) {k | e.key < k} B.contents) := by
  have hall : entriesOf S.leaves = (pre ++ [e]) ++ post := by
    rw [hon.entries]
    simp
  apply S.next_finds _ hall
  · intro d hd hlt
    cases List.mem_append.mp hd with
    | inl hd => exact bytes_asymm _ _ hlt (S.before_lt hon.entries d hd)
    | inr hd =>
      rw [List.mem_singleton.mp hd] at hlt
      exact List.lt_irrefl e.key hlt
  · exact S.lt_after hon.entries
  · cases hon with
    | @intro before after l es₁ es₂ e hleaves hentries =>
      have hentries' : l.entries = (es₁ ++ [e]) ++ es₂ := by
        rw [hentries]
        simp
      have hends := next_ends S.linked before l after (es₁ ++ [e]) es₂ hleaves hentries'
        ((rounds_after hleaves hentries').trans S.enough)
      rw [List.length_append, List.length_singleton, Nat.mul_add, ← List.append_assoc] at hends
      exact hends

/-- `DB_PREV` from an entry. -/
theorem back_finds (hon : On S.leaves cp pre e post) :
    Finds S.leaves (bamcPrev S.store S.fuel cp)
      (first (fun j k => k < j) {k | k < e.key} B.contents) := by
  apply S.prev_finds _ hon.entries (S.before_lt hon.entries)
  · intro d hd hlt
    cases List.mem_cons.mp hd with
    | inl heq =>
      rw [heq] at hlt
      exact List.lt_irrefl e.key hlt
    | inr hd => exact bytes_asymm _ _ hlt (S.lt_after hon.entries d hd)
  · cases hon with
    | @intro before after l es₁ es₂ e hleaves hentries =>
      exact prev_ends S.linked before l after es₁ (e :: es₂) hleaves hentries
        ((rounds_before hleaves hentries).trans S.enough)

end Stored

/-! ### What a get returns -/

section

variable {store : PageStore} {fuel : Nat} {leaves : List (Leaf store fuel)}

theorem goff_chain {pgno : PageNo} {b : Bytes} {n : Nat} (h : Chain store pgno b n) (hn : n ≤ fuel) :
    goffFrom store fuel pgno b.length = pure b := by
  induction h generalizing fuel with
  | nil =>
    rw [goffFrom.eq_def, if_pos List.length_nil]
  | @cons pgno next data rest n hpgno hpage hrest ih =>
    obtain ⟨fuel, rfl⟩ : ∃ f, fuel = f + 1 := ⟨fuel - 1, by omega⟩
    by_cases hempty : (data ++ rest).length = 0
    · rw [goffFrom.eq_def, if_pos hempty, List.length_eq_zero_iff.mp hempty]
    · have hbytes : min data.length (data ++ rest).length = data.length := by
        rw [List.length_append]
        omega
      have hneeded : (data ++ rest).length - data.length = rest.length := by
        rw [List.length_append, Nat.add_sub_cancel_left]
      rw [goffFrom.eq_def, if_neg hempty, if_neg hpgno, hpage]
      simp only [pure_bind, hbytes, hneeded, List.take_length]
      rw [ih (by omega), pure_bind]

theorem ret_item {items : List (Item × Bool)} {indx : Nat} {item : Item} {b : Bool} {data : Bytes}
    (hi : items[indx]? = some (item, b)) (h : item.Is store fuel data) :
    dbRet store fuel items indx = pure data := by
  cases h with
  | keydata => rw [dbRet, hi]
  | overflow hchain hn =>
    rw [dbRet, hi]
    exact goff_chain hchain hn

/-- What the cursor stands on is read back whole. -/
theorem On.read {cp : BtreeCursor} {pre post : List KeyData} {e : KeyData}
    (h : On leaves cp pre e post) : ∃ items prevPgno nextPgno,
      store.page cp.pgno = pure (.lbtree items prevPgno nextPgno) ∧
      dbRet store fuel items cp.indx = pure e.key ∧
      dbRet store fuel items (cp.indx + 1) = pure e.value := by
  cases h with
  | @intro before after l es₁ es₂ e hleaves hentries =>
    have hi : l.entries[es₁.length]? = some e := by
      rw [hentries]
      simp
    obtain ⟨k, d, b, hk, hd, hkey, hvalue⟩ := l.keeps.entry hi
    exact ⟨l.items, l.prevPgno, l.nextPgno, l.stored, ret_item hk hkey, ret_item hd hvalue⟩

end

/-- Where the cursor stands, and where it would stand among the records. -/
inductive RestsOn {store : PageStore} {fuel : Nat} (leaves : List (Leaf store fuel)) :
    Option BtreeCursor → Option Bytes → Prop where
  | nowhere : RestsOn leaves none none
  | on {cp : BtreeCursor} {pre post : List KeyData} {e : KeyData} : On leaves cp pre e post →
      e.deleted = false → RestsOn leaves (some cp) (some e.key)

namespace Stored

variable {B : Btree} (S : Stored B) {key : Bytes} {flags : Int} {seek : Seek}
  {cp : Option BtreeCursor} {pos : Option Bytes}

/-- A get over the pages goes where a get over the records goes. -/
theorem get_finds (hs : btreeSeek flags = some seek) (hkey : key.length < 2 ^ 31)
    (hrests : RestsOn S.leaves cp pos) :
    Finds S.leaves (bamcGet S.store S.fuel S.root flags key cp)
      (btreeMoves.next flags pos key B.contents) := by
  have hnext : btreeMoves.next flags pos key B.contents =
      first seek.order (seek.within pos key) B.contents := by
    simp only [btreeMoves, Moves.ordered, hs, Option.bind_some]
  have hin : ∀ (es : List KeyData), ∀ d ∈ es, d.key ∈ (Set.univ : Set Bytes) :=
    fun es d _ => Set.mem_univ d.key
  have hout : ∀ d ∈ ([] : List KeyData), d.key ∉ (Set.univ : Set Bytes) :=
    fun d hd => absurd hd List.not_mem_nil
  have hfirst : ∀ k, Finds S.leaves (bamcSearch S.store S.fuel S.root dbFirst k)
      (first (· < ·) Set.univ B.contents) := fun k =>
    S.next_finds (S.first_ends k) rfl hout (hin _)
  have hlast : ∀ k, Finds S.leaves (bamcSearch S.store S.fuel S.root dbLast k)
      (first (fun j k => k < j) Set.univ B.contents) := fun k =>
    S.prev_finds (S.last_ends k) (List.append_nil _).symm (hin _) hout
  rw [hnext]
  unfold btreeSeek at hs
  split at hs
  case isTrue hflags =>
    cases hs
    subst hflags
    exact hfirst key
  split at hs
  case isTrue hflags =>
    cases hs
    subst hflags
    exact hlast key
  split at hs
  case isTrue hflags =>
    cases hs
    subst hflags
    rw [bamcGet.eq_def, if_pos rfl]
    cases hrests with
    | nowhere => exact hfirst []
    | on hon => exact S.onward_finds hon
  split at hs
  case isTrue hflags =>
    cases hs
    subst hflags
    rw [bamcGet.eq_def, if_neg (by decide), if_pos rfl]
    cases hrests with
    | nowhere => exact hlast []
    | on hon => exact S.back_finds hon
  split at hs
  case isTrue hflags =>
    cases hs
    subst hflags
    exact S.set_finds hkey
  split at hs
  case isTrue hflags =>
    cases hs
    subst hflags
    obtain ⟨pre, post, hall, hpre, hpost, hends⟩ := S.range_ends hkey
    have hget : bamcGet S.store S.fuel S.root dbSetRange key cp =
        bamcGet S.store S.fuel S.root dbSetRange key none := rfl
    rw [hget]
    exact S.next_finds hends hall (fun d hd hmem => hmem (hpre d hd)) hpost
  cases hs

/-- What a get returns is what the records give, and then the cursor stands there. -/
inductive Answers (leaves : List (Leaf S.store S.fuel)) :
    Reads (BtreeCursor × Bytes × Bytes) → Option (Bytes × Bytes) → Prop where
  | found {cp : BtreeCursor} {record : Bytes × Bytes} : RestsOn leaves (some cp) (some record.1) →
      Answers leaves (pure (cp, record)) (some record)
  | none : Answers leaves (throw dbNotfound) none

theorem get_answers (hs : btreeSeek flags = some seek) (hkey : key.length < 2 ^ 31)
    (hrests : RestsOn S.leaves cp pos) :
    S.Answers S.leaves (dbcGet S.store S.fuel S.root flags key cp)
      (btreeMoves.next flags pos key B.contents) := by
  have hfinds := S.get_finds hs hkey hrests
  have hset : ∀ record, flags = dbSet → btreeMoves.next flags pos key B.contents = some record →
      record.1 = key := by
    intro record hflags hnext
    subst hflags
    have hfirst : first (· < ·) {key} B.contents = some record := hnext
    exact ((first_some bytes_trichotomous).mp hfirst).mem
  rw [dbcGet]
  generalize btreeMoves.next flags pos key B.contents = found at hfinds hset
  generalize bamcGet S.store S.fuel S.root flags key cp = r at hfinds
  cases hfinds with
  | none => exact .none
  | @found cp pre post e hon hlive =>
    obtain ⟨items, prevPgno, nextPgno, hpage, hk, hd⟩ := hon.read
    by_cases hflags : flags = dbSet
    · have heq := hset e.record hflags rfl
      simp only [pure_bind, hpage, hd, hflags, ↓reduceIte, ← heq]
      exact .found (.on hon hlive)
    · simp only [pure_bind, hpage, hk, hd, hflags, ↓reduceIte]
      exact .found (.on hon hlive)

end Stored

/-! ## Runs of gets -/

/-- The same gets on the records, one after the other. -/
noncomputable def Btree.gets (B : Btree) : Option Bytes → List (Int × Bytes) →
    List (Except Int (Bytes × Bytes))
  | _, [] => []
  | pos, (flags, key) :: gets =>
    match btreeMoves.next flags pos key B.contents with
    | some r => .ok r :: B.gets (some r.1) gets
    | none => .error dbNotfound :: B.gets pos gets

/-- The induction is on the gets; the cursor stands where it would stand among the records. -/
theorem gets_from {B : Btree} (S : Stored B) {cp : Option BtreeCursor} {pos : Option Bytes}
    (hrests : RestsOn S.leaves cp pos) (gets : List (Int × Bytes))
    (hflags : ∀ g ∈ gets, (btreeSeek g.1).isSome) (hkeys : ∀ g ∈ gets, g.2.length < 2 ^ 31) :
    dbcGets S.store S.fuel S.root cp gets = some (B.gets pos gets) := by
  induction gets generalizing cp pos with
  | nil => rfl
  | cons g gets ih =>
    obtain ⟨flags, key⟩ := g
    obtain ⟨hflag, hflags⟩ := List.forall_mem_cons.mp hflags
    obtain ⟨hkey, hkeys⟩ := List.forall_mem_cons.mp hkeys
    obtain ⟨seek, hs⟩ := Option.isSome_iff_exists.mp hflag
    have hanswers := S.get_answers hs hkey hrests
    rw [dbcGets, Btree.gets]
    generalize btreeMoves.next flags pos key B.contents = found at hanswers
    generalize dbcGet S.store S.fuel S.root flags key cp = r at hanswers
    cases hanswers with
    | none =>
      have hrest := ih hrests hflags hkeys
      exact congrArg (fun o => o.bind fun rest => some (.error dbNotfound :: rest)) hrest
    | @found cp' record hrests' =>
      have hrest := ih hrests' hflags hkeys
      exact congrArg (fun o => o.bind fun rest => some (.ok record :: rest)) hrest

/-- A cursor that reads the pages of a BTREE gives, get by get, what its records give in the order
of their keys. -/
theorem pagewise_gets {B : Btree} (S : Stored B) (gets : List (Int × Bytes))
    (hflags : ∀ g ∈ gets, (btreeSeek g.1).isSome) (hkeys : ∀ g ∈ gets, g.2.length < 2 ^ 31) :
    dbcGets S.store S.fuel S.root none gets = some (B.gets none gets) :=
  gets_from S .nowhere gets hflags hkeys

/-! ## A small BTREE -/

theorem smallKey : (Item.overflow 10 3).Is smallStore 5 [98, 99, 100] :=
  .overflow smallChain (by decide) (by decide)

def firstLeaf : Leaf smallStore 5 where
  pgno := 2
  prevPgno := pgnoInvalid
  nextPgno := 3
  items := [(.keydata [97], false), (.keydata [1], false), (.keydata [98], false),
    (.keydata [2], true)]
  entries := [⟨[97], [1], false⟩, ⟨[98], [2], true⟩]
  valid := by decide
  stored := rfl
  keeps := .cons (e := ⟨[97], [1], false⟩) (.keydata (by decide)) (.keydata (by decide))
    (.cons (e := ⟨[98], [2], true⟩) (.keydata (by decide)) (.keydata (by decide)) .nil)

def secondLeaf : Leaf smallStore 5 where
  pgno := 3
  prevPgno := 2
  nextPgno := pgnoInvalid
  items := [(.overflow 10 3, false), (.keydata [3], false)]
  entries := [⟨[98, 99, 100], [3], false⟩]
  valid := by decide
  stored := rfl
  keeps := .cons (e := ⟨[98, 99, 100], [3], false⟩) smallKey (.keydata (by decide)) .nil

theorem small_separates : Separates [(Item.keydata [], 2), (.overflow 10 3, 3)]
    (fun _ => [98, 99, 100]) [[firstLeaf], [secondLeaf]] where
  item i e hi he := by
    cases i with
    | zero => exact absurd hi (Nat.lt_irrefl 0)
    | succ i =>
      cases i with
      | zero =>
        cases he
        exact smallKey
      | succ i => cases he
  increasing i j hi hij hj := by
    simp only [List.length_cons, List.length_nil] at hj
    omega
  before i hi hlt := by
    have hone : i = 1 := by
      simp only [List.length_cons, List.length_nil] at hlt
      omega
    subst hone
    change ∀ e ∈ firstLeaf.entries ++ [], e.key < [98, 99, 100]
    decide
  after i hi hlt := by
    have hone : i = 1 := by
      simp only [List.length_cons, List.length_nil] at hlt
      omega
    subst hone
    change ∀ e ∈ secondLeaf.entries ++ [], ¬ e.key < [98, 99, 100]
    decide

theorem small_linked : InLine [firstLeaf, secondLeaf] := by
  intro before l after h
  cases before with
  | nil =>
    cases h
    exact ⟨rfl, rfl⟩
  | cons m before =>
    cases before with
    | nil =>
      cases h
      exact ⟨rfl, rfl⟩
    | cons m' before =>
      have hlen := congrArg List.length h
      simp at hlen

def smallBtree : Btree where
  records := [([97], [1]), ([98, 99, 100], [3])]
  sorted := by decide

def smallStored : Stored smallBtree where
  store := smallStore
  fuel := 5
  root := 1
  depth := 1
  leaves := [firstLeaf, secondLeaf]
  tree := by
    change Tree smallStore 5 1 1 [[firstLeaf], [secondLeaf]].flatten
    apply Tree.node rfl (List.cons_ne_nil _ _) rfl _ small_separates
    intro i item pg part hentry hpart
    cases i with
    | zero =>
      cases hentry
      cases hpart
      exact .leaf firstLeaf
    | succ i =>
      cases i with
      | zero =>
        cases hentry
        cases hpart
        exact .leaf secondLeaf
      | succ i => cases hentry
  sorted := by decide
  records := rfl
  linked := small_linked
  levels := by decide
  enough := by decide

theorem smallPages_gets :
    dbcGets smallStore 5 1 none
        [(dbFirst, []), (dbNext, []), (dbNext, []), (dbSetRange, [98]), (dbPrev, [])] =
      some (smallBtree.gets none
        [(dbFirst, []), (dbNext, []), (dbNext, []), (dbSetRange, [98]), (dbPrev, [])]) :=
  pagewise_gets smallStored _ (by decide) (by decide)

end NodeBdb
