import NodeBdb.Walks
import NodeBdb.Success
import Mathlib.Data.List.Perm.Subperm
import Mathlib.Data.List.Range

/-!
# The blocks of a request

The ledger of a request, up to the point where its baton is deleted. A worker frees the
DBT structs it allocated ahead, and `EIO_PutIf` what its last get returned; the completion
of a walk frees the structs of the records. Nobody frees the data that Berkeley DB put into
a DBT marked `DB_DBT_MALLOC`, nor the copy of the key: `Buffer::New` copies what it is given.
-/

namespace NodeBdb

open Interaction

variable {δ : Type}

/-! ## Ledgers -/

def BlockEvent.malloc? : BlockEvent → Option Block
  | .malloc b => some b
  | _ => none

def BlockEvent.free? : BlockEvent → Option Block
  | .free b => some b
  | _ => none

namespace Ledger

/-- The blocks that were allocated, and those that were freed, in order. -/
def allocated (l : Ledger) : List Block := l.log.filterMap BlockEvent.malloc?
def freed (l : Ledger) : List Block := l.log.filterMap BlockEvent.free?

/-- The C++ code goes through a pointer to the block. -/
def deref (l : Ledger) (b : Block) : Ledger := { l with log := l.log ++ [.read b] }

/-- How many blocks there are. -/
def size (l : Ledger) : Nat := l.next

/-- Every block that was allocated is a new one. -/
def Fresh (l : Ledger) : Prop := l.allocated = List.range l.size

variable (l : Ledger) (b : Block) (d : Data δ)

@[simp] theorem size_malloc : l.malloc.size = l.size + 1 := rfl
@[simp] theorem size_free : (l.free b).size = l.size := rfl
@[simp] theorem size_deref : (l.deref b).size = l.size := rfl
@[simp] theorem size_read : (l.read d).size = l.size := by cases d <;> rfl

@[simp] theorem allocated_malloc : l.malloc.allocated = l.allocated ++ [l.size] := by
  simp [allocated, malloc, size, BlockEvent.malloc?]
@[simp] theorem allocated_free : (l.free b).allocated = l.allocated := by
  simp [allocated, free, BlockEvent.malloc?, List.filterMap_cons]
@[simp] theorem allocated_deref : (l.deref b).allocated = l.allocated := by
  simp [allocated, deref, BlockEvent.malloc?, List.filterMap_cons]
@[simp] theorem allocated_read : (l.read d).allocated = l.allocated := by
  cases d with
  | block b bytes => exact allocated_deref l b
  | _ => rfl

@[simp] theorem freed_malloc : l.malloc.freed = l.freed := by
  simp [freed, malloc, BlockEvent.free?, List.filterMap_cons]
@[simp] theorem freed_free : (l.free b).freed = l.freed ++ [b] := by
  simp [freed, free, BlockEvent.free?]
@[simp] theorem freed_deref : (l.deref b).freed = l.freed := by
  simp [freed, deref, BlockEvent.free?, List.filterMap_cons]
@[simp] theorem freed_read : (l.read d).freed = l.freed := by
  cases d with
  | block b bytes => exact freed_deref l b
  | _ => rfl

theorem Fresh.malloc {l : Ledger} (h : l.Fresh) : l.malloc.Fresh := by
  rw [Fresh, allocated_malloc, h, size_malloc, List.range_succ]

variable {l}

theorem Fresh.free (h : l.Fresh) (b : Block) : (l.free b).Fresh := by
  rw [Fresh, allocated_free, h, size_free]

theorem Fresh.deref (h : l.Fresh) (b : Block) : (l.deref b).Fresh := by
  rw [Fresh, allocated_deref, h, size_deref]

theorem Fresh.read (h : l.Fresh) (d : Data δ) : (l.read d).Fresh := by
  rw [Fresh, allocated_read, h, size_read]

theorem mem_freed : b ∈ l.freed ↔ .free b ∈ l.log := by
  simp only [freed, List.mem_filterMap]
  constructor
  · rintro ⟨e, he, hb⟩
    cases e with
    | free c => cases hb; exact he
    | _ => cases hb
  · exact fun h => ⟨_, h, rfl⟩

theorem mem_allocated : b ∈ l.allocated ↔ .malloc b ∈ l.log := by
  simp only [allocated, List.mem_filterMap]
  constructor
  · rintro ⟨e, he, hb⟩
    cases e with
    | malloc c => cases hb; exact he
    | _ => cases hb
  · exact fun h => ⟨_, h, rfl⟩

/-- Every block was freed exactly once. -/
def Balanced (l : Ledger) : Prop := ∀ b, .malloc b ∈ l.log → l.log.count (.free b) = 1

/-- No block is read after it was freed. -/
def Unread (l : Ledger) : Prop := ∀ pre b post, l.log = pre ++ .read b :: post → .free b ∉ pre

/-- As many blocks must be freed as were allocated. -/
theorem Balanced.size_le (hb : l.Balanced) (h : l.Fresh) : l.size ≤ l.freed.length := by
  have hsub : List.range l.size ⊆ l.freed := by
    intro b hmem
    rw [← h, mem_allocated] at hmem
    rw [mem_freed, ← List.count_pos_iff, hb b hmem]
    exact Nat.one_pos
  simpa using (List.nodup_range.subperm hsub).length_le

theorem unread_of_not_freed (h : l.freed = []) : l.Unread := by
  intro pre b post hlog hfree
  have hmem : b ∈ l.freed := by
    rw [mem_freed, hlog]
    exact List.mem_append_left _ hfree
  rw [h] at hmem
  cases hmem

theorem balanced_of_size (h : l.Fresh) (hn : l.size = 0) : l.Balanced := by
  intro b hb
  rw [← mem_allocated, h, hn] at hb
  cases hb

/-- The only block, freed last. -/
theorem balanced_free (h : l.Fresh) (hn : l.size = 1) (hf : l.freed = []) : (l.free 0).Balanced := by
  intro b hb
  have hmem : b ∈ l.allocated := by
    rw [← l.allocated_free 0, mem_allocated]
    exact hb
  rw [h, hn] at hmem
  obtain rfl := List.mem_singleton.mp hmem
  have hnot : .free 0 ∉ l.log := by rw [← mem_freed, hf]; simp
  simp [Ledger.free, List.count_eq_zero.mpr hnot]

theorem unread_free (hf : l.freed = []) (b : Block) : (l.free b).Unread := by
  intro pre c post hlog hfree
  -- the free is the last event, so a read and what is before it lie in the rest
  cases post using List.reverseRecOn with
  | nil =>
    have h := (List.append_inj' hlog rfl).2
    cases h
  | append_singleton post e =>
    rw [Ledger.free, ← List.cons_append, ← List.append_assoc] at hlog
    have h := (List.append_inj' hlog rfl).1
    have hmem : c ∈ l.freed := by
      rw [mem_freed, h]
      exact List.mem_append_left _ hfree
    rw [hf] at hmem
    cases hmem

end Ledger

/-! ## Completions -/

/-- A round of the loop of `EIO_AfterCursorGet`: `ADD_CURSOR_RECORD`, then the structs are freed. -/
def Ledger.settleRecord (l : Ledger) (r : DbtPtr δ × DbtPtr δ) : Ledger :=
  let l := (l.deref r.1.block).read r.1.dbt.data
  let l := (l.deref r.2.block).read r.2.dbt.data
  (l.free r.1.block).free r.2.block

/-- The ledger where the completion of the request deletes the baton. -/
def Request.settle : Request δ → EIODbBaton δ → Ledger
  | get .., baton => baton.ledger.read baton.val.data
  | cursorGet .., baton => baton.records.foldl Ledger.settleRecord baton.ledger
  | _, baton => baton.ledger

/-- Every block was freed once, none that the worker freed is in the records that the completion
goes through, and none is read after it was freed. -/
structure Settled (r : Request δ) (baton : EIODbBaton δ) : Prop where
  balanced : (r.settle baton).Balanced
  unlisted : ∀ p ∈ baton.records, p.1.block ∉ baton.ledger.freed ∧ p.2.block ∉ baton.ledger.freed
  unread : (r.settle baton).Unread

theorem settleRecords_size (records : List (DbtPtr δ × DbtPtr δ)) (l : Ledger) :
    (records.foldl Ledger.settleRecord l).size = l.size := by
  induction records generalizing l with
  | nil => rfl
  | cons r records ih => simp [ih, Ledger.settleRecord]

theorem settleRecords_freed (records : List (DbtPtr δ × DbtPtr δ)) (l : Ledger) :
    (records.foldl Ledger.settleRecord l).freed.length = l.freed.length + 2 * records.length := by
  induction records generalizing l with
  | nil => rfl
  | cons r records ih =>
    rw [List.foldl_cons, ih, List.length_cons]
    simp [Ledger.settleRecord]
    omega

theorem settleRecords_fresh (records : List (DbtPtr δ × DbtPtr δ)) {l : Ledger} (h : l.Fresh) :
    (records.foldl Ledger.settleRecord l).Fresh := by
  induction records generalizing l with
  | nil => exact h
  | cons r records ih =>
    apply ih
    exact ((((h.deref _).read _).deref _).read _ |>.free _).free _

/-! ## Blocks of a single DBT -/

/-- A get of one key returned a value. -/
def BdbEvent.got : BdbEvent δ → Bool
  | ⟨.get .., r⟩ => r.1 == 0
  | _ => false

/-- `n` blocks came back in a DBT, which points to the last of them, and none was freed. -/
structure Fetched (n : Nat) (l : Ledger) (d : Data δ) : Prop where
  size : l.size = n
  fresh : l.Fresh
  freed : l.freed = []
  data : n = 0 ∧ d = .null ∨ ∃ b v, n = b + 1 ∧ d = .block b v

theorem receive_marked {dbt : Dbt δ} (hf : dbt.flags = dbDbtMalloc) (bytes : Bytes) (l : Ledger) :
    dbt.receive bytes l = ({ dbt with data := .block l.next bytes }, l.malloc) := if_pos hf

theorem Fetched.receive {n : Nat} {l : Ledger} {dbt : Dbt δ} (h : Fetched n l dbt.data)
    (hf : dbt.flags = dbDbtMalloc) (bytes : Bytes) :
    Fetched (n + 1) (dbt.receive bytes l).2 (dbt.receive bytes l).1.data := by
  rw [receive_marked hf]
  exact ⟨congrArg (· + 1) h.size, h.fresh.malloc, by simpa using h.freed,
    .inr ⟨l.next, bytes, congrArg (· + 1) h.size.symm, rfl⟩⟩

theorem Fetched.read {n : Nat} {l : Ledger} {d : Data δ} (h : Fetched n l d) (d' : Data δ) :
    Fetched n (l.read d') d :=
  ⟨by simpa using h.size, h.fresh.read d', by simpa using h.freed, h.data⟩

section Bodies

variable {dbObj : Db} {x : Option TxnHandle} {t : BdbTrace δ}

/-- The baton of a get. -/
structure GetBlocks (n : Nat) (b : EIODbBaton δ) : Prop where
  flags : b.val.flags = dbDbtMalloc
  fetched : Fetched n b.ledger b.val.data
  records : b.records = []

theorem getBody_blocks {n : Nat} {b b' : EIODbBaton δ} (hb : GetBlocks n b)
    (h : Runs (getBody dbObj x b) t b') : GetBlocks (n + t.countP BdbEvent.got) b' := by
  simp only [getBody, Prog.call_bind, Prog.ret_bind, runs_call] at h
  obtain ⟨⟨c, v⟩, t', rfl, h⟩ := h
  by_cases hc : c = 0
  · subst hc
    simp only [↓reduceIte, Prog.pure_eq, runs_ret] at h
    obtain ⟨rfl, rfl⟩ := h
    exact ⟨by simpa using hb.flags, hb.fetched.receive hb.flags v, hb.records⟩
  · simp only [hc, ↓reduceIte, Prog.pure_eq, runs_ret] at h
    obtain ⟨rfl, rfl⟩ := h
    have hcount : [(⟨.get dbObj._db x b.key b.val b.flags, (c, v)⟩ : BdbEvent δ)].countP BdbEvent.got = 0 := by
      simp [BdbEvent.got, hc]
    rw [hcount]
    exact ⟨hb.flags, hb.fetched, hb.records⟩

/-- The locals of a putIf. -/
structure PutIfBlocks (n : Nat) (s : PutIfLocals δ) : Prop where
  flags : s.oldVal.flags = dbDbtMalloc
  fetched : Fetched n s.baton.ledger s.oldVal.data
  records : s.baton.records = []

theorem PutIfBlocks.setStatus {n : Nat} {s : PutIfLocals δ} (h : PutIfBlocks n s) (c : Int) :
    PutIfBlocks n (s.setStatus c) := ⟨h.flags, h.fetched, h.records⟩

/-- The memory that is compared is read, and nothing is allocated. -/
theorem compareAndPut_blocks {n : Nat} {s s' : PutIfLocals δ} (hs : PutIfBlocks n s)
    (h : Runs (compareAndPut dbObj x s) t s') :
    PutIfBlocks n s' ∧ t.countP BdbEvent.got = 0 := by
  rw [compareAndPut] at h
  split at h
  · obtain ⟨rfl, rfl⟩ := h
    exact ⟨hs.setStatus _, rfl⟩
  · rw [runs_bind] at h
    obtain ⟨e, w, t', he, h, rfl⟩ := h
    have hload : e.countP BdbEvent.got = 0 := by
      cases contents_calls he with
      | inl hnone => rw [hnone]; rfl
      | inr hone => obtain ⟨p, len, rfl⟩ := hone; rfl
    have hread : PutIfBlocks n { s with baton :=
        { s.baton with ledger := s.baton.ledger.read s.oldVal.data } } :=
      ⟨hs.flags, hs.fetched.read _, hs.records⟩
    rw [List.countP_append, hload, Nat.zero_add]
    dsimp only at h
    split at h
    · obtain ⟨rfl, rfl⟩ := h
      exact ⟨hread.setStatus _, rfl⟩
    · obtain ⟨c, _, rfl, rfl, rfl⟩ := h
      exact ⟨hread.setStatus c, rfl⟩

theorem putIfBody_blocks {n : Nat} {s s' : PutIfLocals δ} (hs : PutIfBlocks n s)
    (h : Runs (putIfBody dbObj x s) t s') : PutIfBlocks (n + t.countP BdbEvent.got) s' := by
  simp only [putIfBody, Prog.call_bind, Prog.ret_bind, runs_call] at h
  obtain ⟨⟨c, v⟩, t', rfl, h⟩ := h
  by_cases hc : c = 0
  · subst hc
    simp only [↓reduceIte] at h
    have hgot : PutIfBlocks (n + 1) {
        baton := { s.baton with status := 0, ledger := (s.oldVal.receive v s.baton.ledger).2 }
        oldVal := (s.oldVal.receive v s.baton.ledger).1 } :=
      ⟨by simpa using hs.flags, hs.fetched.receive hs.flags v, hs.records⟩
    obtain ⟨hs', hcount⟩ := compareAndPut_blocks hgot h
    rw [List.countP_cons, hcount]
    exact hs'
  · simp only [hc, ↓reduceIte, Prog.pure_eq, runs_ret] at h
    obtain ⟨rfl, rfl⟩ := h
    have hcount : [(⟨.get dbObj._db x s.baton.key s.oldVal 0, (c, v)⟩ : BdbEvent δ)].countP
        BdbEvent.got = 0 := by
      simp [BdbEvent.got, hc]
    rw [hcount]
    exact hs.setStatus c

end Bodies

/-! ## Blocks of a walk -/

/-- The cursor was opened. -/
def BdbEvent.opened : BdbEvent δ → Bool
  | ⟨.cursor .., r⟩ => r.1 == 0
  | _ => false

/-- What Berkeley DB allocates where a cursor get succeeds: the value, and the key if it is
returned. -/
def blocksFor (flags : Int) : Nat := if returnsKey flags then 2 else 1

def BdbEvent.returned : BdbEvent δ → Nat
  | ⟨.cursorGet _ _ _ flags, r⟩ => if r.1 = 0 then blocksFor flags else 0
  | _ => 0

/-- How many blocks the cursor gets of a trace returned. -/
def returned : BdbTrace δ → Nat
  | [] => 0
  | e :: t => BdbEvent.returned e + returned t

@[simp] theorem returned_nil : returned ([] : BdbTrace δ) = 0 := rfl
@[simp] theorem returned_cons (e : BdbEvent δ) (t : BdbTrace δ) :
    returned (e :: t) = e.returned + returned t := rfl

@[simp] theorem returned_append (t t' : BdbTrace δ) :
    returned (t ++ t') = returned t + returned t' := by
  induction t with
  | nil => simp
  | cons e t ih => simp [ih, Nat.add_assoc]

/-- Every record took a pair of structs; `c` other blocks were allocated, and none was freed. -/
structure WalkBlocks (c : Nat) (s : CursorLocals δ) : Prop where
  size : s.baton.ledger.size = c + 2 * s.baton.records.length
  fresh : s.baton.ledger.Fresh
  freed : s.baton.ledger.freed = []

/-- Both DBTs of the pair are marked `DB_DBT_MALLOC`. -/
def Marked (pair : DbtPtr δ × DbtPtr δ) : Prop :=
  pair.1.dbt.flags = dbDbtMalloc ∧ pair.2.dbt.flags = dbDbtMalloc

section Walk

variable {dbObj : Db} {x : Option TxnHandle} {t : BdbTrace δ} {c : Nat} {s s' : CursorLocals δ}
  {pair : DbtPtr δ × DbtPtr δ}

theorem WalkBlocks.allocPair (h : WalkBlocks c s) :
    WalkBlocks (c + 2) s.allocPair.2 ∧ Marked s.allocPair.1 := by
  refine ⟨⟨?_, h.fresh.malloc.malloc, ?_⟩, rfl, rfl⟩
  · have hn := h.size
    change s.baton.ledger.size + 1 + 1 = c + 2 + 2 * s.baton.records.length
    omega
  · change s.baton.ledger.malloc.malloc.freed = []
    simpa using h.freed

/-- A key that the caller gave is kept, and any other one comes in a new block. -/
theorem receiveKey_marked {dbt : Dbt δ} (hf : dbt.flags = dbDbtMalloc) (flags : Int) (bytes : Bytes)
    (l : Ledger) : returnsKey flags = true ∧ blocksFor flags = 2 ∧
        dbt.receiveKey flags bytes l = ({ dbt with data := .block l.next bytes }, l.malloc) ∨
      returnsKey flags = false ∧ blocksFor flags = 1 ∧
        dbt.receiveKey flags bytes l = (dbt.keep bytes, l) := by
  rw [blocksFor, Dbt.receiveKey, receive_marked hf]
  cases returnsKey flags with
  | true => exact .inl ⟨rfl, rfl, rfl⟩
  | false => exact .inr ⟨rfl, rfl, rfl⟩

theorem WalkBlocks.push (h : WalkBlocks c s) (hp : Marked pair) (flags : Int) (bytes : Bytes × Bytes) :
    WalkBlocks (c + blocksFor flags) (s.push flags pair bytes).2 ∧
      Marked (s.push flags pair bytes).1 := by
  have hn := h.size
  have hfreed := h.freed
  cases receiveKey_marked hp.1 flags bytes.1 s.baton.ledger with
  | inl hnew =>
    obtain ⟨-, htwo, hkey⟩ := hnew
    simp only [CursorLocals.push, EIODbBaton.pushRecord, hkey, receive_marked hp.2]
    refine ⟨⟨?_, h.fresh.malloc.malloc.malloc.malloc, ?_⟩, rfl, rfl⟩
    · change s.baton.ledger.size + 1 + 1 + 1 + 1 = _ + 2 * (s.baton.records ++ [_]).length
      rw [List.length_append, List.length_singleton]
      omega
    · change s.baton.ledger.malloc.malloc.malloc.malloc.freed = []
      simpa using hfreed
  | inr hkept =>
    obtain ⟨-, hone, hkey⟩ := hkept
    simp only [CursorLocals.push, EIODbBaton.pushRecord, hkey, receive_marked hp.2]
    refine ⟨⟨?_, h.fresh.malloc.malloc.malloc, ?_⟩, rfl, rfl⟩
    · change s.baton.ledger.size + 1 + 1 + 1 = _ + 2 * (s.baton.records ++ [_]).length
      rw [List.length_append, List.length_singleton]
      omega
    · change s.baton.ledger.malloc.malloc.malloc.freed = []
      simpa using hfreed

/-- The induction is on the records the limit still allows. -/
theorem walk_blocks (k : CursorHandle) (left : Nat) (hl : (s.baton.limit - s.i).toNat = left)
    (hs : WalkBlocks c s) (hp : Marked pair) (h : Runs (walk k pair s) t s') :
    WalkBlocks (c + returned t) s' := by
  induction left using Nat.strongRecOn generalizing pair s t c with
  | ind left ih =>
    rw [walk] at h
    by_cases hlt : s.i < s.baton.limit
    · rw [if_pos hlt] at h
      obtain ⟨⟨rc, bytes⟩, t, rfl, h⟩ := h
      by_cases hc : rc = 0
      · subst hc
        simp only [↓reduceIte] at h
        have hs' : WalkBlocks c { s with i := s.i + 1, rc := 0 } := ⟨hs.size, hs.fresh, hs.freed⟩
        obtain ⟨hpush, hmarked⟩ := hs'.push hp s.baton.flags bytes
        rw [returned_cons, ← Nat.add_assoc]
        exact ih _ (by
          simp only [CursorLocals.push, CursorLocals.allocPair, EIODbBaton.pushRecord]
          omega) rfl hpush hmarked h
      · simp only [hc, ↓reduceIte, runs_ret] at h
        obtain ⟨rfl, rfl⟩ := h
        have hnone : returned [(⟨.cursorGet k pair.1.dbt pair.2.dbt s.baton.flags, (rc, bytes)⟩ :
            BdbEvent δ)] = 0 := by
          simp [BdbEvent.returned, hc]
        rw [hnone]
        exact ⟨hs.size, hs.fresh, hs.freed⟩
    · rw [if_neg hlt] at h
      obtain ⟨rfl, rfl⟩ := h
      exact ⟨hs.size, hs.fresh, hs.freed⟩

theorem cursorError_blocks (hs : WalkBlocks c s) (h : Runs (cursorError s) t s') :
    WalkBlocks c s' ∧ returned t = 0 := by
  cases hk : s.cursor with
  | some k =>
    obtain ⟨rc, rfl, rfl⟩ := cursorError_runs hk h
    exact ⟨⟨hs.size, hs.fresh, hs.freed⟩, rfl⟩
  | none =>
    simp only [cursorError, hk] at h
    obtain ⟨rfl, rfl⟩ := h
    exact ⟨hs, rfl⟩

theorem positionAndWalk_blocks {k : CursorHandle} (hs : WalkBlocks c s) (hp : Marked pair)
    (h : Runs (positionAndWalk k pair s) t s') : WalkBlocks (c + 1 + returned t) s' := by
  rw [positionAndWalk, CursorLocals.copyKey, runs_bind] at h
  obtain ⟨t₁, r, t₂, hload, h, rfl⟩ := h
  obtain ⟨e, v, t₃, hcontents, ⟨rfl, rfl⟩, rfl⟩ := (runs_bind _ _ _ _).mp hload
  have hkey : WalkBlocks (c + 1) (s.storeKey pair.1 v).2 := by
    refine ⟨?_, hs.fresh.malloc, ?_⟩
    · have hn := hs.size
      change s.baton.ledger.size + 1 = c + 1 + 2 * s.baton.records.length
      omega
    · change s.baton.ledger.malloc.freed = []
      simpa using hs.freed
  have hquiet : returned e = 0 := by
    cases contents_calls hcontents with
    | inl hnone => rw [hnone]; rfl
    | inr hone => obtain ⟨p, len, rfl⟩ := hone; rfl
  rw [List.append_nil, returned_append, hquiet, Nat.zero_add]
  simp only [Prog.call_bind, Prog.ret_bind, runs_call] at h
  obtain ⟨⟨rc, bytes⟩, t, rfl, h⟩ := h
  by_cases hc : rc = 0
  · subst hc
    simp only [ne_eq, not_true_eq_false, ↓reduceIte, runs_bind] at h
    obtain ⟨t₄, s₁, t₅, hwalk, herror, rfl⟩ := h
    have hgot : WalkBlocks (c + 1) { (s.storeKey pair.1 v).2 with rc := 0 } :=
      ⟨hkey.size, hkey.fresh, hkey.freed⟩
    have hstored : Marked ((s.storeKey pair.1 v).1, pair.2) := hp
    obtain ⟨hpush, hmarked⟩ := hgot.push hstored s.baton.initFlag bytes
    obtain ⟨hs', hclose⟩ := cursorError_blocks (walk_blocks k _ rfl hpush hmarked hwalk) herror
    rw [returned_cons, returned_append, hclose, Nat.add_zero, ← Nat.add_assoc]
    exact hs'
  · simp only [ne_eq, hc, not_false_eq_true, ↓reduceIte] at h
    have hfailed : WalkBlocks (c + 1)
        (({ (s.storeKey pair.1 v).2 with rc := rc } : CursorLocals δ).setStatus rc) :=
      ⟨hkey.size, hkey.fresh, hkey.freed⟩
    obtain ⟨hs', hclose⟩ := cursorError_blocks hfailed h
    rw [returned_cons, hclose]
    simpa [BdbEvent.returned, hc] using hs'

/-- The locals after `n` cursors have been opened and their gets have returned `m` blocks: each
cursor took a pair and a copy of the key, and before the first of them nothing was allocated. -/
structure CursorBlocks (n m : Nat) (s : CursorLocals δ) : Prop where
  walk : WalkBlocks (3 * n + m) s
  cursor : s.cursor = none
  untouched : n = 0 → s.baton.records = [] ∧ s.key = none ∧ s.val = none ∧ m = 0

theorem positionAndWalk_opened {k : CursorHandle} (hk : s.cursor = some k)
    (h : Runs (positionAndWalk k pair s) t s') : t.countP BdbEvent.opened = 0 ∧ s'.cursor = none := by
  obtain ⟨mid, m, rfl, hg, hcur, -⟩ := positionAndWalk_runs hk h
  refine ⟨?_, hcur⟩
  rw [List.countP_eq_zero]
  intro e he
  cases List.mem_append.mp he with
  | inl hmid =>
    have hcall := hg.calls (P := fun c => ∀ db x, c ≠ .cursor db x) (fun _ _ _ _ => nofun)
      (fun _ _ _ _ _ _ => nofun) e hmid
    obtain ⟨c, r⟩ := e
    cases c with
    | cursor db x => exact absurd rfl (hcall db x)
    | _ => exact Bool.false_ne_true
  | inr hclose => rw [List.mem_singleton.mp hclose]; exact Bool.false_ne_true

theorem cursorGetBody_blocks {n m : Nat} (hs : CursorBlocks n m s)
    (h : Runs (cursorGetBody dbObj x s) t s') :
    CursorBlocks (n + t.countP BdbEvent.opened) (m + returned t) s' := by
  simp only [cursorGetBody, Prog.call_bind, Prog.ret_bind, runs_call] at h
  obtain ⟨⟨rc, k⟩, t, rfl, h⟩ := h
  by_cases hc : rc = 0
  · subst hc
    simp only [ne_eq, not_true_eq_false, ↓reduceIte] at h
    have hopen : WalkBlocks (3 * n + m) { s with rc := 0, cursor := some k } :=
      ⟨hs.walk.size, hs.walk.fresh, hs.walk.freed⟩
    obtain ⟨hpair, hmarked⟩ := hopen.allocPair
    obtain ⟨hcount, hcur⟩ := positionAndWalk_opened (by rfl) h
    have hwalk := positionAndWalk_blocks hpair hmarked h
    have hone : (⟨.cursor dbObj._db x, (0, k)⟩ :: t : BdbTrace δ).countP BdbEvent.opened = 1 := by
      rw [List.countP_cons, hcount]
      rfl
    have hreturned : returned (⟨.cursor dbObj._db x, (0, k)⟩ :: t : BdbTrace δ) = returned t :=
      Nat.zero_add _
    have hsum : 3 * n + m + 2 + 1 + returned t = 3 * (n + 1) + (m + returned t) := by omega
    rw [hone, hreturned]
    exact ⟨hsum ▸ hwalk, hcur, fun h0 => absurd h0 (Nat.succ_ne_zero n)⟩
  · simp only [ne_eq, hc, not_false_eq_true, ↓reduceIte, cursorError, CursorLocals.setStatus,
      hs.cursor] at h
    obtain ⟨rfl, rfl⟩ := h
    have hnone : [(⟨.cursor dbObj._db x, (rc, k)⟩ : BdbEvent δ)].countP BdbEvent.opened = 0 := by
      simp [BdbEvent.opened, hc]
    rw [hnone]
    exact ⟨⟨hs.walk.size, hs.walk.fresh, hs.walk.freed⟩, rfl, hs.untouched⟩

end Walk

/-- `if (key != NULL) free(key)`. -/
def Ledger.freeStruct (l : Ledger) : Option (DbtPtr δ) → Ledger
  | some p => l.free p.block
  | none => l

theorem Ledger.Fresh.freeStruct {l : Ledger} (h : l.Fresh) (o : Option (DbtPtr δ)) :
    (l.freeStruct o).Fresh := by
  cases o with
  | none => exact h
  | some p => exact h.free p.block

@[simp] theorem size_freeStruct (l : Ledger) (o : Option (DbtPtr δ)) :
    (l.freeStruct o).size = l.size := by
  cases o <;> rfl

theorem freed_freeStruct (l : Ledger) (o : Option (DbtPtr δ)) :
    (l.freeStruct o).freed.length ≤ l.freed.length + 1 := by
  cases o with
  | none => exact Nat.le_succ _
  | some p => simp [Ledger.freeStruct]

/-- After `TXN_END` the scratch pair is freed. -/
theorem cursorGetOut_ledger (s : CursorLocals δ) :
    (cursorGetOut s).ledger = (s.baton.ledger.freeStruct s.key).freeStruct s.val := by
  rw [cursorGetOut]
  cases s.key <;> cases s.val <;> rfl

/-! ## The whole request -/

section Settling

variable {n : Nat}

theorem get_settled_iff {b : EIODbBaton δ} (key : Dbt δ) (flags : Int) (h : GetBlocks n b) :
    Settled (.get key flags) b ↔ n = 0 := by
  have hfreed : (b.ledger.read b.val.data).freed = [] := by simpa using h.fetched.freed
  constructor
  · intro hs
    have hle := hs.balanced.size_le (h.fetched.fresh.read b.val.data)
    rw [Request.settle, hfreed, Ledger.size_read, h.fetched.size] at hle
    exact Nat.le_zero.mp hle
  · intro hn
    refine ⟨?_, by simp [h.records], Ledger.unread_of_not_freed hfreed⟩
    apply Ledger.balanced_of_size (h.fetched.fresh.read b.val.data)
    rw [Ledger.size_read, h.fetched.size, hn]

theorem putIf_settled_iff {s : PutIfLocals δ} (key val oldVal : Dbt δ) (flags : Int)
    (h : PutIfBlocks n s) :
    Settled (.putIf key val oldVal flags)
      { s.baton with ledger := s.baton.ledger.freeData s.oldVal.data } ↔ n ≤ 1 := by
  have hsize := h.fetched.size
  have hfresh := h.fetched.fresh
  have hfreed := h.fetched.freed
  cases h.fetched.data with
  | inl hnone =>
    -- nothing was fetched, and NULL is freed
    obtain ⟨rfl, hd⟩ := hnone
    rw [hd]
    refine iff_of_true ⟨?_, by simp [h.records], ?_⟩ (Nat.zero_le 1)
    · exact Ledger.balanced_of_size hfresh hsize
    · exact Ledger.unread_of_not_freed hfreed
  | inr hlast =>
    obtain ⟨b, v, rfl, hd⟩ := hlast
    rw [hd]
    constructor
    · intro hs
      have hle := hs.balanced.size_le (hfresh.free b)
      change s.baton.ledger.size ≤ (s.baton.ledger.free b).freed.length at hle
      rw [Ledger.freed_free, hfreed, hsize] at hle
      exact hle
    · intro hn
      obtain rfl : b = 0 := Nat.le_zero.mp (Nat.le_of_succ_le_succ hn)
      refine ⟨?_, by simp [h.records], ?_⟩
      · exact Ledger.balanced_free hfresh hsize hfreed
      · exact Ledger.unread_free hfreed 0

theorem cursorGet_settled_iff {s : CursorLocals δ} (key : Dbt δ) (limit initFlag flags : Int)
    {m : Nat} (h : CursorBlocks n m s) :
    Settled (.cursorGet key limit initFlag flags) (cursorGetOut s) ↔ n = 0 := by
  have hsize := h.walk.size
  have hfresh := (h.walk.fresh.freeStruct s.key).freeStruct s.val
  constructor
  · intro hs
    have hle := hs.balanced.size_le (settleRecords_fresh _ (cursorGetOut_ledger s ▸ hfresh))
    simp only [Request.settle, settleRecords_size, settleRecords_freed, cursorGetOut_ledger,
      size_freeStruct] at hle
    have hkey := freed_freeStruct s.baton.ledger s.key
    have hval := freed_freeStruct (s.baton.ledger.freeStruct s.key) s.val
    rw [h.walk.freed, List.length_nil] at hkey
    change _ ≤ _ + 2 * s.baton.records.length at hle
    omega
  · intro hn
    obtain ⟨hrec, hkey, hval, hm⟩ := h.untouched hn
    have hledger : (cursorGetOut s).ledger = s.baton.ledger := by
      rw [cursorGetOut_ledger, hkey, hval]
      rfl
    have hrec' : (cursorGetOut s).records = [] := hrec
    refine ⟨?_, by simp [hrec'], ?_⟩
    · simp only [Request.settle, hrec', hledger, List.foldl_nil]
      apply Ledger.balanced_of_size h.walk.fresh
      rw [hsize, hn, hrec, hm]
      rfl
    · simp only [Request.settle, hrec', hledger, List.foldl_nil]
      exact Ledger.unread_of_not_freed h.walk.freed

end Settling

/-- Of what a run of the worker allocated, nothing is more than the request gives back. -/
def Request.GivesBack (r : Request δ) (t : BdbTrace δ) : Prop :=
  match r with
  | .get .. => t.countP BdbEvent.got = 0
  | .putIf .. => t.countP BdbEvent.got ≤ 1
  | .cursorGet .. => t.countP BdbEvent.opened = 0
  | _ => True

theorem boundary_not_got {e : BdbEvent δ} (h : Boundary e.1) : e.got = false ∧ e.opened = false := by
  obtain ⟨c, r⟩ := e
  cases c with
  | txnBegin _ => exact ⟨rfl, rfl⟩
  | commit _ => exact ⟨rfl, rfl⟩
  | abort _ => exact ⟨rfl, rfl⟩
  | _ => exact absurd h id

theorem count_boundary {p : BdbEvent δ → Bool} {e : BdbEvent δ} (h : p e = false) (t : BdbTrace δ) :
    (t ++ [e]).countP p = t.countP p := by
  simp [List.countP_append, h]

theorem returned_boundary {e : BdbEvent δ} (h : Boundary e.1) (t : BdbTrace δ) :
    returned (t ++ [e]) = returned t := by
  obtain ⟨c, r⟩ := e
  rw [returned_append]
  cases c with
  | txnBegin _ => rfl
  | commit _ => rfl
  | abort _ => rfl
  | _ => exact absurd h id

/-- The baton of a put or a del holds nothing. -/
theorem idle_settled {r : Request δ} {b : EIODbBaton δ} (hs : r.settle b = b.ledger)
    (hl : b.ledger = {}) (hr : b.records = []) : Settled r b where
  balanced := by rw [hs, hl]; exact nofun
  unlisted := by simp [hr]
  unread := by rw [hs, hl]; exact Ledger.unread_of_not_freed rfl

theorem fetched_nothing : Fetched 0 {} (.null : Data δ) := ⟨rfl, rfl, rfl, .inl ⟨rfl, rfl⟩⟩

theorem closed_settled {dbObj : Db} (ho : dbObj._db = none) {r : Request δ} {t : BdbTrace δ}
    {baton : EIODbBaton δ} (h : Runs (r.worker dbObj r.baton) t baton) :
    Settled r baton ∧ r.GivesBack t := by
  rw [worker_closed ho] at h
  obtain ⟨rfl, rfl⟩ := h
  cases r with
  | putIf key val oldVal flags => exact ⟨idle_settled rfl rfl rfl, Nat.zero_le 1⟩
  | _ => exact ⟨idle_settled rfl rfl rfl, by first | rfl | trivial⟩

section Workers

variable {dbObj : Db} {t : BdbTrace δ} {b' : EIODbBaton δ}

theorem eioGet_blocks (ho : dbObj._db ≠ none) {b : EIODbBaton δ} (hl : b.ledger = {})
    (hd : b.val.data = .null) (hr : b.records = []) (h : Runs (eioGet dbObj b) t b') :
    GetBlocks (t.countP BdbEvent.got) b' := by
  rw [eioGet, if_neg ho] at h
  refine txn_history (J := fun t b => GetBlocks (t.countP BdbEvent.got) b) ?_ ?_ ?_ h ?_
  · exact fun t c s hs => ⟨hs.flags, hs.fetched, hs.records⟩
  · intro t e s he hs
    rwa [count_boundary (boundary_not_got he).1]
  · intro t x s b s₁ hs hb
    rw [List.countP_append]
    exact getBody_blocks hs hb
  · exact ⟨rfl, by rw [hl, hd]; exact fetched_nothing, hr⟩

theorem eioPutIf_blocks (ho : dbObj._db ≠ none) {b : EIODbBaton δ} (hl : b.ledger = {})
    (hr : b.records = []) (h : Runs (eioPutIf dbObj b) t b') :
    ∃ s, PutIfBlocks (t.countP BdbEvent.got) s ∧
      b' = { s.baton with ledger := s.baton.ledger.freeData s.oldVal.data } := by
  rw [eioPutIf, if_neg ho, runs_bind] at h
  obtain ⟨t₁, s, t₂, h, ⟨rfl, rfl⟩, rfl⟩ := h
  rw [List.append_nil]
  refine ⟨s, ?_, rfl⟩
  refine txn_history (J := fun t s => PutIfBlocks (t.countP BdbEvent.got) s) ?_ ?_ ?_ h ?_
  · exact fun t c s hs => hs.setStatus c
  · intro t e s he hs
    rwa [count_boundary (boundary_not_got he).1]
  · intro t x s b s₁ hs hb
    rw [List.countP_append]
    exact putIfBody_blocks hs hb
  · exact ⟨rfl, by rw [hl]; exact fetched_nothing, hr⟩

theorem eioCursorGet_blocks (ho : dbObj._db ≠ none) {b : EIODbBaton δ} (hl : b.ledger = {})
    (hr : b.records = []) (h : Runs (eioCursorGet dbObj b) t b') :
    ∃ s, CursorBlocks (t.countP BdbEvent.opened) (returned t) s ∧ b' = cursorGetOut s := by
  rw [eioCursorGet, if_neg ho, runs_bind] at h
  obtain ⟨t₁, s, t₂, h, ⟨rfl, rfl⟩, rfl⟩ := h
  rw [List.append_nil]
  refine ⟨s, ?_, rfl⟩
  refine txn_history (J := fun t s => CursorBlocks (t.countP BdbEvent.opened) (returned t) s)
    ?_ ?_ ?_ h ?_
  · exact fun t c s hs => ⟨⟨hs.walk.size, hs.walk.fresh, hs.walk.freed⟩, hs.cursor, hs.untouched⟩
  · intro t e s he hs
    rwa [count_boundary (boundary_not_got he).2, returned_boundary he]
  · intro t x s b s₁ hs hb
    rw [List.countP_append, returned_append]
    exact cursorGetBody_blocks hs hb
  · refine ⟨⟨?_, ?_, ?_⟩, rfl, fun _ => ⟨hr, rfl, rfl, rfl⟩⟩
    · rw [hl, hr]; rfl
    · rw [hl]; rfl
    · rw [hl]; rfl

/-- A put and a del only set the status. -/
theorem onlyStatus_settled {body : Option TxnHandle → EIODbBaton δ → BdbProg δ (EIODbBaton δ)}
    (hbody : ∀ x b t b', Runs (body x b) t b' → b'.ledger = b.ledger ∧ b'.records = b.records)
    {b : EIODbBaton δ} (hl : b.ledger = {}) (hr : b.records = [])
    (h : Runs (txn dbObj EIODbBaton.statusVar body b) t b') :
    b'.ledger = {} ∧ b'.records = [] := by
  apply txn_history (J := fun _ b => b.ledger = {} ∧ b.records = []) _ _ _ h ⟨hl, hr⟩
  · exact fun _ _ _ hs => hs
  · exact fun _ _ _ _ hs => hs
  · intro _ x s t s₁ hs hb
    obtain ⟨hledger, hrecords⟩ := hbody x s t s₁ hb
    exact ⟨hledger.trans hs.1, hrecords.trans hs.2⟩

theorem eioPut_blocks (ho : dbObj._db ≠ none) {b : EIODbBaton δ} (hl : b.ledger = {})
    (hr : b.records = []) (h : Runs (eioPut dbObj b) t b') :
    b'.ledger = {} ∧ b'.records = [] := by
  rw [eioPut, if_neg ho] at h
  apply onlyStatus_settled _ hl hr h
  intro x b t b' hb
  obtain ⟨c, _, rfl, rfl, rfl⟩ := hb
  exact ⟨rfl, rfl⟩

theorem eioDel_blocks (ho : dbObj._db ≠ none) {b : EIODbBaton δ} (hl : b.ledger = {})
    (hr : b.records = []) (h : Runs (eioDel dbObj b) t b') :
    b'.ledger = {} ∧ b'.records = [] := by
  rw [eioDel, if_neg ho] at h
  apply onlyStatus_settled _ hl hr h
  intro x b t b' hb
  obtain ⟨c, _, rfl, rfl, rfl⟩ := hb
  exact ⟨rfl, rfl⟩

end Workers

/-- For every request, and every sequence of results of the calls it makes, the ledger is settled
when the baton is deleted exactly where the request gives back what was allocated. -/
theorem ledger_settled_iff (dbObj : Db) (r : Request δ) (t : BdbTrace δ) (baton : EIODbBaton δ)
    (h : Runs (r.worker dbObj r.baton) t baton) : Settled r baton ↔ r.GivesBack t := by
  by_cases ho : dbObj._db = none
  · obtain ⟨hs, hg⟩ := closed_settled ho h
    exact iff_of_true hs hg
  · cases r with
    | get key flags => exact get_settled_iff key flags (eioGet_blocks ho rfl rfl rfl h)
    | put key val flags =>
      obtain ⟨hl, hr⟩ := eioPut_blocks ho rfl rfl h
      exact iff_of_true (idle_settled rfl hl hr) trivial
    | putIf key val oldVal flags =>
      obtain ⟨s, hs, rfl⟩ := eioPutIf_blocks ho rfl rfl h
      exact putIf_settled_iff key val oldVal flags hs
    | del key flags =>
      obtain ⟨hl, hr⟩ := eioDel_blocks ho rfl rfl h
      exact iff_of_true (idle_settled rfl hl hr) trivial
    | cursorGet key limit initFlag flags =>
      obtain ⟨s, hs, rfl⟩ := eioCursorGet_blocks ho rfl rfl h
      exact cursorGet_settled_iff key limit initFlag flags hs

/-- Every key has the value `v`, and every call succeeds. -/
def alwaysV : BdbOracle Bytes := fun _ call =>
  match call with
  | .get .. => (0, [118])
  | .load p _ => p
  | call => replyCode 0 call

def getOne : Request Bytes := .get (buffer [107]) 0

/-- `putIf` of `w` for `v`. -/
def putIfOne : Request Bytes := .putIf (buffer [107]) (buffer [119]) (buffer [118]) 0

theorem putIfOne_settled :
    ∃ t baton, Runs (putIfOne.worker openDb putIfOne.baton) t baton ∧
      (Settled putIfOne baton ↔ putIfOne.GivesBack t) :=
  ⟨_, _, runs_exec alwaysV _, ledger_settled_iff openDb putIfOne _ _ (runs_exec alwaysV _)⟩

/-- The value that a get found is never freed. -/
theorem getOne_leaks :
    ∃ t baton, Runs (getOne.worker openDb getOne.baton) t baton ∧ ¬ Settled getOne baton := by
  refine ⟨_, _, runs_exec alwaysV _, fun h => ?_⟩
  have hfreed := h.balanced 0 (by decide +kernel)
  exact absurd hfreed (by decide +kernel)

end NodeBdb
