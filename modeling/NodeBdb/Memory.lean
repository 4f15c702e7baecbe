import NodeBdb.Serving
import NodeBdb.Blocks
import Mathlib.Data.Finset.Card

/-!
# The heap under the requests

Not everything that is allocated is given back, but nothing else goes wrong: replayed on a heap,
each access of a request finds its block allocated, and each block is freed once at most. What is
left at the end can be counted in the calls of the worker: the value of every get, but for
`EIO_PutIf` that of the last one; of a walk what every get of the cursor returned, and for every
cursor that was opened a pair of structs and the copy of the key, but for the last pair.
-/

namespace NodeBdb

open Interaction Transition

variable {δ : Type}

/-! ## Heaps -/

/-- An access to a heap in which the blocks `live` are allocated; none if the access is a fault. -/
def BlockEvent.apply (live : Finset Block) : BlockEvent → Option (Finset Block)
  | .malloc b => if b ∈ live then none else some (insert b live)
  | .free b => if b ∈ live then some (live.erase b) else none
  | .read b => if b ∈ live then some live else none

namespace Ledger

/-- The blocks that are allocated after all accesses of the ledger; none if one is a fault. -/
def heap (l : Ledger) : Option (Finset Block) := run BlockEvent.apply ∅ l.log

variable {l : Ledger} {live : Finset Block} {b : Block}

theorem heap_malloc (h : l.heap = some live) (hb : l.next ∉ live) :
    l.malloc.heap = some (insert l.next live) := by
  rw [heap] at h
  rw [heap, malloc, run_snoc, h]
  exact if_neg hb

theorem heap_free (h : l.heap = some live) (hb : b ∈ live) :
    (l.free b).heap = some (live.erase b) := by
  rw [heap] at h
  rw [heap, free, run_snoc, h]
  exact if_pos hb

theorem heap_deref (h : l.heap = some live) (hb : b ∈ live) : (l.deref b).heap = some live := by
  rw [heap] at h
  rw [heap, deref, run_snoc, h]
  exact if_pos hb

/-- Every block that was allocated still is. -/
def Intact (l : Ledger) : Prop := l.heap = some (Finset.range l.size)

theorem Intact.malloc (h : l.Intact) : l.malloc.Intact := by
  have hn : l.next ∉ Finset.range l.size := Finset.notMem_range_self
  rw [Intact, heap_malloc h hn, size_malloc, Finset.range_add_one]
  rfl

end Ledger

/-- The block of the data, if it is one, has the property. -/
def Data.Lies (p : Block → Prop) : Data δ → Prop
  | .block b _ => p b
  | _ => True

theorem Data.Lies.imp {p q : Block → Prop} {d : Data δ} (h : d.Lies p) (hpq : ∀ b, p b → q b) :
    d.Lies q := by
  cases d with
  | block b bytes => exact hpq b h
  | _ => trivial

theorem keep_lies {p : Block → Prop} {dbt : Dbt δ} (h : dbt.data.Lies p) (bytes : Bytes) :
    (dbt.keep bytes).data.Lies p := by
  unfold Dbt.keep
  cases hd : dbt.data with
  | block b old => rw [hd] at h; exact h
  | _ => trivial

theorem heap_read {l : Ledger} {live : Finset Block} {d : Data δ} (h : l.heap = some live)
    (hd : d.Lies (· ∈ live)) : (l.read d).heap = some live := by
  cases d with
  | block b bytes => exact Ledger.heap_deref h hd
  | _ => exact h

theorem Ledger.Intact.read {l : Ledger} {d : Data δ} (h : l.Intact) (hd : d.Lies (· < l.size)) :
    (l.read d).Intact := by
  rw [Intact, size_read]
  exact heap_read h (hd.imp fun b hb => Finset.mem_range.mpr hb)

theorem Ledger.Intact.receive {l : Ledger} (h : l.Intact) (dbt : Dbt δ) (bytes : Bytes) :
    (dbt.receive bytes l).2.Intact := by
  by_cases hf : dbt.flags = dbDbtMalloc
  · rw [receive_marked hf]
    exact h.malloc
  · rw [Dbt.receive, if_neg hf]
    exact h

theorem intact_empty : ({} : Ledger).Intact := rfl

theorem Fetched.lies {n : Nat} {l : Ledger} {d : Data δ} (h : Fetched n l d) :
    d.Lies (· < l.size) := by
  cases h.data with
  | inl hnone =>
    rw [hnone.2]
    trivial
  | inr hlast =>
    obtain ⟨b, v, hn, rfl⟩ := hlast
    change b < l.size
    rw [h.size, hn]
    exact Nat.lt_succ_self b

/-! ## Single values -/

section Values

variable {dbObj : Db} {x : Option TxnHandle} {t : BdbTrace δ}

theorem getBody_intact {b b' : EIODbBaton δ} (hb : b.ledger.Intact)
    (h : Runs (getBody dbObj x b) t b') : b'.ledger.Intact := by
  simp only [getBody, Prog.call_bind, Prog.ret_bind, runs_call] at h
  obtain ⟨⟨c, v⟩, t', rfl, h⟩ := h
  by_cases hc : c = 0
  · simp only [hc, ↓reduceIte, Prog.pure_eq, runs_ret] at h
    obtain ⟨rfl, rfl⟩ := h
    exact hb.receive b.val v
  · simp only [hc, ↓reduceIte, Prog.pure_eq, runs_ret] at h
    obtain ⟨rfl, rfl⟩ := h
    exact hb

/-- The comparison reads the block that the get has just returned. -/
theorem compareAndPut_intact {s s' : PutIfLocals δ} (hs : s.baton.ledger.Intact)
    (hd : s.oldVal.data.Lies (· < s.baton.ledger.size)) (h : Runs (compareAndPut dbObj x s) t s') :
    s'.baton.ledger.Intact := by
  rw [compareAndPut] at h
  split at h
  · obtain ⟨rfl, rfl⟩ := h
    exact hs
  · rw [runs_bind] at h
    obtain ⟨e, w, t', he, h, rfl⟩ := h
    dsimp only at h
    split at h
    · obtain ⟨rfl, rfl⟩ := h
      exact hs.read hd
    · obtain ⟨c, _, rfl, rfl, rfl⟩ := h
      exact hs.read hd

theorem putIfBody_intact {n : Nat} {s s' : PutIfLocals δ} (hb : PutIfBlocks n s)
    (hs : s.baton.ledger.Intact) (h : Runs (putIfBody dbObj x s) t s') : s'.baton.ledger.Intact := by
  simp only [putIfBody, Prog.call_bind, Prog.ret_bind, runs_call] at h
  obtain ⟨⟨c, v⟩, t', rfl, h⟩ := h
  by_cases hc : c = 0
  · simp only [hc, ↓reduceIte] at h
    exact compareAndPut_intact (hs.receive s.oldVal v) (hb.fetched.receive hb.flags v).lies h
  · simp only [hc, ↓reduceIte, Prog.pure_eq, runs_ret] at h
    obtain ⟨rfl, rfl⟩ := h
    exact hs

theorem eioGet_intact (ho : dbObj._db ≠ none) {b b' : EIODbBaton δ} (hl : b.ledger = {})
    (h : Runs (eioGet dbObj b) t b') : b'.ledger.Intact := by
  rw [eioGet, if_neg ho] at h
  apply txn_history (J := fun _ (b : EIODbBaton δ) => b.ledger.Intact) _ _ _ h
  · rw [hl]
    exact intact_empty
  · exact fun _ _ _ hs => hs
  · exact fun _ _ _ _ hs => hs
  · exact fun _ _ _ _ _ hs hb => getBody_intact hs hb

theorem eioPutIf_intact (ho : dbObj._db ≠ none) {b b' : EIODbBaton δ} (hl : b.ledger = {})
    (hr : b.records = []) (h : Runs (eioPutIf dbObj b) t b') :
    ∃ s, PutIfBlocks (t.countP BdbEvent.got) s ∧ s.baton.ledger.Intact ∧
      b' = { s.baton with ledger := s.baton.ledger.freeData s.oldVal.data } := by
  rw [eioPutIf, if_neg ho, runs_bind] at h
  obtain ⟨t₁, s, t₂, h, ⟨rfl, rfl⟩, rfl⟩ := h
  rw [List.append_nil]
  have hboth : PutIfBlocks (t₁.countP BdbEvent.got) s ∧ s.baton.ledger.Intact := by
    apply txn_history (J := fun t (s : PutIfLocals δ) =>
      PutIfBlocks (t.countP BdbEvent.got) s ∧ s.baton.ledger.Intact) _ _ _ h
    · have hfetched : Fetched 0 b.ledger (.null : Data δ) := by rw [hl]; exact fetched_nothing
      have hintact : b.ledger.Intact := by rw [hl]; exact intact_empty
      exact ⟨⟨rfl, hfetched, hr⟩, hintact⟩
    · exact fun t c s hs => ⟨hs.1.setStatus c, hs.2⟩
    · intro t e s he hs
      rwa [count_boundary (boundary_not_got he).1]
    · intro t x s b s₁ hs hb
      rw [List.countP_append]
      exact ⟨putIfBody_blocks hs.1 hb, putIfBody_intact hs.1 hs.2 hb⟩
  exact ⟨s, hboth.1, hboth.2, rfl⟩

end Values

/-! ## Records -/

/-- The blocks of the structs of the records. -/
def structs (records : List (DbtPtr δ × DbtPtr δ)) : List Block :=
  records.flatMap fun r => [r.1.block, r.2.block]

@[simp] theorem structs_nil : structs ([] : List (DbtPtr δ × DbtPtr δ)) = [] := rfl
@[simp] theorem structs_cons (r : DbtPtr δ × DbtPtr δ) (records : List (DbtPtr δ × DbtPtr δ)) :
    structs (r :: records) = r.1.block :: r.2.block :: structs records := rfl
@[simp] theorem structs_append (records records' : List (DbtPtr δ × DbtPtr δ)) :
    structs (records ++ records') = structs records ++ structs records' := List.flatMap_append ..

/-- The data of both DBTs of each record has the property. -/
def DataLies (p : Block → Prop) (records : List (DbtPtr δ × DbtPtr δ)) : Prop :=
  ∀ r ∈ records, r.1.dbt.data.Lies p ∧ r.2.dbt.data.Lies p

theorem DataLies.imp {p q : Block → Prop} {records : List (DbtPtr δ × DbtPtr δ)}
    (h : DataLies p records) (hpq : ∀ b, p b → q b) : DataLies q records :=
  fun r hr => ⟨(h r hr).1.imp hpq, (h r hr).2.imp hpq⟩

/-- The block is allocated and is not one of the structs. -/
def Clear (l : Ledger) (records : List (DbtPtr δ × DbtPtr δ)) (scratch : List Block) (b : Block) :
    Prop := b < l.size ∧ b ∉ structs records ++ scratch

/-- The records and the scratch pair are in structs of their own, and their data in no struct. -/
structure Owns (l : Ledger) (records : List (DbtPtr δ × DbtPtr δ)) (scratch : List Block) : Prop where
  intact : l.Intact
  apart : (structs records ++ scratch).Nodup
  below : ∀ b ∈ structs records ++ scratch, b < l.size
  data : DataLies (Clear l records scratch) records

section Owning

variable {l : Ledger} {records : List (DbtPtr δ × DbtPtr δ)} {scratch : List Block}

theorem owns_nothing : Owns {} ([] : List (DbtPtr δ × DbtPtr δ)) [] where
  intact := intact_empty
  apart := List.nodup_nil
  below := by simp
  data := by simp [DataLies]

/-- The scratch pair is lost where the pointers to it are overwritten. -/
theorem Owns.lose (h : Owns l records scratch) : Owns l records [] where
  intact := h.intact
  apart := by
    rw [List.append_nil]
    exact (List.nodup_append.mp h.apart).1
  below b hb := by
    rw [List.append_nil] at hb
    exact h.below b (List.mem_append_left _ hb)
  data := by
    apply h.data.imp
    intro b hb
    refine ⟨hb.1, fun hm => hb.2 (List.mem_append_left _ ?_)⟩
    rwa [List.append_nil] at hm

/-- A block that nothing points to yet. -/
theorem Owns.malloc (h : Owns l records scratch) : Owns l.malloc records scratch where
  intact := h.intact.malloc
  apart := h.apart
  below b hb := Nat.lt_succ_of_lt (h.below b hb)
  data := h.data.imp fun _ hb => ⟨Nat.lt_succ_of_lt hb.1, hb.2⟩

/-- One more struct, in a new block. -/
theorem Owns.alloc (h : Owns l records scratch) : Owns l.malloc records (scratch ++ [l.next]) where
  intact := h.intact.malloc
  apart := by
    rw [← List.append_assoc, List.nodup_append]
    refine ⟨h.apart, List.nodup_singleton _, ?_⟩
    intro a ha b hb
    rw [List.mem_singleton.mp hb]
    exact Nat.ne_of_lt (h.below a ha)
  below b hb := by
    rw [← List.append_assoc, List.mem_append, List.mem_singleton] at hb
    cases hb with
    | inl hb => exact Nat.lt_succ_of_lt (h.below b hb)
    | inr hb => rw [hb]; exact Nat.lt_succ_self _
  data := by
    apply h.data.imp
    intro b hb
    refine ⟨Nat.lt_succ_of_lt hb.1, fun hm => ?_⟩
    rw [← List.append_assoc, List.mem_append, List.mem_singleton] at hm
    cases hm with
    | inl hm => exact hb.2 hm
    | inr hm => exact Nat.ne_of_lt hb.1 hm

theorem Clear.mono {l' : Ledger} {b : Block} (h : Clear l records scratch b) (hle : l.size ≤ l'.size) :
    Clear l' records scratch b := ⟨Nat.lt_of_lt_of_le h.1 hle, h.2⟩

/-- A new block is none of the structs. -/
theorem Owns.clear_next (h : Owns l records scratch) : Clear l.malloc records scratch l.next := by
  refine ⟨Nat.lt_succ_self _, fun hm => ?_⟩
  exact Nat.lt_irrefl _ (h.below _ hm)

/-- The scratch pair becomes a record. -/
theorem Owns.record {l' : Ledger} {k v : DbtPtr δ} {kd vd : Dbt δ}
    (h : Owns l records [k.block, v.block]) (hi : l'.Intact) (hle : l.size ≤ l'.size)
    (hk : kd.data.Lies (Clear l' records [k.block, v.block]))
    (hv : vd.data.Lies (Clear l' records [k.block, v.block])) :
    Owns l' (records ++ [({ k with dbt := kd }, { v with dbt := vd })]) [] := by
  have hstructs : structs (records ++ [({ k with dbt := kd }, { v with dbt := vd })]) ++ [] =
      structs records ++ [k.block, v.block] := by simp
  refine ⟨hi, ?_, ?_, ?_⟩
  · rw [hstructs]
    exact h.apart
  · rw [hstructs]
    exact fun b hb => Nat.lt_of_lt_of_le (h.below b hb) hle
  · intro r hr
    have hsame : ∀ b, Clear l' records [k.block, v.block] b →
        Clear l' (records ++ [({ k with dbt := kd }, { v with dbt := vd })]) [] b := by
      intro b hb
      rw [Clear, hstructs]
      exact hb
    cases List.mem_append.mp hr with
    | inl hold =>
      have hdata := h.data r hold
      exact ⟨hdata.1.imp fun b hb => hsame b (hb.mono hle),
        hdata.2.imp fun b hb => hsame b (hb.mono hle)⟩
    | inr hnew =>
      rw [List.mem_singleton.mp hnew]
      exact ⟨hk.imp hsame, hv.imp hsame⟩

end Owning

/-! ## Walks -/

section Walk

variable {dbObj : Db} {x : Option TxnHandle} {t : BdbTrace δ} {s s' : CursorLocals δ}
  {pair : DbtPtr δ × DbtPtr δ}

/-- The locals point to the scratch pair. -/
structure ScratchPair (pair : DbtPtr δ × DbtPtr δ) (s : CursorLocals δ) : Prop where
  key : s.key = some pair.1
  val : s.val = some pair.2
  marked : Marked pair
  owns : Owns s.baton.ledger s.baton.records [pair.1.block, pair.2.block]
  held : pair.1.dbt.data.Lies (Clear s.baton.ledger s.baton.records [pair.1.block, pair.2.block])

theorem allocPair_scratch (h : Owns s.baton.ledger s.baton.records []) :
    ScratchPair s.allocPair.1 s.allocPair.2 := ⟨rfl, rfl, ⟨rfl, rfl⟩, h.alloc.alloc, trivial⟩

theorem ScratchPair.push (h : ScratchPair pair s) (flags : Int) (bytes : Bytes × Bytes) :
    ScratchPair (s.push flags pair bytes).1 (s.push flags pair bytes).2 := by
  apply allocPair_scratch
  cases receiveKey_marked h.marked.1 flags bytes.1 s.baton.ledger with
  | inl hnew =>
    simp only [EIODbBaton.pushRecord, hnew.2.2, receive_marked h.marked.2]
    have hkey : Clear s.baton.ledger.malloc.malloc s.baton.records
        [pair.1.block, pair.2.block] s.baton.ledger.next :=
      h.owns.clear_next.mono (Nat.le_succ _)
    exact h.owns.record h.owns.intact.malloc.malloc (Nat.le_add_right _ 2) hkey
      h.owns.malloc.clear_next
  | inr hkept =>
    simp only [EIODbBaton.pushRecord, hkept.2.2, receive_marked h.marked.2]
    have hheld : pair.1.dbt.data.Lies
        (Clear s.baton.ledger.malloc s.baton.records [pair.1.block, pair.2.block]) :=
      h.held.imp fun b hb => hb.mono (Nat.le_succ _)
    exact h.owns.record h.owns.intact.malloc (Nat.le_succ _) (keep_lies hheld bytes.1)
      h.owns.clear_next

/-- The induction is on the records the limit still allows. -/
theorem walk_scratch (k : CursorHandle) (left : Nat) (hl : (s.baton.limit - s.i).toNat = left)
    (hs : ScratchPair pair s) (h : Runs (walk k pair s) t s') : ∃ pair', ScratchPair pair' s' := by
  induction left using Nat.strongRecOn generalizing pair s t with
  | ind left ih =>
    rw [walk] at h
    by_cases hlt : s.i < s.baton.limit
    · rw [if_pos hlt] at h
      obtain ⟨⟨rc, bytes⟩, t, rfl, h⟩ := h
      by_cases hc : rc = 0
      · subst hc
        simp only [↓reduceIte] at h
        have hs' : ScratchPair pair { s with i := s.i + 1, rc := 0 } :=
          ⟨hs.key, hs.val, hs.marked, hs.owns, hs.held⟩
        exact ih _ (by
          simp only [CursorLocals.push, CursorLocals.allocPair, EIODbBaton.pushRecord]
          omega) rfl (hs'.push s.baton.flags bytes) h
      · simp only [hc, ↓reduceIte, runs_ret] at h
        obtain ⟨rfl, rfl⟩ := h
        exact ⟨pair, hs.key, hs.val, hs.marked, hs.owns, hs.held⟩
    · rw [if_neg hlt] at h
      obtain ⟨rfl, rfl⟩ := h
      exact ⟨pair, hs.key, hs.val, hs.marked, hs.owns, hs.held⟩

theorem cursorError_scratch (hs : ScratchPair pair s) (h : Runs (cursorError s) t s') :
    ScratchPair pair s' := by
  cases hk : s.cursor with
  | some k =>
    obtain ⟨rc, rfl, rfl⟩ := cursorError_runs hk h
    exact ⟨hs.key, hs.val, hs.marked, hs.owns, hs.held⟩
  | none =>
    simp only [cursorError, hk] at h
    obtain ⟨rfl, rfl⟩ := h
    exact hs

theorem positionAndWalk_scratch {k : CursorHandle} (hs : ScratchPair pair s)
    (h : Runs (positionAndWalk k pair s) t s') : ∃ pair', ScratchPair pair' s' := by
  rw [positionAndWalk, CursorLocals.copyKey, runs_bind] at h
  obtain ⟨t₁, r, t₂, hload, h, rfl⟩ := h
  obtain ⟨e, v, t₃, -, ⟨rfl, rfl⟩, rfl⟩ := (runs_bind _ _ _ _).mp hload
  have hkey : ScratchPair ((s.storeKey pair.1 v).1, pair.2) (s.storeKey pair.1 v).2 :=
    ⟨rfl, hs.val, hs.marked, hs.owns.malloc, hs.owns.clear_next⟩
  simp only [Prog.call_bind, Prog.ret_bind, runs_call] at h
  obtain ⟨⟨rc, bytes⟩, t, rfl, h⟩ := h
  by_cases hc : rc = 0
  · subst hc
    simp only [ne_eq, not_true_eq_false, ↓reduceIte, runs_bind] at h
    obtain ⟨t₄, s₁, t₅, hwalk, herror, rfl⟩ := h
    have hgot : ScratchPair ((s.storeKey pair.1 v).1, pair.2) { (s.storeKey pair.1 v).2 with rc := 0 } :=
      ⟨hkey.key, hkey.val, hkey.marked, hkey.owns, hkey.held⟩
    obtain ⟨pair', hs'⟩ := walk_scratch k _ rfl (hgot.push s.baton.initFlag bytes) hwalk
    exact ⟨pair', cursorError_scratch hs' herror⟩
  · simp only [ne_eq, hc, not_false_eq_true, ↓reduceIte] at h
    have hfailed : ScratchPair ((s.storeKey pair.1 v).1, pair.2)
        (({ (s.storeKey pair.1 v).2 with rc := rc } : CursorLocals δ).setStatus rc) :=
      ⟨hkey.key, hkey.val, hkey.marked, hkey.owns, hkey.held⟩
    exact ⟨_, cursorError_scratch hfailed h⟩

/-- The heap after `n` cursors have been opened: the locals point to a pair of the last one, if
there was one. -/
structure CursorHeap (n : Nat) (s : CursorLocals δ) : Prop where
  cursor : s.cursor = none
  scratch : n = 0 ∧ s.key = none ∧ s.val = none ∧ Owns s.baton.ledger s.baton.records [] ∨
    0 < n ∧ ∃ pair, ScratchPair pair s

theorem CursorHeap.owns {n : Nat} (h : CursorHeap n s) : Owns s.baton.ledger s.baton.records [] := by
  cases h.scratch with
  | inl hnone => exact hnone.2.2.2
  | inr hpair =>
    obtain ⟨-, pair, hs⟩ := hpair
    exact hs.owns.lose

theorem cursorGetBody_heap {n : Nat} (hs : CursorHeap n s) (h : Runs (cursorGetBody dbObj x s) t s') :
    CursorHeap (n + t.countP BdbEvent.opened) s' := by
  simp only [cursorGetBody, Prog.call_bind, Prog.ret_bind, runs_call] at h
  obtain ⟨⟨rc, k⟩, t, rfl, h⟩ := h
  by_cases hc : rc = 0
  · subst hc
    simp only [ne_eq, not_true_eq_false, ↓reduceIte] at h
    have hopen : Owns ({ s with rc := 0, cursor := some k } : CursorLocals δ).baton.ledger
        ({ s with rc := 0, cursor := some k } : CursorLocals δ).baton.records [] := hs.owns
    obtain ⟨hcount, hcur⟩ := positionAndWalk_opened (by rfl) h
    have hpair := positionAndWalk_scratch (allocPair_scratch hopen) h
    have hone : (⟨.cursor dbObj._db x, (0, k)⟩ :: t : BdbTrace δ).countP BdbEvent.opened = 1 := by
      rw [List.countP_cons, hcount]
      rfl
    rw [hone]
    exact ⟨hcur, .inr ⟨Nat.succ_pos n, hpair⟩⟩
  · simp only [ne_eq, hc, not_false_eq_true, ↓reduceIte, cursorError, CursorLocals.setStatus,
      hs.cursor] at h
    obtain ⟨rfl, rfl⟩ := h
    have hnone : [(⟨.cursor dbObj._db x, (rc, k)⟩ : BdbEvent δ)].countP BdbEvent.opened = 0 := by
      simp [BdbEvent.opened, hc]
    rw [hnone]
    refine ⟨rfl, ?_⟩
    cases hs.scratch with
    | inl h0 => exact .inl h0
    | inr hpair =>
      obtain ⟨hn, pair, hp⟩ := hpair
      exact .inr ⟨hn, pair, hp.key, hp.val, hp.marked, hp.owns, hp.held⟩

end Walk

/-- The worker of a walk, with what it opened and read. -/
structure Walked (t : BdbTrace δ) (s : CursorLocals δ) : Prop where
  blocks : CursorBlocks (t.countP BdbEvent.opened) (returned t) s
  heap : CursorHeap (t.countP BdbEvent.opened) s

theorem eioCursorGet_walked {dbObj : Db} (ho : dbObj._db ≠ none) {t : BdbTrace δ}
    {b b' : EIODbBaton δ} (hl : b.ledger = {}) (hr : b.records = [])
    (h : Runs (eioCursorGet dbObj b) t b') : ∃ s, Walked t s ∧ b' = cursorGetOut s := by
  rw [eioCursorGet, if_neg ho, runs_bind] at h
  obtain ⟨t₁, s, t₂, h, ⟨rfl, rfl⟩, rfl⟩ := h
  rw [List.append_nil]
  refine ⟨s, ?_, rfl⟩
  refine txn_history (J := fun t s => Walked t s) ?_ ?_ ?_ h ?_
  · intro t c s hs
    refine ⟨⟨⟨hs.blocks.walk.size, hs.blocks.walk.fresh, hs.blocks.walk.freed⟩, hs.blocks.cursor,
      hs.blocks.untouched⟩, ⟨hs.heap.cursor, ?_⟩⟩
    cases hs.heap.scratch with
    | inl h0 => exact .inl h0
    | inr hpair =>
      obtain ⟨hn, pair, hp⟩ := hpair
      exact .inr ⟨hn, pair, hp.key, hp.val, hp.marked, hp.owns, hp.held⟩
  · intro t e s he hs
    constructor
    · rw [count_boundary (boundary_not_got he).2, returned_boundary he]
      exact hs.blocks
    · rw [count_boundary (boundary_not_got he).2]
      exact hs.heap
  · intro t x s b s₁ hs hb
    constructor
    · rw [List.countP_append, returned_append]
      exact cursorGetBody_blocks hs.blocks hb
    · rw [List.countP_append]
      exact cursorGetBody_heap hs.heap hb
  · refine ⟨⟨⟨?_, ?_, ?_⟩, rfl, fun _ => ⟨hr, rfl, rfl, rfl⟩⟩, ⟨rfl, .inl ⟨rfl, rfl, rfl, ?_⟩⟩⟩
    · rw [hl, hr]; rfl
    · rw [hl]; rfl
    · rw [hl]; rfl
    · rw [hl, hr]; exact owns_nothing

/-! ## Completions -/

/-- The completion of a walk reads what the records point to before it frees their structs. -/
theorem settleRecord_heap {l : Ledger} {live : Finset Block} {r : DbtPtr δ × DbtPtr δ}
    (hl : l.heap = some live) (h1 : r.1.block ∈ live) (h2 : r.2.block ∈ live)
    (hne : r.1.block ≠ r.2.block) (hd1 : r.1.dbt.data.Lies (· ∈ live))
    (hd2 : r.2.dbt.data.Lies (· ∈ live)) :
    (l.settleRecord r).heap = some ((live.erase r.1.block).erase r.2.block) := by
  have hkey := heap_read (Ledger.heap_deref hl h1) hd1
  have hval := heap_read (Ledger.heap_deref hkey h2) hd2
  exact Ledger.heap_free (Ledger.heap_free hval h1) (Finset.mem_erase.mpr ⟨hne.symm, h2⟩)

/-- The induction is on the records that are left. -/
theorem settleRecords_heap {records : List (DbtPtr δ × DbtPtr δ)} {l : Ledger} {live : Finset Block}
    (hl : l.heap = some live) (hapart : (structs records).Nodup) (hin : ∀ b ∈ structs records, b ∈ live)
    (hdata : DataLies (fun b => b ∈ live ∧ b ∉ structs records) records) :
    ∃ live', (records.foldl Ledger.settleRecord l).heap = some live' ∧
      live'.card + 2 * records.length = live.card := by
  induction records generalizing l live with
  | nil => exact ⟨live, hl, rfl⟩
  | cons r records ih =>
    rw [structs_cons, List.nodup_cons, List.nodup_cons, List.mem_cons, not_or] at hapart
    obtain ⟨⟨hne, hkey⟩, hval, hapart⟩ := hapart
    have h1 : r.1.block ∈ live := hin _ List.mem_cons_self
    have h2 : r.2.block ∈ live := hin _ (List.mem_cons_of_mem _ List.mem_cons_self)
    have hr := hdata r List.mem_cons_self
    have hstep := settleRecord_heap hl h1 h2 hne (hr.1.imp fun _ hb => hb.1) (hr.2.imp fun _ hb => hb.1)
    -- what is left is neither of the two structs that are freed
    have hkeep : ∀ b, b ∈ live → b ≠ r.1.block → b ≠ r.2.block →
        b ∈ (live.erase r.1.block).erase r.2.block :=
      fun b hb hb1 hb2 => Finset.mem_erase.mpr ⟨hb2, Finset.mem_erase.mpr ⟨hb1, hb⟩⟩
    obtain ⟨live', hlive, hcard⟩ := ih hstep hapart
      (by
        intro b hb
        have hmem : b ∈ structs (r :: records) := by simp [hb]
        exact hkeep b (hin b hmem) (fun he => hkey (he ▸ hb)) fun he => hval (he ▸ hb))
      (by
        intro q hq
        have himp : ∀ b, b ∈ live ∧ b ∉ structs (r :: records) →
            b ∈ (live.erase r.1.block).erase r.2.block ∧ b ∉ structs records := by
          intro b hb
          simp only [structs_cons, List.mem_cons, not_or] at hb
          exact ⟨hkeep b hb.1 hb.2.1 hb.2.2.1, hb.2.2.2⟩
        have hdq := hdata q (List.mem_cons_of_mem _ hq)
        exact ⟨hdq.1.imp himp, hdq.2.imp himp⟩)
    refine ⟨live', hlive, ?_⟩
    have hcard1 := Finset.card_erase_add_one h1
    have hcard2 := Finset.card_erase_add_one (Finset.mem_erase.mpr ⟨(Ne.symm hne), h2⟩)
    rw [List.length_cons]
    omega

/-- Of what the worker allocated for a request, this many blocks are never freed. -/
def Request.leaked (r : Request δ) (t : BdbTrace δ) : Nat :=
  match r with
  | .get .. => t.countP BdbEvent.got
  | .putIf .. => t.countP BdbEvent.got - 1
  | .cursorGet .. => 3 * t.countP BdbEvent.opened + returned t - 2
  | _ => 0

/-- No access of the request is a fault, and so many blocks are left when the baton is deleted. -/
def Leaves (r : Request δ) (baton : EIODbBaton δ) (n : Nat) : Prop :=
  ∃ live, (r.settle baton).heap = some live ∧ live.card = n

theorem leaves_nothing {r : Request δ} {baton : EIODbBaton δ} (h : r.settle baton = {}) :
    Leaves r baton 0 := by
  refine ⟨∅, ?_, rfl⟩
  rw [h]
  rfl

section Settling

variable {n : Nat}

theorem get_leaves {b : EIODbBaton δ} (key : Dbt δ) (flags : Int) (h : GetBlocks n b)
    (hi : b.ledger.Intact) : Leaves (.get key flags) b n := by
  have hread := hi.read h.fetched.lies
  refine ⟨_, hread, ?_⟩
  rw [Finset.card_range, Ledger.size_read, h.fetched.size]

theorem putIf_leaves {s : PutIfLocals δ} (key val oldVal : Dbt δ) (flags : Int)
    (h : PutIfBlocks n s) (hi : s.baton.ledger.Intact) :
    Leaves (.putIf key val oldVal flags)
      { s.baton with ledger := s.baton.ledger.freeData s.oldVal.data } (n - 1) := by
  have hsize := h.fetched.size
  cases h.fetched.data with
  | inl hnone =>
    rw [hnone.2, hnone.1]
    refine ⟨_, hi, ?_⟩
    rw [Finset.card_range, hsize, hnone.1]
  | inr hlast =>
    obtain ⟨b, v, rfl, hd⟩ := hlast
    rw [hd]
    have hb : b ∈ Finset.range s.baton.ledger.size := by
      rw [hsize, Finset.mem_range]
      exact Nat.lt_succ_self b
    refine ⟨_, Ledger.heap_free hi hb, ?_⟩
    rw [Finset.card_erase_of_mem hb, Finset.card_range, hsize]

theorem cursorGet_leaves {t : BdbTrace δ} {s : CursorLocals δ} (key : Dbt δ)
    (limit initFlag flags : Int) (h : Walked t s) :
    Leaves (.cursorGet key limit initFlag flags) (cursorGetOut s)
      (3 * t.countP BdbEvent.opened + returned t - 2) := by
  have hsize := h.blocks.walk.size
  cases h.heap.scratch with
  | inl hnone =>
    obtain ⟨hopened, hkey, hval, howns⟩ := hnone
    obtain ⟨hempty, -, -, hnone⟩ := h.blocks.untouched hopened
    rw [hempty, hopened, hnone] at hsize
    rw [hopened, hnone]
    have hledger : (cursorGetOut s).ledger = s.baton.ledger := by
      rw [cursorGetOut_ledger, hkey, hval]
      rfl
    have hrec : (cursorGetOut s).records = [] := hempty
    refine ⟨Finset.range s.baton.ledger.size, ?_, ?_⟩
    · rw [Request.settle, hrec, hledger]
      exact howns.intact
    · rw [Finset.card_range, hsize]
      rfl
  | inr hpair =>
    obtain ⟨hopened, pair, hs⟩ := hpair
    have howns := hs.owns
    obtain ⟨hrecs, hscratch, hdisjoint⟩ := List.nodup_append.mp howns.apart
    have h1 : pair.1.block ∈ Finset.range s.baton.ledger.size :=
      Finset.mem_range.mpr (howns.below _ (by simp))
    have h2 : pair.2.block ∈ Finset.range s.baton.ledger.size :=
      Finset.mem_range.mpr (howns.below _ (by simp))
    have hne : pair.2.block ≠ pair.1.block := by
      intro he
      simp [he] at hscratch
    have h2' := Finset.mem_erase.mpr ⟨hne, h2⟩
    have hledger : (cursorGetOut s).ledger = (s.baton.ledger.free pair.1.block).free pair.2.block := by
      rw [cursorGetOut_ledger, hs.key, hs.val]
      rfl
    have hheap := Ledger.heap_free (Ledger.heap_free howns.intact h1) h2'
    rw [← hledger] at hheap
    have hkeep : ∀ b, b < s.baton.ledger.size → b ∉ [pair.1.block, pair.2.block] →
        b ∈ ((Finset.range s.baton.ledger.size).erase pair.1.block).erase pair.2.block := by
      intro b hb hnot
      simp only [List.mem_cons, List.not_mem_nil, or_false, not_or] at hnot
      exact Finset.mem_erase.mpr ⟨hnot.2, Finset.mem_erase.mpr ⟨hnot.1, Finset.mem_range.mpr hb⟩⟩
    obtain ⟨live', hlive, hcard⟩ := settleRecords_heap hheap hrecs
      (by
        intro b hb
        exact hkeep b (howns.below b (List.mem_append_left _ hb)) fun hm => hdisjoint b hb b hm rfl)
      (by
        apply howns.data.imp
        intro b hb
        rw [Clear, List.mem_append, not_or] at hb
        exact ⟨hkeep b hb.1 hb.2.2, hb.2.1⟩)
    refine ⟨live', hlive, ?_⟩
    rw [Finset.card_erase_of_mem h2', Finset.card_erase_of_mem h1, Finset.card_range, hsize] at hcard
    change live'.card + 2 * s.baton.records.length = _ at hcard
    omega

end Settling

/-- For every request, and every sequence of results of the calls it makes, each access finds its
block allocated, and what is left can be counted in the calls. -/
theorem request_leaves {dbObj : Db} {r : Request δ} {t : BdbTrace δ} {baton : EIODbBaton δ}
    (h : Runs (r.worker dbObj r.baton) t baton) : Leaves r baton (r.leaked t) := by
  by_cases ho : dbObj._db = none
  · rw [worker_closed ho] at h
    obtain ⟨rfl, rfl⟩ := h
    cases r <;> exact leaves_nothing rfl
  · cases r with
    | get key flags =>
      exact get_leaves key flags (eioGet_blocks ho rfl rfl rfl h) (eioGet_intact ho rfl h)
    | put key val flags => exact leaves_nothing (eioPut_blocks ho rfl rfl h).1
    | putIf key val oldVal flags =>
      obtain ⟨s, hb, hi, rfl⟩ := eioPutIf_intact ho rfl rfl h
      exact putIf_leaves key val oldVal flags hb hi
    | del key flags => exact leaves_nothing (eioDel_blocks ho rfl rfl h).1
    | cursorGet key limit initFlag flags =>
      obtain ⟨s, hs, rfl⟩ := eioCursorGet_walked ho rfl rfl h
      exact cursorGet_leaves key limit initFlag flags hs

/-! ## In the process -/

/-- Whatever a worker can be answered, it can be answered in the process. -/
theorem working_runs {t : BdbTrace Bytes} {p : BdbProg Bytes Job} {job : Job} (h : Runs p t job)
    {s : System} {k : Nat} {req : EioReq} (hk : s.requests[k]? = some req)
    (hw : req.stage = .working p) (hc : s.current = none) :
    ∃ es s', FPath System.step s es s' ∧
      s'.requests[k]? = some { req with calls := req.calls ++ t, stage := .completed } := by
  induction t generalizing s p req with
  | nil =>
    rw [runs_nil h] at hw
    have hbegin : FPath System.step s [.begin k] _ := Path.nil.snoc (step_begin hk hw hc)
    have hfinish : FPath System.step s [.begin k, .finish false] _ :=
      hbegin.snoc (step_finish false rfl (Table.set_self hk))
    refine ⟨_, _, hfinish, ?_⟩
    rw [List.append_nil]
    exact Table.set_self (Table.set_self hk)
  | cons e t ih =>
    obtain ⟨next, rfl, hnext⟩ := runs_cons h
    have hbdb : FPath System.step s [.bdb k e.1 e.2] _ := Path.nil.snoc (step_bdb hk hw e.2)
    have hself : (s.setReq k { req with stage := .working (next e.2), calls := req.calls ++ [e] }
        (.call k e)).requests[k]? = some _ := Table.set_self hk
    obtain ⟨es, s', hp, hk'⟩ := ih hnext hself rfl hc
    refine ⟨_, s', hbdb.append hp, ?_⟩
    rw [hk', List.append_assoc]
    rfl

/-- An asynchronous page of one record. -/
def pageOne : Request Bytes := .cursorGet (buffer []) 1 dbFirst dbNext

def pageOneScript : Script := .db 1 (.request .cursorGet
  [.buffer [], .number 1, .number dbFirst, .number dbNext, .function 5] [])

def pageOneCalls : BdbTrace Bytes :=
  [⟨.txnBegin (some 0), (0, 8)⟩, ⟨.cursor (some 1) (some 8), (0, 3)⟩, ⟨.load [] 0, []⟩,
   ⟨.cursorGet 3 { data := .block 2 [], flags := dbDbtMalloc } { flags := dbDbtMalloc } dbFirst,
     (0, ([107], [118]))⟩,
   ⟨.cursorClose 3, (0 : Int)⟩, ⟨.commit 8, (0 : Int)⟩]

/-- What the worker leaves in the baton. -/
def pageOneBaton : EIODbBaton Bytes :=
  { pageOne.baton with
    records := [({ block := 0, dbt := { data := .block 3 [107], flags := dbDbtMalloc } },
      { block := 1, dbt := { data := .block 4 [118], flags := dbDbtMalloc } })]
    ledger := ⟨7, (List.range 7).map .malloc ++ [.free 5, .free 6]⟩ }

theorem pageOne_runs : Runs (pageOne.worker openDb pageOne.baton) pageOneCalls pageOneBaton := by
  have hfull : ∀ (k : CursorHandle) (pair : DbtPtr Bytes × DbtPtr Bytes) (s : CursorLocals Bytes),
      s.i = 1 → s.baton.limit = 1 → walk k pair s = .ret { s with i := s.i + 1 } := by
    intro k pair s hi hl
    rw [walk, if_neg (by omega)]
  have hreturns : returnsKey dbFirst = true := by decide
  simp [pageOne, pageOneCalls, pageOneBaton, Request.worker, eioCursorGet, openDb, txn, again,
    cursorGetBody, positionAndWalk, hfull, buffer, Data.contents, Request.baton, CursorLocals.copyKey,
    CursorLocals.storeKey, CursorLocals.allocPair, allocDbt, CursorLocals.push, receive_marked,
    EIODbBaton.pushRecord, CursorLocals.statusVar, CursorLocals.setStatus, cursorError, Ledger.malloc,
    Ledger.free, cursorGetOut, dbNotfound, Dbt.receiveKey, hreturns, List.range, List.range.loop]

end NodeBdb
