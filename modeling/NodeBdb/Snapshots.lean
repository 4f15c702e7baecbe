import NodeBdb.Serving

/-!
# What a page shows

Over a BTREE every operation leaves a BTREE. So what the last attempt of a walk read, while any
other operations were running, is a stretch of the records as they all were at one moment,
between the moments of the operations before and after it.
-/

namespace NodeBdb

open Interaction Transition RangeLocks

/-- The page from `start` on that a client of this limit is given, from the tree as it is: the last
attempt read the first records of it, and where no call failed and no attempt before had read one,
all of them. -/
structure Btree.Shows (B : Btree) (start : Start) (limit : Int) (sync : Bool) (r : Result)
    (rs : List (Bytes × Bytes)) : Prop where
  array : r.delivery.array = some (numbered 0 (r.before ++ rs))
  first : rs <+: (B.from start).take ((limit - 1).toNat + 1)
  complete : r.sound = true → r.before = [] →
    rs = (B.from start).take ((limit - 1).toNat + 1) ∧
    r.delivery.code = pageCode sync (limit - 1).toNat (B.from start)

theorem pageCode_take (sync : Bool) (n : Nat) (rs : List (Bytes × Bytes)) :
    pageCode sync n (rs.take (n + 1)) = pageCode sync n rs := by
  have hlen : (rs.take (n + 1)).length < n + 1 ↔ rs.length < n + 1 := by
    rw [List.length_take]
    omega
  have hnil : rs.take (n + 1) ≠ [] ↔ rs ≠ [] := by
    cases rs with
    | nil => simp
    | cons r rs => simp
  simp only [pageCode, hlen, hnil]

section Operations

variable {B : Btree} {op : Invocation} {r : Result} {m : Contents}

theorem explains_btree {q : KeyRequest} {d : Delivery} (h : Explains B.contents q d m) :
    ∃ B' : Btree, B'.contents = m := by
  cases h with
  | @put key val hc => exact ⟨B.write key (some val), contents_write B key _⟩
  | @putIf key val oldVal hm hc => exact ⟨B.write key (some val), contents_write B key _⟩
  | @del key hm hc => exact ⟨B.write key none, contents_write B key _⟩
  | _ => exact ⟨B, rfl⟩

/-- An operation leaves a BTREE a BTREE. -/
theorem does_btree (h : op.Does btreeMoves B.contents r m) : ∃ B' : Btree, B'.contents = m := by
  cases h with
  | keyed hq he => exact explains_btree he
  | refused => exact ⟨B, rfl⟩
  | page => exact ⟨B, rfl⟩

theorem explained_btree {effects : List (AtomicObject.Effect Nat Invocation Result)}
    (h : AtomicObject.Explained (Invocation.Does btreeMoves) B.contents effects m) :
    ∃ B' : Btree, B'.contents = m := by
  apply h.keeps (P := fun m => ∃ B' : Btree, B'.contents = m) ⟨B, rfl⟩
  rintro - op r m' ⟨B', rfl⟩ hdoes
  exact does_btree hdoes

theorem does_page {sync : Bool} {start : Start} {limit : Int}
    (h : Invocation.Does btreeMoves B.contents (.page sync start.key limit start.initFlag dbNext) r m) :
    ∃ rs, B.Shows start limit sync r rs := by
  cases h with
  | keyed hq he => cases hq
  | refused hq => cases hq
  | @page _ _ _ _ _ _ rs harr hfirst hall =>
    rw [btree_page] at hfirst hall
    refine ⟨rs, harr, hfirst, fun hs hb => ?_⟩
    obtain ⟨hrs, hcode⟩ := hall hs hb
    rw [hrs, pageCode_take] at hcode
    exact ⟨hrs, hcode⟩

end Operations

/-- In every run of the process, each page shows the tree that the operations before it had left. -/
theorem pages_show (B : Btree) (j : Nat) (dbObj : Db) (ht : dbObj._transactional = true)
    (ho : dbObj._db ≠ none) (n : Int) (es : List SysEvent) (s₀ : System)
    (hs : FPath System.step (.initial n) es s₀) (hf : s₀.fieldsOf j = some dbObj)
    (hidle : s₀.Idle j) (vs : List (List (AtomicObject.Visible Nat Invocation Result)))
    (p : Serving)
    (h : Path (Serving.Step btreeMoves j dbObj) { system := s₀, engine := .initial B.contents } vs p) :
    ∃ effects, AtomicObject.Linearizes (Invocation.Does btreeMoves) B.contents vs.flatten
        p.engine.store.data effects ∧
      ∀ before e after sync start limit, effects = before ++ e :: after →
        e.op = .page sync (Start.key start) limit start.initFlag dbNext →
        ∃ (B' : Btree) (rs : List (Bytes × Bytes)),
          AtomicObject.Explained (Invocation.Does btreeMoves) B.contents before B'.contents ∧
          B'.Shows start limit sync e.res rs := by
  obtain ⟨es', v, hv, hvis, hrefines⟩ := process_refines hs hf hidle h
  obtain ⟨o, effects, hmatch, hl⟩ := service_matches btreeMoves ht ho hv
  rw [hmatch.state, hvis, hrefines.engine] at hl
  refine ⟨effects, hl, ?_⟩
  intro before e after sync start limit he hop
  obtain ⟨m₁, m₂, hbefore, hdoes⟩ := hl.explained.split he
  obtain ⟨B', rfl⟩ := explained_btree hbefore
  rw [hop] at hdoes
  obtain ⟨rs, hshows⟩ := does_page hdoes
  exact ⟨B', rs, hbefore, hshows⟩

/-- Berkeley DB, as the first page meets it. -/
def firstPageOracle : Oracle (Call Bytes) Reply := fun _ c =>
  match c with
  | .txnBegin _ => (0, 8)
  | .cursor .. => (0, 3)
  | .cursorGet .. => (0, ([107], [118]))
  | .load p _ => p
  | c => replyCode 0 c

theorem firstPage_exec : exec firstPageOracle []
    ((DirectCall.cursorGetS (buffer []) 1 dbFirst dbNext).deliver openDb) =
      (firstPageCalls, firstPageDelivery) := by
  apply exec_of_runs firstPage_runs
  intro h e he
  simp only [firstPageCalls, List.mem_cons, List.not_mem_nil, or_false] at he
  rcases he with rfl | rfl | rfl | rfl | rfl | rfl <;> rfl

def firstPageScript : Script :=
  .db 1 (.direct .cursorGetS [.buffer [], .number 1, .number dbFirst, .number dbNext] firstPageOracle)

theorem opened_page_shows :
    ∃ p vs, Path (Serving.Step btreeMoves 1 openDb)
        { system := openedSystem, engine := .initial onlyK.contents } vs p ∧
      ∃ effects, AtomicObject.Linearizes (Invocation.Does btreeMoves) onlyK.contents vs.flatten
          p.engine.store.data effects ∧
        ∀ before e after sync start limit, effects = before ++ e :: after →
          e.op = .page sync (Start.key start) limit start.initFlag dbNext →
          ∃ (B' : Btree) (rs : List (Bytes × Bytes)),
            AtomicObject.Explained (Invocation.Does btreeMoves) onlyK.contents before B'.contents ∧
            B'.Shows start limit sync e.res rs := by
  obtain ⟨engine, hengine⟩ := firstPage_answered
  have henter : Serving.Step btreeMoves 1 openDb
      { system := openedSystem, engine := .initial onlyK.contents } [.invoke 0 firstPage] _ :=
    .enter rfl rfl
  have hcalls := (Path.nil.snoc henter).append (main_runs rfl firstPage_runs hengine)
  have h := hcalls.snoc (.leave rfl rfl
    (show openedSystem.step (.js firstPageScript) = some _ from rfl) rfl rfl firstPage_exec)
  refine ⟨_, _, h, pages_show onlyK 1 openDb rfl (by decide) 1 openingRun openedSystem (run_path rfl)
    rfl ?_ _ _ h⟩
  intro k req hk
  cases hk

end NodeBdb
