import AgosMemory.Recall.Dominance
import AgosMemory.Recall.Legs
import AgosMemory.Recall.Predicate

/-!
# Recall over `k`

When a call answers, and what a larger `k` does to its report. The two legs list more rows, no row loses
score, and the report has no fewer hits, though others may have taken the places of those it had.
-/

namespace AgosMemory.Recall

open Library

variable {F : Type}

/-! ## The pools of the legs -/

section

variable [F64 F] {engine : Engine F} {order : List (Memory F) → List (Memory F)} {db : Db F}
  {filter : HardFilter} {text : String} {pool : Nat} {queryVec : Option (List F)}

/-- The nearest vectors with a rank in the pool. -/
def nearestIn (engine : Engine F) (db : Db F) (filter : HardFilter) (pool : Nat)
    (queryVec : Option (List F)) : List (VecLegHit F) :=
  match queryVec with
  | none => []
  | some vec => (engine.nearest vec (db.vecs.filter filter.vecMetadataPredicate)).take pool

/-- The matching rows with a rank in the pool. -/
def matchingIn (engine : Engine F) (order : List (Memory F) → List (Memory F)) (db : Db F)
    (filter : HardFilter) (text : String) (pool : Nat) : List (Memory F) :=
  (order (keywordRows engine db filter (ftsMatchExpr text))).take pool

/-- What the legs need to answer. -/
structure LegsAnswer (engine : Engine F) (db : Db F) (filter : HardFilter) (text : String) (pool : Nat)
    (queryVec : Option (List F)) : Prop where
  agent : '\x00' ∉ filter.agentId.toList
  parses : engine.accepts (ftsMatchExpr text) = true
  limit : pool ≤ LIMIT_MAX
  knn : queryVec.isSome → pool ≤ SQLITE_VEC_VEC0_K_MAX
  numbers : ∀ hit ∈ nearestIn engine db filter pool queryVec, F64.le hit.2 hit.2 = true

private theorem vecLeg_ok_iff {vec : List F} (hdim : vec.length = db.embedDim)
    {hits : List (VecLegHit F)} : vecLeg engine db filter pool vec = .ok hits ↔
      (pool ≤ SQLITE_VEC_VEC0_K_MAX ∧
        ∀ hit ∈ nearestIn engine db filter pool (some vec), F64.le hit.2 hit.2 = true) ∧
      nearestIn engine db filter pool (some vec) = hits := by
  unfold vecLeg
  rw [if_neg (not_not.mpr hdim)]
  by_cases hpool : SQLITE_VEC_VEC0_K_MAX < pool
  · rw [if_pos hpool]
    exact iff_of_false nofun fun h => hpool.not_ge h.1.1
  · rw [if_neg hpool, and_iff_right (not_lt.mp hpool), ← List.all_eq_true]
    change (if (nearestIn engine db filter pool (some vec)).all _ = true then Except.ok _ else _) =
      _ ↔ _
    split
    · next hall => exact ⟨fun h => ⟨hall, Except.ok.inj h⟩, fun h => congrArg Except.ok h.2⟩
    · next hall => exact iff_of_false nofun fun h => hall h.1

/-- The legs answer with the rows in their pools. -/
private theorem runLegs_ok_iff (hdim : ∀ vec, queryVec = some vec → vec.length = db.embedDim)
    {legs : List (VecLegHit F) × List FtsLegHit} :
    runLegs engine order db filter text pool queryVec = .ok legs ↔
      LegsAnswer engine db filter text pool queryVec ∧
      nearestIn engine db filter pool queryVec = legs.1 ∧
      (matchingIn engine order db filter text pool).map ftsHit = legs.2 := by
  obtain ⟨vecHits, ftsHits⟩ := legs
  have hpair : ∀ {α β : Type} {x : Except Error α} {y : Except Error β} {a : α} {b : β},
      (do let a ← x; let b ← y; return (a, b)) = .ok (a, b) ↔ x = .ok a ∧ y = .ok b := by
    intro α β x y a b
    cases x with
    | error e => exact iff_of_false nofun fun h => by cases h.1
    | ok a' =>
      cases y with
      | error e => exact iff_of_false nofun fun h => by cases h.2
      | ok b' => simp [bind, Except.bind, pure, Except.pure]
  have hanswer : LegsAnswer engine db filter text pool queryVec ↔
      ('\x00' ∉ filter.agentId.toList ∧ engine.accepts (ftsMatchExpr text) = true ∧
        pool ≤ LIMIT_MAX) ∧ (queryVec.isSome → pool ≤ SQLITE_VEC_VEC0_K_MAX) ∧
        ∀ hit ∈ nearestIn engine db filter pool queryVec, F64.le hit.2 hit.2 = true :=
    ⟨fun h => ⟨⟨h.agent, h.parses, h.limit⟩, h.knn, h.numbers⟩,
      fun h => ⟨h.1.1, h.1.2.1, h.1.2.2, h.2.1, h.2.2⟩⟩
  unfold runLegs
  rw [hanswer]
  cases queryVec with
  | none =>
    have hvec : (pure [] : Except Error (List (VecLegHit F))) = .ok vecHits ↔ [] = vecHits :=
      ⟨Except.ok.inj, congrArg Except.ok⟩
    rw [hpair, keywordLeg_ok_iff, hvec]
    exact ⟨fun h => ⟨⟨h.2.1, nofun, nofun⟩, h.1, h.2.2⟩, fun h => ⟨h.2.1, h.1.1, h.2.2⟩⟩
  | some vec =>
    rw [hpair, keywordLeg_ok_iff, vecLeg_ok_iff (hdim vec rfl)]
    exact ⟨fun h => ⟨⟨h.2.1, fun _ => h.1.1.1, h.1.1.2⟩, h.1.2, h.2.2⟩,
      fun h => ⟨⟨⟨h.1.2.1 rfl, h.1.2.2⟩, h.2.1⟩, h.1.1, h.2.2⟩⟩

omit [F64 F] in
private theorem nearestIn_initial {pool' : Nat} (h : pool ≤ pool') :
    nearestIn engine db filter pool queryVec <+: nearestIn engine db filter pool' queryVec := by
  cases queryVec with
  | none => exact List.prefix_refl _
  | some vec => exact List.take_prefix_take_left h

omit [F64 F] in
private theorem matchingIn_initial {pool' : Nat} (h : pool ≤ pool') :
    matchingIn engine order db filter text pool <+: matchingIn engine order db filter text pool' :=
  List.take_prefix_take_left h

end

private theorem pool_le_limit {k : Nat} (hk : k < 2 ^ 64) :
    saturatingMul (max 1 k) RERANK_POOL_FACTOR ≤ LIMIT_MAX ↔ k < 2 ^ 61 := by
  unfold saturatingMul RERANK_POOL_FACTOR LIMIT_MAX
  omega

private theorem pool_le_knn (k : Nat) :
    saturatingMul (max 1 k) RERANK_POOL_FACTOR ≤ SQLITE_VEC_VEC0_K_MAX ↔ k ≤ 1024 := by
  unfold saturatingMul RERANK_POOL_FACTOR SQLITE_VEC_VEC0_K_MAX
  omega

private theorem pool_mono {k k' : Nat} (h : k ≤ k') : saturatingMul (max 1 k) RERANK_POOL_FACTOR ≤
    saturatingMul (max 1 k') RERANK_POOL_FACTOR := by
  unfold saturatingMul RERANK_POOL_FACTOR
  omega

/-! ## The fused rowids -/

section

variable [F64 F] {α : Type} {filter : HardFilter} {rows rows' : List (CanonicalRow F)}
  {rowid : α → Int} {mark : Nat → α → Acc F → Acc F}

private theorem mem_upsertAcc {id : Int} {f : Acc F → Acc F} (hf : ∀ a, (f a).rowid = a.rowid)
    {acc : List (Acc F)} {x : Int} : x ∈ (upsertAcc id f acc).map Acc.rowid ↔
      x = id ∨ x ∈ acc.map Acc.rowid := by
  refine ⟨mem_upsertAcc_rowid hf, fun h => ?_⟩
  induction acc with
  | nil =>
    rw [upsertAcc, List.map_singleton, List.mem_singleton, hf]
    exact h.resolve_right List.not_mem_nil
  | cons a acc ih =>
    unfold upsertAcc
    split
    · next heq =>
      rw [List.map_cons, hf, ← List.map_cons]
      exact h.elim (fun hx => hx ▸ heq ▸ List.mem_cons_self) fun hx => hx
    · rw [List.map_cons, List.mem_cons] at h ⊢
      rcases h with h | h | h
      · exact .inr (ih (.inl h))
      · exact .inl h
      · exact .inr (ih (.inr h))

/-- A leg brings in the rowids that it lists and that reach scoring. -/
private theorem mem_addLeg_iff (hmark : Marks mark) {hits : List α} {offset : Nat}
    {acc : List (Acc F)}
    {x : Int} : x ∈ (addLeg filter rows rowid mark hits offset acc).map Acc.rowid ↔
      x ∈ acc.map Acc.rowid ∨ x ∈ hits.map rowid ∧ Scored filter rows x := by
  refine ⟨mem_addLeg hmark, fun h => ?_⟩
  induction hits generalizing offset acc with
  | nil => exact h.resolve_right fun h => absurd h.1 List.not_mem_nil
  | cons y ys ih =>
    by_cases hscored : Scored filter rows (rowid y)
    · rw [addLeg_cons_scored hscored]
      refine ih ?_
      rw [mem_upsertAcc (hmark.scoreEntry_rowid offset y)]
      rcases h with h | ⟨h, hx⟩
      · exact .inl (.inr h)
      · rcases List.mem_cons.mp h with h | h
        · exact .inl (.inl h)
        · exact .inr ⟨h, hx⟩
    · rw [addLeg_cons_skipped hscored]
      refine ih (h.imp_right fun ⟨h, hx⟩ => ⟨?_, hx⟩)
      rcases List.mem_cons.mp h with rfl | h
      · exact absurd hx hscored
      · exact h

private theorem marks_sim : Marks fun _ (x : VecLegHit F) a =>
    { a with sim := some (F64.sub (F64.ofRat 1) x.2) } := fun _ _ _ => ⟨rfl, rfl⟩

omit [F64 F] in
private theorem marks_rank :
    Marks fun rank (_ : FtsLegHit) (a : Acc F) => { a with bm25Rank := some rank } :=
  fun _ _ _ => ⟨rfl, rfl⟩

variable {vecHits vecHits' : List (VecLegHit F)} {ftsHits ftsHits' : List FtsLegHit}

/-- The fused rowids are those that a leg lists and that reach scoring. -/
private theorem mem_fuse_rowid {x : Int} :
    x ∈ (fuse filter vecHits rows ftsHits).map RecallHit.rowid ↔
    (x ∈ vecHits.map Prod.fst ∨ x ∈ ftsHits.map Prod.fst) ∧ Scored filter rows x := by
  have hacc : x ∈ (accumulate filter vecHits rows ftsHits).map Acc.rowid ↔
      (x ∈ vecHits.map Prod.fst ∨ x ∈ ftsHits.map Prod.fst) ∧ Scored filter rows x := by
    unfold accumulate
    rw [mem_addLeg_iff marks_rank, mem_addLeg_iff marks_sim, or_and_right, List.map_nil,
      or_iff_right List.not_mem_nil]
  rw [← hacc, List.mem_map, List.mem_map]
  constructor
  · rintro ⟨hit, hhit, rfl⟩
    obtain ⟨a, ha, heq⟩ := List.mem_filterMap.mp (mem_sortHits.mp hhit)
    obtain ⟨row, _, rfl⟩ := Option.map_eq_some_iff.mp heq
    exact ⟨a, ha, rfl⟩
  · rintro ⟨a, ha, rfl⟩
    obtain ⟨row, hrow, _⟩ := (hacc.mp (List.mem_map_of_mem ha)).2
    exact ⟨_, mem_sortHits.mpr (List.mem_filterMap.mpr
      ⟨a, ha, Option.map_eq_some_iff.mpr ⟨row, hrow, rfl⟩⟩), rfl⟩

omit [F64 F] in
/-- What gate 2 reads at a rowid does not depend on the other rowids. -/
private theorem rowAt_admittedRows {db : Db F} {rowids : List Int} {x : Int} (hx : x ∈ rowids) :
    rowAt (admittedRows filter db fun m => m.id ∈ rowids) x =
      rowAt (admittedRows filter db fun _ => true) x := by
  have hread : ∀ extra : Memory F → Bool, rowAt (admittedRows filter db extra) x =
      (db.memories.find? fun m => m.id = x && filter.admits (rowFromSql db m) &&
        (filter.predicate db m && extra m)).map (rowFromSql db) := by
    intro extra
    unfold rowAt admittedRows
    rw [List.filter_map, List.filter_filter, List.find?_map, List.find?_filter]
    congr 1
    refine congrArg (fun p => db.memories.find? p) (funext fun m => ?_)
    have hrowid : (rowFromSql db m).rowid = m.id := rfl
    simp only [Function.comp_apply, hrowid, Bool.decide_and, Bool.decide_eq_true]
    rw [Bool.and_comm, ← Bool.and_assoc]
  rw [hread, hread]
  congr 1
  refine congrArg (fun p => db.memories.find? p) (funext fun m => ?_)
  by_cases hm : m.id = x
  · rw [hm, decide_eq_true hx]
  · rw [decide_eq_false hm]
    rfl

end

/-! ## A call against some stores -/

/-- What a call runs against: the engine, the stores that its legs and its two gates read, and the
embedding of its query. -/
structure Call (F : Type) where
  engine : Engine F
  order : List (Memory F) → List (Memory F)
  legs : Db F
  gate2 : Db F
  gate3 : Db F
  queryVec : Option (List F)

/-- The pool of a `k`. -/
def poolOf (k : Nat) : Nat := saturatingMul (max 1 k) RERANK_POOL_FACTOR

namespace Call

section

variable (c : Call F) (filter : HardFilter) (text : String) (pool : Nat)

def reads [F64 F] : Reads F where
  queryVec := c.queryVec
  legs filter pool vec := runLegs c.engine c.order c.legs filter text pool vec
  gate2 := .ok c.gate2
  gate3 := .ok c.gate3

def vecHits : List (VecLegHit F) := nearestIn c.engine c.legs filter pool c.queryVec

def ftsHits : List FtsLegHit := (matchingIn c.engine c.order c.legs filter text pool).map ftsHit

/-- The rowids that a leg lists. -/
def listed : List Int :=
  ((c.vecHits filter pool).map Prod.fst ++ (c.ftsHits filter text pool).map Prod.fst).dedup

def rows : List (CanonicalRow F) :=
  admittedRows filter c.gate2 fun m => m.id ∈ c.listed filter text pool

def fused [F64 F] : List (RecallHit F) :=
  fuse filter (c.vecHits filter pool) (c.rows filter text pool) (c.ftsHits filter text pool)

def surviving [F64 F] : List String :=
  (admittedRows filter c.gate3 fun m =>
    m.publicId ∈ (c.fused filter text pool).map RecallHit.publicId).map CanonicalRow.publicId

end

/-- What a call needs to answer. The ids are those of the rows that gate 2 admits among those listed. -/
structure Answers [F64 F] (c : Call F) (agentId : String) (q : RecallQuery F) (now : Int) : Prop where
  agent : '\x00' ∉ agentId.toList
  parses : c.engine.accepts (ftsMatchExpr q.text) = true
  limit : q.k < 2 ^ 61
  knn : c.queryVec.isSome → q.k ≤ 1024
  numbers : ∀ hit ∈ c.vecHits (.fromQuery agentId q now) (poolOf q.k), F64.le hit.2 hit.2 = true
  ids : ∀ m ∈ c.gate2.memories, m.id ∈ c.listed (.fromQuery agentId q now) q.text (poolOf q.k) →
    (HardFilter.fromQuery agentId q now).admits (rowFromSql c.gate2 m) = true →
    '\x00' ∉ m.publicId.toList

section

variable [F64 F] {c : Call F} {filter : HardFilter} {text agentId : String} {pool : Nat}
  {q : RecallQuery F} {now : Int}

omit [F64 F] in
private theorem rowAt_of_admits {db : Db F} (hids : (db.memories.map Memory.id).Nodup) {m : Memory F}
    (hm : m ∈ db.memories) (hadmits : filter.admits (rowFromSql db m) = true)
    {extra : Memory F → Bool} (hextra : extra m = true) :
    rowAt (admittedRows filter db extra) m.id = some (rowFromSql db m) := by
  have hmem : rowFromSql db m ∈ admittedRows filter db extra := by
    have hpred := (admits_rowFromSql filter db m).symm.trans hadmits
    refine List.mem_filter.mpr ⟨List.mem_map_of_mem (List.mem_filter.mpr ⟨hm, ?_⟩), hadmits⟩
    rw [hpred, hextra]
    rfl
  cases hfind : rowAt (admittedRows filter db extra) m.id with
  | none => exact absurd (decide_eq_true rfl) (List.find?_eq_none.mp hfind _ hmem)
  | some row =>
    have hid : row.rowid = m.id := by simpa using List.find?_some hfind
    obtain ⟨m', hm', _, rfl, _⟩ := mem_admittedRows (List.mem_of_find?_eq_some hfind)
    obtain rfl := List.inj_on_of_nodup_map hids hm' hm hid
    rfl

/-- The fused ids have no U+0000 if the listed rows have none. -/
private theorem fused_plain_iff (hids : (c.gate2.memories.map Memory.id).Nodup) :
    (∀ hit ∈ c.fused filter text pool, '\x00' ∉ hit.publicId.toList) ↔
      ∀ m ∈ c.gate2.memories, m.id ∈ c.listed filter text pool →
        filter.admits (rowFromSql c.gate2 m) = true → '\x00' ∉ m.publicId.toList := by
  constructor
  · intro h m hm hlisted hadmits
    have hrow : rowAt (c.rows filter text pool) m.id = some (rowFromSql c.gate2 m) :=
      rowAt_of_admits hids hm hadmits (decide_eq_true hlisted)
    have hmem : m.id ∈ (c.fused filter text pool).map RecallHit.rowid :=
      mem_fuse_rowid.mpr ⟨List.mem_append.mp (List.mem_dedup.mp hlisted), _, hrow, hadmits⟩
    obtain ⟨hit, hhit, hid⟩ := List.mem_map.mp hmem
    obtain ⟨row, hrow', hpid, _⟩ := mem_fuse hhit
    rw [hid, hrow] at hrow'
    obtain rfl := Option.some.inj hrow'
    have hplain := h hit hhit
    rwa [hpid] at hplain
  · intro h hit hhit
    obtain ⟨row, hrow, hpid, _⟩ := mem_fuse hhit
    obtain ⟨m, hm, hlisted, rfl, hadmits⟩ := mem_admittedRows (List.mem_of_find?_eq_some hrow)
    rw [hpid]
    exact h m hm (of_decide_eq_true hlisted) hadmits

omit [F64 F] in
private theorem bind_eq_ok_iff {ε α β : Type} {x : Except ε α} {f : α → Except ε β} {b : β} :
    (do let a ← x; f a) = .ok b ↔ ∃ a, x = .ok a ∧ f a = .ok b := by
  cases x with
  | error e => exact iff_of_false nofun fun ⟨_, h, _⟩ => by cases h
  | ok a =>
    refine ⟨fun h => ⟨a, rfl, h⟩, fun ⟨a', ha, h⟩ => ?_⟩
    obtain rfl := Except.ok.inj ha
    exact h

omit [F64 F] in
private theorem readKeys_eq {κ α : Type} {db : Db F} {f : Db F → List κ → Except Error (List α)}
    (hnone : f db [] = .ok []) (keys : List κ) : readKeys (.ok db) keys f = f db keys := by
  cases keys with
  | nil => exact hnone.symm
  | cons key keys => rfl

omit [F64 F] in
private theorem gate2_read (hagent : '\x00' ∉ filter.agentId.toList) :
    readKeys (.ok c.gate2) (c.listed filter text pool) (loadByRowids filter) =
      .ok (c.rows filter text pool) := by
  rw [readKeys_eq rfl]
  exact loadByRowids_ok_iff.mpr ⟨fun _ => hagent, rfl⟩

private theorem gate3_read_iff (hagent : '\x00' ∉ filter.agentId.toList) {surviving : List String} :
    readKeys (.ok c.gate3) ((c.fused filter text pool).map RecallHit.publicId)
        (survivingPublicIds filter) = .ok surviving ↔
      (∀ hit ∈ c.fused filter text pool, '\x00' ∉ hit.publicId.toList) ∧
        c.surviving filter text pool = surviving := by
  rw [readKeys_eq rfl, survivingPublicIds_ok_iff]
  refine and_congr_left' ⟨fun hplain hit hhit => ?_, fun hplain _ => ?_⟩
  · have hmem := List.mem_map_of_mem (f := RecallHit.publicId) hhit
    exact hplain (List.ne_nil_of_mem hmem) _ (List.mem_cons_of_mem _ hmem)
  · exact List.forall_mem_cons.mpr ⟨hagent, List.forall_mem_map.mpr hplain⟩

/-- A call that answers reports what its candidates pack to. -/
private theorem recall_ok_iff (htext : Text.trim q.text ≠ "")
    (hdim : ∀ vec, c.queryVec = some vec → vec.length = c.legs.embedDim)
    {report : RecallReport F} :
    recallWithClock (c.reads q.text) agentId q now = .ok report ↔
      LegsAnswer c.engine c.legs (.fromQuery agentId q now) q.text (poolOf q.k) c.queryVec ∧
      (∀ hit ∈ c.fused (.fromQuery agentId q now) q.text (poolOf q.k), '\x00' ∉ hit.publicId.toList) ∧
      packReport q (c.rows (.fromQuery agentId q now) q.text (poolOf q.k))
        (candidates (.fromQuery agentId q now) (c.rows (.fromQuery agentId q now) q.text (poolOf q.k))
          (c.surviving (.fromQuery agentId q now) q.text (poolOf q.k))
          (c.fused (.fromQuery agentId q now) q.text (poolOf q.k)) q) c.queryVec.isNone = report := by
  generalize hfilter : HardFilter.fromQuery agentId q now = filter
  have hlegs : ∀ legs, (c.reads q.text).legs filter (poolOf q.k) (c.reads q.text).queryVec = .ok legs ↔
      LegsAnswer c.engine c.legs filter q.text (poolOf q.k) c.queryVec ∧
        c.vecHits filter (poolOf q.k) = legs.1 ∧ c.ftsHits filter q.text (poolOf q.k) = legs.2 :=
    fun legs => runLegs_ok_iff hdim
  unfold recallWithClock
  rw [if_neg htext, hfilter]
  change (do
    let legs ← (c.reads q.text).legs filter (poolOf q.k) (c.reads q.text).queryVec
    let rows ← readKeys (.ok c.gate2) (legs.1.map Prod.fst ++ legs.2.map Prod.fst).dedup
      (loadByRowids filter)
    let surviving ← readKeys (.ok c.gate3) ((fuse filter legs.1 rows legs.2).map RecallHit.publicId)
      (survivingPublicIds filter)
    Except.ok (packReport q rows (candidates filter rows surviving (fuse filter legs.1 rows legs.2) q)
      c.queryVec.isNone)) = _ ↔ _
  constructor
  · intro h
    obtain ⟨⟨vecHits, ftsHits⟩, hrun, h⟩ := bind_eq_ok_iff.mp h
    obtain ⟨hanswer, rfl, rfl⟩ := (hlegs _).mp hrun
    obtain ⟨rows, hload, h⟩ := bind_eq_ok_iff.mp h
    obtain rfl := Except.ok.inj ((gate2_read hanswer.agent).symm.trans hload)
    obtain ⟨surviving, hgate, h⟩ := bind_eq_ok_iff.mp h
    obtain ⟨hplain, rfl⟩ := (gate3_read_iff hanswer.agent).mp hgate
    exact ⟨hanswer, hplain, Except.ok.inj h⟩
  · rintro ⟨hanswer, hplain, rfl⟩
    refine bind_eq_ok_iff.mpr ⟨_, (hlegs (_, _)).mpr ⟨hanswer, rfl, rfl⟩, ?_⟩
    refine bind_eq_ok_iff.mpr ⟨_, gate2_read hanswer.agent, ?_⟩
    exact bind_eq_ok_iff.mpr ⟨_, (gate3_read_iff hanswer.agent).mpr ⟨hplain, rfl⟩, rfl⟩

end

end Call

/-! ## What a larger pool does to the score -/

section

variable [Field F] [LinearOrder F] [IsStrictOrderedRing F] [F64 F] [Exact F] {α : Type}
  {filter : HardFilter} {rows rows' : List (CanonicalRow F)} {rowid : α → Int}
  {mark : Nat → α → Acc F → Acc F} {x : Int}

/-- What the first entry of a leg adds to the sum of `x`: the term of its rank if it is one of `x` and
reaches scoring. -/
private theorem addLeg_cons_sum (hmark : Marks mark) (y : α) (offset : Nat) (acc : List (Acc F))
    (x : Int) :
    ∃ acc', (∀ ys, addLeg filter rows rowid mark (y :: ys) offset acc =
        addLeg filter rows rowid mark ys (offset + 1) acc') ∧
      (rowid y = x ∧ Scored filter rows x → rrfAt acc' x = rrfAt acc x + rrfTerm offset) ∧
      (¬(rowid y = x ∧ Scored filter rows x) → rrfAt acc' x = rrfAt acc x) := by
  by_cases hscored : Scored filter rows (rowid y)
  · refine ⟨_, fun ys => addLeg_cons_scored hscored ys offset acc, ?_, fun hother => ?_⟩
    · rintro ⟨rfl, _⟩
      rw [rrfAt_upsertAcc (hmark.scoreEntry_rowid offset y) (hmark.scoreEntry_rrf offset y), if_pos rfl]
    · rw [rrfAt_upsertAcc (hmark.scoreEntry_rowid offset y) (hmark.scoreEntry_rrf offset y),
        if_neg fun heq => hother ⟨heq, heq ▸ hscored⟩, add_zero]
  · refine ⟨acc, fun ys => addLeg_cons_skipped hscored ys offset acc, ?_, fun _ => rfl⟩
    rintro ⟨rfl, hx⟩
    exact absurd hx hscored

private theorem rrfAt_le_addLeg (hmark : Marks mark) (hits : List α) (offset : Nat)
    (acc : List (Acc F)) :
    rrfAt acc x ≤ rrfAt (addLeg filter rows rowid mark hits offset acc) x := by
  induction hits generalizing offset acc with
  | nil => exact le_rfl
  | cons y ys ih =>
    obtain ⟨acc', hcons, hadds, hleaves⟩ := addLeg_cons_sum hmark y offset acc x
    rw [hcons]
    refine le_trans ?_ (ih (offset + 1) acc')
    by_cases hy : rowid y = x ∧ Scored filter rows x
    · rw [hadds hy]
      exact le_add_of_nonneg_right (rrfTerm_pos offset).le
    · rw [hleaves hy]

/-- A leg that goes on gives a row no less. -/
private theorem rrfAt_addLeg_le (hmark : Marks mark)
    (hx : Scored filter rows x → Scored filter rows' x)
    {hits hits' : List α} (hinitial : hits <+: hits') (offset : Nat) {acc acc' : List (Acc F)}
    (hacc : rrfAt acc x ≤ rrfAt acc' x) :
    rrfAt (addLeg filter rows rowid mark hits offset acc) x ≤
      rrfAt (addLeg filter rows' rowid mark hits' offset acc') x := by
  obtain ⟨more, rfl⟩ := hinitial
  induction hits generalizing offset acc acc' with
  | nil => exact hacc.trans (rrfAt_le_addLeg hmark more offset acc')
  | cons y ys ih =>
    obtain ⟨acc₁, hcons, hadds, hleaves⟩ := addLeg_cons_sum hmark y offset acc x
    obtain ⟨acc₁', hcons', hadds', hleaves'⟩ := addLeg_cons_sum hmark y offset acc' x
    rw [List.cons_append, hcons, hcons']
    refine ih (offset + 1) ?_
    by_cases hy : rowid y = x ∧ Scored filter rows x
    · rw [hadds hy, hadds' ⟨hy.1, hx hy.2⟩]
      exact add_le_add_left hacc _
    · rw [hleaves hy]
      by_cases hy' : rowid y = x ∧ Scored filter rows' x
      · rw [hadds' hy']
        exact hacc.trans (le_add_of_nonneg_right (rrfTerm_pos offset).le)
      · rwa [hleaves' hy']

omit [LinearOrder F] [IsStrictOrderedRing F] [Exact F] in
private theorem fuse_rrfAt {vecHits : List (VecLegHit F)} {ftsHits : List FtsLegHit}
    {hit : RecallHit F}
    (h : hit ∈ fuse filter vecHits rows ftsHits) :
    hit.components.rrf = rrfAt (accumulate filter vecHits rows ftsHits) hit.rowid := by
  obtain ⟨a, ha, heq⟩ := List.mem_filterMap.mp (mem_sortHits.mp h)
  obtain ⟨row, _, rfl⟩ := Option.map_eq_some_iff.mp heq
  exact (rrfAt_of_mem (accumulate_nodup filter vecHits rows ftsHits) ha).symm

/-- Legs that go on leave no fused row a smaller sum. -/
private theorem fuse_rrf_le {vecHits vecHits' : List (VecLegHit F)}
    {ftsHits ftsHits' : List FtsLegHit}
    (hvec : vecHits <+: vecHits') (hfts : ftsHits <+: ftsHits') {hit hit' : RecallHit F}
    (h : hit ∈ fuse filter vecHits rows ftsHits) (h' : hit' ∈ fuse filter vecHits' rows' ftsHits')
    (hrowid : hit'.rowid = hit.rowid) : hit.components.rrf ≤ hit'.components.rrf := by
  have hx : Scored filter rows hit.rowid → Scored filter rows' hit.rowid := fun _ =>
    hrowid ▸ (mem_fuse_rowid.mp (List.mem_map_of_mem h')).2
  rw [fuse_rrfAt h, fuse_rrfAt h', hrowid]
  exact rrfAt_addLeg_le marks_rank hx hfts 0 (rrfAt_addLeg_le marks_sim hx hvec 0 le_rfl)

private theorem clamp_mono {lo hi a b : F} (hlohi : lo ≤ hi) (h : a ≤ b) :
    F64.clamp lo hi a ≤ F64.clamp lo hi b := by
  unfold F64.clamp
  simp only [Exact.lt, decide_eq_true_eq]
  split_ifs <;> linarith

/-- A hit with a larger sum scores no less on the same row. -/
private theorem scoreHit_le {weights : RecallWeights F} (hsim : 0 ≤ weights.sim)
    {halfLife : RecallHalfLives F} {now : Int} {row : CanonicalRow F} {hit hit' : RecallHit F}
    (h : hit.components.rrf ≤ hit'.components.rrf) :
    (scoreHit weights halfLife now row hit).score ≤ (scoreHit weights halfLife now row hit').score := by
  have hmax : (0 : F) ≤ RRF_MAX := by
    rw [rrfMax_exact]
    positivity
  have hnorm : F64.clamp (F64.ofRat 0) (F64.ofRat 1) (F64.div hit.components.rrf RRF_MAX) ≤
      F64.clamp (F64.ofRat 0) (F64.ofRat 1) (F64.div hit'.components.rrf RRF_MAX) := by
    refine clamp_mono ?_ ?_
    · rw [Exact.ofRat, Exact.ofRat]
      exact_mod_cast zero_le_one
    · rw [Exact.div, Exact.div]
      exact div_le_div_of_nonneg_right h hmax
  unfold scoreHit
  simp only [Exact.add, Exact.mul]
  gcongr

end

/-! ## What a larger pool does to the report -/

/-- Of a list in which what passes comes first, `k` places hold `k` that pass or all of them. -/
private theorem length_filter_take {α : Type} {l : List α} {p : α → Bool}
    (hl : l.Pairwise fun a b => p b = true → p a = true) (k : Nat) :
    ((l.take k).filter p).length = min k (l.filter p).length := by
  induction l generalizing k with
  | nil => rw [List.take_nil, List.filter_nil, List.length_nil, Nat.min_zero]
  | cons a l ih =>
    obtain ⟨ha, hl⟩ := List.pairwise_cons.mp hl
    cases k with
    | zero => rw [List.take_zero, List.filter_nil, List.length_nil, Nat.zero_min]
    | succ k =>
      rw [List.take_succ_cons]
      by_cases hpa : p a = true
      · rw [List.filter_cons_of_pos hpa, List.filter_cons_of_pos hpa, List.length_cons,
          List.length_cons, ih hl, Nat.succ_min_succ]
      · have hnone : ∀ s : List α, s ⊆ l → s.filter p = [] := fun s hs =>
          List.filter_eq_nil_iff.mpr fun b hb hpb => hpa (ha b (hs hb) hpb)
        rw [List.filter_cons_of_neg hpa, List.filter_cons_of_neg hpa, hnone _ (List.take_subset k l),
          hnone l (List.Subset.refl l), List.length_nil, Nat.min_zero]

namespace Call

section

variable [Field F] [LinearOrder F] [IsStrictOrderedRing F] [F64 F] [Exact F] {c : Call F}
  {filter : HardFilter} {text : String} {pool pool' : Nat} {q : RecallQuery F}

/-- The hits that reach the score cut, rescored. -/
def rescored (c : Call F) (filter : HardFilter) (text : String) (pool : Nat) (q : RecallQuery F) :
    List (RecallHit F) :=
  ((c.fused filter text pool).filter fun h => h.publicId ∈ c.surviving filter text pool).filterMap
    fun hit => (rowAt (c.rows filter text pool) hit.rowid).map fun row =>
      scoreHit q.weights q.halfLife filter.now row hit

/-- As many hits are candidates as reach the score, up to `k`. -/
private theorem length_candidates :
    (candidates filter (c.rows filter text pool) (c.surviving filter text pool)
    (c.fused filter text pool) q).length =
      min q.k ((c.rescored filter text pool q).filter fun h => F64.le q.minScore h.score).length := by
  unfold candidates
  dsimp only
  rw [length_filter_take]
  · exact congrArg (min q.k) (((List.perm_insertionSort _ _).filter _).length_eq)
  · have hsorted : (rerank q.weights q.halfLife filter.now
        ((c.fused filter text pool).filter fun h => h.publicId ∈ c.surviving filter text pool)
        (c.rows filter text pool)).Pairwise (Ranking.before (byKeyDesc RecallHit.score)) :=
      Ranking.rank_pairwise _ _
    refine hsorted.imp fun {a b} hbefore hb => ?_
    rw [Exact.le, decide_eq_true_eq] at hb ⊢
    rcases before_byKeyDesc.mp hbefore with hlt | ⟨heq, _⟩
    · exact hb.trans hlt.le
    · exact hb.trans_eq heq.symm

omit [Field F] [LinearOrder F] [IsStrictOrderedRing F] [F64 F] [Exact F] in
private theorem listed_mono (hpool : pool ≤ pool') {x : Int} (hx : x ∈ c.listed filter text pool) :
    x ∈ c.listed filter text pool' := by
  have hvec : c.vecHits filter pool <+: c.vecHits filter pool' := nearestIn_initial hpool
  have hfts : c.ftsHits filter text pool <+: c.ftsHits filter text pool' :=
    (matchingIn_initial hpool).map _
  unfold listed at hx ⊢
  rw [List.mem_dedup, List.mem_append] at hx ⊢
  exact hx.imp (fun h => (hvec.map _).subset h) fun h => (hfts.map _).subset h

omit [Field F] [LinearOrder F] [IsStrictOrderedRing F] [Exact F] in
/-- A row that is fused is so with a larger pool. -/
private theorem fused_mono (hpool : pool ≤ pool') {hit : RecallHit F}
    (h : hit ∈ c.fused filter text pool) :
    ∃ hit' ∈ c.fused filter text pool', hit'.rowid = hit.rowid ∧ hit'.publicId = hit.publicId ∧
      rowAt (c.rows filter text pool') hit.rowid = rowAt (c.rows filter text pool) hit.rowid := by
  obtain ⟨row, hrow, hpid, _⟩ := mem_fuse h
  obtain ⟨hlegs, _⟩ := mem_fuse_rowid.mp (List.mem_map_of_mem h)
  have hlisted : hit.rowid ∈ c.listed filter text pool :=
    List.mem_dedup.mpr (List.mem_append.mpr hlegs)
  have hsame : rowAt (c.rows filter text pool') hit.rowid = rowAt (c.rows filter text pool) hit.rowid :=
    (rowAt_admittedRows (listed_mono hpool hlisted)).trans (rowAt_admittedRows hlisted).symm
  obtain ⟨m, _, _, _, hadmits⟩ := mem_admittedRows (List.mem_of_find?_eq_some hrow)
  have hmem : hit.rowid ∈ (c.fused filter text pool').map RecallHit.rowid :=
    mem_fuse_rowid.mpr ⟨List.mem_append.mp (List.mem_dedup.mp (listed_mono hpool hlisted)), row,
      hsame.trans hrow, hadmits⟩
  obtain ⟨hit', hhit', hrowid⟩ := List.mem_map.mp hmem
  obtain ⟨row', hrow', hpid', _⟩ := mem_fuse hhit'
  rw [hrowid, hsame, hrow] at hrow'
  obtain rfl := Option.some.inj hrow'
  exact ⟨hit', hhit', hrowid, hpid'.trans hpid.symm, hsame⟩

omit [Field F] [LinearOrder F] [IsStrictOrderedRing F] [Exact F] in
private theorem surviving_mono (hpool : pool ≤ pool') {publicId : String}
    (h : publicId ∈ c.surviving filter text pool) : publicId ∈ c.surviving filter text pool' := by
  obtain ⟨row, hrow, rfl⟩ := List.mem_map.mp h
  obtain ⟨hrow, hadmits⟩ := List.mem_filter.mp hrow
  obtain ⟨m, hm, rfl⟩ := List.mem_map.mp hrow
  obtain ⟨hmem, hpred⟩ := List.mem_filter.mp hm
  obtain ⟨hpred, hfused⟩ := Bool.and_eq_true_iff.mp hpred
  obtain ⟨hit, hhit, hpid⟩ := List.mem_map.mp (of_decide_eq_true hfused)
  obtain ⟨hit', hhit', _, hpid', _⟩ := fused_mono hpool hhit
  have hfused' : m.publicId ∈ (c.fused filter text pool').map RecallHit.publicId :=
    List.mem_map.mpr ⟨hit', hhit', hpid'.trans hpid⟩
  refine List.mem_map.mpr ⟨_, List.mem_filter.mpr ⟨List.mem_map_of_mem ?_, hadmits⟩, rfl⟩
  exact List.mem_filter.mpr ⟨hmem, Bool.and_eq_true_iff.mpr ⟨hpred, decide_eq_true hfused'⟩⟩

/-- A row that is rescored is so with a larger pool, and scores no less. -/
private theorem rescored_mono (hpool : pool ≤ pool') (hsim : 0 ≤ q.weights.sim) {hit : RecallHit F}
    (h : hit ∈ c.rescored filter text pool q) :
    ∃ hit' ∈ c.rescored filter text pool' q, hit'.rowid = hit.rowid ∧ hit.score ≤ hit'.score := by
  obtain ⟨fused, hfused, heq⟩ := List.mem_filterMap.mp h
  obtain ⟨row, hrow, rfl⟩ := Option.map_eq_some_iff.mp heq
  obtain ⟨hfused, hsurviving⟩ := List.mem_filter.mp hfused
  obtain ⟨fused', hfused', hrowid, hpid, hsame⟩ := fused_mono hpool hfused
  have hsurviving' : fused'.publicId ∈ c.surviving filter text pool' :=
    hpid ▸ surviving_mono hpool (of_decide_eq_true hsurviving)
  refine ⟨scoreHit q.weights q.halfLife filter.now row fused', ?_, hrowid, scoreHit_le hsim ?_⟩
  · refine List.mem_filterMap.mpr ⟨fused', List.mem_filter.mpr ⟨hfused', decide_eq_true hsurviving'⟩, ?_⟩
    rw [hrowid, hsame, hrow]
    rfl
  · exact fuse_rrf_le (nearestIn_initial hpool) ((matchingIn_initial hpool).map _) hfused hfused' hrowid

omit [Field F] [LinearOrder F] [IsStrictOrderedRing F] [Exact F] in
private theorem rescored_nodup : ((c.rescored filter text pool q).map RecallHit.rowid).Nodup := by
  have hfused : (((c.fused filter text pool).filter fun h =>
      h.publicId ∈ c.surviving filter text pool).map RecallHit.rowid).Nodup :=
    (fuse_nodup _ _ _ _).sublist (List.filter_sublist.map _)
  refine hfused.sublist (map_filterMap_sublist (fun hit hit' heq => ?_) _)
  obtain ⟨row, _, rfl⟩ := Option.map_eq_some_iff.mp heq
  rfl

/-- A larger `k` leaves no fewer candidates. -/
private theorem length_candidates_mono (hpool : pool ≤ pool') (hsim : 0 ≤ q.weights.sim) {k' : Nat}
    (hk : q.k ≤ k') :
    (candidates filter (c.rows filter text pool) (c.surviving filter text pool)
      (c.fused filter text pool) q).length ≤
    (candidates filter (c.rows filter text pool') (c.surviving filter text pool')
      (c.fused filter text pool') { q with k := k' }).length := by
  have hsub : ((c.rescored filter text pool q).filter fun h => F64.le q.minScore h.score).map
      RecallHit.rowid ⊆ ((c.rescored filter text pool' q).filter fun h =>
        F64.le q.minScore h.score).map RecallHit.rowid := by
    intro x hx
    obtain ⟨hit, hhit, rfl⟩ := List.mem_map.mp hx
    obtain ⟨hhit, hscore⟩ := List.mem_filter.mp hhit
    obtain ⟨hit', hhit', hrowid, hle⟩ := rescored_mono hpool hsim hhit
    rw [Exact.le, decide_eq_true_eq] at hscore
    refine List.mem_map.mpr ⟨hit', List.mem_filter.mpr ⟨hhit', ?_⟩, hrowid⟩
    rw [Exact.le, decide_eq_true_eq]
    exact hscore.trans hle
  have hnodup := rescored_nodup.sublist
    ((List.filter_sublist (p := fun h => F64.le q.minScore h.score)
      (l := c.rescored filter text pool q)).map RecallHit.rowid)
  have hlength := (hnodup.subperm hsub).length_le
  rw [List.length_map, List.length_map] at hlength
  rw [length_candidates, length_candidates]
  exact min_le_min hk hlength

end

end Call

/-! ## Totality -/

/-- Packing reports every candidate. -/
theorem Call.length_report [F64 F] {c : Call F} {filter : HardFilter} {text : String} {pool : Nat}
    {q : RecallQuery F} {degraded : Bool} :
    (packReport q (c.rows filter text pool) (candidates filter (c.rows filter text pool)
      (c.surviving filter text pool) (c.fused filter text pool) q) degraded).hits.length =
    (candidates filter (c.rows filter text pool) (c.surviving filter text pool)
      (c.fused filter text pool) q).length := by
  have hunpacked : ∀ h ∈ candidates filter (c.rows filter text pool) (c.surviving filter text pool)
      (c.fused filter text pool) q, h.placement = .unpacked ∧ h.tokens = 0 :=
    fun h hm => (mem_candidates hm).2.2
  have hpacked := pack_packed (heuristicCount F) q.budgetSplit q.budgetTokens (c.rows filter text pool)
    hunpacked
  have hlength := congrArg List.length hpacked.ids_eq
  rw [List.length_map, List.length_map] at hlength
  exact hlength.trans (List.perm_insertionSort _ _).length_eq

/-- A call answers exactly if the agent id and the ids of the listed rows can be written into a statement,
the expression parses, the pool is a `LIMIT`, and, with a vector, the scan takes it and finds no distance
that is NaN. Where two calls answer that differ in `k`, the one with the larger `k` lists more on both
legs and reports no fewer hits. -/
theorem recall_total_iff [F64 F] (c : Call F) (agentId : String) {q : RecallQuery F}
    (htext : Text.trim q.text ≠ "") (hk : q.k < 2 ^ 64) (now : Int)
    (hdim : ∀ vec, c.queryVec = some vec → vec.length = c.legs.embedDim)
    (hids : (c.gate2.memories.map Memory.id).Nodup) :
    ((∃ report, recallWithClock (c.reads q.text) agentId q now = .ok report) ↔
      c.Answers agentId q now) ∧
    ∀ k', q.k ≤ k' → ∀ report report',
      recallWithClock (c.reads q.text) agentId q now = .ok report →
      recallWithClock (c.reads q.text) agentId { q with k := k' } now = .ok report' →
      let filter := HardFilter.fromQuery agentId q now
      c.vecHits filter (poolOf q.k) <+: c.vecHits filter (poolOf k') ∧
      c.ftsHits filter q.text (poolOf q.k) <+: c.ftsHits filter q.text (poolOf k') ∧
      ∀ [Field F] [LinearOrder F] [IsStrictOrderedRing F] [Exact F], 0 ≤ q.weights.sim →
        report.hits.length ≤ report'.hits.length := by
  constructor
  · have hlegs : LegsAnswer c.engine c.legs (.fromQuery agentId q now) q.text (poolOf q.k) c.queryVec ↔
        '\x00' ∉ agentId.toList ∧ c.engine.accepts (ftsMatchExpr q.text) = true ∧ q.k < 2 ^ 61 ∧
          (c.queryVec.isSome → q.k ≤ 1024) ∧
          ∀ hit ∈ c.vecHits (.fromQuery agentId q now) (poolOf q.k), F64.le hit.2 hit.2 = true := by
      rw [← pool_le_limit hk, ← pool_le_knn]
      exact ⟨fun h => ⟨h.agent, h.parses, h.limit, h.knn, h.numbers⟩,
        fun ⟨hagent, hparses, hlimit, hknn, hnumbers⟩ => ⟨hagent, hparses, hlimit, hknn, hnumbers⟩⟩
    constructor
    · rintro ⟨report, h⟩
      obtain ⟨hanswer, hplain, _⟩ := (Call.recall_ok_iff htext hdim).mp h
      obtain ⟨hagent, hparses, hlimit, hknn, hnumbers⟩ := hlegs.mp hanswer
      exact ⟨hagent, hparses, hlimit, hknn, hnumbers, (Call.fused_plain_iff hids).mp hplain⟩
    · intro h
      have hanswer := hlegs.mpr ⟨h.agent, h.parses, h.limit, h.knn, h.numbers⟩
      exact ⟨_, (Call.recall_ok_iff htext hdim).mpr
        ⟨hanswer, (Call.fused_plain_iff hids).mpr h.ids, rfl⟩⟩
  · intro k' hle report report' h h' filter
    have hpool : poolOf q.k ≤ poolOf k' := pool_mono hle
    refine ⟨nearestIn_initial hpool, (matchingIn_initial hpool).map _, fun hsim => ?_⟩
    obtain ⟨_, _, rfl⟩ := (Call.recall_ok_iff htext hdim).mp h
    obtain ⟨_, _, rfl⟩ := (Call.recall_ok_iff (q := { q with k := k' }) htext hdim).mp h'
    rw [Call.length_report, Call.length_report]
    exact Call.length_candidates_mono hpool hsim hle

/-- Two rows that match, and their vectors of one component. -/
def sampleStore : Db ℚ :=
  { sampleCorpus with
    embedDim := 1
    vecs := [⟨1, [1], .semantic, 0, 0, .fact, 0⟩, ⟨2, [2], .semantic, 0, 0, .fact, 0⟩] }

def sampleCall : Call ℚ := ⟨sampleEngine, id, sampleStore, sampleStore, sampleStore, some [1]⟩

/-- Both legs list both rows, and a `k` of two reports no fewer than a `k` of one. -/
theorem recall_total_iff_sample : ∃ report report',
    recallWithClock (sampleCall.reads "sky") "default" { sampleQuery with k := 1 } 0 = .ok report ∧
      recallWithClock (sampleCall.reads "sky") "default" { sampleQuery with k := 2 } 0 = .ok report' ∧
      report.hits.length ≤ report'.hits.length := by
  have hdim : ∀ vec, sampleCall.queryVec = some vec → vec.length = sampleCall.legs.embedDim :=
    fun vec hvec => by rw [← Option.some.inj hvec]; rfl
  have hanswers : ∀ k, k = 1 ∨ k = 2 → sampleCall.Answers "default" { sampleQuery with k } 0 := by
    rintro k (rfl | rfl) <;>
      exact ⟨by decide, rfl, by decide, by decide, by decide +kernel, by decide +kernel⟩
  obtain ⟨hone, hgrows⟩ := recall_total_iff sampleCall "default" (q := { sampleQuery with k := 1 })
    (by decide) (by decide) 0 hdim (by decide)
  obtain ⟨htwo, -⟩ := recall_total_iff sampleCall "default" (q := { sampleQuery with k := 2 })
    (by decide) (by decide) 0 hdim (by decide)
  obtain ⟨report, h⟩ := hone.mpr (hanswers 1 (.inl rfl))
  obtain ⟨report', h'⟩ := htwo.mpr (hanswers 2 (.inr rfl))
  exact ⟨report, report', h, h', (hgrows 2 (by decide) report report' h h').2.2 (by decide +kernel)⟩

/-- With a vector a `k` of 1025 is refused. -/
theorem recall_refuses_large_k :
    (recallWithClock (sampleCall.reads "sky") "default" { sampleQuery with k := 1025 } 0).map
      RecallReport.noHit =
    .error (.storage "k value in knn query too large, provided 4100 and the limit is 4096") := by
  decide +kernel

end AgosMemory.Recall
