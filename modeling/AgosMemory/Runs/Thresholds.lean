import AgosMemory.Exact
import AgosMemory.Library.Dot
import AgosMemory.Library.Ranking
import AgosMemory.Runs.Consolidation

/-!
# The two dedup thresholds

A write compares a candidate with the nearest vector of its tier and bumps it if their similarity
exceeds the threshold; a consolidation merges two rows if their similarity meets it. So it merges what
the writes kept apart when a similarity is the threshold itself, and when a row has no vector.
-/

namespace AgosMemory.Consolidate

open Library Library.Program Store Persist

variable {F : Type} [Field F] [LinearOrder F] [IsStrictOrderedRing F] [F64 F] [Exact F]
  {env : Env F}

/-! ## Similarities in exact arithmetic -/

/-- A vector of length one with as many components as the store expects. -/
structure IsUnit (embedDim : Nat) (v : List F) : Prop where
  length : v.length = embedDim
  norm : dot v v = 1

omit [F64 F] [Exact F] in
theorem IsUnit.length_ne_zero {embedDim : Nat} {v : List F} (h : IsUnit embedDim v) : v.length ≠ 0 := by
  intro hnil
  have hnorm := h.norm
  rw [List.eq_nil_of_length_eq_zero hnil] at hnorm
  exact zero_ne_one hnorm

/-- The cosine distance of sqlite-vec, for unit vectors. -/
def Cosine (env : Env F) : Prop :=
  ∀ embedDim v w, IsUnit embedDim v → IsUnit embedDim w → env.distance v w = 1 - dot v w

private theorem foldl_add_exact (l : List F) (x : F) : l.foldl F64.add x = x + l.sum := by
  induction l generalizing x with
  | nil => rw [List.foldl_nil, List.sum_nil, add_zero]
  | cons y l ih => rw [List.foldl_cons, ih, Exact.add, List.sum_cons, add_assoc]

private theorem cosineSimilarity_exact {embedDim : Nat} {v w : List F} (hv : IsUnit embedDim v)
    (hw : IsUnit embedDim w) : cosineSimilarity v w = dot v w := by
  have hlength := hv.length.trans hw.length.symm
  have hmul : List.zipWith F64.mul v w = List.zipWith (· * ·) v w := by
    congr 1
    funext x y
    exact Exact.mul x y
  have hsum : (List.zipWith F64.mul v w).foldl F64.add (F64.ofRat 0) = dot v w := by
    rw [foldl_add_exact, Exact.ofRat, hmul, Rat.cast_zero, zero_add, dot]
  rw [cosineSimilarity, hsum, Exact.ofRat, Exact.ofRat]
  refine F64.clamp_exact _ _ _ ?_ ?_
  · simpa using neg_one_le_dot hlength hv.norm hw.norm
  · simpa using dot_le_one hlength hv.norm hw.norm

private theorem similarity_exact (hcosine : Cosine env) {embedDim : Nat} {v w : List F}
    (hv : IsUnit embedDim v) (hw : IsUnit embedDim w) :
    similarity (env.distance v w) = dot v w := by
  have hlength := hv.length.trans hw.length.symm
  have hle := dot_le_one hlength hv.norm hw.norm
  have hge := neg_one_le_dot hlength hv.norm hw.norm
  have hclamp : F64.clamp (F64.ofRat 0) (F64.ofRat 2) (env.distance v w) = 1 - dot v w := by
    rw [hcosine embedDim v w hv hw, Exact.ofRat, Exact.ofRat]
    refine F64.clamp_exact _ _ _ ?_ ?_
    · simpa using hle
    · push_cast
      linarith only [hge]
  rw [similarity, hclamp, Exact.sub, Exact.ofRat, Rat.cast_one]
  exact sub_sub_cancel 1 _

/-! ## What the writes keep apart -/

/-- The stored vectors are unit vectors, and no two of a tier are more similar than the threshold. -/
structure Spread (threshold : F) (db : Db F) : Prop where
  units : ∀ v ∈ db.vecs, IsUnit db.embedDim v.embedding
  apart : db.vecs.Pairwise fun v w => v.tier = w.tier → dot v.embedding w.embedding ≤ threshold

section

variable {threshold : F} {db db' : Db F}

private theorem knn_sorted {q : List F} {tier : String} :
    (knn env db q tier).Pairwise fun a b => a.2 ≤ b.2 := by
  have htotal : Std.Total fun a b : Int × F => F64.le a.2 b.2 = true := ⟨fun a b => by
    rw [Exact.le, Exact.le, decide_eq_true_eq, decide_eq_true_eq]
    exact le_total a.2 b.2⟩
  have htrans : IsTrans (Int × F) fun a b => F64.le a.2 b.2 = true := ⟨fun a b c hab hbc => by
    rw [Exact.le, decide_eq_true_eq] at hab hbc ⊢
    exact hab.trans hbc⟩
  unfold knn
  split
  · exact .nil
  · refine (List.pairwise_insertionSort _ _).imp fun {a b} hle => ?_
    rwa [Exact.le, decide_eq_true_eq] at hle

/-- A search finds something that is no farther than a given vector of the tier. -/
private theorem exists_knn_le {q : List F} (hq : q.length = db.embedDim) (hne : q.length ≠ 0)
    {tier : String}
    {v : VecRow F} (hv : v ∈ db.vecs) (htier : v.tier.sql = tier) :
    ∃ p ∈ knn env db q tier, p.2 ≤ env.distance v.embedding q := by
  have hordered : F64.Ordered F := F64.ordered_of_exact
  have hcell : Vec0.cellOf (Vec0.positions db) (fun embedding => env.distance embedding q) v ∈
      (db.vecs.filter fun v => v.tier.sql = tier).map
        (Vec0.cellOf (Vec0.positions db) fun embedding => env.distance embedding q) :=
    List.mem_map_of_mem (List.mem_filter.mpr ⟨hv, decide_eq_true htier⟩)
  unfold knn
  rw [if_neg (not_or.mpr ⟨hne, not_not_intro hq⟩)]
  dsimp only
  generalize (db.vecs.filter fun v => v.tier.sql = tier).map _ = cells at hcell
  obtain ⟨chunk, hchunk, hin⟩ := Vec0.exists_byChunk hcell
  have hstarts : Vec0.Starts (Vec0.nearest (Vec0.vecLayout F db.embedDim).chunkSize 3
      (Vec0.byChunk cells)) _ :=
    Vec0.starts_nearest (by decide) (Vec0.vecLayout F db.embedDim).positive
      fun c _ => F64.le_self_exact c.distance
  generalize Vec0.nearest (Vec0.vecLayout F db.embedDim).chunkSize 3 (Vec0.byChunk cells) = found
    at hstarts
  have hflat := List.mem_flatten_of_mem hchunk hin
  cases found with
  | nil =>
    rw [hstarts.empty rfl] at hflat
    cases hflat
  | cons n found =>
    have hle := (hstarts.least n rfl).2 _ hflat
    rw [Exact.le, decide_eq_true_eq] at hle
    refine ⟨(n.rowid, n.distance), (List.mem_insertionSort _).mpr ?_, hle⟩
    refine List.mem_map.mpr ⟨n, List.mem_filter.mpr ⟨List.mem_cons_self, ?_⟩, rfl⟩
    exact F64.le_self_exact n.distance

/-- A search lists a nearest vector of the tier first. -/
private theorem knn_head {q : List F} (hq : q.length = db.embedDim) (hne : q.length ≠ 0)
    {tier : String}
    {v : VecRow F} (hv : v ∈ db.vecs) (htier : v.tier.sql = tier) : ∃ w ∈ db.vecs,
      (knn env db q tier).head? = some (w.rowid, env.distance w.embedding q) ∧
      env.distance w.embedding q ≤ env.distance v.embedding q := by
  have hlisted : ∃ p ∈ knn env db q tier, p.2 ≤ env.distance v.embedding q :=
    exists_knn_le hq hne hv htier
  obtain ⟨p, hp, hle⟩ := hlisted
  have hsorted : (knn env db q tier).Pairwise fun a b => a.2 ≤ b.2 := knn_sorted
  cases hlist : knn env db q tier with
  | nil =>
    rw [hlist] at hp
    cases hp
  | cons first rest =>
    obtain ⟨w, hw, -, rfl⟩ := mem_knn (hlist ▸ List.mem_cons_self)
    refine ⟨w, hw, rfl, ?_⟩
    rw [hlist] at hp hsorted
    rcases List.mem_cons.mp hp with rfl | hrest
    · exact hle
    · exact ((List.pairwise_cons.mp hsorted).1 p hrest).trans hle

/-- A candidate that is not a duplicate is similar to no row of its tier beyond the threshold. -/
private theorem dot_le_of_unique (hcosine : Cosine env)
    (hunits : ∀ v ∈ db.vecs, IsUnit db.embedDim v.embedding) {q : List F}
    (hq : IsUnit db.embedDim q) {tier : String} (h : duplicateOf env db q tier threshold = none)
    {v : VecRow F} (hv : v ∈ db.vecs) (htier : v.tier.sql = tier) :
    dot v.embedding q ≤ threshold := by
  have hne : q.length ≠ 0 := hq.length_ne_zero
  obtain ⟨w, hw, hhead, hle⟩ := @knn_head F _ _ _ _ _ env db q hq.length hne tier v hv htier
  unfold duplicateOf at h
  rw [hhead] at h
  dsimp only at h
  rw [similarity_exact hcosine (hunits w hw) hq, Exact.lt] at h
  rw [hcosine _ _ _ (hunits w hw) hq, hcosine _ _ _ (hunits v hv) hq] at hle
  have hfar : ¬ threshold < dot w.embedding q := by
    intro hlt
    rw [decide_eq_true hlt] at h
    cases h
  linarith only [hle, hfar]

omit [Field F] [LinearOrder F] [IsStrictOrderedRing F] [Exact F] in
private theorem duplicateOf_congr (hvecs : db'.vecs = db.vecs) (hlog : db'.vecLog = db.vecLog)
    (hdim : db'.embedDim = db.embedDim) (q : List F) (tier : String) (threshold : F) :
    duplicateOf env db' q tier threshold = duplicateOf env db q tier threshold := by
  unfold duplicateOf knn Vec0.positions Vec0.statements
  rw [hvecs, hlog, hdim]

/-! ## One write -/

omit [IsStrictOrderedRing F] [F64 F] [Exact F] in
theorem Spread.congr (h : Spread threshold db) (hvecs : db'.vecs = db.vecs)
    (hdim : db'.embedDim = db.embedDim) : Spread threshold db' := by
  refine ⟨?_, ?_⟩
  · rw [hvecs, hdim]
    exact h.units
  · rw [hvecs]
    exact h.apart

omit [IsStrictOrderedRing F] [F64 F] [Exact F] in
theorem Spread.updateVec (h : Spread threshold db) {rowid : Int} {f : VecRow F → VecRow F}
    (hf : ∀ v, SameVec v (f v)) : Spread threshold (db.updateVec rowid f) := by
  have hsame : ∀ v, (if v.rowid = rowid then f v else v).embedding = v.embedding ∧
      (if v.rowid = rowid then f v else v).tier = v.tier := by
    intro v
    split
    · exact ⟨(hf v).embedding, (hf v).tier⟩
    · exact ⟨rfl, rfl⟩
  refine ⟨fun v' hv' => ?_, ?_⟩
  · obtain ⟨v, hv, rfl⟩ := mem_updateVec.mp hv'
    rw [(hsame v).1]
    exact h.units v hv
  · refine List.pairwise_map.mpr (h.apart.imp fun {v w} hvw htier => ?_)
    rw [(hsame v).1, (hsame w).1]
    rw [(hsame v).2, (hsame w).2] at htier
    exact hvw htier

theorem Spread.insertVec (h : Spread threshold db) (hcosine : Cosine env) {v : VecRow F}
    (hunit : dot v.embedding v.embedding = 1)
    (hunique : duplicateOf env db v.embedding v.tier.sql threshold = none)
    (hinsert : insertVec v db = .ok ((), db')) : Spread threshold db' := by
  have hlength : v.embedding.length = db.embedDim := by
    unfold Store.insertVec at hinsert
    split at hinsert
    · cases hinsert
    · next hlength => exact not_not.mp hlength
  obtain ⟨_, rfl⟩ := insertVec_ok hinsert
  refine ⟨fun w hw => ?_, List.pairwise_append.mpr ⟨h.apart, List.pairwise_singleton _ _, ?_⟩⟩
  · rcases List.mem_append.mp hw with hw | hw
    · exact h.units w hw
    · rw [List.mem_singleton.mp hw]
      exact ⟨hlength, hunit⟩
  · intro w hw v' hv' htier
    obtain rfl := List.mem_singleton.mp hv'
    exact dot_le_of_unique hcosine h.units ⟨hlength, hunit⟩ hunique hw (congrArg Tier.sql htier)

/-- The embedder answers a text with a vector of length one. -/
def UnitEmbedder (emb : Embedder F) : Prop :=
  ∀ n text vecs, emb.embed n [text] = .ok vecs → dot (vecs.headD []) (vecs.headD []) = 1

omit [IsStrictOrderedRing F] [F64 F] [Exact F] in
/-- A statement that keeps the vectors. -/
private theorem keepsSpread_of_vecs (hvecs : db'.vecs = db.vecs) (hdim : db'.embedDim = db.embedDim) :
    Preserves (Spread threshold) db db' := fun h => h.congr hvecs hdim

private theorem spread_insertEmbedded (hcosine : Cosine env) {emb : Embedder F} {cand : Candidate F}
    {text ev sk : String} {pending : F} {vec : List F} {now : Int} (hunit : dot vec vec = 1) :
    MovesFrom (fun c => duplicateOf env c.db vec cand.tier threshold = none)
      (OnDb (Preserves (Spread threshold)))
      (insertEmbedded env emb cand text ev sk pending vec now) := by
  unfold insertEmbedded
  have hfresh : Moves (OnDb (Preserves (Spread threshold))) (insertFresh env cand text ev sk
      pending ⟨.ok, some emb.model, some vec.length⟩ now) := by
    unfold insertFresh
    refine moves_bind onDb_newUuid fun publicId => ?_
    refine moves_bind moves_get fun c => ?_
    refine moves_bind (onDb_exec fun db m db' h => ?_) fun row => ?_
    · obtain ⟨_, _, rfl⟩ := insertMemoryRow_ok h
      exact keepsSpread_of_vecs rfl rfl
    refine moves_bind (onDb_exec fun db _ db' h => ?_) fun _ => moves_pure row
    obtain ⟨_, _, rfl⟩ := insertVersion_ok h
    exact keepsSpread_of_vecs rfl rfl
  refine movesFrom_bind (fun m c => duplicateOf env c.db vec cand.tier threshold = none ∧
    m.tier.sql = cand.tier) hfresh.from (fun s m t hs h => ?_) fun m => ?_
  · obtain ⟨publicId, db, hrow, hversion, _⟩ := insertFresh_ok h
    obtain ⟨hbuilt, _, rfl⟩ := insertMemoryRow_ok hrow
    obtain ⟨_, _, hdb⟩ := insertVersion_ok hversion
    refine ⟨?_, hbuilt.tier⟩
    have hsame : duplicateOf env t.db vec cand.tier threshold =
        duplicateOf env s.db vec cand.tier threshold :=
      duplicateOf_congr (by rw [hdb]) (by rw [hdb]) (by rw [hdb]) vec cand.tier threshold
    rw [hsame]
    exact hs
  · refine movesFrom_bind (fun _ _ => True) (onDbFrom_exec fun c _ db' hc h => ?_)
      (fun _ _ _ _ _ => trivial) fun _ => (moves_pure _).from
    intro hspread
    refine hspread.insertVec hcosine hunit ?_ h
    rw [hc.2]
    exact hc.1

/-- A call of the write path keeps the vectors of a tier apart. -/
private theorem spread_persist (hcosine : Cosine env) {emb : Embedder F} (hemb : UnitEmbedder emb)
    (cand : Candidate F) (ev sk : String) (pending : F) :
    Moves (OnDb (Preserves (Spread threshold)))
      (persistCandidateFull env emb cand ev sk pending threshold) := by
  unfold persistCandidateFull
  refine moves_bind_from (fun vecs _ => dot (vecs.headD []) (vecs.headD []) = 1) onDb_call
    (fun s vecs t h => hemb _ _ _ (Prod.mk.inj h).1) fun vecs s hunit => ?_
  refine moves_bind onDb_nowMillis (fun now => ?_) s
  refine moves_bind_from (fun chosen c =>
    duplicateOf env c.db (vecs.headD []) cand.tier threshold = chosen) onDb_query
    (fun s chosen t h => ?_) fun chosen => ?_
  · obtain ⟨hchosen, hdb⟩ := query_ok h
    rw [hdb]
    exact Except.ok.inj hchosen
  cases chosen with
  | none => exact spread_insertEmbedded hcosine hunit
  | some rowid =>
    refine (moves_bind ?_ fun _ => moves_bind onDb_query fun _ => moves_pure _).from
    refine onDb_bump (fun db db' trust kept cluster h => ?_) (fun db trust => ?_) fun db db' h => ?_
    · obtain ⟨sk, merged, bumps, rfl⟩ := mergeSource_update h
      exact keepsSpread_of_vecs rfl rfl
    · exact fun hspread => hspread.updateVec fun v => ⟨rfl, rfl, rfl, rfl⟩
    · obtain ⟨links, rfl⟩ := linkRefines_ok h
      exact keepsSpread_of_vecs rfl rfl

end

/-! ## What a consolidation compares -/

section

variable {cfg : Config F} {dim : Nat} {db : Db F}

/-- The stored vector of a row, if it has the dimension. -/
def storedVec (dim : Nat) (db : Db F) (id : Int) : Option (List F) :=
  ((db.vecs.find? fun v => v.rowid = id).map VecRow.embedding).bind fun blob =>
    decodeF32Blob blob dim

/-- The vector that a row is compared by: the stored one, else that of its text. -/
def comparedBy (cfg : Config F) (dim : Nat) (db : Db F) (m : Memory F) : List F :=
  (storedVec dim db m.id).getD (cfg.hashToUnitVector m.text dim)

/-- Two active rows of one tier, the first of which is compared first. -/
structure Compared (db : Db F) (a b : Memory F) : Prop where
  left : a ∈ db.memories ∧ a.status = .active
  right : b ∈ db.memories ∧ b.status = .active
  tier : a.tier = b.tier
  before : a.id < b.id

omit [Field F] [LinearOrder F] [IsStrictOrderedRing F] [F64 F] [Exact F] in
theorem dedupOrder_total : Std.Total (dedupOrder (F := F)) where
  total a b := by
    unfold dedupOrder
    by_cases hlt : a.tier.sql < b.tier.sql
    · exact .inl (.inl hlt)
    by_cases hgt : b.tier.sql < a.tier.sql
    · exact .inr (.inl hgt)
    have heq := String.le_antisymm (String.not_lt.mp hgt) (String.not_lt.mp hlt)
    rcases le_total a.id b.id with hle | hle
    · exact .inl (.inr ⟨heq, hle⟩)
    · exact .inr (.inr ⟨heq.symm, hle⟩)

omit [Field F] [LinearOrder F] [IsStrictOrderedRing F] [F64 F] [Exact F] in
theorem dedupOrder_trans : IsTrans (Memory F) dedupOrder where
  trans a b c hab hbc := by
    rcases hab with hab | ⟨hab, hid⟩
    · rcases hbc with hbc | ⟨hbc, _⟩
      · exact .inl (String.lt_trans hab hbc)
      · exact .inl (hbc ▸ hab)
    · rcases hbc with hbc | ⟨hbc, hid'⟩
      · exact .inl (hab ▸ hbc)
      · exact .inr ⟨hab.trans hbc, hid.trans hid'⟩

omit [Field F] [LinearOrder F] [IsStrictOrderedRing F] [Exact F] in
/-- Rows are apart when each is apart from the earlier ones of its tier. -/
private theorem apart_iff (hids : (db.memories.map Memory.id).Nodup) : Apart cfg dim db ↔
    ∀ a b, Compared db a b → F64.le cfg.dedupThreshold
      (cosineSimilarity (comparedBy cfg dim db b) (comparedBy cfg dim db a)) = false := by
  have htotal := dedupOrder_total (F := F)
  have htrans := dedupOrder_trans (F := F)
  unfold Apart members dedupRows
  rw [List.map_map, List.pairwise_map]
  have hsorted := List.pairwise_insertionSort dedupOrder
    (db.memories.filter fun m => m.status = .active)
  have hmem : ∀ m, m ∈ (db.memories.filter fun m => m.status = .active).insertionSort dedupOrder ↔
      m ∈ db.memories ∧ m.status = .active := fun m => by
    rw [List.mem_insertionSort, List.mem_filter, decide_eq_true_eq]
  have hnodup : ((db.memories.filter fun m => m.status = .active).insertionSort
      dedupOrder).Pairwise fun a b => a.id ≠ b.id := by
    refine List.pairwise_map.mp (((List.perm_insertionSort _ _).map Memory.id).nodup_iff.mpr ?_)
    exact hids.sublist (List.filter_sublist.map _)
  -- of two rows of a tier, the one with the smaller id comes first
  have halong : ((db.memories.filter fun m => m.status = .active).insertionSort dedupOrder).Pairwise
      fun a b => ¬ (b.tier = a.tier ∧ b.id < a.id) := hsorted.imp fun {a b} hab => by
    rintro ⟨htier, hlt⟩
    rcases hab with hsql | ⟨_, hid⟩
    · rw [htier] at hsql
      exact absurd hsql (String.lt_irrefl _)
    · exact absurd hid hlt.not_ge
  have hall := Ranking.pairwise_along (R := fun a b => F64.le cfg.dedupThreshold
    (cosineSimilarity (comparedBy cfg dim db b) (comparedBy cfg dim db a)) = false)
    (fun a h => absurd h.2 (lt_irrefl a.id)) halong
  refine Iff.trans ⟨fun hpairs => ?_, fun hpairs => ?_⟩ (hall.trans ⟨fun h a b hab => ?_, ?_⟩)
  · exact hpairs.imp fun {a b} h hlt => h hlt.1
  · refine ((hsorted.and hnodup).and hpairs).imp fun {a b} hab htier => hab.2 ⟨htier, ?_⟩
    rcases hab.1.1 with hsql | ⟨_, hid⟩
    · rw [htier] at hsql
      exact absurd hsql (String.lt_irrefl _)
    · exact lt_of_le_of_ne hid hab.1.2
  · exact h a ((hmem a).mpr hab.left) b ((hmem b).mpr hab.right) ⟨hab.tier, hab.before⟩
  · exact fun h a ha b hb hlt =>
      h a b ⟨(hmem a).mp ha, (hmem b).mp hb, hlt.1, hlt.2⟩

/-- Neither is the similarity of two stored vectors the threshold, nor does that of the vectors in
their place meet it, if a row has none. -/
structure Untied (cfg : Config F) (dim : Nat) (db : Db F) (a b : Memory F) : Prop where
  stored : ∀ v w, storedVec dim db a.id = some v → storedVec dim db b.id = some w →
    dot v w ≠ cfg.dedupThreshold
  replaced : storedVec dim db a.id = none ∨ storedVec dim db b.id = none → F64.le cfg.dedupThreshold
    (cosineSimilarity (comparedBy cfg dim db b) (comparedBy cfg dim db a)) = false

omit [Field F] [LinearOrder F] [IsStrictOrderedRing F] [F64 F] [Exact F] in
/-- The stored vector of a row is that of a vector row of its tier. -/
private theorem storedVec_some (hdb : Wellformed env db) {m : Memory F} (hm : m ∈ db.memories)
    {v : List F}
    (h : storedVec dim db m.id = some v) :
    ∃ x ∈ db.vecs, x.rowid = m.id ∧ x.embedding = v ∧ x.tier = m.tier := by
  obtain ⟨blob, hblob, hdecoded⟩ := Option.bind_eq_some_iff.mp h
  obtain ⟨x, hfind, rfl⟩ := Option.map_eq_some_iff.mp hblob
  rw [decodeF32Blob] at hdecoded
  split at hdecoded
  · cases hdecoded
  obtain rfl := Option.some.inj hdecoded
  have hx := List.mem_of_find?_eq_some hfind
  have hrowid : x.rowid = m.id := by simpa using List.find?_some hfind
  obtain ⟨m', hm', hid, _, htier, _⟩ := hdb.vecs x hx
  obtain rfl := List.inj_on_of_nodup_map hdb.ids hm' hm (hid.trans hrowid)
  exact ⟨x, hx, hrowid, rfl, htier.symm⟩

omit [IsStrictOrderedRing F] [F64 F] [Exact F] in
/-- Different rows of one tier have vectors that the writes kept apart. -/
theorem Spread.dot_le {threshold : F} (h : Spread threshold db) {x y : VecRow F} (hx : x ∈ db.vecs)
    (hy : y ∈ db.vecs) (hne : x.rowid ≠ y.rowid) (htier : x.tier = y.tier) :
    dot x.embedding y.embedding ≤ threshold := by
  have hsymm : Std.Symm fun v w : VecRow F =>
      v.rowid ≠ w.rowid → v.tier = w.tier → dot v.embedding w.embedding ≤ threshold :=
    ⟨fun v w hvw hne htier => dot_comm v.embedding w.embedding ▸ hvw hne.symm htier.symm⟩
  have hpairs : db.vecs.Pairwise fun v w =>
      v.rowid ≠ w.rowid → v.tier = w.tier → dot v.embedding w.embedding ≤ threshold :=
    h.apart.imp fun {v w} hvw (_ : v.rowid ≠ w.rowid) => hvw
  exact hpairs.forall_of_forall (fun v _ hne _ => absurd rfl hne) hx hy hne htier

private theorem far_iff_untied (hdb : Wellformed env db) (hspread : Spread cfg.dedupThreshold db)
    {a b : Memory F} (hab : Compared db a b) :
    F64.le cfg.dedupThreshold (cosineSimilarity (comparedBy cfg dim db b) (comparedBy cfg dim db a)) =
      false ↔ Untied cfg dim db a b := by
  cases ha : storedVec dim db a.id with
  | none =>
    refine ⟨fun h => ⟨fun v w hv => ?_, fun _ => h⟩, fun h => h.replaced (.inl ha)⟩
    rw [ha] at hv
    cases hv
  | some v =>
    cases hb : storedVec dim db b.id with
    | none =>
      refine ⟨fun h => ⟨fun v w _ hw => ?_, fun _ => h⟩, fun h => h.replaced (.inr hb)⟩
      rw [hb] at hw
      cases hw
    | some w =>
      obtain ⟨x, hx, hxid, rfl, hxtier⟩ := storedVec_some hdb hab.left.1 ha
      obtain ⟨y, hy, hyid, rfl, hytier⟩ := storedVec_some hdb hab.right.1 hb
      have hle : dot x.embedding y.embedding ≤ cfg.dedupThreshold :=
        hspread.dot_le hx hy (by rw [hxid, hyid]; exact hab.before.ne)
          (by rw [hxtier, hytier]; exact hab.tier)
      have hcompared : ∀ m (z : VecRow F), storedVec dim db m.id = some z.embedding →
          comparedBy cfg dim db m = z.embedding := fun m z hm => by
        rw [comparedBy, hm, Option.getD_some]
      have hfar : F64.le cfg.dedupThreshold
          (cosineSimilarity (comparedBy cfg dim db b) (comparedBy cfg dim db a)) = false ↔
          dot x.embedding y.embedding ≠ cfg.dedupThreshold := by
        rw [hcompared a x ha, hcompared b y hb,
          cosineSimilarity_exact (hspread.units y hy) (hspread.units x hx), dot_comm, Exact.le,
          decide_eq_false_iff_not, not_le]
        exact ⟨fun hlt => hlt.ne, fun hne => lt_of_le_of_ne hle hne⟩
      refine hfar.trans ⟨fun hne => ⟨fun v w hv hw => ?_, fun hnone => ?_⟩, fun h => ?_⟩
      · obtain rfl := Option.some.inj (ha.symm.trans hv)
        obtain rfl := Option.some.inj (hb.symm.trans hw)
        exact hne
      · rcases hnone with hnone | hnone
        · rw [ha] at hnone; cases hnone
        · rw [hb] at hnone; cases hnone
      · exact h.stored _ _ ha hb

end

/-! ## Writes, then a consolidation -/

/-- The arguments of one call of the write path. -/
structure PersistCall (F : Type) where
  cand : Candidate F
  extractorVersion : String
  sourceKind : String
  pendingThreshold : F

def PersistCall.op {F : Type} (emb : Embedder F) (dedupThreshold : F) (call : PersistCall F) :
    Op F :=
  .persistFull emb call.cand call.extractorVersion call.sourceKind call.pendingThreshold
    dedupThreshold

/-- The store after a sequence of calls of the write path. -/
def written (env : Env F) (emb : Embedder F) (dedupThreshold : F) (calls : List (PersistCall F))
    (agentId : String) (embedDim : Nat) : Conn F :=
  runOps env (calls.map (PersistCall.op emb dedupThreshold)) (emptyStore F agentId embedDim)

private theorem spread_written (hcosine : Cosine env) {emb : Embedder F} (hemb : UnitEmbedder emb)
    (threshold : F) (calls : List (PersistCall F)) (agentId : String) (embedDim : Nat) :
    Spread threshold (written env emb threshold calls agentId embedDim).db := by
  have hrun : ∀ c : Conn F, Spread threshold c.db →
      Spread threshold (runOps env (calls.map (PersistCall.op emb threshold)) c).db := by
    induction calls with
    | nil => exact fun c h => h
    | cons call calls ih =>
      intro c h
      exact ih _ (moves_effect (spread_persist hcosine hemb call.cand call.extractorVersion
        call.sourceKind call.pendingThreshold) c h)
  exact hrun _ ⟨List.forall_mem_nil _, .nil⟩

/-- After any sequence of writes a consolidation with their threshold merges nothing exactly if no two
active rows of a tier are tied, by the vectors of the dimension that it reads. -/
theorem thresholds_agree_iff (hcosine : Cosine env) {emb : Embedder F} (hemb : UnitEmbedder emb)
    (cfg : Config F) (calls : List (PersistCall F)) (agentId : String) (embedDim : Nat) {merged : Nat}
    {c' : Conn F} (h : (dedupConsolidation env cfg).alone
      (written env emb cfg.dedupThreshold calls agentId embedDim) = (.ok merged, c')) :
    merged = 0 ↔ ∀ a b,
      Compared (written env emb cfg.dedupThreshold calls agentId embedDim).db a b →
      Untied cfg (dimRead env (written env emb cfg.dedupThreshold calls agentId embedDim))
        (written env emb cfg.dedupThreshold calls agentId embedDim).db a b := by
  have hdb : Wellformed env (written env emb cfg.dedupThreshold calls agentId embedDim).db :=
    (runOps_ran (fun _ => trivial) (fun _ _ _ _ => trivial) _).preserves
      (fun _ _ => Edit.wellformed) (.empty embedDim)
  have hspread := spread_written hcosine hemb cfg.dedupThreshold calls agentId embedDim
  rw [(merged_eq h).2, merges_eq_zero_iff, apart_iff hdb.ids]
  exact forall₂_congr fun a b => imp_congr_right fun hab => far_iff_untied hdb hspread hab

/-! ## Two unit vectors with a similarity of one half -/

def cosineEnv : Env ℚ := { sampleEnv with distance := fun v w => 1 - dot v w }

/-- Texts of three characters point in one direction, all others in another. -/
def tiltedEmbed (text : String) : List ℚ :=
  if text.length = 3 then [1, 0, 0, 0] else [1 / 2, 1 / 2, 1 / 2, 1 / 2]

def tiltedEmbedder : Embedder ℚ where
  model := "tilted"
  dim := 4
  embed _ texts := .ok (texts.map tiltedEmbed)

private theorem unitEmbedder_tilted : UnitEmbedder tiltedEmbedder := by
  intro n text vecs h
  obtain rfl := Except.ok.inj h
  show dot (tiltedEmbed text) (tiltedEmbed text) = 1
  unfold tiltedEmbed
  split <;> decide +kernel

def tiltedConfig (dedupThreshold : ℚ) : Config ℚ where
  memory := ⟨0, 0, 0, 0⟩
  dedupThreshold
  hashToUnitVector _ _ := [1, 0, 0, 0]

def tiltedCalls : List (PersistCall ℚ) :=
  [⟨⟨"semantic", "fact", "sky", 1⟩, "v1", "user", 0⟩,
    ⟨⟨"semantic", "fact", "the sea", 1⟩, "v1", "user", 0⟩]

private theorem cosine_cosineEnv : Cosine cosineEnv := fun _ _ _ _ _ => rfl

/-- Below the threshold the rows stay apart. -/
theorem thresholds_agree_iff_sample : ∃ c',
    (dedupConsolidation cosineEnv (tiltedConfig (3 / 4))).alone
      (written cosineEnv tiltedEmbedder (3 / 4) tiltedCalls "a" 4) = (.ok 0, c') ∧
    ∀ a b, Compared (written cosineEnv tiltedEmbedder (3 / 4) tiltedCalls "a" 4).db a b →
      Untied (tiltedConfig (3 / 4)) 4
        (written cosineEnv tiltedEmbedder (3 / 4) tiltedCalls "a" 4).db a b := by
  have hmerged : ((dedupConsolidation cosineEnv (tiltedConfig (3 / 4))).alone
      (written cosineEnv tiltedEmbedder (3 / 4) tiltedCalls "a" 4)).1 = .ok 0 := by decide +kernel
  refine ⟨_, Prod.ext hmerged rfl, ?_⟩
  have hread : dimRead cosineEnv (written cosineEnv tiltedEmbedder
      (tiltedConfig (3 / 4)).dedupThreshold tiltedCalls "a" 4) = 4 := by decide +kernel
  have huntied := (thresholds_agree_iff cosine_cosineEnv unitEmbedder_tilted (tiltedConfig (3 / 4))
    tiltedCalls "a" 4 (Prod.ext hmerged rfl)).mp rfl
  rw [hread] at huntied
  exact huntied

/-- At the threshold the writes keep two rows apart, and the consolidation merges them. -/
theorem thresholds_disagree : Cosine cosineEnv ∧ UnitEmbedder tiltedEmbedder ∧
    ((written cosineEnv tiltedEmbedder (1 / 2) tiltedCalls "a" 4).db.memories.map fun m =>
      (m.text, m.status)) = [("sky", .active), ("the sea", .active)] ∧
    ((dedupConsolidation cosineEnv (tiltedConfig (1 / 2))).alone
      (written cosineEnv tiltedEmbedder (1 / 2) tiltedCalls "a" 4)).1 = .ok 1 := by
  exact ⟨cosine_cosineEnv, unitEmbedder_tilted, by decide +kernel, by decide +kernel⟩

end AgosMemory.Consolidate
