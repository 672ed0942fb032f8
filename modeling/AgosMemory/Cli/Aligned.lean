import AgosMemory.Cli.Plan

/-!
# The vectors of an import are aligned

The plan hands the `j`-th vector to the `j`-th fresh row, and the write phase numbers the fresh rows
in order. What a batch leaves in the store is listed by both: the rows it added, and the vectors under
their ids.
-/

namespace AgosMemory.Export

open Library Library.Program Store

variable {F : Type}

/-! ## The plan -/

/-- The fresh rows of a batch, in order. -/
def freshRows (batch : List (Nat × ExportRow F)) (fates : List Fate) : List (ExportRow F) :=
  ((batch.zip fates).filter fun p => p.2.isInsert).map fun p => p.1.2

private theorem freshTexts_eq (batch : List (Nat × ExportRow F)) (fates : List Fate) :
    freshTexts batch fates = (freshRows batch fates).map ExportRow.text := by
  rw [freshTexts, freshRows, List.map_map]
  rfl

/-- The vector of the `j`-th fresh row. -/
def vectorAt (dim : Nat) (vectors : List (List F)) (j : Nat) : Option (List F) :=
  if 0 < dim then vectors[j]? else none

/-- A fresh row as it is planned. -/
def plannedFresh (dim : Nat) (vectors : List (List F)) (entry : ExportRow F × Nat) : PlannedRow F :=
  ⟨entry.1, .insert, vectorAt dim vectors entry.2⟩

/-- Without an embedder nothing is handed out. -/
private theorem embedPlan_off {dim : Nat} (hdim : ¬ 0 < dim) (fates : List Fate)
    (vectors : List (List F)) :
    embedPlan dim fates vectors = fates.map fun _ => none := by
  induction fates with
  | nil => rfl
  | cons fate fates ih =>
    cases fate with
    | insert =>
      rw [embedPlan, if_neg hdim, ih]
      rfl
    | bump id => exact congrArg (none :: ·) ih
    | conflict id => exact congrArg (none :: ·) ih

/-- With the first `k` vectors handed out, the fresh rows that follow get the next ones. -/
private theorem planRows_fresh_from (dim : Nat) (vectors : List (List F))
    (batch : List (Nat × ExportRow F))
    (fates : List Fate) (k : Nat) :
    (planRows batch fates (embedPlan dim fates (vectors.drop k))).filter (·.fate.isInsert) =
      ((freshRows batch fates).zipIdx k).map (plannedFresh dim vectors) := by
  induction batch generalizing fates k with
  | nil => rfl
  | cons r batch ih =>
    cases fates with
    | nil => rfl
    | cons fate fates =>
      cases fate with
      | bump id => exact ih fates k
      | conflict id => exact ih fates k
      | insert =>
        have hrows : freshRows (r :: batch) (.insert :: fates) = r.2 :: freshRows batch fates := rfl
        rw [hrows, List.zipIdx_cons, List.map_cons, ← ih fates (k + 1), embedPlan]
        unfold plannedFresh vectorAt
        by_cases hdim : 0 < dim
        · rw [if_pos hdim, if_pos hdim, List.head?_drop, List.tail_drop]
          rfl
        · rw [if_neg hdim, if_neg hdim]
          have hsame : embedPlan dim fates (vectors.drop k) =
              embedPlan dim fates (vectors.drop (k + 1)) := by
            rw [embedPlan_off hdim, embedPlan_off hdim]
          rw [hsame]
          rfl

/-- The `j`-th fresh row is planned with the `j`-th vector. -/
private theorem planRows_fresh (dim : Nat) (vectors : List (List F))
    (batch : List (Nat × ExportRow F))
    (fates : List Fate) :
    (planRows batch fates (embedPlan dim fates vectors)).filter (·.fate.isInsert) =
      (freshRows batch fates).zipIdx.map (plannedFresh dim vectors) :=
  planRows_fresh_from dim vectors batch fates 0

/-- The other rows are planned without a vector. -/
private theorem planRows_stale (dim : Nat) (vectors : List (List F))
    (batch : List (Nat × ExportRow F))
    (fates : List Fate) :
    ∀ p ∈ planRows batch fates (embedPlan dim fates vectors), p.fate.isInsert = false →
      p.vector = none := by
  induction batch generalizing fates vectors with
  | nil => exact fun p hp => absurd hp List.not_mem_nil
  | cons r batch ih =>
    cases fates with
    | nil => exact fun p hp => absurd hp List.not_mem_nil
    | cons fate fates =>
      intro p hp hfate
      cases fate with
      | insert =>
        rw [embedPlan] at hp
        split at hp
        · rcases List.mem_cons.mp hp with rfl | hp
          · cases hfate
          · exact ih vectors.tail fates p hp hfate
        · rcases List.mem_cons.mp hp with rfl | hp
          · cases hfate
          · exact ih vectors fates p hp hfate
      | bump id =>
        rcases List.mem_cons.mp hp with rfl | hp
        · rfl
        · exact ih vectors fates p hp hfate
      | conflict id =>
        rcases List.mem_cons.mp hp with rfl | hp
        · rfl
        · exact ih vectors fates p hp hfate

/-! ## What the store shows -/

/-- The columns of a row that say what it is and what became of its vector. -/
structure Face where
  id : Int
  publicId : String
  text : String
  embedStatus : EmbedStatus
  embedModel : Option String
  embedDim : Option Int

def faceOf (m : Memory F) : Face :=
  ⟨m.id, m.publicId, m.text, m.embedStatus, m.embedModel, m.embedDim⟩

/-- The rows numberedFrom after `seq`. -/
def facesAbove (seq : Int) (db : Db F) : List Face :=
  (db.memories.filter fun m => seq < m.id).map faceOf

def vectorsOf (db : Db F) : List (Int × List F) := db.vecs.map fun v => (v.rowid, v.embedding)

/-- The rows after `seq` and all vectors are as before. -/
structure SameAbove (seq : Int) (db db' : Db F) : Prop where
  faces : facesAbove seq db' = facesAbove seq db
  vectors : vectorsOf db' = vectorsOf db
  memorySeq : db'.memorySeq = db.memorySeq

instance (seq : Int) : Std.Refl (SameAbove (F := F) seq) where
  refl _ := ⟨rfl, rfl, rfl⟩

instance (seq : Int) : IsTrans (Db F) (SameAbove seq) where
  trans _ _ _ hab hbc := ⟨hbc.faces.trans hab.faces, hbc.vectors.trans hab.vectors,
    hbc.memorySeq.trans hab.memorySeq⟩

/-- A change of a row up to `seq`, or one that its face does not show. -/
private theorem facesAbove_updateMemory {seq id : Int} {f : Memory F → Memory F} (db : Db F)
    (hid : ∀ m, (f m).id = m.id) (hf : id ≤ seq ∨ ∀ m, faceOf (f m) = faceOf m) :
    facesAbove seq (db.updateMemory id f) = facesAbove seq db := by
  unfold facesAbove Db.updateMemory
  rw [List.filter_map, List.map_map]
  have hfilter : ((fun m : Memory F => decide (seq < m.id)) ∘ fun m => if m.id = id then f m else m) =
      fun m => decide (seq < m.id) := by
    funext m
    show decide (seq < (if m.id = id then f m else m).id) = decide (seq < m.id)
    split
    · rw [hid]
    · rfl
  rw [hfilter]
  refine List.map_congr_left fun m hm => ?_
  show faceOf (if m.id = id then f m else m) = faceOf m
  split
  · next heq =>
    rcases hf with hle | hface
    · have hlt := of_decide_eq_true (List.mem_filter.mp hm).2
      omega
    · exact hface m
  · rfl

private theorem vectorsOf_updateVec {rowid : Int} {f : VecRow F → VecRow F} (db : Db F)
    (hf : ∀ v, (f v).rowid = v.rowid ∧ (f v).embedding = v.embedding) :
    vectorsOf (db.updateVec rowid f) = vectorsOf db := by
  unfold vectorsOf Db.updateVec
  rw [List.map_map]
  refine List.map_congr_left fun v _ => ?_
  show ((if v.rowid = rowid then f v else v).rowid, (if v.rowid = rowid then f v else v).embedding) = _
  split
  · rw [(hf v).1, (hf v).2]
  · rfl

variable {env : Env F}

/-- A bump shows in no face and touches no vector. -/
private theorem above_bump {shape : BumpShape} {id now : Int} {source : String} {seq : Int} :
    Moves (OnDb (SameAbove seq)) (bump env shape id source now) := by
  refine onDb_bump (fun db db' trust kept cluster h => ?_) (fun db trust => ?_) fun db db' h => ?_
  · obtain ⟨sk, merged, bumps, rfl⟩ := mergeSource_update h
    exact ⟨facesAbove_updateMemory db (fun _ => rfl) (.inr fun _ => rfl), rfl, rfl⟩
  · exact ⟨rfl, vectorsOf_updateVec db fun _ => ⟨rfl, rfl⟩, rfl⟩
  · obtain ⟨links, rfl⟩ := linkRefines_ok h
    exact ⟨rfl, rfl, rfl⟩

/-- A new version of a row up to `seq` shows in no face after it, and touches no vector. -/
private theorem above_update {id : Int} {text : String} {source reason createdBy : Option String}
    {seq : Int}
    (hid : id ≤ seq) :
    Moves (OnDb (SameAbove seq))
      (updateMemoryWithProvenance env id text source reason createdBy) := by
  refine onDb_update (fun db db' v h => ?_) (fun db db' trust kept now h => ?_) fun db trust => ?_
  · obtain ⟨_, _, rfl⟩ := insertVersion_ok h
    exact ⟨rfl, rfl, rfl⟩
  · obtain ⟨sk, merged, rewrites, rfl⟩ := retext_update h
    exact ⟨facesAbove_updateMemory db (fun _ => rfl) (.inl hid), rfl, rfl⟩
  · exact ⟨rfl, vectorsOf_updateVec db fun _ => ⟨rfl, rfl⟩, rfl⟩

/-! ## The write phase -/

/-- The ids handed out after `seq`, in order. -/
def numberedFrom {α : Type} : Int → List α → List (Int × α)
  | _, [] => []
  | seq, a :: as => (seq + 1, a) :: numberedFrom (seq + 1) as

private theorem numberedFrom_getElem? {α : Type} (as : List α) (seq : Int) (j : Nat) :
    (numberedFrom seq as)[j]? = as[j]?.map fun a => (seq + 1 + j, a) := by
  induction as generalizing seq j with
  | nil => rfl
  | cons a as ih =>
    cases j with
    | zero => simp [numberedFrom]
    | succ j =>
      rw [numberedFrom, List.getElem?_cons_succ, List.getElem?_cons_succ, ih]
      refine congrArg (Option.map · as[j]?) (funext fun b => ?_)
      rw [Nat.cast_succ]
      exact congrArg (·, b) (by omega)

/-- A fresh row as it is stored under an id. -/
def importedFace (emb : Embedder F) (dim : Nat) (entry : Int × PlannedRow F) : Face :=
  ⟨entry.1, entry.2.row.publicId, entry.2.row.text, (embedding emb dim entry.2.vector).1.status,
    (embedding emb dim entry.2.vector).1.model, (embedding emb dim entry.2.vector).1.dim⟩

/-- Its vector, if it has one. -/
def importedVectors (emb : Embedder F) (dim : Nat) (entry : Int × PlannedRow F) :
    List (Int × List F) :=
  (embedding emb dim entry.2.vector).2.toList.map fun vec => (entry.1, vec)

/-- The first `n` of the fresh rows are stored, the first `k` of them with their vectors. -/
structure Lands (emb : Embedder F) (dim : Nat) (seq : Int) (ps : List (PlannedRow F)) (n k : Nat)
    (db db' : Db F) : Prop where
  whole : k ≤ n
  broken : n ≤ k + 1
  within : n ≤ ps.length
  faces : facesAbove seq db' = facesAbove seq db ++
    ((numberedFrom db.memorySeq ps).take n).map (importedFace emb dim)
  vectors : vectorsOf db' = vectorsOf db ++
    ((numberedFrom db.memorySeq ps).take k).flatMap (importedVectors emb dim)

theorem Lands.refl {emb : Embedder F} {dim : Nat} {seq : Int} (ps : List (PlannedRow F)) (db : Db F) :
    Lands emb dim seq ps 0 0 db db :=
  ⟨le_rfl, Nat.zero_le 1, Nat.zero_le _, (List.append_nil _).symm, (List.append_nil _).symm⟩

/-- A change that shows nowhere, before the rest. -/
theorem SameAbove.lands {emb : Embedder F} {dim : Nat} {seq : Int} {ps : List (PlannedRow F)}
    {n k : Nat} {db db' db'' : Db F} (h : SameAbove seq db db')
    (hrest : Lands emb dim seq ps n k db' db'') : Lands emb dim seq ps n k db db'' where
  whole := hrest.whole
  broken := hrest.broken
  within := hrest.within
  faces := by rw [hrest.faces, h.faces, h.memorySeq]
  vectors := by rw [hrest.vectors, h.vectors, h.memorySeq]

/-- And after it. -/
theorem Lands.same {emb : Embedder F} {dim : Nat} {seq : Int} {ps : List (PlannedRow F)}
    {n k : Nat} {db db' db'' : Db F} (h : Lands emb dim seq ps n k db db')
    (hrest : SameAbove seq db' db'') : Lands emb dim seq ps n k db db'' where
  whole := h.whole
  broken := h.broken
  within := h.within
  faces := hrest.faces.trans h.faces
  vectors := hrest.vectors.trans h.vectors

/-- One whole row, before the rest. -/
theorem Lands.cons {emb : Embedder F} {dim : Nat} {seq : Int} {p : PlannedRow F}
    {ps : List (PlannedRow F)} {n k : Nat} {db db' db'' : Db F} (h : Lands emb dim seq [p] 1 1 db db')
    (hseq : db'.memorySeq = db.memorySeq + 1) (hrest : Lands emb dim seq ps n k db' db'') :
    Lands emb dim seq (p :: ps) (n + 1) (k + 1) db db'' where
  whole := Nat.succ_le_succ hrest.whole
  broken := Nat.succ_le_succ hrest.broken
  within := Nat.succ_le_succ hrest.within
  faces := by
    rw [hrest.faces, h.faces, hseq, List.append_assoc]
    rfl
  vectors := by
    rw [hrest.vectors, h.vectors, hseq, List.append_assoc]
    simp only [numberedFrom, List.take_succ_cons, List.take_zero, List.flatMap_cons, List.flatMap_nil,
      List.append_nil]

private theorem facesAbove_append {seq : Int} (db : Db F) {db' : Db F} (m : Memory F)
    (h : db'.memories = db.memories ++ [m]) (hm : seq < m.id) :
    facesAbove seq db' = facesAbove seq db ++ [faceOf m] := by
  rw [facesAbove, h, List.filter_append, List.map_append,
    List.filter_cons_of_pos (by exact decide_eq_true hm), List.filter_nil]
  rfl

section

variable [F64 F] {env : Env F}

/-- The face of the row that is inserted. -/
private theorem faceOf_imported {emb : Embedder F} {agent : String} {dim : Nat} {id : Int}
    {p : PlannedRow F}
    {m : Memory F}
    (h : (importedRow agent (embedding emb dim p.vector).1 p.row).build id = .ok m) :
    faceOf m = importedFace emb dim (id, p) := by
  obtain ⟨tier, kind, status, sourceKind, _, _, _, _, _, rfl⟩ := build_ok h
  rfl

variable (env) in
/-- A fresh row is stored whole, or not at all, or without its vector. -/
private theorem insertRow_lands (emb : Embedder F) (agent : String) (dim : Nat) (now : Int)
    (p : PlannedRow F) {seq : Int} (s : Conn F) (hseq : seq ≤ s.db.memorySeq) :
    ((insertRow env emb agent dim now p s).1 = .ok () ∧
        Lands emb dim seq [p] 1 1 s.db (insertRow env emb agent dim now p s).2.db ∧
        (insertRow env emb agent dim now p s).2.db.memorySeq = s.db.memorySeq + 1) ∨
      ((∃ e, (insertRow env emb agent dim now p s).1 = .error e) ∧
        ∃ n, Lands emb dim seq [p] n 0 s.db (insertRow env emb agent dim now p s).2.db) := by
  cases hrun : insertRow env emb agent dim now p s with
  | mk r t =>
  cases r with
  | ok u =>
    obtain ⟨m, hbuilt, hbuild, _, ht⟩ := insertRow_ok hrun
    have hlt : seq < m.id := by
      rw [hbuilt.id]
      omega
    refine .inl ⟨rfl, ⟨le_rfl, Nat.le_succ 1, le_rfl, ?_, ?_⟩, ?_⟩
    · show facesAbove seq t.db = _
      rw [ht, facesAbove_append s.db m rfl hlt, faceOf_imported hbuild]
      rfl
    · show vectorsOf t.db = _
      rw [ht]
      simp only [vectorsOf, withImported, List.map_append, List.map_map, numberedFrom,
        List.take_succ_cons, List.take_zero, List.flatMap_cons, List.flatMap_nil, List.append_nil]
      refine congrArg (_ ++ ·) (List.map_congr_left fun vec _ => ?_)
      show (m.id, vec) = (s.db.memorySeq + 1, vec)
      rw [hbuilt.id]
    · show t.db.memorySeq = _
      rw [ht]
      exact hbuilt.id
  | error e =>
    refine .inr ⟨⟨e, rfl⟩, ?_⟩
    show ∃ n, Lands emb dim seq [p] n 0 s.db t.db
    rw [insertRow_eq] at hrun
    cases hrow : exec env (insertMemoryRow
        (importedRow agent (embedding emb dim p.vector).1 p.row)) s with
    | mk r₁ s₁ =>
    obtain ⟨_, _, ⟨⟨e₁, rfl⟩, hs₁⟩ | ⟨m, rfl, hinsert⟩⟩ := exec_cases hrow
    · rw [bind_of_error _ hrow] at hrun
      rw [← (Prod.mk.inj hrun).2, hs₁]
      exact ⟨0, .refl _ _⟩
    · rw [bind_of_ok _ hrow] at hrun
      obtain ⟨hbuilt, _, hs₁⟩ := insertMemoryRow_ok hinsert
      have hlt : seq < m.id := by
        rw [hbuilt.id]
        omega
      -- from here on the row is stored, and only a vector could follow
      have hbroken : Lands emb dim seq [p] 1 0 s.db s₁.db := by
        refine ⟨Nat.zero_le 1, le_rfl, le_rfl, ?_, ?_⟩
        · rw [hs₁, facesAbove_append s.db m rfl hlt,
            faceOf_imported (build_of_insert hinsert)]
          rfl
        · rw [hs₁]
          exact (List.append_nil _).symm
      have hsame : SameAbove seq s₁.db t.db := by
        cases hversion : exec env (insertVersion (importedVersion p.row now m)) s₁ with
        | mk r₂ s₂ =>
        obtain ⟨_, _, ⟨⟨e₂, rfl⟩, hs₂⟩ | ⟨_, rfl, hadd⟩⟩ := exec_cases hversion
        · rw [bind_of_error _ hversion] at hrun
          rw [← (Prod.mk.inj hrun).2, hs₂]
          exact ⟨rfl, rfl, rfl⟩
        · rw [bind_of_ok _ hversion] at hrun
          obtain ⟨_, _, hs₂⟩ := insertVersion_ok hadd
          have hfailed : t.db = s₂.db := by
            cases hvec : (embedding emb dim p.vector).2 with
            | none =>
              rw [hvec] at hrun
              cases (Prod.mk.inj hrun).1
            | some vec =>
              rw [hvec] at hrun
              obtain ⟨_, _, ⟨_, ht⟩ | ⟨_, hok, _⟩⟩ := exec_cases hrun
              · exact ht
              · cases hok
          rw [hfailed, hs₂]
          exact ⟨rfl, rfl, rfl⟩
      exact ⟨1, hbroken.same hsame⟩

variable (env) in
/-- The write phase, whatever its outcome: some of the fresh rows are stored with their vectors, at most
one more without, and all of them if it goes through. -/
private theorem writeAll_lands (emb : Embedder F) (agent : String) (dim : Nat) (now : Int)
    (ps : List (PlannedRow F)) {seq : Int} (s : Conn F) (hseq : seq ≤ s.db.memorySeq) :
    ∃ n k, Lands emb dim seq (ps.filter (·.fate.isInsert)) n k s.db
        (forEach ps (writeRow env emb agent dim now) s).2.db ∧
      ((forEach ps (writeRow env emb agent dim now) s).1 = .ok () →
        k = (ps.filter (·.fate.isInsert)).length) := by
  induction ps generalizing s with
  | nil => exact ⟨0, 0, .refl _ _, fun _ => rfl⟩
  | cons p ps ih =>
    have hrun : forEach (p :: ps) (writeRow env emb agent dim now) s =
        (writeRow env emb agent dim now p >>= fun _ => forEach ps (writeRow env emb agent dim now))
          s := rfl
    rw [hrun]
    by_cases hfate : p.fate = .insert
    · have hfilter : (p :: ps).filter (·.fate.isInsert) = p :: ps.filter (·.fate.isInsert) :=
        List.filter_cons_of_pos (by rw [hfate]; rfl)
      have hrow : writeRow env emb agent dim now p = insertRow env emb agent dim now p := by
        unfold writeRow
        rw [hfate]
      rw [hfilter, hrow]
      cases hinsert : insertRow env emb agent dim now p s with
      | mk r t =>
      have hlands := insertRow_lands env emb agent dim now p s hseq
      rw [hinsert] at hlands
      rcases hlands with ⟨hok, hwhole, hnext⟩ | ⟨⟨e, herror⟩, n, hbroken⟩
      · obtain rfl : r = .ok () := hok
        rw [bind_of_ok _ hinsert]
        have hseq' : seq ≤ t.db.memorySeq := by
          rw [hnext]
          omega
        obtain ⟨n, k, hrest, hall⟩ := ih t hseq'
        exact ⟨n + 1, k + 1, hwhole.cons hnext hrest, fun h => congrArg Nat.succ (hall h)⟩
      · obtain rfl : r = .error e := herror
        rw [bind_of_error _ hinsert]
        refine ⟨n, 0, ⟨hbroken.whole, hbroken.broken, ?_, hbroken.faces.trans ?_, hbroken.vectors⟩, nofun⟩
        · exact hbroken.within.trans (Nat.succ_le_succ (Nat.zero_le _))
        · have hn : n = 0 ∨ n = 1 := by
            have hle := hbroken.broken
            omega
          rcases hn with rfl | rfl <;> rfl
    · have hfilter : (p :: ps).filter (·.fate.isInsert) = ps.filter (·.fate.isInsert) := by
        refine List.filter_cons_of_neg ?_
        cases hp : p.fate with
        | insert => exact absurd hp hfate
        | bump id => exact Bool.false_ne_true
        | conflict id => exact Bool.false_ne_true
      have hsame : Moves (OnDb (SameAbove seq)) (writeRow env emb agent dim now p) := by
        unfold writeRow
        cases hp : p.fate with
        | insert => exact absurd hp hfate
        | bump id => exact above_bump
        | conflict id => exact moves_pure ()
      have hstep : SameAbove seq s.db (writeRow env emb agent dim now p s).2.db := hsame s
      rw [hfilter]
      cases hrow : writeRow env emb agent dim now p s with
      | mk r t =>
      rw [hrow] at hstep
      cases r with
      | error e =>
        rw [bind_of_error _ hrow]
        exact ⟨0, 0, hstep.lands (.refl _ _), nofun⟩
      | ok u =>
        rw [bind_of_ok _ hrow]
        obtain ⟨n, k, hrest, hall⟩ := ih t (hstep.memorySeq ▸ hseq)
        exact ⟨n, k, hstep.lands hrest, hall⟩

end

/-! ## A batch -/

/-- Versioning the conflicts of a batch shows in no row after `seq`. -/
private theorem versionAll_above {env : Env F} {ps : List (PlannedRow F)} {seq : Int}
    (h : ∀ p ∈ ps, ∀ id ∈ Catalogue.target p.fate, id ≤ seq) :
    Moves (OnDb (SameAbove seq)) (forEach ps (versionConflict env)) := by
  refine moves_forEach fun p hp => ?_
  unfold versionConflict
  cases hfate : p.fate with
  | bump id => exact moves_pure ()
  | insert => exact moves_pure ()
  | conflict id =>
    have hid : id ≤ seq := h p hp id (by rw [hfate]; rfl)
    exact moves_bind (above_update hid) fun _ => moves_pure ()

/-- What the embedder answered: one call for all the fresh texts, if there is anything to embed. -/
def Answer (emb : Embedder F) (dim : Nat) (texts : List String) (vectors : List (List F)) : Prop :=
  if 0 < dim ∧ texts ≠ [] then ∃ n, emb.embed n texts = .ok vectors else vectors = []

private theorem embedFresh_answer {emb : Embedder F} {dim : Nat} {texts : List String}
    {vectors : List (List F)} {s t : Conn F} (h : embedFresh emb dim texts s = (.ok vectors, t)) :
    Answer emb dim texts vectors := by
  unfold embedFresh at h
  unfold Answer
  split at h
  · next hcall =>
    rw [if_pos hcall]
    exact ⟨_, (call_ok h).1⟩
  · next hcall =>
    rw [if_neg hcall]
    exact (pure_ok h).1.symm

private theorem embedFresh_same (emb : Embedder F) (dim : Nat) (texts : List String) (s : Conn F) :
    (embedFresh emb dim texts s).2.db = s.db := by
  unfold embedFresh
  split <;> rfl

section

variable [F64 F] {env : Env F}

/-- A batch stops before it writes, or it stores its fresh rows in order with the vectors of the
answer: all of them if it goes through. -/
private theorem processBatch_lands (emb : Embedder F) (agent : String) (dim : Nat)
    (batch : List (Nat × ExportRow F)) (s : Conn F) (hdb : Wellformed env s.db) :
    ((∃ e, (processBatch env emb agent dim batch false s).1 = .error e) ∧
        (processBatch env emb agent dim batch false s).2.db = s.db) ∨
      ∃ fates vectors n k, classifyAll s.db agent batch = .ok fates ∧
        Answer emb (if 0 < emb.dim then dim else 0) (freshTexts batch fates) vectors ∧
        Lands emb (if 0 < emb.dim then dim else 0) s.db.memorySeq
          ((freshRows batch fates).zipIdx.map (plannedFresh (if 0 < emb.dim then dim else 0) vectors))
          n k s.db (processBatch env emb agent dim batch false s).2.db ∧
        ((processBatch env emb agent dim batch false s).1.isOk = true →
          k = (freshRows batch fates).length) := by
  unfold processBatch
  cases hread : query env (fun db => classifyAll db agent batch) s with
  | mk r s₁ =>
  have hs₁ : s₁.db = s.db := by
    have hsame : (query env (fun db => classifyAll db agent batch) s).2.db = s.db := query_db _ s
    rwa [hread] at hsame
  cases r with
  | error e =>
    rw [bind_of_error _ hread]
    exact .inl ⟨⟨e, rfl⟩, hs₁⟩
  | ok fates =>
  have hclass := (query_ok hread).1
  rw [bind_of_ok _ hread]
  simp only [Bool.false_eq_true, if_false]
  generalize hdim : (if 0 < emb.dim then dim else 0) = dim'
  cases hembed : embedFresh emb dim' (freshTexts batch fates) s₁ with
  | mk r s₂ =>
  have hs₂ : s₂.db = s.db := by
    rw [← hs₁, ← embedFresh_same emb dim' (freshTexts batch fates) s₁, hembed]
  cases r with
  | error e =>
    rw [bind_of_error _ hembed]
    exact .inl ⟨⟨e, rfl⟩, hs₂⟩
  | ok vectors =>
  rw [bind_of_ok _ hembed]
  cases hnow : nowMillis env s₂ with
  | mk r s₃ =>
  obtain ⟨rfl, hs₃⟩ := Prod.mk.inj hnow
  have hs₃ : s₃.db = s.db := by rw [← hs₃, hs₂]
  rw [bind_of_ok _ hnow]
  refine .inr ⟨fates, vectors, ?_⟩
  have hseq : s.db.memorySeq ≤ s₃.db.memorySeq := by rw [hs₃]
  obtain ⟨n, k, hlands, hall⟩ := writeAll_lands env emb agent dim' (env.clock s₂.ticks)
    (planRows batch fates (embedPlan dim' fates vectors)) s₃ hseq
  rw [planRows_fresh, hs₃] at hlands
  rw [planRows_fresh, List.length_map, List.length_zipIdx] at hall
  refine ⟨n, k, hclass, embedFresh_answer hembed, ?_⟩
  cases hwrite : forEach (planRows batch fates (embedPlan dim' fates vectors))
      (writeRow env emb agent dim' (env.clock s₂.ticks)) s₃ with
  | mk r s₄ =>
  rw [hwrite] at hlands hall
  cases r with
  | error e =>
    rw [bind_of_error _ hwrite]
    exact ⟨hlands, nofun⟩
  | ok u =>
  have hk := hall rfl
  rw [bind_of_ok _ hwrite]
  have hold : ∀ p ∈ planRows batch fates (embedPlan dim' fates vectors),
      ∀ id ∈ Catalogue.target p.fate, id ≤ s.db.memorySeq := by
    intro p hp id hid
    have hkeyed := List.mem_map_of_mem (f := PlannedRow.keyed) hp
    rw [planRows_keyed] at hkeyed
    obtain ⟨m, hm⟩ := memory?_of_has
      (Catalogue.has_of_fates (classifyAll_ok_iff.mp hclass) _ hkeyed id hid)
    obtain ⟨hmem, rfl⟩ := memory?_some hm
    exact hdb.idBound m hmem
  have hlater : SameAbove s.db.memorySeq s₄.db
      (forEach (planRows batch fates (embedPlan dim' fates vectors)) (versionConflict env) s₄).2.db :=
    versionAll_above hold s₄
  cases hversion : forEach (planRows batch fates (embedPlan dim' fates vectors))
      (versionConflict env) s₄ with
  | mk r s₅ =>
  rw [hversion] at hlater
  cases r with
  | error e =>
    rw [bind_of_error _ hversion]
    exact ⟨hlands.same hlater, nofun⟩
  | ok u =>
    rw [bind_of_ok _ hversion]
    exact ⟨hlands.same hlater, fun _ => hk⟩

/-- The row that a fresh row became, under the id `id`: embedded with its vector if that is usable, and
otherwise without a vector, as skipped or as failed. -/
def StoredWith (db : Db F) (dim : Nat) (vector : Option (List F)) (row : ExportRow F) (id : Int) :
    Prop :=
  ∃ m ∈ db.memories, m.id = id ∧ m.publicId = row.publicId ∧ m.text = row.text ∧
    ((∃ vec, 0 < dim ∧ vector = some vec ∧ vec ≠ [] ∧ m.embedStatus = .ok ∧
        m.embedDim = some (vec.length : Int) ∧ ∀ x, (id, x) ∈ vectorsOf db ↔ x = vec) ∨
      ((dim = 0 ∨ vector = none ∨ vector = some []) ∧
        m.embedStatus = (if dim = 0 then .skipped else .failed) ∧ m.embedDim = none ∧
        ∀ x, (id, x) ∉ vectorsOf db))

omit [F64 F] in
/-- What is recorded about a vector. -/
private theorem embedding_spec (emb : Embedder F) (dim : Nat) (vector : Option (List F)) :
    (∃ vec, 0 < dim ∧ vector = some vec ∧ vec ≠ [] ∧
        embedding emb dim vector = (⟨.ok, some emb.model, some (vec.length : Int)⟩, some vec)) ∨
      ((dim = 0 ∨ vector = none ∨ vector = some []) ∧
        embedding emb dim vector = (⟨if dim = 0 then .skipped else .failed, none, none⟩, none)) := by
  unfold embedding
  by_cases hdim : dim = 0
  · rw [if_pos hdim, if_pos hdim]
    exact .inr ⟨.inl hdim, rfl⟩
  · rw [if_neg hdim, if_neg hdim]
    match vector with
    | none => exact .inr ⟨.inr (.inl rfl), rfl⟩
    | some [] => exact .inr ⟨.inr (.inr rfl), rfl⟩
    | some (x :: xs) =>
      exact .inl ⟨x :: xs, Nat.pos_of_ne_zero hdim, rfl, List.cons_ne_nil x xs, rfl⟩

omit [F64 F] in
/-- The vectors of the rows that landed, each under its own id. -/
private theorem mem_importedVectors {emb : Embedder F} {dim : Nat} {seq : Int}
    {ps : List (PlannedRow F)}
    {k : Nat} {id : Int} {x : List F} :
    (id, x) ∈ ((numberedFrom seq ps).take k).flatMap (importedVectors emb dim) ↔
      ∃ j p, j < k ∧ ps[j]? = some p ∧ id = seq + 1 + j ∧ (embedding emb dim p.vector).2 = some x := by
  rw [List.mem_flatMap]
  constructor
  · rintro ⟨entry, hentry, hx⟩
    obtain ⟨j, hj⟩ := List.mem_iff_getElem?.mp hentry
    rw [List.getElem?_take] at hj
    split at hj
    · next hlt =>
      rw [numberedFrom_getElem?] at hj
      obtain ⟨p, hp, rfl⟩ := Option.map_eq_some_iff.mp hj
      obtain ⟨vec, hvec, heq⟩ := List.mem_map.mp hx
      obtain ⟨rfl, rfl⟩ := Prod.mk.inj heq
      exact ⟨j, p, hlt, hp, rfl, Option.mem_toList.mp hvec⟩
    · cases hj
  · rintro ⟨j, p, hlt, hp, rfl, hx⟩
    refine ⟨(seq + 1 + j, p), List.mem_iff_getElem?.mpr ⟨j, ?_⟩, ?_⟩
    · rw [List.getElem?_take, if_pos hlt, numberedFrom_getElem?, hp]
      rfl
    · exact List.mem_map.mpr ⟨x, Option.mem_toList.mpr hx, rfl⟩

omit [F64 F] in
/-- The ids of the vectors that were there belong to rows that were there. -/
private theorem vectorsOf_bound {db : Db F} (hdb : Wellformed env db) {id : Int} {x : List F}
    (h : (id, x) ∈ vectorsOf db) : id ≤ db.memorySeq := by
  obtain ⟨v, hv, heq⟩ := List.mem_map.mp h
  obtain ⟨m, hm, hid, _⟩ := hdb.vecs v hv
  obtain ⟨rfl, _⟩ := Prod.mk.inj heq
  exact hid ▸ hdb.idBound m hm

omit [F64 F] in
private theorem vector_of_embedding {emb : Embedder F} {dim : Nat} {vector : Option (List F)}
    {x : List F}
    (h : (embedding emb dim vector).2 = some x) : vector = some x := by
  rcases embedding_spec emb dim vector with ⟨vec, _, hvector, _, heq⟩ | ⟨_, heq⟩
  · rw [heq] at h
    rw [hvector]
    exact h
  · rw [heq] at h
    cases h

omit [F64 F] in
private theorem facesAbove_self {db : Db F} (hdb : Wellformed env db) :
    facesAbove db.memorySeq db = [] := by
  unfold facesAbove
  rw [List.filter_eq_nil_iff.mpr fun m hm => ?_]
  · rfl
  · have hle := hdb.idBound m hm
    rw [decide_eq_true_eq]
    omega

omit [F64 F] in
/-- A fresh row that landed whole. -/
theorem Lands.stored {emb : Embedder F} {dim n : Nat} {ps : List (PlannedRow F)} {db db' : Db F}
    (hdb : Wellformed env db) (h : Lands emb dim db.memorySeq ps n ps.length db db') {j : Nat}
    {p : PlannedRow F} (hp : ps[j]? = some p) :
    StoredWith db' dim p.vector p.row (db.memorySeq + 1 + j) := by
  have hn : n = ps.length := Nat.le_antisymm h.within h.whole
  have hlt : j < ps.length := (List.getElem?_eq_some_iff.mp hp).1
  have hface : importedFace emb dim (db.memorySeq + 1 + j, p) ∈ facesAbove db.memorySeq db' := by
    rw [h.faces, facesAbove_self hdb, List.nil_append]
    refine List.mem_map_of_mem (List.mem_iff_getElem?.mpr ⟨j, ?_⟩)
    rw [List.getElem?_take, if_pos (by omega), numberedFrom_getElem?, hp]
    rfl
  obtain ⟨m, hm, heq⟩ := List.mem_map.mp hface
  unfold faceOf importedFace at heq
  injection heq with hid hpublicId htext hstatus _ hdim
  -- the vectors under this id are those of this row
  have hvectors : ∀ x, (db.memorySeq + 1 + (j : Int), x) ∈ vectorsOf db' ↔
      (embedding emb dim p.vector).2 = some x := by
    intro x
    rw [h.vectors, List.mem_append, mem_importedVectors]
    constructor
    · rintro (hold | ⟨j', p', _, hp', hid', hx⟩)
      · have hle := vectorsOf_bound hdb hold
        omega
      · obtain rfl : j = j' := by omega
        obtain rfl := Option.some.inj (hp.symm.trans hp')
        exact hx
    · exact fun hx => .inr ⟨j, p, hlt, hp, rfl, hx⟩
  refine ⟨m, (List.mem_filter.mp hm).1, hid, hpublicId, htext, ?_⟩
  rcases embedding_spec emb dim p.vector with ⟨vec, hpos, hvector, hne, hspec⟩ | ⟨hnone, hspec⟩
  · rw [hspec] at hstatus hdim hvectors
    exact .inl ⟨vec, hpos, hvector, hne, hstatus, hdim, fun x => (hvectors x).trans
      ⟨fun hx => (Option.some.inj hx).symm, fun hx => congrArg some hx.symm⟩⟩
  · rw [hspec] at hstatus hdim hvectors
    exact .inr ⟨hnone, hstatus, hdim, fun x hx => nomatch (hvectors x).mp hx⟩

omit [F64 F] in
/-- An embedder that embeds text by text answers for each fresh row with the vector of its text. -/
private theorem vectorAt_text {emb : Embedder F} {dim : Nat} (hdim : 0 < dim) {f : String → List F}
    (hf : ∀ n texts, emb.embed n texts = .ok (texts.map f)) {batch : List (Nat × ExportRow F)}
    {fates : List Fate} {vectors : List (List F)}
    (h : Answer emb dim (freshTexts batch fates) vectors) {j : Nat} {row : ExportRow F}
    (hrow : (freshRows batch fates)[j]? = some row) : vectorAt dim vectors j = some (f row.text) := by
  have htexts : (freshTexts batch fates)[j]? = some row.text := by
    rw [freshTexts_eq, List.getElem?_map, hrow]
    rfl
  unfold Answer at h
  rw [if_pos ⟨hdim, List.ne_nil_of_mem (List.mem_of_getElem? htexts)⟩] at h
  obtain ⟨n, hn⟩ := h
  rw [hf] at hn
  rw [vectorAt, if_pos hdim, ← Except.ok.inj hn, List.getElem?_map, htexts]
  rfl

/-- The plan gives the `j`-th vector to the `j`-th fresh row and none to the others, whatever the fates
and however many vectors. A batch that stops early leaves the store as it was; otherwise the vectors of
the rows that were there stay, every new one is that of its row, and once the batch goes through each
fresh row is stored with its vector, or as failed or skipped without one. -/
theorem import_aligned (emb : Embedder F) (agent : String) (dim : Nat)
    (batch : List (Nat × ExportRow F)) (s : Conn F) (hdb : Wellformed env s.db) :
    let dim' := if 0 < emb.dim then dim else 0
    let done := processBatch env emb agent dim batch false s
    (∀ (fates : List Fate) (vectors : List (List F)),
      (planRows batch fates (embedPlan dim' fates vectors)).filter (·.fate.isInsert) =
          (freshRows batch fates).zipIdx.map (plannedFresh dim' vectors) ∧
        ∀ p ∈ planRows batch fates (embedPlan dim' fates vectors), p.fate.isInsert = false →
          p.vector = none) ∧
    (((∃ e, done.1 = .error e) ∧ done.2.db = s.db) ∨
      ∃ fates vectors, classifyAll s.db agent batch = .ok fates ∧
        Answer emb dim' (freshTexts batch fates) vectors ∧
        (∀ id x, id ≤ s.db.memorySeq → ((id, x) ∈ vectorsOf done.2.db ↔ (id, x) ∈ vectorsOf s.db)) ∧
        (∀ id x, s.db.memorySeq < id → (id, x) ∈ vectorsOf done.2.db →
          ∃ (j : Nat) (row : ExportRow F), (freshRows batch fates)[j]? = some row ∧
            id = s.db.memorySeq + 1 + j ∧ vectorAt dim' vectors j = some x) ∧
        (done.1.isOk = true → ∀ (j : Nat) (row : ExportRow F), (freshRows batch fates)[j]? = some row →
          StoredWith done.2.db dim' (vectorAt dim' vectors j) row (s.db.memorySeq + 1 + j)) ∧
        ∀ f : String → List F, 0 < dim' → (∀ n texts, emb.embed n texts = .ok (texts.map f)) →
          ∀ (j : Nat) (row : ExportRow F), (freshRows batch fates)[j]? = some row →
            vectorAt dim' vectors j = some (f row.text)) := by
  intro dim' done
  refine ⟨fun fates vectors => ⟨planRows_fresh dim' vectors batch fates,
    planRows_stale dim' vectors batch fates⟩, ?_⟩
  rcases processBatch_lands emb agent dim batch s hdb with
    hstopped | ⟨fates, vectors, n, k, hclass, hanswer, hlands, hall⟩
  · exact .inl hstopped
  · have hplanned : ∀ (j : Nat) (row : ExportRow F), (freshRows batch fates)[j]? = some row →
        ((freshRows batch fates).zipIdx.map (plannedFresh dim' vectors))[j]? =
          some ⟨row, .insert, vectorAt dim' vectors j⟩ := by
      intro j row hrow
      rw [List.getElem?_map, List.getElem?_zipIdx, hrow, Nat.zero_add]
      rfl
    refine .inr ⟨fates, vectors, hclass, hanswer, fun id x hid => ?_, fun id x hid hx => ?_,
      fun hok j row hrow => ?_, fun f hpos hf j row hrow => vectorAt_text hpos hf hanswer hrow⟩
    · show (id, x) ∈ vectorsOf (processBatch env emb agent dim batch false s).2.db ↔ _
      rw [hlands.vectors, List.mem_append]
      refine or_iff_left fun hnew => ?_
      obtain ⟨j, _, _, _, hnumber, _⟩ := mem_importedVectors.mp hnew
      omega
    · have hmem : (id, x) ∈ vectorsOf (processBatch env emb agent dim batch false s).2.db := hx
      rw [hlands.vectors, List.mem_append] at hmem
      rcases hmem with hold | hnew
      · have hle := vectorsOf_bound hdb hold
        omega
      · obtain ⟨j, p, _, hp, hnumber, hvec⟩ := mem_importedVectors.mp hnew
        rw [List.getElem?_map] at hp
        obtain ⟨⟨row, j'⟩, hentry, rfl⟩ := Option.map_eq_some_iff.mp hp
        rw [List.getElem?_zipIdx, Nat.zero_add] at hentry
        obtain ⟨row', hrow, heq⟩ := Option.map_eq_some_iff.mp hentry
        obtain ⟨rfl, rfl⟩ := Prod.mk.inj heq
        exact ⟨j, row', hrow, hnumber, vector_of_embedding hvec⟩
    · have hk := hall hok
      rw [hk, ← List.length_zipIdx (l := freshRows batch fates),
        ← List.length_map (plannedFresh dim' vectors)] at hlands
      exact hlands.stored hdb (hplanned j row hrow)

end

/-- A row that is there, a fresh one, a row with another text, and a second fresh one. -/
def mixedBatch : List (Nat × ExportRow ℚ) :=
  [(2, plainRow "a" "tea"), (3, plainRow "b" "mug"), (4, plainRow "a" "cup"), (5, plainRow "c" "soup")]

/-- Both fresh rows are stored with the vector of their own text. -/
theorem import_aligned_sample :
    StoredWith (processBatch sampleEnv sampleEmbedder "a" 1 mixedBatch false teaStore).2.db 1
        (some (sampleEmbed "mug")) (plainRow "b" "mug") 2 ∧
      StoredWith (processBatch sampleEnv sampleEmbedder "a" 1 mixedBatch false teaStore).2.db 1
        (some (sampleEmbed "soup")) (plainRow "c" "soup") 3 := by
  have hok : (processBatch sampleEnv sampleEmbedder "a" 1 mixedBatch false teaStore).1 =
      .ok (2, 1, 1) := by
    decide +kernel
  have hclass : classifyAll teaStore.db "a" mixedBatch =
      .ok [.bump 1, .insert, .conflict 1, .insert] := by
    decide +kernel
  obtain ⟨_, ⟨⟨e, herror⟩, _⟩ | ⟨fates, vectors, hfates, hanswer, _, _, hstored, hown⟩⟩ :=
    import_aligned sampleEmbedder "a" 1 mixedBatch teaStore teaStore_wellformed
  · rw [hok] at herror
    cases herror
  · obtain rfl := Except.ok.inj (hclass.symm.trans hfates)
    have hmug := hown sampleEmbed Nat.one_pos (fun _ _ => rfl) 0 (plainRow "b" "mug") rfl
    have hsoup := hown sampleEmbed Nat.one_pos (fun _ _ => rfl) 1 (plainRow "c" "soup") rfl
    have hdone : (processBatch sampleEnv sampleEmbedder "a" 1 mixedBatch false teaStore).1.isOk =
        true := by
      rw [hok]
      rfl
    have hfirst := hstored hdone 0 (plainRow "b" "mug") rfl
    have hsecond := hstored hdone 1 (plainRow "c" "soup") rfl
    rw [hmug] at hfirst
    rw [hsoup] at hsecond
    exact ⟨hfirst, hsecond⟩

end AgosMemory.Export
