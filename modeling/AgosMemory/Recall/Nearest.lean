import AgosMemory.Recall.Shares
import AgosMemory.Storage.Placement

/-!
# The search in the chunks

A KNN query of `vec0` takes the chunks one after the other. In a chunk it finds the `k` least distances
among the positions in use that pass the metadata filters, and merges them into those of the chunks
before. Of equal distances the last position of a chunk and the first chunk go first.
-/

namespace AgosMemory.Vec0

open Library Ranking Selection Recall

variable {α F : Type} [F64 F]

/-! ## The query -/

/-- The positions in use, and of each filter the positions that pass it. -/
def candidates (layout : Layout α) (filters : List (α → Bool)) (c : Chunk α) : Bitmap :=
  filters.foldl (fun b p => b.and (Bitmap.fill layout.chunkSize fun i => c.columns[i]?.any p)) c.validity

/-- The distances of the candidates; the others stay `0`. -/
def chunkDistances (layout : Layout α) (dist : α → F) (c : Chunk α) (b : Bitmap) : List F :=
  (List.range layout.chunkSize).map fun i =>
    if b.get i then (c.columns[i]?.map dist).getD (F64.ofRat 0) else F64.ofRat 0

/-- The scan of `min_idx` over the first `n` indices: on to any candidate that is not farther and not
taken. -/
def scanMin (distances : List F) (candidates taken : Bitmap) (n first : Nat) : Nat :=
  (List.range n).foldl (fun minIdx i =>
    if F64.le (distances.getD i (F64.ofRat 0)) (distances.getD minIdx (F64.ofRat 0)) &&
      !taken.get i && candidates.get i then i else minIdx) first

/-- One turn of `min_idx`: a scan that starts at the first index that is a candidate and not taken. -/
def pickMin (distances : List F) (candidates taken : Bitmap) : Option Nat :=
  ((List.range distances.length).find? fun i => !(taken.get i || !candidates.get i)).map
    (scanMin distances candidates taken distances.length)

/-- The indices of the `k` least distances. -/
def minIdx (distances : List F) (candidates : Bitmap) (k : Nat) : List Nat :=
  repeatPick (fun taken => (pickMin distances candidates taken).map fun i => (i, taken.set i true)) k
    (Bitmap.zero distances.length)

/-- The `k` nearest so far and those of one more chunk. -/
def chunkStep (layout : Layout α) (filters : List (α → Bool)) (dist : α → F) (k : Nat)
    (topk : List (Near F)) (c : Chunk α) : Except Error (List (Near F)) :=
  if c.validity.length ≠ layout.chunkSize / 8 then
    .error (.storage (s!"chunk validity size doesn't match - expected {layout.chunkSize / 8}, " ++
      s!"found {c.validity.length}"))
  else if c.rowids.length ≠ layout.chunkSize then
    .error (.storage (s!"chunk rowids size doesn't match - expected {layout.chunkSize * 8}, " ++
      s!"found {c.rowids.length * 8}"))
  else if c.columns.length ≠ layout.chunkSize then
    .error (.storage (s!"vectors blob size doesn't match - expected " ++
      s!"{layout.chunkSize * layout.width}, found {c.columns.length * layout.width}"))
  else
    let b := candidates layout filters c
    let distances := chunkDistances layout dist c b
    let chunkTopk := (minIdx distances b (min k layout.chunkSize)).map fun i =>
      ⟨c.rowids.getD i 0, distances.getD i (F64.ofRat 0)⟩
    .ok (mergeSortedLists k topk chunkTopk)

/-- `vec0Filter_knn` with a query vector of the declared type. -/
def knn (layout : Layout α) (dimensions : Nat) (distance : List F → α → F) (query : List F) (k : Int)
    (filters : List (α → Bool)) (t : Table α) : Except Error (List (Near F)) :=
  if query.length = 0 then
    .error (.storage ("Query vector on the \"embedding\" column is invalid: " ++
      "zero-length vectors are not supported."))
  else if query.length ≠ dimensions then
    .error (.storage ("Dimension mismatch for query vector for the \"embedding\" column. " ++
      s!"Expected {dimensions} dimensions but received {query.length}."))
  else if k < 0 then
    .error (.storage "k value in knn queries must be greater than or equal to 0.")
  else if 4096 < k then
    .error (.storage s!"k value in knn query too large, provided {k} and the limit is 4096")
  else if k = 0 then .ok []
  else t.chunks.foldlM (chunkStep layout filters (distance query) k.toNat) []

/-! ## The order of the results -/

/-- The nearer one first; of equal distances the earlier chunk, and in a chunk the later position. -/
def nearer (a b : Cell F) : Ordering :=
  ((F64.partialCmp a.distance b.distance).getD .eq).then
    ((compare a.chunkId b.chunkId).then (compare b.chunkOffset a.chunkOffset))

section

variable [F64.Ordered F] {a b : Cell F}

instance : Std.TransCmp fun a b : { c : Cell F // Number c.distance } => nearer a.val b.val := by
  have hdistance : Std.TransCmp fun a b : { c : Cell F // Number c.distance } =>
      (F64.partialCmp a.val.distance b.val.distance).getD .eq :=
    transCmp_comap (fun a b : { x : F // Number x } => (F64.partialCmp a.val b.val).getD .eq)
      (h := transCmp_opposite fun a b : { x : F // Number x } =>
        (F64.partialCmp b.val a.val).getD .eq)
      fun c : { c : Cell F // Number c.distance } => ⟨c.val.distance, c.property⟩
  have hchunk : Std.TransCmp fun a b : { c : Cell F // Number c.distance } =>
      compare a.val.chunkId b.val.chunkId :=
    transCmp_comap compare fun c : { c : Cell F // Number c.distance } => c.val.chunkId
  have hoffset : Std.TransCmp fun a b : { c : Cell F // Number c.distance } =>
      compare b.val.chunkOffset a.val.chunkOffset :=
    transCmp_opposite (compareOn fun c : { c : Cell F // Number c.distance } => c.val.chunkOffset)
  exact (inferInstance : Std.TransCmp (compareLex
    (fun a b : { c : Cell F // Number c.distance } =>
      (F64.partialCmp a.val.distance b.val.distance).getD .eq)
    (compareLex (fun a b => compare a.val.chunkId b.val.chunkId)
      fun a b => compare b.val.chunkOffset a.val.chunkOffset)))

/-- Which of two positions is first, by the comparison that `min_idx` makes. -/
private theorem before_nearer (ha : Number a.distance) (hb : Number b.distance) : before nearer a b ↔
    F64.le a.distance b.distance = true ∧ (F64.le b.distance a.distance = true →
      a.chunkId < b.chunkId ∨ a.chunkId = b.chunkId ∧ b.chunkOffset ≤ a.chunkOffset) := by
  have hlt := F64.Ordered.lt_iff a.distance b.distance
  have hgt := F64.Ordered.lt_iff b.distance a.distance
  have htotal := F64.Ordered.le_total a.distance b.distance ha hb
  have htie : (compare a.chunkId b.chunkId).then (compare b.chunkOffset a.chunkOffset) ≠ .gt ↔
      a.chunkId < b.chunkId ∨ a.chunkId = b.chunkId ∧ b.chunkOffset ≤ a.chunkOffset := by
    rw [Ne, Ordering.then_eq_gt, compare_gt_iff_gt, compare_gt_iff_gt, compare_eq_iff_eq]
    omega
  unfold before nearer F64.partialCmp
  cases h₁ : F64.le a.distance b.distance <;> cases h₂ : F64.le b.distance a.distance <;>
    cases h₃ : F64.lt a.distance b.distance <;> cases h₄ : F64.lt b.distance a.distance <;>
    simp_all

omit [F64.Ordered F] in
private theorem nearer_eq (h : nearer a b = .eq) :
    a.chunkId = b.chunkId ∧ a.chunkOffset = b.chunkOffset := by
  unfold nearer at h
  rw [Ordering.then_eq_eq, Ordering.then_eq_eq, compare_eq_iff_eq, compare_eq_iff_eq] at h
  exact ⟨h.2.1, h.2.2.symm⟩

end

/-! ## The search as a ranking -/

/-- Cells of one chunk, in the order of their positions. -/
structure OfChunk (id : Int) (cells : List (Cell F)) : Prop where
  chunkId : ∀ c ∈ cells, c.chunkId = id
  ascending : cells.Pairwise fun a b => a.chunkOffset < b.chunkOffset

/-- Cells chunk after chunk. -/
structure InChunks (chunks : List (List (Cell F))) : Prop where
  ofChunk : ∀ cells ∈ chunks, ∃ id, OfChunk id cells
  ascending : chunks.Pairwise fun s t => ∀ a ∈ s, ∀ b ∈ t, a.chunkId < b.chunkId

section

variable {id : Int} {cells : List (Cell F)} {chunks : List (List (Cell F))} {k chunkSize : Nat}

omit [F64 F] in
theorem OfChunk.filter (h : OfChunk id cells) (p : Cell F → Bool) : OfChunk id (cells.filter p) :=
  ⟨fun c hc => h.chunkId c (List.mem_filter.mp hc).1, h.ascending.filter p⟩

omit [F64 F] in
theorem OfChunk.eq_of_offset (h : OfChunk id cells) {a b : Cell F} (ha : a ∈ cells) (hb : b ∈ cells)
    (hab : a.chunkOffset = b.chunkOffset) : a = b := by
  refine List.inj_on_of_nodup_map (f := Cell.chunkOffset) ?_ ha hb hab
  exact List.pairwise_map.mpr (h.ascending.imp fun hlt => Nat.ne_of_lt hlt)

/-- No two cells of a chunk are at one position. -/
theorem OfChunk.resolved (h : OfChunk id cells) : Resolved nearer cells :=
  fun _ ha _ hb heq => h.eq_of_offset ha hb (nearer_eq heq).2

variable [F64.Ordered F]

private theorem before_self {c : Cell F} (hc : Number c.distance) : before nearer c c :=
  (before_nearer hc hc).mpr ⟨hc, fun _ => .inr ⟨rfl, Nat.le_refl _⟩⟩

/-- Of two positions of a chunk, the one that the scan goes on with is before both. -/
private theorem closer_before {a b : Cell F} (ha : Number a.distance) (hb : Number b.distance)
    (hid : b.chunkId = a.chunkId) (hlt : a.chunkOffset < b.chunkOffset) :
    (closer a b = b ∨ closer a b = a) ∧ before nearer (closer a b) a ∧
      before nearer (closer a b) b := by
  unfold closer
  by_cases hle : F64.le b.distance a.distance = true
  · rw [if_pos hle]
    refine ⟨.inl rfl, (before_nearer hb ha).mpr ⟨hle, fun _ => .inr ?_⟩, before_self hb⟩
    exact ⟨hid, hlt.le⟩
  · rw [if_neg hle]
    refine ⟨.inr rfl, before_self ha, (before_nearer ha hb).mpr ⟨?_, fun h => ?_⟩⟩
    · exact (F64.Ordered.le_total _ _ hb ha).resolve_left hle
    · exact absurd h hle

/-- The scan of a turn ends at the first of the chunk. -/
private theorem foldl_closer_before {first : Cell F} {rest : List (Cell F)}
    (hnum : ∀ c ∈ first :: rest, Number c.distance) (h : OfChunk id (first :: rest)) :
    ∀ c ∈ first :: rest, before nearer (rest.foldl closer first) c := by
  induction rest generalizing first with
  | nil =>
    intro c hc
    obtain rfl := List.mem_singleton.mp hc
    exact before_self (hnum c hc)
  | cons x rest ih =>
    obtain ⟨hfirst, hx, hrest⟩ : Number first.distance ∧ Number x.distance ∧
        ∀ c ∈ rest, Number c.distance := by rwa [List.forall_mem_cons, List.forall_mem_cons] at hnum
    obtain ⟨hidfirst, hidx, hidrest⟩ : first.chunkId = id ∧ x.chunkId = id ∧
        ∀ c ∈ rest, c.chunkId = id := by
      have hids := h.chunkId
      rwa [List.forall_mem_cons, List.forall_mem_cons] at hids
    obtain ⟨hafter, hrest'⟩ := List.pairwise_cons.mp h.ascending
    obtain ⟨hfirstx, hfirstrest⟩ := List.forall_mem_cons.mp hafter
    obtain ⟨hxrest, hrestrest⟩ := List.pairwise_cons.mp hrest'
    obtain ⟨hpicked, hbefore, hbeforex⟩ := closer_before hfirst hx (hidx.trans hidfirst.symm) hfirstx
    have hnum' : Number (closer first x).distance ∧ (closer first x).chunkId = id ∧
        ∀ c ∈ rest, (closer first x).chunkOffset < c.chunkOffset := by
      rcases hpicked with hpicked | hpicked <;> rw [hpicked]
      · exact ⟨hx, hidx, hxrest⟩
      · exact ⟨hfirst, hidfirst, hfirstrest⟩
    have hnumrest : ∀ c ∈ closer first x :: rest, Number c.distance :=
      List.forall_mem_cons.mpr ⟨hnum'.1, hrest⟩
    have hleast := ih hnumrest
      ⟨List.forall_mem_cons.mpr ⟨hnum'.2.1, hidrest⟩, List.pairwise_cons.mpr ⟨hnum'.2.2, hrestrest⟩⟩
    have hhead := hleast _ List.mem_cons_self
    have hnumleast := hnumrest _ (foldl_closer_mem (closer first x) rest)
    intro c hc
    rcases List.mem_cons.mp hc with rfl | hc
    · exact before_trans (P := fun c => Number c.distance) hnumleast hnum'.1 hfirst hhead hbefore
    · rcases List.mem_cons.mp hc with rfl | hc
      · exact before_trans (P := fun c => Number c.distance) hnumleast hnum'.1 hx hhead hbeforex
      · exact hleast c (List.mem_cons_of_mem _ hc)

/-- The turns of a chunk find the first of its ranking. -/
private theorem chunkNearest_rank (h : OfChunk id cells) (hnum : ∀ c ∈ cells, Number c.distance) :
    chunkNearest k cells = ((rank nearer cells).take k).map Cell.near := by
  classical
  unfold chunkNearest
  congr 1
  refine repeatPick_rank (fun cells => cells)
    (I := fun cells => OfChunk id cells ∧ ∀ c ∈ cells, Number c.distance) (fun cells hcells => ?_)
    (fun cells hcells picked hpicked => ?_) ⟨h, hnum⟩ hnum h.resolved
  · obtain ⟨h, hnum⟩ := hcells
    cases cells with
    | nil => exact ⟨fun _ => rfl, nofun⟩
    | cons first rest =>
      refine ⟨nofun, fun picked hpicked => ?_⟩
      obtain rfl := Option.some.inj hpicked
      have hmem := foldl_closer_mem first rest
      refine ⟨hmem, foldl_closer_before hnum h, ?_⟩
      have hnodup : (first :: rest).Nodup := h.ascending.imp fun hlt heq =>
        absurd (heq ▸ hlt) (Nat.lt_irrefl _)
      rw [hnodup.erase_eq_filter]
      refine .of_eq (List.filter_congr fun c hc => ?_)
      rw [Bool.eq_iff_iff, bne_iff_ne, decide_eq_true_eq]
      exact not_congr ⟨h.eq_of_offset hc hmem, congrArg Cell.chunkOffset⟩
  · obtain ⟨h, hnum⟩ := hcells
    cases cells with
    | nil => cases hpicked
    | cons first rest =>
      obtain rfl := Option.some.inj hpicked
      refine ⟨?_, fun c hc => hnum c (List.mem_filter.mp hc).1⟩
      exact h.filter fun c => c.chunkOffset ≠ (rest.foldl closer first).chunkOffset

/-- The search over the chunks finds the nearest of all their cells. -/
private theorem nearest_rank (h : InChunks chunks)
    (hsize : ∀ cells ∈ chunks, cells.length ≤ chunkSize)
    (hnum : ∀ c ∈ chunks.flatten, Number c.distance) (hties : Resolved nearer chunks.flatten) :
    nearest chunkSize k chunks = ((rank nearer chunks.flatten).take k).map Cell.near := by
  have hall : ∀ pre : List (Cell F), (∀ a ∈ pre, ∀ cells ∈ chunks, ∀ b ∈ cells, a.chunkId < b.chunkId) →
      (∀ c ∈ pre ++ chunks.flatten, Number c.distance) → Resolved nearer (pre ++ chunks.flatten) →
      chunks.foldl (fun topk cells =>
        mergeSortedLists k topk (chunkNearest (min k chunkSize) cells))
          (((rank nearer pre).take k).map Cell.near) =
        ((rank nearer (pre ++ chunks.flatten)).take k).map Cell.near := by
    clear hnum hties
    induction chunks with
    | nil =>
      intro pre _ _ _
      rw [List.flatten_nil, List.append_nil]
      rfl
    | cons cells chunks ih =>
      intro pre hpre hnum hties
      rw [List.flatten_cons, ← List.append_assoc] at hnum hties ⊢
      have hnum' : ∀ c ∈ pre ++ cells, Number c.distance :=
        fun c hc => hnum c (List.mem_append_left _ hc)
      have hties' : Resolved nearer (pre ++ cells) := fun a ha b hb =>
        hties a (List.mem_append_left _ ha) b (List.mem_append_left _ hb)
      obtain ⟨hafter, hascending⟩ := List.pairwise_cons.mp h.ascending
      obtain ⟨hofChunk, hofChunks⟩ := List.forall_mem_cons.mp h.ofChunk
      obtain ⟨hlength, hlengths⟩ := List.forall_mem_cons.mp hsize
      obtain ⟨id, hcells⟩ := hofChunk
      have hchunk : chunkNearest (min k chunkSize) cells =
          ((rank nearer cells).take k).map Cell.near := by
        rw [chunkNearest_rank hcells fun c hc => hnum' c (List.mem_append_right _ hc)]
        rw [← (rank_perm nearer cells).length_eq] at hlength
        rw [List.take_eq_take_iff.mpr]
        omega
      have hmap : mergeSortedLists k (((rank nearer pre).take k).map Cell.near)
          (((rank nearer cells).take k).map Cell.near) =
            (mergeTake (fun x y : Cell F => F64.le x.distance y.distance) k ((rank nearer pre).take k)
              ((rank nearer cells).take k)).map Cell.near := mergeTake_map fun _ _ => rfl
      rw [List.foldl_cons, hchunk, hmap, mergeTake_rank hnum' hties' fun a ha b hb => ?_]
      · refine ih ⟨hofChunks, hascending⟩ hlengths _ (fun a ha t ht b hb => ?_) hnum hties
        rcases List.mem_append.mp ha with ha | ha
        · exact hpre a ha t (List.mem_cons_of_mem _ ht) b hb
        · exact hafter t ht a ha b hb
      · have hlt := hpre a ha cells List.mem_cons_self b hb
        rw [before_nearer (hnum' a (List.mem_append_left _ ha)) (hnum' b (List.mem_append_right _ hb))]
        exact ⟨fun hle => ⟨hle, fun _ => .inl hlt⟩, And.left⟩
  have hnone : ((rank nearer ([] : List (Cell F))).take k).map Cell.near = [] := by
    rw [show rank nearer ([] : List (Cell F)) = [] from rfl, List.take_nil, List.map_nil]
  have hstart := hall [] (fun _ ha => absurd ha List.not_mem_nil) hnum hties
  rwa [hnone] at hstart

end

/-! ## Chunks of their cells -/

section

variable {id : Int} {cells : List (Cell F)} {chunks : List (List (Cell F))} {k chunkSize : Nat}

omit [F64 F] in
/-- Cells in chunks are in order, and no two of them are at one position. -/
theorem InChunks.ascend (h : InChunks chunks) : chunks.flatten.Pairwise fun a b =>
    a.chunkId < b.chunkId ∨ a.chunkId = b.chunkId ∧ a.chunkOffset < b.chunkOffset := by
  refine List.pairwise_flatten.mpr ⟨fun cells hcells => ?_, ?_⟩
  · obtain ⟨id, hof⟩ := h.ofChunk cells hcells
    refine hof.ascending.imp_of_mem fun ha hb hlt => .inr ⟨?_, hlt⟩
    rw [hof.chunkId _ ha, hof.chunkId _ hb]
  · exact h.ascending.imp fun hlt a ha b hb => .inl (hlt a ha b hb)

omit [F64 F] in
theorem InChunks.insertionSort (h : InChunks chunks) (hperm : cells.Perm chunks.flatten) :
    cells.insertionSort Cell.Upto = chunks.flatten := by
  have hascend := h.ascend
  have htrans : IsTrans (Cell F) Cell.Upto := ⟨fun a b c hab hbc => by
    unfold Cell.Upto at *
    omega⟩
  have htotal : Std.Total (Cell.Upto (F := F)) := ⟨fun a b => by
    unfold Cell.Upto
    omega⟩
  refine ((List.perm_insertionSort _ cells).trans hperm).eq_of_pairwise (fun a b ha hb hab hba => ?_)
    (List.pairwise_insertionSort _ cells) (hascend.imp fun hlt => ?_)
  · have ha' : a ∈ chunks.flatten := hperm.mem_iff.mp ((List.mem_insertionSort _).mp ha)
    have hnodup : (chunks.flatten.map fun c => (c.chunkId, c.chunkOffset)).Nodup := by
      refine List.pairwise_map.mpr (hascend.imp fun hlt heq => ?_)
      obtain ⟨hid, hoffset⟩ := Prod.mk.inj heq
      omega
    unfold Cell.Upto at hab hba
    exact List.inj_on_of_nodup_map hnodup ha' hb (Prod.ext (by dsimp only; omega) (by dsimp only; omega))
  · unfold Cell.Upto
    omega

private theorem dedup_append_of_const {α : Type} [DecidableEq α] {a : α} {s t : List α} (hs : s ≠ [])
    (hall : ∀ x ∈ s, x = a) (ht : a ∉ t) : (s ++ t).dedup = a :: t.dedup := by
  induction s with
  | nil => exact absurd rfl hs
  | cons x s ih =>
    obtain ⟨rfl, hall⟩ := List.forall_mem_cons.mp hall
    cases s with
    | nil => exact List.dedup_cons_of_notMem ht
    | cons y s =>
      obtain rfl := hall y List.mem_cons_self
      rw [List.cons_append, List.dedup_cons_of_mem (List.mem_append_left _ List.mem_cons_self)]
      exact ih (List.cons_ne_nil _ _) hall

omit [F64 F] in
/-- The chunks of their cells, but for empty ones. -/
theorem InChunks.byChunk (h : InChunks chunks) (hperm : cells.Perm chunks.flatten) :
    Vec0.byChunk cells = chunks.filter fun cells => !cells.isEmpty := by
  unfold Vec0.byChunk
  rw [h.insertionSort hperm]
  clear hperm
  dsimp only
  induction chunks with
  | nil => rfl
  | cons cells chunks ih =>
    obtain ⟨hafter, hascending⟩ := List.pairwise_cons.mp h.ascending
    obtain ⟨⟨id, hcells⟩, hofChunks⟩ := List.forall_mem_cons.mp h.ofChunk
    have hchunks := ih ⟨hofChunks, hascending⟩
    by_cases hnil : cells = []
    · subst hnil
      exact hchunks
    · have hlater : ∀ b ∈ chunks.flatten, b.chunkId ≠ id := by
        intro b hb heq
        obtain ⟨t, ht, hbt⟩ := List.mem_flatten.mp hb
        obtain ⟨a, ha⟩ := List.exists_mem_of_ne_nil cells hnil
        have hlt := hafter t ht a ha b hbt
        rw [hcells.chunkId a ha, heq] at hlt
        exact absurd hlt (lt_irrefl _)
      have hids : ((cells ++ chunks.flatten).map Cell.chunkId).dedup =
          id :: (chunks.flatten.map Cell.chunkId).dedup := by
        rw [List.map_append]
        refine dedup_append_of_const (mt List.map_eq_nil_iff.mp hnil) ?_ ?_
        · exact List.forall_mem_map.mpr hcells.chunkId
        · rw [List.mem_map]
          rintro ⟨b, hb, heq⟩
          exact hlater b hb heq
      have hfirst : (cells ++ chunks.flatten).filter (fun c => c.chunkId = id) = cells := by
        rw [List.filter_append, List.filter_eq_self.mpr fun c hc => decide_eq_true (hcells.chunkId c hc),
          List.filter_eq_nil_iff.mpr fun c hc => by rw [decide_eq_true_eq]; exact hlater c hc,
          List.append_nil]
      have hothers : ∀ id' ∈ (chunks.flatten.map Cell.chunkId).dedup,
          (cells ++ chunks.flatten).filter (fun c => c.chunkId = id') =
            chunks.flatten.filter fun c => c.chunkId = id' := by
        intro id' hid'
        obtain ⟨b, hb, rfl⟩ := List.mem_map.mp (List.mem_dedup.mp hid')
        rw [List.filter_append, List.filter_eq_nil_iff.mpr fun c hc => ?_, List.nil_append]
        rw [decide_eq_true_eq, hcells.chunkId c hc]
        exact (hlater b hb).symm
      rw [List.flatten_cons, hids, List.map_cons, hfirst, List.map_congr_left hothers, hchunks]
      exact (List.filter_cons_of_pos (by rw [List.isEmpty_eq_false_iff.mpr hnil]; rfl)).symm

/-- An empty chunk adds nothing. -/
private theorem nearest_filter : nearest chunkSize k (chunks.filter fun cells => !cells.isEmpty) =
    nearest chunkSize k chunks := by
  have hall : ∀ topk : List (Near F), topk.length ≤ k →
      (chunks.filter fun cells => !cells.isEmpty).foldl (fun topk cells =>
        mergeSortedLists k topk (chunkNearest (min k chunkSize) cells)) topk =
      chunks.foldl (fun topk cells =>
        mergeSortedLists k topk (chunkNearest (min k chunkSize) cells)) topk := by
    induction chunks with
    | nil => exact fun _ _ => rfl
    | cons cells chunks ih =>
      intro topk htopk
      by_cases hnil : cells = []
      · subst hnil
        have hnone : chunkNearest (min k chunkSize) ([] : List (Cell F)) = [] := by
          unfold chunkNearest
          cases min k chunkSize <;> rfl
        rw [List.foldl_cons, hnone]
        unfold mergeSortedLists at *
        rw [mergeTake_nil_right, List.take_of_length_le htopk]
        exact ih topk htopk
      · rw [List.filter_cons_of_pos (by rw [List.isEmpty_eq_false_iff.mpr hnil]; rfl)]
        exact ih _ length_mergeTake_le
  exact hall [] (Nat.zero_le k)

end

/-! ## The turns of a chunk -/

section

variable {c : Chunk α} {distances : List F} {b taken : Bitmap} {i k : Nat}

def cellAt (c : Chunk α) (distances : List F) (i : Nat) : Cell F :=
  ⟨c.id, i, c.rowids.getD i 0, distances.getD i (F64.ofRat 0)⟩

/-- What is left to pick. -/
def left (distances : List F) (b taken : Bitmap) : List Nat :=
  (List.range distances.length).filter fun i => b.get i && !taken.get i

/-- The index that a scan is at after one more. -/
def scanStep (distances : List F) (minIdx i : Nat) : Nat :=
  if F64.le (distances.getD i (F64.ofRat 0)) (distances.getD minIdx (F64.ofRat 0)) then i else minIdx

/-- The scan passes over what is not left. -/
private theorem scanMin_eq (first : Nat) : scanMin distances b taken distances.length first =
    (left distances b taken).foldl (scanStep distances) first := by
  unfold scanMin left
  rw [List.foldl_filter]
  congr 1
  funext m i
  unfold scanStep
  cases b.get i <;> cases taken.get i <;> simp

private theorem closer_cellAt (m i : Nat) : closer (cellAt c distances m) (cellAt c distances i) =
    cellAt c distances (scanStep distances m i) := by
  unfold closer scanStep
  exact (apply_ite (cellAt c distances) _ i m).symm

omit [F64 F] in
private theorem left_set (hi : i < 8 * taken.length) :
    left distances b (taken.set i true) = (left distances b taken).filter fun j => j ≠ i := by
  unfold left
  rw [List.filter_filter]
  refine List.filter_congr fun j _ => ?_
  rw [Bitmap.get_set hi]
  by_cases hji : j = i <;> simp [hji]

/-- A turn of `min_idx` picks the cell that a turn on the cells picks. -/
private theorem pickMin_cell (htaken : distances.length ≤ 8 * taken.length) :
    pickCell ((left distances b taken).map (cellAt c distances)) =
      ((pickMin distances b taken).map fun i => (i, taken.set i true)).map fun picked =>
        (cellAt c distances picked.1, (left distances b picked.2).map (cellAt c distances)) := by
  have hfirst : ((List.range distances.length).find? fun i => !(taken.get i || !b.get i)) =
      (left distances b taken).head? := by
    unfold left
    rw [List.head?_filter]
    congr 1
    funext i
    cases b.get i <;> cases taken.get i <;> rfl
  unfold pickMin
  rw [hfirst]
  cases hleft : left distances b taken with
  | nil => rfl
  | cons first rest =>
    have hscan : scanMin distances b taken distances.length first =
        rest.foldl (scanStep distances) first := by
      have hself : scanStep distances first first = first := ite_self first
      rw [scanMin_eq, hleft, List.foldl_cons, hself]
    have hleast : (rest.map (cellAt c distances)).foldl closer (cellAt c distances first) =
        cellAt c distances (rest.foldl (scanStep distances) first) := by
      rw [List.foldl_map]
      exact List.foldl_hom (cellAt c distances) fun m i => closer_cellAt m i
    have hmem : rest.foldl (scanStep distances) first ∈ first :: rest := by
      rw [← List.mem_map_of_injective (f := cellAt c distances) fun i j h => (Cell.mk.inj h).2.1,
        ← hleast]
      exact foldl_closer_mem _ _
    have hlt : rest.foldl (scanStep distances) first < distances.length := by
      rw [← hleft] at hmem
      exact List.mem_range.mp (List.mem_filter.mp hmem).1
    show some (_, _) = some (_, _)
    rw [hleast, hscan, left_set (by omega), hleft, ← List.map_cons, List.filter_map]
    rfl

/-- `min_idx` makes the turns on the cells of the candidates. -/
private theorem minIdx_cells (c : Chunk α) (hwhole : 8 ∣ distances.length) :
    (minIdx distances b k).map (cellAt c distances) = repeatPick pickCell k
      (((List.range distances.length).filter b.get).map (cellAt c distances)) := by
  have hstart : left distances b (Bitmap.zero distances.length) =
      (List.range distances.length).filter b.get := by
    unfold left
    refine List.filter_congr fun i _ => ?_
    rw [Bitmap.get_zero, Bool.not_false, Bool.and_true]
  unfold minIdx
  rw [← hstart]
  refine repeatPick_map (I := fun taken => distances.length ≤ 8 * taken.length)
    (f := fun taken => (left distances b taken).map (cellAt c distances))
    (fun taken htaken => pickMin_cell htaken) (fun taken htaken picked hpicked => ?_)
    (Bitmap.le_length_zero hwhole)
  obtain ⟨m, _, rfl⟩ := Option.map_eq_some_iff.mp hpicked
  rw [Bitmap.length_set]
  exact htaken

end

/-! ## One chunk after the other -/

section

variable {layout : Layout α} {filters : List (α → Bool)} {dist : α → F} {c : Chunk α} {t : Table α}
  {i k : Nat}

/-- The rows of a chunk that pass the filters, with their distances. -/
def Chunk.cells (layout : Layout α) (filters : List (α → Bool)) (dist : α → F) (c : Chunk α) :
    List (Cell F) :=
  (List.range layout.chunkSize).filterMap fun i => (c.slot i).bind fun row =>
    if filters.all fun p => p row.2 then some ⟨c.id, i, row.1, dist row.2⟩ else none

omit [F64 F] in
private theorem get_candidates (hsized : c.Sized layout) (hi : i < layout.chunkSize) :
    (candidates layout filters c).length = layout.chunkSize / 8 ∧
      (candidates layout filters c).get i =
        (c.validity.get i && filters.all fun p => c.columns[i]?.any p) := by
  unfold candidates
  have hstart := hsized.validity
  generalize c.validity = b at hstart
  induction filters generalizing b with
  | nil => exact ⟨hstart, (Bool.and_true _).symm⟩
  | cons p filters ih =>
    have hlength : b.length = (Bitmap.fill layout.chunkSize fun i => c.columns[i]?.any p).length :=
      hstart.trans (Bitmap.length_fill layout.whole).symm
    have hand : (b.and (Bitmap.fill layout.chunkSize fun i => c.columns[i]?.any p)).length =
        layout.chunkSize / 8 := by
      unfold Bitmap.and
      rw [List.length_zipWith, ← hlength, Nat.min_self, hstart]
    obtain ⟨hlen, hget⟩ := ih _ hand
    refine ⟨hlen, ?_⟩
    rw [List.foldl_cons, hget, Bitmap.get_and hlength, Bitmap.get_fill layout.whole hi, List.all_cons,
      Bool.and_assoc]

/-- The columns at a position in use are those of its row. -/
private theorem get_candidates_slot (hsized : c.Sized layout) (hi : i < layout.chunkSize) :
    (candidates layout filters c).get i = (c.slot i).any fun row => filters.all fun p => p row.2 := by
  rw [(get_candidates hsized hi).2]
  cases hvalid : c.validity.get i with
  | false => rw [slot_of_clear hvalid]; rfl
  | true =>
    obtain ⟨row, hslot⟩ := hsized.slot_isSome hvalid
    rw [hslot, (slot_eq_some.mp hslot).2.2]
    rfl

private theorem length_chunkDistances {b : Bitmap} :
    (chunkDistances layout dist c b).length = layout.chunkSize := by
  unfold chunkDistances
  rw [List.length_map, List.length_range]

private theorem getD_chunkDistances {b : Bitmap} (hi : i < layout.chunkSize) :
    (chunkDistances layout dist c b).getD i (F64.ofRat 0) =
      if b.get i then (c.columns[i]?.map dist).getD (F64.ofRat 0) else F64.ofRat 0 := by
  unfold chunkDistances
  rw [List.getD_eq_getElem _ _ (by simpa using hi), List.getElem_map, List.getElem_range]

/-- The cell of a position that passes the filters. -/
private theorem cellAt_of_slot (hi : i < layout.chunkSize) {row : Int × α}
    (hslot : c.slot i = some row)
    {b : Bitmap} (hb : b.get i = true) :
    cellAt c (chunkDistances layout dist c b) i = ⟨c.id, i, row.1, dist row.2⟩ := by
  obtain ⟨_, hrowid, hvalue⟩ := slot_eq_some.mp hslot
  unfold cellAt
  rw [getD_chunkDistances hi, if_pos hb, hvalue, List.getD_eq_getElem?_getD, hrowid]
  rfl

private theorem cells_eq (hsized : c.Sized layout) :
    ((List.range layout.chunkSize).filter (candidates layout filters c).get).map
      (cellAt c (chunkDistances layout dist c (candidates layout filters c))) =
      c.cells layout filters dist := by
  rw [← List.filterMap_eq_map, List.filterMap_filter]
  unfold Chunk.cells
  refine List.filterMap_congr fun i hi => ?_
  have hlt := List.mem_range.mp hi
  have hget : (candidates layout filters c).get i = _ := get_candidates_slot hsized hlt
  cases hslot : c.slot i with
  | none =>
    rw [hslot] at hget
    rw [hget]
    rfl
  | some row =>
    rw [hslot] at hget
    change _ = filters.all fun p => p row.2 at hget
    show (if (candidates layout filters c).get i = true then some _ else none) =
      if (filters.all fun p => p row.2) = true then _ else none
    by_cases hb : (candidates layout filters c).get i = true
    · rw [if_pos hb, if_pos (hget.symm.trans hb), cellAt_of_slot hlt hslot hb]
    · rw [if_neg hb, if_neg fun hall => hb (hget.trans hall)]

/-- The step of one chunk, from the nearest of the chunks before it. -/
private theorem chunkStep_eq (hsized : c.Sized layout) (topk : List (Near F)) :
    chunkStep layout filters dist k topk c = .ok (mergeSortedLists k topk
      (chunkNearest (min k layout.chunkSize) (c.cells layout filters dist))) := by
  have hcells : _ = c.cells layout filters dist := cells_eq hsized
  have hlength : (chunkDistances layout dist c (candidates layout filters c)).length =
      layout.chunkSize := length_chunkDistances
  unfold chunkStep
  rw [if_neg (not_not_intro hsized.validity), if_neg (not_not_intro hsized.rowids),
    if_neg (not_not_intro hsized.columns)]
  dsimp only
  generalize chunkDistances layout dist c (candidates layout filters c) = distances at hcells hlength
  have hturns : (minIdx distances (candidates layout filters c) (min k layout.chunkSize)).map
      (cellAt c distances) = _ := minIdx_cells c (hlength ▸ layout.whole)
  rw [hlength, hcells] at hturns
  unfold chunkNearest
  rw [← hturns, List.map_map]
  rfl

omit [F64 F] in
private theorem mem_cells {cell : Cell F} :
    cell ∈ c.cells layout filters dist ↔ ∃ i < layout.chunkSize,
    ∃ row, c.slot i = some row ∧ (filters.all fun p => p row.2) = true ∧
      cell = ⟨c.id, i, row.1, dist row.2⟩ := by
  unfold Chunk.cells
  rw [List.mem_filterMap]
  simp only [List.mem_range, Option.bind_eq_some_iff, Option.ite_none_right_eq_some,
    Option.some.injEq, @eq_comm _ _ cell]

omit [F64 F] in
private theorem ofChunk_cells (c : Chunk α) : OfChunk c.id (c.cells layout filters dist) := by
  refine ⟨fun cell hcell => ?_, List.pairwise_filterMap.mpr ?_⟩
  · obtain ⟨i, _, row, _, _, rfl⟩ := mem_cells.mp hcell
    rfl
  · refine List.pairwise_lt_range.imp fun {i j} hlt a ha b hb => ?_
    obtain ⟨row, ha⟩ := Option.bind_eq_some_iff.mp ha
    obtain ⟨row', hb⟩ := Option.bind_eq_some_iff.mp hb
    obtain rfl := Option.some.inj (Option.ite_none_right_eq_some.mp ha.2).2
    obtain rfl := Option.some.inj (Option.ite_none_right_eq_some.mp hb.2).2
    exact hlt

omit [F64 F] in
private theorem length_cells (c : Chunk α) :
    (c.cells layout filters dist).length ≤ layout.chunkSize :=
  (List.length_filterMap_le _ _).trans_eq List.length_range

/-- The chunks in order. -/
private theorem foldlM_chunkStep {chunks : List (Chunk α)} (hsized : ∀ c ∈ chunks, c.Sized layout)
    (topk : List (Near F)) : chunks.foldlM (chunkStep layout filters dist k) topk =
      .ok ((chunks.map (Chunk.cells layout filters dist)).foldl (fun topk cells =>
        mergeSortedLists k topk (chunkNearest (min k layout.chunkSize) cells)) topk) := by
  induction chunks generalizing topk with
  | nil => rfl
  | cons c chunks ih =>
    obtain ⟨hc, hchunks⟩ := List.forall_mem_cons.mp hsized
    rw [List.foldlM_cons, chunkStep_eq hc]
    exact ih hchunks _

/-- The rows of a table that pass the filters, with their distances. -/
def cells (layout : Layout α) (filters : List (α → Bool)) (dist : α → F) (t : Table α) :
    List (Cell F) := (t.chunks.map (Chunk.cells layout filters dist)).flatten

/-- No two rows are at one position, so the order has no ties. -/
theorem Sound.resolved (h : Sound layout t) : Resolved nearer (cells layout filters dist t) := by
  intro a ha b hb heq
  obtain ⟨_, hmap, hca⟩ := List.mem_flatten.mp ha
  obtain ⟨_, hmap', hcb⟩ := List.mem_flatten.mp hb
  obtain ⟨c, hc, rfl⟩ := List.mem_map.mp hmap
  obtain ⟨c', hc', rfl⟩ := List.mem_map.mp hmap'
  obtain ⟨i, _, row, hslot, _, rfl⟩ := mem_cells.mp hca
  obtain ⟨j, _, row', hslot', _, rfl⟩ := mem_cells.mp hcb
  obtain ⟨hid, hoff⟩ := nearer_eq heq
  obtain rfl := h.eq_of_id hc hc' hid
  obtain rfl : i = j := hoff
  obtain rfl := Option.some.inj (hslot.symm.trans hslot')
  rfl

omit [F64 F] in
theorem Sound.inChunks (h : Sound layout t) :
    InChunks (t.chunks.map (Chunk.cells layout filters dist)) := by
  constructor
  · intro cells hcells
    obtain ⟨c, _, rfl⟩ := List.mem_map.mp hcells
    exact ⟨c.id, ofChunk_cells c⟩
  · refine List.pairwise_map.mpr ((List.pairwise_map.mp h.ids).imp fun {c c'} hlt a ha b hb => ?_)
    rw [(ofChunk_cells c).chunkId a ha, (ofChunk_cells c').chunkId b hb]
    exact hlt

/-- A search makes the turns on the cells of the chunks. -/
theorem Sound.knn_nearest {distance : List F → α → F} {dimensions : Nat} {query : List F} {k : Int}
    (h : Sound layout t) (hquery : query.length = dimensions) (hdimensions : dimensions ≠ 0)
    (hk : 0 < k) (hmax : k ≤ 4096) : Vec0.knn layout dimensions distance query k filters t =
      .ok (nearest layout.chunkSize k.toNat
        (t.chunks.map (Chunk.cells layout filters (distance query)))) := by
  unfold Vec0.knn
  rw [if_neg (hquery ▸ hdimensions), if_neg (not_not_intro hquery), if_neg (by omega),
    if_neg (by omega), if_neg (by omega)]
  exact foldlM_chunkStep h.sized []

/-- The search over the chunks finds the nearest of the whole table. -/
theorem Sound.knn_eq [F64.Ordered F] {distance : List F → α → F} {dimensions : Nat}
    {query : List F} {k : Int} (h : Sound layout t) (hquery : query.length = dimensions)
    (hdimensions : dimensions ≠ 0) (hk : 0 ≤ k) (hmax : k ≤ 4096)
    (hnum : ∀ cell ∈ cells layout filters (distance query) t, Number cell.distance) :
    Vec0.knn layout dimensions distance query k filters t =
      .ok (((rank nearer (cells layout filters (distance query) t)).take k.toNat).map Cell.near) := by
  rcases hk.eq_or_lt with rfl | hpos
  · unfold Vec0.knn
    rw [if_neg (hquery ▸ hdimensions), if_neg (not_not_intro hquery), if_neg (by omega),
      if_neg (by omega), if_pos rfl]
    rfl
  · rw [h.knn_nearest hquery hdimensions hpos hmax]
    refine congrArg Except.ok (nearest_rank h.inChunks (fun cells hcells => ?_) hnum h.resolved)
    obtain ⟨c, _, rfl⟩ := List.mem_map.mp hcells
    exact length_cells c

end

/-! ## The search on a list of rows -/

section

variable {layout : Layout α} {filters : List (α → Bool)} {dist : α → F} {c : Chunk α} {t : Table α}
  {rows : List (Int × α)}

def admitted (filters : List (α → Bool)) (rows : List (Int × α)) : List (Int × α) :=
  rows.filter fun row => filters.all fun p => p row.2

def nearOf (dist : α → F) (row : Int × α) : Near F := ⟨row.1, dist row.2⟩

omit [F64 F] in
private theorem cells_near : (cells layout filters dist t).map Cell.near =
    (admitted filters (slots layout t)).map (nearOf dist) := by
  unfold cells slots admitted
  rw [← List.flatMap_def, List.map_flatMap, List.filter_flatMap, List.map_flatMap]
  refine List.flatMap_congr fun c _ => ?_
  unfold Chunk.cells Chunk.slots
  rw [List.map_filterMap, ← List.filterMap_eq_filter, ← List.filterMap_eq_map,
    List.filterMap_filterMap, List.filterMap_filterMap]
  refine List.filterMap_congr fun i _ => ?_
  cases c.slot i with
  | none => rfl
  | some row =>
    show Option.map Cell.near (if (filters.all fun p => p row.2) = true then some _ else none) =
      (Option.guard (fun x : Int × α => filters.all fun p => p x.2) row).bind (some ∘ nearOf dist)
    unfold Option.guard
    by_cases hall : (filters.all fun p => p row.2) = true
    · rw [if_pos hall, if_pos hall]
      rfl
    · rw [if_neg hall, if_neg hall]
      rfl

/-- A row at its position, with its distance. -/
def located (p : Positions) (dist : α → F) (row : Int × α) : Cell F :=
  ⟨(p.of row.1).chunkId, (p.of row.1).chunkOffset, row.1, dist row.2⟩

omit [F64 F] in
/-- The cells are the rows of the table at the positions in `_rowids`. -/
theorem Sound.cells_located (h : Sound layout t) {p : Positions} (hp : Follows p t) :
    cells layout filters dist t = (admitted filters (slots layout t)).map (located p dist) := by
  unfold cells slots admitted
  rw [← List.flatMap_def, List.filter_flatMap, List.map_flatMap]
  refine List.flatMap_congr fun c hc => ?_
  unfold Chunk.cells Chunk.slots
  rw [← List.filterMap_eq_filter, ← List.filterMap_eq_map, List.filterMap_filterMap,
    List.filterMap_filterMap]
  refine List.filterMap_congr fun i _ => ?_
  cases hslot : c.slot i with
  | none => rfl
  | some row =>
    have hof : p.of row.1 = ⟨row.1, c.id, i⟩ := by
      have hfind := find?_of_mem h.keys (h.owned c hc i row hslot)
      unfold Positions.of
      rw [hp.rowids, hfind]
      rfl
    have hlocated : located p dist row = ⟨c.id, i, row.1, dist row.2⟩ := by
      unfold located
      rw [hof]
    show (if (filters.all fun p => p row.2) = true then some _ else none) =
      (Option.guard (fun x : Int × α => filters.all fun p => p x.2) row).bind (some ∘ located p dist)
    unfold Option.guard
    by_cases hall : (filters.all fun p => p row.2) = true
    · rw [if_pos hall, if_pos hall, Option.bind_some, Function.comp_apply, hlocated]
    · rw [if_neg hall, if_neg hall]
      rfl

/-- A search makes the turns on the admitted rows, each at its position. -/
theorem Stores.knn_located (h : Stores layout t rows) {p : Positions} (hp : Follows p t)
    {distance : List F → α → F} {dimensions : Nat} {query : List F} {k : Int}
    (hquery : query.length = dimensions) (hdimensions : dimensions ≠ 0) (hk : 0 < k)
    (hmax : k ≤ 4096) : Vec0.knn layout dimensions distance query k filters t =
      .ok (nearest layout.chunkSize k.toNat
        (byChunk ((admitted filters rows).map (located p (distance query))))) := by
  have hperm : ((admitted filters rows).map (located p (distance query))).Perm
      (t.chunks.map (Chunk.cells layout filters (distance query))).flatten := by
    change List.Perm _ (cells layout filters (distance query) t)
    rw [h.sound.cells_located hp]
    exact (h.slots_perm.symm.filter _).map _
  rw [h.sound.knn_nearest hquery hdimensions hk hmax, h.sound.inChunks.byChunk hperm, nearest_filter]

/-- Among distances that are numbers, a search ranks the admitted rows at their positions. -/
theorem Stores.knn_ranked [F64.Ordered F] (h : Stores layout t rows) {p : Positions} (hp : Follows p t)
    {distance : List F → α → F} {dimensions : Nat} {query : List F} {k : Int}
    (hquery : query.length = dimensions) (hdimensions : dimensions ≠ 0) (hk : 0 ≤ k) (hmax : k ≤ 4096)
    (hnum : ∀ row ∈ admitted filters rows, Number (distance query row.2)) :
    Vec0.knn layout dimensions distance query k filters t =
      .ok (((rank nearer ((admitted filters rows).map (located p (distance query)))).take
        k.toNat).map Cell.near) := by
  have hperm : (cells layout filters (distance query) t).Perm
      ((admitted filters rows).map (located p (distance query))) := by
    rw [h.sound.cells_located hp]
    exact (h.slots_perm.filter _).map _
  have hnum' : ∀ cell ∈ (admitted filters rows).map (located p (distance query)),
      Number cell.distance := List.forall_mem_map.mpr hnum
  have hcells : ∀ cell ∈ cells layout filters (distance query) t, Number cell.distance :=
    fun cell hcell => hnum' cell (hperm.mem_iff.mp hcell)
  rw [h.sound.knn_eq hquery hdimensions hk hmax hcells]
  congr 3
  refine eq_of_ranked (((rank_perm nearer _).trans hperm).trans (rank_perm nearer _).symm)
    (rank_pairwise_on hcells) (rank_pairwise_on hnum')
    (fun cell hcell => hcells cell ((rank_perm nearer _).mem_iff.mp hcell)) ?_
  exact Resolved.perm h.sound.resolved (rank_perm nearer _).symm

/-- The nearest rows of a list: some order of those admitted in which no distance grows, cut off. -/
def NearestOf (filters : List (α → Bool)) (dist : α → F) (rows : List (Int × α)) (k : Nat)
    (result : List (Near F)) : Prop :=
  ∃ order : List (Near F), order.Perm ((admitted filters rows).map (nearOf dist)) ∧
    order.Pairwise (fun a b => F64.le a.distance b.distance = true) ∧ result = order.take k

section

variable [F64.Ordered F] {distance : List F → α → F} {dimensions : Nat} {query : List F} {k : Int}

theorem Stores.search (h : Stores layout t rows) (hquery : query.length = dimensions)
    (hdimensions : dimensions ≠ 0) (hk : 0 ≤ k) (hmax : k ≤ 4096)
    (hnum : ∀ row ∈ admitted filters rows, Number (distance query row.2)) :
    ∃ result, knn layout dimensions distance query k filters t = .ok result ∧
      NearestOf filters (distance query) rows k.toNat result := by
  have hperm : ((cells layout filters (distance query) t).map Cell.near).Perm
      ((admitted filters rows).map (nearOf (distance query))) := by
    rw [cells_near]
    exact (h.slots_perm.filter _).map _
  have hnum' : ∀ cell ∈ cells layout filters (distance query) t, Number cell.distance := by
    intro cell hcell
    obtain ⟨row, hrow, heq⟩ := List.mem_map.mp (hperm.mem_iff.mp (List.mem_map_of_mem hcell))
    have hdistance : distance query row.2 = cell.distance := congrArg Near.distance heq
    exact hdistance ▸ hnum row hrow
  refine ⟨_, h.sound.knn_eq hquery hdimensions hk hmax hnum', _,
    ((rank_perm nearer _).map Cell.near).trans hperm, ?_, List.map_take⟩
  refine List.pairwise_map.mpr ((rank_pairwise_on hnum').imp_of_mem fun ha hb hbefore => ?_)
  have hmem : ∀ {cell}, cell ∈ rank nearer (cells layout filters (distance query) t) →
      Number cell.distance := fun hcell => hnum' _ ((rank_perm nearer _).mem_iff.mp hcell)
  exact ((before_nearer (hmem ha) (hmem hb)).mp hbefore).1

/-- After any statements, a search lists the nearest of the rows that pass the filters, with their
distances, as a search over the plain list of rows would. -/
theorem search_exact (layout : Layout α) (ss : List (Statement α)) (filters : List (α → Bool))
    (hquery : query.length = dimensions) (hdimensions : dimensions ≠ 0) (hk : 0 ≤ k) (hmax : k ≤ 4096)
    (hnum : ∀ row ∈ admitted filters (final (Statement.plain layout) ss []),
      Number (distance query row.2)) :
    ∃ result, knn layout dimensions distance query k filters (final (Statement.run layout) ss {}) =
        .ok result ∧
      NearestOf filters (distance query) (final (Statement.plain layout) ss []) k.toNat result :=
  ((stores_empty layout).run ss).2.search hquery hdimensions hk hmax hnum

/-- Chunks of eight rows, each one number. -/
def sampleLayout : Layout ℚ where
  chunkSize := 8
  positive := by decide
  whole := by decide
  width := 4
  blank := 0
  check _ := .ok ()

/-- Nine rows, the first of which is deleted: the second chunk holds one row. -/
def sampleStatements : List (Statement ℚ) :=
  ((List.range 9).map fun i => .insert (i + 1) (i % 3 : Nat)) ++ [.delete 1, .update 5 fun x => x + 1]

def sampleDistance (query : List ℚ) (x : ℚ) : ℚ := |x - query.headD 0|

/-- Rows of both chunks, among equal ones the last of a chunk and then the next chunk. -/
theorem search_sample : ∃ result, knn sampleLayout 1 sampleDistance [1] 3 [fun x => x ≠ 0]
      (final (Statement.run sampleLayout) sampleStatements {}) = .ok result ∧
    NearestOf [fun x => decide (x ≠ 0)] (sampleDistance [1])
      (final (Statement.plain sampleLayout) sampleStatements []) 3 result :=
  search_exact sampleLayout sampleStatements [fun x => decide (x ≠ 0)] rfl (by decide) (by decide)
    (by decide) fun _ _ => decide_eq_true le_rfl

example : knn sampleLayout 1 sampleDistance [1] 3 [fun x => decide (x ≠ 0)]
    (final (Statement.run sampleLayout) sampleStatements {}) = .ok [⟨8, 0⟩, ⟨2, 0⟩, ⟨6, 1⟩] := by
  decide +kernel

end

end

end AgosMemory.Vec0
