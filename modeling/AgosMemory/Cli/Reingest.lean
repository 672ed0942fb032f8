import AgosMemory.Cli.Ingest
import AgosMemory.Storage.Succeeds
import AgosMemory.Library.Json

/-!
# A tree ingested twice

The manifest that a run leaves holds the hash of every item of its tree, so a second run of the tree
finds each item unchanged. A dry run stops after the counts of the run it stands for.
-/

namespace AgosMemory.Ingest

open Library Library.Program Store

variable {F : Type}

/-! ## The manifest as JSON -/

def ManifestEntry.toJson (e : ManifestEntry) : Json F :=
  .obj [("hash", .str e.hash), ("public_id", .str e.publicId)]

def ManifestEntry.ofJson? : Json F → Option ManifestEntry
  | .obj fields => do
    let hash ← Json.required Json.asStr fields "hash"
    let publicId ← Json.required Json.asStr fields "public_id"
    return ⟨hash, publicId⟩
  | _ => none

/-- A map read from an object keeps the last entry of each key. -/
def keepLast : List (String × ManifestEntry) → Manifest
  | [] => []
  | e :: es => if e.1 ∈ (keepLast es).map Prod.fst then keepLast es else e :: keepLast es

def itemsOfJson? : Json F → Option Manifest
  | .obj fields =>
    (fields.mapM fun f => (ManifestEntry.ofJson? f.2).map fun e => (f.1, e)).map keepLast
  | _ => none

/-- The text that `write_manifest` stores under the key of `meta`. -/
def encodeManifest (manifest : Manifest) : Json F :=
  .obj [("items", .obj (manifest.map fun e => (e.1, ManifestEntry.toJson e.2)))]

/-- What `read_manifest` makes of it. -/
def decodeManifest : Json F → Option Manifest
  | .obj fields => Json.defaulted [] itemsOfJson? fields "items"
  | _ => none

private theorem entry_roundTrip (e : ManifestEntry) :
    ManifestEntry.ofJson? (ManifestEntry.toJson e : Json F) = some e := by
  cases e
  rfl

private theorem keepLast_of_nodup {es : List (String × ManifestEntry)} (h : (es.map Prod.fst).Nodup) :
    keepLast es = es := by
  induction es with
  | nil => rfl
  | cons e es ih =>
    obtain ⟨hfresh, hrest⟩ := List.nodup_cons.mp h
    rw [keepLast, ih hrest, if_neg hfresh]

/-- A manifest, which has one entry for each key, is read back as it was written. -/
private theorem manifest_roundTrip {manifest : Manifest} (h : (manifest.map Prod.fst).Nodup) :
    decodeManifest (encodeManifest manifest : Json F) = some manifest := by
  have hread : (manifest.map fun e => (e.1, (ManifestEntry.toJson e.2 : Json F))).mapM
      (fun f => (ManifestEntry.ofJson? f.2).map fun e => (f.1, e)) = some manifest := by
    clear h
    induction manifest with
    | nil => rfl
    | cons e es ih =>
      rw [List.map_cons, List.mapM_cons, entry_roundTrip, ih]
      rfl
  have hfield : decodeManifest (encodeManifest manifest : Json F) =
      itemsOfJson? (.obj (manifest.map fun e => (e.1, ManifestEntry.toJson e.2))) := rfl
  rw [hfield, itemsOfJson?, hread, Option.map_some, keepLast_of_nodup h]

/-! ## Entries -/

section

variable {manifest : Manifest} {key : String} {entry : ManifestEntry}

private theorem lookup_setEntry_self : (setEntry manifest key entry).lookup key = some entry :=
  List.lookup_cons_self

private theorem lookup_setEntry_other {other : String} (h : other ≠ key) :
    (setEntry manifest key entry).lookup other = manifest.lookup other := by
  have hfilter : (manifest.filter fun e => e.1 ≠ key).lookup other = manifest.lookup other := by
    induction manifest with
    | nil => rfl
    | cons e es ih =>
      by_cases he : e.1 = key
      · have hother : (other == e.1) = false := beq_false_of_ne (he ▸ h)
        rw [List.filter_cons_of_neg (by simp [he]), ih, List.lookup_cons, hother]
      · rw [List.filter_cons_of_pos (by simp [he]), List.lookup_cons, List.lookup_cons, ih]
  unfold setEntry
  rw [List.lookup_cons, beq_false_of_ne h]
  exact hfilter

private theorem setEntry_nodup (h : (manifest.map Prod.fst).Nodup) :
    ((setEntry manifest key entry).map Prod.fst).Nodup := by
  refine List.nodup_cons.mpr ⟨fun hmem => ?_, (List.filter_sublist.map Prod.fst).nodup h⟩
  obtain ⟨e, he, hkey⟩ := List.mem_map.mp hmem
  exact of_decide_eq_true (List.mem_filter.mp he).2 hkey

/-- The entries outside a set of keys are counted as before when the key is in it. -/
private theorem countP_setEntry {keys : List String} (h : key ∈ keys) :
    (setEntry manifest key entry).countP (fun e => e.1 ∉ keys) =
      manifest.countP fun e => e.1 ∉ keys := by
  unfold setEntry
  rw [List.countP_cons_of_neg (by simp [h]), List.countP_filter]
  refine List.countP_congr fun e _ => ?_
  have hne : e.1 ∉ keys → e.1 ≠ key := fun hout heq => hout (heq ▸ h)
  simp only [Bool.and_eq_true, decide_eq_true_eq]
  exact ⟨fun hboth => hboth.1, fun hout => ⟨hout, hne hout⟩⟩

end

/-! ## Items -/

private theorem seeItems_ok {items : List ParsedItem} {seen seen' : List String}
    (h : seeItems items seen = .ok seen') :
    (items.map ParsedItem.sourceRef).Nodup ∧ (∀ i ∈ items, i.sourceRef ∉ seen) ∧
      seen' = (items.map ParsedItem.sourceRef).reverse ++ seen := by
  induction items generalizing seen with
  | nil => exact ⟨List.nodup_nil, List.forall_mem_nil _, (Except.ok.inj h).symm⟩
  | cons item items ih =>
    unfold seeItems at h
    split at h
    · cases h
    next hfresh =>
    obtain ⟨hnodup, hunseen, rfl⟩ := ih h
    refine ⟨List.nodup_cons.mpr ⟨fun hmem => ?_, hnodup⟩, ?_, ?_⟩
    · obtain ⟨i, hi, heq⟩ := List.mem_map.mp hmem
      exact hunseen i hi (heq ▸ List.mem_cons_self)
    · exact List.forall_mem_cons.mpr
        ⟨hfresh, fun i hi hseen => hunseen i hi (List.mem_cons_of_mem _ hseen)⟩
    · rw [List.map_cons, List.reverse_cons, List.append_assoc]
      rfl

/-- The items of a tree have distinct source references. -/
private theorem parseFiles_ok {files : List MarkdownFile} {seen : List String} {parsed : Parsed}
    (h : parseFiles files seen = .ok parsed) :
    (parsed.items.map ParsedItem.sourceRef).Nodup ∧ ∀ i ∈ parsed.items, i.sourceRef ∉ seen := by
  induction files generalizing seen parsed with
  | nil =>
    obtain rfl := Except.ok.inj h
    exact ⟨List.nodup_nil, List.forall_mem_nil _⟩
  | cons file files ih =>
    unfold parseFiles at h
    simp only [bind, Except.bind, pure, Except.pure] at h
    split at h
    · cases h
    split at h
    · cases h
    next seen' hseen =>
    split at h
    · cases h
    next rest hrest =>
    obtain rfl := Except.ok.inj h
    obtain ⟨hnodup, hunseen, rfl⟩ := seeItems_ok hseen
    obtain ⟨hrestNodup, hrestUnseen⟩ := ih hrest
    refine ⟨?_, fun i hi hold => ?_⟩
    · rw [List.map_append, List.nodup_append]
      refine ⟨hnodup, hrestNodup, fun r hr r' hr' heq => ?_⟩
      obtain ⟨i, hi, rfl⟩ := List.mem_map.mp hr'
      exact hrestUnseen i hi
        (List.mem_append_left _ (List.mem_reverse.mpr (heq ▸ hr)))
    · rcases List.mem_append.mp hi with hi | hi
      · exact hunseen i hi hold
      · exact hrestUnseen i hi (List.mem_append_right _ hold)

/-! ## Plans -/

/-- The manifest has the hash of an item. -/
def Recorded (env : Env F) (manifest : Manifest) (item : ParsedItem) : Prop :=
  ∃ e, manifest.lookup item.sourceRef = some e ∧ e.hash = sourceHash env item.text item.sourceRef

/-- The planned items of a tree. -/
def plan (env : Env F) (manifest : Manifest) (items : List ParsedItem) : List PlannedItem :=
  sortPlanned (items.map (planItem env manifest))

/-- The counts of a plan. -/
def reportOf (env : Env F) (manifest : Manifest) (parsed : Parsed) (dryRun : Bool) :
    IngestReport where
  seen := (plan env manifest parsed.items).length
  new := (plan env manifest parsed.items).countP fun p => p.action = .new
  updated := (plan env manifest parsed.items).countP fun p => p.action = .update
  unchanged := (plan env manifest parsed.items).countP fun p => p.action = .unchanged
  stale := manifest.countP fun e => e.1 ∉ parsed.items.map ParsedItem.sourceRef
  skipped := parsed.skipped
  dryRun

variable {env : Env F}

private theorem unchanged_iff {manifest : Manifest} {item : ParsedItem} :
    (planItem env manifest item).action = .unchanged ↔ Recorded env manifest item := by
  unfold Recorded planItem
  cases manifest.lookup item.sourceRef with
  | none => simp
  | some e =>
    by_cases hhash : e.hash = sourceHash env item.text item.sourceRef
    · simp [hhash]
    · simp [hhash]

private theorem plan_perm (env : Env F) (manifest : Manifest) (items : List ParsedItem) :
    (plan env manifest items).Perm (items.map (planItem env manifest)) :=
  List.perm_insertionSort _ _

private theorem mem_plan {manifest : Manifest} {items : List ParsedItem} {p : PlannedItem} :
    p ∈ plan env manifest items ↔ ∃ item ∈ items, planItem env manifest item = p := by
  rw [(plan_perm env manifest items).mem_iff, List.mem_map]

private theorem plan_refs (env : Env F) (manifest : Manifest) (items : List ParsedItem) :
    ((plan env manifest items).map fun p => p.item.sourceRef).Perm
      (items.map ParsedItem.sourceRef) := by
  have h := (plan_perm env manifest items).map fun p => p.item.sourceRef
  rwa [List.map_map] at h

/-- The counts of a tree whose items are all recorded. -/
private theorem reportOf_recorded {manifest : Manifest} {parsed : Parsed} {dryRun : Bool}
    (h : ∀ item ∈ parsed.items, Recorded env manifest item) :
    reportOf env manifest parsed dryRun =
      { seen := parsed.items.length, new := 0, updated := 0, unchanged := parsed.items.length
        stale := manifest.countP fun e => e.1 ∉ parsed.items.map ParsedItem.sourceRef
        skipped := parsed.skipped, dryRun } := by
  have hall : ∀ p ∈ plan env manifest parsed.items, p.action = .unchanged := by
    intro p hp
    obtain ⟨item, hitem, rfl⟩ := mem_plan.mp hp
    exact unchanged_iff.mpr (h item hitem)
  have hlength : (plan env manifest parsed.items).length = parsed.items.length := by
    rw [(plan_perm env manifest parsed.items).length_eq, List.length_map]
  have hnone : ∀ action ≠ Action.unchanged,
      (plan env manifest parsed.items).countP (fun p => p.action = action) = 0 := by
    intro action hne
    rw [List.countP_eq_zero]
    intro p hp heq
    exact hne ((of_decide_eq_true heq).symm.trans (hall p hp))
  have hevery : (plan env manifest parsed.items).countP (fun p => p.action = .unchanged) =
      (plan env manifest parsed.items).length := by
    rw [List.countP_eq_length]
    intro p hp
    exact decide_eq_true (hall p hp)
  unfold reportOf
  rw [hevery, hnone .new (by decide), hnone .update (by decide), hlength]

/-! ## Runs -/

variable [F64 F]

/-- A step keeps the manifest, or sets the entry of its item. -/
private theorem ingestStep_ok {cfg : IngestConfig F} {manifest next : Manifest} {p : PlannedItem}
    {c c' : Conn F} (h : ingestStep env cfg manifest p c = (.ok next, c')) :
    (p.action = .unchanged ∧ next = manifest) ∨
      ∃ publicId, next = setEntry manifest p.item.sourceRef ⟨p.hash, publicId⟩ := by
  unfold ingestStep at h
  split at h
  · next hunchanged => exact .inl ⟨hunchanged, (pure_ok h).1.symm⟩
  · unfold ingestItem at h
    obtain ⟨row, c₁, _, h⟩ := bind_ok h
    have hentry : ∀ {publicId : String} {s : Conn F},
        (onlyIf p.item.daily (recordDailyTurn env p.item) >>= fun _ =>
          pure (setEntry manifest p.item.sourceRef ⟨p.hash, publicId⟩)) s = (.ok next, c') →
        next = setEntry manifest p.item.sourceRef ⟨p.hash, publicId⟩ := by
      intro publicId s hs
      obtain ⟨_, _, _, hs⟩ := bind_ok hs
      exact (pure_ok hs).1.symm
    cases row with
    | some row =>
      obtain ⟨publicId, _, _, h⟩ := bind_ok h
      exact .inr ⟨publicId, hentry h⟩
    | none =>
      obtain ⟨publicId, _, _, h⟩ := bind_ok h
      exact .inr ⟨publicId, hentry h⟩

/-- What the loop leaves: the hashes of the planned items, and every other entry. -/
structure Advanced (planned : List PlannedItem) (manifest next : Manifest) : Prop where
  recorded : ∀ p ∈ planned, (∃ e, next.lookup p.item.sourceRef = some e ∧ e.hash = p.hash) ∨
    (p.action = .unchanged ∧ next.lookup p.item.sourceRef = manifest.lookup p.item.sourceRef)
  kept : ∀ key ∉ planned.map fun p => p.item.sourceRef, next.lookup key = manifest.lookup key
  nodup : (manifest.map Prod.fst).Nodup → (next.map Prod.fst).Nodup
  stale : ∀ keys : List String, (∀ p ∈ planned, p.item.sourceRef ∈ keys) →
    next.countP (fun e => e.1 ∉ keys) = manifest.countP fun e => e.1 ∉ keys

private theorem ingestLoop_ok {cfg : IngestConfig F} {planned : List PlannedItem}
    (hrefs : (planned.map fun p => p.item.sourceRef).Nodup) {manifest next : Manifest}
    {c c' : Conn F} (h : foldEach planned manifest (ingestStep env cfg) c = (.ok next, c')) :
    Advanced planned manifest next := by
  induction planned generalizing manifest c with
  | nil =>
    obtain ⟨rfl, _⟩ := pure_ok h
    exact ⟨List.forall_mem_nil _, fun _ _ => rfl, id, fun _ _ => rfl⟩
  | cons p planned ih =>
    obtain ⟨hfresh, hrefs⟩ := List.nodup_cons.mp hrefs
    obtain ⟨mid, c₁, hstep, hloop⟩ := bind_ok h
    have hrest := ih hrefs hloop
    -- later items have other references, so the entry of this one stays
    have hself := hrest.kept p.item.sourceRef hfresh
    rcases ingestStep_ok hstep with ⟨hunchanged, rfl⟩ | ⟨publicId, rfl⟩
    · refine ⟨List.forall_mem_cons.mpr ⟨.inr ⟨hunchanged, hself⟩, hrest.recorded⟩, ?_,
        hrest.nodup, fun keys hkeys => hrest.stale keys (List.forall_mem_cons.mp hkeys).2⟩
      intro key hkey
      exact hrest.kept key fun hmem => hkey (List.mem_cons_of_mem _ hmem)
    · have hother : ∀ q ∈ planned, q.item.sourceRef ≠ p.item.sourceRef := fun q hq heq =>
        hfresh (List.mem_map.mpr ⟨q, hq, heq⟩)
      refine ⟨List.forall_mem_cons.mpr ⟨.inl ⟨_, hself.trans lookup_setEntry_self, rfl⟩, ?_⟩, ?_,
        fun hnodup => hrest.nodup (setEntry_nodup hnodup), fun keys hkeys => ?_⟩
      · intro q hq
        rcases hrest.recorded q hq with hnew | ⟨hunchanged, hsame⟩
        · exact .inl hnew
        · exact .inr ⟨hunchanged, hsame.trans (lookup_setEntry_other (hother q hq))⟩
      · intro key hkey
        obtain ⟨hne, hkey⟩ := List.ne_and_not_mem_of_not_mem_cons hkey
        exact (hrest.kept key hkey).trans (lookup_setEntry_other hne)
      · obtain ⟨hkey, hkeys⟩ := List.forall_mem_cons.mp hkeys
        exact (hrest.stale keys hkeys).trans (countP_setEntry hkey)

/-- Unchanged items are passed over. -/
private theorem ingestLoop_unchanged {cfg : IngestConfig F} {planned : List PlannedItem}
    (h : ∀ p ∈ planned, p.action = .unchanged) (manifest : Manifest) (c : Conn F) :
    foldEach planned manifest (ingestStep env cfg) c = (.ok manifest, c) := by
  induction planned with
  | nil => rfl
  | cons p planned ih =>
    obtain ⟨hp, hrest⟩ := List.forall_mem_cons.mp h
    have hstep : ingestStep env cfg manifest p c = (.ok manifest, c) := by
      rw [ingestStep, if_pos hp]
      rfl
    exact (bind_of_ok _ hstep).trans (ih hrest)

/-- What follows the plan of a run. -/
def carryOut (env : Env F) (cfg : IngestConfig F) (manifest : Manifest) (parsed : Parsed)
    (dryRun : Bool) : Write F IngestReport :=
  if dryRun then pure (reportOf env manifest parsed dryRun)
  else do
    let next ← foldEach (plan env manifest parsed.items) manifest (ingestStep env cfg)
    run env fun db => { db with manifest := next }
    return reportOf env manifest parsed dryRun

/-- A tree that parses is planned against the manifest of the store. -/
private theorem ingest_eq {cfg : IngestConfig F} {tree : Tree} {dryRun : Bool}
    {files : List MarkdownFile}
    {parsed : Parsed} (hfiles : discoverFiles tree = .ok files) (hsome : files.isEmpty = false)
    (hparsed : parseFiles files [] = .ok parsed) :
    ingest env cfg tree dryRun = (query env fun db => .ok db.manifest) >>= fun manifest =>
      carryOut env cfg manifest parsed dryRun := by
  unfold ingest
  rw [hfiles]
  show (if files.isEmpty then _ else _) = _
  rw [hsome, if_neg Bool.false_ne_true, hparsed]
  rfl

/-- Anything else leaves the store alone. -/
private theorem ingest_ok {cfg : IngestConfig F} {tree : Tree} {dryRun : Bool} {c c' : Conn F}
    {report : IngestReport} (h : ingest env cfg tree dryRun c = (.ok report, c')) :
    ∃ files parsed, discoverFiles tree = .ok files ∧ files.isEmpty = false ∧
      parseFiles files [] = .ok parsed := by
  unfold ingest at h
  obtain ⟨files, c₁, hfiles, h⟩ := bind_ok h
  split at h
  · cases h
  next hsome =>
  obtain ⟨manifest, c₂, _, h⟩ := bind_ok h
  obtain ⟨parsed, c₃, hparsed, _⟩ := bind_ok h
  exact ⟨files, parsed, (lift_ok hfiles).1, eq_false_of_ne_true hsome, (lift_ok hparsed).1⟩

/-- A dry run writes nothing. -/
private theorem ingest_dry_db (cfg : IngestConfig F) (tree : Tree) (c : Conn F) :
    (ingest env cfg tree true c).2.db = c.db := by
  have hmoves : Moves (fun s t : Conn F => t.db = s.db) (ingest env cfg tree true) := by
    have hrefl : Std.Refl fun s t : Conn F => t.db = s.db := ⟨fun _ => rfl⟩
    have htrans : IsTrans (Conn F) fun s t => t.db = s.db := ⟨fun _ _ _ hab hbc => hbc.trans hab⟩
    unfold ingest
    refine moves_bind (moves_lift _) fun files => ?_
    split
    · exact moves_fail _
    refine moves_bind (fun s => query_db _ s) fun manifest => ?_
    exact moves_bind (moves_lift _) fun parsed => moves_pure _
  exact hmoves c

/-- The manifest of a tree whose items are all recorded is written as it was read. -/
private theorem carryOut_recorded (cfg : IngestConfig F) (dryRun : Bool) {parsed : Parsed}
    {c : Conn F}
    (h : ∀ item ∈ parsed.items, Recorded env c.db.manifest item) :
    (carryOut env cfg c.db.manifest parsed dryRun c).2.db = c.db ∧
      (∀ report, (carryOut env cfg c.db.manifest parsed dryRun c).1 = .ok report →
        report = reportOf env c.db.manifest parsed dryRun) ∧
      ((∀ n, env.fault n = false) →
        Succeeds (carryOut env cfg c.db.manifest parsed dryRun) c) := by
  unfold carryOut
  cases dryRun with
  | true => exact ⟨rfl, fun report hr => (Except.ok.inj hr).symm, fun _ => succeeds_pure _ _⟩
  | false =>
    have hloop : foldEach (plan env c.db.manifest parsed.items) c.db.manifest
        (ingestStep env cfg) c = (.ok c.db.manifest, c) := by
      refine ingestLoop_unchanged (fun p hp => ?_) c.db.manifest c
      obtain ⟨item, hitem, rfl⟩ := mem_plan.mp hp
      exact unchanged_iff.mpr (h item hitem)
    rw [if_neg Bool.false_ne_true]
    refine ⟨?_, fun report hr => ?_, fun hfault => ?_⟩
    · rw [bind_of_ok _ hloop]
      refine bind_cases (P := fun r : Except Error IngestReport × Conn F => r.2.db = c.db)
        (fun e t ht => ?_) fun _ t ht => ?_
      · exact (exec_cases ht).2.2.elim And.right fun ⟨_, ha, _⟩ => by cases ha
      · exact (Prod.mk.inj (Except.ok.inj (exec_ok ht))).2.symm
    · rw [bind_of_ok _ hloop] at hr
      obtain ⟨_, _, _, hpure⟩ := bind_ok (run_of_outcome hr)
      exact (pure_ok hpure).1.symm
    · exact succeeds_bind ⟨_, _, hloop⟩ fun next t _ =>
        succeeds_bind (succeeds_run hfault) fun _ u _ => succeeds_pure _ u

/-- Ingest is idempotent. After a run that succeeds, a run of the same tree finds every item
unchanged, changes nothing and fails only with the storage; the manifest in between is read back
from JSON as it was written. A dry run changes nothing and reports the counts of the run. -/
theorem ingest_idempotent (env : Env F) (cfg : IngestConfig F) (tree : Tree) (c : Conn F) :
    (ingest env cfg tree true c).2.db = c.db ∧
      ∀ report c', ingest env cfg tree false c = (.ok report, c') →
        (ingest env cfg tree true c).1 = .ok { report with dryRun := true } ∧
        ((c.db.manifest.map Prod.fst).Nodup → (c'.db.manifest.map Prod.fst).Nodup ∧
          decodeManifest (encodeManifest c'.db.manifest : Json F) = some c'.db.manifest) ∧
        ∀ cfg' dryRun c₂, c₂.db = c'.db →
          (ingest env cfg' tree dryRun c₂).2.db = c₂.db ∧
          (∀ report', (ingest env cfg' tree dryRun c₂).1 = .ok report' →
            report' = { report with new := 0, updated := 0, unchanged := report.seen, dryRun }) ∧
          ((∀ n, env.fault n = false) → Succeeds (ingest env cfg' tree dryRun) c₂) := by
  refine ⟨ingest_dry_db cfg tree c, fun report c' hrun => ?_⟩
  obtain ⟨files, parsed, hfiles, hsome, hparsed⟩ := ingest_ok hrun
  rw [ingest_eq hfiles hsome hparsed] at hrun
  obtain ⟨manifest, c₁, hread, hrun⟩ := bind_ok hrun
  obtain ⟨hmanifest, hdb⟩ := query_ok hread
  obtain rfl := Except.ok.inj hmanifest
  unfold carryOut at hrun
  rw [if_neg Bool.false_ne_true] at hrun
  obtain ⟨next, c₂, hloop, hrun⟩ := bind_ok hrun
  obtain ⟨_, c₃, hwrite, hrun⟩ := bind_ok hrun
  obtain ⟨rfl, rfl⟩ := pure_ok hrun
  have hnext : c₃.db.manifest = next := by
    rw [← (Prod.mk.inj (Except.ok.inj (exec_ok hwrite))).2]
  have hadvanced := ingestLoop_ok
    ((plan_refs env _ _).nodup_iff.mpr (parseFiles_ok hparsed).1) hloop
  refine ⟨?_, fun hnodup => ?_, fun cfg' dryRun c₄ hstart => ?_⟩
  · rw [ingest_eq hfiles hsome hparsed, bind_of_ok _ hread]
    rfl
  · have hkeys := hadvanced.nodup hnodup
    rw [hnext]
    exact ⟨hkeys, manifest_roundTrip hkeys⟩
  · have hmanifest : c₄.db.manifest = next := by rw [hstart, hnext]
    -- the entry of every item has the hash that the second run computes
    have hrecorded : ∀ item ∈ parsed.items, Recorded env next item := by
      intro item hitem
      have hp : planItem env c.db.manifest item ∈ plan env c.db.manifest parsed.items :=
        mem_plan.mpr ⟨item, hitem, rfl⟩
      rcases hadvanced.recorded _ hp with hnew | ⟨hunchanged, hsame⟩
      · exact hnew
      · obtain ⟨e, he, hhash⟩ := unchanged_iff.mp hunchanged
        exact ⟨e, hsame.trans he, hhash⟩
    have hstale := hadvanced.stale (parsed.items.map ParsedItem.sourceRef) fun p hp => by
      obtain ⟨item, hitem, rfl⟩ := mem_plan.mp hp
      exact List.mem_map_of_mem hitem
    have hlength : (plan env c.db.manifest parsed.items).length = parsed.items.length := by
      rw [(plan_perm env _ parsed.items).length_eq, List.length_map]
    rw [ingest_eq hfiles hsome hparsed]
    have hsecond : ∀ t : Conn F, t.db = c₄.db → _ := fun t ht => carryOut_recorded cfg' dryRun
      (show ∀ item ∈ parsed.items, Recorded env t.db.manifest item by rwa [ht, hmanifest])
    refine ⟨?_, fun report' hreport => ?_, fun hfault => ?_⟩
    · refine bind_cases (P := fun r : Except Error IngestReport × Conn F => r.2.db = c₄.db)
        (fun e t ht => ?_) fun manifest t ht => ?_
      · have hkept : (query env (fun db => .ok db.manifest) c₄).2.db = c₄.db := query_db _ c₄
        rwa [ht] at hkept
      · obtain ⟨hm, htdb⟩ := query_ok ht
        obtain rfl := Except.ok.inj hm
        rw [← htdb]
        exact (hsecond t htdb).1
    · obtain ⟨manifest, t, ht, hcarry⟩ := bind_ok (run_of_outcome hreport)
      obtain ⟨hm, htdb⟩ := query_ok ht
      obtain rfl := Except.ok.inj hm
      rw [← htdb] at hcarry
      have hcounts := (hsecond t htdb).2.1 report' (by rw [hcarry])
      rw [hcounts, reportOf_recorded (by rwa [htdb, hmanifest]), htdb, hmanifest, hstale]
      unfold reportOf
      rw [hlength]
    · refine succeeds_bind (succeeds_query hfault ⟨_, rfl⟩) fun manifest t ht => ?_
      obtain ⟨hm, htdb⟩ := query_ok ht
      obtain rfl := Except.ok.inj hm
      rw [← htdb]
      exact (hsecond t htdb).2.2 hfault

end AgosMemory.Ingest
