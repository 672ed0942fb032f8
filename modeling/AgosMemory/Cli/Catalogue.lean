import AgosMemory.Cli.Import
import AgosMemory.SystemFrame

/-!
# The catalogue of an import

Import decides about a row from ids and hashes alone. A catalogue holds these, and says what each
batch of keys does to them: classify against the catalogue as it stands, add the fresh rows, then
replace the hashes of the conflicts. The import of a file refines it.
-/

namespace AgosMemory.Export

open Library Library.Program Store

/-! ## Keys and entries -/

/-- What classification reads of a row of the file. -/
structure Key where
  publicId : String
  textHash : String
  live : Bool
  deriving DecidableEq, Repr

/-- What classification reads of a stored row; `own` marks a live row of the agent. -/
structure Entry where
  id : Int
  publicId : String
  textHash : String
  own : Bool
  deriving DecidableEq, Repr

structure Catalogue where
  entries : List Entry
  seq : Int
  purged : List String
  deriving DecidableEq, Repr

namespace Catalogue

/-- The fate of a row, unless its public id was purged. -/
def fate (cat : Catalogue) (k : Key) : Option Fate :=
  if k.publicId ∈ cat.purged then none
  else
    match cat.entries.find? fun e => e.publicId = k.publicId with
    | some e => if e.textHash = k.textHash then some (.bump e.id) else some (.conflict e.id)
    | none =>
      match cat.entries.find? fun e => e.textHash = k.textHash ∧ e.own with
      | some e => some (.bump e.id)
      | none => some .insert

def fates (cat : Catalogue) : List Key → Option (List Fate)
  | [] => some []
  | k :: ks => (cat.fate k).bind fun fate => (cat.fates ks).map fun fates => fate :: fates

/-- A fresh row takes the next id, unless its public id is taken. -/
def add (cat : Catalogue) (k : Key) : Option Catalogue :=
  if cat.entries.any fun e => e.publicId = k.publicId then none
  else some { cat with
    entries := cat.entries ++ [⟨cat.seq + 1, k.publicId, k.textHash, k.live⟩], seq := cat.seq + 1 }

def replace (cat : Catalogue) (id : Int) (textHash : String) : Catalogue :=
  { cat with entries := cat.entries.map fun e => if e.id = id then { e with textHash } else e }

/-- The write phase for one row. -/
def write (cat : Catalogue) (p : Key × Fate) : Option Catalogue :=
  match p.2 with
  | .insert => cat.add p.1
  | .bump _ | .conflict _ => some cat

def writeAll (cat : Catalogue) : List (Key × Fate) → Option Catalogue
  | [] => some cat
  | p :: ps => (cat.write p).bind fun cat => cat.writeAll ps

/-- The versioning phase for one row. -/
def revise (cat : Catalogue) (p : Key × Fate) : Catalogue :=
  match p.2 with
  | .conflict id => cat.replace id p.1.textHash
  | .bump _ | .insert => cat

def reviseAll (cat : Catalogue) : List (Key × Fate) → Catalogue
  | [] => cat
  | p :: ps => (cat.revise p).reviseAll ps

/-- One batch: the fates of its rows and the catalogue it leaves. -/
def batch (cat : Catalogue) (ks : List Key) : Option (List Fate × Catalogue) :=
  (cat.fates ks).bind fun fates =>
    (cat.writeAll (ks.zip fates)).map fun written => (fates, written.reviseAll (ks.zip fates))

/-- A sequence of batches: all the fates, and the catalogue at the end. -/
def run (cat : Catalogue) : List (List Key) → Option (List Fate × Catalogue)
  | [] => some ([], cat)
  | ks :: kss => (cat.batch ks).bind fun first =>
      (first.2.run kss).map fun rest => (first.1 ++ rest.1, rest.2)

theorem fates_length {cat : Catalogue} {ks : List Key} {fates : List Fate}
    (h : cat.fates ks = some fates) : fates.length = ks.length := by
  induction ks generalizing fates with
  | nil =>
    obtain rfl := Option.some.inj h
    rfl
  | cons k ks ih =>
    obtain ⟨fate, _, hrest⟩ := Option.bind_eq_some_iff.mp h
    obtain ⟨rest, hks, rfl⟩ := Option.map_eq_some_iff.mp hrest
    rw [List.length_cons, List.length_cons, ih hks]

/-- The parts of a batch. -/
theorem batch_some {cat cat' : Catalogue} {ks : List Key} {fates : List Fate}
    (h : cat.batch ks = some (fates, cat')) :
    cat.fates ks = some fates ∧ ∃ written, cat.writeAll (ks.zip fates) = some written ∧
      cat' = written.reviseAll (ks.zip fates) := by
  obtain ⟨fates', hfates, hwritten⟩ := Option.bind_eq_some_iff.mp h
  obtain ⟨written, hwrite, heq⟩ := Option.map_eq_some_iff.mp hwritten
  obtain ⟨rfl, rfl⟩ := Prod.mk.inj heq
  exact ⟨hfates, written, hwrite, rfl⟩

/-! Ids that fates name. -/

def Has (cat : Catalogue) (id : Int) : Prop := id ∈ cat.entries.map Entry.id

theorem has_write {cat cat' : Catalogue} {p : Key × Fate} (h : cat.write p = some cat') {id : Int}
    (hid : cat.Has id) : cat'.Has id := by
  unfold write at h
  split at h
  · unfold add at h
    split at h
    · cases h
    · obtain rfl := Option.some.inj h
      unfold Has
      rw [List.map_append]
      exact List.mem_append_left _ hid
  all_goals
    obtain rfl := Option.some.inj h
    exact hid

theorem has_writeAll {cat cat' : Catalogue} {ps : List (Key × Fate)}
    (h : cat.writeAll ps = some cat') {id : Int} (hid : cat.Has id) : cat'.Has id := by
  induction ps generalizing cat with
  | nil =>
    obtain rfl := Option.some.inj h
    exact hid
  | cons p ps ih =>
    obtain ⟨mid, hmid, hrest⟩ := Option.bind_eq_some_iff.mp h
    exact ih hrest (has_write hmid hid)

theorem has_revise {cat : Catalogue} {p : Key × Fate} {id : Int} :
    (cat.revise p).Has id ↔ cat.Has id := by
  have hids : ∀ i hash, (cat.replace i hash).entries.map Entry.id = cat.entries.map Entry.id := by
    intro i hash
    unfold replace
    rw [List.map_map]
    refine List.map_congr_left fun e _ => ?_
    show Entry.id (if e.id = i then _ else e) = e.id
    split <;> rfl
  unfold revise Has
  split
  · rw [hids]
  all_goals exact Iff.rfl

/-- The row that a fate names, if it names one. -/
def target : Fate → Option Int
  | .bump id | .conflict id => some id
  | .insert => none

private theorem has_of_fate {cat : Catalogue} {k : Key} {fate : Fate} (h : cat.fate k = some fate) :
    ∀ id ∈ target fate, cat.Has id := by
  unfold Catalogue.fate at h
  split at h
  · cases h
  intro id hid
  split at h
  · next e he =>
    have hmem : e.id ∈ cat.entries.map Entry.id := List.mem_map_of_mem (List.mem_of_find?_eq_some he)
    split at h
    all_goals
      obtain rfl := Option.some.inj h
      obtain rfl := Option.some.inj hid
      exact hmem
  · split at h
    · next e he =>
      obtain rfl := Option.some.inj h
      obtain rfl := Option.some.inj hid
      exact List.mem_map_of_mem (List.mem_of_find?_eq_some he)
    · obtain rfl := Option.some.inj h
      cases hid

theorem has_of_fates {cat : Catalogue} {ks : List Key} {fates : List Fate}
    (h : cat.fates ks = some fates) : ∀ p ∈ ks.zip fates, ∀ id ∈ target p.2, cat.Has id := by
  induction ks generalizing fates with
  | nil => intro p hp; cases hp
  | cons k ks ih =>
    obtain ⟨fate, hfate, hrest⟩ := Option.bind_eq_some_iff.mp h
    obtain ⟨rest, hks, rfl⟩ := Option.map_eq_some_iff.mp hrest
    rw [List.zip_cons_cons]
    intro p hp
    rcases List.mem_cons.mp hp with rfl | hp
    · exact has_of_fate hfate
    · exact ih hks p hp

/-! Rows and their fates. -/

/-- The public id of a fresh row is not stored. -/
theorem fate_insert {cat : Catalogue} {k : Key} (h : cat.fate k = some .insert) :
    ∀ e ∈ cat.entries, e.publicId ≠ k.publicId := by
  unfold Catalogue.fate at h
  split at h
  · cases h
  split at h
  · split at h <;> cases h
  · next hnone =>
    intro e he heq
    exact List.find?_eq_none.mp hnone e he (decide_eq_true heq)

theorem fate_conflict {cat : Catalogue} {k : Key} {id : Int}
    (h : cat.fate k = some (.conflict id)) :
    ∃ e ∈ cat.entries, e.id = id ∧ e.publicId = k.publicId := by
  unfold Catalogue.fate at h
  split at h
  · cases h
  split at h
  · next e hfind =>
    split at h
    · cases h
    · have hname := List.find?_some hfind
      exact ⟨e, List.mem_of_find?_eq_some hfind, Fate.conflict.inj (Option.some.inj h),
        of_decide_eq_true hname⟩
  · split at h <;> cases h

theorem fate_of_zip {cat : Catalogue} {ks : List Key} {fates : List Fate}
    (h : cat.fates ks = some fates) : ∀ p ∈ ks.zip fates, cat.fate p.1 = some p.2 := by
  induction ks generalizing fates with
  | nil => intro p hp; cases hp
  | cons k ks ih =>
    obtain ⟨fate, hfate, hrest⟩ := Option.bind_eq_some_iff.mp h
    obtain ⟨rest, hks, rfl⟩ := Option.map_eq_some_iff.mp hrest
    rw [List.zip_cons_cons]
    intro p hp
    rcases List.mem_cons.mp hp with rfl | hp
    · exact hfate
    · exact ih hks p hp

theorem zip_of_mem {cat : Catalogue} {ks : List Key} {fates : List Fate}
    (h : cat.fates ks = some fates) {k : Key} (hk : k ∈ ks) : ∃ fate, (k, fate) ∈ ks.zip fates := by
  induction ks generalizing fates with
  | nil => cases hk
  | cons k' ks ih =>
    obtain ⟨fate, hfate, hrest⟩ := Option.bind_eq_some_iff.mp h
    obtain ⟨rest, hks, rfl⟩ := Option.map_eq_some_iff.mp hrest
    rw [List.zip_cons_cons]
    rcases List.mem_cons.mp hk with rfl | hk
    · exact ⟨fate, List.mem_cons_self⟩
    · obtain ⟨fate', hmem⟩ := ih hks hk
      exact ⟨fate', List.mem_cons_of_mem _ hmem⟩

end Catalogue

/-! ## The catalogue of a database -/

variable {F : Type}

def ExportRow.key (row : ExportRow F) : Key :=
  ⟨row.publicId, row.textHash, row.status = "active" || row.status = "pending"⟩

def entryOf (agent : String) (m : Memory F) : Entry :=
  ⟨m.id, m.publicId, m.textHash, m.agentId = agent && m.status.live⟩

def catalogueOf (agent : String) (db : Db F) : Catalogue :=
  ⟨db.memories.map (entryOf agent), db.memorySeq, db.tombstones.map Tombstone.publicId⟩

/-- The message of a refused row. -/
def tombstoned (lineNo : Nat) (row : ExportRow F) : Error :=
  .invalidInput ("import line " ++ toString lineNo ++ ": public_id " ++ row.publicId ++
    " was hard-purged (tombstoned) in this store; refusing import")

private theorem purged_iff {agent : String} {db : Db F} {row : ExportRow F} :
    (db.tombstones.any fun t => t.publicId = row.publicId) = true ↔
      row.key.publicId ∈ (catalogueOf agent db).purged := by
  show _ ↔ row.publicId ∈ db.tombstones.map Tombstone.publicId
  rw [List.any_eq_true, List.mem_map]
  exact exists_congr fun t => and_congr_right fun _ => decide_eq_true_iff

private theorem find_named (agent : String) (db : Db F) (row : ExportRow F) :
    (catalogueOf agent db).entries.find? (fun e => e.publicId = row.key.publicId) =
      (db.byPublicId? row.publicId).map (entryOf agent) := by
  rw [catalogueOf, List.find?_map]
  rfl

private theorem find_twin (agent : String) (db : Db F) (row : ExportRow F) :
    (catalogueOf agent db).entries.find? (fun e => e.textHash = row.key.textHash ∧ e.own) =
      (db.memories.find? fun m => m.textHash = row.textHash ∧ m.agentId = agent ∧
        m.status.live).map (entryOf agent) := by
  rw [catalogueOf, List.find?_map]
  refine congrArg (Option.map _) (congrArg (List.find? · db.memories) (funext fun m => ?_))
  refine decide_eq_decide.mpr (and_congr_right fun _ => ?_)
  show (decide (m.agentId = agent) && m.status.live) = true ↔ _
  rw [Bool.and_eq_true, decide_eq_true_iff]

/-- Classification reads nothing but the catalogue. -/
private theorem classify_eq (db : Db F) (agent : String) (lineNo : Nat) (row : ExportRow F) :
    classify db agent lineNo row =
      match (catalogueOf agent db).fate row.key with
      | some fate => .ok fate
      | none => .error (tombstoned lineNo row) := by
  unfold classify Catalogue.fate
  by_cases hp : row.key.publicId ∈ (catalogueOf agent db).purged
  · rw [if_pos (purged_iff.mpr hp), if_pos hp]
    rfl
  · rw [if_neg (fun h => hp (purged_iff.mp h)), if_neg hp, find_named, find_twin]
    cases db.byPublicId? row.publicId with
    | some m =>
      simp only [Option.map_some]
      by_cases hash : (entryOf agent m).textHash = row.key.textHash
      · rw [if_pos hash, if_pos (show m.textHash = row.textHash from hash)]
        rfl
      · rw [if_neg hash, if_neg (show m.textHash ≠ row.textHash from hash)]
        rfl
    | none =>
      cases db.memories.find? fun m => m.textHash = row.textHash ∧ m.agentId = agent ∧
          m.status.live with
      | some m => rfl
      | none => rfl

/-- The keys of a batch. -/
def keysOf (batch : List (Nat × ExportRow F)) : List Key := batch.map fun r => r.2.key

theorem classifyAll_ok_iff {db : Db F} {agent : String} {batch : List (Nat × ExportRow F)}
    {fates : List Fate} :
    classifyAll db agent batch = .ok fates ↔
      (catalogueOf agent db).fates (keysOf batch) = some fates := by
  induction batch generalizing fates with
  | nil =>
    show Except.ok [] = Except.ok fates ↔ some [] = some fates
    rw [Except.ok.injEq, Option.some.injEq]
  | cons r batch ih =>
    obtain ⟨lineNo, row⟩ := r
    show _ ↔ (((catalogueOf agent db).fate row.key).bind fun fate =>
      ((catalogueOf agent db).fates (keysOf batch)).map fun fates => fate :: fates) = some fates
    rw [classifyAll, classify_eq]
    cases (catalogueOf agent db).fate row.key with
    | none => exact ⟨fun h => (by cases h), fun h => (by cases h)⟩
    | some fate =>
      rw [Option.bind_some, Option.map_eq_some_iff]
      constructor
      · intro h
        cases hrest : classifyAll db agent batch with
        | error e => rw [hrest] at h; cases h
        | ok rest =>
          rw [hrest] at h
          exact ⟨rest, ih.mp hrest, Except.ok.inj h⟩
      · rintro ⟨rest, hrest, rfl⟩
        rw [ih.mpr hrest]
        rfl

/-! ## Programs that leave the catalogue alone -/

def SameCatalogue (agent : String) (db db' : Db F) : Prop :=
  catalogueOf agent db' = catalogueOf agent db

instance {agent : String} : Std.Refl (SameCatalogue (F := F) agent) where
  refl _ := rfl

instance {agent : String} : IsTrans (Db F) (SameCatalogue agent) where
  trans _ _ _ hab hbc := hbc.trans hab

theorem SameCatalogue.of_tables {agent : String} {db db' : Db F} (hm : db'.memories = db.memories)
    (hseq : db'.memorySeq = db.memorySeq) (ht : db'.tombstones = db.tombstones) :
    SameCatalogue agent db db' := by
  unfold SameCatalogue catalogueOf
  rw [hm, hseq, ht]

theorem SameCatalogue.of_update {agent : String} {db db' : Db F} {id : Int}
    {f : Memory F → Memory F} (hf : ∀ m, entryOf agent (f m) = entryOf agent m)
    (hm : db'.memories = (db.updateMemory id f).memories) (hseq : db'.memorySeq = db.memorySeq)
    (ht : db'.tombstones = db.tombstones) : SameCatalogue agent db db' := by
  unfold SameCatalogue catalogueOf
  rw [hm, map_updateMemory hf, hseq, ht]

variable [F64 F] {env : Env F}

omit [F64 F] in
theorem sameCatalogue_bump {agent : String} {shape : BumpShape} {id now : Int} {source : String} :
    Moves (OnDb (SameCatalogue agent)) (bump env shape id source now) := by
  refine onDb_bump (fun db _ _ _ _ h => ?_) (fun _ _ => .of_tables rfl rfl rfl) fun _ _ h => ?_
  · obtain ⟨sk, merged, bumps, rfl⟩ := mergeSource_update h
    exact .of_update (by exact fun _ => rfl) rfl rfl rfl
  · obtain ⟨links, rfl⟩ := linkRefines_ok h
    exact .of_tables rfl rfl rfl

end AgosMemory.Export
