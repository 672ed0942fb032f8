import Mathlib.Data.List.Basic

/-!
# Scripts that define a schema

A schema is a set of named objects. A statement that creates one does nothing where it is there already,
and fails where something that it refers to is missing; a column is added only where there is none of its
name. A script whose statements refer to what came before and create what is new runs on every catalog
that holds what came before, whatever else is in it.
-/

namespace Library.Ddl

inductive Object (ν : Type) where
  | table (name : ν)
  | column (table name : ν)
  | index (name : ν)
  | trigger (name : ν)
  deriving DecidableEq, Repr

abbrev Catalog (ν : Type) := List (Object ν)

inductive Failure (ν : Type) where
  | noSuchTable (table : ν)
  | noSuchColumn (table : ν)
  | duplicateColumn (column : ν)
  deriving DecidableEq, Repr

/-- The `CREATE` statements are those with `IF NOT EXISTS`. -/
inductive Statement (ν : Type) where
  | createTable (name : ν) (columns : List ν)
  | createIndex (name table : ν) (columns : List ν)
  | createTrigger (name table : ν)
  | addColumn (table column : ν)
  deriving DecidableEq, Repr

variable {ν : Type} [DecidableEq ν]

namespace Statement

/-- What the statement creates. -/
def makes : Statement ν → List (Object ν)
  | createTable name columns => .table name :: columns.map (.column name)
  | createIndex name _ _ => [.index name]
  | createTrigger name _ => [.trigger name]
  | addColumn table column => [.column table column]

/-- What the statement refers to. -/
def needs : Statement ν → List (Object ν)
  | createTable _ _ => []
  | createIndex _ table columns => .table table :: columns.map (.column table)
  | createTrigger _ table => [.table table]
  | addColumn table _ => [.table table]

def run (c : Catalog ν) : Statement ν → Except (Failure ν) (Catalog ν)
  | createTable name columns =>
    if c.contains (.table name) then .ok c else .ok (c ++ makes (createTable name columns))
  | createIndex name table columns =>
    if !c.contains (.table table) then .error (.noSuchTable table)
    else if c.contains (.index name) then .ok c
    else if columns.any (fun column => !c.contains (.column table column)) then
      .error (.noSuchColumn table)
    else .ok (c ++ makes (createIndex name table columns))
  | createTrigger name table =>
    if !c.contains (.table table) then .error (.noSuchTable table)
    else if c.contains (.trigger name) then .ok c
    else .ok (c ++ makes (createTrigger name table))
  | addColumn table column =>
    if !c.contains (.table table) then .error (.noSuchTable table)
    else if c.contains (.column table column) then .error (.duplicateColumn column)
    else .ok (c ++ makes (addColumn table column))

/-- The statement may be run again: it creates one object, if it is not there. -/
def repeatable : Statement ν → Bool
  | createTable _ columns => columns.isEmpty
  | createIndex _ _ _ | createTrigger _ _ => true
  | addColumn _ _ => false

section

variable {c : Catalog ν} {s : Statement ν}

/-- A statement appends what it creates, or does nothing. -/
theorem run_cases {c' : Catalog ν} (h : s.run c = .ok c') : c' = c ∨ c' = c ++ s.makes := by
  cases s with
  | createTable name columns =>
    rw [run] at h
    split at h
    · exact .inl (Except.ok.inj h).symm
    · exact .inr (Except.ok.inj h).symm
  | createIndex name table columns =>
    rw [run] at h
    split at h
    · cases h
    · split at h
      · exact .inl (Except.ok.inj h).symm
      · split at h
        · cases h
        · exact .inr (Except.ok.inj h).symm
  | createTrigger name table =>
    rw [run] at h
    split at h
    · cases h
    · split at h
      · exact .inl (Except.ok.inj h).symm
      · exact .inr (Except.ok.inj h).symm
  | addColumn table column =>
    rw [run] at h
    split at h
    · cases h
    · split at h
      · cases h
      · exact .inr (Except.ok.inj h).symm

/-- A statement that creates something new appends it. -/
theorem run_new (hneeds : ∀ o ∈ s.needs, o ∈ c) (hnew : ∀ o ∈ s.makes, o ∉ c) :
    s.run c = .ok (c ++ s.makes) := by
  cases s with
  | createTable name columns =>
    have hname := hnew _ List.mem_cons_self
    simp only [run, List.contains_iff_mem, hname, if_false]
  | createIndex name table columns =>
    have htable := hneeds _ List.mem_cons_self
    have hname := hnew _ List.mem_cons_self
    have hcolumns : ∀ column ∈ columns, .column table column ∈ c := fun column hmem =>
      hneeds _ (List.mem_cons_of_mem _ (List.mem_map_of_mem hmem))
    simpa [run, htable, hname] using hcolumns
  | createTrigger name table =>
    have htable := hneeds _ List.mem_cons_self
    have hname := hnew _ List.mem_cons_self
    simp [run, htable, hname]
  | addColumn table column =>
    have htable := hneeds _ List.mem_cons_self
    have hname := hnew _ List.mem_cons_self
    simp [run, htable, hname]

/-- A repeatable statement leaves a catalog that has what it creates. -/
theorem run_old (hneeds : ∀ o ∈ s.needs, o ∈ c) (hrepeatable : s.repeatable = true)
    (hold : ∃ o ∈ s.makes, o ∈ c) : s.run c = .ok c ∧ ∀ o ∈ s.makes, o ∈ c := by
  obtain ⟨o, ho, hmem⟩ := hold
  cases s with
  | createTable name columns =>
    obtain rfl : columns = [] := List.isEmpty_iff.mp hrepeatable
    obtain rfl := List.mem_singleton.mp ho
    exact ⟨by simp [run, hmem], fun o ho => List.mem_singleton.mp ho ▸ hmem⟩
  | createIndex name table columns =>
    have htable := hneeds _ List.mem_cons_self
    obtain rfl := List.mem_singleton.mp ho
    exact ⟨by simp [run, htable, hmem], fun o ho => List.mem_singleton.mp ho ▸ hmem⟩
  | createTrigger name table =>
    have htable := hneeds _ List.mem_cons_self
    obtain rfl := List.mem_singleton.mp ho
    exact ⟨by simp [run, htable, hmem], fun o ho => List.mem_singleton.mp ho ▸ hmem⟩
  | addColumn table column => cases hrepeatable

/-- Run again or not, a repeatable statement leaves the catalog with what it creates. -/
theorem run_repeatable (hneeds : ∀ o ∈ s.needs, o ∈ c) (hrepeatable : s.repeatable = true) :
    ∃ c', s.run c = .ok c' ∧ ∀ o, o ∈ c' ↔ o ∈ c ∨ o ∈ s.makes := by
  by_cases hold : ∃ o ∈ s.makes, o ∈ c
  · obtain ⟨hrun, hthere⟩ := run_old hneeds hrepeatable hold
    exact ⟨c, hrun, fun o => ⟨.inl, fun ho => ho.elim id (hthere o)⟩⟩
  · have hrun := run_new hneeds fun o ho hmem => hold ⟨o, ho, hmem⟩
    exact ⟨_, hrun, fun o => List.mem_append⟩

end

end Statement

/-! ## Scripts -/

def runScript : List (Statement ν) → Catalog ν → Except (Failure ν) (Catalog ν)
  | [], c => .ok c
  | s :: ss, c =>
    match s.run c with
    | .ok c' => runScript ss c'
    | .error e => .error e

/-- What a script creates. -/
def made (ss : List (Statement ν)) : List (Object ν) := ss.flatMap Statement.makes

/-- No script takes anything away. -/
theorem runScript_keeps {ss : List (Statement ν)} {c c' : Catalog ν} (h : runScript ss c = .ok c') :
    ∀ o ∈ c, o ∈ c' := by
  induction ss generalizing c with
  | nil => exact fun o ho => Except.ok.inj h ▸ ho
  | cons s ss ih =>
    unfold runScript at h
    split at h
    · next d hd =>
      intro o ho
      rcases s.run_cases hd with rfl | rfl
      · exact ih h o ho
      · exact ih h o (List.mem_append_left _ ho)
    · cases h

/-- After what is known, every statement refers to what is there, and creates what is not. -/
def fits : List (Object ν) → List (Statement ν) → Bool
  | _, [] => true
  | known, s :: ss => s.needs.all known.contains && s.makes.all (fun o => !known.contains o) &&
    fits (known ++ s.makes) ss

theorem fits_cons {known : List (Object ν)} {s : Statement ν} {ss : List (Statement ν)} :
    fits known (s :: ss) = true ↔ ((∀ o ∈ s.needs, o ∈ known) ∧ ∀ o ∈ s.makes, o ∉ known) ∧
      fits (known ++ s.makes) ss = true := by
  simp [fits]

/-- The catalog holds what is known, and besides only objects of a kind. -/
structure Stands (extra : Object ν → Prop) (known : List (Object ν)) (c : Catalog ν) : Prop where
  there : ∀ o ∈ known, o ∈ c
  only : ∀ o ∈ c, o ∈ known ∨ extra o

variable {extra : Object ν → Prop} {known : List (Object ν)} {c : Catalog ν}
  {ss : List (Statement ν)}

theorem fits_append {ss' : List (Statement ν)} :
    fits known (ss ++ ss') = true ↔ fits known ss = true ∧ fits (known ++ made ss) ss' = true := by
  induction ss generalizing known with
  | nil =>
    rw [List.nil_append, made, List.flatMap_nil, List.append_nil]
    exact ⟨fun h => ⟨rfl, h⟩, And.right⟩
  | cons s ss ih =>
    have hmade : known ++ made (s :: ss) = known ++ s.makes ++ made ss := by
      rw [made, List.flatMap_cons, ← List.append_assoc]
      rfl
    rw [List.cons_append, fits_cons, fits_cons, ih, hmade]
    exact and_assoc.symm

theorem Stands.runScript (h : Stands extra known c) (hfits : fits known ss = true)
    (hextra : ∀ o ∈ made ss, ¬ extra o) :
    ∃ c', runScript ss c = .ok c' ∧ Stands extra (known ++ made ss) c' := by
  induction ss generalizing known c with
  | nil => exact ⟨c, rfl, by rwa [made, List.flatMap_nil, List.append_nil]⟩
  | cons s ss ih =>
    obtain ⟨⟨hneeds, hnew⟩, hrest⟩ := fits_cons.mp hfits
    have hmade : made (s :: ss) = s.makes ++ made ss := List.flatMap_cons
    have hrun := s.run_new (fun o ho => h.there o (hneeds o ho)) fun o ho hmem =>
      (h.only o hmem).elim (hnew o ho) (hextra o (hmade ▸ List.mem_append_left _ ho))
    have hnext : Stands extra (known ++ s.makes) (c ++ s.makes) :=
      ⟨fun o ho => List.mem_append.mpr ((List.mem_append.mp ho).imp (h.there o) id), fun o ho =>
        (List.mem_append.mp ho).elim
          (fun hc => (h.only o hc).imp (List.mem_append_left _) id)
          fun hs => .inl (List.mem_append_right _ hs)⟩
    obtain ⟨c', hc', hstands⟩ := ih hnext hrest fun o ho =>
      hextra o (hmade ▸ List.mem_append_right _ ho)
    refine ⟨c', ?_, ?_⟩
    · unfold Ddl.runScript
      rw [hrun]
      exact hc'
    · rw [hmade, ← List.append_assoc]
      exact hstands

/-- A repeatable statement that creates an object of the kind keeps what the catalog stands on, and
nothing goes away. -/
theorem Stands.repeatable (h : Stands extra known c) {s : Statement ν}
    (hneeds : ∀ o ∈ s.needs, o ∈ known ∨ extra o ∧ o ∈ c) (hrepeatable : s.repeatable = true)
    (hextra : ∀ o ∈ s.makes, extra o) :
    ∃ c', s.run c = .ok c' ∧ Stands extra known c' ∧ ∀ o, o ∈ c' ↔ o ∈ c ∨ o ∈ s.makes := by
  obtain ⟨c', hrun, hmem⟩ := Statement.run_repeatable
    (fun o ho => (hneeds o ho).elim (h.there o) And.right) hrepeatable
  refine ⟨c', hrun, ⟨fun o ho => (hmem o).mpr (.inl (h.there o ho)), fun o ho => ?_⟩, hmem⟩
  exact ((hmem o).mp ho).elim (h.only o) fun hs => .inr (hextra o hs)

/-- The schema after the first `n` scripts. -/
def schemaAt (scripts : List (List (Statement ν))) (n : Nat) : List (Object ν) :=
  made (scripts.take n).flatten

/-- One script leads from its schema to the next. -/
theorem Stands.upgrade {scripts : List (List (Statement ν))} {n : Nat}
    (h : Stands extra (schemaAt scripts n) c) (hfits : fits [] scripts.flatten = true)
    (hextra : ∀ o ∈ made scripts.flatten, ¬ extra o) (hn : scripts[n]? = some ss) :
    ∃ c', Ddl.runScript ss c = .ok c' ∧ Stands extra (schemaAt scripts (n + 1)) c' := by
  have htake : (scripts.take (n + 1)).flatten = (scripts.take n).flatten ++ ss := by
    rw [List.take_add_one, hn, List.flatten_append]
    exact congrArg _ (List.append_nil ss)
  have hsplit : scripts.flatten = (scripts.take n).flatten ++ ss ++ (scripts.drop (n + 1)).flatten := by
    rw [← htake, ← List.flatten_append, List.take_append_drop]
  rw [hsplit, fits_append, fits_append] at hfits
  obtain ⟨c', hrun, hstands⟩ := h.runScript hfits.1.2 fun o ho => hextra o <| by
    rw [hsplit, made, List.flatMap_append, List.flatMap_append]
    exact List.mem_append_left _ (List.mem_append_right _ ho)
  refine ⟨c', hrun, ?_⟩
  have hschema : schemaAt scripts (n + 1) = schemaAt scripts n ++ made ss := by
    unfold schemaAt
    rw [htake, made, List.flatMap_append]
    rfl
  exact hschema ▸ hstands

end Library.Ddl
