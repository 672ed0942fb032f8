import Mathlib.Data.List.Nodup

/-!
# Records as JSON objects

JSON values with the rules by which a record is derived from an object: a field is looked up by its
name, an unknown field is ignored, a repeated one is refused, and a field that may be missing has a
default. The number type is a parameter.
-/

namespace Library

/-- A JSON value. `int` holds the integers of 64 bits, and `num` any other number. -/
inductive Json (F : Type) where
  | null
  | bool (b : Bool)
  | int (n : Int)
  | num (x : F)
  | str (s : String)
  | arr (items : List (Json F))
  | obj (fields : List (String × Json F))

namespace Json

variable {F α : Type}

/-! ## Scalars -/

def asStr : Json F → Option String
  | .str s => some s
  | _ => none

def asInt : Json F → Option Int
  | .int n => some n
  | _ => none

/-- A number, which may be written as an integer. -/
def asNum (ofInt : Int → F) : Json F → Option F
  | .num x => some x
  | .int n => some (ofInt n)
  | _ => none

/-- `null` stands for a missing value. -/
def asOption (read : Json F → Option α) : Json F → Option (Option α)
  | .null => some none
  | v => (read v).map some

/-! ## Fields -/

/-- The value of a field, if it is there; `none` when it is repeated. -/
def field (fields : List (String × Json F)) (name : String) : Option (Option (Json F)) :=
  match fields.filter fun f => f.1 = name with
  | [] => some none
  | [f] => some (some f.2)
  | _ :: _ :: _ => none

def required (read : Json F → Option α) (fields : List (String × Json F)) (name : String) :
    Option α :=
  match field fields name with
  | some (some v) => read v
  | _ => none

def defaulted (default : α) (read : Json F → Option α) (fields : List (String × Json F))
    (name : String) : Option α :=
  match field fields name with
  | some none => some default
  | some (some v) => read v
  | none => none

/-- A field that is only written when it has a value. -/
def skipNone (name : String) : Option (Json F) → List (String × Json F)
  | none => []
  | some v => [(name, v)]

@[simp] theorem skipNone_none (name : String) : skipNone (F := F) name none = [] := rfl

theorem field_of_mem {fields : List (String × Json F)} (hkeys : (fields.map Prod.fst).Nodup)
    {name : String} {v : Json F} (h : (name, v) ∈ fields) : field fields name = some (some v) := by
  obtain ⟨before, after, rfl⟩ := List.append_of_mem h
  rw [List.map_append, List.map_cons, List.nodup_middle, List.nodup_cons, List.mem_append] at hkeys
  have hother : ∀ fs : List (String × Json F), name ∉ fs.map Prod.fst →
      fs.filter (fun f => f.1 = name) = [] := by
    intro fs hfs
    rw [List.filter_eq_nil_iff]
    intro f hf heq
    exact hfs (List.mem_map.mpr ⟨f, hf, of_decide_eq_true heq⟩)
  have hself : ((name, v) :: after).filter (fun f => f.1 = name) = [(name, v)] := by
    rw [List.filter_cons, if_pos (decide_eq_true rfl), hother after fun ha => hkeys.1 (.inr ha)]
  unfold field
  rw [List.filter_append, hself, hother before fun hb => hkeys.1 (.inl hb)]
  rfl

theorem field_absent {fields : List (String × Json F)} {name : String}
    (h : name ∉ fields.map Prod.fst) : field fields name = some none := by
  have hnone : fields.filter (fun f => f.1 = name) = [] := by
    rw [List.filter_eq_nil_iff]
    intro f hf heq
    exact h (List.mem_map.mpr ⟨f, hf, of_decide_eq_true heq⟩)
  unfold field
  rw [hnone]

theorem skipNone_keys {name : String} {v : Option (Json F)} :
    ((skipNone name v).map Prod.fst).Sublist [name] := by
  cases v with
  | none => exact List.nil_sublist _
  | some v => exact List.Sublist.refl _

theorem not_mem_skipNone {name other : String} {v : Option (Json F)} (h : name ≠ other) :
    name ∉ (skipNone other v).map Prod.fst :=
  fun hmem => h (List.mem_singleton.mp (skipNone_keys.subset hmem))

theorem required_of_mem {read : Json F → Option α} {fields : List (String × Json F)}
    (hkeys : (fields.map Prod.fst).Nodup) {name : String} {v : Json F} (h : (name, v) ∈ fields) :
    required read fields name = read v := by
  rw [required, field_of_mem hkeys h]

theorem defaulted_of_mem {default : α} {read : Json F → Option α}
    {fields : List (String × Json F)} (hkeys : (fields.map Prod.fst).Nodup) {name : String}
    {v : Json F} (h : (name, v) ∈ fields) : defaulted default read fields name = read v := by
  rw [defaulted, field_of_mem hkeys h]

/-- An optional field comes back as it was, whether it was written or skipped. -/
theorem defaulted_skipNone {read : Json F → Option α} (write : α → Json F)
    (hread : ∀ a, asOption read (write a) = some (some a)) {fields : List (String × Json F)}
    (hkeys : (fields.map Prod.fst).Nodup) {name : String} {value : Option α}
    (hthere : ∀ f ∈ skipNone name (value.map write), f ∈ fields)
    (hskipped : value = none → name ∉ fields.map Prod.fst) :
    defaulted none (asOption read) fields name = some value := by
  cases value with
  | none => rw [defaulted, field_absent (hskipped rfl)]
  | some a => rw [defaulted_of_mem hkeys (hthere _ (List.mem_singleton_self _)), hread]

end Json

end Library
