import DdlCatalog.Json.Schema
import DdlCatalog.Projection.JsonSchema
import Mathlib.Logic.Basic

/-!
Null against the schemas of columns. Whether a column may be null is told by its types alone, so that null is valid
exactly if the column is nullable or of a type that admits every value, and no list of allowed values shuts it out.
-/

namespace DdlCatalog.Projection

open Json

variable {limits : Limits} {name : String} {c : Column}

/-! ### Keywords -/

/-- Of null only the types and the list of allowed values ask something. -/
theorem asks_null (htype : name ≠ "type") (henum : name ≠ "enum") (argument : Json) :
    Asks limits name argument .null := by
  unfold Asks
  split
  · contradiction
  · contradiction
  all_goals simp

theorem whenSome_asks_null {α : Type} {value : α → Json} (htype : name ≠ "type") (henum : name ≠ "enum")
    (o : Option α) : ∀ m ∈ whenSome name value o, Asks limits m.1 m.2 .null := by
  cases o with
  | none => nofun
  | some x => simpa [whenSome] using asks_null htype henum (value x)

theorem whenSome_types_iff {types : Option JsonTypes} :
    (∀ m ∈ whenSome "type" JsonTypes.toJson types, Asks limits m.1 m.2 .null) ↔
      ∀ ts ∈ types, Asks limits "type" ts.toJson .null := by
  cases types <;> simp [whenSome]

/-- A list of allowed values is one of strings, so null is none of them. -/
theorem whenNonempty_enum_iff {values : List String} :
    (∀ m ∈ whenNonempty "enum" .string values, Asks limits m.1 m.2 .null) ↔ values = [] := by
  cases values with
  | nil => simp [whenNonempty]
  | cons v vs => simp [whenNonempty, ofList, Asks]

theorem columnSchema_toJson_valid_null_iff {s : ColumnSchema} : s.toJson.Valid limits .null ↔
    (∀ ts ∈ s.types, Asks limits "type" ts.toJson .null) ∧ s.allowed = [] := by
  have hother {α : Type} {value : α → Json} {o : Option α} (name : String) (htype : name ≠ "type")
      (henum : name ≠ "enum") : (∀ m ∈ whenSome name value o, Asks limits m.1 m.2 .null) ↔ True :=
    iff_true_intro (whenSome_asks_null htype henum o)
  simp only [ColumnSchema.toJson, Valid, List.forall_mem_append, whenSome_types_iff, whenNonempty_enum_iff]
  rw [hother "description" (by decide) (by decide), hother "default" (by decide) (by decide),
    hother "minimum" (by decide) (by decide), hother "maximum" (by decide) (by decide),
    hother "format" (by decide) (by decide), hother "pattern" (by decide) (by decide),
    hother "maxLength" (by decide) (by decide)]
  simp only [and_true]

/-! ### Columns -/

theorem baseType?_eq_none_iff {kind : DatatypeKind} : baseType? kind = none ↔ kind = .json := by
  cases kind <;> simp [baseType?]

theorem baseType?_ne_null (kind : DatatypeKind) : baseType? kind ≠ some .null := by
  cases kind <;> simp [baseType?]

theorem columnTypes_ask_null_iff {kind : DatatypeKind} {nullable : Bool} :
    (∀ ts ∈ columnTypes kind nullable, Asks limits "type" ts.toJson .null) ↔ nullable = true ∨ kind = .json := by
  have hname (type : JsonType) : type.name = "null" ↔ type = .null := by cases type <;> decide
  rw [columnTypes]
  cases htype : baseType? kind with
  | none => simp [baseType?_eq_none_iff.1 htype]
  | some type =>
      have hjson : kind ≠ .json := fun hkind => by
        rw [baseType?_eq_none_iff.2 hkind] at htype
        cases htype
      have hnull : type ≠ .null := fun h => baseType?_ne_null kind (by rw [htype, h])
      cases nullable with
      | true =>
          have hadmits : Asks limits "type" (JsonTypes.many [type, .null]).toJson .null :=
            ⟨"null", List.mem_cons_of_mem _ List.mem_cons_self, rfl⟩
          simpa using hadmits
      | false => simp [JsonTypes.toJson, Asks, isOfType, hname, hnull, hjson]

theorem allowed_eq_nil_iff : (columnSchema c).allowed = [] ↔ (c.type.kind = .enum → c.type.values = []) := by
  change c.type.bounds.allowed = [] ↔ _
  rw [Datatype.bounds]
  cases hkind : c.type.kind
  all_goals simp
  all_goals split <;> rfl

/-- Null is valid against the schema of a column, whatever the keywords for numbers and strings ask of those, exactly
if the column is nullable or of the type of JSON values, and not an enumeration with values. -/
theorem columnSchema_null_valid_iff (limits : Limits) (c : Column) :
    (columnSchema c).toJson.Valid limits .null ↔
      (c.options.nullable = true ∨ c.type.kind = .json) ∧ ¬ (c.type.kind = .enum ∧ c.type.values ≠ []) := by
  rw [columnSchema_toJson_valid_null_iff, allowed_eq_nil_iff, ne_eq, not_and_not_right]
  exact and_congr_left' columnTypes_ask_null_iff

/-- An enumeration that is nullable. -/
def tier : Column := { name := "tier", type := { kind := .enum, values := ["free", "pro"] } }

/-- The schema names null among the types, and yet null is not valid. -/
theorem tier_null_invalid :
    tier.options.nullable = true ∧
      (columnSchema tier).toJson =
        .object [("type", .array [.string "string", .string "null"]), ("enum", .array [.string "free", .string "pro"])] ∧
      ¬ ∃ limits, (columnSchema tier).toJson.Valid limits .null := by
  refine ⟨rfl, rfl, ?_⟩
  rintro ⟨limits, hvalid⟩
  have hallowed : (columnSchema tier).allowed = [] := (columnSchema_toJson_valid_null_iff.1 hvalid).2
  cases hallowed

end DdlCatalog.Projection
