import DdlCatalog.Projection.JsonSchema
import DdlCatalog.Proofs.Json.Field
import DdlCatalog.Proofs.Json.Pointer
import DdlCatalog.Proofs.Projection.Members

/-!
References to column schemas. A column that is defined apart is found through its reference exactly if the
name of the column, read as a step of a pointer, means a column with that schema.
-/

namespace DdlCatalog.Projection

open Json

variable {t : Table} {c d : Column} {name : String}

/-! ### Members by name -/

theorem find?_eq_some_iff (h : t.columnNames.Nodup) :
    t.columns.find? (·.name == name) = some d ↔ d ∈ t.columns ∧ d.name = name := by
  have hfound {e : Column} (he : t.columns.find? (·.name == name) = some e) : e ∈ t.columns ∧ e.name = name :=
    ⟨List.mem_of_find?_eq_some he, by simpa using List.find?_some he⟩
  refine ⟨hfound, fun hd => ?_⟩
  obtain ⟨pre, e, post, hs⟩ := exists_split ⟨d, hd⟩
  have he := hfound hs.find?_eq
  rw [hs.find?_eq, List.inj_on_of_nodup_map h he.1 hd.1 (he.2.trans hd.2.symm)]

theorem step?_object (fields : Fields) (name : String) :
    (Json.object fields).step? name = (fields.find? (·.1 == name)).map (·.2) := rfl

theorem step?_fields (fields : Fields) (name : String) : (Json.object fields).step? name = fields.get? name := by
  rw [step?_object]
  induction fields with
  | nil => rfl
  | cons m ms ih =>
      rw [Fields.get?_cons, ← ih, List.find?_cons]
      by_cases h : m.1 = name
      · rw [if_pos h.symm, beq_iff_eq.2 h]
        rfl
      · rw [if_neg (Ne.symm h), beq_eq_false_iff_ne.2 h]

theorem step?_columns (f : Column → Json) (columns : List Column) :
    (Json.object (columns.map fun c => (c.name, f c))).step? name = (columns.find? (·.name == name)).map f := by
  rw [step?_object, List.find?_map, Option.map_map]
  rfl

/-! ### Schemas of columns -/

theorem objectFree_whenSome {α : Type} {value : α → Json} {o : Option α} (h : ∀ x, (value x).ObjectFree) :
    ∀ m ∈ whenSome name value o, m.2.ObjectFree := by
  cases o with
  | none => nofun
  | some x => simpa [whenSome] using h x

theorem objectFree_ofList {α : Type} {value : α → Json} (h : ∀ x, (value x).ObjectFree) (xs : List α) :
    (ofList value xs).ObjectFree := by
  refine objectFree_array fun j hj => ?_
  obtain ⟨x, -, rfl⟩ := List.mem_map.1 hj
  exact h x

theorem objectFree_whenNonempty {α : Type} {value : α → Json} {xs : List α} (h : ∀ x, (value x).ObjectFree) :
    ∀ m ∈ whenNonempty name value xs, m.2.ObjectFree := by
  cases xs with
  | nil => nofun
  | cons x xs =>
      intro m hm
      cases List.mem_singleton.1 hm
      exact objectFree_ofList h (x :: xs)

theorem defaultValue_objectFree (v : DefaultValue) : v.toJson.ObjectFree := by
  cases v with
  | null | bool b => exact objectFree_of_leaf nofun fun _ => rfl
  | integer n | real x => exact objectFree_number _
  | text s => exact objectFree_string s

theorem types_objectFree (types : JsonTypes) : types.toJson.ObjectFree := by
  cases types with
  | one type => exact objectFree_string _
  | many types => exact objectFree_ofList (fun type => objectFree_string type.name) types

/-- There are no objects in the schema of a column but itself. -/
theorem columnSchema_members_objectFree (s : ColumnSchema) :
    ∃ members, s.toJson = .object members ∧ ∀ m ∈ members, m.2.ObjectFree := by
  refine ⟨_, rfl, ?_⟩
  simp only [List.forall_mem_append]
  refine ⟨⟨⟨⟨⟨⟨⟨⟨?_, ?_⟩, ?_⟩, ?_⟩, ?_⟩, ?_⟩, ?_⟩, ?_⟩, ?_⟩
  · exact objectFree_whenSome types_objectFree
  · exact objectFree_whenSome objectFree_string
  · exact objectFree_whenSome defaultValue_objectFree
  · exact objectFree_whenSome objectFree_number
  · exact objectFree_whenSome objectFree_number
  · exact objectFree_whenSome objectFree_string
  · exact objectFree_whenSome objectFree_string
  · exact objectFree_whenSome fun n => objectFree_number _
  · exact objectFree_whenNonempty objectFree_string

/-- Behind the schema of a column no other schema is found. -/
theorem follow?_columnSchema {s s' : ColumnSchema} {steps : List String} :
    s.toJson.follow? steps = some s'.toJson ↔ steps = [] ∧ s.toJson = s'.toJson := by
  obtain ⟨members, hs, hfree⟩ := columnSchema_members_objectFree s
  obtain ⟨members', hs', -⟩ := columnSchema_members_objectFree s'
  cases steps with
  | nil => simp [follow?]
  | cons step steps =>
      simp only [follow?, reduceCtorEq, false_and, iff_false, Option.bind_eq_some_iff, not_exists, not_and]
      intro j hj
      rw [hs, step?_object, Option.map_eq_some_iff] at hj
      obtain ⟨m, hm, rfl⟩ := hj
      rw [hs']
      exact hfree m (List.mem_of_find?_eq_some hm) steps members'

/-! ### The documents -/

theorem step?_properties (h : t.columnNames.Nodup) (options : JsonSchemaOptions) :
    (jsonSchema options t).toJson.step? "properties" =
      some (.object (t.columns.map fun c => (c.name, (property options c).toJson))) := by
  rw [JsonSchema.toJson, step?_fields]
  simp [jsonSchema, columns_ofEntries h, membersJson]

theorem step?_definitions (h : t.columnNames.Nodup) (hc : c ∈ t.columns) (idStart : Option String) :
    (jsonSchema { useRef := true, idStart := idStart } t).toJson.step? "definitions" =
      some (.object (t.columns.map fun c => (c.name, (columnSchema c).toJson))) := by
  have hne : t.columns ≠ [] := List.ne_nil_of_mem hc
  rw [JsonSchema.toJson, step?_fields]
  simp [jsonSchema, columns_ofEntries h, membersJson, hne]

/-! ### References -/

theorem refTarget_toList (column : String) :
    (refTarget column).toList = '#' :: '/' :: "definitions".toList ++ '/' :: column.toList := by
  rw [refTarget, String.toList_append]
  rfl

theorem follow?_definitions (h : t.columnNames.Nodup) {first : String} {steps : List String} {s : ColumnSchema} :
    (Json.object (t.columns.map fun c => (c.name, (columnSchema c).toJson))).follow? (first :: steps) = some s.toJson ↔
      steps = [] ∧ ∃ d ∈ t.columns, d.name = first ∧ (columnSchema d).toJson = s.toJson := by
  simp only [follow?, step?_columns, Option.bind_eq_some_iff, Option.map_eq_some_iff, find?_eq_some_iff h]
  constructor
  · rintro ⟨_, ⟨d, ⟨hd, hname⟩, rfl⟩, hfollow⟩
    obtain ⟨hsteps, hs⟩ := follow?_columnSchema.1 hfollow
    exact ⟨hsteps, d, hd, hname, hs⟩
  · rintro ⟨hsteps, d, hd, hname, hs⟩
    exact ⟨_, ⟨d, ⟨hd, hname⟩, rfl⟩, follow?_columnSchema.2 ⟨hsteps, hs⟩⟩

theorem resolve?_refTarget_iff (h : t.columnNames.Nodup) (hc : c ∈ t.columns) (idStart : Option String) :
    resolve? (refTarget name) (jsonSchema { useRef := true, idStart := idStart } t).toJson =
        some (columnSchema c).toJson ↔
      ∃ d ∈ t.columns, meant? name = some d.name ∧ (columnSchema d).toJson = (columnSchema c).toJson := by
  have hplain : Plain "definitions".toList := by decide
  rw [resolve?_second hplain (refTarget_toList name), step?_definitions h hc, Option.bind_some, meant?]
  cases percentDecode? name.toList with
  | none => simp
  | some s =>
      simp only [Option.bind_some]
      by_cases hslash : '/' ∈ s
      · obtain ⟨before, after, rfl⟩ := List.append_of_mem hslash
        obtain ⟨x, xs, hx⟩ := List.exists_cons_of_ne_nil (List.splitOn_ne_nil '/' before)
        obtain ⟨y, ys, hy⟩ := List.exists_cons_of_ne_nil (List.splitOn_ne_nil '/' after)
        rw [List.splitOn_append_cons_self, hx, hy, List.cons_append, List.map_cons, follow?_definitions h]
        simp
      · rw [List.splitOn_eq_singleton hslash, List.map_singleton, follow?_definitions h, if_neg hslash]
        simp [eq_comm]

/-- A column that is referred to has the schema that it has in place under its reference exactly if its name
means a column of that schema; it means itself exactly if nothing in it is decoded, cut or unescaped. -/
theorem refTarget_resolves_iff (h : t.columnNames.Nodup) (hc : c ∈ t.columns) (idStart : Option String) :
    let apart := (jsonSchema { useRef := true, idStart := idStart } t).toJson
    let inPlace := (jsonSchema { useRef := false, idStart := idStart } t).toJson
    apart.follow? ["properties", c.name, "$ref"] = some (.string (refTarget c.name)) ∧
      inPlace.follow? ["properties", c.name] = some (columnSchema c).toJson ∧
      (resolve? (refTarget c.name) apart = inPlace.follow? ["properties", c.name] ↔
        ∃ d ∈ t.columns, meant? c.name = some d.name ∧ (columnSchema d).toJson = (columnSchema c).toJson) ∧
      (meant? c.name = some c.name ↔ Plain c.name.toList) := by
  intro apart inPlace
  have hfind : t.columns.find? (·.name == c.name) = some c := (find?_eq_some_iff h).2 ⟨hc, rfl⟩
  have hproperty (options : JsonSchemaOptions) (steps : List String) :
      (jsonSchema options t).toJson.follow? ("properties" :: c.name :: steps) =
        (property options c).toJson.follow? steps := by
    rw [follow?, step?_properties h, Option.bind_some, follow?, step?_columns, hfind]
    rfl
  have hinPlace : inPlace.follow? ["properties", c.name] = some (columnSchema c).toJson := hproperty _ []
  refine ⟨hproperty _ ["$ref"], hinPlace, ?_, meant?_eq_self_iff⟩
  rw [hinPlace]
  exact resolve?_refTarget_iff h hc idStart

/-- Columns of odd names: one that stands for itself all the same, one that means another, and one that is
two steps. -/
def oddlyNamed : Table :=
  { name := "t"
    columns := [{ name := "é~#", type := .int 4 }, { name := "ab", type := { kind := .json } },
      { name := "a%62", type := .int 4 }, { name := "a/b", type := .int 4 }] }

theorem oddlyNamed_resolves :
    let apart := (jsonSchema { useRef := true } oddlyNamed).toJson
    let inPlace := (jsonSchema { useRef := false } oddlyNamed).toJson
    oddlyNamed.columnNames.Nodup ∧ { name := "é~#", type := .int 4 } ∈ oddlyNamed.columns ∧
      resolve? (refTarget "é~#") apart = inPlace.follow? ["properties", "é~#"] := by
  intro apart inPlace
  have hd : oddlyNamed.columnNames.Nodup := by decide
  have hc : { name := "é~#", type := .int 4 } ∈ oddlyNamed.columns := List.mem_cons_self
  obtain ⟨-, -, hresolves, hmeant⟩ := refTarget_resolves_iff hd hc none
  exact ⟨hd, hc, hresolves.2 ⟨_, hc, hmeant.2 (by decide), rfl⟩⟩

/-- One reference leads to the schema of another column, and one to nothing. -/
theorem oddlyNamed_astray :
    let apart := (jsonSchema { useRef := true } oddlyNamed).toJson
    let inPlace := (jsonSchema { useRef := false } oddlyNamed).toJson
    oddlyNamed.columnNames = ["é~#", "ab", "a%62", "a/b"] ∧
      resolve? (refTarget "a%62") apart = inPlace.follow? ["properties", "ab"] ∧
      resolve? (refTarget "a%62") apart ≠ inPlace.follow? ["properties", "a%62"] ∧
      resolve? (refTarget "a/b") apart = none ∧ (inPlace.follow? ["properties", "a/b"]).isSome := by
  intro apart inPlace
  have hplain : Plain "definitions".toList := by decide
  have hbytes : percentBytes? "a%62".toList = some (utf8 "ab".toList) := by decide
  have hother : resolve? (refTarget "a%62") apart = inPlace.follow? ["properties", "ab"] := by
    rw [resolve?_second hplain (refTarget_toList _), percentDecode?_eq_some_iff.2 hbytes]
    rfl
  refine ⟨rfl, hother, fun h => ?_, ?_, rfl⟩
  · have htype := congrArg (Option.bind · (Json.follow? ["type"])) (hother.symm.trans h)
    cases htype
  · rw [resolve?_second hplain (refTarget_toList _), percentDecode?_self (by decide)]
    rfl

end DdlCatalog.Projection
