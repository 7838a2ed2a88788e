import DdlCatalog.Encoding.Table
import DdlCatalog.Proofs.Encoding.Key

/-!
Tables written and read back: all of a table but the constraints that it has not taken over.
-/

namespace DdlCatalog

open Json Json.Fields

variable {α : Type} {room : Nat}

/-! ### Members that are left out -/

theorem elim_whenNonempty {value : α → Json} {value? : Json → Option α} (h : ∀ x, value? (value x) = some x)
    (xs : List α) : (if xs = [] then none else some (ofList value xs)).elim (some []) (list? value?) = some xs := by
  split
  · rename_i hxs; rw [Option.elim_none, hxs]
  · rw [Option.elim_some, list?_ofList fun x _ => h x, List.map_id']

theorem elim_whenTrue (b : Bool) :
    (if b = true then some (Json.bool true) else none).elim (some false) bool? = some b := by
  cases b <;> rfl

namespace Datatype

theorem kind_codes : Codes (fun k : DatatypeKind => .string k.name) (oneOf? DatatypeKind.all DatatypeKind.name) :=
  codes_oneOf (by rintro ⟨⟩ <;> decide) (by decide)

theorem ofJson?_toJson (d : Datatype) : ofJson? d.toJson = some d := by
  rw [ofJson?, toJson, fields?_object (by decide)]
  · simp [required, optional_eq, optionalOf_map, withDefault_eq, kind_codes.reads, codes_uint8, codes_uint32,
      codes_uint64, elim_whenNonempty codes_string.reads, elim_whenTrue]
  · simp only [List.append_assoc]
    apply_rules [within_singleton, within_whenSome, within_whenNonempty, within_whenTrue, within_append]

theorem fits_toJson (d : Datatype) : d.toJson.Fits (room + 2) := by
  simp [toJson]

end Datatype

namespace ColumnOptions

/-- An explicit null is read as a value, unlike the absence of a default. -/
theorem elim_default (v : Option DefaultValue) :
    v.elim (some none) ((fun j => (DefaultValue.ofJson? j).map some) ∘ DefaultValue.toJson) = some v := by
  cases v with
  | none => rfl
  | some v => rw [Option.elim_some, Function.comp_apply, DefaultValue.ofJson?_toJson, Option.map_some]

theorem ofJson?_toJson (o : ColumnOptions) : ofJson? o.toJson = some o := by
  rw [ofJson?, toJson, fields?_object (by decide)]
  · simp [optional_eq, optionalOf_map, withDefault_eq, present_eq, codes_string, bool?, elim_default, elim_whenTrue]
  · simp only [List.append_assoc]
    apply_rules [within_singleton, within_whenSome, within_whenTrue, within_append]

theorem fits_toJson {o : ColumnOptions} (h : ∀ v ∈ o.default, v.ReadsBack) : o.toJson.Fits (room + 1) := by
  have hdefault (v : DefaultValue) (hv : o.default = some v) : v.toJson.Fits room := DefaultValue.fits_toJson (h v hv)
  simpa [toJson] using hdefault

end ColumnOptions

namespace Column

theorem ofJson?_toJson (c : Column) : ofJson? c.toJson = some c.bare := by
  rw [ofJson?, toJson, fields?_object (by decide)]
  · simp [required, withDefault_eq, string?, Datatype.ofJson?_toJson, ColumnOptions.ofJson?_toJson, bare]
  · apply_rules [within_cons, within_nil]

theorem fits_toJson {c : Column} (h : ∀ v ∈ c.options.default, v.ReadsBack) : c.toJson.Fits (room + 3) := by
  simp [toJson, Datatype.fits_toJson, ColumnOptions.fits_toJson h]

end Column

namespace TableOptions

theorem ofJson?_toJson (o : TableOptions) : ofJson? o.toJson = some o := by
  rw [ofJson?, toJson, fields?_object (by decide)]
  · simp only [some_bind, optional_eq, withDefault_eq, get?_append, get?_whenSome, get?_whenNonempty, String.reduceEq,
      if_true, if_false, Option.none_or, Option.or_none]
    simp only [some_bind, optionalOf_map, codes_string, codes_bool, codes_uint64, elim_whenNonempty codes_string.reads]
    rfl
  · simp only [List.append_assoc]
    apply_rules [within_whenSome, within_whenNonempty, within_append]

theorem fits_toJson (o : TableOptions) : o.toJson.Fits (room + 2) := by
  simp [toJson]

end TableOptions

namespace Table

/-- The table without the constraints that its columns were declared with. -/
def bare (t : Table) : Table := { t with columns := t.columns.map Column.bare }

theorem bare_eq {t : Table} (h : ∀ c ∈ t.columns, c.inline = {}) : t.bare = t := by
  have hcolumns : t.columns.map Column.bare = t.columns := by
    have hbare : ∀ c ∈ t.columns, c.bare = id c := fun c hc => by rw [Column.bare, ← h c hc, id]
    rw [List.map_congr_left hbare, List.map_id]
  rw [bare, hcolumns]

theorem codes_options : Codes TableOptions.toJson TableOptions.ofJson? :=
  ⟨TableOptions.ofJson?_toJson, fun _ => Json.noConfusion⟩

theorem codes_index : Codes indexToJson (Index.ofJson? .table) :=
  ⟨Index.ofJson?_toJson PartNames.table_apart false, fun _ => Json.noConfusion⟩

theorem ofJson?_toJson (t : Table) : ofJson? t.toJson = some t.bare := by
  rw [ofJson?, toJson, fields?_object (by decide)]
  · simp [required, optional_eq, optionalOf_map, withDefault_eq, string?, codes_index, codes_options,
      list?_ofList fun c _ => Column.ofJson?_toJson c, elim_whenNonempty (ForeignKey.ofJson?_toJson PartNames.table_apart),
      elim_whenNonempty codes_index.reads, bare]
  · simp only [List.append_assoc, List.cons_append, List.nil_append]
    apply_rules [within_cons, within_whenSome, within_whenNonempty, within_append]

theorem fits_toJson {t : Table} (h : ∀ c ∈ t.columns, ∀ v ∈ c.options.default, v.ReadsBack) :
    t.toJson.Fits (room + 6) := by
  have hcolumns : (ofList Column.toJson t.columns).Fits (room + 5) :=
    fits_ofList.2 fun c hc => Column.fits_toJson (h c hc)
  rw [toJson, fits_object]
  simp only [allMembersFit_append, allMembersFit_cons, allMembersFit_whenSome, allMembersFit_whenNonempty]
  exact ⟨⟨⟨⟨⟨⟨⟨⟨fits_string _, hcolumns, allMembersFit_nil⟩, fun i _ => i.fits_toJson .table false⟩,
    fun k _ => k.fits_toJson .table⟩, fun i _ => i.fits_toJson .table false⟩, fun i _ => i.fits_toJson .table false⟩,
    fun i _ => i.fits_toJson .table false⟩, fun i _ => i.fits_toJson .table false⟩, fun o _ => o.fits_toJson⟩

end Table

end DdlCatalog
