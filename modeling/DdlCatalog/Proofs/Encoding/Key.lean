import DdlCatalog.Encoding.Key
import DdlCatalog.Proofs.Json.Field

/-!
Keys and default values written and read back.
-/

namespace DdlCatalog

open Json Json.Fields

variable {room : Nat}

/-! ### Enumerations -/

theorem SortOrder.codes : Codes (fun o : SortOrder => .string o.name) (oneOf? all name) :=
  codes_oneOf (by rintro ⟨⟩ <;> decide) (by decide)

theorem IndexMethod.codes : Codes (fun m : IndexMethod => .string m.name) (oneOf? all name) :=
  codes_oneOf (by rintro ⟨⟩ <;> decide) (by decide)

theorem MatchRule.codes : Codes (fun m : MatchRule => .string m.name) (oneOf? all name) :=
  codes_oneOf (by rintro ⟨⟩ <;> decide) (by decide)

theorem ReferentialAction.codes : Codes (fun a : ReferentialAction => .string a.name) (oneOf? all name) :=
  codes_oneOf (by rintro ⟨⟩ <;> decide) (by decide)

/-! ### Default values -/

namespace DefaultValue

theorem ofJson?_toJson (v : DefaultValue) : ofJson? v.toJson = some v := by
  cases v with
  | null | bool _ | real _ | text _ => rfl
  | integer n =>
      have hn : n.toInt < Int.pow 2 63 := n.toInt_lt
      rw [toJson, ofJson?, if_pos hn, Int64.ofInt_toInt]

/-- A real number is read from the text that it is written as. -/
def ReadsBack : DefaultValue → Prop
  | .real x => (Number.real x).ReadsBack
  | _ => True

/-- A real number is neither infinite nor no number at all. -/
def IsFinite : DefaultValue → Prop
  | .real x => x.isFinite = true
  | _ => True

instance : DecidablePred ReadsBack
  | .real x => inferInstanceAs (Decidable (Number.real x).ReadsBack)
  | .null | .bool _ | .integer _ | .text _ => isTrue trivial

instance : DecidablePred IsFinite
  | .real x => inferInstanceAs (Decidable (x.isFinite = true))
  | .null | .bool _ | .integer _ | .text _ => isTrue trivial

theorem fits_toJson {v : DefaultValue} (h : v.ReadsBack) : v.toJson.Fits room := by
  cases v with
  | null => exact fits_null
  | bool b => exact fits_bool b
  | text s => exact fits_string s
  | real x => exact fits_number h
  | integer n =>
      have hhigh := n.toInt_lt
      exact fits_number (Number.integer_readsBack n.le_toInt (by omega))

end DefaultValue

/-! ### Keys -/

/-- Names that tell the members of a key part apart. -/
def PartNames.Apart (names : PartNames) : Prop := ["column", names.length, names.order].Nodup

instance (names : PartNames) : Decidable names.Apart := inferInstanceAs (Decidable (List.Nodup _))

theorem PartNames.table_apart : PartNames.table.Apart := by decide

theorem PartNames.statement_apart : PartNames.statement.Apart := by decide

variable {names : PartNames}

namespace KeyPart

theorem ofJson?_toJson (h : names.Apart) (p : KeyPart) : ofJson? names (p.toJson names) = some p := by
  rw [ofJson?, toJson, fields?_object h]
  · have hne : ("column" ≠ names.length ∧ "column" ≠ names.order) ∧ names.length ≠ names.order := by
      simpa [PartNames.Apart] using h
    simp [required, optional_eq, optionalOf_map, codes_uint32, SortOrder.codes, string?, hne, hne.1.1.symm,
      hne.1.2.symm, hne.2.symm]
  · simp only [List.append_assoc]
    apply_rules [within_singleton, within_whenSome, within_append]

theorem fits_toJson (names : PartNames) (p : KeyPart) : (p.toJson names).Fits (room + 1) := by
  simp [toJson]

end KeyPart

namespace IndexOptions

theorem ofJson?_toJson (o : IndexOptions) : ofJson? o.toJson = some o := by
  rw [ofJson?, toJson, fields?_object (by decide)]
  · simp [optional_eq, optionalOf_map, codes_uint64, codes_string, codes_bool]
  · simp only [List.append_assoc]
    apply_rules [within_whenSome, within_append]

theorem fits_toJson (o : IndexOptions) : o.toJson.Fits (room + 1) := by
  simp [toJson]

end IndexOptions

theorem codes_parts (h : names.Apart) : Codes (ofList (KeyPart.toJson names)) (list? (KeyPart.ofJson? names)) :=
  Codes.list ⟨KeyPart.ofJson?_toJson h, fun _ => Json.noConfusion⟩

namespace Index

/-- Options that are left out are the ones that say nothing. -/
theorem elim_options (always : Bool) (o : IndexOptions) :
    (if always = false ∧ o = {} then none else some o.toJson).elim (some {}) IndexOptions.ofJson? = some o := by
  split
  · rename_i h
    rw [Option.elim_none, h.2]
  · rw [Option.elim_some, IndexOptions.ofJson?_toJson]

theorem ofJson?_toJson (h : names.Apart) (alwaysOptions : Bool) (i : Index) :
    ofJson? names (i.toJson names alwaysOptions) = some i := by
  rw [ofJson?, toJson, fields?_object (by decide)]
  · have hoptions := elim_options alwaysOptions i.options
    cases alwaysOptions <;>
      simp_all [required, optional_eq, optionalOf_map, withDefault_eq, codes_string, IndexMethod.codes,
        (codes_parts h).reads]
  · simp only [List.append_assoc]
    apply_rules [within_singleton, within_whenSome, within_ite, within_append]

theorem fits_toJson (names : PartNames) (alwaysOptions : Bool) (i : Index) :
    (i.toJson names alwaysOptions).Fits (room + 3) := by
  have hoptions : AllMembersFit (room + 2)
      (if alwaysOptions || i.options != {} then [("options", i.options.toJson)] else []) := by
    split
    · simp [IndexOptions.fits_toJson]
    · simp
  simpa [toJson, KeyPart.fits_toJson] using hoptions

end Index

namespace Reference

theorem ofJson?_toJson (h : names.Apart) (r : Reference) : ofJson? names (r.toJson names) = some r := by
  rw [ofJson?, toJson, fields?_object (by decide)]
  · simp [required, optional_eq, optionalOf_map, string?, MatchRule.codes, ReferentialAction.codes,
      (codes_parts h).reads]
  · simp only [List.append_assoc, List.cons_append, List.nil_append]
    apply_rules [within_cons, within_whenSome, within_append]

theorem fits_toJson (names : PartNames) (r : Reference) : (r.toJson names).Fits (room + 3) := by
  simp [toJson, KeyPart.fits_toJson]

end Reference

namespace ForeignKey

theorem ofJson?_toJson (h : names.Apart) (k : ForeignKey) : ofJson? names (k.toJson names) = some k := by
  rw [ofJson?, toJson, fields?_object (by decide)]
  · simp [required, optional_eq, optionalOf_map, codes_string, (codes_parts h).reads, Reference.ofJson?_toJson h]
  · simp only [List.append_assoc]
    apply_rules [within_whenSome, within_append, within_cons, within_nil]

theorem fits_toJson (names : PartNames) (k : ForeignKey) : (k.toJson names).Fits (room + 4) := by
  simp [toJson, KeyPart.fits_toJson, Reference.fits_toJson]

end ForeignKey

end DdlCatalog
