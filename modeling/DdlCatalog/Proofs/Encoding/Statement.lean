import DdlCatalog.Encoding.Statement
import DdlCatalog.Proofs.Encoding.Table

/-!
Statements written and read back, the entries of a table also where they are wrapped in other ways than
they are written.
-/

namespace DdlCatalog

open Json Json.Fields

variable {room : Nat}

theorem IndexKind.codes : Codes (fun k : IndexKind => .string k.name) (oneOf? all name) :=
  codes_oneOf (by rintro ⟨⟩ <;> decide) (by decide)

theorem TypeName.codes : Codes (fun n : TypeName => .string n.name) (oneOf? all name) :=
  codes_oneOf (by rintro ⟨⟩ <;> decide) (by decide)

theorem Statement.Kind.codes : Codes (fun k : Kind => .string k.id) (oneOf? all id) :=
  codes_oneOf (by rintro ⟨⟩ <;> decide) (by decide)

/-- In a statement an index says its options also where there are none. -/
theorem Index.codes_statement : Codes (Index.toJson .statement true) (Index.ofJson? .statement) :=
  ⟨Index.ofJson?_toJson PartNames.statement_apart true, fun _ => Json.noConfusion⟩

theorem Reference.codes_statement : Codes (Reference.toJson .statement) (Reference.ofJson? .statement) :=
  ⟨Reference.ofJson?_toJson PartNames.statement_apart, fun _ => Json.noConfusion⟩

theorem ForeignKey.codes_statement : Codes (ForeignKey.toJson .statement) (ForeignKey.ofJson? .statement) :=
  ⟨ForeignKey.ofJson?_toJson PartNames.statement_apart, fun _ => Json.noConfusion⟩

/-! ### Columns -/

namespace TypeSpec

theorem ofJson?_toJson (s : TypeSpec) : ofJson? s.toJson = some s := by
  rw [ofJson?, toJson, fields?_object (by decide)]
  · simp [required, withDefault_eq, TypeName.codes.reads, elim_whenNonempty codes_uint64.reads,
      elim_whenNonempty codes_string.reads, elim_whenTrue]
  · simp only [List.append_assoc]
    apply_rules [within_singleton, within_whenNonempty, within_whenTrue, within_append]

theorem fits_toJson (s : TypeSpec) : s.toJson.Fits (room + 2) := by
  simp [toJson]

end TypeSpec

namespace ColumnAttributes

theorem ofJson?_toJson (a : ColumnAttributes) : ofJson? a.toJson = some a := by
  rw [ofJson?, toJson, fields?_object (by decide)]
  · simp only [some_bind, optional_eq, withDefault_eq, present_eq, get?_append, get?_whenSome, get?_whenTrue,
      String.reduceEq, if_true, if_false, Option.none_or, Option.or_none]
    simp only [some_bind, optionalOf_map, codes_string, codes_bool, Reference.codes_statement, Option.elim_map,
      ColumnOptions.elim_default, elim_whenTrue]
    rfl
  · simp only [List.append_assoc]
    apply_rules [within_whenSome, within_whenTrue, within_append]

theorem fits_toJson {a : ColumnAttributes} (h : ∀ v ∈ a.default, v.ReadsBack) : a.toJson.Fits (room + 4) := by
  have hdefault (v : DefaultValue) (hv : a.default = some v) : v.toJson.Fits (room + 3) :=
    DefaultValue.fits_toJson (h v hv)
  simpa [toJson, Reference.fits_toJson] using hdefault

end ColumnAttributes

namespace ColumnDefinition

theorem codes : Codes toJson ofJson? := by
  refine ⟨fun d => ?_, fun _ => Json.noConfusion⟩
  rw [ofJson?, toJson, fields?_object (by decide)]
  · simp [required, withDefault_eq, string?, TypeSpec.ofJson?_toJson, ColumnAttributes.ofJson?_toJson]
  · apply_rules [within_cons, within_nil]

def defaults (d : ColumnDefinition) : List DefaultValue := d.attributes.default.toList

theorem fits_toJson {d : ColumnDefinition} (h : ∀ v ∈ d.defaults, v.ReadsBack) : d.toJson.Fits (room + 5) := by
  have hattributes : d.attributes.toJson.Fits (room + 4) :=
    ColumnAttributes.fits_toJson fun v hv => h v (Option.mem_toList.2 hv)
  simp [toJson, TypeSpec.fits_toJson, hattributes]

end ColumnDefinition

/-! ### Table options -/

namespace TableOption

theorem codes : Codes toJson ofJson? := by
  refine ⟨fun o => ?_, fun o => by cases o <;> exact Json.noConfusion⟩
  cases o with
  | autoIncrement n | avgRowLength n | keyBlockSize n | maxRows n | minRows n =>
      rw [toJson, ofJson?, soleMember?, some_bind]
      simp only [codes_uint64.reads, Option.map_some]
  | union tables =>
      rw [toJson, ofJson?, soleMember?, some_bind]
      simp only [codes_string.list.reads, Option.map_some]
  | engine _ | charset _ | checksum _ | collation _ | comment _ | compression _ | connection _ | dataDirectory _
  | indexDirectory _ | delayKeyWrite _ | encryption _ | insertMethod _ | packKeys _ | password _ | rowFormat _
  | tablespace _ => rfl

theorem fits_toJson (o : TableOption) : o.toJson.Fits (room + 2) := by
  cases o <;> simp [toJson]

end TableOption

/-! ### Alterations -/

namespace Placement

theorem codes : Codes toJson ofJson? where
  reads p := by cases p <;> rfl
  not_null p := by cases p <;> exact Json.noConfusion

theorem fits_toJson (p : Placement) : p.toJson.Fits (room + 1) := by
  cases p <;> simp [toJson, fits_null]

end Placement

namespace Alteration

def defaults : Alteration → List DefaultValue
  | .addColumn d _ | .changeColumn _ d _ | .modifyColumn d _ => d.defaults
  | .addColumns ds => ds.flatMap ColumnDefinition.defaults
  | .setDefault _ value => [value]
  | _ => []

theorem fits_toJson {a : Alteration} (h : ∀ v ∈ a.defaults, v.ReadsBack) : a.toJson.Fits (room + 7) := by
  cases a with
  | addColumn d _ | changeColumn _ d _ | modifyColumn d _ =>
      have hd : d.toJson.Fits (room + 6) := ColumnDefinition.fits_toJson h
      simp [toJson, action, hd, Placement.fits_toJson]
  | addColumns ds =>
      have hds : ∀ d ∈ ds, d.toJson.Fits (room + 5) :=
        fun d hd => ColumnDefinition.fits_toJson fun v hv => h v (List.mem_flatMap_of_mem hd hv)
      simpa [toJson, action] using hds
  | setDefault _ value =>
      have hvalue : value.toJson.Fits (room + 6) := DefaultValue.fits_toJson (h value List.mem_cons_self)
      simp [toJson, action, hvalue]
  | addIndex _ _ | addPrimaryKey _ | addForeignKey _ | dropDefault _ | renameColumn _ _ | dropColumn _ | dropIndex _
  | dropPrimaryKey | dropForeignKey _ | renameIndex _ _ | renameTable _ | setOptions _ =>
      simp [toJson, action, Index.fits_toJson, ForeignKey.fits_toJson, TableOption.fits_toJson]

/-- A clause is read by the members that its action asks for. -/
theorem ofJson?_action {names : List String} {name : String} {members : Fields} {read : Fields → Option Alteration}
    (hread : ofMembers? name = fun j => j.fields? names >>= read) (hnames : ("action" :: names).Nodup)
    (hmembers : Within names members) (hcomplete : (action name members).isComplete = true) :
    ofJson? (action name members) = read members := by
  rw [List.nodup_cons] at hnames
  have hnot : ∀ m ∈ members, m.1 ≠ "action" := by
    intro m hm he
    exact hnames.1 (he ▸ hmembers.subset (List.mem_map_of_mem hm))
  have haction : (action name members).objectFields? ["action"] = some [("action", .string name)] :=
    objectFields?_sole (List.forall_mem_nil _) hnot _
  rw [ofJson?, if_neg (by simp [hcomplete])]
  · rw [haction, some_bind, required]
    simp only [action, get?_cons, if_true, Option.bind_some, string?, some_bind, hread]
    rw [fields?_cons_other hnames.1, fields?_object hnames.2 hmembers, some_bind]
  · exact fun _ _ => Json.noConfusion

theorem ofJson?_toJson {a : Alteration} (h : ∀ v ∈ a.defaults, v.ReadsBack) : ofJson? a.toJson = some a := by
  have hfits : a.toJson.Fits (0 + 7) := fits_toJson h
  have hcomplete := hfits.isComplete
  cases a with
  | dropPrimaryKey =>
      have hread : ofMembers? "dropPrimaryKey" = fun j => j.fields? [] >>= fun _ => some .dropPrimaryKey :=
        funext fun j => Option.map_eq_bind
      exact ofJson?_action hread (by decide) within_nil hcomplete
  | addColumn _ _ | addColumns _ | addIndex _ _ | addPrimaryKey _ | addForeignKey _ | setDefault _ _ | dropDefault _
  | changeColumn _ _ _ | modifyColumn _ _ | renameColumn _ _ | dropColumn _ | dropIndex _ | dropForeignKey _
  | renameIndex _ _ | renameTable _ | setOptions _ =>
      refine (ofJson?_action rfl (by decide) ?_ hcomplete).trans ?_
      · apply_rules [within_cons, within_whenSome, within_nil]
      · simp [required, optional_eq, optionalOf_map, string?, ColumnDefinition.codes.reads,
          ColumnDefinition.codes.list.reads, Placement.codes, IndexKind.codes.reads, Index.codes_statement.reads,
          ForeignKey.codes_statement.reads, DefaultValue.ofJson?_toJson, TableOption.codes.list.reads]

end Alteration

/-! ### Entries of a table -/

namespace TableEntry

def defaults : TableEntry → List DefaultValue
  | .column d => d.defaults
  | _ => []

theorem ofBare?_toJson (e : TableEntry) : ofBare? e.toJson = some e := by
  rcases e with _ | _ | _ | ⟨_ | _ | _ | _, _⟩ <;>
    simp [toJson, ofBare?, soleMember?, ColumnDefinition.codes.reads, Index.codes_statement.reads,
      ForeignKey.codes_statement.reads]

/-- No entry is taken for the wrapper of another. -/
theorem unwrap?_toJson (e : TableEntry) : unwrap? e.toJson = none := by
  rcases e with _ | _ | _ | ⟨_ | _ | _ | _, _⟩ <;> rfl

theorem fits_toJson {e : TableEntry} (h : ∀ v ∈ e.defaults, v.ReadsBack) : e.toJson.Fits (room + 6) := by
  cases e with
  | column d =>
      have hd : d.toJson.Fits (room + 5) := ColumnDefinition.fits_toJson h
      simp [toJson, hd]
  | primaryKey key => simp [toJson, Index.fits_toJson]
  | foreignKey key => simp [toJson, ForeignKey.fits_toJson]
  | index kind i => cases kind <;> simp [toJson, Index.fits_toJson]

/-- A value as it is written, or in the member `def` of an object, whose other members can be anything
that is read. The number says how many containers may be opened where it stands. -/
inductive MaybeWrapped (written : Nat → Json → Prop) : Nat → Json → Prop
  | bare {room : Nat} {j : Json} (h : written room j) : MaybeWrapped written room j
  | wrapped {room : Nat} {j : Json} {before after : Fields} (h : written room j)
      (hbefore : ∀ m ∈ before, m.1 ≠ "def" ∧ m.2.Fits room) (hafter : ∀ m ∈ after, m.1 ≠ "def" ∧ m.2.Fits room) :
      MaybeWrapped written (room + 1) (.object (before ++ ("def", j) :: after))

namespace MaybeWrapped

variable {α : Type} {written : Nat → Json → Prop} {value? : Json → Option α} {x : α} {j : Json}

theorem reads (hunwrap : ∀ room j, written room j → unwrap? j = none)
    (hread : ∀ room j, written room j → value? j = some x) (h : MaybeWrapped written room j) : ((unwrap? j).bind value?).or (value? j) = some x := by
  cases h with
  | bare h => rw [hunwrap _ _ h, hread _ _ h]; rfl
  | wrapped h hbefore hafter =>
      rw [unwrap?, objectFields?_sole (fun m hm => (hbefore m hm).1) (fun m hm => (hafter m hm).1), Option.bind_some,
        get?_cons, if_pos rfl, Option.bind_some, hread _ _ h]
      rfl

theorem fits {least : Nat} (hfits : ∀ room j, written room j → least ≤ room → j.Fits room)
    (h : MaybeWrapped written room j) (hroom : least + 1 ≤ room) : j.Fits room := by
  cases h with
  | bare h => exact hfits _ _ h (by omega)
  | wrapped h hbefore hafter =>
      rw [fits_object, allMembersFit_append, allMembersFit_cons, allMembersFit_iff, allMembersFit_iff]
      exact ⟨fun m hm => (hbefore m hm).2, hfits _ _ h (by omega), fun m hm => (hafter m hm).2⟩

/-- The wrapper that a value is written in says what it holds. -/
theorem tagged (id : String) (h : written room j) :
    MaybeWrapped written (room + 1) (.object [("id", .string id), ("def", j)]) := by
  have hid : ∀ m ∈ [("id", Json.string id)], m.1 ≠ "def" ∧ m.2.Fits room :=
    List.forall_mem_singleton.2 ⟨by simp, fits_string id⟩
  exact wrapped h hid (List.forall_mem_nil _)

end MaybeWrapped

/-- The ways to write an entry. -/
def WrittenAs (e : TableEntry) : Nat → Json → Prop := MaybeWrapped fun _ j => j = e.toJson

/-- The ways to write the entries of a table: the list and each of its entries in a wrapper or not. -/
def ListWrittenAs (entries : List TableEntry) : Nat → Json → Prop :=
  MaybeWrapped fun room j => ∃ inner elements, room = inner + 1 ∧ j = .array elements ∧
    List.Forall₂ (fun e => WrittenAs e inner) entries elements

variable {e : TableEntry} {entries : List TableEntry} {j : Json}

theorem WrittenAs.reads (h : e.WrittenAs room j) : ofJson? j = some e :=
  MaybeWrapped.reads (by rintro _ _ rfl; exact e.unwrap?_toJson) (by rintro _ _ rfl; exact e.ofBare?_toJson) h

theorem WrittenAs.fits (hdefaults : ∀ v ∈ e.defaults, v.ReadsBack) (h : e.WrittenAs room j) (hroom : 7 ≤ room) :
    j.Fits room := by
  refine MaybeWrapped.fits ?_ h hroom
  rintro room _ rfl hroom
  obtain ⟨room, rfl⟩ := Nat.exists_eq_add_of_le' hroom
  exact fits_toJson hdefaults

theorem ListWrittenAs.reads (h : ListWrittenAs entries room j) : listOfJson? j = some entries := by
  refine MaybeWrapped.reads ?_ ?_ h
  · rintro _ _ ⟨inner, elements, -, rfl, -⟩
    rfl
  · rintro _ _ ⟨inner, elements, -, rfl, helements⟩
    exact list?_array (helements.imp fun _ _ => WrittenAs.reads)

theorem ListWrittenAs.fits (hdefaults : ∀ e ∈ entries, ∀ v ∈ e.defaults, v.ReadsBack)
    (h : ListWrittenAs entries room j) (hroom : 9 ≤ room) : j.Fits room := by
  refine MaybeWrapped.fits ?_ h hroom
  rintro _ _ ⟨inner, elements, rfl, rfl, helements⟩ hinner
  exact fits_array helements fun e he _ hwritten => hwritten.fits (hdefaults e he) (by omega)

/-- The entries are written with a wrapper around the list and one around each of them. -/
theorem listWrittenAs_listToJson (entries : List TableEntry) :
    ListWrittenAs entries (room + 3) (listToJson entries) := by
  refine MaybeWrapped.tagged _ ⟨room + 1, _, rfl, rfl, ?_⟩
  rw [List.forall₂_map_right_iff, List.forall₂_same]
  exact fun _ _ => MaybeWrapped.tagged _ rfl

end TableEntry

/-! ### Statements -/

namespace TableDefinition

/-- The definition with its entries written in a way of their own. -/
def toJsonWith (d : TableDefinition) (entries : Json) : Json :=
  .object ([("table", .string d.table)] ++ whenTrue "temporary" d.temporary ++ whenTrue "ifNotExists" d.ifNotExists ++
    [("columnsDef", entries)] ++ whenNonempty "tableOptions" TableOption.toJson d.options)

theorem toJson_eq (d : TableDefinition) : d.toJson = d.toJsonWith (TableEntry.listToJson d.entries) := rfl

variable {d : TableDefinition} {j : Json}

theorem ofJson?_toJsonWith (h : TableEntry.ListWrittenAs d.entries room j) (hcomplete : j.isComplete = true) :
    ofJson? (d.toJsonWith j) = some d := by
  have hentries : entriesOfJson? j = some d.entries := by rw [entriesOfJson?, if_pos hcomplete, h.reads]
  rw [ofJson?, toJsonWith, fields?_object (by decide)]
  · simp [required, withDefault_eq, string?, elim_whenTrue, hentries, elim_whenNonempty TableOption.codes.reads]
  · simp only [List.append_assoc]
    apply_rules [within_singleton, within_whenTrue, within_whenNonempty, within_append]

theorem fits_toJsonWith (h : j.Fits (room + 3)) : (d.toJsonWith j).Fits (room + 4) := by
  simp [toJsonWith, h, TableOption.fits_toJson]

end TableDefinition

namespace LikeDefinition

theorem ofJson?_toJson (d : LikeDefinition) : ofJson? d.toJson = some d := by
  rw [ofJson?, toJson, fields?_object (by decide)]
  · simp [required, withDefault_eq, string?, elim_whenTrue]
  · simp only [List.cons_append, List.nil_append]
    apply_rules [within_cons, within_whenTrue, within_append]

theorem fits_toJson (d : LikeDefinition) : d.toJson.Fits (room + 1) := by
  simp [toJson]

end LikeDefinition

namespace Statement

theorem codes_rename : Codes renameToJson renameOfJson? := by
  refine ⟨fun r => ?_, fun _ => Json.noConfusion⟩
  rw [renameOfJson?, renameToJson, fields?_object (by decide)]
  · simp [required, string?]
  · apply_rules [within_cons, within_nil]

def defaults : Statement → List DefaultValue
  | .createTable d => d.entries.flatMap TableEntry.defaults
  | .alterTable _ alterations => alterations.flatMap Alteration.defaults
  | _ => []

theorem fits_definitionToJson {s : Statement} (h : ∀ v ∈ s.defaults, v.ReadsBack) :
    s.definitionToJson.Fits (room + 10) := by
  cases s with
  | createTable d =>
      have hentries := (TableEntry.listWrittenAs_listToJson d.entries).fits
        (fun e he v hv => h v (List.mem_flatMap_of_mem he hv)) (show 9 ≤ room + 6 + 3 by omega)
      exact TableDefinition.fits_toJsonWith hentries
  | alterTable table alterations =>
      have halterations : ∀ a ∈ alterations, a.toJson.Fits (room + 8) :=
        fun a ha => Alteration.fits_toJson fun v hv => h v (List.mem_flatMap_of_mem ha hv)
      simpa [definitionToJson] using halterations
  | createTableLike d => exact d.fits_toJson
  | dropTable _ _ | renameTable _ | createIndex _ _ _ | dropIndex _ _ =>
      simp [definitionToJson, renameToJson, Index.fits_toJson]

theorem ofDefinition?_definitionToJson {s : Statement} (h : ∀ v ∈ s.defaults, v.ReadsBack) :
    ofDefinition? s.kind s.definitionToJson = some s := by
  cases s with
  | createTable d =>
      have hentries : TableEntry.ListWrittenAs d.entries 9 (TableEntry.listToJson d.entries) :=
        TableEntry.listWrittenAs_listToJson d.entries
      have hfits := hentries.fits (fun e he v hv => h v (List.mem_flatMap_of_mem he hv)) (by omega)
      exact congrArg (Option.map _) (TableDefinition.ofJson?_toJsonWith hentries hfits.isComplete)
  | createTableLike d => exact congrArg (Option.map _) d.ofJson?_toJson
  | alterTable table alterations =>
      have halterations : list? Alteration.ofJson? (ofList Alteration.toJson alterations) = some (alterations.map id) :=
        list?_ofList fun a ha => Alteration.ofJson?_toJson fun v hv => h v (List.mem_flatMap_of_mem ha hv)
      rw [kind, ofDefinition?, definitionToJson, fields?_object (by decide)]
      · simp [required, string?, halterations]
      · apply_rules [within_cons, within_nil]
  | dropTable tables ifExists =>
      rw [kind, ofDefinition?, definitionToJson, fields?_object (by decide)]
      · simp [required, withDefault_eq, codes_string.list.reads, elim_whenTrue]
      · apply_rules [within_singleton, within_whenTrue, within_append]
  | renameTable renames =>
      rw [kind, ofDefinition?, definitionToJson, fields?_object (by decide)]
      · simp [required, codes_rename.list.reads]
      · apply_rules [within_cons, within_nil]
  | createIndex table kind i =>
      rw [Statement.kind, ofDefinition?, definitionToJson, fields?_object (by decide)]
      · simp [required, string?, IndexKind.codes.reads, Index.codes_statement.reads]
      · apply_rules [within_cons, within_nil]
  | dropIndex table i =>
      rw [kind, ofDefinition?, definitionToJson, fields?_object (by decide)]
      · simp [required, string?]
      · apply_rules [within_cons, within_nil]

/-- A definition under the name of its kind. -/
def tagged (kind : Kind) (definition : Json) : Json := .object [("id", .string kind.id), ("def", definition)]

theorem toJson_eq (s : Statement) : s.toJson = tagged s.kind s.definitionToJson := rfl

variable {kind : Kind} {definition j : Json} {s : Statement}

theorem ofJson?_tagged : ofJson? (tagged kind definition) = ofDefinition? kind definition := by
  rw [ofJson?, tagged, fields?_object (by decide)]
  · simp [required, Kind.codes.reads, definitionFirst]
  · apply_rules [within_cons, within_nil]

theorem fits_tagged (h : definition.Fits room) : (tagged kind definition).Fits (room + 1) := by
  simp [tagged, h]

/-- The ways to write a statement: the entries of a table can be wrapped in any of theirs. -/
inductive WrittenAs : Statement → Nat → Json → Prop
  | plain {room : Nat} (s : Statement) : WrittenAs s room s.toJson
  | entries {room : Nat} {j : Json} (d : TableDefinition) (h : TableEntry.ListWrittenAs d.entries room j) :
      WrittenAs (.createTable d) (room + 2) (tagged .createTable (d.toJsonWith j))

namespace WrittenAs

theorem fits (hdefaults : ∀ v ∈ s.defaults, v.ReadsBack) (h : s.WrittenAs room j) (hroom : 11 ≤ room) :
    j.Fits room := by
  cases h with
  | plain =>
      obtain ⟨room, rfl⟩ := Nat.exists_eq_add_of_le' hroom
      exact fits_tagged (fits_definitionToJson hdefaults)
  | @entries room j d h =>
      have hj := h.fits (fun e he v hv => hdefaults v (List.mem_flatMap_of_mem he hv)) (by omega)
      obtain ⟨room, rfl⟩ := Nat.exists_eq_add_of_le' (show 3 ≤ room by omega)
      exact fits_tagged (TableDefinition.fits_toJsonWith hj)

theorem reads (hdefaults : ∀ v ∈ s.defaults, v.ReadsBack) (h : s.WrittenAs room j) (hroom : 11 ≤ room) :
    ofJson? j = some s := by
  cases h with
  | plain => rw [toJson_eq, ofJson?_tagged, ofDefinition?_definitionToJson hdefaults]
  | entries d h =>
      have hj := h.fits (fun e he v hv => hdefaults v (List.mem_flatMap_of_mem he hv)) (by omega)
      rw [ofJson?_tagged, ofDefinition?, TableDefinition.ofJson?_toJsonWith h hj.isComplete]
      rfl

theorem eq_tagged (h : s.WrittenAs room j) : ∃ kind definition, j = tagged kind definition := by
  cases h with
  | plain => exact ⟨_, _, rfl⟩
  | entries d h => exact ⟨_, _, rfl⟩

end WrittenAs

/-- Real defaults are finite. -/
def DefaultsFinite (s : Statement) : Prop := ∀ v ∈ s.defaults, v.IsFinite

/-- Finite defaults are read from the texts that they are written as. -/
def DefaultsReadBack (s : Statement) : Prop := ∀ v ∈ s.defaults, v.IsFinite → v.ReadsBack

instance (s : Statement) : Decidable s.DefaultsFinite := inferInstanceAs (Decidable (∀ v ∈ s.defaults, _))

instance (s : Statement) : Decidable s.DefaultsReadBack := inferInstanceAs (Decidable (∀ v ∈ s.defaults, _))

/-! ### Lists of statements -/

/-- The ways to write a list of statements: a single one also stands alone. -/
inductive ListWrittenAs : List Statement → Nat → Json → Prop
  | one {room : Nat} {s : Statement} {j : Json} (h : s.WrittenAs room j) : ListWrittenAs [s] room j
  | many {room : Nat} {ss : List Statement} {elements : List Json}
      (h : List.Forall₂ (fun s => s.WrittenAs room) ss elements) : ListWrittenAs ss (room + 1) (.array elements)

/-- The encoding of a list is one of the ways to write it. -/
theorem listWrittenAs_ofList (ss : List Statement) : ListWrittenAs ss (room + 1) (ofList toJson ss) := by
  apply ListWrittenAs.many
  rw [List.forall₂_map_right_iff, List.forall₂_same]
  exact fun s _ => .plain s

/-- An array is not taken for the members of a statement: its first element, of two members, is no kind. -/
theorem ofJson?_array {ss : List Statement} {elements : List Json}
    (h : List.Forall₂ (fun s => s.WrittenAs room) ss elements) : ofJson? (.array elements) = none := by
  cases h with
  | nil => rfl
  | cons hfirst _ =>
      obtain ⟨kind, definition, rfl⟩ := hfirst.eq_tagged
      rw [ofJson?, fields?]
      split <;> rfl

variable {ss : List Statement}

theorem ListWrittenAs.fits (hdefaults : ∀ s ∈ ss, ∀ v ∈ s.defaults, v.ReadsBack) (h : ListWrittenAs ss room j)
    (hroom : 12 ≤ room) : j.Fits room := by
  cases h with
  | one h => exact h.fits (hdefaults _ List.mem_cons_self) (by omega)
  | many h => exact fits_array h fun s hs _ hwritten => hwritten.fits (hdefaults s hs) (by omega)

theorem ListWrittenAs.reads (hdefaults : ∀ s ∈ ss, ∀ v ∈ s.defaults, v.ReadsBack) (h : ListWrittenAs ss room j)
    (hroom : 12 ≤ room) : listOfJson? j = some ss := by
  rw [listOfJson?, if_pos (h.fits hdefaults hroom).isComplete]
  cases h with
  | one h => rw [h.reads (hdefaults _ List.mem_cons_self) (by omega)]; rfl
  | @many room ss elements h =>
      have helements : List.Forall₂ (fun s j => ofJson? j = some s) ss elements := by
        refine List.Forall₂.imp ?_ ((List.forall₂_and_left ss elements).2 ⟨hdefaults, h⟩)
        exact fun s j hs => hs.2.reads hs.1 (by omega)
      rw [ofJson?_array h, list?_array helements]
      rfl

end Statement

end DdlCatalog
