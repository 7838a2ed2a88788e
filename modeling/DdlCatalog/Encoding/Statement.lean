import DdlCatalog.Encoding.Key

/-!
JSON of statements. A statement is an object of its kind and its definition. A definition that is
read before the kind is known, the entries of a table and the clauses of an alteration have to be
readable as a whole, also where their members are ignored.
-/

namespace DdlCatalog

namespace TypeSpec

def toJson (s : TypeSpec) : Json :=
  .object ([("name", .string s.name.name)] ++
    Json.whenNonempty "args" Json.ofUInt64 s.arguments ++
    Json.whenNonempty "values" .string s.values ++
    Json.whenTrue "unsigned" s.unsigned ++
    Json.whenTrue "zerofill" s.zerofill)

def ofJson? (j : Json) : Option TypeSpec := do
  let f ← j.fields? ["name", "args", "values", "unsigned", "zerofill"]
  return {
    name := ← f.required "name" (Json.oneOf? TypeName.all TypeName.name)
    arguments := ← f.withDefault "args" (Json.list? Json.uint64?) []
    values := ← f.withDefault "values" (Json.list? Json.string?) []
    unsigned := ← f.withDefault "unsigned" Json.bool? false
    zerofill := ← f.withDefault "zerofill" Json.bool? false }

end TypeSpec

namespace ColumnAttributes

def toJson (a : ColumnAttributes) : Json :=
  .object (Json.whenSome "nullable" .bool a.nullable ++
    Json.whenSome "default" DefaultValue.toJson a.default ++
    Json.whenSome "onUpdate" .string a.onUpdate ++
    Json.whenTrue "autoIncrement" a.autoIncrement ++
    Json.whenTrue "unique" a.unique ++
    Json.whenTrue "primaryKey" a.primaryKey ++
    Json.whenSome "comment" .string a.comment ++
    Json.whenSome "charset" .string a.charset ++
    Json.whenSome "collation" .string a.collation ++
    Json.whenSome "format" .string a.format ++
    Json.whenSome "storage" .string a.storage ++
    Json.whenTrue "invisible" a.invisible ++
    Json.whenSome "reference" (Reference.toJson .statement) a.reference)

def ofJson? (j : Json) : Option ColumnAttributes := do
  let f ← j.fields? ["nullable", "default", "onUpdate", "autoIncrement", "unique", "primaryKey",
    "comment", "charset", "collation", "format", "storage", "invisible", "reference"]
  return {
    nullable := ← f.optional "nullable" Json.bool?
    default := ← f.present "default" DefaultValue.ofJson?
    onUpdate := ← f.optional "onUpdate" Json.string?
    autoIncrement := ← f.withDefault "autoIncrement" Json.bool? false
    unique := ← f.withDefault "unique" Json.bool? false
    primaryKey := ← f.withDefault "primaryKey" Json.bool? false
    comment := ← f.optional "comment" Json.string?
    charset := ← f.optional "charset" Json.string?
    collation := ← f.optional "collation" Json.string?
    format := ← f.optional "format" Json.string?
    storage := ← f.optional "storage" Json.string?
    invisible := ← f.withDefault "invisible" Json.bool? false
    reference := ← f.optional "reference" (Reference.ofJson? .statement) }

end ColumnAttributes

namespace ColumnDefinition

def toJson (d : ColumnDefinition) : Json :=
  .object [("name", .string d.name), ("datatype", d.type.toJson), ("options", d.attributes.toJson)]

def ofJson? (j : Json) : Option ColumnDefinition := do
  let f ← j.fields? ["name", "datatype", "options"]
  return {
    name := ← f.required "name" Json.string?
    type := ← f.required "datatype" TypeSpec.ofJson?
    attributes := ← f.withDefault "options" ColumnAttributes.ofJson? {} }

end ColumnDefinition

namespace TableEntry

def toJson : TableEntry → Json
  | .column d => .object [("column", d.toJson)]
  | .primaryKey key => .object [("primaryKey", key.toJson .statement true)]
  | .foreignKey key => .object [("foreignKey", key.toJson .statement)]
  | .index .plain i => .object [("index", i.toJson .statement true)]
  | .index .unique i => .object [("uniqueKey", i.toJson .statement true)]
  | .index .fulltext i => .object [("fulltextIndex", i.toJson .statement true)]
  | .index .spatial i => .object [("spatialIndex", i.toJson .statement true)]

def ofBare? (j : Json) : Option TableEntry := do
  let (name, value) ← j.soleMember?
  match name with
  | "column" => (ColumnDefinition.ofJson? value).map .column
  | "primaryKey" => (Index.ofJson? .statement value).map .primaryKey
  | "foreignKey" => (ForeignKey.ofJson? .statement value).map .foreignKey
  | "index" => (Index.ofJson? .statement value).map (.index .plain)
  | "uniqueKey" => (Index.ofJson? .statement value).map (.index .unique)
  | "fulltextIndex" => (Index.ofJson? .statement value).map (.index .fulltext)
  | "spatialIndex" => (Index.ofJson? .statement value).map (.index .spatial)
  | _ => none

/-- The value in the member `def` of an object, whatever its other members. -/
def unwrap? (j : Json) : Option Json := (j.objectFields? ["def"]).bind (·.get? "def")

/-- An entry, in a wrapper or not. -/
def ofJson? (j : Json) : Option TableEntry := ((unwrap? j).bind ofBare?).or (ofBare? j)

/-- The entries of a table, in a wrapper or not. -/
def listOfJson? (j : Json) : Option (List TableEntry) :=
  ((unwrap? j).bind (Json.list? ofJson?)).or (j.list? ofJson?)

def wrapped (j : Json) : Json :=
  .object [("id", .string "O_CREATE_TABLE_CREATE_DEFINITION"), ("def", j)]

def listToJson (entries : List TableEntry) : Json :=
  .object [("id", .string "P_CREATE_TABLE_CREATE_DEFINITIONS"),
    ("def", Json.ofList (wrapped ∘ toJson) entries)]

end TableEntry

namespace TableOption

def toJson : TableOption → Json
  | .engine s => .object [("engine", .string s)]
  | .autoIncrement n => .object [("autoIncrement", Json.ofUInt64 n)]
  | .avgRowLength n => .object [("avgRowLength", Json.ofUInt64 n)]
  | .charset s => .object [("charset", .string s)]
  | .checksum b => .object [("checksum", .bool b)]
  | .collation s => .object [("collation", .string s)]
  | .comment s => .object [("comment", .string s)]
  | .compression s => .object [("compression", .string s)]
  | .connection s => .object [("connection", .string s)]
  | .dataDirectory s => .object [("dataDirectory", .string s)]
  | .indexDirectory s => .object [("indexDirectory", .string s)]
  | .delayKeyWrite b => .object [("delayKeyWrite", .bool b)]
  | .encryption b => .object [("encryption", .bool b)]
  | .insertMethod s => .object [("insertMethod", .string s)]
  | .keyBlockSize n => .object [("keyBlockSize", Json.ofUInt64 n)]
  | .maxRows n => .object [("maxRows", Json.ofUInt64 n)]
  | .minRows n => .object [("minRows", Json.ofUInt64 n)]
  | .packKeys s => .object [("packKeys", .string s)]
  | .password s => .object [("password", .string s)]
  | .rowFormat s => .object [("rowFormat", .string s)]
  | .tablespace s => .object [("tablespace", .string s)]
  | .union tables => .object [("union", Json.ofList .string tables)]

def ofJson? (j : Json) : Option TableOption := do
  let (name, value) ← j.soleMember?
  match name with
  | "engine" => value.string?.map .engine
  | "autoIncrement" => value.uint64?.map .autoIncrement
  | "avgRowLength" => value.uint64?.map .avgRowLength
  | "charset" => value.string?.map .charset
  | "checksum" => value.bool?.map .checksum
  | "collation" => value.string?.map .collation
  | "comment" => value.string?.map .comment
  | "compression" => value.string?.map .compression
  | "connection" => value.string?.map .connection
  | "dataDirectory" => value.string?.map .dataDirectory
  | "indexDirectory" => value.string?.map .indexDirectory
  | "delayKeyWrite" => value.bool?.map .delayKeyWrite
  | "encryption" => value.bool?.map .encryption
  | "insertMethod" => value.string?.map .insertMethod
  | "keyBlockSize" => value.uint64?.map .keyBlockSize
  | "maxRows" => value.uint64?.map .maxRows
  | "minRows" => value.uint64?.map .minRows
  | "packKeys" => value.string?.map .packKeys
  | "password" => value.string?.map .password
  | "rowFormat" => value.string?.map .rowFormat
  | "tablespace" => value.string?.map .tablespace
  | "union" => (value.list? Json.string?).map .union
  | _ => none

end TableOption

namespace Placement

def toJson : Placement → Json
  | .first => .object [("after", .null)]
  | .after column => .object [("after", .string column)]

/-- An object without the member is read as the first place, an empty array is not. -/
def ofJson? (j : Json) : Option Placement :=
  match j with
  | .array [] => none
  | _ => do
    let f ← j.fields? ["after"]
    match ← f.optional "after" Json.string? with
    | none => return .first
    | some column => return .after column

end Placement

namespace Alteration

def action (name : String) (fields : Json.Fields) : Json :=
  .object (("action", .string name) :: fields)

def toJson : Alteration → Json
  | .addColumn column placement =>
    action "addColumn" ([("column", column.toJson)] ++
      Json.whenSome "position" Placement.toJson placement)
  | .addColumns columns => action "addColumns" [("columns", Json.ofList ColumnDefinition.toJson columns)]
  | .addIndex kind i =>
    action "addIndex" [("kind", .string kind.name), ("index", i.toJson .statement true)]
  | .addPrimaryKey key => action "addPrimaryKey" [("key", key.toJson .statement true)]
  | .addForeignKey key => action "addForeignKey" [("key", key.toJson .statement)]
  | .setDefault column value =>
    action "setDefault" [("column", .string column), ("value", value.toJson)]
  | .dropDefault column => action "dropDefault" [("column", .string column)]
  | .changeColumn column definition placement =>
    action "changeColumn" ([("column", .string column), ("definition", definition.toJson)] ++
      Json.whenSome "position" Placement.toJson placement)
  | .modifyColumn definition placement =>
    action "modifyColumn" ([("definition", definition.toJson)] ++
      Json.whenSome "position" Placement.toJson placement)
  | .renameColumn column newName =>
    action "renameColumn" [("column", .string column), ("to", .string newName)]
  | .dropColumn column => action "dropColumn" [("column", .string column)]
  | .dropIndex i => action "dropIndex" [("index", .string i)]
  | .dropPrimaryKey => action "dropPrimaryKey" []
  | .dropForeignKey symbol => action "dropForeignKey" [("symbol", .string symbol)]
  | .renameIndex i newName => action "renameIndex" [("index", .string i), ("to", .string newName)]
  | .renameTable newName => action "renameTable" [("to", .string newName)]
  | .setOptions options => action "setOptions" [("options", Json.ofList TableOption.toJson options)]

/-- The clause of the given name, from the members of an object or the elements of an array. -/
def ofMembers? (name : String) (j : Json) : Option Alteration :=
  match name with
  | "addColumn" => do
    let f ← j.fields? ["column", "position"]
    return .addColumn (← f.required "column" ColumnDefinition.ofJson?)
      (← f.optional "position" Placement.ofJson?)
  | "addColumns" => do
    let f ← j.fields? ["columns"]
    return .addColumns (← f.required "columns" (Json.list? ColumnDefinition.ofJson?))
  | "addIndex" => do
    let f ← j.fields? ["kind", "index"]
    return .addIndex (← f.required "kind" (Json.oneOf? IndexKind.all IndexKind.name))
      (← f.required "index" (Index.ofJson? .statement))
  | "addPrimaryKey" => do
    let f ← j.fields? ["key"]
    return .addPrimaryKey (← f.required "key" (Index.ofJson? .statement))
  | "addForeignKey" => do
    let f ← j.fields? ["key"]
    return .addForeignKey (← f.required "key" (ForeignKey.ofJson? .statement))
  | "setDefault" => do
    let f ← j.fields? ["column", "value"]
    return .setDefault (← f.required "column" Json.string?) (← f.required "value" DefaultValue.ofJson?)
  | "dropDefault" => do
    let f ← j.fields? ["column"]
    return .dropDefault (← f.required "column" Json.string?)
  | "changeColumn" => do
    let f ← j.fields? ["column", "definition", "position"]
    return .changeColumn (← f.required "column" Json.string?)
      (← f.required "definition" ColumnDefinition.ofJson?) (← f.optional "position" Placement.ofJson?)
  | "modifyColumn" => do
    let f ← j.fields? ["definition", "position"]
    return .modifyColumn (← f.required "definition" ColumnDefinition.ofJson?)
      (← f.optional "position" Placement.ofJson?)
  | "renameColumn" => do
    let f ← j.fields? ["column", "to"]
    return .renameColumn (← f.required "column" Json.string?) (← f.required "to" Json.string?)
  | "dropColumn" => do
    let f ← j.fields? ["column"]
    return .dropColumn (← f.required "column" Json.string?)
  | "dropIndex" => do
    let f ← j.fields? ["index"]
    return .dropIndex (← f.required "index" Json.string?)
  | "dropPrimaryKey" => (j.fields? []).map fun _ => .dropPrimaryKey
  | "dropForeignKey" => do
    let f ← j.fields? ["symbol"]
    return .dropForeignKey (← f.required "symbol" Json.string?)
  | "renameIndex" => do
    let f ← j.fields? ["index", "to"]
    return .renameIndex (← f.required "index" Json.string?) (← f.required "to" Json.string?)
  | "renameTable" => do
    let f ← j.fields? ["to"]
    return .renameTable (← f.required "to" Json.string?)
  | "setOptions" => do
    let f ← j.fields? ["options"]
    return .setOptions (← f.required "options" (Json.list? TableOption.ofJson?))
  | _ => none

def ofJson? (j : Json) : Option Alteration :=
  if !j.isComplete then none
  else
    match j with
    | .array (.string name :: elements) => ofMembers? name (.array elements)
    | _ => do
      let f ← j.objectFields? ["action"]
      ofMembers? (← f.required "action" Json.string?) j

end Alteration

namespace TableDefinition

def toJson (d : TableDefinition) : Json :=
  .object ([("table", .string d.table)] ++
    Json.whenTrue "temporary" d.temporary ++
    Json.whenTrue "ifNotExists" d.ifNotExists ++
    [("columnsDef", TableEntry.listToJson d.entries)] ++
    Json.whenNonempty "tableOptions" TableOption.toJson d.options)

def entriesOfJson? (j : Json) : Option (List TableEntry) :=
  if j.isComplete then TableEntry.listOfJson? j else none

def ofJson? (j : Json) : Option TableDefinition := do
  let f ← j.fields? ["table", "temporary", "ifNotExists", "columnsDef", "tableOptions"]
  return {
    table := ← f.required "table" Json.string?
    temporary := ← f.withDefault "temporary" Json.bool? false
    ifNotExists := ← f.withDefault "ifNotExists" Json.bool? false
    entries := ← f.required "columnsDef" entriesOfJson?
    options := ← f.withDefault "tableOptions" (Json.list? TableOption.ofJson?) [] }

end TableDefinition

namespace LikeDefinition

def toJson (d : LikeDefinition) : Json :=
  .object ([("table", .string d.table), ("like", .string d.like)] ++
    Json.whenTrue "temporary" d.temporary ++
    Json.whenTrue "ifNotExists" d.ifNotExists)

def ofJson? (j : Json) : Option LikeDefinition := do
  let f ← j.fields? ["table", "like", "temporary", "ifNotExists"]
  return {
    table := ← f.required "table" Json.string?
    like := ← f.required "like" Json.string?
    temporary := ← f.withDefault "temporary" Json.bool? false
    ifNotExists := ← f.withDefault "ifNotExists" Json.bool? false }

end LikeDefinition

namespace Statement

def renameToJson (rename : String × String) : Json :=
  .object [("from", .string rename.1), ("to", .string rename.2)]

def renameOfJson? (j : Json) : Option (String × String) := do
  let f ← j.fields? ["from", "to"]
  return (← f.required "from" Json.string?, ← f.required "to" Json.string?)

/-- The JSON of what a statement says, without its kind. -/
def definitionToJson : Statement → Json
  | .createTable d => d.toJson
  | .createTableLike d => d.toJson
  | .alterTable table alterations =>
    .object [("table", .string table), ("specs", Json.ofList Alteration.toJson alterations)]
  | .dropTable tables ifExists =>
    .object ([("tables", Json.ofList .string tables)] ++ Json.whenTrue "ifExists" ifExists)
  | .renameTable renames => .object [("renames", Json.ofList renameToJson renames)]
  | .createIndex table kind i =>
    .object [("table", .string table), ("kind", .string kind.name), ("index", i.toJson .statement true)]
  | .dropIndex table i => .object [("table", .string table), ("index", .string i)]

def toJson (s : Statement) : Json :=
  .object [("id", .string s.kind.id), ("def", s.definitionToJson)]

def ofDefinition? (kind : Kind) (j : Json) : Option Statement :=
  match kind with
  | .createTable => (TableDefinition.ofJson? j).map .createTable
  | .createTableLike => (LikeDefinition.ofJson? j).map .createTableLike
  | .alterTable => do
    let f ← j.fields? ["table", "specs"]
    return .alterTable (← f.required "table" Json.string?)
      (← f.required "specs" (Json.list? Alteration.ofJson?))
  | .dropTable => do
    let f ← j.fields? ["tables", "ifExists"]
    return .dropTable (← f.required "tables" (Json.list? Json.string?))
      (← f.withDefault "ifExists" Json.bool? false)
  | .renameTable => do
    let f ← j.fields? ["renames"]
    return .renameTable (← f.required "renames" (Json.list? renameOfJson?))
  | .createIndex => do
    let f ← j.fields? ["table", "kind", "index"]
    return .createIndex (← f.required "table" Json.string?)
      (← f.required "kind" (Json.oneOf? IndexKind.all IndexKind.name))
      (← f.required "index" (Index.ofJson? .statement))
  | .dropIndex => do
    let f ← j.fields? ["table", "index"]
    return .dropIndex (← f.required "table" Json.string?) (← f.required "index" Json.string?)

/-- Whether the definition stands before the kind. -/
def definitionFirst : Json.Fields → Bool
  | (name, _) :: _ => name == "def"
  | [] => false

def ofJson? (j : Json) : Option Statement := do
  let f ← j.fields? ["id", "def"]
  let kind ← f.required "id" (Json.oneOf? Kind.all Kind.id)
  let definition ← f.get? "def"
  if definitionFirst f && !definition.isComplete then none
  else ofDefinition? kind definition

/-- One statement or a list of them, readable as a whole. -/
def listOfJson? (j : Json) : Option (List Statement) :=
  if j.isComplete then ((ofJson? j).map ([·])).or (j.list? ofJson?) else none

end Statement

end DdlCatalog
