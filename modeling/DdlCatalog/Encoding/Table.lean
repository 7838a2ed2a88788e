import DdlCatalog.Encoding.Key
import DdlCatalog.Json.Text
import DdlCatalog.Schema.Table

/-!
JSON of tables: what is unset or empty is left out.
-/

namespace DdlCatalog

namespace Datatype

def toJson (d : Datatype) : Json :=
  .object ([("datatype", .string d.kind.name)] ++
    Json.whenSome "width" Json.ofUInt8 d.width ++
    Json.whenSome "digits" Json.ofUInt32 d.digits ++
    Json.whenSome "decimals" Json.ofUInt32 d.decimals ++
    Json.whenSome "length" Json.ofUInt64 d.length ++
    Json.whenSome "fractional" Json.ofUInt8 d.fractional ++
    Json.whenNonempty "values" .string d.values ++
    Json.whenTrue "isUnsigned" d.unsigned)

def ofJson? (j : Json) : Option Datatype := do
  let f ← j.fields? ["datatype", "width", "digits", "decimals", "length", "fractional", "values",
    "isUnsigned"]
  return {
    kind := ← f.required "datatype" (Json.oneOf? DatatypeKind.all DatatypeKind.name)
    width := ← f.optional "width" Json.uint8?
    digits := ← f.optional "digits" Json.uint32?
    decimals := ← f.optional "decimals" Json.uint32?
    length := ← f.optional "length" Json.uint64?
    fractional := ← f.optional "fractional" Json.uint8?
    values := ← f.withDefault "values" (Json.list? Json.string?) []
    unsigned := ← f.withDefault "isUnsigned" Json.bool? false }

end Datatype

namespace ColumnOptions

def toJson (o : ColumnOptions) : Json :=
  .object ([("nullable", .bool o.nullable)] ++
    Json.whenSome "default" DefaultValue.toJson o.default ++
    Json.whenTrue "autoincrement" o.autoincrement ++
    Json.whenSome "comment" .string o.comment ++
    Json.whenSome "charset" .string o.charset ++
    Json.whenSome "collation" .string o.collation ++
    Json.whenSome "onUpdate" .string o.onUpdate ++
    Json.whenSome "format" .string o.format ++
    Json.whenSome "storage" .string o.storage ++
    Json.whenTrue "invisible" o.invisible)

def ofJson? (j : Json) : Option ColumnOptions := do
  let f ← j.fields? ["nullable", "default", "autoincrement", "comment", "charset", "collation",
    "onUpdate", "format", "storage", "invisible"]
  return {
    nullable := ← f.withDefault "nullable" Json.bool? true
    default := ← f.present "default" DefaultValue.ofJson?
    autoincrement := ← f.withDefault "autoincrement" Json.bool? false
    comment := ← f.optional "comment" Json.string?
    charset := ← f.optional "charset" Json.string?
    collation := ← f.optional "collation" Json.string?
    onUpdate := ← f.optional "onUpdate" Json.string?
    format := ← f.optional "format" Json.string?
    storage := ← f.optional "storage" Json.string?
    invisible := ← f.withDefault "invisible" Json.bool? false }

end ColumnOptions

namespace Column

/-- Constraints that the table has not taken over are not written. -/
def toJson (c : Column) : Json :=
  .object [("name", .string c.name), ("type", c.type.toJson), ("options", c.options.toJson)]

def ofJson? (j : Json) : Option Column := do
  let f ← j.fields? ["name", "type", "options"]
  return {
    name := ← f.required "name" Json.string?
    type := ← f.required "type" Datatype.ofJson?
    options := ← f.withDefault "options" ColumnOptions.ofJson? {} }

end Column

namespace TableOptions

def toJson (o : TableOptions) : Json :=
  .object (Json.whenSome "engine" .string o.engine ++
    Json.whenSome "autoincrement" Json.ofUInt64 o.autoincrement ++
    Json.whenSome "avgRowLength" Json.ofUInt64 o.avgRowLength ++
    Json.whenSome "charset" .string o.charset ++
    Json.whenSome "checksum" .bool o.checksum ++
    Json.whenSome "collation" .string o.collation ++
    Json.whenSome "comment" .string o.comment ++
    Json.whenSome "compression" .string o.compression ++
    Json.whenSome "connection" .string o.connection ++
    Json.whenSome "dataDirectory" .string o.dataDirectory ++
    Json.whenSome "indexDirectory" .string o.indexDirectory ++
    Json.whenSome "delayKeyWrite" .bool o.delayKeyWrite ++
    Json.whenSome "encryption" .bool o.encryption ++
    Json.whenSome "insertMethod" .string o.insertMethod ++
    Json.whenSome "keyBlockSize" Json.ofUInt64 o.keyBlockSize ++
    Json.whenSome "maxRows" Json.ofUInt64 o.maxRows ++
    Json.whenSome "minRows" Json.ofUInt64 o.minRows ++
    Json.whenSome "packKeys" .string o.packKeys ++
    Json.whenSome "password" .string o.password ++
    Json.whenSome "rowFormat" .string o.rowFormat ++
    Json.whenSome "tablespace" .string o.tablespace ++
    Json.whenNonempty "union" .string o.union)

def ofJson? (j : Json) : Option TableOptions := do
  let f ← j.fields? ["engine", "autoincrement", "avgRowLength", "charset", "checksum", "collation",
    "comment", "compression", "connection", "dataDirectory", "indexDirectory", "delayKeyWrite",
    "encryption", "insertMethod", "keyBlockSize", "maxRows", "minRows", "packKeys", "password",
    "rowFormat", "tablespace", "union"]
  return {
    engine := ← f.optional "engine" Json.string?
    autoincrement := ← f.optional "autoincrement" Json.uint64?
    avgRowLength := ← f.optional "avgRowLength" Json.uint64?
    charset := ← f.optional "charset" Json.string?
    checksum := ← f.optional "checksum" Json.bool?
    collation := ← f.optional "collation" Json.string?
    comment := ← f.optional "comment" Json.string?
    compression := ← f.optional "compression" Json.string?
    connection := ← f.optional "connection" Json.string?
    dataDirectory := ← f.optional "dataDirectory" Json.string?
    indexDirectory := ← f.optional "indexDirectory" Json.string?
    delayKeyWrite := ← f.optional "delayKeyWrite" Json.bool?
    encryption := ← f.optional "encryption" Json.bool?
    insertMethod := ← f.optional "insertMethod" Json.string?
    keyBlockSize := ← f.optional "keyBlockSize" Json.uint64?
    maxRows := ← f.optional "maxRows" Json.uint64?
    minRows := ← f.optional "minRows" Json.uint64?
    packKeys := ← f.optional "packKeys" Json.string?
    password := ← f.optional "password" Json.string?
    rowFormat := ← f.optional "rowFormat" Json.string?
    tablespace := ← f.optional "tablespace" Json.string?
    union := ← f.withDefault "union" (Json.list? Json.string?) [] }

end TableOptions

namespace Table

def indexToJson (i : Index) : Json := i.toJson .table false

def toJson (t : Table) : Json :=
  .object ([("name", .string t.name), ("columns", Json.ofList Column.toJson t.columns)] ++
    Json.whenSome "primaryKey" indexToJson t.primaryKey ++
    Json.whenNonempty "foreignKeys" (ForeignKey.toJson .table) t.foreignKeys ++
    Json.whenNonempty "uniqueKeys" indexToJson t.uniqueKeys ++
    Json.whenNonempty "indexes" indexToJson t.indexes ++
    Json.whenNonempty "spatialIndexes" indexToJson t.spatialIndexes ++
    Json.whenNonempty "fulltextIndexes" indexToJson t.fulltextIndexes ++
    Json.whenSome "options" TableOptions.toJson t.options)

def ofJson? (j : Json) : Option Table := do
  let f ← j.fields? ["name", "columns", "primaryKey", "foreignKeys", "uniqueKeys", "indexes",
    "spatialIndexes", "fulltextIndexes", "options"]
  let indexes? := Json.list? (Index.ofJson? .table)
  return {
    name := ← f.required "name" Json.string?
    columns := ← f.required "columns" (Json.list? Column.ofJson?)
    primaryKey := ← f.optional "primaryKey" (Index.ofJson? .table)
    foreignKeys := ← f.withDefault "foreignKeys" (Json.list? (ForeignKey.ofJson? .table)) []
    uniqueKeys := ← f.withDefault "uniqueKeys" indexes? []
    indexes := ← f.withDefault "indexes" indexes? []
    spatialIndexes := ← f.withDefault "spatialIndexes" indexes? []
    fulltextIndexes := ← f.withDefault "fulltextIndexes" indexes? []
    options := ← f.optional "options" TableOptions.ofJson? }

def compact (t : Table) : String := t.toJson.render

end Table

/-- Why a JSON text gives no table or catalog: it does not decode, or what it holds is invalid. -/
inductive DecodeError
  | undecodable
  | invalid (error : ReferenceError)
  deriving DecidableEq

def Table.ofCompact (text : String) : Except DecodeError Table :=
  match (Json.parse? text).bind Table.ofJson? with
  | none => .error .undecodable
  | some t =>
    match t.validate with
    | .error e => .error (.invalid e)
    | .ok () => .ok t

end DdlCatalog
