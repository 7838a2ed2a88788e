import DdlCatalog.Encoding.Table
import DdlCatalog.Projection.Members

/-!
The JSON Schema, draft 7, of a row of a table.
-/

namespace DdlCatalog.Projection

structure JsonSchemaOptions where
  /-- whether columns are defined apart and referred to -/
  useRef : Bool := false
  /-- what stands before the name of the table in the identifier -/
  idStart : Option String := none

inductive JsonType
  | integer
  | number
  | boolean
  | string
  | object
  | null
  deriving DecidableEq

def JsonType.name : JsonType → String
  | .integer => "integer"
  | .number => "number"
  | .boolean => "boolean"
  | .string => "string"
  | .object => "object"
  | .null => "null"

/-- One type, or any of several. -/
inductive JsonTypes
  | one (type : JsonType)
  | many (types : List JsonType)
  deriving DecidableEq

def JsonTypes.toJson : JsonTypes → Json
  | .one type => .string type.name
  | .many types => Json.ofList (fun t => .string t.name) types

/-- The schema of a column. Without types it admits every value. -/
structure ColumnSchema where
  types : Option JsonTypes := none
  description : Option String := none
  default : Option DefaultValue := none
  minimum : Option Number := none
  maximum : Option Number := none
  format : Option String := none
  pattern : Option String := none
  maxLength : Option UInt64 := none
  allowed : List String := []
  deriving DecidableEq

def baseType? : DatatypeKind → Option JsonType
  | .int | .bit => some .integer
  | .decimal | .float | .double => some .number
  | .boolean => some .boolean
  | .json => none
  | .geometry | .point | .linestring | .polygon | .multipoint | .multilinestring | .multipolygon
  | .geometrycollection => some .object
  | .date | .time | .datetime | .timestamp | .year | .char | .varchar | .binary | .varbinary
  | .text | .blob | .enum | .set => some .string

/-- The types of a column that may be null or not. -/
def columnTypes (kind : DatatypeKind) (nullable : Bool) : Option JsonTypes :=
  (baseType? kind).map fun t => if nullable then .many [t, .null] else .one t

def columnSchema (c : Column) : ColumnSchema :=
  let b := c.type.bounds
  { types := columnTypes c.type.kind c.options.nullable
    description := c.options.comment
    default := c.options.default
    minimum := b.least.bind boundNumber?
    maximum := b.greatest.bind boundNumber?
    format := b.format.map ValueFormat.name
    pattern := b.pattern
    maxLength := b.maxLength
    allowed := b.allowed }

def ColumnSchema.toJson (s : ColumnSchema) : Json :=
  .object (Json.whenSome "type" JsonTypes.toJson s.types ++
    Json.whenSome "description" .string s.description ++
    Json.whenSome "default" DefaultValue.toJson s.default ++
    Json.whenSome "minimum" .number s.minimum ++
    Json.whenSome "maximum" .number s.maximum ++
    Json.whenSome "format" .string s.format ++
    Json.whenSome "pattern" .string s.pattern ++
    Json.whenSome "maxLength" Json.ofUInt64 s.maxLength ++
    Json.whenNonempty "enum" .string s.allowed)

/-- The schema of a column, in place or by reference. -/
inductive Property
  | inPlace (schema : ColumnSchema)
  | ref (target : String)
  deriving DecidableEq

def Property.toJson : Property → Json
  | .inPlace s => s.toJson
  | .ref target => .object [("$ref", .string target)]

structure JsonSchema where
  id : Option String
  title : String
  description : Option String
  definitions : Members ColumnSchema
  properties : Members Property
  required : List String

def refTarget (column : String) : String := "#/definitions/" ++ column

def property (options : JsonSchemaOptions) (c : Column) : Property :=
  if options.useRef then .ref (refTarget c.name) else .inPlace (columnSchema c)

def jsonSchema (options : JsonSchemaOptions) (t : Table) : JsonSchema :=
  { id := options.idStart.map (· ++ t.name)
    title := t.name
    description := t.options.bind (·.comment)
    definitions :=
      if options.useRef then ofEntries (t.columns.map fun c => (c.name, columnSchema c)) else []
    properties := ofEntries (t.columns.map fun c => (c.name, property options c))
    required := (t.columns.filter fun c => !c.options.nullable).map (·.name) }

def JsonSchema.toJson (s : JsonSchema) : Json :=
  .object ([("$schema", .string "http://json-schema.org/draft-07/schema#")] ++
    Json.whenSome "$id" .string s.id ++
    [("title", .string s.title)] ++
    Json.whenSome "description" .string s.description ++
    [("type", .string JsonType.object.name)] ++
    (if s.definitions.isEmpty then []
      else [("definitions", membersJson ColumnSchema.toJson s.definitions)]) ++
    [("properties", membersJson Property.toJson s.properties)] ++
    Json.whenNonempty "required" .string s.required ++
    [("additionalProperties", .bool false)])

end DdlCatalog.Projection
