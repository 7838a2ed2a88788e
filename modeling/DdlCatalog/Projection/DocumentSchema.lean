import DdlCatalog.Encoding.Table
import DdlCatalog.Projection.Members

/-!
The schema of a document for a row of a table: a field for each column, with the bounds of its type
and its part in the keys of the table.
-/

namespace DdlCatalog.Projection

inductive DocumentType
  | number
  | boolean
  | date
  | string
  deriving DecidableEq

def DocumentType.name : DocumentType → String
  | .number => "Number"
  | .boolean => "Boolean"
  | .date => "Date"
  | .string => "String"

def documentType : DatatypeKind → DocumentType
  | .int | .decimal | .float | .double => .number
  | .boolean => .boolean
  | .date | .time | .datetime => .date
  | _ => .string

structure FieldReference where
  table : String
  localField : String
  foreignField : String
  deriving DecidableEq

structure DocumentField where
  type : DocumentType
  least : Option Number := none
  greatest : Option Number := none
  format : Option String := none
  pattern : Option String := none
  maxLength : Option UInt64 := none
  allowed : List String := []
  default : Option DefaultValue := none
  description : Option String := none
  unique : Option Bool := none
  primary : Option Bool := none
  referenceTable : Option String := none
  index : Option Bool := none
  required : Bool
  reference : Option FieldReference := none
  autoincrement : Bool
  deriving DecidableEq

structure DocumentSchema where
  title : String
  description : Option String
  columns : Members DocumentField

def documentField (c : Column) : DocumentField :=
  let b := c.type.bounds
  { type := documentType c.type.kind
    least := b.least.bind boundNumber?
    greatest := b.greatest.bind boundNumber?
    format := b.format.map ValueFormat.name
    pattern := b.pattern
    maxLength := b.maxLength
    allowed := b.allowed
    default := c.options.default
    description := c.options.comment
    required := !c.options.nullable
    autoincrement := c.options.autoincrement }

namespace DocumentField

def markPrimary (f : DocumentField) : DocumentField :=
  { f with unique := some true, primary := some true, required := true }

def markUnique (f : DocumentField) : DocumentField := { f with unique := some true }

def markIndex (f : DocumentField) : DocumentField := { f with index := some true }

def refer (table column foreign : String) (f : DocumentField) : DocumentField :=
  { f with referenceTable := some table, reference := some ⟨table, column, foreign⟩ }

end DocumentField

def markParts (f : DocumentField → DocumentField) (parts : List KeyPart)
    (ms : Members DocumentField) : Members DocumentField :=
  parts.foldl (fun ms p => update p.column f ms) ms

/-- A unique key of one column makes the field unique. -/
def markUniqueKey (ms : Members DocumentField) (key : Index) : Members DocumentField :=
  match key.parts with
  | [p] => update p.column DocumentField.markUnique ms
  | _ => ms

/-- The last foreign key that pairs a column counts. -/
def markForeignKey (ms : Members DocumentField) (k : ForeignKey) : Members DocumentField :=
  (k.parts.zip k.reference.parts).foldl
    (fun ms (p, r) =>
      update p.column (DocumentField.refer k.reference.table p.column r.column) ms) ms

def documentSchema (t : Table) : DocumentSchema :=
  let fields := ofEntries (t.columns.map fun c => (c.name, documentField c))
  let fields := markParts DocumentField.markPrimary (t.primaryKey.toList.flatMap (·.parts)) fields
  let fields := t.uniqueKeys.foldl markUniqueKey fields
  let fields := t.foreignKeys.foldl markForeignKey fields
  let fields := markParts DocumentField.markIndex (t.indexes.flatMap (·.parts)) fields
  { title := t.name
    description := t.options.bind (·.comment)
    columns := fields }

def FieldReference.toJson (r : FieldReference) : Json :=
  .object [("ref", .string r.table), ("localField", .string r.localField),
    ("foreignField", .string r.foreignField)]

def DocumentField.toJson (f : DocumentField) : Json :=
  .object ([("type", .string f.type.name)] ++
    Json.whenSome "min" .number f.least ++
    Json.whenSome "max" .number f.greatest ++
    Json.whenSome "format" .string f.format ++
    Json.whenSome "pattern" .string f.pattern ++
    Json.whenSome "maxlength" Json.ofUInt64 f.maxLength ++
    Json.whenNonempty "enum" .string f.allowed ++
    Json.whenSome "default" DefaultValue.toJson f.default ++
    Json.whenSome "description" .string f.description ++
    Json.whenSome "unique" .bool f.unique ++
    Json.whenSome "primary" .bool f.primary ++
    Json.whenSome "ref" .string f.referenceTable ++
    Json.whenSome "index" .bool f.index ++
    [("required", .bool f.required)] ++
    Json.whenSome "reference" FieldReference.toJson f.reference ++
    [("autoincrement", .bool f.autoincrement)])

def DocumentSchema.toJson (s : DocumentSchema) : Json :=
  .object ([("title", .string s.title)] ++
    Json.whenSome "description" .string s.description ++
    [("columns", membersJson DocumentField.toJson s.columns)])

end DdlCatalog.Projection
