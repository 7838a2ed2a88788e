import DdlCatalog.Json.Field
import DdlCatalog.Schema.Definition

/-!
JSON of the parts that statements and tables share. A statement and a table name the attributes of
a key part differently.
-/

namespace DdlCatalog

namespace SortOrder

def all : List SortOrder := [.ascending, .descending]

def name : SortOrder → String
  | .ascending => "asc"
  | .descending => "desc"

end SortOrder

namespace IndexMethod

def all : List IndexMethod := [.btree, .hash]

def name : IndexMethod → String
  | .btree => "btree"
  | .hash => "hash"

end IndexMethod

namespace IndexKind

def all : List IndexKind := [.plain, .unique, .fulltext, .spatial]

def name : IndexKind → String
  | .plain => "index"
  | .unique => "unique"
  | .fulltext => "fulltext"
  | .spatial => "spatial"

end IndexKind

namespace MatchRule

def all : List MatchRule := [.full, .partialRule, .simple]

def name : MatchRule → String
  | .full => "full"
  | .partialRule => "partial"
  | .simple => "simple"

end MatchRule

namespace ReferentialAction

def all : List ReferentialAction := [.restrict, .cascade, .setNull, .noAction, .setDefault]

def name : ReferentialAction → String
  | .restrict => "restrict"
  | .cascade => "cascade"
  | .setNull => "set null"
  | .noAction => "no action"
  | .setDefault => "set default"

end ReferentialAction

namespace DefaultValue

def toJson : DefaultValue → Json
  | .null => .null
  | .bool b => .bool b
  | .integer n => .number (.integer n.toInt)
  | .real x => .number (.real x)
  | .text s => .string s

/-- Integers beyond 64 bits with a sign are read as floats. -/
def ofJson? : Json → Option DefaultValue
  | .null => some .null
  | .bool b => some (.bool b)
  | .number (.integer n) =>
    if n < Int.pow 2 63 then some (.integer (Int64.ofInt n))
    else some (.real n.toNat.toUInt64.toFloat)
  | .number (.real x) => some (.real x)
  | .string s => some (.text s)
  | _ => none

end DefaultValue

/-- The names under which the length and order of a key part are written. -/
structure PartNames where
  length : String
  order : String

def PartNames.statement : PartNames := ⟨"length", "sort"⟩

def PartNames.table : PartNames := ⟨"prefixLength", "order"⟩

namespace KeyPart

def toJson (names : PartNames) (p : KeyPart) : Json :=
  .object ([("column", .string p.column)] ++
    Json.whenSome names.length Json.ofUInt32 p.length ++
    Json.whenSome names.order (fun o => .string o.name) p.order)

def ofJson? (names : PartNames) (j : Json) : Option KeyPart := do
  let f ← j.fields? ["column", names.length, names.order]
  return {
    column := ← f.required "column" Json.string?
    length := ← f.optional names.length Json.uint32?
    order := ← f.optional names.order (Json.oneOf? SortOrder.all SortOrder.name) }

end KeyPart

namespace IndexOptions

def toJson (o : IndexOptions) : Json :=
  .object (Json.whenSome "keyBlockSize" Json.ofUInt64 o.keyBlockSize ++
    Json.whenSome "parser" .string o.parserPlugin ++
    Json.whenSome "comment" .string o.comment ++
    Json.whenSome "visible" .bool o.visible)

def ofJson? (j : Json) : Option IndexOptions := do
  let f ← j.fields? ["keyBlockSize", "parser", "comment", "visible"]
  return {
    keyBlockSize := ← f.optional "keyBlockSize" Json.uint64?
    parserPlugin := ← f.optional "parser" Json.string?
    comment := ← f.optional "comment" Json.string?
    visible := ← f.optional "visible" Json.bool? }

end IndexOptions

namespace Index

/-- An index as it stands in a statement, where its options are always written, or in a table. -/
def toJson (names : PartNames) (alwaysOptions : Bool) (i : Index) : Json :=
  .object (Json.whenSome "name" .string i.name ++
    Json.whenSome "indexType" (fun m => .string m.name) i.method ++
    [("columns", Json.ofList (KeyPart.toJson names) i.parts)] ++
    if alwaysOptions || i.options != {} then [("options", i.options.toJson)] else [])

def ofJson? (names : PartNames) (j : Json) : Option Index := do
  let f ← j.fields? ["name", "indexType", "columns", "options"]
  return {
    name := ← f.optional "name" Json.string?
    method := ← f.optional "indexType" (Json.oneOf? IndexMethod.all IndexMethod.name)
    parts := ← f.required "columns" (Json.list? (KeyPart.ofJson? names))
    options := ← f.withDefault "options" IndexOptions.ofJson? {} }

end Index

namespace Reference

def toJson (names : PartNames) (r : Reference) : Json :=
  .object ([("table", .string r.table), ("columns", Json.ofList (KeyPart.toJson names) r.parts)] ++
    Json.whenSome "match" (fun m => .string m.name) r.matchRule ++
    Json.whenSome "onDelete" (fun a => .string a.name) r.onDelete ++
    Json.whenSome "onUpdate" (fun a => .string a.name) r.onUpdate)

def ofJson? (names : PartNames) (j : Json) : Option Reference := do
  let f ← j.fields? ["table", "columns", "match", "onDelete", "onUpdate"]
  let action? := Json.oneOf? ReferentialAction.all ReferentialAction.name
  return {
    table := ← f.required "table" Json.string?
    parts := ← f.required "columns" (Json.list? (KeyPart.ofJson? names))
    matchRule := ← f.optional "match" (Json.oneOf? MatchRule.all MatchRule.name)
    onDelete := ← f.optional "onDelete" action?
    onUpdate := ← f.optional "onUpdate" action? }

end Reference

namespace ForeignKey

def toJson (names : PartNames) (k : ForeignKey) : Json :=
  .object (Json.whenSome "symbol" .string k.symbol ++
    Json.whenSome "name" .string k.name ++
    [("columns", Json.ofList (KeyPart.toJson names) k.parts),
      ("reference", k.reference.toJson names)])

def ofJson? (names : PartNames) (j : Json) : Option ForeignKey := do
  let f ← j.fields? ["symbol", "name", "columns", "reference"]
  return {
    symbol := ← f.optional "symbol" Json.string?
    name := ← f.optional "name" Json.string?
    parts := ← f.required "columns" (Json.list? (KeyPart.ofJson? names))
    reference := ← f.required "reference" (Reference.ofJson? names) }

end ForeignKey

end DdlCatalog
