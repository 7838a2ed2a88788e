import DdlCatalog.Encoding.Key
import DdlCatalog.Proofs.Spelling.Reads
import DdlCatalog.Schema.Definition
import DdlCatalog.Sql.Grammar.Column
import Mathlib.Algebra.Group.Nat.Defs

/-!
The canonical spelling of statements as kinds of tokens, and which statements have one. Words stand in
lower case, names in backticks and strings in quotes.
-/

namespace DdlCatalog

open Sql Sql.Parser

namespace Sql

/-- A clause that is left out where there is nothing to say. -/
def ifSome {α : Type} (o : Option α) (clause : α → List TokenKind) : List TokenKind := o.elim [] clause

def ifTrue (b : Bool) (clause : List TokenKind) : List TokenKind := if b then clause else []

def numberKind (n : UInt64) : TokenKind := .integer (Int64.ofNat n.toNat)

end Sql

/-! ### Keys -/

namespace KeyPart

def lengthKinds (n : UInt32) : List TokenKind := [.leftParen, .integer (Int64.ofNat n.toNat), .rightParen]

def kinds (p : KeyPart) : List TokenKind :=
  .quoted p.column :: (ifSome p.length lengthKinds ++ ifSome p.order fun o => [.word o.name])

end KeyPart

def partKinds (parts : List KeyPart) : List TokenKind := inParens (joined KeyPart.kinds parts)

def usingKinds (method : Option IndexMethod) : List TokenKind := ifSome method fun m => [.word "using", .word m.name]

namespace IndexOptions

def pieces (o : IndexOptions) : List (List TokenKind) :=
  [ifSome o.keyBlockSize fun n => [.word "key_block_size", .equals, numberKind n],
    ifSome o.parserPlugin fun s => [.word "with", .word "parser", .quoted s],
    ifSome o.comment fun s => [.word "comment", .string s],
    ifSome o.visible fun b => [.word (if b then "visible" else "invisible")]]

def kinds (o : IndexOptions) : List TokenKind := o.pieces.flatten

end IndexOptions

namespace IndexKind

def kinds : IndexKind → List TokenKind
  | .plain => [.word "index"]
  | .unique => [.word "unique", .word "index"]
  | .fulltext => [.word "fulltext", .word "index"]
  | .spatial => [.word "spatial", .word "index"]

end IndexKind

namespace Index

/-- An index from its name on. -/
def kinds (i : Index) : List TokenKind :=
  ifSome i.name (fun s => [.quoted s]) ++ usingKinds i.method ++ partKinds i.parts ++ i.options.kinds

end Index

namespace ReferentialAction

def kinds : ReferentialAction → List TokenKind
  | .restrict => [.word "restrict"]
  | .cascade => [.word "cascade"]
  | .setNull => [.word "set", .word "null"]
  | .noAction => [.word "no", .word "action"]
  | .setDefault => [.word "set", .word "default"]

end ReferentialAction

namespace Reference

def pieces (r : Reference) : List (List TokenKind) :=
  [ifSome r.matchRule fun m => [.word "match", .word m.name],
    ifSome r.onDelete fun a => .word "on" :: .word "delete" :: a.kinds,
    ifSome r.onUpdate fun a => .word "on" :: .word "update" :: a.kinds]

def kinds (r : Reference) : List TokenKind := .quoted r.table :: (partKinds r.parts ++ r.pieces.flatten)

end Reference

namespace ForeignKey

/-- A foreign key from its name on. -/
def kinds (k : ForeignKey) : List TokenKind :=
  ifSome k.name (fun s => [.quoted s]) ++ partKinds k.parts ++ .word "references" :: k.reference.kinds

end ForeignKey

/-! ### Columns -/

namespace TypeSpec

def argumentKinds (s : TypeSpec) : List TokenKind :=
  if s.values ≠ [] then inParens (joined (fun v => [.string v]) s.values)
  else if s.arguments ≠ [] then inParens (joined (fun n => [numberKind n]) s.arguments)
  else []

def pieces (s : TypeSpec) : List (List TokenKind) :=
  [ifTrue s.unsigned [.word "unsigned"], ifTrue s.zerofill [.word "zerofill"]]

def kinds (s : TypeSpec) : List TokenKind := .word s.name.name :: (s.argumentKinds ++ s.pieces.flatten)

end TypeSpec

namespace DefaultValue

/-- Whether a real number is written with a minus. -/
def isNegative (x : Float) : Bool := 2 ^ 63 ≤ x.toBits.toNat

def kinds : DefaultValue → List TokenKind
  | .null => [.word "null"]
  | .bool true => [.word "true"]
  | .bool false => [.word "false"]
  | .integer n => if n < 0 then [.minus, .integer (-n)] else [.integer n]
  | .real x => if isNegative x then [.minus, .real (-x)] else [.real x]
  | .text s => [.string s]

end DefaultValue

namespace ColumnAttributes

def pieces (a : ColumnAttributes) : List (List TokenKind) :=
  [ifSome a.nullable fun b => if b then [.word "null"] else [.word "not", .word "null"],
    ifSome a.default fun v => .word "default" :: v.kinds,
    ifSome a.onUpdate fun s => [.word "on", .word "update", .string s],
    ifTrue a.autoIncrement [.word "auto_increment"],
    ifTrue a.unique [.word "unique"],
    ifTrue a.primaryKey [.word "primary", .word "key"],
    ifSome a.comment fun s => [.word "comment", .string s],
    ifSome a.charset fun s => [.word "character", .word "set", .quoted s],
    ifSome a.collation fun s => [.word "collate", .quoted s],
    ifSome a.format fun s => [.word "column_format", .quoted s],
    ifSome a.storage fun s => [.word "storage", .quoted s],
    ifTrue a.invisible [.word "invisible"],
    ifSome a.reference fun r => .word "references" :: r.kinds]

end ColumnAttributes

namespace ColumnDefinition

def kinds (d : ColumnDefinition) : List TokenKind :=
  .quoted d.name :: (d.type.kinds ++ d.attributes.pieces.flatten)

end ColumnDefinition

namespace TableEntry

def kinds : TableEntry → List TokenKind
  | .column d => d.kinds
  | .primaryKey key => .word "primary" :: .word "key" :: key.kinds
  | .foreignKey k =>
    ifSome k.symbol (fun s => [.word "constraint", .quoted s]) ++ .word "foreign" :: .word "key" :: k.kinds
  | .index kind i => kind.kinds ++ i.kinds

end TableEntry

/-! ### Tables -/

namespace TableOption

def flagKind (on : Bool) : TokenKind := .integer (if on then 1 else 0)

def kinds : TableOption → List TokenKind
  | .engine s => [.word "engine", .equals, .quoted s]
  | .autoIncrement n => [.word "auto_increment", .equals, numberKind n]
  | .avgRowLength n => [.word "avg_row_length", .equals, numberKind n]
  | .charset s => [.word "character", .word "set", .equals, .quoted s]
  | .checksum on => [.word "checksum", .equals, flagKind on]
  | .collation s => [.word "collate", .equals, .quoted s]
  | .comment s => [.word "comment", .equals, .string s]
  | .compression s => [.word "compression", .equals, .string s]
  | .connection s => [.word "connection", .equals, .string s]
  | .dataDirectory s => [.word "data", .word "directory", .equals, .string s]
  | .indexDirectory s => [.word "index", .word "directory", .equals, .string s]
  | .delayKeyWrite on => [.word "delay_key_write", .equals, flagKind on]
  | .encryption on => [.word "encryption", .equals, .string (if on then "Y" else "N")]
  | .insertMethod s => [.word "insert_method", .equals, .quoted s]
  | .keyBlockSize n => [.word "key_block_size", .equals, numberKind n]
  | .maxRows n => [.word "max_rows", .equals, numberKind n]
  | .minRows n => [.word "min_rows", .equals, numberKind n]
  | .packKeys mode =>
    [.word "pack_keys", .equals,
      if mode = "0" then .integer 0 else if mode = "1" then .integer 1 else .word "default"]
  | .password s => [.word "password", .equals, .string s]
  | .rowFormat s => [.word "row_format", .equals, .quoted s]
  | .tablespace s => [.word "tablespace", .equals, .quoted s]
  | .union tables => .word "union" :: .equals :: inParens (joined (fun s => [.quoted s]) tables)

end TableOption

def Placement.kinds : Placement → List TokenKind
  | .first => [.word "first"]
  | .after column => [.word "after", .quoted column]

namespace Alteration

def kinds : Alteration → List TokenKind
  | .addColumn d placement => .word "add" :: .word "column" :: (d.kinds ++ ifSome placement Placement.kinds)
  | .addColumns ds => .word "add" :: .word "column" :: inParens (joined ColumnDefinition.kinds ds)
  | .addIndex kind i => .word "add" :: (TableEntry.index kind i).kinds
  | .addPrimaryKey key => .word "add" :: (TableEntry.primaryKey key).kinds
  | .addForeignKey k => .word "add" :: (TableEntry.foreignKey k).kinds
  | .setDefault column value =>
    .word "alter" :: .word "column" :: .quoted column :: .word "set" :: .word "default" :: value.kinds
  | .dropDefault column => [.word "alter", .word "column", .quoted column, .word "drop", .word "default"]
  | .changeColumn column d placement =>
    .word "change" :: .word "column" :: .quoted column :: (d.kinds ++ ifSome placement Placement.kinds)
  | .modifyColumn d placement => .word "modify" :: .word "column" :: (d.kinds ++ ifSome placement Placement.kinds)
  | .renameColumn column new => [.word "rename", .word "column", .quoted column, .word "to", .quoted new]
  | .dropColumn column => [.word "drop", .word "column", .quoted column]
  | .dropIndex index => [.word "drop", .word "index", .quoted index]
  | .dropPrimaryKey => [.word "drop", .word "primary", .word "key"]
  | .dropForeignKey symbol => [.word "drop", .word "foreign", .word "key", .quoted symbol]
  | .renameIndex index new => [.word "rename", .word "index", .quoted index, .word "to", .quoted new]
  | .renameTable new => [.word "rename", .word "to", .quoted new]
  | .setOptions options => options.flatMap TableOption.kinds

end Alteration

namespace Statement

def temporaryTable (temporary ifNotExists : Bool) : List TokenKind :=
  ifTrue temporary [.word "temporary"] ++ .word "table" ::
    ifTrue ifNotExists [.word "if", .word "not", .word "exists"]

def kinds : Statement → List TokenKind
  | .createTable d =>
    .word "create" :: (temporaryTable d.temporary d.ifNotExists ++ .quoted d.table ::
      (inParens (joined TableEntry.kinds d.entries) ++ d.options.flatMap TableOption.kinds))
  | .createTableLike d =>
    .word "create" :: (temporaryTable d.temporary d.ifNotExists ++
      [.quoted d.table, .word "like", .quoted d.like])
  | .alterTable table alterations =>
    .word "alter" :: .word "table" :: .quoted table :: joined Alteration.kinds alterations
  | .dropTable tables ifExists =>
    .word "drop" :: .word "table" :: (ifTrue ifExists [.word "if", .word "exists"] ++
      joined (fun s => [.quoted s]) tables)
  | .renameTable renames =>
    .word "rename" :: .word "table" :: joined (fun r => [.quoted r.1, .word "to", .quoted r.2]) renames
  | .createIndex table kind i =>
    .word "create" :: (kind.kinds ++ ifSome i.name (fun s => [.quoted s]) ++ usingKinds i.method ++
      .word "on" :: .quoted table :: (partKinds i.parts ++ i.options.kinds))
  | .dropIndex table index => [.word "drop", .word "index", .quoted index, .word "on", .quoted table]

end Statement

end DdlCatalog
