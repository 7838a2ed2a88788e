import DdlCatalog.Schema.Key
import DdlCatalog.Schema.TypeName

/-!
Definitions as a statement writes them: columns, the entries of a table, table options and the
clauses that alter a table.
-/

namespace DdlCatalog

/-- A default value. An explicit null is not the absence of a default. -/
inductive DefaultValue
  | null
  | bool (b : Bool)
  | integer (n : Int64)
  | real (x : Float)
  | text (s : String)
  deriving DecidableEq

/-- A column type as written: its name, the numbers or values in parentheses, and its modifiers. -/
structure TypeSpec where
  name : TypeName
  arguments : List UInt64 := []
  values : List String := []
  unsigned : Bool := false
  zerofill : Bool := false
  deriving DecidableEq

structure ColumnAttributes where
  nullable : Option Bool := none
  default : Option DefaultValue := none
  onUpdate : Option String := none
  autoIncrement : Bool := false
  unique : Bool := false
  primaryKey : Bool := false
  comment : Option String := none
  charset : Option String := none
  collation : Option String := none
  format : Option String := none
  storage : Option String := none
  invisible : Bool := false
  reference : Option Reference := none
  deriving DecidableEq

structure ColumnDefinition where
  name : String
  type : TypeSpec
  attributes : ColumnAttributes := {}
  deriving DecidableEq

inductive TableEntry
  | column (definition : ColumnDefinition)
  | primaryKey (key : Index)
  | foreignKey (key : ForeignKey)
  | index (kind : IndexKind) (index : Index)
  deriving DecidableEq

def TableEntry.isColumn : TableEntry → Bool
  | .column _ => true
  | _ => false

inductive TableOption
  | engine (name : String)
  | autoIncrement (n : UInt64)
  | avgRowLength (n : UInt64)
  | charset (name : String)
  | checksum (on : Bool)
  | collation (name : String)
  | comment (text : String)
  | compression (name : String)
  | connection (text : String)
  | dataDirectory (path : String)
  | indexDirectory (path : String)
  | delayKeyWrite (on : Bool)
  | encryption (on : Bool)
  | insertMethod (name : String)
  | keyBlockSize (n : UInt64)
  | maxRows (n : UInt64)
  | minRows (n : UInt64)
  | packKeys (mode : String)
  | password (text : String)
  | rowFormat (name : String)
  | tablespace (name : String)
  | union (tables : List String)
  deriving DecidableEq

/-- The place of a column among the others of its table, other than the last. -/
inductive Placement
  | first
  | after (column : String)
  deriving DecidableEq

inductive Alteration
  | addColumn (column : ColumnDefinition) (placement : Option Placement)
  | addColumns (columns : List ColumnDefinition)
  | addIndex (kind : IndexKind) (index : Index)
  | addPrimaryKey (key : Index)
  | addForeignKey (key : ForeignKey)
  | setDefault (column : String) (value : DefaultValue)
  | dropDefault (column : String)
  | changeColumn (column : String) (definition : ColumnDefinition) (placement : Option Placement)
  | modifyColumn (definition : ColumnDefinition) (placement : Option Placement)
  | renameColumn (column newName : String)
  | dropColumn (column : String)
  | dropIndex (index : String)
  | dropPrimaryKey
  | dropForeignKey (symbol : String)
  | renameIndex (index newName : String)
  | renameTable (newName : String)
  | setOptions (options : List TableOption)
  deriving DecidableEq

structure TableDefinition where
  table : String
  temporary : Bool := false
  ifNotExists : Bool := false
  entries : List TableEntry
  options : List TableOption := []
  deriving DecidableEq

structure LikeDefinition where
  table : String
  like : String
  temporary : Bool := false
  ifNotExists : Bool := false
  deriving DecidableEq

inductive Statement
  | createTable (definition : TableDefinition)
  | createTableLike (definition : LikeDefinition)
  | alterTable (table : String) (alterations : List Alteration)
  | dropTable (tables : List String) (ifExists : Bool)
  | renameTable (renames : List (String × String))
  | createIndex (table : String) (kind : IndexKind) (index : Index)
  | dropIndex (table index : String)
  deriving DecidableEq

namespace Statement

inductive Kind
  | createTable
  | createTableLike
  | alterTable
  | dropTable
  | renameTable
  | createIndex
  | dropIndex
  deriving DecidableEq

def kind : Statement → Kind
  | .createTable _ => .createTable
  | .createTableLike _ => .createTableLike
  | .alterTable _ _ => .alterTable
  | .dropTable _ _ => .dropTable
  | .renameTable _ => .renameTable
  | .createIndex _ _ _ => .createIndex
  | .dropIndex _ _ => .dropIndex

def Kind.all : List Kind :=
  [.createTable, .createTableLike, .alterTable, .dropTable, .renameTable, .createIndex, .dropIndex]

/-- The name a statement goes by in JSON and in messages. -/
def Kind.id : Kind → String
  | .createTable => "P_CREATE_TABLE_COMMON"
  | .createTableLike => "P_CREATE_TABLE_LIKE"
  | .alterTable => "P_ALTER_TABLE"
  | .dropTable => "P_DROP_TABLE"
  | .renameTable => "P_RENAME_TABLE"
  | .createIndex => "P_CREATE_INDEX"
  | .dropIndex => "P_DROP_INDEX"

/-- A statement of another kind than the one that is wanted. -/
structure KindMismatch where
  expected : Kind
  found : Kind
  deriving DecidableEq

def KindMismatch.message (m : KindMismatch) : String :=
  s!"Expected a {m.expected.id} node, found {m.found.id}"

def tableDefinition : Statement → Except KindMismatch TableDefinition
  | .createTable d => .ok d
  | s => .error ⟨.createTable, s.kind⟩

def likeDefinition : Statement → Except KindMismatch LikeDefinition
  | .createTableLike d => .ok d
  | s => .error ⟨.createTableLike, s.kind⟩

end Statement

end DdlCatalog
