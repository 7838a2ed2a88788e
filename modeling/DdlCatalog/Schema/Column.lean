import DdlCatalog.Schema.Datatype

/-!
Columns of a table. A new column may carry constraints declared with it, which the table takes over
as keys of its own.
-/

namespace DdlCatalog

structure ColumnOptions where
  nullable : Bool := true
  default : Option DefaultValue := none
  autoincrement : Bool := false
  comment : Option String := none
  charset : Option String := none
  collation : Option String := none
  onUpdate : Option String := none
  format : Option String := none
  storage : Option String := none
  invisible : Bool := false
  deriving DecidableEq

/-- Constraints declared with a column that the table has not taken over yet. -/
structure InlineConstraints where
  primaryKey : Bool := false
  uniqueKey : Bool := false
  reference : Option Reference := none
  deriving DecidableEq

structure Column where
  name : String
  type : Datatype
  options : ColumnOptions := {}
  inline : InlineConstraints := {}
  deriving DecidableEq

namespace Column

/-- The column a definition stands for. A column of the primary key is not nullable. -/
def ofDefinition (d : ColumnDefinition) : Column :=
  let a := d.attributes
  { name := d.name
    type := .ofSpec d.type
    options :=
      { nullable := !a.primaryKey && a.nullable.getD true
        default := a.default
        autoincrement := a.autoIncrement
        comment := a.comment
        charset := a.charset
        collation := a.collation
        onUpdate := a.onUpdate
        format := a.format
        storage := a.storage
        invisible := a.invisible }
    inline :=
      { primaryKey := a.primaryKey
        uniqueKey := a.unique
        reference := a.reference.map Reference.plain } }

def notNull (c : Column) : Column := { c with options := { c.options with nullable := false } }

def withPrimaryKey (c : Column) : Column :=
  { c.notNull with inline := { c.inline with primaryKey := true } }

def withUniqueKey (c : Column) : Column :=
  { c with inline := { c.inline with uniqueKey := true } }

def withReference (r : Reference) (c : Column) : Column :=
  { c with inline := { c.inline with reference := some r } }

def hasInline (c : Column) : Bool := c.inline != {}

/-- The column without the constraints declared with it. -/
def bare (c : Column) : Column := { c with inline := {} }

end Column

end DdlCatalog
