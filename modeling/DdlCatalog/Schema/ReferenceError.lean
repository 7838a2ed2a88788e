/-!
Names that do not resolve, names that are taken and keys without columns.
-/

namespace DdlCatalog

/-- Why an edit is refused. A refused edit leaves everything as it was. -/
inductive ReferenceError
  | unknownColumn (table column : String)
  | unknownIndex (table index : String)
  | unknownForeignKey (table symbol : String)
  | unknownTable (table : String)
  | duplicateColumn (table column : String)
  | duplicateIndex (table index : String)
  | duplicateForeignKey (table symbol : String)
  | duplicateTable (table : String)
  | duplicatePrimaryKey (table : String)
  | emptyKey (table : String)
  | missingPrimaryKey (table : String)
  deriving DecidableEq

def ReferenceError.message : ReferenceError → String
  | .unknownColumn table column => s!"Unknown column '{column}' in table '{table}'"
  | .unknownIndex table index => s!"Unknown index '{index}' in table '{table}'"
  | .unknownForeignKey table symbol => s!"Unknown foreign key '{symbol}' in table '{table}'"
  | .unknownTable table => s!"Unknown table '{table}'"
  | .duplicateColumn table column => s!"Duplicate column '{column}' in table '{table}'"
  | .duplicateIndex table index => s!"Duplicate index '{index}' in table '{table}'"
  | .duplicateForeignKey table symbol => s!"Duplicate foreign key '{symbol}' in table '{table}'"
  | .duplicateTable table => s!"Table '{table}' already exists"
  | .duplicatePrimaryKey table => s!"Table '{table}' already has a primary key"
  | .emptyKey table => s!"Key or index on table '{table}' has no columns"
  | .missingPrimaryKey table => s!"Table '{table}' has no primary key"

end DdlCatalog
