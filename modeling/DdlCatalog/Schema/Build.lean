import DdlCatalog.Schema.InPlace

/-!
Tables from their definitions. Entries count in the order in which they are written; whether the
columns of a key exist is seen after the last entry, so a key may stand before its columns.
-/

namespace DdlCatalog.Table

/-! ### Declared keys -/

def declareIndex (kind : IndexKind) (i : Index) (t : Table) : Except ReferenceError Table :=
  if i.isEmpty then .error (.emptyKey t.name)
  else do
    t.checkIndexName i.name
    return t.mapIndexes kind (· ++ [i])

def declareForeignKey (k : ForeignKey) (t : Table) : Except ReferenceError Table :=
  if k.isEmpty then .error (.emptyKey t.name)
  else do
    t.checkSymbol k.symbol
    return { t with foreignKeys := t.foreignKeys ++ [k] }

/-- The last primary key that is declared counts. -/
def declarePrimaryKey (key : Index) (t : Table) : Except ReferenceError Table :=
  if key.isEmpty then .error (.emptyKey t.name) else .ok { t with primaryKey := some key }

def declareEvents (t : Table) : List Event :=
  if t.primaryKey.isSome then [.declaredKeyReplaced t.name] else []

def addEntry : TableEntry → Edit Table Unit
  | .column d => Edits.addColumn (.ofDefinition d) none
  | .primaryKey key => .step (declarePrimaryKey key) declareEvents
  | .foreignKey k => .quiet (declareForeignKey k.plain)
  | .index kind i => .quiet (declareIndex kind i)

/-! ### Resolution -/

def missingColumn? (t : Table) (parts : List KeyPart) : Option String :=
  (parts.find? fun p => !t.hasColumn p.column).map (·.column)

def isResolved (t : Table) (parts : List KeyPart) : Bool := (t.missingColumn? parts).isNone

/-- Refuses keys whose columns are missing, one by one. -/
def refuseUnresolved (policy : Policy) (keys : Table → List (List KeyPart)) : Edit Table Unit := do
  let t ← Edit.get
  let missing := (keys t).filterMap t.missingColumn?
  Edit.forEach (fun c => .under policy (.refuse (.unknownColumn t.name c))) missing

/-- Leaves out the indexes of a collection whose columns are missing. -/
def resolveIndexes (policy : Policy) (kind : IndexKind) : Edit Table Unit := do
  refuseUnresolved policy fun t => (t.indexesOf kind).map (·.parts)
  .modify fun t => t.mapIndexes kind (·.filter fun i => t.isResolved i.parts)

def resolveForeignKeys (policy : Policy) : Edit Table Unit := do
  refuseUnresolved policy fun t => t.foreignKeys.map (·.parts)
  .modify fun t => { t with foreignKeys := t.foreignKeys.filter fun k => t.isResolved k.parts }

def requireColumns (key : Index) (columns : List Column) : List Column :=
  columns.map fun c => if key.references c.name then c.notNull else c

/-- Leaves out a primary key whose columns are missing; the columns of another are not nullable. -/
def resolvePrimaryKey (policy : Policy) : Edit Table Unit := do
  refuseUnresolved policy fun t => t.primaryKey.toList.map (·.parts)
  .modify fun t =>
    match t.primaryKey with
    | none => t
    | some key =>
      if t.isResolved key.parts then { t with columns := requireColumns key t.columns }
      else t.withoutPrimaryKey

def resolve (policy : Policy) : Edit Table Unit := do
  resolveIndexes policy .fulltext
  resolveIndexes policy .spatial
  resolveIndexes policy .plain
  resolveIndexes policy .unique
  resolveForeignKeys policy
  resolvePrimaryKey policy

/-- The entries, keys and options of a definition, added to a table without any. -/
def addDefinition (policy : Policy) (d : TableDefinition) : Edit Table Unit := do
  Edit.forEach (fun e => .under policy (addEntry e)) d.entries
  resolve policy
  .modify fun t => if d.options.isEmpty then t else t.mergeOptions d.options

def ofDefinition (policy : Policy) (d : TableDefinition) : Outcome Table Unit :=
  (addDefinition policy d).run (empty d.table)

/-- The table of a definition that names another table, with the contents of that table. -/
def ofLike (source : Table) (d : LikeDefinition) : Table := source.setName d.table

end DdlCatalog.Table
