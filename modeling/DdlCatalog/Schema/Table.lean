import DdlCatalog.Schema.Column
import DdlCatalog.Schema.ReferenceError
import DdlCatalog.Schema.TableOptions

/-!
Tables and their edits. Every edit is a function that refuses with an error or gives the edited
table; it keeps the columns of keys resolved, keys nonempty and names unique.
-/

namespace DdlCatalog

structure Table where
  name : String
  columns : List Column
  primaryKey : Option Index := none
  foreignKeys : List ForeignKey := []
  uniqueKeys : List Index := []
  indexes : List Index := []
  spatialIndexes : List Index := []
  fulltextIndexes : List Index := []
  options : Option TableOptions := none
  deriving DecidableEq

namespace Table

/-! ### Looking things up -/

def empty (name : String) : Table := { name := name, columns := [] }

def column? (t : Table) (name : String) : Option Column := t.columns.find? (·.name == name)

def hasColumn (t : Table) (name : String) : Bool := t.columns.any (·.name == name)

def indexesOf (t : Table) : IndexKind → List Index
  | .plain => t.indexes
  | .unique => t.uniqueKeys
  | .fulltext => t.fulltextIndexes
  | .spatial => t.spatialIndexes

def mapIndexes (t : Table) (kind : IndexKind) (f : List Index → List Index) : Table :=
  match kind with
  | .plain => { t with indexes := f t.indexes }
  | .unique => { t with uniqueKeys := f t.uniqueKeys }
  | .fulltext => { t with fulltextIndexes := f t.fulltextIndexes }
  | .spatial => { t with spatialIndexes := f t.spatialIndexes }

/-- The collections in the order in which a name is looked up. -/
def lookupOrder : List IndexKind := [.unique, .plain, .fulltext, .spatial]

def index? (t : Table) (name : String) : Option (IndexKind × Index) :=
  lookupOrder.findSome? fun kind =>
    ((t.indexesOf kind).find? (·.name == some name)).map fun i => (kind, i)

def foreignKey? (t : Table) (symbol : String) : Option ForeignKey :=
  t.foreignKeys.find? (·.symbol == some symbol)

/-- Where the column stands: nothing for the last column, unless it is the first. -/
def columnPosition (t : Table) (name : String) : Except ReferenceError (Option Placement) :=
  match t.columns.findIdx? (·.name == name) with
  | none => .error (.unknownColumn t.name name)
  | some 0 => .ok (some .first)
  | some (i + 1) =>
    if i + 2 = t.columns.length then .ok none
    else .ok ((t.columns[i]?).map fun c => .after c.name)

/-! ### Columns -/

/-- The columns with one more after the first of the given name, if there is one. -/
def insertAfter? (name : String) (c : Column) : List Column → Option (List Column)
  | [] => none
  | d :: r => if d.name = name then some (d :: c :: r) else (insertAfter? name c r).map (d :: ·)

def place? (placement : Option Placement) (c : Column) (columns : List Column) :
    Option (List Column) :=
  match placement with
  | none => some (columns ++ [c])
  | some .first => some (c :: columns)
  | some (.after name) => insertAfter? name c columns

def noPlace (t : Table) : Option Placement → ReferenceError
  | some (.after name) => .unknownColumn t.name name
  | _ => .unknownColumn t.name ""

def updateColumns (name : String) (f : Column → Column) : List Column → List Column
  | [] => []
  | c :: r => if c.name = name then f c :: r else c :: updateColumns name f r

def updateColumn (t : Table) (name : String) (f : Column → Column) : Table :=
  { t with columns := updateColumns name f t.columns }

def attachPrimaryKey (t : Table) (key : Index) : Table :=
  { t with
    columns := key.parts.foldl (fun cs p => updateColumns p.column Column.notNull cs) t.columns
    primaryKey := some key }

/-- Takes the constraints declared with a column over as keys of the table. -/
def promote (t : Table) (c : Column) : Table :=
  let t := if c.inline.primaryKey then t.attachPrimaryKey (.onColumns [c.name]) else t
  { t with
    foreignKeys := t.foreignKeys ++ (c.inline.reference.map (ForeignKey.onColumns [c.name])).toList
    uniqueKeys := t.uniqueKeys ++ if c.inline.uniqueKey then [.onColumns [c.name]] else [] }

def addColumn (t : Table) (c : Column) (placement : Option Placement) :
    Except ReferenceError Table :=
  if t.hasColumn c.name then .error (.duplicateColumn t.name c.name)
  else
    match place? placement c.bare t.columns with
    | none => .error (t.noPlace placement)
    | some columns => .ok ({ t with columns := columns }.promote c)

def otherColumns (t : Table) (name : String) : List Column := t.columns.eraseP (·.name == name)

def moveColumn (t : Table) (name : String) (placement : Placement) : Except ReferenceError Table :=
  match t.column? name with
  | none => .error (.unknownColumn t.name name)
  | some c =>
    match place? (some placement) c (t.otherColumns name) with
    | none => .error (t.noPlace (some placement))
    | some columns => .ok { t with columns := columns }

/-- The index without a column; nothing if that was all it referred to. -/
def indexWithout (column : String) (i : Index) : Option Index :=
  if i.references column && (i.dropColumn column).isEmpty then none else some (i.dropColumn column)

def foreignKeyWithout (column : String) (k : ForeignKey) : Option ForeignKey :=
  if k.references column && (k.dropColumn column).isEmpty then none
  else some (k.dropColumn column)

/-- Drops a column and every reference to it, and the keys that referred to nothing else. -/
def dropColumn (t : Table) (name : String) : Except ReferenceError (Column × Table) :=
  match t.column? name with
  | none => .error (.unknownColumn t.name name)
  | some c =>
    .ok (c,
      { t with
        columns := t.otherColumns name
        primaryKey := t.primaryKey.bind (indexWithout name)
        foreignKeys := t.foreignKeys.filterMap (foreignKeyWithout name)
        uniqueKeys := t.uniqueKeys.filterMap (indexWithout name)
        indexes := t.indexes.filterMap (indexWithout name)
        spatialIndexes := t.spatialIndexes.filterMap (indexWithout name)
        fulltextIndexes := t.fulltextIndexes.filterMap (indexWithout name) })

def renameReferences (t : Table) (old new : String) : Table :=
  { t with
    primaryKey := t.primaryKey.map (·.renameColumn old new)
    foreignKeys := t.foreignKeys.map (·.renameColumn old new)
    uniqueKeys := t.uniqueKeys.map (·.renameColumn old new)
    indexes := t.indexes.map (·.renameColumn old new)
    spatialIndexes := t.spatialIndexes.map (·.renameColumn old new)
    fulltextIndexes := t.fulltextIndexes.map (·.renameColumn old new) }

def renameColumn (t : Table) (old new : String) : Except ReferenceError Table :=
  if !t.hasColumn old then .error (.unknownColumn t.name old)
  else if old = new then .ok t
  else if t.hasColumn new then .error (.duplicateColumn t.name new)
  else .ok ((t.updateColumn old fun c => { c with name := new }).renameReferences old new)

/-- The place a replaced column goes to: the one asked for, else the one it had. -/
def replacementPlace (t : Table) (name : String) (placement : Option Placement) :
    Except ReferenceError (Option Placement) :=
  match placement with
  | none => t.columnPosition name
  | some .first => .ok (some .first)
  | some (.after column) =>
    if column = name || !t.hasColumn column then .error (.unknownColumn t.name column)
    else .ok (some (.after column))

/-- Replaces a column by another definition, perhaps of another name, at another place. -/
def replaceColumn (t : Table) (name : String) (c : Column) (placement : Option Placement) :
    Except ReferenceError Table :=
  if !t.hasColumn name then .error (.unknownColumn t.name name)
  else if c.name ≠ name ∧ t.hasColumn c.name then .error (.duplicateColumn t.name c.name)
  else
    match t.replacementPlace name placement with
    | .error e => .error e
    | .ok target =>
      let others := t.otherColumns name
      let columns := (place? target c.bare others).getD (others ++ [c.bare])
      let renamed := if c.name = name then t else t.renameReferences name c.name
      .ok ({ renamed with columns := columns }.promote c)

def setColumnDefault (t : Table) (name : String) (value : Option DefaultValue) :
    Except ReferenceError Table :=
  if t.hasColumn name then
    .ok (t.updateColumn name fun c => { c with options := { c.options with default := value } })
  else .error (.unknownColumn t.name name)

/-! ### Keys -/

def checkParts (t : Table) (parts : List KeyPart) : Except ReferenceError Unit :=
  if parts.isEmpty then .error (.emptyKey t.name)
  else
    match parts.find? fun p => !t.hasColumn p.column with
    | some p => .error (.unknownColumn t.name p.column)
    | none => .ok ()

def checkIndexName (t : Table) (name : Option String) : Except ReferenceError Unit :=
  match name with
  | some name => if (t.index? name).isSome then .error (.duplicateIndex t.name name) else .ok ()
  | none => .ok ()

def checkSymbol (t : Table) (symbol : Option String) : Except ReferenceError Unit :=
  match symbol with
  | some symbol =>
    if (t.foreignKey? symbol).isSome then .error (.duplicateForeignKey t.name symbol) else .ok ()
  | none => .ok ()

def pushIndex (t : Table) (kind : IndexKind) (i : Index) : Except ReferenceError Table := do
  t.checkParts i.parts
  t.checkIndexName i.name
  return t.mapIndexes kind (· ++ [i])

/-- Adds a foreign key. The table it refers to need not be there. -/
def pushForeignKey (t : Table) (k : ForeignKey) : Except ReferenceError Table := do
  t.checkParts k.parts
  t.checkSymbol k.symbol
  return { t with foreignKeys := t.foreignKeys ++ [k] }

def setPrimaryKey (t : Table) (key : Index) : Except ReferenceError Table := do
  t.checkParts key.parts
  return t.attachPrimaryKey key

def addPrimaryKey (t : Table) (key : Index) : Except ReferenceError Table :=
  if t.primaryKey.isSome then .error (.duplicatePrimaryKey t.name) else t.setPrimaryKey key

def withoutPrimaryKey (t : Table) : Table := { t with primaryKey := none }

def dropPrimaryKey (t : Table) : Except ReferenceError Table :=
  if t.primaryKey.isSome then .ok t.withoutPrimaryKey else .error (.missingPrimaryKey t.name)

def dropForeignKey (t : Table) (symbol : String) : Except ReferenceError (ForeignKey × Table) :=
  match t.foreignKey? symbol with
  | none => .error (.unknownForeignKey t.name symbol)
  | some k => .ok (k, { t with foreignKeys := t.foreignKeys.eraseP (·.symbol == some symbol) })

def dropIndex (t : Table) (name : String) : Except ReferenceError (IndexKind × Table) :=
  match t.index? name with
  | none => .error (.unknownIndex t.name name)
  | some (kind, _) => .ok (kind, t.mapIndexes kind (·.eraseP (·.name == some name)))

def renameFirst (old new : String) : List Index → List Index
  | [] => []
  | i :: r => if i.name = some old then { i with name := some new } :: r else i :: renameFirst old new r

def renameIndex (t : Table) (old new : String) : Except ReferenceError Table :=
  match t.index? old with
  | none => .error (.unknownIndex t.name old)
  | some (kind, _) =>
    if old = new then .ok t
    else if (t.index? new).isSome then .error (.duplicateIndex t.name new)
    else .ok (t.mapIndexes kind (renameFirst old new))

/-! ### Options and name -/

/-- Options are kept only if one is set. -/
def setOptions (t : Table) (options : TableOptions) : Table :=
  { t with options := if options.isEmpty then none else some options }

def mergeOptions (t : Table) (options : List TableOption) : Table :=
  t.setOptions ((t.options.getD {}).merge options)

def setName (t : Table) (name : String) : Table := { t with name := name }

/-! ### Validation -/

def firstRepeated? (seen : List String) : List String → Option String
  | [] => none
  | name :: r => if seen.contains name then some name else firstRepeated? (name :: seen) r

def indexNames (t : Table) : List String :=
  (lookupOrder.flatMap t.indexesOf).filterMap (·.name)

/-- The columns of every key, in the order in which they are checked. -/
def keyParts (t : Table) : List (List KeyPart) :=
  t.primaryKey.toList.map (·.parts) ++ t.foreignKeys.map (·.parts) ++
    (lookupOrder.flatMap t.indexesOf).map (·.parts)

/-- Refuses a table with repeated columns or index names, or a key whose columns do not resolve. -/
def validate (t : Table) : Except ReferenceError Unit := do
  if let some name := firstRepeated? [] (t.columns.map (·.name)) then
    throw (.duplicateColumn t.name name)
  t.keyParts.forM t.checkParts
  if let some name := firstRepeated? [] t.indexNames then
    throw (.duplicateIndex t.name name)

end Table

end DdlCatalog
