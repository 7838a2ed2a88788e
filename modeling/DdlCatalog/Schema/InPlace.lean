import DdlCatalog.Schema.Edit

/-!
Edits of a table in place: tests and changes in the order in which they are made, so that an edit
that is refused midway leaves what it has changed by then.
-/

namespace DdlCatalog.Table

/-! ### What is reported -/

/-- What a table reports when it takes over the constraints of a column. -/
def promoteEvents (t : Table) (c : Column) : List Event :=
  if c.inline.primaryKey && t.primaryKey.isSome then [.inlineKeyReplaced t.name] else []

def removedIndexes (t : Table) (column : String) (kind : IndexKind) : List Event :=
  ((t.indexesOf kind).filter fun i => (indexWithout column i).isNone).map fun i =>
    .keyRemoved t.name column (i.name.getD "")

def removedForeignKeys (t : Table) (column : String) : List Event :=
  (t.foreignKeys.filter fun k => (foreignKeyWithout column k).isNone).map fun k =>
    .keyRemoved t.name column (k.symbol.getD "")

def removedPrimaryKey (t : Table) (column : String) : List Event :=
  if t.primaryKey.any fun key => (indexWithout column key).isNone then
    [.primaryKeyRemoved t.name column]
  else []

/-- What a table reports when a column is dropped: the keys that go with it. -/
def dropEvents (t : Table) (column : String) : List Event :=
  t.removedIndexes column .fulltext ++ t.removedIndexes column .spatial ++
    t.removedIndexes column .plain ++ t.removedIndexes column .unique ++
    t.removedForeignKeys column ++ t.removedPrimaryKey column

/-! ### Positions -/

def columnIndex (t : Table) (name : String) : Except ReferenceError Nat :=
  match t.columns.findIdx? (·.name == name) with
  | some i => .ok i
  | none => .error (.unknownColumn t.name name)

def locate (t : Table) (name : String) : Except ReferenceError (Column × Nat) :=
  match t.column? name with
  | some c => (t.columnIndex name).map (c, ·)
  | none => .error (.unknownColumn t.name name)

/-- The position that a column placed so takes. -/
def insertionIndex (t : Table) : Option Placement → Except ReferenceError Nat
  | none => .ok t.columns.length
  | some .first => .ok 0
  | some (.after name) => (t.columnIndex name).map (· + 1)

def checkNewColumn (t : Table) (name : String) : Except ReferenceError Unit :=
  if t.hasColumn name then .error (.duplicateColumn t.name name) else .ok ()

def insertColumnAt (t : Table) (i : Nat) (c : Column) : Table :=
  { t with columns := t.columns.insertIdx i c }

def removeColumnAt (t : Table) (i : Nat) : Table := { t with columns := t.columns.eraseIdx i }

def changeColumnAt (t : Table) (i : Nat) (f : Column → Column) : Table :=
  { t with columns := t.columns.modify i f }

/-! ### References -/

/-- Takes the parts on a column out one after another, the first that is left at a time, and with each
the partner that stands at its position by then. -/
def takePairs (column : String) (parts partners : List KeyPart) : List KeyPart × List KeyPart :=
  match _h : parts.findIdx? (·.column == column) with
  | none => (parts, partners)
  | some i => takePairs column (parts.eraseIdx i) (partners.eraseIdx i)
termination_by parts.length
decreasing_by
  have hi := (List.findIdx?_eq_some_iff_getElem.1 _h).1
  rw [List.length_eraseIdx_of_lt hi]
  omega

/-- A foreign key after its pairs on a column are taken out; nothing if there were such and no others. -/
def foreignKeyLeft (column : String) (k : ForeignKey) : Option ForeignKey :=
  let (parts, partners) := takePairs column k.parts k.reference.parts
  if k.references column && parts.isEmpty then none
  else some { k with parts := parts, reference := { k.reference with parts := partners } }

namespace Edits

/-! ### Columns -/

/-- Takes the constraints off a column just inserted and over as keys of the table. -/
def promoteAt (i : Nat) (c : Column) : Edit Table Unit := do
  .modify (·.changeColumnAt i Column.bare)
  .emit (·.promoteEvents c)
  .modify (·.promote c)

def addColumn (c : Column) (placement : Option Placement) : Edit Table Unit := do
  .check (·.checkNewColumn c.name)
  let i ← .check (·.insertionIndex placement)
  .modify (·.insertColumnAt i c)
  promoteAt i c

/-- The column is taken out before its new place is looked up; where that fails it goes back. -/
def moveColumn (name : String) (placement : Placement) : Edit Table Unit := do
  let (c, origin) ← .check (·.locate name)
  if let .after target := placement then
    let _ ← .check (·.columnIndex target)
  .modify (·.removeColumnAt origin)
  match ← .attempt (.check (·.insertionIndex (some placement))) with
  | .ok i => .modify (·.insertColumnAt i c)
  | .error e =>
    .modify (·.insertColumnAt origin c)
    .refuse e

/-- Drops the references to a column from a collection, and the indexes left without columns. -/
def dropFromIndexes (column : String) (kind : IndexKind) : Edit Table Unit := do
  .emit (·.removedIndexes column kind)
  .modify (·.mapIndexes kind (·.filterMap (indexWithout column)))

def dropFromForeignKeys (column : String) : Edit Table Unit := do
  .emit (·.removedForeignKeys column)
  .modify fun t => { t with foreignKeys := t.foreignKeys.filterMap (foreignKeyLeft column) }

def dropFromPrimaryKey (column : String) : Edit Table Unit := do
  .emit (·.removedPrimaryKey column)
  .modify fun t => { t with primaryKey := t.primaryKey.bind (indexWithout column) }

def dropColumn (name : String) : Edit Table Column := do
  let (c, i) ← .check (·.locate name)
  .modify (·.removeColumnAt i)
  dropFromIndexes name .fulltext
  dropFromIndexes name .spatial
  dropFromIndexes name .plain
  dropFromIndexes name .unique
  dropFromForeignKeys name
  dropFromPrimaryKey name
  return c

def renameColumn (old new : String) : Edit Table Unit := do
  let i ← .check (·.columnIndex old)
  if old ≠ new then
    .check (·.checkNewColumn new)
    .modify (·.changeColumnAt i fun c => { c with name := new })
    .modify (·.renameReferences old new)

/-- Puts a column in at a place, at the end if that is missing, and takes its constraints over. -/
def placeColumn (c : Column) (placement : Option Placement) : Edit Table Unit := do
  match ← .attempt (.check (·.insertionIndex placement)) with
  | .ok i =>
    .modify (·.insertColumnAt i c)
    promoteAt i c
  | .error _ =>
    let last := (← Edit.get).columns.length
    .modify (·.insertColumnAt last c)
    promoteAt last c

/-- The old column goes and the references to it are renamed before the new one takes its place. -/
def replaceColumn (name : String) (c : Column) (placement : Option Placement) :
    Edit Table Unit := do
  let i ← .check (·.columnIndex name)
  if c.name ≠ name then
    .check (·.checkNewColumn c.name)
  let target ← .check (·.replacementPlace name placement)
  .modify (·.removeColumnAt i)
  if c.name ≠ name then
    .modify (·.renameReferences name c.name)
  placeColumn c target

def setColumnDefault (name : String) (value : Option DefaultValue) : Edit Table Unit := do
  let i ← .check (·.columnIndex name)
  .modify (·.changeColumnAt i fun c => { c with options := { c.options with default := value } })

/-! ### Keys -/

def pushIndex (kind : IndexKind) (i : Index) : Edit Table Unit := do
  .check (·.checkParts i.parts)
  .check (·.checkIndexName i.name)
  .modify (·.mapIndexes kind (· ++ [i]))

def pushForeignKey (k : ForeignKey) : Edit Table Unit := do
  .check (·.checkParts k.parts)
  .check (·.checkSymbol k.symbol)
  .modify fun t => { t with foreignKeys := t.foreignKeys ++ [k] }

/-- Sets the primary key and gives the one it replaces. -/
def setPrimaryKey (key : Index) : Edit Table (Option Index) := do
  .check (·.checkParts key.parts)
  let previous := (← Edit.get).primaryKey
  .modify (·.attachPrimaryKey key)
  return previous

def addPrimaryKey (key : Index) : Edit Table Unit := do
  let t ← Edit.get
  if t.primaryKey.isSome then .refuse (.duplicatePrimaryKey t.name)
  let _ ← setPrimaryKey key

def takePrimaryKey : Edit Table (Option Index) := do
  let previous := (← Edit.get).primaryKey
  .modify withoutPrimaryKey
  return previous

def dropPrimaryKey : Edit Table Unit := do
  if (← takePrimaryKey).isNone then
    .refuse (.missingPrimaryKey (← Edit.get).name)

def dropForeignKey (symbol : String) : Edit Table ForeignKey := do
  let t ← Edit.get
  match t.foreignKeys.findIdx? (·.symbol == some symbol), t.foreignKey? symbol with
  | some i, some k =>
    .modify fun t => { t with foreignKeys := t.foreignKeys.eraseIdx i }
    return k
  | _, _ => .refuse (.unknownForeignKey t.name symbol)

def kindOf (name : String) : Edit Table IndexKind := .check fun t =>
  match t.index? name with
  | some (kind, _) => .ok kind
  | none => .error (.unknownIndex t.name name)

def dropNamedIndex (name : String) : Edit Table IndexKind := do
  let kind ← kindOf name
  .modify (·.mapIndexes kind (·.eraseP (·.name == some name)))
  return kind

def renameIndex (old new : String) : Edit Table Unit := do
  let kind ← kindOf old
  if old ≠ new then
    .check (·.checkIndexName (some new))
    .modify (·.mapIndexes kind (renameFirst old new))

/-- Drops an index, or the primary key, whose name as an index is PRIMARY in any letter case. -/
def dropIndex (name : String) : Edit Table Unit := do
  if name.toLower == "primary" then dropPrimaryKey
  else
    let _ ← dropNamedIndex name

/-! ### Options -/

def mergeOptions (options : List TableOption) : Edit Table Unit := .modify (·.mergeOptions options)

def setOptions (options : TableOptions) : Edit Table Unit := .modify (·.setOptions options)

end Edits

end DdlCatalog.Table
