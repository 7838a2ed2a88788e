import DdlCatalog.Schema.Build

/-!
Catalogs: the tables that statements have made so far, each under a name, in the order in which they
were made.
-/

namespace DdlCatalog

/-- Tables and the names they are registered under. A table that is renamed on its own keeps the
name it is registered under. -/
structure Catalog where
  policy : Policy := .lenient
  entries : List (String × Table) := []
  deriving DecidableEq

namespace Catalog

def empty (policy : Policy) : Catalog := { policy := policy }

def tables (c : Catalog) : List Table := c.entries.map (·.2)

def table? (c : Catalog) (name : String) : Option Table := c.entries.lookup name

def contains (c : Catalog) (name : String) : Bool := c.entries.any (·.1 == name)

/-! ### The entries -/

def push (c : Catalog) (name : String) (t : Table) : Catalog :=
  { c with entries := c.entries ++ [(name, t)] }

def erase (c : Catalog) (name : String) : Catalog :=
  { c with entries := c.entries.eraseP (·.1 == name) }

/-- Puts a table in the place of the one registered under a name. -/
def set (c : Catalog) (name : String) (t : Table) : Catalog :=
  { c with entries := c.entries.map fun e => if e.1 == name then (name, t) else e }

/-- A table on its way to another name: the entries without it and the position it goes to. -/
structure Rekeying where
  others : List (String × Table)
  position : Nat
  name : String

/-- Puts the table in. Another table of the name goes. -/
def Rekeying.insert (r : Rekeying) (t : Table) : List (String × Table) :=
  (r.others.eraseP (·.1 == r.name)).insertIdx r.position (r.name, t)

/-- Takes the table registered under a name out, to go to the place it had. -/
def rekeying? (c : Catalog) (old new : String) : Option Rekeying :=
  (c.entries.findIdx? (·.1 == old)).map fun i => ⟨c.entries.eraseIdx i, i, new⟩

/-- Puts a table under its new name in the place of the one registered under the old name. -/
def rekey (c : Catalog) (old new : String) (t : Table) : Catalog :=
  match c.rekeying? old new with
  | none => c
  | some r => { c with entries := r.insert t }

/-- Puts an altered table back, under its own name. -/
def commit (c : Catalog) (previous : String) (t : Table) : Catalog :=
  if t.name = previous then c.set previous t else c.rekey previous t.name t

def insert (c : Catalog) (t : Table) : Except ReferenceError Catalog :=
  if c.contains t.name then .error (.duplicateTable t.name) else .ok (c.push t.name t)

def rename (c : Catalog) (old new : String) : Except ReferenceError Catalog :=
  if c.contains new then .error (.duplicateTable new)
  else
    match c.table? old with
    | none => .error (.unknownTable old)
    | some t => .ok (c.rekey old new (t.setName new))

/-- The end of an edit of a copy, which comes into the catalog unless the edit is refused. -/
def putIn (c : Catalog) (put : Table → Catalog) (o : Outcome Table Unit) : Outcome Catalog Unit :=
  ⟨o.result, if o.result.isOk then put o.state else c, o.events⟩

def editTable (name : String) (e : Edit Table Unit) : Edit Catalog Unit := fun c =>
  match c.table? name with
  | none => ⟨.error (.unknownTable name), c, []⟩
  | some t =>
    let o := e.run t
    ⟨o.result, c.set name o.state, o.events⟩

end Catalog

/-! ### Alterations -/

namespace Alteration

/-- Whether a table may take a name: its own, or one that is free. -/
def checkName (c : Catalog) (newName : String) (t : Table) : Except ReferenceError Table :=
  if newName ≠ t.name ∧ c.contains newName then .error (.duplicateTable newName)
  else .ok (t.setName newName)

/-- The edit of a working copy that a clause stands for. The columns of a list are added one by
one, up to the first that is refused. -/
def edit (c : Catalog) : Alteration → Edit Table Unit
  | .addColumn d placement => Table.Edits.addColumn (.ofDefinition d) placement
  | .addColumns ds => Edit.forEach (fun d => Table.Edits.addColumn (.ofDefinition d) none) ds
  | .addIndex kind i => Table.Edits.pushIndex kind i
  | .addPrimaryKey key => Table.Edits.addPrimaryKey key
  | .addForeignKey k => Table.Edits.pushForeignKey k.plain
  | .setDefault column value => Table.Edits.setColumnDefault column (some value)
  | .dropDefault column => Table.Edits.setColumnDefault column none
  | .changeColumn column d placement => Table.Edits.replaceColumn column (.ofDefinition d) placement
  | .modifyColumn d placement => Table.Edits.replaceColumn d.name (.ofDefinition d) placement
  | .renameColumn column newName => Table.Edits.renameColumn column newName
  | .dropColumn column => do let _ ← Table.Edits.dropColumn column
  | .dropIndex i => Table.Edits.dropIndex i
  | .dropPrimaryKey => Table.Edits.dropPrimaryKey
  | .dropForeignKey symbol => do let _ ← Table.Edits.dropForeignKey symbol
  | .renameIndex i newName => Table.Edits.renameIndex i newName
  | .renameTable newName => .quiet (checkName c newName)
  | .setOptions options => Table.Edits.mergeOptions options

end Alteration

namespace Catalog

/-! ### Statements -/

def existing (policy : Policy) (table : String) (ifNotExists : Bool) : Edit Catalog Unit :=
  if ifNotExists then .report (.tableExists table)
  else .under policy (.refuse (.duplicateTable table))

def createTable (policy : Policy) (d : TableDefinition) : Edit Catalog Unit := fun c =>
  if c.contains d.table then (existing policy d.table d.ifNotExists).run c
  else c.putIn (c.push d.table) (Table.ofDefinition policy d)

def createTableLike (policy : Policy) (d : LikeDefinition) : Edit Catalog Unit := fun c =>
  if c.contains d.table then (existing policy d.table d.ifNotExists).run c
  else
    match c.table? d.like with
    | none => (Edit.under policy (.refuse (.unknownTable d.like))).run c
    | some source => ⟨.ok (), c.push d.table (source.ofLike d), []⟩

def alterations (policy : Policy) (c : Catalog) (as : List Alteration) : Edit Table Unit :=
  Edit.forEach (fun a => .under policy (a.edit c)) as

/-- The working copy takes the place of the table in the end. -/
def alterTable (policy : Policy) (table : String) (as : List Alteration) : Edit Catalog Unit := fun c =>
  match c.table? table with
  | none => (Edit.under policy (.refuse (.unknownTable table))).run c
  | some t => c.putIn (c.commit table) ((alterations policy c as).run t)

def dropTable (table : String) (c : Catalog) : Except ReferenceError Catalog :=
  if c.contains table then .ok (c.erase table) else .error (.unknownTable table)

/-- Drops a table; one that is not there may be passed over. -/
def dropTableIf (policy : Policy) (ifExists : Bool) (table : String) : Edit Catalog Unit := fun c =>
  if ifExists && !c.contains table then ⟨.ok (), c, []⟩
  else (Edit.under policy (.quiet (dropTable table))).run c

def renameTable (policy : Policy) (r : String × String) : Edit Catalog Unit :=
  .under policy (.quiet (·.rename r.1 r.2))

def applyStatement (policy : Policy) : Statement → Edit Catalog Unit
  | .createTable d => createTable policy d
  | .createTableLike d => createTableLike policy d
  | .alterTable table alterations => alterTable policy table alterations
  | .dropTable tables ifExists => Edit.forEach (dropTableIf policy ifExists) tables
  | .renameTable renames => Edit.forEach (renameTable policy) renames
  | .createIndex table kind i =>
    .under policy (editTable table (Table.Edits.pushIndex kind i))
  | .dropIndex table i => .under policy (editTable table (Table.Edits.dropIndex i))

def apply (s : Statement) : Edit Catalog Unit := do
  Edit.report (.applying s.kind)
  applyStatement (← Edit.get).policy s

def applyAll (statements : List Statement) : Edit Catalog Unit := Edit.forEach apply statements

end Catalog

end DdlCatalog
