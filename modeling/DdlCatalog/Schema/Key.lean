/-!
Keys and indexes of a table: ordered lists of references to its columns. Primary keys, unique keys
and the three kinds of index have one shape; a foreign key pairs its columns by position with those
of another table.
-/

namespace DdlCatalog

inductive SortOrder
  | ascending
  | descending
  deriving DecidableEq

inductive IndexMethod
  | btree
  | hash
  deriving DecidableEq

/-- The four collections of named indexes of a table. -/
inductive IndexKind
  | plain
  | unique
  | fulltext
  | spatial
  deriving DecidableEq

inductive MatchRule
  | full
  | partialRule
  | simple
  deriving DecidableEq

inductive ReferentialAction
  | restrict
  | cascade
  | setNull
  | noAction
  | setDefault
  deriving DecidableEq

/-- A column in a key, perhaps only the start of its values. -/
structure KeyPart where
  column : String
  length : Option UInt32 := none
  order : Option SortOrder := none
  deriving DecidableEq

structure IndexOptions where
  keyBlockSize : Option UInt64 := none
  parserPlugin : Option String := none
  comment : Option String := none
  visible : Option Bool := none
  deriving DecidableEq

structure Index where
  name : Option String := none
  method : Option IndexMethod := none
  parts : List KeyPart
  options : IndexOptions := {}
  deriving DecidableEq

structure Reference where
  table : String
  parts : List KeyPart
  matchRule : Option MatchRule := none
  onDelete : Option ReferentialAction := none
  onUpdate : Option ReferentialAction := none
  deriving DecidableEq

/-- A foreign key, known in its table by its symbol. -/
structure ForeignKey where
  symbol : Option String := none
  name : Option String := none
  parts : List KeyPart
  reference : Reference
  deriving DecidableEq

namespace KeyPart

def renameColumn (old new : String) (p : KeyPart) : KeyPart :=
  if p.column = old then { p with column := new } else p

def plain (p : KeyPart) : KeyPart := { column := p.column }

end KeyPart

namespace Index

def onColumns (columns : List String) : Index := { parts := columns.map fun c => { column := c } }

def references (i : Index) (column : String) : Bool := i.parts.any (·.column == column)

def dropColumn (i : Index) (column : String) : Index :=
  { i with parts := i.parts.filter (·.column != column) }

def renameColumn (i : Index) (old new : String) : Index :=
  { i with parts := i.parts.map (KeyPart.renameColumn old new) }

def isEmpty (i : Index) : Bool := i.parts.isEmpty

end Index

/-- The columns of a table, whole and in no particular order, to refer to. -/
def Reference.toColumns (table : String) (columns : List String) : Reference :=
  { table := table, parts := columns.map fun c => { column := c } }

def Reference.plain (r : Reference) : Reference := { r with parts := r.parts.map KeyPart.plain }

namespace ForeignKey

def onColumns (columns : List String) (reference : Reference) : ForeignKey :=
  { parts := columns.map fun c => { column := c }, reference := reference }

/-- The columns of both sides without lengths and orders, which a foreign key does not use. -/
def plain (k : ForeignKey) : ForeignKey :=
  { k with parts := k.parts.map KeyPart.plain, reference := k.reference.plain }

def references (k : ForeignKey) (column : String) : Bool := k.parts.any (·.column == column)

/-- The referenced parts whose partner, if they have one, is another column. -/
def partnersWithout (column : String) : List KeyPart → List KeyPart → List KeyPart
  | p :: ps, r :: rs =>
    if p.column = column then partnersWithout column ps rs else r :: partnersWithout column ps rs
  | [], rs => rs
  | _, [] => []

/-- A column leaves a foreign key together with the column it is paired with. -/
def dropColumn (k : ForeignKey) (column : String) : ForeignKey :=
  { k with
    parts := k.parts.filter (·.column != column)
    reference := { k.reference with parts := partnersWithout column k.parts k.reference.parts } }

def renameColumn (k : ForeignKey) (old new : String) : ForeignKey :=
  { k with parts := k.parts.map (KeyPart.renameColumn old new) }

def isEmpty (k : ForeignKey) : Bool := k.parts.isEmpty

end ForeignKey

end DdlCatalog
