import DdlCatalog.Catalog
import DdlCatalog.Encoding.Statement
import DdlCatalog.Encoding.Table
import DdlCatalog.Json.Text
import DdlCatalog.Sql.Grammar.Statement

/-!
Catalogs from scripts and JSON texts. A text that cannot be read changes nothing.
-/

namespace DdlCatalog.Catalog

inductive ScriptError
  | parse (error : Sql.ParseError)
  | undecodable
  | reference (error : ReferenceError)
  deriving DecidableEq

/-- What applying a text leaves: its result, the catalog and what was reported. -/
structure Report where
  result : Except ScriptError Unit
  catalog : Catalog
  events : List Event

def applied (c : Catalog) (statements : List Statement) : Report :=
  let o := (applyAll statements).run c
  ⟨o.result.mapError .reference, o.state, o.events⟩

def feed (c : Catalog) (script : String) : Report :=
  match Sql.parse script with
  | .error e => ⟨.error (.parse e), c, []⟩
  | .ok statements => c.applied statements

def feedJson (c : Catalog) (text : String) : Report :=
  match (Json.parse? text).bind Statement.listOfJson? with
  | none => ⟨.error .undecodable, c, []⟩
  | some statements => c.applied statements

/-- The catalog of a script, under the lenient policy. -/
def ofScript (script : String) : Except ScriptError Catalog :=
  let r := (empty .lenient).feed script
  r.result.map fun _ => r.catalog

def toJson (c : Catalog) : Json := Json.ofList Table.toJson c.tables

def compact (c : Catalog) : String := c.toJson.render

/-- Registers valid tables, up to the first that is invalid or whose name is taken. -/
def insertAll (c : Catalog) : List Table → Except ReferenceError Catalog
  | [] => .ok c
  | t :: r => do
    t.validate
    insertAll (← c.insert t) r

/-- The catalog of a JSON text, under the lenient policy. -/
def ofCompact (text : String) : Except DecodeError Catalog :=
  match (Json.parse? text).bind (Json.list? Table.ofJson?) with
  | none => .error .undecodable
  | some tables => (insertAll (empty .lenient) tables).mapError .invalid

end DdlCatalog.Catalog
