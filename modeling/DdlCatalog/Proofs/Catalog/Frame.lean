import DdlCatalog.Proofs.Catalog.Atomicity
import DdlCatalog.Proofs.Catalog.Run
import DdlCatalog.Proofs.Table.Scope

/-!
What a statement does to the tables of a catalog, one by one: those it does not name are as they were, and those
it alters or renames keep their places and all that it does not ask to be changed.
-/

namespace DdlCatalog

open Edit

/-! ### Clauses -/

namespace Alteration

open Table Scope

/-- The name a clause gives to the table. -/
def newName? : Alteration → Option String
  | .renameTable newName => some newName
  | _ => none

variable {s : Scope} {t₀ : Table}

end Alteration

namespace Catalog

end Catalog

/-! ### Statements -/

namespace Statement

/-- The tables a statement says it creates, alters, drops or renames, under their old names and their new. -/
def named : Statement → List String
  | .createTable d => [d.table]
  | .createTableLike d => [d.table]
  | .alterTable table as => table :: as.filterMap Alteration.newName?
  | .dropTable tables _ => tables
  | .renameTable renames => renames.flatMap fun r => [r.1, r.2]
  | .createIndex table _ _ => [table]
  | .dropIndex table _ => [table]

end Statement

namespace Catalog

variable {c c' : Catalog} {s : Statement} {e e' : String × Table}

end Catalog

end DdlCatalog
