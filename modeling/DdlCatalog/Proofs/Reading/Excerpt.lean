import DdlCatalog.Proofs.Reading.Cut
import DdlCatalog.Sql.Grammar.Column

/-!
The source of some tokens of a script, from where the first one starts to where the last one ends. On its own it is
read as tokens of the same kinds.
-/

namespace DdlCatalog.Sql

variable {script : String} {text : List Char} {a b c : Cursor} {t first : Token} {more ts : List Token}
  {r rest : Tokens}

/-! ### Places of tokens -/

end DdlCatalog.Sql
