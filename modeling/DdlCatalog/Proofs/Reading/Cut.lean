import DdlCatalog.Proofs.Reading.Numerals
import DdlCatalog.Proofs.Reading.Spacing
import DdlCatalog.Proofs.Reading.Words

/-!
A text cut off behind a token. Nothing behind a token is needed to read it, so the tokens before the cut are those
of the whole text.
-/

namespace DdlCatalog.Sql

variable {x y z : List Char} {offset : Nat} {l : Lexeme}

/-- The lexeme with what is left of the rest. -/
def Lexeme.leaving (l : Lexeme) (rest : List Char) : Lexeme := { l with rest := rest }

section Numbers

variable {whole fraction : List Char} {exponent : ExponentText}

end Numbers

section Quoted

variable {quote : Char} {value text : List Char}

end Quoted

variable {a b : Cursor} {t : Token} {ts : List Token}

end DdlCatalog.Sql
