import DdlCatalog.Sql.Grammar.Statement
import DdlCatalog.Proofs.Reading.Lexing

/-!
Scripts read from their bytes. Whatever the text is, no byte or slice is out of place, no number is without a
number of the other sign, no parenthesis is closed that is not open, and every loop takes a token in each round but
the last; so the bytes give the statements or the refusal that the tokens give.
-/

namespace DdlCatalog.Sql

theorem agrees_statements (text : List Char) :
    Agrees text (Parser.statements.run (scan (.start text)).1) (Parser.statements.read text .start) :=
  Parser.statements.agrees (Bytes.lexes text) (Reader.at_start text)

/-- A script is read or refused, and there is no fault on the way. -/
theorem readScript_faultless (script : String) :
    readScript script = (parse script).mapError .refused ∧ ∀ f, readScript script ≠ .error (.fault f) := by
  have hagrees := agrees_statements script.toList
  rw [readScript, parse, tokens]
  cases hrun : Parser.statements.run (scan (.start script.toList)).1 with
  | error e =>
      rw [hrun] at hagrees
      rw [hagrees]
      exact ⟨rfl, fun f => by rintro ⟨⟩⟩
  | ok result =>
      rw [hrun] at hagrees
      obtain ⟨b, r, hread, -, -⟩ := hagrees
      rw [hread]
      exact ⟨rfl, fun f => by rintro ⟨⟩⟩

end DdlCatalog.Sql
