import DdlCatalog.Decimal.Layout

/-!
Tokens of a script and what can be wrong with one. Keywords are words: which words are keywords
depends on where they stand.
-/

namespace DdlCatalog.Sql

inductive TokenKind
  | integer (n : Int64)
  | real (x : Float)
  | string (s : String)
  | hex (digits : String)
  | bit (digits : String)
  | word (s : String)
  | quoted (s : String)
  | leftParen
  | rightParen
  | comma
  | semicolon
  | equals
  | minus
  | plus
  | dot
  | operator (c : Char)
  deriving DecidableEq

/-- A token, its place in the script, the characters it is written with and the blanks and
comments before it. -/
structure Token where
  kind : TokenKind
  offset : Nat
  text : List Char
  gap : List Char
  deriving DecidableEq

inductive LexError
  | unexpectedChar (c : Char) (offset : Nat)
  | unterminatedString (offset : Nat)
  | unterminatedIdentifier (offset : Nat)
  | unterminatedComment (offset : Nat)
  | invalidDigit (c : Char) (offset : Nat)
  | invalidNumber (text : String) (offset : Nat)
  deriving DecidableEq

def LexError.message : LexError → String
  | .unexpectedChar c n => s!"Unexpected character '{c}' at position {n}"
  | .unterminatedString n => s!"Unterminated string literal starting at position {n}"
  | .unterminatedIdentifier n => s!"Unterminated quoted identifier starting at position {n}"
  | .unterminatedComment n => s!"Unterminated comment starting at position {n}"
  | .invalidDigit c n => s!"Invalid digit '{c}' at position {n}"
  | .invalidNumber text n => s!"Invalid number '{text}' at position {n}"

/-- The word in lower case, if the token is a word. Only ASCII letters have cases. -/
def TokenKind.lowerWord? : TokenKind → Option String
  | .word s => some s.toLower
  | _ => none

def TokenKind.isWord (kind : TokenKind) (keyword : String) : Bool :=
  match kind with
  | .word s => s.toLower == keyword.toLower
  | _ => false

/-- In messages, floats are positional from 1e-4 up to 1e16. -/
def floatLayout : Decimal.Layout :=
  { least := -4, greatest := 15, exponentSign := "", tie := .up, infinity := "inf", nan := "NaN" }

end DdlCatalog.Sql
