import DdlCatalog.Sql.Token
import DdlCatalog.Text.Hidden

/-!
Why a script is refused, and how a token is shown in the reason.
-/

namespace DdlCatalog.Sql

inductive ParseError
  | lexical (error : LexError)
  | unexpectedToken (found : TokenKind) (offset : Nat) (expected : String)
  | unexpectedEnd (expected : String)
  | unknownType (name : String) (offset : Nat)
  | precisionOutOfRange (name : String) (offset : Nat)
  | noColumns (table : String)
  deriving DecidableEq

/-- A character as messages show it. -/
def shownChar (quote c : Char) : List Char :=
  if c = quote || c = '\\' then ['\\', c]
  else if c = '\x00' then ['\\', '0']
  else if c = '\t' then ['\\', 't']
  else if c = '\n' then ['\\', 'n']
  else if c = '\r' then ['\\', 'r']
  else if Text.isHidden c then
    ['\\', 'u', '\x7b'] ++ Nat.toDigits 16 c.toNat ++ ['\x7d']
  else [c]

def shownString (s : String) : String :=
  String.ofList ('"' :: (s.toList.flatMap (shownChar '"') ++ ['"']))

def TokenKind.shown : TokenKind → String
  | .integer n => "IntegerLiteral(" ++ toString n.toInt ++ ")"
  | .real x => "RealLiteral(" ++ floatLayout.render x ++ ")"
  | .string s => "StringLiteral(" ++ shownString s ++ ")"
  | .hex digits => "HexLiteral(" ++ shownString digits ++ ")"
  | .bit digits => "BitLiteral(" ++ shownString digits ++ ")"
  | .word s => "Word(" ++ shownString s ++ ")"
  | .quoted s => "QuotedIdentifier(" ++ shownString s ++ ")"
  | .leftParen => "LParen"
  | .rightParen => "RParen"
  | .comma => "Comma"
  | .semicolon => "Semicolon"
  | .equals => "Equals"
  | .minus => "Minus"
  | .plus => "Plus"
  | .dot => "Dot"
  | .operator c => "Operator(" ++ String.ofList ('\'' :: (shownChar '\'' c ++ ['\''])) ++ ")"

def ParseError.message : ParseError → String
  | .lexical e => "Lexer error: " ++ e.message
  | .unexpectedToken found offset expected =>
    s!"Unexpected token {found.shown} at position {offset}, expected {expected}"
  | .unexpectedEnd expected => s!"Unexpected end of input, expected {expected}"
  | .unknownType name offset => s!"Unknown data type '{name}' at position {offset}"
  | .precisionOutOfRange name offset => s!"Precision out of range for '{name}' at position {offset}"
  | .noColumns table => s!"No column definitions in CREATE TABLE {table}"

end DdlCatalog.Sql
