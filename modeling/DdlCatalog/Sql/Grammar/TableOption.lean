import DdlCatalog.Sql.Grammar.Column

/-!
Table options, one after another, with or without commas between them.
-/

namespace DdlCatalog.Sql.Parser

/-- What follows the name of an option, after an equals sign that may be left out. -/
def optionValue {α : Type} (value : Parser α) : Parser α := do
  let _ ← eatSymbol .equals
  value

def characterSet : Parser Unit := do
  if ← eatWord "charset" then return
  keyword "character"
  keyword "set"

def encryption : Parser Bool := do
  let t? ← next
  match t?.map Token.kind with
  | some (.string s) =>
    if s.toLower == "y" then return true
    if s.toLower == "n" then return false
    fail (unexpected "'Y' or 'N'" t?)
  | _ => fail (unexpected "'Y' or 'N'" t?)

def packKeys : Parser String := do
  let t? ← next
  match t?.map Token.kind with
  | some (.integer n) =>
    if n = 0 then return "0"
    if n = 1 then return "1"
    fail (unexpected "0, 1, or DEFAULT" t?)
  | some (.word s) =>
    if s.toLower == "default" then return "DEFAULT"
    fail (unexpected "0, 1, or DEFAULT" t?)
  | _ => fail (unexpected "0, 1, or DEFAULT" t?)

def tablespace : Parser String := do
  let space ← name
  if ← eatWord "storage" then
    let _ ← identifier
  return space

/-- What follows the first word of an option; none for the options that are read and dropped. -/
def tableOption? (t : Token) : Option (Parser (Option TableOption)) :=
  match t.kind.lowerWord? with
  | some "stats_persistent" | some "stats_auto_recalc" | some "stats_sample_pages" => some do
    let _ ← eatSymbol .equals
    let _ ← next
    return none
  | some "engine" => some (return some (.engine (← optionValue name)))
  | some "auto_increment" => some (return some (.autoIncrement (← optionValue unsignedInteger)))
  | some "avg_row_length" => some (return some (.avgRowLength (← optionValue unsignedInteger)))
  | some "default" => some do
    if ← eatWord "collate" then return some (.collation (← optionValue name))
    characterSet
    return some (.charset (← optionValue name))
  | some "character" => some do
    keyword "set"
    return some (.charset (← optionValue name))
  | some "charset" => some (return some (.charset (← optionValue name)))
  | some "checksum" => some (return some (.checksum (← optionValue flag)))
  | some "collate" => some (return some (.collation (← optionValue name)))
  | some "comment" => some (return some (.comment (← optionValue stringLiteral)))
  | some "compression" => some (return some (.compression (← optionValue stringLiteral)))
  | some "connection" => some (return some (.connection (← optionValue stringLiteral)))
  | some "data" => some do
    keyword "directory"
    return some (.dataDirectory (← optionValue stringLiteral))
  | some "index" => some do
    keyword "directory"
    return some (.indexDirectory (← optionValue stringLiteral))
  | some "delay_key_write" => some (return some (.delayKeyWrite (← optionValue flag)))
  | some "encryption" => some (return some (.encryption (← optionValue encryption)))
  | some "insert_method" => some do
    let method ← optionValue identifier
    return some (.insertMethod method.toUpper)
  | some "key_block_size" => some (return some (.keyBlockSize (← optionValue unsignedInteger)))
  | some "max_rows" => some (return some (.maxRows (← optionValue unsignedInteger)))
  | some "min_rows" => some (return some (.minRows (← optionValue unsignedInteger)))
  | some "pack_keys" => some (return some (.packKeys (← optionValue packKeys)))
  | some "password" => some (return some (.password (← optionValue stringLiteral)))
  | some "row_format" => some do
    let format ← optionValue identifier
    return some (.rowFormat format.toUpper)
  | some "tablespace" => some (return some (.tablespace (← optionValue tablespace)))
  | some "union" => some (return some (.union (← optionValue (parenthesized tableName))))
  | _ => none

/-- A round of reading options: `done` are those read so far, the last one first. A comma may stand
before any option but the first; a comma that no option follows is taken all the same. -/
def optionRound (commas : Bool) (done : List TableOption) (t : Token) :
    Option (Parser (Round (List TableOption))) :=
  if commas && !done.isEmpty && t.kind = .comma then
    some do
      match (← peek).bind tableOption? with
      | none => return .stop done
      | some option =>
        let _ ← next
        return .again ((← option).toList ++ done)
  else (tableOption? t).map fun option => return .again ((← option).toList ++ done)

def tableOptions (commas : Bool) : Parser (List TableOption) := do
  return (← loop (optionRound commas) []).reverse

end DdlCatalog.Sql.Parser
