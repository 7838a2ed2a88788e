import DdlCatalog.Schema.Definition
import DdlCatalog.Sql.Parser

/-!
Key parts, indexes and references.
-/

namespace DdlCatalog.Sql.Parser

def sortOrder : Parser (Option SortOrder) := do
  if ← eatWord "asc" then return some .ascending
  if ← eatWord "desc" then return some .descending
  return none

def partLength : Parser (Option UInt32) := do
  if ← eatSymbol .leftParen then
    let length ← startLength
    symbol .rightParen
    return some length
  return none

def keyPart : Parser KeyPart := do
  return { column := ← identifier, length := ← partLength, order := ← sortOrder }

def keyParts : Parser (List KeyPart) := parenthesized keyPart

def indexMethod : Parser IndexMethod := do
  if ← eatWord "btree" then return .btree
  if ← eatWord "hash" then return .hash
  fail (unexpected "BTREE or HASH" (← next))

def usingMethod : Parser (Option IndexMethod) := do
  if ← eatWord "using" then return some (← indexMethod)
  return none

/-- The name of an index, unless the next token cannot be one. -/
def indexName? : Parser (Option String) := do
  match (← peek).map Token.kind with
  | some (.word s) => if s.toLower == "using" then return none else return some (← identifier)
  | some (.quoted _) => return some (← identifier)
  | _ => return none

def indexOption (i : Index) (t : Token) : Option (Parser (Round Index)) :=
  match t.kind.lowerWord? with
  | some "key_block_size" => some do
    let _ ← eatSymbol .equals
    let n ← unsignedInteger
    return .again { i with options := { i.options with keyBlockSize := some n } }
  | some "using" => some do
    let method ← indexMethod
    return .again { i with method := some method }
  | some "with" => some do
    keyword "parser"
    let plugin ← identifier
    return .again { i with options := { i.options with parserPlugin := some plugin } }
  | some "comment" => some do
    let comment ← stringLiteral
    return .again { i with options := { i.options with comment := some comment } }
  | some "visible" =>
    some (return .again { i with options := { i.options with visible := some true } })
  | some "invisible" =>
    some (return .again { i with options := { i.options with visible := some false } })
  | _ => none

def indexTail (name : Option String) (method : Option IndexMethod) : Parser Index := do
  loop indexOption { name := name, method := method, parts := ← keyParts }

/-- An index from its name on. The symbol of its constraint is its name if it has no other. -/
def index (symbol : Option String) : Parser Index := do
  let name ← indexName?
  let method ← usingMethod
  indexTail (name.or symbol) method

def matchRule : Parser MatchRule := do
  let t ← next
  match t.bind fun t => t.kind.lowerWord? with
  | some "full" => return .full
  | some "partial" => return .partialRule
  | some "simple" => return .simple
  | _ => fail (unexpected "FULL, PARTIAL, or SIMPLE" t)

def referentialAction : Parser ReferentialAction := do
  if ← eatWord "restrict" then return .restrict
  if ← eatWord "cascade" then return .cascade
  if ← eatWord "set" then
    if ← eatWord "null" then return .setNull
    keyword "default"
    return .setDefault
  if ← eatWord "no" then
    keyword "action"
    return .noAction
  fail (unexpected "RESTRICT, CASCADE, SET NULL, NO ACTION, or SET DEFAULT" (← next))

def referenceClause (r : Reference) (t : Token) : Option (Parser (Round Reference)) :=
  match t.kind.lowerWord? with
  | some "match" => some do
    let rule ← matchRule
    return .again { r with matchRule := some rule }
  | some "on" => some do
    if ← eatWord "delete" then
      let action ← referentialAction
      return .again { r with onDelete := some action }
    keyword "update"
    let action ← referentialAction
    return .again { r with onUpdate := some action }
  | _ => none

def reference : Parser Reference := do
  let table ← tableName
  let parts ← keyParts
  loop referenceClause { table := table, parts := parts }

def foreignKey (symbol : Option String) : Parser ForeignKey := do
  let name ← indexName?
  let parts ← keyParts
  keyword "references"
  let reference ← reference
  return { symbol := symbol, name := name, parts := parts, reference := reference }

end DdlCatalog.Sql.Parser
