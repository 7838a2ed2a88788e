import DdlCatalog.Sql.Grammar.Alteration

/-!
Statements and scripts.
-/

namespace DdlCatalog.Sql

namespace Parser

def tableBody (table : String) (temporary ifNotExists : Bool) : Parser Statement := do
  let entries ← commaList (keyOr id (do return .column (← columnDefinition)))
  symbol .rightParen
  let entries := entries.filterMap id
  if !entries.any TableEntry.isColumn then fail (.noColumns table)
  return .createTable
    { table := table
      temporary := temporary
      ifNotExists := ifNotExists
      entries := entries
      options := ← tableOptions true }

def ifNotExists : Parser Bool := do
  if ← eatWord "if" then
    keyword "not"
    keyword "exists"
    return true
  return false

def createTableTail (temporary : Bool) : Parser Statement := do
  let ifNotExists ← ifNotExists
  let table ← tableName
  if ← eatWord "like" then
    return .createTableLike ⟨table, ← tableName, temporary, ifNotExists⟩
  symbol .leftParen
  if ← eatWord "like" then
    let like ← tableName
    symbol .rightParen
    return .createTableLike ⟨table, like, temporary, ifNotExists⟩
  tableBody table temporary ifNotExists

/-- The algorithm and lock of a statement on an index, which are read and dropped. -/
def algorithmAndLock : Parser Unit :=
  loop (fun _ t =>
    match t.kind.lowerWord? with
    | some "algorithm" | some "lock" => some (do ignoredValue; return .again ())
    | _ => none) ()

def createIndexTail (kind : IndexKind) : Parser Statement := do
  let name ← identifier
  let method ← usingMethod
  keyword "on"
  let table ← tableName
  let index ← indexTail (some name) method
  algorithmAndLock
  return .createIndex table kind index

def createTail : Parser Statement := do
  if ← eatWord "temporary" then
    keyword "table"
    createTableTail true
  else
    match ← peekWord with
    | some "index" =>
      let _ ← next
      createIndexTail .plain
    | some "unique" =>
      let _ ← next
      keyword "index"
      createIndexTail .unique
    | some "fulltext" =>
      let _ ← next
      keyword "index"
      createIndexTail .fulltext
    | some "spatial" =>
      let _ ← next
      keyword "index"
      createIndexTail .spatial
    | _ =>
      keyword "table"
      createTableTail false

def alterTableTail : Parser Statement := do
  let _ ← eatWord "online"
  let _ ← eatWord "ignore"
  keyword "table"
  let table ← tableName
  return .alterTable table (← alterations)

def ifExists : Parser Bool := do
  if ← eatWord "if" then
    keyword "exists"
    return true
  return false

def tableWord : Parser Unit := do
  if ← eatWord "tables" then return
  keyword "table"

def dropTablesTail : Parser Statement := do
  tableWord
  let ifExists ← ifExists
  let tables ← commaList tableName
  let _ ← eatEither "restrict" "cascade"
  return .dropTable tables ifExists

def dropIndexTail : Parser Statement := do
  let index ← identifier
  keyword "on"
  let table ← tableName
  algorithmAndLock
  return .dropIndex table index

def dropStatementTail : Parser Statement := do
  if ← eatWord "temporary" then dropTablesTail
  else if ← eatWord "index" then dropIndexTail
  else dropTablesTail

def rename : Parser (String × String) := do
  let old ← tableName
  keyword "to"
  return (old, ← tableName)

def renameTablesTail : Parser Statement := do
  tableWord
  return .renameTable (← commaList rename)

def statementTail (t : Token) : Parser Statement :=
  match t.kind.lowerWord? with
  | some "create" => createTail
  | some "alter" => alterTableTail
  | some "drop" => dropStatementTail
  | some "rename" => renameTablesTail
  | _ => fail (unexpected "CREATE, ALTER, DROP, or RENAME" (some t))

/-- A round of reading statements: a semicolon, or a statement and its end. -/
def statementRound (done : List Statement) (t : Token) :
    Option (Parser (Round (List Statement))) :=
  if t.kind = .semicolon then some (return .again done)
  else some do
    let statement ← statementTail t
    let finish ← next
    match finish.map Token.kind with
    | none | some .semicolon => return .again (statement :: done)
    | _ => fail (unexpected "';' or end of input" finish)

def statements : Parser (List Statement) := do
  return (← loop statementRound []).reverse

end Parser

def parse (script : String) : Except ParseError (List Statement) :=
  (Parser.statements.run (tokens script)).map (·.1)

/-- The statements of a script, read from its bytes. -/
def readScript (script : String) : Except Stop (List Statement) :=
  (Parser.statements.read script.toList .start).map (·.1)

end DdlCatalog.Sql
