import DdlCatalog.Sql.Grammar.TableOption

/-!
The clauses of a statement that alters a table. Clauses without effect on the structure of the
table are read and dropped.
-/

namespace DdlCatalog.Sql.Parser

/-- The entry of a table that a word starts: the kind of key, and what follows the word. -/
def keyEntryTail? (symbol : Option String) (word : String) : Option (Parser TableEntry) :=
  match word, symbol with
  | "primary", _ => some do
    keyword "key"
    return .primaryKey (← index symbol)
  | "unique", _ => some do
    let _ ← eatEither "index" "key"
    return .index .unique (← index symbol)
  | "foreign", _ => some do
    keyword "key"
    return .foreignKey (← foreignKey symbol)
  | "index", none | "key", none => some (return .index .plain (← index none))
  | "fulltext", none => some do
    let _ ← eatEither "index" "key"
    return .index .fulltext (← index none)
  | "spatial", none => some do
    let _ ← eatEither "index" "key"
    return .index .spatial (← index none)
  | _, _ => none

/-- The symbol of a constraint, if one is declared here. -/
def constraint? : Parser (Option String) := do
  if ← eatWord "constraint" then constraintSymbol else return none

/-- A key, or what `column` reads where no key starts. Checks give nothing. -/
def keyOr {α : Type} (key : TableEntry → α) (column : Parser α) : Parser (Option α) := do
  let symbol ← constraint?
  let word ← peekWord
  if word == some "check" then
    let _ ← next
    checkTail
    return none
  match word.bind (keyEntryTail? symbol) with
  | some entry =>
    let _ ← next
    return some (key (← entry))
  | none =>
    if symbol.isSome then
      fail (unexpected "PRIMARY KEY, UNIQUE, FOREIGN KEY, or CHECK" (← next))
    return some (← column)

def placement? : Parser (Option Placement) := do
  if ← eatWord "first" then return some .first
  if ← eatWord "after" then return some (.after (← identifier))
  return none

def addedColumns : Parser Alteration := do
  if ← eatSymbol .leftParen then
    let columns ← commaList columnDefinition
    symbol .rightParen
    return .addColumns columns
  let column ← columnDefinition
  return .addColumn column (← placement?)

def alterationOfEntry : TableEntry → Alteration
  | .column definition => .addColumn definition none
  | .primaryKey key => .addPrimaryKey key
  | .foreignKey key => .addForeignKey key
  | .index kind index => .addIndex kind index

def addTail : Parser (Option Alteration) := do
  if ← eatWord "column" then return some (← addedColumns)
  keyOr alterationOfEntry addedColumns

def alterTail : Parser (Option Alteration) := do
  let _ ← eatWord "column"
  let column ← identifier
  if ← eatWord "set" then
    if ← eatEither "visible" "invisible" then return none
    keyword "default"
    return some (.setDefault column (← defaultValue))
  keyword "drop"
  keyword "default"
  return some (.dropDefault column)

def changeTail : Parser (Option Alteration) := do
  let _ ← eatWord "column"
  let column ← identifier
  let definition ← columnDefinition
  return some (.changeColumn column definition (← placement?))

def modifyTail : Parser (Option Alteration) := do
  let _ ← eatWord "column"
  let definition ← columnDefinition
  return some (.modifyColumn definition (← placement?))

def dropTail : Parser (Option Alteration) := do
  if ← eatWord "primary" then
    keyword "key"
    return some .dropPrimaryKey
  if ← eatWord "foreign" then
    keyword "key"
    return some (.dropForeignKey (← identifier))
  if ← eatEither "index" "key" then return some (.dropIndex (← identifier))
  if ← eatEither "check" "constraint" then
    let _ ← identifier
    return none
  let _ ← eatWord "column"
  return some (.dropColumn (← identifier))

def renameTail : Parser (Option Alteration) := do
  if ← eatWord "column" then
    let column ← identifier
    keyword "to"
    return some (.renameColumn column (← identifier))
  if ← eatEither "index" "key" then
    let index ← identifier
    keyword "to"
    return some (.renameIndex index (← identifier))
  let _ ← eatEither "to" "as"
  return some (.renameTable (← tableName))

def convertTail : Parser (Option Alteration) := do
  keyword "to"
  characterSet
  let charset ← name
  if ← eatWord "collate" then
    return some (.setOptions [.charset charset, .collation (← name)])
  return some (.setOptions [.charset charset])

/-- The value of an option that has no effect on the structure of a table. -/
def ignoredValue : Parser Unit := do
  let _ ← optionValue identifier

def clauseTail? : String → Option (Parser (Option Alteration))
  | "add" => some addTail
  | "alter" => some alterTail
  | "change" => some changeTail
  | "modify" => some modifyTail
  | "drop" => some dropTail
  | "rename" => some renameTail
  | "convert" => some convertTail
  | "algorithm" | "lock" => some (do ignoredValue; return none)
  | "force" => some (return none)
  | _ => none

def alteration? : Parser (Option Alteration) := do
  match (← peekWord).bind clauseTail? with
  | some clause =>
    let _ ← next
    clause
  | none =>
    let options ← tableOptions false
    if options.isEmpty then fail (unexpected "alter specification" (← next))
    return some (.setOptions options)

def alterations : Parser (List Alteration) := do
  return (← commaList alteration?).filterMap id

end DdlCatalog.Sql.Parser
