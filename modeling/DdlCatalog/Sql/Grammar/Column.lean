import DdlCatalog.Sql.Grammar.Key

/-!
Column definitions: types, default values and the other attributes.
-/

namespace DdlCatalog.Sql.Parser

/-! ### Types -/

/-- The greatest number of digits in all and after the point of a type with that many arguments. -/
def precisionLimits (name : TypeName) (arguments : Nat) : Option (UInt64 × UInt64) :=
  match name, arguments with
  | .decimal, _ => some (65, 30)
  | .float, 1 => some (53, 0)
  | .float, _ | .double, _ => some (255, 30)
  | _, _ => none

def exceedsPrecision (name : TypeName) (arguments : List UInt64) : Bool :=
  match precisionLimits name arguments.length with
  | none => false
  | some (digits, decimals) =>
    arguments.head?.any (digits < ·) || arguments[1]?.any (decimals < ·)

/-- The type that a word, and perhaps the words after it, name. -/
def typeName? (word : String) : Parser (Option TypeName) := do
  match word.toLower with
  | "double" =>
    let _ ← eatWord "precision"
    return some .double
  | "character" | "char" =>
    if ← eatWord "varying" then return some .varchar
    return TypeName.ofWord? word
  | "national" =>
    let inner ← identifier
    if inner.toLower == "char" || inner.toLower == "character" then
      if ← eatWord "varying" then return some .varchar
    return TypeName.ofWord? inner
  | "long" =>
    if ← eatWord "varbinary" then return some .mediumblob
    let _ ← eatWord "varchar"
    return some .mediumtext
  | _ => return TypeName.ofWord? word

/-- The values or numbers in parentheses after the name of a type. -/
def typeArguments (word : String) (offset : Nat) (name : TypeName) : Parser TypeSpec := do
  if name = .enum ∨ name = .set then
    return { name := name, values := ← parenthesized stringLiteral }
  if ← eatSymbol .leftParen then
    let arguments ← commaList unsignedInteger
    symbol .rightParen
    if exceedsPrecision name arguments then fail (.precisionOutOfRange word offset)
    return { name := name, arguments := arguments }
  return { name := name }

/-- The modifier of a type that a token is. A textual type may be marked binary, to no effect. -/
def typeModifier (s : TypeSpec) (t : Token) : Option (Parser (Round TypeSpec)) :=
  match t.kind.lowerWord? with
  | some "unsigned" => some (return .again { s with unsigned := true })
  | some "zerofill" => some (return .again { s with zerofill := true, unsigned := true })
  | some "signed" => some (return .again { s with unsigned := false })
  | some "binary" => if s.name.isTextual then some (return .again s) else none
  | _ => none

/-- A type and the attributes it brings along: a serial column is an unsigned bigint that is not
null, unique and numbered. -/
def typeSpec : Parser (TypeSpec × ColumnAttributes) := do
  let t? ← next
  match t? with
  | some ⟨.word word, offset, _, _⟩ =>
    if word.toLower == "serial" then
      return ({ name := .bigint, unsigned := true },
        { nullable := some false, autoIncrement := true, unique := true })
    match ← typeName? word with
    | none => fail (.unknownType word offset)
    | some name => return (← loop typeModifier (← typeArguments word offset name), {})
  | _ => fail (unexpected "data type" t?)

/-! ### Values and expressions -/

def verbatim (first : Token) (more : List Token) : String :=
  String.ofList (first.text ++ more.flatMap fun t => t.gap ++ t.text)

/-- The tokens of an expression, as they are written one after another. -/
def expressionTokens : Parser String := do
  let first? ← next
  let refuse := fail (unexpected "expression" first?)
  match first? with
  | none => refuse
  | some first =>
    match first.kind with
    | .leftParen => return verbatim first (← balanced)
    | .word _ =>
      match ← peek with
      | some t =>
        if t.kind = .leftParen then
          let _ ← next
          return verbatim first (t :: (← balanced))
        return verbatim first []
      | none => return verbatim first []
    | .string s => return s
    | .rightParen | .comma | .semicolon => refuse
    | _ => return verbatim first []

/-- What follows an opening parenthesis is passed over, up to the place after the one that closes it. -/
def closing : Reading Nat := do
  let _ ← .balanced
  .position

/-- The place after an expression, given the kind of its first token and the place after that one. -/
def expressionEnd (kind : TokenKind) (stop : Nat) : Reading Nat := do
  match kind with
  | .leftParen => closing
  | .word _ =>
    match (← .peek).map Token.kind with
    | some .leftParen =>
      let _ ← .next
      closing
    | _ => return stop
  | _ => return stop

def sourceText (start stop : Nat) : Reading String := do
  return String.ofList (← .source start stop)

/-- The text between the start of an expression and its end, given its first token and the place after that one. -/
def readExpressionFrom (first : Token) (stop : Nat) : Reading String := do
  match first.kind with
  | .string s => return s
  | .rightParen | .comma | .semicolon => .refuse (unexpected "expression" first)
  | kind => sourceText first.offset (← expressionEnd kind stop)

def readExpression : Reading String := do
  match ← .next with
  | none => .refuse (unexpected "expression" none)
  | some first => readExpressionFrom first (← .position)

section Expressions

variable {text : List Char} {a b c d : Cursor} {r : Reader} {first : Token} {before : List Token}

theorem takes_closing (hlexes : Bytes.Lexes text) (h : r.At text a) :
    Takes text a (fun _ b => b.offset) (balancedRun 0 (scan a).1) (closing text r) := by
  refine Takes.map (takes_balanced hlexes h) fun inner b r' hposition => ?_
  rw [← hposition]
  rfl

/-- The source of an expression is what its tokens say. -/
theorem agrees_sourceText {more : List Token} (hplaced : Bytes.Placed text a.offset a.rest)
    (hfirst : a.next = (.ok (some first), b)) (hmoves : b.Moves more c) (h : r.At text d) :
    Agrees text (.ok (verbatim first more, (scan d).1)) (sourceText first.offset c.offset text r) := by
  rw [sourceText, Reading.bind_apply, Reading.source, hmoves.slice_eq hplaced hfirst]
  exact ⟨d, r, rfl, h, rfl⟩

theorem agrees_closing (hlexes : Bytes.Lexes text) (hplaced : Bytes.Placed text a.offset a.rest)
    (hfirst : a.next = (.ok (some first), b)) (hmoves : b.Moves before c) (h : r.At text c) :
    Agrees text ((balanced >>= fun inner => pure (verbatim first (before ++ inner))).run (scan c).1)
      ((closing >>= sourceText first.offset) text r) := by
  have hrun : balanced.run (scan c).1 = balancedRun 0 (scan c).1 := rfl
  rw [run_bind, hrun]
  refine Takes.bind (takes_closing hlexes h) (fun e he => by rw [he]) fun inner d r' hinner hat _ hinside => ?_
  rw [hinner]
  exact agrees_sourceText hplaced hfirst (hmoves.trans hinside) hat

/-- A word may be followed by what it is called with. -/
theorem agrees_call {w : String} (hlexes : Bytes.Lexes text) (hplaced : Bytes.Placed text a.offset a.rest)
    (hfirst : a.next = (.ok (some first), b)) (h : r.At text b) :
    Agrees text
      ((do
        match ← peek with
        | some t =>
          if t.kind = .leftParen then
            let _ ← next
            return verbatim first (t :: (← balanced))
          return verbatim first []
        | none => return verbatim first [] : Parser String).run (scan b).1)
      ((expressionEnd (.word w) b.offset >>= sourceText first.offset) text r) := by
  rw [Reading.bind_apply, expressionEnd, Reading.bind_apply]
  rcases b.next_cases with ⟨c, hnext, hscan, -⟩ | ⟨e, c, hnext, hscan⟩ | ⟨t, c, hnext, hscan⟩
  · rw [h.peek_eq hlexes hnext, hscan]
    have hone := agrees_sourceText hplaced hfirst (.refl b) (h.looked hnext)
    rwa [hscan] at hone
  · rw [Reading.peek, h.ahead_eq hlexes, hnext, hscan]
    rfl
  · have hone := agrees_sourceText hplaced hfirst (.refl b) (h.looked hnext)
    have hmore := agrees_closing hlexes hplaced hfirst (.step hnext (.refl c)) ((h.looked hnext).moved hnext)
    rw [Reading.bind_apply] at hmore
    rw [hscan] at hone
    rw [h.peek_eq hlexes hnext, hscan]
    obtain ⟨kind, offset, spelled, gap⟩ := t
    cases kind with
    | leftParen =>
        dsimp only [Option.map_some]
        rw [Reading.bind_apply, (h.looked hnext).next_eq hlexes hnext]
        exact hmore
    | _ => exact hone

theorem agrees_readExpression (hlexes : Bytes.Lexes text) (h : r.At text a) :
    Agrees text (expressionTokens.run (scan a).1) (readExpression text r) := by
  refine agrees_next_bind hlexes h (fun b r' hat => .refuse _) fun first b hnext => ?_
  have hmoved : Reader.At text b ⟨b.offset, none, r.taken + 1⟩ := h.moved hnext
  have hone := agrees_sourceText h.placed hnext (.refl b) hmoved
  change Agrees text _ (readExpressionFrom first b.offset text _)
  rw [readExpressionFrom]
  obtain ⟨kind, offset, spelled, gap⟩ := first
  cases kind with
  | leftParen =>
      have hclosed := agrees_closing hlexes h.placed hnext (.refl b) hmoved
      dsimp only [List.nil_append] at hclosed
      exact hclosed
  | word w => exact agrees_call hlexes h.placed hnext hmoved
  | string s => exact .pure s hmoved
  | rightParen => exact .refuse _
  | comma => exact .refuse _
  | semicolon => exact .refuse _
  | _ => exact hone

end Expressions

/-- A parenthesized expression, a function call or a single token, as it is written; of a string,
its value. -/
def expressionText : Parser String :=
  expressionTokens.reread readExpression agrees_readExpression

def signedTokens (negative : Bool) : Parser DefaultValue :=
  expect "number after sign" fun
    | .integer n => some (.integer (if negative then -n else n))
    | .real x => some (.real (if negative then -x else x))
    | _ => none

def readSigned (negative : Bool) : Reading DefaultValue := do
  let number? ← .next
  match number?.map Token.kind with
  | some (.integer n) => return .integer (← if negative then .negate n else pure n)
  | some (.real x) => return .real (if negative then -x else x)
  | _ => .refuse (unexpected "number after sign" number?)

/-- A number is not the least one, so there is one with the other sign. -/
theorem agrees_readSigned (negative : Bool) {text : List Char} {a : Cursor} {r : Reader} (hlexes : Bytes.Lexes text)
    (h : r.At text a) : Agrees text ((signedTokens negative).run (scan a).1) (readSigned negative text r) := by
  refine agrees_next_bind hlexes h (fun b r' hat => .refuse _) fun t b hnext => ?_
  have hmoved := h.moved hnext
  have hleast (n : Int64) (hn : t.kind = .integer n) : n ≠ Int64.minValue := by
    rintro rfl
    exact absurd (hlexes.nonneg hnext hn) (by decide)
  obtain ⟨kind, offset, spelled, gap⟩ := t
  cases kind with
  | integer n =>
      have hnegate : Reading.negate n = pure (-n) := if_neg (hleast n rfl)
      dsimp only [Option.map_some]
      rw [hnegate]
      cases negative <;> exact .pure _ hmoved
  | real x => exact .pure _ hmoved
  | _ => exact .refuse _

def signedNumber (negative : Bool) : Parser DefaultValue :=
  (signedTokens negative).reread (readSigned negative) (agrees_readSigned negative)

def literal? : TokenKind → Option DefaultValue
  | .word s =>
    match s.toLower with
    | "null" => some .null
    | "true" => some (.bool true)
    | "false" => some (.bool false)
    | _ => none
  | .string s => some (.text s)
  | .integer n => some (.integer n)
  | .real x => some (.real x)
  | .hex digits => some (.text ("0x" ++ digits))
  | .bit digits => some (.text ("b'" ++ digits ++ "'"))
  | _ => none

def defaultValue : Parser DefaultValue := do
  let t? ← peek
  match t?.bind fun t => literal? t.kind with
  | some value =>
    let _ ← next
    return value
  | none =>
    match t?.map Token.kind with
    | some (.word _) | some .leftParen => return .text (← expressionText)
    | some .minus =>
      let _ ← next
      signedNumber true
    | some .plus =>
      let _ ← next
      signedNumber false
    | _ => fail (unexpected "default value" t?)

/-! ### Attributes -/

/-- What follows the word CHECK. Checks are read and dropped. -/
def checkTail : Parser Unit := do
  symbol .leftParen
  let _ ← balanced
  let _ ← eatWord "not"
  let _ ← eatWord "enforced"

def constraintSymbol : Parser (Option String) := do
  match ← peekWord with
  | some "primary" | some "unique" | some "foreign" | some "check" => return none
  | _ => return some (← identifier)

/-- The expression of a generated column, which is read and dropped. -/
def generatedTail : Parser Unit := do
  symbol .leftParen
  let _ ← balanced
  let _ ← eatEither "virtual" "stored"

def columnAttribute (a : ColumnAttributes) (t : Token) :
    Option (Parser (Round ColumnAttributes)) :=
  match t.kind.lowerWord? with
  | some "not" => some do
    keyword "null"
    return .again { a with nullable := some false }
  | some "null" => some (return .again { a with nullable := some true })
  | some "default" => some do
    let value ← defaultValue
    return .again { a with default := some value }
  | some "on" => some do
    keyword "update"
    let text ← expressionText
    return .again { a with onUpdate := some text }
  | some "auto_increment" => some (return .again { a with autoIncrement := true })
  | some "unique" => some do
    let _ ← eatWord "key"
    return .again { a with unique := true }
  | some "primary" => some do
    keyword "key"
    return .again { a with primaryKey := true }
  | some "key" => some (return .again { a with primaryKey := true })
  | some "comment" => some do
    let text ← stringLiteral
    return .again { a with comment := some text }
  | some "character" => some do
    keyword "set"
    let charset ← name
    return .again { a with charset := some charset }
  | some "charset" => some do
    let charset ← name
    return .again { a with charset := some charset }
  | some "collate" => some do
    let collation ← name
    return .again { a with collation := some collation }
  | some "column_format" => some do
    let format ← identifier
    return .again { a with format := some format.toUpper }
  | some "storage" => some do
    let storage ← identifier
    return .again { a with storage := some storage.toUpper }
  | some "invisible" => some (return .again { a with invisible := true })
  | some "visible" => some (return .again { a with invisible := false })
  | some "references" => some do
    let target ← reference
    return .again { a with reference := some target }
  | some "constraint" => some do
    let _ ← constraintSymbol
    keyword "check"
    checkTail
    return .again a
  | some "check" => some do
    checkTail
    return .again a
  | some "generated" => some do
    keyword "always"
    keyword "as"
    generatedTail
    return .again a
  | some "as" => some do
    generatedTail
    return .again a
  | some "srid" => some do
    let _ ← unsignedInteger
    return .again a
  | _ => none

def columnDefinition : Parser ColumnDefinition := do
  let name ← identifier
  let (type, attributes) ← typeSpec
  return { name := name, type := type, attributes := ← loop columnAttribute attributes }

end DdlCatalog.Sql.Parser
