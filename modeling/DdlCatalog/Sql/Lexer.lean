import DdlCatalog.Decimal.Reading
import DdlCatalog.Sql.Token

/-!
From the characters of a script to its tokens. A lexeme is a token without its place; `next` reads
one token from a cursor, and a token with the gap before it is exactly what the cursor moves over.
-/

namespace DdlCatalog.Sql

/-- The number of bytes a text takes in UTF-8, which is what offsets count. -/
def byteLength (cs : List Char) : Nat := cs.foldl (fun n c => n + c.utf8Size) 0

theorem foldl_utf8Size (cs : List Char) (n : Nat) : cs.foldl (fun n c => n + c.utf8Size) n = n + byteLength cs := by
  induction cs generalizing n with
  | nil => rfl
  | cons c cs ih =>
      rw [byteLength, List.foldl_cons, List.foldl_cons, ih, ih (0 + c.utf8Size)]
      omega

@[simp]
theorem byteLength_nil : byteLength [] = 0 := rfl

@[simp]
theorem byteLength_cons (c : Char) (cs : List Char) : byteLength (c :: cs) = c.utf8Size + byteLength cs := by
  rw [byteLength, List.foldl_cons, foldl_utf8Size, Nat.zero_add]

@[simp]
theorem byteLength_append (cs ds : List Char) : byteLength (cs ++ ds) = byteLength cs + byteLength ds := by
  induction cs with
  | nil => simp
  | cons c cs ih => rw [List.cons_append, byteLength_cons, byteLength_cons, ih, Nat.add_assoc]

theorem length_le_byteLength (cs : List Char) : cs.length ≤ byteLength cs := by
  induction cs with
  | nil => exact Nat.le_refl _
  | cons c cs ih =>
      have := c.utf8Size_pos
      simp only [List.length_cons, byteLength_cons]
      omega

def isDigit (c : Char) : Bool := '0' ≤ c && c ≤ '9'

def isLetter (c : Char) : Bool := ('a' ≤ c && c ≤ 'z') || ('A' ≤ c && c ≤ 'Z')

def isSpace (c : Char) : Bool := c = ' ' || c = '\t' || c = '\n' || c = '\x0c' || c = '\r'

/-- Characters beyond ASCII belong to words. -/
def isWordStart (c : Char) : Bool := isLetter c || c = '_' || c = '$' || 128 ≤ c.toNat

def isWordChar (c : Char) : Bool := isWordStart c || isDigit c

def isHexDigit (c : Char) : Bool :=
  isDigit c || ('a' ≤ c && c ≤ 'f') || ('A' ≤ c && c ≤ 'F')

def isBitDigit (c : Char) : Bool := c = '0' || c = '1'

def isOperator (c : Char) : Bool := "*/%<>!&|^~:@?".toList.contains c

/-! ### Gaps -/

/-- The rest of a block comment with its end, and what follows it. -/
def blockComment? : List Char → Option (List Char × List Char)
  | [] => none
  | '*' :: '/' :: r => some (['*', '/'], r)
  | c :: r => (blockComment? r).map fun (body, rest) => (c :: body, rest)

/-- One blank or complete comment, and what follows it. A line comment ends before its newline. -/
def gapItem? : List Char → Option (List Char × List Char)
  | '-' :: '-' :: r => some ('-' :: '-' :: r.takeWhile (· ≠ '\n'), r.dropWhile (· ≠ '\n'))
  | '#' :: r => some ('#' :: r.takeWhile (· ≠ '\n'), r.dropWhile (· ≠ '\n'))
  | '/' :: '*' :: r => (blockComment? r).map fun (body, rest) => ('/' :: '*' :: body, rest)
  | c :: r => if isSpace c then some ([c], r) else none
  | [] => none

theorem blockComment?_append {cs body rest : List Char} (h : blockComment? cs = some (body, rest)) :
    body ++ rest = cs := by
  fun_induction blockComment? cs generalizing body rest with
  | case1 => simp at h
  | case2 r => simp only [Option.some.injEq, Prod.mk.injEq] at h; simp [← h.1, ← h.2]
  | case3 c r _ ih =>
    obtain ⟨⟨b, r'⟩, hb, he⟩ := Option.map_eq_some_iff.1 h
    simp only [Prod.mk.injEq] at he
    simp [← he.1, ← he.2, ih hb]

theorem gapItem?_append {cs item rest : List Char} (h : gapItem? cs = some (item, rest)) :
    item ++ rest = cs := by
  unfold gapItem? at h
  split at h
  · simp only [Option.some.injEq, Prod.mk.injEq] at h; simp [← h.1, ← h.2]
  · simp only [Option.some.injEq, Prod.mk.injEq] at h; simp [← h.1, ← h.2]
  · obtain ⟨⟨b, r'⟩, hb, he⟩ := Option.map_eq_some_iff.1 h
    simp only [Prod.mk.injEq] at he
    simp [← he.1, ← he.2, blockComment?_append hb]
  · split at h
    · simp only [Option.some.injEq, Prod.mk.injEq] at h; simp [← h.1, ← h.2]
    · simp at h
  · simp at h

theorem gapItem?_ne_nil {cs item rest : List Char} (h : gapItem? cs = some (item, rest)) :
    item ≠ [] := by
  unfold gapItem? at h
  split at h
  · simp only [Option.some.injEq, Prod.mk.injEq] at h; simp [← h.1]
  · simp only [Option.some.injEq, Prod.mk.injEq] at h; simp [← h.1]
  · obtain ⟨⟨b, r'⟩, hb, he⟩ := Option.map_eq_some_iff.1 h
    simp only [Prod.mk.injEq] at he
    simp [← he.1]
  · split at h
    · simp only [Option.some.injEq, Prod.mk.injEq] at h; simp [← h.1]
    · simp at h
  · simp at h

theorem length_gapItem? {cs item rest : List Char} (h : gapItem? cs = some (item, rest)) :
    rest.length < cs.length := by
  have h₁ := congrArg List.length (gapItem?_append h)
  have h₂ := List.length_pos_iff.2 (gapItem?_ne_nil h)
  simp only [List.length_append] at h₁
  omega

/-- The blanks and complete comments at the start of a text, and what follows them. -/
def gap (cs : List Char) : List Char × List Char :=
  match _h : gapItem? cs with
  | none => ([], cs)
  | some (item, rest) => (item ++ (gap rest).1, (gap rest).2)
termination_by cs.length
decreasing_by all_goals exact length_gapItem? _h

/-! ### Lexemes -/

structure Lexeme where
  kind : TokenKind
  text : List Char
  rest : List Char

/-- Why no lexeme starts here, and the text that reading goes on with. -/
structure LexFault where
  error : LexError
  rest : List Char
  skipped : List Char

def unescape : Char → Char
  | 'n' => '\n'
  | 't' => '\t'
  | 'r' => '\r'
  | '0' => '\x00'
  | 'b' => '\x08'
  | 'Z' => '\x1a'
  | c => c

/-- The value of a string literal from after its opening quote, its text up to and with the closing
quote, and what follows. A doubled quote stands for one. -/
def stringBody? (quote : Char) : List Char → Option (List Char × List Char × List Char)
  | [] => none
  | c :: r =>
    if c = quote then
      match r with
      | [] => some ([], [c], [])
      | d :: r' =>
        if d = quote then (stringBody? quote r').map fun (v, t, rest) => (quote :: v, c :: d :: t, rest)
        else some ([], [c], d :: r')
    else if c = '\\' then
      match r with
      | [] => none
      | d :: r' => (stringBody? quote r').map fun (v, t, rest) => (unescape d :: v, c :: d :: t, rest)
    else (stringBody? quote r).map fun (v, t, rest) => (c :: v, c :: t, rest)

/-- The same for an identifier in backticks, where a backslash is a character as any other. -/
def identifierBody? : List Char → Option (List Char × List Char × List Char)
  | [] => none
  | c :: r =>
    if c = '\x60' then
      match r with
      | [] => some ([], [c], [])
      | d :: r' =>
        if d = '\x60' then (identifierBody? r').map fun (v, t, rest) => (c :: v, c :: d :: t, rest)
        else some ([], [c], d :: r')
    else (identifierBody? r).map fun (v, t, rest) => (c :: v, c :: t, rest)

def word (cs : List Char) : Lexeme :=
  let text := cs.takeWhile isWordChar
  ⟨.word (String.ofList text), text, cs.dropWhile isWordChar⟩

def fractionText : List Char → List Char × List Char
  | '.' :: r => ('.' :: r.takeWhile isDigit, r.dropWhile isDigit)
  | cs => ([], cs)

def signText : List Char → List Char × List Char
  | '+' :: r => (['+'], r)
  | '-' :: r => (['-'], r)
  | cs => ([], cs)

/-- The exponent of a number: its letter, sign and digits, apart. -/
structure ExponentText where
  letter : List Char
  sign : List Char
  digits : List Char

def ExponentText.text (e : ExponentText) : List Char := e.letter ++ e.sign ++ e.digits

def ExponentText.value (e : ExponentText) : Int :=
  if e.sign = ['-'] then -(Decimal.valueOf e.digits : Int) else Decimal.valueOf e.digits

def exponentText : List Char → ExponentText × List Char
  | [] => (⟨[], [], []⟩, [])
  | c :: r =>
    if c = 'e' || c = 'E' then
      let (sign, r) := signText r
      (⟨[c], sign, r.takeWhile isDigit⟩, r.dropWhile isDigit)
    else (⟨[], [], []⟩, c :: r)

/-- A run of digits: an integer if it fits, else the nearest float. -/
def integerKind (digits : List Char) : TokenKind :=
  let n := Decimal.valueOf digits
  if n < Nat.pow 2 63 then .integer (Int64.ofNat n) else .real (Decimal.nearest n 0)

/-- A number from its first digit or point on. Digits that run into a word are part of it. -/
def number (offset : Nat) (cs : List Char) : Except LexFault Lexeme :=
  let whole := cs.takeWhile isDigit
  let (fraction, afterFraction) := fractionText (cs.dropWhile isDigit)
  let (exponent, rest) := exponentText afterFraction
  let text := whole ++ fraction ++ exponent.text
  if fraction = [] && exponent.letter = [] then
    if (rest.head?.any isWordChar) then .ok (word cs)
    else .ok ⟨integerKind whole, text, rest⟩
  else if exponent.letter ≠ [] && exponent.digits = [] then
    .error ⟨.invalidNumber (String.ofList text) offset, rest, text⟩
  else
    let places := fraction.drop 1
    let value := Decimal.nearest (Decimal.valueOf (whole ++ places)) (exponent.value - places.length)
    .ok ⟨.real value, text, rest⟩

def digitsKind (hexadecimal : Bool) (digits : List Char) : TokenKind :=
  if hexadecimal then .hex (String.ofList digits) else .bit (String.ofList digits)

def isRadixDigit (hexadecimal : Bool) (c : Char) : Bool :=
  if hexadecimal then isHexDigit c else isBitDigit c

def leadByte (c : Char) : Char :=
  Char.ofNat ((String.utf8EncodeChar c).head?.map UInt8.toNat |>.getD 0)

/-- A letter and digits in quotes, from the letter on. A wrong digit is named by its first byte. -/
def quotedDigits (offset : Nat) (letter : Char) (r : List Char) : Except LexFault Lexeme :=
  let hexadecimal := letter = 'x' || letter = 'X'
  let digits := r.takeWhile (isRadixDigit hexadecimal)
  let opened := letter :: '\'' :: digits
  match r.dropWhile (isRadixDigit hexadecimal) with
  | [] => .error ⟨.unterminatedString offset, [], opened⟩
  | c :: rest =>
    if c = '\'' then .ok ⟨digitsKind hexadecimal digits, opened ++ [c], rest⟩
    else .error ⟨.invalidDigit (leadByte c) (offset + 2 + digits.length), c :: rest, opened⟩

/-- Zero, a letter and digits; a number or word if the digits are missing or run into a word. -/
def radixDigits (offset : Nat) (letter : Char) (r : List Char) : Except LexFault Lexeme :=
  let hexadecimal := letter = 'x'
  let digits := r.takeWhile (isRadixDigit hexadecimal)
  let rest := r.dropWhile (isRadixDigit hexadecimal)
  if digits = [] || rest.head?.any isWordChar then number offset ('0' :: letter :: r)
  else .ok ⟨digitsKind hexadecimal digits, '0' :: letter :: digits, rest⟩

def symbol? : Char → Option TokenKind
  | '(' => some .leftParen
  | ')' => some .rightParen
  | ',' => some .comma
  | ';' => some .semicolon
  | '=' => some .equals
  | '-' => some .minus
  | '+' => some .plus
  | _ => none

def string (offset : Nat) (quote : Char) (r : List Char) : Except LexFault Lexeme :=
  match stringBody? quote r with
  | some (value, text, rest) => .ok ⟨.string (String.ofList value), quote :: text, rest⟩
  | none => .error ⟨.unterminatedString offset, quote :: r, []⟩

def quotedIdentifier (offset : Nat) (r : List Char) : Except LexFault Lexeme :=
  match identifierBody? r with
  | some (value, text, rest) => .ok ⟨.quoted (String.ofList value), '\x60' :: text, rest⟩
  | none => .error ⟨.unterminatedIdentifier offset, '\x60' :: r, []⟩

def lexeme (offset : Nat) (c : Char) (r : List Char) : Except LexFault Lexeme :=
  match symbol? c with
  | some kind => .ok ⟨kind, [c], r⟩
  | none =>
    if c = '.' then
      if r.head?.any isDigit then number offset (c :: r) else .ok ⟨.dot, [c], r⟩
    else if c = '\'' || c = '"' then string offset c r
    else if c = '\x60' then quotedIdentifier offset r
    else
      match r with
      | d :: r' =>
        if d = '\'' && (c = 'x' || c = 'X' || c = 'b' || c = 'B') then quotedDigits offset c r'
        else if c = '0' && (d = 'x' || d = 'b') then radixDigits offset d r'
        else plain
      | [] => plain
where
  plain : Except LexFault Lexeme :=
    if isDigit c then number offset (c :: r)
    else if isWordStart c then .ok (word (c :: r))
    else if isOperator c then .ok ⟨.operator c, [c], r⟩
    else .error ⟨.unexpectedChar c offset, c :: r, []⟩

/-! ### Reading a script -/

/-- A place in a script: the number of bytes before it and the characters after it. -/
structure Cursor where
  offset : Nat
  rest : List Char
  deriving DecidableEq

def Cursor.start (text : List Char) : Cursor := ⟨0, text⟩

/-- Where reading goes on after a comment that does not end: at the last character, or at the end
if the comment is just opened. -/
def Cursor.afterComment (offset : Nat) (body : List Char) : Cursor :=
  match body.getLast? with
  | none => ⟨offset + 2, []⟩
  | some c => ⟨offset + 2 + byteLength body.dropLast, [c]⟩

/-- The next token, or none at the end of the script, and the place after it. An error leaves the
cursor where reading can go on. -/
def Cursor.next (cursor : Cursor) : Except LexError (Option Token) × Cursor :=
  let (before, rest) := gap cursor.rest
  let offset := cursor.offset + byteLength before
  match rest with
  | [] => (.ok none, ⟨offset, []⟩)
  | '/' :: '*' :: body => (.error (.unterminatedComment offset), .afterComment offset body)
  | c :: r =>
    match lexeme offset c r with
    | .error f => (.error f.error, ⟨offset + byteLength f.skipped, f.rest⟩)
    | .ok l => (.ok (some ⟨l.kind, offset, l.text, before⟩), ⟨offset + byteLength l.text, l.rest⟩)

end DdlCatalog.Sql
