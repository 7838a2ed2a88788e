import DdlCatalog.Sql.ParseError
import DdlCatalog.Sql.Scan

/-!
Tokens from the bytes of a script. A place is a number of bytes, and whatever could go wrong there is
checked: a byte past the end, and a slice that does not start and end between characters.
-/

namespace DdlCatalog.Sql

/-- What no script may lead to: a byte past the end, a slice that does not start and end between characters, a number
without its negative, a count below zero, a loop that goes on after a round without a token, and one with more rounds
than the text has bytes. -/
inductive Fault
  | outOfRange
  | offBoundary
  | overflow
  | belowZero
  | stalled
  | endless
  deriving DecidableEq

/-- Why reading ends early: the script is refused, or something has gone wrong. -/
inductive Stop
  | refused (error : ParseError)
  | fault (fault : Fault)
  deriving DecidableEq

namespace Bytes

/-- The bytes of a text, each as the character with its code. -/
def bytes (cs : List Char) : List Char :=
  cs.flatMap fun c => (String.utf8EncodeChar c).map fun b => Char.ofNat b.toNat

def refuse {α : Type} (e : LexError) : Except Stop α := .error (.refused (.lexical e))

section Results

variable {α β : Type}

@[simp]
theorem ok_bind (a : α) (f : α → Except Stop β) : (Except.ok a >>= f) = f a := rfl

@[simp]
theorem refuse_bind (e : LexError) (f : α → Except Stop β) : (refuse e >>= f) = refuse e := rfl

end Results

variable (text : List Char)

def byteAt (place : Nat) : Except Stop Char :=
  match (bytes text)[place]? with
  | some b => .ok b
  | none => .error (.fault .outOfRange)

def slice (start stop : Nat) : Except Stop (List Char) :=
  match slice? text start stop with
  | some part => .ok part
  | none => .error (.fault .offBoundary)

def sliceFrom (start : Nat) : Except Stop (List Char) := slice text start (byteLength text)

variable {text} in
theorem slice_eq_ok_iff {start stop : Nat} {part : List Char} : slice text start stop = .ok part ↔
    ∃ before after, text = before ++ (part ++ after) ∧ start = byteLength before ∧
      stop = byteLength (before ++ part) := by
  rw [← slice?_eq_some_iff, slice]
  split
  · rename_i found hfound
    rw [hfound, Except.ok.injEq, Option.some.injEq]
  · rename_i hnone
    simp [hnone]

/-- The second byte of a character is no place to start. -/
example : slice ['é', 'a'] 2 3 = .ok ['a'] ∧ slice ['é', 'a'] 1 3 = .error (.fault .offBoundary) := ⟨rfl, rfl⟩

variable {text} in
theorem sliceFrom_eq_ok_iff {start : Nat} {part : List Char} :
    sliceFrom text start = .ok part ↔ ∃ before, text = before ++ part ∧ start = byteLength before := by
  rw [sliceFrom, slice_eq_ok_iff]
  constructor
  · rintro ⟨before, after, rfl, rfl, hstop⟩
    have hafter : after = [] := by
      have := length_le_byteLength after
      simp only [byteLength_append] at hstop
      exact List.eq_nil_of_length_eq_zero (by omega)
    exact ⟨before, by rw [hafter, List.append_nil], rfl⟩
  · rintro ⟨before, rfl, rfl⟩
    exact ⟨before, [], by rw [List.append_nil], rfl, rfl⟩

section Places

variable {text rest part : List Char} {place : Nat} {c : Char}

/-- A place between the characters of a text, or at one of its ends, and what follows there. -/
def Placed (text : List Char) (place : Nat) (rest : List Char) : Prop :=
  ∃ before, text = before ++ rest ∧ place = byteLength before

theorem placed_start (text : List Char) : Placed text 0 text := ⟨[], rfl, rfl⟩

namespace Placed

theorem after (h : Placed text place (part ++ rest)) : Placed text (place + byteLength part) rest := by
  obtain ⟨before, rfl, rfl⟩ := h
  exact ⟨before ++ part, by rw [List.append_assoc], by rw [byteLength_append]⟩

theorem tail (h : Placed text place (c :: rest)) : Placed text (place + c.utf8Size) rest := by
  have hafter : Placed text (place + byteLength [c]) rest := after h
  rwa [byteLength_cons, byteLength_nil, Nat.add_zero] at hafter

theorem slice_eq (h : Placed text place (part ++ rest)) : slice text place (place + byteLength part) = .ok part := by
  obtain ⟨before, rfl, rfl⟩ := h
  exact slice_eq_ok_iff.2 ⟨before, rest, rfl, rfl, by rw [byteLength_append]⟩

theorem sliceFrom_eq (h : Placed text place rest) : sliceFrom text place = .ok rest :=
  sliceFrom_eq_ok_iff.2 h

end Placed

end Places

/-! ### Gaps -/

/-- The first place from here on whose byte is not as said, or the end. -/
def passWhile (p : Char → Bool) (place : Nat) : Nat :=
  match _h : (bytes text)[place]? with
  | some b => if p b then passWhile p (place + 1) else place
  | none => place
termination_by (bytes text).length - place
decreasing_by
  have := (List.getElem?_eq_some_iff.1 _h).1
  omega

theorem le_passWhile (p : Char → Bool) (place : Nat) : place ≤ passWhile text p place := by
  fun_induction passWhile text p place with
  | case1 place b hb hp ih => omega
  | case2 => exact Nat.le_refl _
  | case3 => exact Nat.le_refl _

theorem lt_passWhile {p : Char → Bool} {place : Nat} {b : Char} (h : (bytes text)[place]? = some b) (hp : p b = true) :
    place < passWhile text p place := by
  have := le_passWhile text p (place + 1)
  rw [passWhile]
  split
  · rename_i d hd
    obtain rfl : b = d := Option.some.inj (h.symm.trans hd)
    rw [if_pos hp]
    omega
  · rename_i hd
    cases h.symm.trans hd

/-- The place of the first end of a comment from here on, or the last place. -/
def passComment (place : Nat) : Nat :=
  match _h : (bytes text)[place + 1]? with
  | none => place
  | some d => if (bytes text)[place]? = some '*' ∧ d = '/' then place else passComment (place + 1)
termination_by (bytes text).length - place
decreasing_by
  have := (List.getElem?_eq_some_iff.1 _h).1
  omega

theorem le_passComment (place : Nat) : place ≤ passComment text place := by
  fun_induction passComment text place with
  | case1 => exact Nat.le_refl _
  | case2 => exact Nat.le_refl _
  | case3 place d hd hends ih => omega

/-- The place after the blanks and comments from here on. -/
def passGap (place : Nat) : Except Stop Nat :=
  match _h : (bytes text)[place]? with
  | none => .ok place
  | some b =>
    let next := (bytes text)[place + 1]?
    if isSpace b then passGap (place + 1)
    else if _hline : (b = '-' ∧ next = some '-') ∨ b = '#' then passGap (passWhile text (· ≠ '\n') place)
    else if b = '/' ∧ next = some '*' then
      let ending := passComment text (place + 2)
      if (bytes text).length ≤ ending + 1 then refuse (.unterminatedComment place)
      else passGap (ending + 2)
    else .ok place
termination_by (bytes text).length - place
decreasing_by
  all_goals have := (List.getElem?_eq_some_iff.1 _h).1
  · omega
  · have : place < passWhile text (· ≠ '\n') place := by
      refine lt_passWhile text _h ?_
      rcases _hline with ⟨rfl, -⟩ | rfl <;> rfl
    omega
  · have := le_passComment text (place + 2)
    omega

/-! ### Lexemes -/

/-- The value of a string whose characters from here on are `cs`, and the place after it, both in
the slice that starts with the opening quote. -/
def stringFrom (start : Nat) (opened : List Char) (quote : Char) :
    List Char → Nat → Except Stop (List Char × Nat)
  | [], _ => refuse (.unterminatedString start)
  | c :: r, place => do
    let after := place + c.utf8Size
    if c = quote then
      let following ← sliceFrom opened after
      if following.head? = some quote then
        let (value, stop) ← stringFrom start opened quote r.tail (after + quote.utf8Size)
        return (quote :: value, stop)
      return ([], after)
    else if c = '\\' then
      match r with
      | [] => refuse (.unterminatedString start)
      | d :: r' =>
        let (value, stop) ← stringFrom start opened quote r' (after + d.utf8Size)
        return (unescape d :: value, stop)
    else
      let (value, stop) ← stringFrom start opened quote r after
      return (c :: value, stop)
termination_by cs => cs.length

def readString (start : Nat) : Except Stop (TokenKind × Nat) := do
  let opened ← sliceFrom text start
  match opened with
  | [] => refuse (.unterminatedString start)
  | quote :: r =>
    let (value, stop) ← stringFrom start opened quote r quote.utf8Size
    return (.string (String.ofList value), start + stop)

/-- The number of bytes before the first such character. -/
def find? (c : Char) (cs : List Char) : Option Nat :=
  if c ∈ cs then some (byteLength (cs.takeWhile (· ≠ c))) else none

theorem length_pos_of_find? {c : Char} {cs : List Char} {place : Nat} (h : find? c cs = some place) :
    0 < byteLength cs := by
  have := length_le_byteLength cs
  unfold find? at h
  split at h
  · rename_i hc
    have := List.length_pos_of_mem hc
    omega
  · cases h

/-- The value of an identifier from here on, and the place after it, both in the slice that starts
after the opening backtick. -/
def identifierFrom (start : Nat) (opened : List Char) (place : Nat) : Except Stop (List Char × Nat) :=
  match _hahead : sliceFrom opened place with
  | .error e => .error e
  | .ok ahead =>
    match _hfound : find? '\x60' ahead with
    | none => refuse (.unterminatedIdentifier start)
    | some found => do
      let run ← slice opened place (place + found)
      let after := place + found + 1
      let following ← sliceFrom opened after
      if following.head? = some '\x60' then
        let (value, stop) ← identifierFrom start opened (after + 1)
        return (run ++ '\x60' :: value, stop)
      return (run, after)
termination_by byteLength opened - place
decreasing_by
  obtain ⟨before, rfl, rfl⟩ := sliceFrom_eq_ok_iff.1 _hahead
  have := length_pos_of_find? _hfound
  rw [byteLength_append]
  omega

def readQuoted (start : Nat) : Except Stop (TokenKind × Nat) := do
  let opened ← sliceFrom text (start + 1)
  let (value, stop) ← identifierFrom start opened 0
  return (.quoted (String.ofList value), start + 1 + stop)

/-- The place of the quote that ends the digits from here on, or the end. -/
def digitsFrom (hexadecimal : Bool) (place : Nat) : Except Stop Nat :=
  match _h : (bytes text)[place]? with
  | none => .ok place
  | some b =>
    if b = '\'' then .ok place
    else if isRadixDigit hexadecimal b then digitsFrom hexadecimal (place + 1)
    else refuse (.invalidDigit b place)
termination_by (bytes text).length - place
decreasing_by
  have := (List.getElem?_eq_some_iff.1 _h).1
  omega

def readPrefixed (start : Nat) : Except Stop (TokenKind × Nat) := do
  let letter ← byteAt text start
  let hexadecimal := letter = 'x' || letter = 'X'
  let stop ← digitsFrom text hexadecimal (start + 2)
  if (bytes text).length ≤ stop then refuse (.unterminatedString start)
  let digits ← slice text (start + 2) stop
  return (digitsKind hexadecimal digits, stop + 1)

def readWord (start : Nat) : Except Stop (TokenKind × Nat) := do
  let stop := passWhile text isWordChar start
  let word ← slice text start stop
  return (.word (String.ofList word), stop)

/-- The place after the digits that follow a point, if one stands here. -/
def passFraction (place : Nat) : Nat :=
  if (bytes text)[place]? = some '.' then passWhile text isDigit (place + 1) else place

def passSign (place : Nat) : Nat :=
  if (bytes text)[place]? = some '+' ∨ (bytes text)[place]? = some '-' then place + 1 else place

/-- The place after the sign and digits that follow the letter of an exponent, if one stands here. -/
def passExponent (place : Nat) : Nat :=
  if (bytes text)[place]? = some 'e' ∨ (bytes text)[place]? = some 'E' then
    passWhile text isDigit (passSign text (place + 1))
  else place

/-- What a numeral stands for: digits alone for an integer if it fits. -/
def numeralKind? (numeral : List Char) : Option TokenKind :=
  (number 0 numeral).toOption.map Lexeme.kind

def readNumber (start : Nat) : Except Stop (TokenKind × Nat) := do
  let whole := passWhile text isDigit start
  let fraction := passFraction text whole
  let stop := passExponent text fraction
  if stop = whole ∧ (bytes text)[stop]?.any isWordChar then readWord text start
  else
    let numeral ← slice text start stop
    match numeralKind? numeral with
    | some kind => return (kind, stop)
    | none => refuse (.invalidNumber (String.ofList numeral) start)

def readRadix (start : Nat) : Except Stop (TokenKind × Nat) := do
  let letter ← byteAt text (start + 1)
  let hexadecimal := letter = 'x'
  let stop := passWhile text (isRadixDigit hexadecimal) (start + 2)
  if stop = start + 2 ∨ (bytes text)[stop]?.any isWordChar then readNumber text start
  else
    let digits ← slice text (start + 2) stop
    return (digitsKind hexadecimal digits, stop)

/-- What starts with a byte, and the place after it. -/
def readLexeme (start : Nat) (b : Char) : Except Stop (TokenKind × Nat) :=
  let next := (bytes text)[start + 1]?
  match symbol? b with
  | some kind => .ok (kind, start + 1)
  | none =>
    if b = '.' ∧ !next.any isDigit then .ok (.dot, start + 1)
    else if b = '\'' ∨ b = '"' then readString text start
    else if b = '\x60' then readQuoted text start
    else if (b = 'x' ∨ b = 'X' ∨ b = 'b' ∨ b = 'B') ∧ next = some '\'' then readPrefixed text start
    else if b = '0' ∧ (next = some 'x' ∨ next = some 'b') then readRadix text start
    else if isDigit b ∨ b = '.' then readNumber text start
    else if isWordStart b then readWord text start
    else if isOperator b then .ok (.operator b, start + 1)
    else do
      let ahead ← sliceFrom text start
      refuse (.unexpectedChar (ahead.headD '\ufffd') start)

/-- The next token from a place on, if there is one, and the place after it. -/
def lexAt (place : Nat) : Except Stop (Option Token × Nat) := do
  let start ← passGap text place
  match (bytes text)[start]? with
  | none => return (none, start)
  | some b =>
    let (kind, stop) ← readLexeme text start b
    let gap ← slice text place start
    let spelling ← slice text start stop
    return (some ⟨kind, start, spelling, gap⟩, stop)

/-- What is to be read where a cursor stands. -/
def ofNext : Except LexError (Option Token) × Cursor → Except Stop (Option Token × Nat)
  | (.ok t?, b) => .ok (t?, b.offset)
  | (.error e, _) => refuse e

/-- Wherever a cursor stands, the bytes give what the characters give. A number has no sign of its own. -/
structure Lexes (text : List Char) : Prop where
  lexAt_eq : ∀ {a : Cursor}, Placed text a.offset a.rest → lexAt text a.offset = ofNext a.next
  nonneg : ∀ {a b : Cursor} {t : Token} {n : Int64}, a.next = (.ok (some t), b) → t.kind = .integer n → 0 ≤ n

end Bytes

end DdlCatalog.Sql
