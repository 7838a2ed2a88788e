import DdlCatalog.Proofs.Spelling.Lexing

/-!
A text further on in a script is read in the same way: only the places of its tokens and of its error change.
-/

namespace DdlCatalog.Sql

def LexError.moved (n : Nat) : LexError → LexError
  | .unexpectedChar c offset => .unexpectedChar c (n + offset)
  | .unterminatedString offset => .unterminatedString (n + offset)
  | .unterminatedIdentifier offset => .unterminatedIdentifier (n + offset)
  | .unterminatedComment offset => .unterminatedComment (n + offset)
  | .invalidDigit c offset => .invalidDigit c (n + offset)
  | .invalidNumber text offset => .invalidNumber text (n + offset)

def LexFault.moved (n : Nat) (f : LexFault) : LexFault := { f with error := f.error.moved n }

def Token.moved (n : Nat) (t : Token) : Token := { t with offset := n + t.offset }

def Cursor.moved (n : Nat) (a : Cursor) : Cursor := { a with offset := n + a.offset }

/-- A token or an error, with its place further on. -/
def movedItem (n : Nat) (item : Except LexError Token) : Except LexError Token :=
  (item.map (Token.moved n)).mapError (LexError.moved n)

theorem number_moved (n offset : Nat) (cs : List Char) :
    number (n + offset) cs = (number offset cs).mapError (LexFault.moved n) := by
  unfold number
  dsimp only
  split
  · split <;> rfl
  · split <;> rfl

theorem quotedDigits_moved (n offset : Nat) (c : Char) (r : List Char) :
    quotedDigits (n + offset) c r = (quotedDigits offset c r).mapError (LexFault.moved n) := by
  unfold quotedDigits
  dsimp only
  split
  · rfl
  · split
    · rfl
    · simp only [Except.mapError, LexFault.moved, LexError.moved, Nat.add_assoc]

theorem radixDigits_moved (n offset : Nat) (c : Char) (r : List Char) :
    radixDigits (n + offset) c r = (radixDigits offset c r).mapError (LexFault.moved n) := by
  unfold radixDigits
  dsimp only
  split
  · exact number_moved n offset _
  · rfl

theorem string_moved (n offset : Nat) (c : Char) (r : List Char) :
    string (n + offset) c r = (string offset c r).mapError (LexFault.moved n) := by
  unfold string
  split <;> rfl

theorem quotedIdentifier_moved (n offset : Nat) (r : List Char) :
    quotedIdentifier (n + offset) r = (quotedIdentifier offset r).mapError (LexFault.moved n) := by
  unfold quotedIdentifier
  split <;> rfl

/-- A lexeme, or why there is none, does not depend on its place. -/
theorem lexeme_moved (n offset : Nat) (c : Char) (r : List Char) :
    lexeme (n + offset) c r = (lexeme offset c r).mapError (LexFault.moved n) := by
  rw [lexeme_eq, lexeme_eq]
  cases opening c r.head? with
  | mark => rfl
  | number => exact number_moved n offset _
  | string => exact string_moved n offset c r
  | quotedIdentifier => exact quotedIdentifier_moved n offset r
  | quotedDigits => exact quotedDigits_moved n offset c _
  | radixDigits letter => exact radixDigits_moved n offset letter _
  | word => rfl
  | stray => rfl

theorem afterComment_moved (n offset : Nat) (body : List Char) :
    Cursor.afterComment (n + offset) body = (Cursor.afterComment offset body).moved n := by
  unfold Cursor.afterComment
  split
  · rfl
  · simp only [Cursor.moved, Nat.add_assoc]

theorem next_moved (n : Nat) (a : Cursor) : (a.moved n).next =
    ((a.next.1.map (Option.map (Token.moved n))).mapError (LexError.moved n), a.next.2.moved n) := by
  unfold Cursor.next
  simp only [Cursor.moved, Nat.add_assoc]
  generalize gap a.rest = found
  obtain ⟨before, rest⟩ := found
  dsimp only
  split
  · rfl
  · rw [afterComment_moved]
    rfl
  · rename_i c r _
    rw [lexeme_moved]
    cases lexeme (a.offset + byteLength before) c r with
    | error f => rfl
    | ok l => rfl

/-- A text is read in the same way further on. -/
theorem scan_moved (n : Nat) (a : Cursor) :
    scan (a.moved n) = ((scan a).1.map (movedItem n), (scan a).2.moved n) := by
  rw [scan_eq, next_moved, scan_eq a]
  cases hnext : a.next with
  | mk found b =>
      cases found with
      | error e => rfl
      | ok t? =>
          cases t? with
          | none => rfl
          | some t =>
              have hshorter := Cursor.length_next hnext
              change (.ok (t.moved n) :: (scan (b.moved n)).1, (scan (b.moved n)).2) = _
              rw [scan_moved n b]
              rfl
termination_by a.rest.length

end DdlCatalog.Sql
