import DdlCatalog.Proofs.Composition.Lexing

/-!
Quoting. Every text can be written in quotes of either kind and in backticks. It is read back as it is, since a mark
that is doubled does not end a quoted text and a doubled backslash stands for itself in a string.
-/

namespace DdlCatalog.Sql

/-- Strings are written in quotes of either kind, identifiers in backticks. -/
inductive Quoting
  | single
  | double
  | backtick
  deriving DecidableEq

namespace Quoting

def mark : Quoting → Char
  | single => '\''
  | double => '"'
  | backtick => '\x60'

/-- The characters that are written twice. -/
def special : Quoting → List Char
  | backtick => ['\x60']
  | q => [q.mark, '\\']

def kind : Quoting → String → TokenKind
  | backtick => .quoted
  | _ => .string

/-- A text in quotes. -/
def text (q : Quoting) (s : String) : List Char := q.mark :: (doubled q.special s.toList ++ [q.mark])

def unterminated : Quoting → Nat → LexError
  | backtick => .unterminatedIdentifier
  | _ => .unterminatedString

/-- What follows the first mark, up to the one that closes the text. -/
def body? : Quoting → List Char → Option (List Char × List Char × List Char)
  | backtick => identifierBody?
  | q => stringBody? q.mark

variable {q : Quoting} {rest r : List Char} {offset : Nat} {l : Lexeme}

theorem body?_closed (h : rest.head? ≠ some q.mark) : q.body? (q.mark :: rest) = some ([], [q.mark], rest) := by
  cases q with
  | single | double => exact stringBody?_closed h
  | backtick => exact identifierBody?_closed h

theorem body?_doubled (q : Quoting) (cs more : List Char) : q.body? (doubled q.special cs ++ more) =
    (q.body? more).map fun (v, t, rest) => (cs ++ v, doubled q.special cs ++ t, rest) := by
  cases q with
  | single | double => exact stringBody?_doubled _ cs more
  | backtick => exact identifierBody?_doubled cs more

theorem doubled_mark (q : Quoting) : doubled q.special [q.mark] = [q.mark, q.mark] := by
  cases q <;> rfl

theorem lexeme_mark (q : Quoting) (offset : Nat) (r : List Char) : lexeme offset q.mark r =
    match q.body? r with
    | some (value, body, rest) => .ok ⟨q.kind (String.ofList value), q.mark :: body, rest⟩
    | none => .error ⟨q.unterminated offset, q.mark :: r, []⟩ := by
  cases q <;> rfl

theorem lexeme_eq_ok_iff : lexeme offset q.mark r = .ok l ↔ ∃ value body rest,
    q.body? r = some (value, body, rest) ∧ l = ⟨q.kind (String.ofList value), q.mark :: body, rest⟩ := by
  rw [lexeme_mark]
  split
  · rename_i value body rest hbody
    rw [hbody]
    exact ⟨fun h => ⟨value, body, rest, rfl, by cases h; rfl⟩, by rintro ⟨_, _, _, ⟨⟩, rfl⟩; rfl⟩
  · rename_i hbody
    rw [hbody]
    exact ⟨by rintro ⟨⟩, by rintro ⟨_, _, _, ⟨⟩, _⟩⟩

theorem lexeme_text (s : String) (h : rest.head? ≠ some q.mark) (offset : Nat) :
    lexeme offset q.mark (doubled q.special s.toList ++ q.mark :: rest) = .ok ⟨q.kind s, q.text s, rest⟩ := by
  refine lexeme_eq_ok_iff.2 ⟨s.toList, doubled q.special s.toList ++ [q.mark], rest, ?_, ?_⟩
  · rw [body?_doubled, body?_closed h]
    simp only [Option.map_some, List.append_nil]
  · rw [String.ofList_toList, text]

/-- The mark that would close the text is taken for one in it if another one follows. -/
theorem lexeme_text_ne {k : TokenKind} (s : String) (h : rest.head? = some q.mark) (offset : Nat) :
    lexeme offset q.mark (doubled q.special s.toList ++ q.mark :: rest) ≠ .ok ⟨k, q.text s, rest⟩ := by
  intro hl
  obtain ⟨value, body, rest', hbody, he⟩ := lexeme_eq_ok_iff.1 hl
  obtain ⟨r, rfl⟩ := List.head?_eq_some_iff.1 h
  have hreopened := body?_doubled q [q.mark] r
  rw [doubled_mark] at hreopened
  change q.body? (q.mark :: q.mark :: r) = _ at hreopened
  rw [body?_doubled, hreopened] at hbody
  obtain ⟨⟨value', body', rest''⟩, hsome, hparts⟩ := Option.map_eq_some_iff.1 hbody
  obtain ⟨⟨value'', body'', rest'''⟩, -, hinner⟩ := Option.map_eq_some_iff.1 hsome
  cases hinner
  cases hparts
  rw [text, Lexeme.mk.injEq, List.cons.injEq, List.append_cancel_left_eq] at he
  exact absurd he.2.1.2 (by simp)

end Quoting

/-- Any text in quotes is read as itself if and only if no mark like them follows, and on its own it is the only
token. -/
theorem quoted_text_read_back (q : Quoting) (s : String) :
    (∀ rest, StandsFirst (q.kind s) (q.text s) rest ↔ rest.head? ≠ some q.mark) ∧
    tokens (String.ofList (q.text s)) = [.ok ⟨q.kind s, 0, q.text s, []⟩] := by
  have hfirst (rest : List Char) : StandsFirst (q.kind s) (q.text s) rest ↔ rest.head? ≠ some q.mark := by
    have htext : q.text s ++ rest = q.mark :: (doubled q.special s.toList ++ q.mark :: rest) := by
      rw [Quoting.text, List.cons_append, List.append_assoc, List.singleton_append]
    have hmark : (isSpace q.mark = false ∧ q.mark ≠ '#' ∧ q.mark ≠ '/') ∧ q.mark ≠ '-' := by
      cases q <;> decide
    rw [standsFirst_iff htext (gapItem?_eq_none hmark.1 fun h => absurd h hmark.2) hmark.1.2.2]
    exact ⟨fun h hmore => Quoting.lexeme_text_ne s hmore 0 (h 0), Quoting.lexeme_text s⟩
  exact ⟨hfirst, ((hfirst []).2 (by simp)).tokens_eq⟩

end DdlCatalog.Sql
