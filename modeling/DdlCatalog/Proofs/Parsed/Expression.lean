import DdlCatalog.Proofs.Parsed.Grammar
import DdlCatalog.Proofs.Reading.Excerpt

/-!
Expressions in column definitions and alterations are kept as they are written: the text that is stored is the source
of the tokens that the clause takes, the last one of which closes the first parenthesis, if there is one.
-/

namespace DdlCatalog.Sql

/-! ### Parentheses -/

/-- Tokens among which every parenthesis is matched. -/
inductive Balanced : List TokenKind → Prop
  | nil : Balanced []
  | other {k : TokenKind} {ks : List TokenKind} : k ≠ .leftParen → k ≠ .rightParen → Balanced ks → Balanced (k :: ks)
  | group {ks more : List TokenKind} : Balanced ks → Balanced more →
      Balanced (.leftParen :: (ks ++ .rightParen :: more))

/-- The tokens match parentheses among themselves, and close as many before them and at last one more. -/
def Closing : Nat → List TokenKind → Prop
  | 0, ks => ∃ inner, Balanced inner ∧ ks = inner ++ [.rightParen]
  | depth + 1, ks => ∃ inner more, Balanced inner ∧ ks = inner ++ .rightParen :: more ∧ Closing depth more

variable {ks : List TokenKind} {depth : Nat}

theorem Closing.other {k : TokenKind} (hleft : k ≠ .leftParen) (hright : k ≠ .rightParen) (h : Closing depth ks) :
    Closing depth (k :: ks) := by
  cases depth with
  | zero =>
      obtain ⟨inner, hinner, rfl⟩ := h
      exact ⟨k :: inner, .other hleft hright hinner, rfl⟩
  | succ depth =>
      obtain ⟨inner, more, hinner, rfl, hmore⟩ := h
      exact ⟨k :: inner, more, .other hleft hright hinner, rfl, hmore⟩

theorem Closing.open (h : Closing (depth + 1) ks) : Closing depth (.leftParen :: ks) := by
  obtain ⟨group, ks, hgroup, rfl, hks⟩ := h
  cases depth with
  | zero =>
      obtain ⟨inner, hinner, rfl⟩ := hks
      exact ⟨.leftParen :: (group ++ .rightParen :: inner), .group hgroup hinner, by simp⟩
  | succ depth =>
      obtain ⟨inner, more, hinner, rfl, hmore⟩ := hks
      exact ⟨.leftParen :: (group ++ .rightParen :: inner), more, .group hgroup hinner, by simp, hmore⟩

/-- An expression that is not a string, before what follows it: its first token and the others. A word with nothing in
parentheses behind it is one. -/
inductive ExpressionOf : Token → List Token → Tokens → Prop
  | group {first : Token} {more : List Token} {rest : Tokens} :
      first.kind = .leftParen → Closing 0 (more.map Token.kind) → ExpressionOf first more rest
  | call {first opening : Token} {more : List Token} {rest : Tokens} {w : String} :
      first.kind = .word w → opening.kind = .leftParen → Closing 0 (more.map Token.kind) →
      ExpressionOf first (opening :: more) rest
  | word {first : Token} {rest : Tokens} {w : String} :
      first.kind = .word w → (∀ t r, rest = .ok t :: r → t.kind ≠ .leftParen) → ExpressionOf first [] rest
  | single {first : Token} {rest : Tokens} :
      first.kind ∉ [.leftParen, .rightParen, .comma, .semicolon] → (∀ w, first.kind ≠ .word w ∧ first.kind ≠ .string w) →
      ExpressionOf first [] rest

variable {ts rest : Tokens} {first : Token} {more : List Token} {text : String}

theorem Closing.balanced (h : Closing 0 ks) : Balanced (.leftParen :: ks) := by
  obtain ⟨inner, hinner, rfl⟩ := h
  exact .group hinner .nil

theorem ExpressionOf.balanced (h : ExpressionOf first more rest) : Balanced ((first :: more).map Token.kind) := by
  cases h with
  | group hfirst hclosing =>
      rw [List.map_cons, hfirst]
      exact hclosing.balanced
  | call hfirst hopening hclosing =>
      rw [List.map_cons, List.map_cons, hfirst, hopening]
      exact .other nofun nofun hclosing.balanced
  | word hfirst =>
      rw [List.map_cons, hfirst]
      exact .other nofun nofun .nil
  | single hfirst =>
      simp only [List.mem_cons, not_or] at hfirst
      exact .other hfirst.1 hfirst.2.1 .nil

variable {script : String} {value : DefaultValue}

namespace Parser

end Parser

end DdlCatalog.Sql
