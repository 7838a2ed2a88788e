import DdlCatalog.Sql.Parser

/-!
What the parsers of single tokens do with the tokens before them.
-/

namespace DdlCatalog.Sql.Parser

variable {α β : Type} {p : Parser α} {f : α → Parser β} {a : α} {ts rest : Tokens} {t : Token} {expected : String}
  {value? : TokenKind → Option α} {accept : TokenKind → Bool}

theorem run_bind_of_ok (h : p.run ts = .ok (a, rest)) : (p >>= f).run ts = (f a).run rest := by rw [run_bind, h]

theorem run_bind_of_error {e : ParseError} (h : p.run ts = .error e) : (p >>= f).run ts = .error e := by
  rw [run_bind, h]

theorem run_next_bind (f : Option Token → Parser β) (t : Token) (ts : Tokens) :
    (next >>= f).run (.ok t :: ts) = (f (some t)).run ts := rfl

theorem run_peek_bind (f : Option Token → Parser β) (t : Token) (ts : Tokens) :
    (peek >>= f).run (.ok t :: ts) = (f (some t)).run (.ok t :: ts) := rfl

theorem expect_run (h : value? t.kind = some a) (ts : Tokens) :
    (expect expected value?).run (.ok t :: ts) = .ok (a, ts) := by
  rw [expect, run_next_bind]
  simp only [Option.bind_some, h]
  rfl

theorem expect_run_other (h : value? t.kind = none) (ts : Tokens) :
    (expect expected value?).run (.ok t :: ts) = .error (.unexpectedToken t.kind t.offset expected) := by
  rw [expect, run_next_bind]
  simp only [Option.bind_some, h]
  rfl

theorem expect_run_eq_ok_iff : (expect expected value?).run ts = .ok (a, rest) ↔
    ∃ t, ts = .ok t :: rest ∧ value? t.kind = some a := by
  refine ⟨fun h => ?_, by rintro ⟨t, rfl, ht⟩; exact expect_run ht rest⟩
  rcases ts with _ | ⟨e | t, ts⟩
  · cases h
  · cases h
  · cases hvalue : value? t.kind with
    | none => cases h.symm.trans (expect_run_other hvalue ts)
    | some a' =>
        cases h.symm.trans (expect_run hvalue ts)
        exact ⟨t, rfl, hvalue⟩

theorem eat_run (h : accept t.kind = true) (ts : Tokens) : (eat accept).run (.ok t :: ts) = .ok (true, ts) := by
  rw [eat, run_peek_bind]
  simp only [h, if_true]
  rfl

theorem eat_run_other (h : accept t.kind = false) (ts : Tokens) :
    (eat accept).run (.ok t :: ts) = .ok (false, .ok t :: ts) := by
  rw [eat, run_peek_bind]
  simp only [h]
  rfl

theorem eatSymbol_run {k : TokenKind} (h : t.kind = k) (ts : Tokens) :
    (eatSymbol k).run (.ok t :: ts) = .ok (true, ts) := by
  refine eat_run ?_ ts
  rw [h, beq_self_eq_true]

theorem eatSymbol_run_other {k : TokenKind} (h : t.kind ≠ k) (ts : Tokens) :
    (eatSymbol k).run (.ok t :: ts) = .ok (false, .ok t :: ts) := by
  refine eat_run_other ?_ ts
  exact beq_eq_false_iff_ne.2 h

section Words

variable {w w' : String}

theorem eatWord_run (h : t.kind.isWord w = true) (ts : Tokens) : (eatWord w).run (.ok t :: ts) = .ok (true, ts) :=
  eat_run h ts

theorem eatWord_run_other (h : t.kind.isWord w = false) (ts : Tokens) :
    (eatWord w).run (.ok t :: ts) = .ok (false, .ok t :: ts) := eat_run_other h ts

theorem eatEither_run_other (h : t.kind.isWord w = false) (h' : t.kind.isWord w' = false) (ts : Tokens) :
    (eatEither w w').run (.ok t :: ts) = .ok (false, .ok t :: ts) := by
  rw [eatEither, run_bind_of_ok (eatWord_run_other h ts)]
  exact eatWord_run_other h' ts

theorem keyword_run (h : t.kind.isWord w = true) (ts : Tokens) : (keyword w).run (.ok t :: ts) = .ok ((), ts) :=
  expect_run (if_pos h) ts

/-- A word is no other word, in any letter case. -/
theorem isWord_eq_false (h : t.kind.isWord w = true) (hne : w.toLower ≠ w'.toLower) : t.kind.isWord w' = false := by
  obtain ⟨kind, offset, text, gap⟩ := t
  cases kind with
  | word s =>
      simp only [TokenKind.isWord, beq_iff_eq] at h
      simpa only [TokenKind.isWord, h, beq_eq_false_iff_ne] using hne
  | _ => rfl

end Words

end DdlCatalog.Sql.Parser
