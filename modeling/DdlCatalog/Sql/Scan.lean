import DdlCatalog.Sql.Opening

/-!
Reading a whole script. The text of a lexeme and what follows it are the text it was read from, so
every token takes at least one character and `scan` ends.
-/

namespace DdlCatalog.Sql

theorem stringBody?_append {quote : Char} {cs value text rest : List Char}
    (h : stringBody? quote cs = some (value, text, rest)) : text ++ rest = cs := by
  fun_induction stringBody? quote cs generalizing value text rest with
  | case1 => simp at h
  | case2 => simp only [Option.some.injEq, Prod.mk.injEq] at h; simp [← h.2.1, ← h.2.2]
  | case3 r' ih =>
    obtain ⟨⟨v, t, s⟩, hb, he⟩ := Option.map_eq_some_iff.1 h
    simp only [Prod.mk.injEq] at he
    simp [← he.2.1, ← he.2.2, ih hb]
  | case4 => simp only [Option.some.injEq, Prod.mk.injEq] at h; simp [← h.2.1, ← h.2.2]
  | case5 => simp at h
  | case6 _ d r' ih =>
    obtain ⟨⟨v, t, s⟩, hb, he⟩ := Option.map_eq_some_iff.1 h
    simp only [Prod.mk.injEq] at he
    simp [← he.2.1, ← he.2.2, ih hb]
  | case7 c r _ _ ih =>
    obtain ⟨⟨v, t, s⟩, hb, he⟩ := Option.map_eq_some_iff.1 h
    simp only [Prod.mk.injEq] at he
    simp [← he.2.1, ← he.2.2, ih hb]

theorem identifierBody?_append {cs value text rest : List Char}
    (h : identifierBody? cs = some (value, text, rest)) : text ++ rest = cs := by
  fun_induction identifierBody? cs generalizing value text rest with
  | case1 => simp at h
  | case2 => simp only [Option.some.injEq, Prod.mk.injEq] at h; simp [← h.2.1, ← h.2.2]
  | case3 r' ih =>
    obtain ⟨⟨v, t, s⟩, hb, he⟩ := Option.map_eq_some_iff.1 h
    simp only [Prod.mk.injEq] at he
    simp [← he.2.1, ← he.2.2, ih hb]
  | case4 => simp only [Option.some.injEq, Prod.mk.injEq] at h; simp [← h.2.1, ← h.2.2]
  | case5 c r _ ih =>
    obtain ⟨⟨v, t, s⟩, hb, he⟩ := Option.map_eq_some_iff.1 h
    simp only [Prod.mk.injEq] at he
    simp [← he.2.1, ← he.2.2, ih hb]

theorem fractionText_append (cs : List Char) : (fractionText cs).1 ++ (fractionText cs).2 = cs := by
  unfold fractionText; split <;> simp

theorem signText_append (cs : List Char) : (signText cs).1 ++ (signText cs).2 = cs := by
  unfold signText; split <;> simp

theorem exponentText_append (cs : List Char) :
    (exponentText cs).1.text ++ (exponentText cs).2 = cs := by
  unfold exponentText
  split
  · simp [ExponentText.text]
  · rename_i c r
    split
    · have h := signText_append r
      generalize signText r = p at h ⊢
      obtain ⟨sign, r'⟩ := p
      simp only at h
      simp [ExponentText.text, ← h]
    · simp [ExponentText.text]

theorem word_append (cs : List Char) : (word cs).text ++ (word cs).rest = cs := by simp [word]

theorem number_append {offset : Nat} {cs : List Char} {l : Lexeme}
    (h : number offset cs = .ok l) : l.text ++ l.rest = cs := by
  have h₁ := fractionText_append (cs.dropWhile isDigit)
  have h₂ := exponentText_append (fractionText (cs.dropWhile isDigit)).2
  have h₃ : cs.takeWhile isDigit ++ cs.dropWhile isDigit = cs := by simp
  have hcs : cs.takeWhile isDigit ++ (fractionText (cs.dropWhile isDigit)).1 ++
      (exponentText (fractionText (cs.dropWhile isDigit)).2).1.text ++
      (exponentText (fractionText (cs.dropWhile isDigit)).2).2 = cs := by
    simp only [List.append_assoc, h₂, h₁, h₃]
  unfold number at h
  simp only at h
  split at h
  · split at h
    · cases h; exact word_append cs
    · cases h; exact hcs
  · split at h
    · cases h
    · cases h; exact hcs

theorem quotedDigits_append {offset : Nat} {letter : Char} {r : List Char} {l : Lexeme}
    (h : quotedDigits offset letter r = .ok l) : l.text ++ l.rest = letter :: '\'' :: r := by
  unfold quotedDigits at h
  simp only at h
  split at h
  · cases h
  · rename_i c rest hr
    split at h
    · cases h
      simp [← hr]
    · cases h

theorem radixDigits_append {offset : Nat} {letter : Char} {r : List Char} {l : Lexeme}
    (h : radixDigits offset letter r = .ok l) : l.text ++ l.rest = '0' :: letter :: r := by
  unfold radixDigits at h
  simp only at h
  split at h
  · exact number_append h
  · cases h; simp

theorem string_append {offset : Nat} {quote : Char} {r : List Char} {l : Lexeme}
    (h : string offset quote r = .ok l) : l.text ++ l.rest = quote :: r := by
  unfold string at h
  split at h
  · rename_i hb
    cases h
    simp [stringBody?_append hb]
  · cases h

theorem quotedIdentifier_append {offset : Nat} {r : List Char} {l : Lexeme}
    (h : quotedIdentifier offset r = .ok l) : l.text ++ l.rest = '\x60' :: r := by
  unfold quotedIdentifier at h
  split at h
  · rename_i hb
    cases h
    simp [identifierBody?_append hb]
  · cases h

/-- A lexeme is the start of the text it is read from. -/
theorem lexeme_append {offset : Nat} {c : Char} {r : List Char} {l : Lexeme}
    (h : lexeme offset c r = .ok l) : l.text ++ l.rest = c :: r := by
  obtain ⟨o, -, ho, he⟩ := exists_opening c r
  rw [he] at h
  cases ho with
  | mark => cases h; rfl
  | digit => exact number_append h
  | point => exact number_append h
  | string => exact string_append h
  | quotedIdentifier hc => rw [hc]; exact quotedIdentifier_append h
  | quotedDigits hr => rw [hr] at h ⊢; exact quotedDigits_append h
  | radixDigits hc _ hr => rw [hr] at h ⊢; rw [hc]; exact radixDigits_append h
  | word => cases h; exact word_append _
  | stray => cases h

theorem number_text_ne_nil {offset : Nat} {c : Char} {r : List Char} {l : Lexeme}
    (hc : isDigit c = true ∨ c = '.') (h : number offset (c :: r) = .ok l) : l.text ≠ [] := by
  have hne : (c :: r).takeWhile isDigit ++ (fractionText ((c :: r).dropWhile isDigit)).1 ≠ [] := by
    rcases hc with hd | rfl
    · simp [hd]
    · have : isDigit '.' = false := by decide
      simp [this, fractionText]
  unfold number at h
  simp only at h
  split at h
  · rename_i hz
    split at h
    · cases h
      rcases hc with hd | rfl
      · simp [word, isWordChar, hd]
      · have : isDigit '.' = false := by decide
        simp [this, fractionText] at hz
    · cases h
      simp only [ne_eq, List.append_eq_nil_iff] at hne ⊢
      exact fun hh => hne hh.1
  · split at h
    · cases h
    · cases h
      simp only [ne_eq, List.append_eq_nil_iff] at hne ⊢
      exact fun hh => hne hh.1

theorem radixDigits_text_ne_nil {offset : Nat} {letter : Char} {r : List Char} {l : Lexeme}
    (h : radixDigits offset letter r = .ok l) : l.text ≠ [] := by
  unfold radixDigits at h
  simp only at h
  split at h
  · exact number_text_ne_nil (.inl (by decide)) h
  · cases h; simp

theorem quotedDigits_text_ne_nil {offset : Nat} {letter : Char} {r : List Char} {l : Lexeme}
    (h : quotedDigits offset letter r = .ok l) : l.text ≠ [] := by
  unfold quotedDigits at h
  simp only at h
  split at h
  · cases h
  · split at h <;> cases h
    exact List.cons_ne_nil _ _

/-- A lexeme takes at least one character. -/
theorem lexeme_text_ne_nil {offset : Nat} {c : Char} {r : List Char} {l : Lexeme}
    (h : lexeme offset c r = .ok l) : l.text ≠ [] := by
  obtain ⟨o, -, ho, he⟩ := exists_opening c r
  rw [he] at h
  cases ho with
  | mark => cases h; exact List.cons_ne_nil _ _
  | digit hc => exact number_text_ne_nil (.inl hc) h
  | point hc => exact number_text_ne_nil (.inr hc) h
  | string => simp only [Opening.lexeme, Sql.string] at h; split at h <;> cases h; exact List.cons_ne_nil _ _
  | quotedIdentifier =>
      simp only [Opening.lexeme, Sql.quotedIdentifier] at h
      split at h <;> cases h
      exact List.cons_ne_nil _ _
  | quotedDigits => exact quotedDigits_text_ne_nil h
  | radixDigits => exact radixDigits_text_ne_nil h
  | word hc => cases h; simp [word, isWordChar, hc]
  | stray => cases h

theorem gap_append (cs : List Char) : (gap cs).1 ++ (gap cs).2 = cs := by
  fun_induction gap cs with
  | case1 => rfl
  | case2 cs item rest h ih =>
    simp only [List.append_assoc, ih, gapItem?_append h]

/-- The gap and text of a token are what the cursor moves over. -/
theorem Cursor.next_append {a b : Cursor} {t : Token} (h : a.next = (.ok (some t), b)) :
    t.gap ++ t.text ++ b.rest = a.rest := by
  have hg := gap_append a.rest
  unfold Cursor.next at h
  generalize gap a.rest = g at h hg
  obtain ⟨before, rest⟩ := g
  simp only at h hg
  split at h
  · cases h
  · cases h
  · rename_i c r _
    split at h
    · cases h
    · rename_i l hl
      cases h
      simp [lexeme_append hl, hg]

theorem Cursor.next_text_ne_nil {a b : Cursor} {t : Token} (h : a.next = (.ok (some t), b)) :
    t.text ≠ [] := by
  unfold Cursor.next at h
  generalize gap a.rest = g at h
  obtain ⟨before, rest⟩ := g
  simp only at h
  split at h
  · cases h
  · cases h
  · split at h
    · cases h
    · rename_i hl
      cases h
      exact lexeme_text_ne_nil hl

theorem Cursor.next_offset {a b : Cursor} {t : Token} (h : a.next = (.ok (some t), b)) :
    t.offset = a.offset + byteLength t.gap ∧ b.offset = t.offset + byteLength t.text := by
  unfold Cursor.next at h
  generalize gap a.rest = g at h
  obtain ⟨before, rest⟩ := g
  simp only at h
  split at h
  · cases h
  · cases h
  · split at h
    · cases h
    · cases h
      exact ⟨rfl, rfl⟩

theorem Cursor.next_end {a b : Cursor} (h : a.next = (.ok none, b)) :
    b.rest = [] ∧ b.offset = a.offset + byteLength a.rest := by
  have hg := gap_append a.rest
  unfold Cursor.next at h
  generalize gap a.rest = g at h hg
  obtain ⟨before, rest⟩ := g
  simp only at h hg
  split at h
  · cases h
    rw [← hg, List.append_nil]
    exact ⟨rfl, rfl⟩
  · cases h
  · split at h <;> cases h

theorem Cursor.length_next {a b : Cursor} {t : Token} (h : a.next = (.ok (some t), b)) :
    b.rest.length < a.rest.length := by
  have h₁ := congrArg List.length (Cursor.next_append h)
  have h₂ := List.length_pos_iff.2 (Cursor.next_text_ne_nil h)
  simp only [List.length_append] at h₁
  omega

/-- The tokens from a cursor on, the last of them an error if the script cannot be read to its
end, and the place where reading stops. -/
def scan (cursor : Cursor) : List (Except LexError Token) × Cursor :=
  match _h : cursor.next with
  | (.ok none, c) => ([], c)
  | (.error e, c) => ([.error e], c)
  | (.ok (some t), c) => (.ok t :: (scan c).1, (scan c).2)
termination_by cursor.rest.length
decreasing_by all_goals exact Cursor.length_next _h

theorem scan_cases (a : Cursor) : (a.next.1 = .ok none ∧ (scan a).1 = []) ∨
    (∃ e, a.next.1 = .error e ∧ (scan a).1 = [.error e]) ∨
    ∃ t b, a.next = (.ok (some t), b) ∧ (scan a).1 = .ok t :: (scan b).1 := by
  rw [scan]
  split
  · rename_i he
    exact .inl ⟨by rw [he], rfl⟩
  · rename_i he
    exact .inr (.inl ⟨_, by rw [he], rfl⟩)
  · rename_i he
    exact .inr (.inr ⟨_, _, he, rfl⟩)

def tokens (script : String) : List (Except LexError Token) := (scan (.start script.toList)).1

/-! ### Reading with one token of lookahead -/

/-- A cursor and the token after it, once that has been looked at. The end of the script counts
as a token here. -/
structure Lexer where
  cursor : Cursor
  peeked : Option (Option Token)

namespace Lexer

def start (script : String) : Lexer := ⟨.start script.toList, none⟩

/-- The offset after the last token that was read or looked at. -/
def position (l : Lexer) : Nat := l.cursor.offset

def peek (l : Lexer) : Except LexError (Option Token) × Lexer :=
  match l.peeked with
  | some t => (.ok t, l)
  | none =>
    match l.cursor.next with
    | (.ok t, c) => (.ok t, ⟨c, some t⟩)
    | (.error e, c) => (.error e, ⟨c, none⟩)

def next (l : Lexer) : Except LexError (Option Token) × Lexer :=
  match l.peeked with
  | some t => (.ok t, { l with peeked := none })
  | none => (l.cursor.next.1, ⟨l.cursor.next.2, none⟩)

end Lexer

/-- A text split after a number of bytes; `none` if that is inside a character or past the end. -/
def splitAtByte? : Nat → List Char → Option (List Char × List Char)
  | 0, cs => some ([], cs)
  | _ + 1, [] => none
  | n + 1, c :: r =>
    if c.utf8Size ≤ n + 1 then
      (splitAtByte? (n + 1 - c.utf8Size) r).map fun (before, after) => (c :: before, after)
    else none

/-- The part of a text between two byte offsets. -/
def slice? (cs : List Char) (start stop : Nat) : Option (List Char) :=
  if start ≤ stop then
    (splitAtByte? start cs).bind fun (_, after) => (splitAtByte? (stop - start) after).map (·.1)
  else none

variable {n start stop : Nat} {cs before after part : List Char}

theorem splitAtByte?_cons (n : Nat) (c : Char) (cs : List Char) :
    splitAtByte? (c.utf8Size + n) (c :: cs) =
      (splitAtByte? n cs).map fun (before, after) => (c :: before, after) := by
  obtain ⟨m, hm⟩ := Nat.exists_eq_add_of_lt c.utf8Size_pos
  have hn : c.utf8Size + n = m + n + 1 := by omega
  rw [hn, splitAtByte?, if_pos (by omega)]
  congr 2
  omega

theorem splitAtByte?_append (before after : List Char) :
    splitAtByte? (byteLength before) (before ++ after) = some (before, after) := by
  induction before with
  | nil => rw [byteLength_nil, splitAtByte?, List.nil_append]
  | cons c before ih => rw [byteLength_cons, List.cons_append, splitAtByte?_cons, ih, Option.map_some]

theorem splitAtByte?_spec (h : splitAtByte? n cs = some (before, after)) :
    cs = before ++ after ∧ byteLength before = n := by
  fun_induction splitAtByte? n cs generalizing before with
  | case1 => cases h; exact ⟨rfl, rfl⟩
  | case2 => cases h
  | case3 n c r hc ih =>
    obtain ⟨⟨split, _⟩, hsplit, he⟩ := Option.map_eq_some_iff.1 h
    obtain ⟨rfl, hn⟩ := ih (hsplit.trans (by rw [(Prod.mk.inj he).2]))
    cases he
    exact ⟨rfl, by rw [byteLength_cons]; omega⟩
  | case4 => cases h

/-- A slice is there just when it starts and stops between characters, or at an end of the text. -/
theorem slice?_eq_some_iff : slice? cs start stop = some part ↔
    ∃ before after, cs = before ++ (part ++ after) ∧ start = byteLength before ∧ stop = byteLength (before ++ part) := by
  constructor
  · intro h
    unfold slice? at h
    split at h
    · obtain ⟨⟨before, rest⟩, hstart, h⟩ := Option.bind_eq_some_iff.1 h
      obtain ⟨⟨found, after⟩, hstop, he⟩ := Option.map_eq_some_iff.1 h
      obtain rfl : found = part := he
      obtain ⟨rfl, hbefore⟩ := splitAtByte?_spec hstart
      obtain ⟨rfl, hpart⟩ := splitAtByte?_spec hstop
      refine ⟨before, after, rfl, hbefore.symm, ?_⟩
      rw [byteLength_append]
      omega
    · cases h
  · rintro ⟨before, after, rfl, rfl, rfl⟩
    rw [slice?, byteLength_append, if_pos (Nat.le_add_right _ _), splitAtByte?_append, Option.bind_some,
      Nat.add_sub_cancel_left]
    dsimp only
    rw [splitAtByte?_append, Option.map_some]

end DdlCatalog.Sql
