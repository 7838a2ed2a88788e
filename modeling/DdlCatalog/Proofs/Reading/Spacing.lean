import DdlCatalog.Proofs.Reading.Blanks
import DdlCatalog.Proofs.Reading.Gaps

/-!
Spacing. Blanks and complete comments before a text change only the places of what is read from it, so texts with such
gaps between them are read as each of them is on its own.
-/

namespace DdlCatalog.Sql

variable {g x body : List Char} {a b : Cursor} {t : Token} {ts : List Token}

/-! ### A text behind a gap -/

/-- A block comment is read up to the first end in it. -/
theorem blockComment?_of_body (h : ¬ ['*', '/'] <:+: body) (cs : List Char) :
    blockComment? (body ++ '*' :: '/' :: cs) = some (body ++ ['*', '/'], cs) := by
  induction body with
  | nil => rfl
  | cons c body ih =>
      rw [List.infix_cons_iff, not_or] at h
      have hends : ¬ (c = '*' ∧ (body ++ '*' :: '/' :: cs).head? = some '/') := by
        rintro ⟨rfl, hslash⟩
        cases body with
        | nil => cases hslash
        | cons d body =>
            cases hslash
            exact h.1 ⟨body, rfl⟩
      rw [List.cons_append, Bytes.blockComment?_cons hends, ih h.2]
      rfl

theorem lineComment_closed (h : '\n' ∉ body) (cs : List Char) :
    (body ++ '\n' :: cs).takeWhile (· ≠ '\n') = body ∧ (body ++ '\n' :: cs).dropWhile (· ≠ '\n') = '\n' :: cs := by
  have hbody : ∀ c ∈ body, decide (c ≠ '\n') = true := fun c hc => decide_eq_true (by rintro rfl; exact h hc)
  exact ⟨takeWhile_run hbody (by rintro c ⟨⟩; rfl), dropWhile_run hbody (by rintro c ⟨⟩; rfl)⟩

theorem gap_newline (cs : List Char) : gap ('\n' :: cs) = ('\n' :: (gap cs).1, (gap cs).2) :=
  gap_of_gapItem? (gapItem?_space rfl cs)

/-- Blanks and complete comments before a text are a part of the gap at its start. -/
theorem gap_blank (h : Blank g) (y : List Char) : gap (g ++ y) = (g ++ (gap y).1, (gap y).2) := by
  induction h with
  | nil => rfl
  | @space c cs hc _ ih => rw [List.cons_append, gap_of_gapItem? (gapItem?_space hc _), ih]; rfl
  | @dashes body cs hbody _ ih =>
      obtain ⟨htake, hdrop⟩ := lineComment_closed hbody (cs ++ y)
      have hitem : gapItem? ('-' :: '-' :: (body ++ '\n' :: (cs ++ y))) =
          some ('-' :: '-' :: body, '\n' :: (cs ++ y)) := by
        change some ('-' :: '-' :: (body ++ '\n' :: (cs ++ y)).takeWhile _, _) = _
        rw [htake, hdrop]
      simp only [List.cons_append, List.append_assoc, gap_of_gapItem? hitem, gap_newline, ih]
  | @hash body cs hbody _ ih =>
      obtain ⟨htake, hdrop⟩ := lineComment_closed hbody (cs ++ y)
      have hitem : gapItem? ('#' :: (body ++ '\n' :: (cs ++ y))) = some ('#' :: body, '\n' :: (cs ++ y)) := by
        change some ('#' :: (body ++ '\n' :: (cs ++ y)).takeWhile _, _) = _
        rw [htake, hdrop]
      simp only [List.cons_append, List.append_assoc, gap_of_gapItem? hitem, gap_newline, ih]
  | @block body cs hbody _ ih =>
      have hitem : gapItem? ('/' :: '*' :: (body ++ '*' :: '/' :: (cs ++ y))) =
          some ('/' :: '*' :: (body ++ ['*', '/']), cs ++ y) := by
        change (blockComment? (body ++ '*' :: '/' :: (cs ++ y))).map _ = _
        rw [blockComment?_of_body hbody]
        rfl
      simp only [List.cons_append, List.append_assoc, gap_of_gapItem? hitem, ih, List.nil_append]

/-- A token with more before it. -/
def Token.behind (g : List Char) (t : Token) : Token := { t with gap := g ++ t.gap }

/-- What is read behind a gap: the gap belongs to the first token. -/
def behindGap (g : List Char) (items : Tokens) : Tokens := items.modifyHead (Except.map (Token.behind g))

theorem next_blank (h : Blank g) (n : Nat) (y : List Char) : Cursor.next ⟨n, g ++ y⟩ =
    ((Cursor.next ⟨n + byteLength g, y⟩).1.map (Option.map (Token.behind g)),
      (Cursor.next ⟨n + byteLength g, y⟩).2) := by
  unfold Cursor.next
  simp only [gap_blank h, byteLength_append, Nat.add_assoc]
  generalize gap y = found
  obtain ⟨before, rest⟩ := found
  dsimp only
  split
  · rfl
  · rfl
  · rename_i c r _
    cases lexeme (n + (byteLength g + byteLength before)) c r with
    | error f => rfl
    | ok l => rfl

theorem scan_blank (h : Blank g) (n : Nat) (y : List Char) :
    scan ⟨n, g ++ y⟩ = (behindGap g (scan ⟨n + byteLength g, y⟩).1, (scan ⟨n + byteLength g, y⟩).2) := by
  rw [scan_eq, next_blank h, scan_eq ⟨n + byteLength g, y⟩]
  obtain ⟨found, b⟩ := Cursor.next ⟨n + byteLength g, y⟩
  cases found with
  | error e => rfl
  | ok t? => cases t? <;> rfl

/-! ### Texts with gaps between them -/

/-- The text can be read to its end, which is where its last token ends, unless the text is empty. -/
structure EndsInToken (x : List Char) (ts : List Token) : Prop where
  read : (scan (.start x)).1 = items ts
  ending : x = [] ∨ ∃ t ∈ ts.getLast?, t.offset + byteLength t.text = byteLength x

/-- Blanks and complete comments, of which the first is a blank. -/
structure Gap (g : List Char) : Prop where
  blank : Blank g
  starts : ∃ c ∈ g.head?, isSpace c = true

theorem Gap.spaced (h : Gap g) (y : List Char) : Spaced (g ++ y) := by
  obtain ⟨c, hhead, hc⟩ := h.starts
  obtain ⟨r, rfl⟩ := List.head?_eq_some_iff.1 hhead
  exact spaced_cons hc _

theorem Cursor.Moves.offset_eq (h : a.Moves ts b) (ht : t ∈ ts.getLast?) : b.offset = t.offset + byteLength t.text := by
  induction h with
  | refl a => cases ht
  | @step a b c u us hnext hmoves ih =>
      cases us with
      | nil =>
          cases hmoves
          cases ht
          exact (Cursor.next_offset hnext).2
      | cons v us => exact ih (by rwa [List.getLast?_cons_cons] at ht)

/-- Nothing is left behind the last token. -/
theorem EndsInToken.moves (h : EndsInToken x ts) : Cursor.Moves (.start x) ts ⟨byteLength x, []⟩ := by
  obtain ⟨last, hmoves, -⟩ := exists_moves h.read
  obtain ⟨hspelled, hoffset⟩ := hmoves.spelling_eq
  have hstart : (Cursor.start x).offset = 0 := rfl
  have htext : x = spelling ts ++ last.rest := hspelled
  have hend : last.offset = byteLength x := by
    rcases h.ending with rfl | ⟨t, ht, hlast⟩
    · rw [hoffset, hstart, (List.append_eq_nil_iff.1 htext.symm).1]
      rfl
    · rw [hmoves.offset_eq ht, hlast]
  have hrest : last.rest = [] := by
    have hlength := length_le_byteLength last.rest
    have hparts := congrArg byteLength htext
    rw [byteLength_append] at hparts
    exact List.eq_nil_of_length_eq_zero (by omega)
  obtain ⟨offset, rest⟩ := last
  obtain rfl : offset = byteLength x := hend
  obtain rfl : rest = [] := hrest
  exact hmoves

/-- A gap ends the text before it, and the text behind it is read as on its own. -/
theorem scan_gap (hx : EndsInToken x ts) (hg : Gap g) (y : List Char) :
    scan (.start (x ++ (g ++ y))) =
      (items ts ++ behindGap g ((scan (.start y)).1.map (movedItem (byteLength (x ++ g)))),
        (scan (.start y)).2.moved (byteLength (x ++ g))) := by
  have hmoves : Cursor.Moves (.start (x ++ (g ++ y))) ts ⟨byteLength x, g ++ y⟩ := hx.moves.more (hg.spaced y)
  have hfurther : (⟨byteLength x + byteLength g, y⟩ : Cursor) = (Cursor.start y).moved (byteLength (x ++ g)) := by
    rw [byteLength_append]
    rfl
  rw [hmoves.scan_eq, scan_blank hg.blank, hfurther, scan_moved]

/-- Texts with gaps behind them, and a last text. -/
def spread (pieces : List (List Char × List Char)) (y : List Char) : List Char :=
  pieces.foldr (fun piece rest => piece.1 ++ (piece.2 ++ rest)) y

/-- The kinds of tokens, with none for an error. -/
def kindsOf (items : Tokens) : List (Option TokenKind) := items.map fun item => item.toOption.map Token.kind

theorem kindsOf_append (items items' : Tokens) : kindsOf (items ++ items') = kindsOf items ++ kindsOf items' :=
  List.map_append

theorem kindsOf_behindGap (g : List Char) (items : Tokens) : kindsOf (behindGap g items) = kindsOf items := by
  cases items with
  | nil => rfl
  | cons item items => cases item <;> rfl

theorem kindsOf_moved (n : Nat) (items : Tokens) : kindsOf (items.map (movedItem n)) = kindsOf items := by
  rw [kindsOf, kindsOf, List.map_map]
  refine List.map_congr_left fun item _ => ?_
  cases item <;> rfl

/-- Behind a text that ends in a token and a gap, any text is read as on its own, with every place further on. So texts
with gaps between them have the kinds of tokens that they have one by one, whatever the gaps are made of. -/
theorem texts_between_gaps :
    (∀ {x g ts}, EndsInToken x ts → Gap g → ∀ y, scan (.start (x ++ (g ++ y))) =
      (items ts ++ behindGap g ((scan (.start y)).1.map (movedItem (byteLength (x ++ g)))),
        (scan (.start y)).2.moved (byteLength (x ++ g)))) ∧
    ∀ {pieces : List (List Char × List Char)}, (∀ piece ∈ pieces, (∃ ts, EndsInToken piece.1 ts) ∧ Gap piece.2) → ∀ y,
      kindsOf (scan (.start (spread pieces y))).1 =
        (pieces.flatMap fun piece => kindsOf (scan (.start piece.1)).1) ++ kindsOf (scan (.start y)).1 := by
  refine ⟨fun hx hg y => scan_gap hx hg y, fun hpieces y => ?_⟩
  rename_i pieces
  induction pieces with
  | nil => rfl
  | cons piece pieces ih =>
      obtain ⟨⟨ts, hx⟩, hg⟩ := hpieces piece List.mem_cons_self
      have hrest := ih fun p hp => hpieces p (List.mem_cons_of_mem _ hp)
      change kindsOf (scan (.start (piece.1 ++ (piece.2 ++ spread pieces y)))).1 = _
      rw [scan_gap hx hg, kindsOf_append, kindsOf_behindGap, kindsOf_moved, hrest, List.flatMap_cons, hx.read,
        List.append_assoc]

/-- A difference, a comment with a quote in it and a string without an end. -/
theorem texts_between_gaps_comment :
    ∃ ts, EndsInToken "a-0x".toList ts ∧ Gap "\t-- it's\n/**/".toList ∧
      scan (.start "a-0x\t-- it's\n/**/'open".toList) =
        (items ts ++ [.error (.unterminatedString 17)], ⟨17, "'open".toList⟩) ∧
      kindsOf (scan (.start "a-0x\t-- it's\n/**/'open".toList)).1 =
        [some (.word "a"), some .minus, some (.word "0x"), none] := by
  have hx : EndsInToken "a-0x".toList
      [⟨.word "a", 0, ['a'], []⟩, ⟨.minus, 1, ['-'], []⟩, ⟨.word "0x", 2, ['0', 'x'], []⟩] :=
    ⟨by decide +kernel, .inr ⟨_, rfl, by decide⟩⟩
  have hg : Gap "\t-- it's\n/**/".toList := by
    have hblock : Blank ('/' :: '*' :: ([] ++ '*' :: '/' :: [])) := .block (by decide) .nil
    have hdashes : Blank ('-' :: '-' :: (" it's".toList ++ '\n' :: "/**/".toList)) := .dashes (by decide) hblock
    exact ⟨.space rfl hdashes, _, rfl, rfl⟩
  have hy : scan (.start "'open".toList) = ([.error (.unterminatedString 0)], ⟨0, "'open".toList⟩) := by decide +kernel
  refine ⟨_, hx, hg, ?_, ?_⟩
  · refine (texts_between_gaps.1 hx hg "'open".toList).trans ?_
    rw [hy]
    rfl
  · have hpieces : ∀ piece ∈ [("a-0x".toList, "\t-- it's\n/**/".toList)],
        (∃ ts, EndsInToken piece.1 ts) ∧ Gap piece.2 := by
      rintro piece (- | ⟨_, ⟨⟩⟩)
      exact ⟨⟨_, hx⟩, hg⟩
    refine (texts_between_gaps.2 hpieces "'open".toList).trans ?_
    rw [hy, List.flatMap_singleton, hx.read]
    decide +kernel

end DdlCatalog.Sql
