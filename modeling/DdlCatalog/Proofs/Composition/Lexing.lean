import DdlCatalog.Proofs.Composition.Moved
import DdlCatalog.Proofs.Composition.Steady
import DdlCatalog.Proofs.Decimal.Digits

/-!
Tokens before a blank. A token ends where its text ends or before a blank, so that what a text is read as does not
change if a new line and any other text follow it.
-/

namespace DdlCatalog.Sql

/-- Nothing, or a text on a new line. -/
def NewLine (cs : List Char) : Prop := ∀ c ∈ cs.head?, c = '\n'

/-- Nothing, or a text behind a blank. -/
def Spaced (cs : List Char) : Prop := ∀ c ∈ cs.head?, isSpace c = true

variable {cs rest z : List Char} {offset : Nat} {l : Lexeme}

theorem newLine_cons (cs : List Char) : NewLine ('\n' :: cs) := by
  rintro c ⟨⟩
  rfl

theorem spaced_nil : Spaced [] := by
  rintro c ⟨⟩

theorem spaced_cons {c : Char} (h : isSpace c = true) (cs : List Char) : Spaced (c :: cs) := by
  rintro d ⟨⟩
  exact h

theorem NewLine.spaced (h : NewLine cs) : Spaced cs := by
  intro c hc
  rw [h c hc]
  rfl

theorem isSpace_iff {c : Char} : isSpace c = true ↔ c ∈ [' ', '\t', '\n', '\x0c', '\r'] := by
  simp only [isSpace, Bool.or_eq_true, decide_eq_true_eq, List.mem_cons, List.not_mem_nil, or_false, or_assoc]

namespace Spaced

/-- No blank belongs to the characters, so that a run of them ends. -/
theorem not_head (hz : Spaced z) {p : Char → Bool} (hp : [' ', '\t', '\n', '\x0c', '\r'].any p = false) :
    ∀ c ∈ z.head?, p c = false :=
  fun c hc => Bool.eq_false_of_not_eq_true (List.any_eq_false.1 hp c (isSpace_iff.1 (hz c hc)))

theorem head?_ne (hz : Spaced z) {c : Char} (hc : isSpace c = false) : z.head? ≠ some c := by
  intro h
  rw [hz c h] at hc
  cases hc

theorem not_wordChar (hz : Spaced z) : ∀ c ∈ z.head?, isWordChar c = false := hz.not_head (by decide)

theorem not_digit (hz : Spaced z) : ∀ c ∈ z.head?, isDigit c = false := hz.not_head (by decide)

theorem not_radixDigit (hz : Spaced z) (hexadecimal : Bool) : ∀ c ∈ z.head?, isRadixDigit hexadecimal c = false :=
  hz.not_head (by cases hexadecimal <;> decide)

theorem ends_word (hz : Spaced z) : ∀ c ∈ z.head?, isWordChar c = false ∧ c ≠ '\'' :=
  fun c hc => ⟨hz.not_wordChar c hc, fun he => hz.head?_ne rfl (he ▸ hc)⟩

theorem ends_number (hz : Spaced z) : EndsNumber z :=
  fun c hc => ⟨hz.not_wordChar c hc, fun he => hz.head?_ne rfl (he ▸ hc)⟩

end Spaced

/-! ### Gaps -/

theorem blockComment?_more {body : List Char} (h : blockComment? cs = some (body, rest)) :
    blockComment? (cs ++ z) = some (body, rest ++ z) := by
  fun_induction blockComment? cs generalizing body rest with
  | case1 => cases h
  | case2 r => cases h; rfl
  | case3 c r hend ih =>
      obtain ⟨⟨b, r'⟩, hb, he⟩ := Option.map_eq_some_iff.1 h
      cases he
      cases r with
      | nil => cases hb
      | cons d r =>
          rw [List.cons_append, List.cons_append, blockComment?]
          · rw [← List.cons_append, ih hb]
            rfl
          · rintro r' rfl hr
            cases hr
            exact hend _ rfl rfl

/-- A run that ends before the end of a text ends there whatever follows the text. -/
theorem takeWhile_dropWhile_append {p : Char → Bool} (h : cs.dropWhile p ≠ []) (z : List Char) :
    (cs ++ z).takeWhile p = cs.takeWhile p ∧ (cs ++ z).dropWhile p = cs.dropWhile p ++ z := by
  induction cs with
  | nil => exact absurd rfl h
  | cons c cs ih =>
      by_cases hc : p c = true
      · rw [List.dropWhile_cons_of_pos hc] at h
        simp [hc, ih h]
      · simp [hc]

/-- A line comment is closed by a new line, in the text or behind it. -/
theorem lineComment_more (r : List Char) (hz : r.dropWhile (· ≠ '\n') = [] → NewLine z) :
    (r ++ z).takeWhile (· ≠ '\n') = r.takeWhile (· ≠ '\n') ∧
      (r ++ z).dropWhile (· ≠ '\n') = r.dropWhile (· ≠ '\n') ++ z := by
  by_cases hopen : r.dropWhile (· ≠ '\n') = []
  · have hline : ∀ c ∈ z.head?, decide (c ≠ '\n') = false := fun c hc => by simp [hz hopen c hc]
    exact ⟨takeWhile_append_of_head hline, dropWhile_append_of_head hline⟩
  · exact takeWhile_dropWhile_append hopen z

/-- An item of a gap stays as it is, unless it is a line comment that goes on behind the text. -/
theorem gapItem?_more {item : List Char} (hz : rest = [] → NewLine z) (h : gapItem? cs = some (item, rest)) :
    gapItem? (cs ++ z) = some (item, rest ++ z) := by
  unfold gapItem? at h
  split at h
  · rename_i r
    cases h
    change some ('-' :: '-' :: (r ++ z).takeWhile _, (r ++ z).dropWhile _) = _
    obtain ⟨htake, hdrop⟩ := lineComment_more r hz
    rw [htake, hdrop]
  · rename_i r
    cases h
    change some ('#' :: (r ++ z).takeWhile _, (r ++ z).dropWhile _) = _
    obtain ⟨htake, hdrop⟩ := lineComment_more r hz
    rw [htake, hdrop]
  · rename_i r
    obtain ⟨⟨b, r'⟩, hb, he⟩ := Option.map_eq_some_iff.1 h
    cases he
    change (blockComment? (r ++ z)).map _ = _
    rw [blockComment?_more hb]
    rfl
  · rename_i c r _ _ _
    split at h
    · rename_i hspace
      cases h
      exact gapItem?_space hspace _
    · cases h
  · cases h

/-- The text starts with a comment that does not end. -/
def Unending (cs : List Char) : Prop := ∃ r, cs = '/' :: '*' :: r

theorem gapItem?_none_more (hz : Spaced z) (hne : cs ≠ []) (hending : ¬ Unending cs) (h : gapItem? cs = none) :
    gapItem? (cs ++ z) = none := by
  obtain ⟨c, r, rfl⟩ := List.exists_cons_of_ne_nil hne
  have hspace : isSpace c = false := by
    rw [Bool.eq_false_iff]
    intro hc
    rw [gapItem?_space hc] at h
    cases h
  -- A character that goes with the first one stands before the blank.
  have hnext {d : Char} {r' : List Char} (hd : isSpace d = false) (he : r ++ z = d :: r') : ∃ r', r = d :: r' := by
    cases r with
    | nil => exact absurd (by rw [show z = _ from he]; rfl) (hz.head?_ne hd)
    | cons e r => cases he; exact ⟨r, rfl⟩
  rw [List.cons_append]
  unfold gapItem?
  split
  · rename_i he
    obtain ⟨rfl, hr⟩ := List.cons.inj he
    obtain ⟨r', rfl⟩ := hnext (by decide) hr
    cases h
  · rename_i he
    obtain ⟨rfl, -⟩ := List.cons.inj he
    cases h
  · rename_i he
    obtain ⟨rfl, hr⟩ := List.cons.inj he
    obtain ⟨r', rfl⟩ := hnext (by decide) hr
    exact absurd ⟨r', rfl⟩ hending
  · rename_i he
    obtain ⟨rfl, -⟩ := List.cons.inj he
    rw [if_neg (by simp [hspace])]
  · rename_i he
    cases he

/-- A gap that reaches to the end goes on behind it. -/
theorem gap_more_of_end (hz : NewLine z) (h : (gap cs).2 = []) :
    gap (cs ++ z) = ((gap cs).1 ++ (gap z).1, (gap z).2) := by
  fun_induction gap cs with
  | case1 cs => cases h; rfl
  | case2 cs item rest hitem ih =>
      rw [gap_of_gapItem? (gapItem?_more (fun _ => hz) hitem), ih h, List.append_assoc]

/-- A gap before a token stays as it is. -/
theorem gap_more (hz : Spaced z) (hne : (gap cs).2 ≠ []) (hending : ¬ Unending (gap cs).2) :
    gap (cs ++ z) = ((gap cs).1, (gap cs).2 ++ z) := by
  fun_induction gap cs with
  | case1 cs hitem => exact gap_of_gapItem?_eq_none (gapItem?_none_more hz hne hending hitem)
  | case2 cs item rest hitem ih =>
      have hrest : rest = [] → NewLine z := by
        rintro rfl
        exact absurd (by rw [gap_of_gapItem?_eq_none rfl]) hne
      rw [gap_of_gapItem? (gapItem?_more hrest hitem), ih hne hending]

/-! ### Lexemes -/

/-- The same lexeme before a longer text. -/
def Lexeme.more (l : Lexeme) (z : List Char) : Lexeme := { l with rest := l.rest ++ z }

theorem head?_any_more {p : Char → Bool} (hp : ∀ c ∈ z.head?, p c = false) (cs : List Char) :
    (cs ++ z).head?.any p = cs.head?.any p := by
  cases cs with
  | cons c cs => rfl
  | nil =>
      cases z with
      | nil => rfl
      | cons d z => exact hp d rfl

theorem word_more (hz : Spaced z) (cs : List Char) : word (cs ++ z) = (word cs).more z := by
  rw [word, takeWhile_append_of_head hz.not_wordChar, dropWhile_append_of_head hz.not_wordChar]
  rfl

theorem fractionText_more (hz : Spaced z) (cs : List Char) :
    fractionText (cs ++ z) = ((fractionText cs).1, (fractionText cs).2 ++ z) := by
  have hnot := hz.not_digit
  cases cs with
  | nil => exact fractionText_other (hz.head?_ne rfl)
  | cons c r =>
      by_cases hc : c = '.'
      · rw [hc, List.cons_append]
        change ('.' :: (r ++ z).takeWhile isDigit, (r ++ z).dropWhile isDigit) = _
        rw [takeWhile_append_of_head hnot, dropWhile_append_of_head hnot]
        rfl
      · rw [List.cons_append, fractionText_cons_other hc, fractionText_cons_other hc]
        rfl

theorem signText_other (h : ∀ c ∈ cs.head?, c ≠ '+' ∧ c ≠ '-') : signText cs = ([], cs) := by
  unfold signText
  split
  · exact absurd rfl (h '+' rfl).1
  · exact absurd rfl (h '-' rfl).2
  · rfl

theorem signText_cons_other {c : Char} (hplus : c ≠ '+') (hminus : c ≠ '-') (cs : List Char) :
    signText (c :: cs) = ([], c :: cs) :=
  signText_other (by rintro d ⟨⟩; exact ⟨hplus, hminus⟩)

theorem signText_more (hz : Spaced z) (cs : List Char) :
    signText (cs ++ z) = ((signText cs).1, (signText cs).2 ++ z) := by
  cases cs with
  | nil =>
      refine signText_other fun c hc => ⟨?_, ?_⟩
      · rintro rfl
        exact hz.head?_ne rfl hc
      · rintro rfl
        exact hz.head?_ne rfl hc
  | cons c r =>
      by_cases hplus : c = '+'
      · rw [hplus]; rfl
      by_cases hminus : c = '-'
      · rw [hminus]; rfl
      rw [List.cons_append, signText_cons_other hplus hminus, signText_cons_other hplus hminus]
      rfl

theorem exponentText_more (hz : Spaced z) (cs : List Char) :
    exponentText (cs ++ z) = ((exponentText cs).1, (exponentText cs).2 ++ z) := by
  have hnot := hz.not_digit
  cases cs with
  | nil => exact exponentText_other (hz.head?_ne rfl) (hz.head?_ne rfl)
  | cons c r =>
      simp only [List.cons_append, exponentText]
      split
      · rw [signText_more hz, takeWhile_append_of_head hnot, dropWhile_append_of_head hnot]
      · rfl

theorem number_more (hz : Spaced z) (h : number offset cs = .ok l) : number offset (cs ++ z) = .ok (l.more z) := by
  unfold number at h ⊢
  simp only [takeWhile_append_of_head hz.not_digit, dropWhile_append_of_head hz.not_digit, fractionText_more hz,
    exponentText_more hz, head?_any_more hz.not_wordChar] at h ⊢
  split at h
  · rename_i hinteger
    rw [if_pos hinteger]
    split at h
    · rename_i hword
      cases h
      rw [if_pos hword, word_more hz]
    · rename_i hword
      cases h
      rw [if_neg hword]
      rfl
  · rename_i hinteger
    rw [if_neg hinteger]
    split at h
    · cases h
    · rename_i hdigits
      cases h
      rw [if_neg hdigits]
      rfl

theorem stringBody?_more {quote : Char} (hz : Spaced z) (hquote : isSpace quote = false) {value text : List Char}
    (h : stringBody? quote cs = some (value, text, rest)) :
    stringBody? quote (cs ++ z) = some (value, text, rest ++ z) := by
  fun_induction stringBody? quote cs generalizing value text rest with
  | case1 => cases h
  | case2 => cases h; exact stringBody?_closed (hz.head?_ne hquote)
  | case3 r ih =>
      obtain ⟨⟨v, t, r'⟩, hb, he⟩ := Option.map_eq_some_iff.1 h
      cases he
      simp [stringBody?, ih hb]
  | case4 d r hd => cases h; simp [stringBody?, hd]
  | case5 => cases h
  | case6 d r hc ih =>
      obtain ⟨⟨v, t, r'⟩, hb, he⟩ := Option.map_eq_some_iff.1 h
      cases he
      simp [stringBody?, hc, ih hb]
  | case7 c r hc hslash ih =>
      obtain ⟨⟨v, t, r'⟩, hb, he⟩ := Option.map_eq_some_iff.1 h
      cases he
      simp [stringBody?.eq_def quote (c :: _), hc, hslash, ih hb]

theorem identifierBody?_more (hz : Spaced z) {value text : List Char}
    (h : identifierBody? cs = some (value, text, rest)) :
    identifierBody? (cs ++ z) = some (value, text, rest ++ z) := by
  fun_induction identifierBody? cs generalizing value text rest with
  | case1 => cases h
  | case2 => cases h; exact identifierBody?_closed (hz.head?_ne rfl)
  | case3 r ih =>
      obtain ⟨⟨v, t, r'⟩, hb, he⟩ := Option.map_eq_some_iff.1 h
      cases he
      simp [identifierBody?, ih hb]
  | case4 d r hd => cases h; simp [identifierBody?, hd]
  | case5 c r hc ih =>
      obtain ⟨⟨v, t, r'⟩, hb, he⟩ := Option.map_eq_some_iff.1 h
      cases he
      rw [List.cons_append, identifierBody?_other hc, ih hb]
      rfl

theorem quotedDigits_more {letter : Char} (hz : Spaced z) (h : quotedDigits offset letter cs = .ok l) :
    quotedDigits offset letter (cs ++ z) = .ok (l.more z) := by
  unfold quotedDigits at h ⊢
  simp only [takeWhile_append_of_head (hz.not_radixDigit _), dropWhile_append_of_head (hz.not_radixDigit _)] at h ⊢
  split at h
  · cases h
  · rename_i c r hr
    rw [hr, List.cons_append]
    dsimp only
    split at h
    · rename_i hc
      cases h
      rw [if_pos hc]
      rfl
    · cases h

theorem radixDigits_more {letter : Char} (hz : Spaced z) (h : radixDigits offset letter cs = .ok l) :
    radixDigits offset letter (cs ++ z) = .ok (l.more z) := by
  unfold radixDigits at h ⊢
  simp only [takeWhile_append_of_head (hz.not_radixDigit _), dropWhile_append_of_head (hz.not_radixDigit _),
    head?_any_more hz.not_wordChar] at h ⊢
  split at h
  · rename_i hword
    rw [if_pos hword]
    exact number_more hz h
  · rename_i hword
    cases h
    rw [if_neg hword]
    rfl

theorem string_more {quote : Char} (hz : Spaced z) (hquote : isSpace quote = false)
    (h : string offset quote cs = .ok l) : string offset quote (cs ++ z) = .ok (l.more z) := by
  unfold string at h ⊢
  split at h
  · rename_i hbody
    cases h
    rw [stringBody?_more hz hquote hbody]
    rfl
  · cases h

theorem quotedIdentifier_more (hz : Spaced z) (h : quotedIdentifier offset cs = .ok l) :
    quotedIdentifier offset (cs ++ z) = .ok (l.more z) := by
  unfold quotedIdentifier at h ⊢
  split at h
  · rename_i hbody
    cases h
    rw [identifierBody?_more hz hbody]
    rfl
  · cases h

/-- A blank behind a text does not change what the text starts with. -/
theorem opening_more (hz : Spaced z) (c : Char) (cs : List Char) :
    opening c (cs ++ z).head? = opening c cs.head? := by
  cases cs with
  | cons d cs => rfl
  | nil =>
      have hne {d : Char} (hd : isSpace d = false) : z.head? ≠ some d := hz.head?_ne hd
      exact opening_neutral fun d hd =>
        ⟨hz.not_digit d hd, fun h => hne rfl (h ▸ hd), fun h => hne rfl (h ▸ hd), fun h => hne rfl (h ▸ hd)⟩

/-- A lexeme ends before a blank. -/
theorem lexeme_more {c : Char} (hz : Spaced z) (h : lexeme offset c cs = .ok l) :
    lexeme offset c (cs ++ z) = .ok (l.more z) := by
  rw [lexeme_eq, opening_more hz]
  obtain ⟨o, ho, hopens, he⟩ := exists_opening c cs
  rw [he] at h
  rw [ho]
  cases hopens with
  | mark => cases h; rfl
  | digit => exact number_more hz h
  | point => exact number_more hz h
  | string hquote => exact string_more hz (by rcases hquote with rfl | rfl <;> rfl) h
  | quotedIdentifier => exact quotedIdentifier_more hz h
  | quotedDigits hcs => subst hcs; exact quotedDigits_more hz h
  | radixDigits _ _ hcs => subst hcs; exact radixDigits_more hz h
  | word => cases h; exact congrArg Except.ok (word_more hz (c :: cs))
  | stray => cases h

/-! ### Tokens -/

variable {a b : Cursor} {t : Token} {ts : List Token}

/-- A token is a lexeme after a gap. -/
theorem next_eq_token_iff : a.next = (.ok (some t), b) ↔
    ∃ before c r l, gap a.rest = (before, c :: r) ∧ ¬ Unending (c :: r) ∧
      lexeme (a.offset + byteLength before) c r = .ok l ∧ t = ⟨l.kind, a.offset + byteLength before, l.text, before⟩ ∧
      b = ⟨a.offset + byteLength before + byteLength l.text, l.rest⟩ := by
  unfold Cursor.next
  generalize gap a.rest = g
  obtain ⟨before, rest⟩ := g
  dsimp only
  constructor
  · intro h
    split at h
    · cases h
    · cases h
    · rename_i c r hending
      split at h
      · cases h
      · rename_i l hl
        cases h
        refine ⟨before, c, r, l, rfl, ?_, hl, rfl, rfl⟩
        rintro ⟨body, he⟩
        cases he
        exact hending body rfl rfl
  · rintro ⟨before, c, r, l, hgap, hending, hl, rfl, rfl⟩
    cases hgap
    split
    · rename_i he
      cases he
    · rename_i body he
      exact absurd ⟨body, he⟩ hending
    · rename_i he
      cases he
      rw [hl]

/-- The text is read as a token of the kind, without a gap, and the rest is what follows it. -/
def StandsFirst (k : TokenKind) (cs rest : List Char) : Prop :=
  ∀ offset, Cursor.next ⟨offset, cs ++ rest⟩ = (.ok (some ⟨k, offset, cs, []⟩), ⟨offset + byteLength cs, rest⟩)

theorem standsFirst_iff {k : TokenKind} {c : Char} {r text : List Char} (htext : text ++ rest = c :: r)
    (hgap : gapItem? (c :: r) = none) (hslash : c ≠ '/') :
    StandsFirst k text rest ↔ ∀ offset, lexeme offset c r = .ok ⟨k, text, rest⟩ := by
  have hstart : gap (text ++ rest) = ([], c :: r) := by rw [htext, gap_of_gapItem?_eq_none hgap]
  have hending : ¬ Unending (c :: r) := by
    rintro ⟨body, he⟩
    exact hslash (List.cons.inj he).1
  constructor
  · intro h offset
    obtain ⟨before, c', r', l, hgap', -, hl, ht, hb⟩ := next_eq_token_iff.1 (h offset)
    cases hstart.symm.trans hgap'
    cases ht
    cases hb
    exact hl
  · exact fun h offset => next_eq_token_iff.2 ⟨[], c, r, _, hstart, hending, h offset, rfl, rfl⟩

theorem next_eq_none_iff : a.next.1 = .ok none ↔ (gap a.rest).2 = [] := by
  unfold Cursor.next
  generalize gap a.rest = g
  obtain ⟨before, rest⟩ := g
  dsimp only
  split
  · simp
  · simp
  · split <;> simp

theorem not_unending_more {c : Char} {r : List Char} (hz : Spaced z) (h : ¬ Unending (c :: r)) :
    ¬ Unending (c :: (r ++ z)) := by
  rintro ⟨body, he⟩
  obtain ⟨rfl, hr⟩ := List.cons.inj he
  cases r with
  | nil => exact absurd (by rw [show z = _ from hr]; rfl) (hz.head?_ne (rfl : isSpace '*' = false))
  | cons d r =>
      cases hr
      exact h ⟨r, rfl⟩

/-- A token ends before a blank. -/
theorem next_more (hz : Spaced z) (h : a.next = (.ok (some t), b)) :
    Cursor.next ⟨a.offset, a.rest ++ z⟩ = (.ok (some t), ⟨b.offset, b.rest ++ z⟩) := by
  obtain ⟨before, c, r, l, hgap, hending, hl, rfl, rfl⟩ := next_eq_token_iff.1 h
  have hmore : gap (a.rest ++ z) = (before, c :: (r ++ z)) := by
    rw [gap_more hz (by rw [hgap]; exact List.cons_ne_nil c r) (by rwa [hgap]), hgap]
    rfl
  exact next_eq_token_iff.2
    ⟨before, c, r ++ z, l.more z, hmore, not_unending_more hz hending, lexeme_more hz hl, rfl, rfl⟩

theorem scan_eq_nil_iff : (scan a).1 = [] ↔ (gap a.rest).2 = [] := by
  rw [← next_eq_none_iff]
  rcases scan_cases a with ⟨hnext, h⟩ | ⟨e, hnext, h⟩ | ⟨t, b, hnext, h⟩
  all_goals simp [hnext, h]

theorem scan_eq_cons {following : Tokens} (h : (scan a).1 = .ok t :: following) :
    ∃ b, a.next = (.ok (some t), b) ∧ (scan b).1 = following := by
  rcases scan_cases a with ⟨-, hnil⟩ | ⟨e, -, he⟩ | ⟨u, b, hnext, hu⟩
  · cases hnil.symm.trans h
  · cases he.symm.trans h
  · obtain ⟨hhead, htail⟩ := List.cons.inj (hu.symm.trans h)
    cases hhead
    exact ⟨b, hnext, htail⟩

theorem StandsFirst.scan_eq {k : TokenKind} {text : List Char} (h : StandsFirst k text rest) (offset : Nat) :
    (scan ⟨offset, text ++ rest⟩).1 = .ok ⟨k, offset, text, []⟩ :: (scan ⟨offset + byteLength text, rest⟩).1 :=
  scan_of_next (h offset)

theorem scan_end (offset : Nat) : (scan ⟨offset, []⟩).1 = [] := scan_eq_nil_iff.2 (by rw [gap_of_gapItem?_eq_none rfl])

theorem StandsFirst.tokens_eq {k : TokenKind} {text : List Char} (h : StandsFirst k text []) :
    tokens (String.ofList text) = [.ok ⟨k, 0, text, []⟩] := by
  have hscan := h.scan_eq 0
  rw [List.append_nil, scan_end] at hscan
  rw [tokens, String.toList_ofList]
  exact hscan

/-- A text without errors is moved over token by token. What is left at its end is a gap. -/
theorem exists_moves (h : (scan a).1 = items ts) : ∃ last, a.Moves ts last ∧ (gap last.rest).2 = [] := by
  induction ts generalizing a with
  | nil => exact ⟨a, .refl a, scan_eq_nil_iff.1 h⟩
  | cons t ts ih =>
      obtain ⟨b, hnext, htail⟩ := scan_eq_cons h
      obtain ⟨last, hmoves, hlast⟩ := ih htail
      exact ⟨last, .step hnext hmoves, hlast⟩

theorem Cursor.Moves.more (hz : Spaced z) (h : a.Moves ts b) :
    Cursor.Moves ⟨a.offset, a.rest ++ z⟩ ts ⟨b.offset, b.rest ++ z⟩ := by
  induction h with
  | refl a => exact .refl _
  | step hnext _ ih => exact .step (next_more hz hnext) ih

theorem Cursor.Moves.scan_eq (h : a.Moves ts b) : scan a = (items ts ++ (scan b).1, (scan b).2) := by
  induction h with
  | refl a => rfl
  | step hnext _ ih => rw [scan_step hnext, ih]; rfl

theorem items_moved (n : Nat) (ts : List Token) : (items ts).map (movedItem n) = items (ts.map (Token.moved n)) := by
  simp only [items, List.map_map]
  rfl

theorem alike_moved (n : Nat) (ts : List Token) : Alike ts (ts.map (Token.moved n)) :=
  List.forall₂_map_right_iff.2 (List.forall₂_same.2 fun _ _ => ⟨rfl, rfl, rfl⟩)

/-- The tokens of a text do not depend on where it stands. -/
theorem scan_elsewhere (h : (scan (.start cs)).1 = items ts) (offset : Nat) :
    ∃ ts', Alike ts ts' ∧ (scan ⟨offset, cs⟩).1 = items ts' := by
  have hmoved := congrArg Prod.fst (scan_moved offset (.start cs))
  rw [h, items_moved] at hmoved
  exact ⟨_, alike_moved offset ts, hmoved⟩

/-- A token on a new line, behind those of the text before it. -/
theorem scan_line {c : Char} {r : List Char} (h : (scan a).1 = items ts)
    (hc : isSpace c = false ∧ c ≠ '#' ∧ c ≠ '/') (hminus : c ≠ '-') (hl : ∀ offset, lexeme offset c r = .ok l) :
    ∃ t offset, t.kind = l.kind ∧
      (scan ⟨a.offset, a.rest ++ '\n' :: c :: r⟩).1 = items ts ++ .ok t :: (scan ⟨offset, l.rest⟩).1 := by
  obtain ⟨last, hmoves, hlast⟩ := exists_moves h
  have hscan := congrArg Prod.fst (hmoves.more (newLine_cons (c :: r)).spaced).scan_eq
  have hline : gap ('\n' :: c :: r) = (['\n'], c :: r) :=
    gap_space rfl (gapItem?_eq_none hc fun h => absurd h hminus)
  have hgap : gap (last.rest ++ '\n' :: c :: r) = ((gap last.rest).1 ++ ['\n'], c :: r) := by
    rw [gap_more_of_end (newLine_cons _) hlast, hline]
  have hending : ¬ Unending (c :: r) := by
    rintro ⟨body, he⟩
    exact hc.2.2 (List.cons.inj he).1
  have hnext := (next_eq_token_iff (a := ⟨last.offset, _⟩)).2 ⟨_, c, r, l, hgap, hending, hl _, rfl, rfl⟩
  rw [scan_step hnext] at hscan
  exact ⟨_, _, rfl, hscan⟩

/-! ### Two texts -/

theorem tokens_semicolon {script following : String} {us : List Token} (h : tokens script = items ts)
    (hfollowing : tokens following = items us) : ∃ t us', t.kind = .semicolon ∧ Alike us us' ∧
      tokens (script ++ "\n;" ++ following) = items ts ++ .ok t :: items us' := by
  obtain ⟨t, offset, ht, hscan⟩ := scan_line (c := ';') (r := following.toList)
    (l := ⟨.semicolon, [';'], following.toList⟩) h (by decide) (by decide) (fun _ => rfl)
  obtain ⟨us', hus, hscan'⟩ := scan_elsewhere hfollowing offset
  refine ⟨t, us', ht, hus, ?_⟩
  have hlist : (script ++ "\n;" ++ following).toList = script.toList ++ '\n' :: ';' :: following.toList := by
    simp [String.toList_append]
  rw [tokens, hlist, ← hscan']
  exact hscan

theorem tokens_zero {script : String} (h : tokens script = items ts) :
    ∃ t, t.kind = .integer 0 ∧ tokens (script ++ "\n0") = items ts ++ [.ok t] := by
  obtain ⟨t, offset, ht, hscan⟩ := scan_line (c := '0') (r := []) (l := ⟨.integer 0, ['0'], []⟩) h
    (by decide) (by decide) (fun _ => rfl)
  have hlist : (script ++ "\n0").toList = script.toList ++ ['\n', '0'] := by
    simp [String.toList_append]
  refine ⟨t, ht, ?_⟩
  rw [tokens, hlist, ← scan_end offset]
  exact hscan

end DdlCatalog.Sql
