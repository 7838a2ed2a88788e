import DdlCatalog.Json.Token
import DdlCatalog.Proofs.Json.Numeral

/-!
Tokens written and read back: strings of any characters, and numbers where nothing after them goes on
with their numeral.
-/

namespace DdlCatalog.Json

/-! ### Strings -/

theorem join?_unit {n : Nat} (hh : isHighSurrogate n = false) (hl : isLowSurrogate n = false) (ps : List Piece) :
    join? (.unit n :: ps) = (join? ps).map (Char.ofNat n :: ·) := by
  cases ps with
  | nil => simp [join?, hh, hl]
  | cons p ps => cases p <;> simp [join?, hh, hl]

theorem hexDigit?_hexLetter : ∀ n < 16, hexDigit? (hexLetter n) = some n := by decide

theorem hexUnit?_hexLetter {n : Nat} (h : n < 32) :
    hexUnit? '0' '0' (hexLetter (n / 16)) (hexLetter (n % 16)) = some n := by
  have hzero : hexDigit? '0' = some 0 := by decide
  have hhigh := hexDigit?_hexLetter (n / 16) (by omega)
  have hlow := hexDigit?_hexLetter (n % 16) (by omega)
  simp only [hexUnit?, hzero, hhigh, hlow, Option.bind_eq_bind, Option.bind_some, Option.pure_def, Option.some.injEq]
  omega

/-- A character is read back from the way it is written, whatever follows. -/
theorem exists_piece (c : Char) : ∃ p : Piece,
    (∀ cs, pieces? (escape c ++ cs) = (pieces? cs).map fun r => (p :: r.1, r.2)) ∧
      ∀ ps, join? (p :: ps) = (join? ps).map (c :: ·) := by
  unfold escape
  split
  case h_8 _ hquote hslash _ _ _ _ _ =>
    split
    · rename_i hc
      have hh : isHighSurrogate c.toNat = false := by simp [isHighSurrogate]; omega
      have hl : isLowSurrogate c.toNat = false := by simp [isLowSurrogate]; omega
      refine ⟨.unit c.toNat, fun cs => ?_, fun ps => by rw [join?_unit hh hl, Char.ofNat_toNat]⟩
      simp only [List.cons_append, List.nil_append, pieces?, hexUnit?_hexLetter hc]
      cases pieces? cs <;> rfl
    · rename_i hc
      refine ⟨.char c, fun cs => ?_, fun ps => rfl⟩
      have hplain : ¬(c.toNat < 32 || decide (c = '\\')) = true := by
        simp only [hc, decide_false, Bool.false_or, decide_eq_true_eq]
        exact hslash
      rw [List.singleton_append, pieces?, if_neg hplain]
      · cases pieces? cs <;> rfl
      · exact hquote
      · exact fun _ _ _ _ _ h _ => hslash h
      · exact fun _ _ h _ => hslash h
  all_goals exact ⟨.char _, fun cs => by cases h : pieces? cs <;> simp [pieces?, escaped?, h], fun ps => rfl⟩

theorem pieces?_quoted (s rest : List Char) : ∃ ps,
    pieces? (s.flatMap escape ++ '"' :: rest) = some (ps, rest) ∧ join? ps = some s := by
  induction s with
  | nil => exact ⟨[], by simp [pieces?], rfl⟩
  | cons c s ih =>
      obtain ⟨ps, hps, hjoin⟩ := ih
      obtain ⟨p, hp, hc⟩ := exists_piece c
      refine ⟨p :: ps, ?_, by rw [hc, hjoin]; rfl⟩
      rw [List.flatMap_cons, List.append_assoc, hp, hps]
      rfl

/-! ### Tokens -/

/-- A token that is read from its text where the rest stands after it. -/
def Token.ReadsBefore (rest : List Char) : Token → Prop
  | .number (some n) => n.ReadsBack ∧ Apart rest
  | .number none | .string none => False
  | _ => True

theorem token?_number {n : Number} (h : n.ReadsBack) {rest : List Char} (hrest : Apart rest) :
    token? (Token.spell (.number (some n)) ++ rest) = some (.number (some n), rest) := by
  obtain ⟨numeral, hn, hvalue⟩ := Number.ofText?_append h hrest
  change token? (n.render.toList ++ rest) = _
  obtain ⟨c, cs, hcs, hc⟩ := numeral_head hn
  rw [hcs] at hn ⊢
  have hne (d : Char) (hd : d ≠ '-') (hdigit : isDigit d = false) : c ≠ d := by
    rintro rfl
    rcases hc with hc | hc
    · exact hd hc
    · rw [hdigit] at hc; cases hc
  rw [token?, hn]
  · simp [hvalue]
  all_goals
    rintro r he
    cases he
    exact hne _ (by decide) (by decide) rfl

theorem token?_spell {t : Token} {rest : List Char} (h : t.ReadsBefore rest) :
    token? (t.spell ++ rest) = some (t, rest) := by
  cases t with
  | openArray | closeArray | openObject | closeObject | colon | comma | null => rfl
  | bool b => cases b <;> rfl
  | number n =>
      cases n with
      | none => cases h
      | some n => exact token?_number h.1 h.2
  | string s =>
      cases s with
      | none => cases h
      | some s =>
          obtain ⟨ps, hps, hjoin⟩ := pieces?_quoted s.toList rest
          simp [Token.spell, quote, token?, hps, hjoin]

theorem token?_head {cs : List Char} {r : Token × List Char} (h : token? cs = some r) :
    ∃ c cs', cs = c :: cs' ∧ isBlank c = false := by
  cases cs with
  | nil => cases h
  | cons c cs =>
      refine ⟨c, cs, rfl, ?_⟩
      rw [Bool.eq_false_iff]
      intro hblank
      simp only [isBlank, Bool.or_eq_true, decide_eq_true_eq] at hblank
      obtain ((rfl | rfl) | rfl) | rfl := hblank <;> cases h

theorem tokens?_nil : tokens? [] = some [] := by
  rw [tokens?]
  rfl

/-- A token goes in front of those that follow it. -/
theorem tokens?_spell {t : Token} {rest : List Char} (h : t.ReadsBefore rest) :
    tokens? (t.spell ++ rest) = (tokens? rest).map (t :: ·) := by
  have ht := token?_spell h
  obtain ⟨c, cs, hcs, hblank⟩ := token?_head ht
  rw [hcs] at ht ⊢
  have hdrop : (c :: cs).dropWhile isBlank = c :: cs := by simp [hblank]
  rw [tokens?]
  split
  · rename_i hnil
    rw [hdrop] at hnil
    cases hnil
  · rename_i c' cs' hcons
    rw [hdrop] at hcons
    cases hcons
    split
    · rename_i hnone
      rw [ht] at hnone
      cases hnone
    · rename_i hsome
      rw [ht] at hsome
      cases hsome
      rfl

end DdlCatalog.Json
