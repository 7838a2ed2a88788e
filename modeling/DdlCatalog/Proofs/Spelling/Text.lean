import DdlCatalog.Proofs.Decimal.Digits
import DdlCatalog.Proofs.Spelling.Canonical

/-!
How a token is written: words in any letter case, names in backticks and strings in quotes, with the
characters that would end them doubled.
-/

namespace DdlCatalog.Sql

def isKeywordChar (c : Char) : Bool := ('a' ≤ c && c ≤ 'z') || c = '_'

/-- The words that the grammar knows are of this form. -/
def isKeyword (w : String) : Bool := !w.toList.isEmpty && w.toList.all isKeywordChar

theorem isUpper_or_toLower_eq (c : Char) : ('A' ≤ c ∧ c ≤ 'Z') ∨ c.toLower = c := by
  by_cases h : 'A' ≤ c ∧ c ≤ 'Z'
  · exact .inl h
  · exact .inr (dif_neg h)

theorem toLower_keywordChar {c : Char} (h : isKeywordChar c = true) : c.toLower = c := by
  refine (isUpper_or_toLower_eq c).resolve_left fun hupper => ?_
  simp only [isKeywordChar, Bool.or_eq_true, Bool.and_eq_true, decide_eq_true_eq] at h
  rcases h with ⟨hle, -⟩ | rfl
  · exact absurd (Char.le_trans hle hupper.2) (by decide)
  · exact absurd hupper.2 (by decide)

theorem isWordStart_of_toLower {c : Char} (h : isKeywordChar c.toLower = true) : isWordStart c = true := by
  rcases isUpper_or_toLower_eq c with hupper | hlower
  · simp [isWordStart, isLetter, hupper]
  · rw [hlower] at h
    simp only [isKeywordChar, Bool.or_eq_true, Bool.and_eq_true, decide_eq_true_eq] at h
    rcases h with hletter | rfl
    · simp [isWordStart, isLetter, hletter]
    · decide

def doubled (special : List Char) (cs : List Char) : List Char :=
  cs.flatMap fun c => if c ∈ special then [c, c] else [c]

theorem doubled_cons (special : List Char) (c : Char) (cs : List Char) :
    doubled special (c :: cs) = (if c ∈ special then [c, c] else [c]) ++ doubled special cs := rfl

def quotedText (s : String) : List Char := '\x60' :: (doubled ['\x60'] s.toList ++ ['\x60'])

def stringText (s : String) : List Char := '\'' :: (doubled ['\'', '\\'] s.toList ++ ['\''])

namespace TokenKind

/-- The text stands for a token of the kind. -/
def IsText : TokenKind → List Char → Prop
  | .word w, cs => cs.map Char.toLower = w.toList
  | .quoted s, cs => cs = quotedText s
  | .string s, cs => cs = stringText s
  | .integer n, cs => cs = Nat.toDigits 10 n.toInt.toNat
  | .real x, cs => ∃ n : Numeral, n.value = x ∧ cs = n.text
  | k, cs => ∃ c, symbol? c = some k ∧ cs = [c]

/-- The kinds that have a text of their own. Integers have no sign. -/
def Writable : TokenKind → Prop
  | .word w => isKeyword w = true
  | .quoted _ | .string _ => True
  | .integer n => 0 ≤ n
  | .real x => ∃ n : Numeral, n.value = x
  | k => ∃ c, symbol? c = some k

theorem Writable.exists_text {k : TokenKind} (h : k.Writable) : ∃ cs, k.IsText cs := by
  cases k with
  | word w =>
      refine ⟨w.toList, ?_⟩
      simp only [Writable, isKeyword, Bool.and_eq_true, List.all_eq_true] at h
      have hid : w.toList.map Char.toLower = w.toList.map id :=
        List.map_congr_left fun c hc => toLower_keywordChar (h.2 c hc)
      exact hid.trans (List.map_id _)
  | quoted s | string s | integer n => exact ⟨_, rfl⟩
  | real x =>
      obtain ⟨n, hn⟩ := h
      exact ⟨n.text, n, hn, rfl⟩
  | _ =>
      obtain ⟨c, hc⟩ := h
      exact ⟨[c], c, hc, rfl⟩

end TokenKind

end DdlCatalog.Sql
