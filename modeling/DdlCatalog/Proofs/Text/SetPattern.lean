import DdlCatalog.Schema.Datatype
import DdlCatalog.Text.Pattern
import Mathlib.Data.List.Sublists

/-!
The pattern of a SET column accepts the values in their order, any of them left out, with commas between
them, and nothing else. The text of the pattern is read back first; what it matches is then a matter of
the pattern alone.
-/

namespace DdlCatalog

open Text Text.Pattern

namespace Text.Pattern

variable {group : Group} {outer : List Group} {r : List Char}

/-! ### Characters that stand for themselves -/

def ofParts (parts : List Pattern) : Pattern := parts.foldr .sequence .empty

def literals (s : String) : List Pattern := s.toList.map .literal

theorem alternative_eq (g : Group) : g.alternative = ofParts g.parts.reverse := by
  rw [ofParts, List.foldr_reverse]
  rfl

theorem readFrom?_literal {c : Char} (h : isMeta c = false) :
    readFrom? group outer (c :: r) = readFrom? (group.push (.literal c)) outer r := by
  have hne (d : Char) (hd : isMeta d = true) : c ≠ d := by
    rintro rfl
    rw [hd] at h
    cases h
  rw [readFrom?.eq_def]
  simp [hne '\\' (by decide), hne '(' (by decide), hne ')' (by decide), hne '|' (by decide), hne '?' (by decide),
    hne '^' (by decide), hne '$' (by decide), h]

theorem readFrom?_escaped {c : Char} (h : isMeta c = true) :
    readFrom? group outer ('\\' :: c :: r) = readFrom? (group.push (.literal c)) outer r := by
  rw [readFrom?.eq_def]
  simp [h]

/-- What is escaped is just what would be taken for something else. -/
theorem isRegexSpecial_eq (c : Char) : Datatype.isRegexSpecial c = isMeta c := by
  have hperm : List.Perm "\\.+*?()|[]\x7b\x7d^$".toList "^$\\.*+?()[]\x7b\x7d|".toList := by decide
  rw [Datatype.isRegexSpecial, isMeta, Bool.eq_iff_iff, List.contains_iff_mem, List.contains_iff_mem]
  exact hperm.mem_iff

theorem readFrom?_escapeRegex (s : String) :
    readFrom? group outer (Datatype.escapeRegex s ++ r) =
      readFrom? { group with parts := (literals s).reverse ++ group.parts } outer r := by
  rw [Datatype.escapeRegex, literals]
  induction s.toList generalizing group with
  | nil => rfl
  | cons c cs ih =>
      have hpush : ({ group.push (.literal c) with parts := (cs.map .literal).reverse ++ (group.push (.literal c)).parts } : Group)
          = { group with parts := ((c :: cs).map .literal).reverse ++ group.parts } := by
        simp [Group.push]
      rw [List.flatMap_cons, List.append_assoc, isRegexSpecial_eq, ← hpush, ← ih]
      cases hc : isMeta c with
      | true => exact readFrom?_escaped hc
      | false => exact readFrom?_literal hc

/-! ### Groups -/

theorem readFrom?_open : readFrom? group outer ('(' :: '?' :: ':' :: r) = readFrom? {} (group :: outer) r := by
  rw [readFrom?.eq_def]
  simp

theorem readFrom?_close {around : Group} :
    readFrom? group (around :: outer) (')' :: '?' :: r) = readFrom? (around.push (.optional group.close)) outer r := by
  rw [readFrom?.eq_def]
  simp only [Char.reduceEq, if_false, if_true]
  rw [readFrom?.eq_def]
  simp [Group.maybe?, Group.push]

theorem readFrom?_bar : readFrom? group outer ('|' :: r) = readFrom? group.bar outer r := by
  rw [readFrom?.eq_def]
  simp

/-- A value that may follow others, after a comma. -/
def follower (s : String) : Pattern := .optional (ofParts (.literal ',' :: literals s))

theorem readFrom?_follower (s : String) :
    readFrom? group outer ("(?:,".toList ++ Datatype.escapeRegex s ++ ")?".toList ++ r) =
      readFrom? (group.push (follower s)) outer r := by
  have hopen : "(?:,".toList = ['(', '?', ':', ','] := by decide
  have hclose : ")?".toList = [')', '?'] := by decide
  rw [hopen, hclose]
  simp only [List.cons_append, List.nil_append, List.append_assoc]
  rw [readFrom?_open, readFrom?_literal (by decide), readFrom?_escapeRegex, readFrom?_close]
  simp [Group.close, alternative_eq, Group.push, follower]

theorem readFrom?_followers (following : List String) :
    readFrom? group outer
        ((following.flatMap fun s => "(?:,".toList ++ Datatype.escapeRegex s ++ ")?".toList) ++ r) =
      readFrom? { group with parts := (following.map follower).reverse ++ group.parts } outer r := by
  induction following generalizing group with
  | nil => rfl
  | cons s ss ih =>
      rw [List.flatMap_cons, List.append_assoc, readFrom?_follower, ih]
      simp [Group.push]

/-- The alternative that starts with a value. -/
def alternativeParts (value : String) (following : List String) : List Pattern :=
  literals value ++ following.map follower

theorem readFrom?_setAlternative (value : String) (following : List String) :
    readFrom? { group with parts := [] } outer (Datatype.setAlternative value following ++ r) =
      readFrom? { group with parts := (alternativeParts value following).reverse } outer r := by
  rw [Datatype.setAlternative, List.append_assoc, readFrom?_escapeRegex, readFrom?_followers]
  simp [alternativeParts]

/-- One alternative for each value, that starts with it. -/
def setPart : List String → Pattern
  | [] => .empty
  | [value] => ofParts (alternativeParts value [])
  | value :: next :: following =>
    .either (ofParts (alternativeParts value (next :: following))) (setPart (next :: following))

theorem readFrom?_setAlternatives (alternatives : List Pattern) (values : List String) :
    ∃ read : Group, read.close = alternatives.foldl (fun q p => .either p q) (setPart values) ∧
      readFrom? { alternatives } outer (['|'].intercalate (Datatype.setAlternatives values) ++ r) =
        readFrom? read outer r := by
  induction values generalizing alternatives with
  | nil => exact ⟨{ alternatives }, rfl, by simp [Datatype.setAlternatives]⟩
  | cons value following ih =>
      have hfirst (r : List Char) := @readFrom?_setAlternative { alternatives } outer r value following
      cases following with
      | nil =>
          refine ⟨{ alternatives, parts := (alternativeParts value []).reverse }, ?_, ?_⟩
          · simp [Group.close, alternative_eq, setPart]
          · simpa [Datatype.setAlternatives] using hfirst r
      | cons next following =>
          obtain ⟨read, hclose, hread⟩ := ih (ofParts (alternativeParts value (next :: following)) :: alternatives)
          refine ⟨read, hclose, ?_⟩
          rw [Datatype.setAlternatives, Datatype.setAlternatives, List.intercalate_cons_cons, List.append_assoc,
            List.append_assoc, hfirst, List.singleton_append, readFrom?_bar, Group.bar, alternative_eq,
            List.reverse_reverse, ← hread, Datatype.setAlternatives]

theorem ofString?_setPattern (values : List String) :
    ofString? (Datatype.setPattern values) = some (ofParts [.textStart, .optional (setPart values), .textEnd]) := by
  have hopen : "^(?:".toList = ['^', '(', '?', ':'] := by decide
  have hclose : ")?$".toList = [')', '?', '$'] := by decide
  obtain ⟨read, hpart, hread⟩ := @readFrom?_setAlternatives [Group.push {} .textStart] [')', '?', '$'] [] values
  unfold Datatype.setPattern
  rw [ofString?, String.toList_ofList, hopen, hclose]
  simp only [List.cons_append, List.nil_append]
  rw [readFrom?.eq_def]
  simp only [Char.reduceEq, if_false, if_true]
  rw [readFrom?_open, hread, readFrom?_close, hpart, readFrom?.eq_def]
  simp only [Char.reduceEq, if_false, if_true]
  rfl

/-! ### What is matched -/

variable {before part after : List Char}

/-- Values with commas between them. -/
def joined (values : List String) : List Char := [','].intercalate (values.map String.toList)

theorem joined_cons (value : String) (values : List String) :
    joined (value :: values) = value.toList ++ values.flatMap fun s => ',' :: s.toList := by
  induction values generalizing value with
  | nil => simp [joined]
  | cons next values ih =>
      have hnext := ih next
      rw [joined, List.map_cons] at hnext
      rw [joined, List.map_cons, List.map_cons, List.intercalate_cons_cons, hnext]
      simp

theorem matches_literals (cs : List Char) (parts : List Pattern) :
    (ofParts (cs.map .literal ++ parts)).Matches before part after ↔
      ∃ rest, part = cs ++ rest ∧ (ofParts parts).Matches (before ++ cs) rest after := by
  induction cs generalizing before part with
  | nil => simp
  | cons c cs ih =>
      change (∃ first second, part = first ++ second ∧ first = [c] ∧ (ofParts (cs.map .literal ++ parts)).Matches
        (before ++ first) second after) ↔ _
      constructor
      · rintro ⟨first, second, rfl, rfl, hrest⟩
        obtain ⟨rest, rfl, hm⟩ := ih.1 hrest
        exact ⟨rest, rfl, by simpa using hm⟩
      · rintro ⟨rest, rfl, hm⟩
        exact ⟨[c], cs ++ rest, rfl, rfl, ih.2 ⟨rest, rfl, by simpa using hm⟩⟩

theorem matches_follower (s : String) :
    (follower s).Matches before part after ↔ part = [] ∨ part = ',' :: s.toList := by
  have hm : (ofParts ((',' :: s.toList).map .literal ++ [])).Matches before part after ↔ _ :=
    matches_literals (',' :: s.toList) []
  rw [List.append_nil, List.map_cons] at hm
  refine or_congr_right (hm.trans ?_)
  simp [ofParts, Matches]

/-- A choice among the values that may follow. -/
theorem matches_followers (following : List String) :
    (ofParts (following.map follower)).Matches before part after ↔
      ∃ chosen : List String, chosen.Sublist following ∧ part = chosen.flatMap fun s => ',' :: s.toList := by
  induction following generalizing before part with
  | nil => simp [ofParts, Matches]
  | cons s ss ih =>
      change (∃ first second, part = first ++ second ∧ (follower s).Matches before first (second ++ after) ∧
        (ofParts (ss.map follower)).Matches (before ++ first) second after) ↔ _
      constructor
      · rintro ⟨first, second, rfl, hs, hss⟩
        obtain ⟨chosen, hchosen, rfl⟩ := ih.1 hss
        rcases (matches_follower s).1 hs with rfl | rfl
        · exact ⟨chosen, hchosen.cons s, rfl⟩
        · exact ⟨s :: chosen, hchosen.cons_cons s, rfl⟩
      · rintro ⟨chosen, hchosen, rfl⟩
        rcases List.sublist_cons_iff.1 hchosen with hleft | ⟨chosen, rfl, htaken⟩
        · exact ⟨[], _, rfl, (matches_follower s).2 (.inl rfl), ih.2 ⟨chosen, hleft, rfl⟩⟩
        · exact ⟨_, _, rfl, (matches_follower s).2 (.inr rfl), ih.2 ⟨chosen, htaken, rfl⟩⟩

theorem matches_alternative (value : String) (following : List String) :
    (ofParts (alternativeParts value following)).Matches before part after ↔
      ∃ chosen : List String, chosen.Sublist following ∧ part = joined (value :: chosen) := by
  rw [alternativeParts, literals, matches_literals]
  constructor
  · rintro ⟨rest, rfl, hm⟩
    obtain ⟨chosen, hchosen, rfl⟩ := (matches_followers following).1 hm
    exact ⟨chosen, hchosen, (joined_cons value chosen).symm⟩
  · rintro ⟨chosen, hchosen, rfl⟩
    exact ⟨_, joined_cons value chosen, (matches_followers following).2 ⟨chosen, hchosen, rfl⟩⟩

/-- Of some values none is chosen before a later one, or the first one is. -/
theorem exists_chosen_cons (value : String) (following : List String) :
    (∃ chosen : List String, chosen.Sublist (value :: following) ∧ part = joined chosen) ↔
      (∃ chosen : List String, chosen.Sublist following ∧ part = joined chosen) ∨
        ∃ chosen : List String, chosen.Sublist following ∧ part = joined (value :: chosen) := by
  constructor
  · rintro ⟨chosen, hchosen, rfl⟩
    rcases List.sublist_cons_iff.1 hchosen with hleft | ⟨chosen, rfl, htaken⟩
    · exact .inl ⟨chosen, hleft, rfl⟩
    · exact .inr ⟨chosen, htaken, rfl⟩
  · rintro (⟨chosen, hleft, rfl⟩ | ⟨chosen, htaken, rfl⟩)
    · exact ⟨chosen, hleft.cons value, rfl⟩
    · exact ⟨value :: chosen, htaken.cons_cons value, rfl⟩

theorem matches_setPart (values : List String) :
    (Pattern.optional (setPart values)).Matches before part after ↔
      ∃ chosen : List String, chosen.Sublist values ∧ part = joined chosen := by
  induction values with
  | nil => simp [setPart, Matches, joined]
  | cons value following ih =>
      rw [exists_chosen_cons, ← ih, ← @matches_alternative before _ after]
      cases following with
      | nil => simp [setPart, Matches]
      | cons next following =>
          rw [setPart]
          simp only [Matches]
          exact or_assoc.symm.trans or_right_comm

/-- A match of a pattern between the two ends of a text is a match of the whole text. -/
theorem accepts_ends (p : Pattern) (s : String) :
    (ofParts [.textStart, p, .textEnd]).Accepts s ↔ p.Matches [] s.toList [] := by
  constructor
  · rintro ⟨before, part, after, hs, first, second, rfl, ⟨rfl, rfl⟩, part, last, rfl, hm, ending, rest, rfl, ⟨rfl, hend⟩, rfl⟩
    obtain rfl : after = [] := by simpa using hend
    have hpart : s.toList = part := by simpa using hs
    rw [hpart]
    simpa using hm
  · intro hm
    refine ⟨[], s.toList, [], by simp, [], s.toList, rfl, ⟨rfl, rfl⟩, s.toList, [], by simp, by simpa using hm, ?_⟩
    exact ⟨[], [], rfl, ⟨rfl, rfl⟩, rfl⟩

end Text.Pattern

/-- The pattern of a SET column is read as a regular expression, and accepts a text exactly if it is made
of values in the order in which they are declared, with commas between them; of no value, too. -/
theorem Datatype.set_pattern_accepts_iff (d : Datatype) (h : d.kind = .set) :
    ∃ text p, d.bounds.pattern = some text ∧ ofString? text = some p ∧
      ∀ s, p.Accepts s ↔ ∃ chosen : List String, chosen.Sublist d.values ∧ s = ",".intercalate chosen := by
  refine ⟨_, _, by rw [bounds, h], ofString?_setPattern d.values, fun s => ?_⟩
  rw [accepts_ends, matches_setPart]
  refine exists_congr fun chosen => and_congr_right fun _ => ?_
  rw [← String.toList_inj, String.toList_intercalate]
  rfl

/-- Values that are empty or hold characters with a meaning in patterns. -/
def flagSet : Datatype := { kind := .set, values := ["a|b", "", "(x)?", "é,$"] }

/-- A choice of the first and the third value is accepted; the third before the first is not. -/
theorem flagSet_accepts : flagSet.kind = .set ∧
    flagSet.bounds.pattern =
      some "^(?:a\\|b(?:,)?(?:,\\(x\\)\\?)?(?:,é,\\$)?|(?:,\\(x\\)\\?)?(?:,é,\\$)?|\\(x\\)\\?(?:,é,\\$)?|é,\\$)?$" ∧
    ∃ p, flagSet.bounds.pattern.bind ofString? = some p ∧ p.Accepts "a|b,(x)?" ∧ p.Accepts "" ∧
      ¬ p.Accepts "(x)?,a|b" := by
  obtain ⟨text, p, htext, hp, haccepts⟩ := Datatype.set_pattern_accepts_iff flagSet rfl
  refine ⟨rfl, by decide, p, by rw [htext]; exact hp, ?_, ?_, ?_⟩
  · exact (haccepts _).2 ⟨["a|b", "(x)?"], by decide, by decide⟩
  · exact (haccepts _).2 ⟨[], by decide, by decide⟩
  · have hnone : ∀ chosen ∈ flagSet.values.sublists, "(x)?,a|b" ≠ ",".intercalate chosen := by decide
    rintro hfound
    obtain ⟨chosen, hchosen, heq⟩ := (haccepts _).1 hfound
    exact hnone chosen (List.mem_sublists.2 hchosen) heq

end DdlCatalog
