import DdlCatalog.Json.Text
import DdlCatalog.Proofs.Json.Token

/-!
Values written and read back: every value that is complete, not nested too deeply and all of whose
numbers are read back.
-/

namespace DdlCatalog.Json

/-! ### Values that fit -/

mutual
/-- A value that can be read where so many containers may still be opened. -/
def Fits : Nat → Json → Prop
  | _, .unreadable => False
  | _, .number n => n.ReadsBack
  | 0, .array _ | 0, .object _ => False
  | room + 1, .array elements => AllFit room elements
  | room + 1, .object members => AllMembersFit room members
  | _, _ => True

def AllFit : Nat → List Json → Prop
  | _, [] => True
  | room, j :: r => Fits room j ∧ AllFit room r

def AllMembersFit : Nat → List (String × Json) → Prop
  | _, [] => True
  | room, (_, j) :: r => Fits room j ∧ AllMembersFit room r
end

theorem allFit_iff {room : Nat} {elements : List Json} : AllFit room elements ↔ ∀ j ∈ elements, Fits room j := by
  induction elements with
  | nil => simp [AllFit]
  | cons j r ih => simp [AllFit, ih]

theorem allMembersFit_iff {room : Nat} {members : List (String × Json)} :
    AllMembersFit room members ↔ ∀ m ∈ members, Fits room m.2 := by
  induction members with
  | nil => simp [AllMembersFit]
  | cons m r ih => simp [AllMembersFit, ih]

mutual
theorem Fits.isComplete : ∀ {room : Nat} {j : Json}, j.Fits room → j.isComplete = true
  | _, .null, _ | _, .bool _, _ | _, .number _, _ | _, .string _, _ => rfl
  | _ + 1, .array elements, h => by
      rw [Fits] at h
      exact AllFit.allComplete h
  | _ + 1, .object members, h => by
      rw [Fits] at h
      exact AllMembersFit.allMembersComplete h

theorem AllFit.allComplete : ∀ {room : Nat} {elements : List Json}, AllFit room elements → allComplete elements = true
  | _, [], _ => rfl
  | _, _ :: _, h => by
      rw [AllFit] at h
      rw [allComplete, h.1.isComplete, h.2.allComplete]
      rfl

theorem AllMembersFit.allMembersComplete : ∀ {room : Nat} {members : List (String × Json)},
    AllMembersFit room members → allMembersComplete members = true
  | _, [], _ => rfl
  | _, (_, _) :: _, h => by
      rw [AllMembersFit] at h
      rw [Json.allMembersComplete, h.1.isComplete, h.2.allMembersComplete]
      rfl
end

/-! ### Texts to tokens -/

def spellAll (ts : List Token) : List Char := ts.flatMap Token.spell

/-- Tokens that are read from their text where the rest stands after it. -/
def ReadBefore (ts : List Token) (rest : List Char) : Prop :=
  tokens? (spellAll ts ++ rest) = (tokens? rest).map (ts ++ ·)

theorem readBefore_nil (rest : List Char) : ReadBefore [] rest := by
  simp [ReadBefore, spellAll]

theorem readBefore_cons {t : Token} {ts : List Token} {rest : List Char} (ht : t.ReadsBefore (spellAll ts ++ rest))
    (hts : ReadBefore ts rest) : ReadBefore (t :: ts) rest := by
  have hcons : spellAll (t :: ts) ++ rest = t.spell ++ (spellAll ts ++ rest) := by
    simp [spellAll]
  rw [ReadBefore, hcons, tokens?_spell ht, hts, Option.map_map]
  rfl

theorem readBefore_append {ts us : List Token} {rest : List Char} (hts : ReadBefore ts (spellAll us ++ rest))
    (hus : ReadBefore us rest) : ReadBefore (ts ++ us) rest := by
  have happend : spellAll (ts ++ us) ++ rest = spellAll ts ++ (spellAll us ++ rest) := by
    simp [spellAll]
  rw [ReadBefore, happend, hts, hus, Option.map_map]
  simp [Function.comp_def]

theorem apart_of_endsNumeral {c : Char} (h : endsNumeral c = true) (rest : List Char) : Apart (c :: rest) := by
  rintro d hd
  cases hd
  exact h

theorem apart_elementTokens (r : List Json) (rest : List Char) : Apart (spellAll (elementTokens r) ++ rest) := by
  cases r <;> exact apart_of_endsNumeral (by decide) _

theorem apart_memberTokens (r : List (String × Json)) (rest : List Char) :
    Apart (spellAll (memberTokens r) ++ rest) := by
  cases r with
  | nil => exact apart_of_endsNumeral (by decide) _
  | cons m r => cases m; exact apart_of_endsNumeral (by decide) _

/-- A member without its value, which a name and a colon stand for. -/
theorem readBefore_name (name : String) {ts : List Token} {rest : List Char} (h : ReadBefore ts rest) :
    ReadBefore (.string (some name) :: .colon :: ts) rest :=
  readBefore_cons trivial (readBefore_cons trivial h)

mutual
theorem readBefore_tokens : ∀ {room : Nat} {j : Json}, j.Fits room → ∀ {rest : List Char}, Apart rest →
    ReadBefore j.tokens rest
  | _, .null, _, rest, _ | _, .bool _, _, rest, _ | _, .string _, _, rest, _ =>
      readBefore_cons trivial (readBefore_nil rest)
  | _, .number _, h, rest, hrest => by
      rw [Fits] at h
      exact readBefore_cons ⟨h, hrest⟩ (readBefore_nil rest)
  | _, .array [], _, rest, _ | _, .object [], _, rest, _ =>
      readBefore_cons trivial (readBefore_cons trivial (readBefore_nil rest))
  | _ + 1, .array (j :: r), h, rest, _ => by
      rw [Fits, AllFit] at h
      exact readBefore_cons trivial
        (readBefore_append (readBefore_tokens h.1 (apart_elementTokens r rest)) (readBefore_elementTokens h.2))
  | _ + 1, .object ((name, j) :: r), h, rest, _ => by
      rw [Fits, AllMembersFit] at h
      exact readBefore_cons trivial (readBefore_name name
        (readBefore_append (readBefore_tokens h.1 (apart_memberTokens r rest)) (readBefore_memberTokens h.2)))

theorem readBefore_elementTokens : ∀ {room : Nat} {r : List Json}, AllFit room r → ∀ {rest : List Char},
    ReadBefore (elementTokens r) rest
  | _, [], _, rest => readBefore_cons trivial (readBefore_nil rest)
  | _, _ :: r, h, rest =>
      readBefore_cons trivial
        (readBefore_append (readBefore_tokens h.1 (apart_elementTokens r rest)) (readBefore_elementTokens h.2))

theorem readBefore_memberTokens : ∀ {room : Nat} {r : List (String × Json)}, AllMembersFit room r →
    ∀ {rest : List Char}, ReadBefore (memberTokens r) rest
  | _, [], _, rest => readBefore_cons trivial (readBefore_nil rest)
  | _, (name, _) :: r, h, rest =>
      readBefore_cons trivial (readBefore_name name
        (readBefore_append (readBefore_tokens h.1 (apart_memberTokens r rest)) (readBefore_memberTokens h.2)))
end

/-! ### Tokens to values -/

/-- Goals that a value is read for. -/
def Goal.AwaitsValue : Goal → Prop
  | .value | .elementOrClose => True
  | _ => False

theorem awaitsValue_value : Goal.value.AwaitsValue := trivial

theorem awaitsValue_elementOrClose : Goal.elementOrClose.AwaitsValue := trivial

theorem step_start {goal : Goal} (hgoal : goal.AwaitsValue) {t : Token} (ht : t ≠ .closeArray)
    (frames : List Frame) : step goal frames t = start frames t := by
  cases goal with
  | value => rfl
  | elementOrClose => cases t <;> first | rfl | exact absurd rfl ht
  | nameOrClose _ | name _ | colon _ _ | next _ => cases hgoal

theorem finish?_cons {goal goal' : Goal} {frames frames' : List Frame} {t : Token}
    (h : step goal frames t = some (goal', frames')) (ts : List Token) :
    finish? goal frames (t :: ts) = finish? goal' frames' ts := by
  rw [finish?, h]

theorem nested_eq {frames : List Frame} {room : Nat} (h : frames.length + (room + 1) ≤ maxDepth) (j : Json) :
    nested frames j = j := by
  rw [nested, if_neg (by omega)]

def named (m : String × Json) : Option String × Json := (some m.1, m.2)

theorem mapM_named {f : Option String × Json → Option (String × Json)} (hf : ∀ m, f (named m) = some m)
    (members : List (String × Json)) : (members.map named).mapM f = some members := by
  induction members with
  | nil => rfl
  | cons m r ih => simp [hf, ih]

theorem ofMembers_named (members : List (String × Json)) :
    ofMembers (members.map named).reverse = .object members := by
  rw [ofMembers, List.reverse_reverse, mapM_named fun _ => rfl]

mutual
theorem finish?_tokens : ∀ {room : Nat} {j : Json}, j.Fits room → ∀ {frames : List Frame},
    frames.length + room ≤ maxDepth → ∀ {goal : Goal}, goal.AwaitsValue → ∀ ts : List Token,
      finish? goal frames (j.tokens ++ ts) = finish? (.next j) frames ts
  | _, .null, _, frames, _, goal, hgoal, ts => finish?_cons (step_start hgoal (by simp) frames) ts
  | _, .bool _, _, frames, _, goal, hgoal, ts => finish?_cons (step_start hgoal (by simp) frames) ts
  | _, .string _, _, frames, _, goal, hgoal, ts => finish?_cons (step_start hgoal (by simp) frames) ts
  | _, .number _, _, frames, _, goal, hgoal, ts => finish?_cons (step_start hgoal (by simp) frames) ts
  | room + 1, .array [], _, frames, hroom, goal, hgoal, ts => by
      rw [tokens, List.cons_append, finish?_cons (step_start hgoal (by simp) frames), List.cons_append,
        finish?_cons rfl, nested_eq hroom]
      rfl
  | room + 1, .array (j :: r), h, frames, hroom, goal, hgoal, ts => by
      rw [Fits, AllFit] at h
      have hinner : (Frame.array [] :: frames).length + room ≤ maxDepth := by simp only [List.length_cons]; omega
      rw [tokens, List.cons_append, finish?_cons (step_start hgoal (by simp) frames), List.append_assoc,
        finish?_tokens h.1 hinner awaitsValue_elementOrClose, finish?_elementTokens h.2 hroom]
      rfl
  | room + 1, .object [], _, frames, hroom, goal, hgoal, ts => by
      rw [tokens, List.cons_append, finish?_cons (step_start hgoal (by simp) frames), List.cons_append,
        finish?_cons rfl, nested_eq hroom]
      rfl
  | room + 1, .object ((name, j) :: r), h, frames, hroom, goal, hgoal, ts => by
      rw [Fits, AllMembersFit] at h
      have hinner : (Frame.object [] (some name) :: frames).length + room ≤ maxDepth := by
        simp only [List.length_cons]; omega
      rw [tokens, List.cons_append, finish?_cons (step_start hgoal (by simp) frames), List.cons_append,
        finish?_cons rfl, List.cons_append, finish?_cons rfl, List.append_assoc,
        finish?_tokens h.1 hinner awaitsValue_value]
      exact finish?_memberTokens h.2 hroom [] name j ts

theorem finish?_elementTokens : ∀ {room : Nat} {r : List Json}, AllFit room r → ∀ {frames : List Frame},
    frames.length + (room + 1) ≤ maxDepth → ∀ (done : List Json) (j : Json) (ts : List Token),
      finish? (.next j) (.array done :: frames) (elementTokens r ++ ts) =
        finish? (.next (.array (done.reverse ++ j :: r))) frames ts
  | _, [], _, frames, hroom, done, j, ts => by
      rw [elementTokens, List.cons_append, finish?_cons rfl, nested_eq hroom, List.reverse_cons]
      rfl
  | room, j' :: r, h, frames, hroom, done, j, ts => by
      rw [AllFit] at h
      have hinner : (Frame.array (j :: done) :: frames).length + room ≤ maxDepth := by
        simp only [List.length_cons]; omega
      rw [elementTokens, List.cons_append, finish?_cons rfl, List.append_assoc,
        finish?_tokens h.1 hinner awaitsValue_value, finish?_elementTokens h.2 hroom, List.reverse_cons,
        List.append_assoc]
      rfl

theorem finish?_memberTokens : ∀ {room : Nat} {r : List (String × Json)}, AllMembersFit room r →
    ∀ {frames : List Frame}, frames.length + (room + 1) ≤ maxDepth →
      ∀ (before : List (String × Json)) (name : String) (j : Json) (ts : List Token),
        finish? (.next j) (.object (before.map named).reverse (some name) :: frames) (memberTokens r ++ ts) =
          finish? (.next (.object (before ++ (name, j) :: r))) frames ts
  | _, [], _, frames, hroom, before, name, j, ts => by
      have hmembers : ofMembers ((some name, j) :: (before.map named).reverse) = .object (before ++ [(name, j)]) := by
        rw [← ofMembers_named]
        simp [named]
      rw [memberTokens, List.cons_append, finish?_cons rfl, nested_eq hroom, hmembers]
      rfl
  | room, (name', j') :: r, h, frames, hroom, before, name, j, ts => by
      rw [AllMembersFit] at h
      have hdone : (some name, j) :: (before.map named).reverse = ((before ++ [(name, j)]).map named).reverse := by
        simp [named]
      have hinner : (Frame.object ((some name, j) :: (before.map named).reverse) (some name') :: frames).length +
          room ≤ maxDepth := by
        simp only [List.length_cons]; omega
      rw [memberTokens, List.cons_append, finish?_cons rfl, List.cons_append, finish?_cons rfl, List.cons_append,
        finish?_cons rfl, List.append_assoc, finish?_tokens h.1 hinner awaitsValue_value, hdone,
        finish?_memberTokens h.2 hroom, List.append_assoc]
      rfl
end

theorem tokens?_spellAll {j : Json} (h : j.Fits maxDepth) : tokens? (spellAll j.tokens) = some j.tokens := by
  have hend : Apart [] := by
    rintro c hc
    cases hc
  have hread := readBefore_tokens h hend
  rwa [ReadBefore, List.append_nil, tokens?_nil, Option.map_some, List.append_nil] at hread

-- From here on rooms are compared as numbers, not by going through the value.
attribute [irreducible] Fits

/-- A value is read from the text it is written as. -/
theorem parse?_render {j : Json} (h : j.Fits maxDepth) : parse? j.render = some j := by
  have hroom : ([] : List Frame).length + maxDepth ≤ maxDepth := by simp
  have hfinish := finish?_tokens h hroom awaitsValue_value []
  rw [List.append_nil] at hfinish
  have htext : j.render.toList = spellAll j.tokens := String.toList_ofList
  rw [parse?, htext, tokens?_spellAll h, Option.bind_some, hfinish]
  rfl

end DdlCatalog.Json
