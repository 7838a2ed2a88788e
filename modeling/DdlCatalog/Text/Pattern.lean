/-!
Regular expressions: characters, some of them behind a backslash, the two ends of a text, groups that
capture nothing, alternatives, and parts that may be missing. Nothing else is read as one.
-/

namespace DdlCatalog.Text

inductive Pattern
  | empty
  | literal (c : Char)
  | textStart
  | textEnd
  | sequence (p q : Pattern)
  | either (p q : Pattern)
  | optional (p : Pattern)
  deriving DecidableEq

namespace Pattern

/-! ### Meaning -/

/-- Whether a pattern matches a part of a text between what stands before it and after it. -/
def Matches : Pattern → List Char → List Char → List Char → Prop
  | .empty, _, part, _ => part = []
  | .literal c, _, part, _ => part = [c]
  | .textStart, before, part, _ => part = [] ∧ before = []
  | .textEnd, _, part, after => part = [] ∧ after = []
  | .sequence p q, before, part, after =>
    ∃ first second, part = first ++ second ∧ p.Matches before first (second ++ after) ∧
      q.Matches (before ++ first) second after
  | .either p q, before, part, after => p.Matches before part after ∨ q.Matches before part after
  | .optional p, before, part, after => part = [] ∨ p.Matches before part after

/-- A text is accepted if a match is found in it somewhere. -/
def Accepts (p : Pattern) (s : String) : Prop :=
  ∃ before part after, s.toList = before ++ part ++ after ∧ p.Matches before part after

/-! ### Spelling -/

/-- Characters that stand for themselves only behind a backslash. -/
def isMeta (c : Char) : Bool := "^$\\.*+?()[]\x7b\x7d|".toList.contains c

/-- A group that is being read: the alternatives before the last `|`, and the parts of the one after it,
each list with the last one first. -/
structure Group where
  alternatives : List Pattern := []
  parts : List Pattern := []

namespace Group

def push (g : Group) (p : Pattern) : Group := { g with parts := p :: g.parts }

def alternative (g : Group) : Pattern := g.parts.foldl (fun q p => .sequence p q) .empty

def bar (g : Group) : Group := { alternatives := g.alternative :: g.alternatives }

def close (g : Group) : Pattern := g.alternatives.foldl (fun q p => .either p q) g.alternative

/-- The last part may be missing; none if there is no part. -/
def maybe? (g : Group) : Option Group :=
  match g.parts with
  | [] => none
  | p :: ps => some { g with parts := .optional p :: ps }

end Group

/-- Reads the rest of a pattern in a group that is open inside those of the list. -/
def readFrom? (group : Group) (outer : List Group) : List Char → Option Pattern
  | [] => if outer.isEmpty then some group.close else none
  | c :: r =>
    if c = '\\' then
      match r with
      | [] => none
      | d :: r' => if isMeta d then readFrom? (group.push (.literal d)) outer r' else none
    else if c = '(' then
      match r with
      | d :: e :: r' => if d = '?' ∧ e = ':' then readFrom? {} (group :: outer) r' else none
      | _ => none
    else if c = ')' then
      match outer with
      | [] => none
      | around :: outer => readFrom? (around.push group.close) outer r
    else if c = '|' then readFrom? group.bar outer r
    else if c = '?' then
      match group.maybe? with
      | none => none
      | some group => readFrom? group outer r
    else if c = '^' then readFrom? (group.push .textStart) outer r
    else if c = '$' then readFrom? (group.push .textEnd) outer r
    else if isMeta c then none
    else readFrom? (group.push (.literal c)) outer r

def ofString? (s : String) : Option Pattern := readFrom? {} [] s.toList

end Pattern

end DdlCatalog.Text
