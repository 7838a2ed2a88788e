import DdlCatalog.Json.Token

/-!
JSON texts: `parse?` reads a value and `render` writes it without blanks. A value goes through its
tokens both ways.
-/

namespace DdlCatalog.Json

/-- A container that is still open: its finished parts, the last one first, and in an object the
name of the member being read. -/
inductive Frame
  | array (done : List Json)
  | object (done : List (Option String × Json)) (name : Option String)

inductive Goal
  | value
  | elementOrClose
  | nameOrClose (done : List (Option String × Json))
  | name (done : List (Option String × Json))
  | colon (done : List (Option String × Json)) (name : Option String)
  | next (finished : Json)

/-- Values inside this many containers have no value. -/
def maxDepth : Nat := 127

def nested (frames : List Frame) (j : Json) : Json :=
  if maxDepth ≤ frames.length then .unreadable else j

/-- An object, unless one of its names has no value. -/
def ofMembers (done : List (Option String × Json)) : Json :=
  match done.reverse.mapM fun (name, j) => name.map (·, j) with
  | some members => .object members
  | none => .unreadable

/-- Where reading goes on after a token that starts a value. -/
def start (frames : List Frame) : Token → Option (Goal × List Frame)
  | .openArray => some (.elementOrClose, .array [] :: frames)
  | .openObject => some (.nameOrClose [], frames)
  | .null => some (.next .null, frames)
  | .bool b => some (.next (.bool b), frames)
  | .number n => some (.next ((n.map .number).getD .unreadable), frames)
  | .string s => some (.next ((s.map .string).getD .unreadable), frames)
  | _ => none

def step (goal : Goal) (frames : List Frame) (t : Token) : Option (Goal × List Frame) :=
  match goal, t, frames with
  | .value, t, frames => start frames t
  | .elementOrClose, .closeArray, .array _ :: frames =>
    some (.next (nested frames (.array [])), frames)
  | .elementOrClose, t, frames => start frames t
  | .nameOrClose _, .closeObject, frames => some (.next (nested frames (.object [])), frames)
  | .nameOrClose done, .string s, frames => some (.colon done s, frames)
  | .name done, .string s, frames => some (.colon done s, frames)
  | .colon done s, .colon, frames => some (.value, .object done s :: frames)
  | .next j, .comma, .array done :: frames => some (.value, .array (j :: done) :: frames)
  | .next j, .closeArray, .array done :: frames =>
    some (.next (nested frames (.array (j :: done).reverse)), frames)
  | .next j, .comma, .object done s :: frames => some (.name ((s, j) :: done), frames)
  | .next j, .closeObject, .object done s :: frames =>
    some (.next (nested frames (ofMembers ((s, j) :: done))), frames)
  | _, _, _ => none

/-- The value the tokens finish. -/
def finish? (goal : Goal) (frames : List Frame) : List Token → Option Json
  | [] =>
    match goal, frames with
    | .next j, [] => some j
    | _, _ => none
  | t :: ts =>
    match step goal frames t with
    | none => none
    | some (goal, frames) => finish? goal frames ts

/-- The value of a text; `none` if the text breaks the grammar. -/
def parse? (text : String) : Option Json := (tokens? text.toList).bind (finish? .value [])

mutual
def tokens : Json → List Token
  | .null => [.null]
  | .bool b => [.bool b]
  | .number n => [.number (some n)]
  | .string s => [.string (some s)]
  | .array [] => [.openArray, .closeArray]
  | .array (j :: r) => .openArray :: (tokens j ++ elementTokens r)
  | .object [] => [.openObject, .closeObject]
  | .object ((name, j) :: r) =>
    .openObject :: .string (some name) :: .colon :: (tokens j ++ memberTokens r)
  | .unreadable => [.null]

/-- The elements after the first, and the end of the array. -/
def elementTokens : List Json → List Token
  | [] => [.closeArray]
  | j :: r => .comma :: (tokens j ++ elementTokens r)

/-- The members after the first, and the end of the object. -/
def memberTokens : List (String × Json) → List Token
  | [] => [.closeObject]
  | (name, j) :: r => .comma :: .string (some name) :: .colon :: (tokens j ++ memberTokens r)
end

def render (j : Json) : String := String.ofList (j.tokens.flatMap Token.spell)

end DdlCatalog.Json
