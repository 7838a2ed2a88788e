/-!
JSON values. The members of an object keep their order and may repeat a name.
-/

namespace DdlCatalog

/-- A JSON number: an integer between `-2 ^ 63` and `2 ^ 64 - 1`, or a float. -/
inductive Number
  | integer (n : Int)
  | real (x : Float)
  deriving DecidableEq

/-- A JSON value. `unreadable` stands for a text that keeps to the grammar and has no value: a
number beyond the floats, half a surrogate pair, or a value nested too deeply. -/
inductive Json
  | null
  | bool (b : Bool)
  | number (n : Number)
  | string (s : String)
  | array (elements : List Json)
  | object (members : List (String × Json))
  | unreadable

namespace Json

mutual
def isComplete : Json → Bool
  | .unreadable => false
  | .array elements => allComplete elements
  | .object members => allMembersComplete members
  | _ => true

def allComplete : List Json → Bool
  | [] => true
  | j :: r => j.isComplete && allComplete r

def allMembersComplete : List (String × Json) → Bool
  | [] => true
  | (_, j) :: r => j.isComplete && allMembersComplete r
end

def member? (name : String) : Json → Option Json
  | .object members => (members.find? (·.1 == name)).map (·.2)
  | _ => none

end Json

end DdlCatalog
