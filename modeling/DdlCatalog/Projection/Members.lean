import DdlCatalog.Json.Value

/-!
Named members in order. A repeated name keeps its first place and its last value.
-/

namespace DdlCatalog.Projection

variable {α : Type}

/-- Members under distinct names. -/
abbrev Members (α : Type) := List (String × α)

def put (name : String) (value : α) : Members α → Members α
  | [] => [(name, value)]
  | (n, v) :: r => if n = name then (name, value) :: r else (n, v) :: put name value r

def ofEntries (entries : List (String × α)) : Members α :=
  entries.foldl (fun ms e => put e.1 e.2 ms) []

/-- Changes the member of a name, if there is one. -/
def update (name : String) (f : α → α) : Members α → Members α
  | [] => []
  | (n, v) :: r => if n = name then (n, f v) :: r else (n, v) :: update name f r

def membersJson (value : α → Json) (ms : Members α) : Json :=
  .object (ms.map fun (n, v) => (n, value v))

/-- A bound as a number: an integer where it is one. -/
def boundNumber? (x : Float) : Option Number :=
  if x.toInt64.toFloat == x then some (.integer x.toInt64.toInt)
  else if x.isFinite then some (.real x)
  else none

end DdlCatalog.Projection
