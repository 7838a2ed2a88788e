import DdlCatalog.Json.Value

/-!
Reading the members of a record and writing them. A record is an object, whose unknown members are
ignored and whose known ones may not repeat, or the array of its members in their order.
-/

namespace DdlCatalog.Json

variable {α : Type}

def string? : Json → Option String
  | .string s => some s
  | _ => none

def bool? : Json → Option Bool
  | .bool b => some b
  | _ => none

def natBelow? (bound : Nat) : Json → Option Nat
  | .number (.integer n) => if 0 ≤ n ∧ n < bound then some n.toNat else none
  | _ => none

def uint8? (j : Json) : Option UInt8 := (j.natBelow? UInt8.size).map UInt8.ofNat

def uint32? (j : Json) : Option UInt32 := (j.natBelow? UInt32.size).map UInt32.ofNat

def uint64? (j : Json) : Option UInt64 := (j.natBelow? UInt64.size).map UInt64.ofNat

def list? (element? : Json → Option α) : Json → Option (List α)
  | .array elements => elements.mapM element?
  | _ => none

/-- A value of an enumeration, by its name; the name may also be the only member of an object,
with the value null. -/
def oneOf? (values : List α) (name : α → String) : Json → Option α
  | .string s => values.find? (name · == s)
  | .object [(s, .null)] => values.find? (name · == s)
  | _ => none

/-- The name and value of an object with one member. -/
def soleMember? : Json → Option (String × Json)
  | .object [(name, j)] => some (name, j)
  | _ => none

abbrev Fields := List (String × Json)

/-- The members of an object that have one of the given names; each may stand once. -/
def objectFields? (names : List String) : Json → Option Fields
  | .object members =>
    let known := members.filter (names.contains ·.1)
    if (known.map (·.1)).Nodup then some known else none
  | _ => none

def fields? (names : List String) : Json → Option Fields
  | .array elements => if elements.length ≤ names.length then some (names.zip elements) else none
  | j => j.objectFields? names

namespace Fields

variable (fields : Fields) (name : String) (value? : Json → Option α)

def get? : Option Json := fields.lookup name

def required : Option α := (fields.get? name).bind value?

/-- A member that may be absent or null. -/
def optional : Option (Option α) :=
  match fields.get? name with
  | none | some .null => some none
  | some j => (value? j).map some

/-- A member that may be absent, where null is a value as any other. -/
def present : Option (Option α) :=
  match fields.get? name with
  | none => some none
  | some j => (value? j).map some

/-- A member with a value for its absence. -/
def withDefault (default : α) : Option α :=
  match fields.get? name with
  | none => some default
  | some j => value? j

end Fields

def ofNat (n : Nat) : Json := .number (.integer n)

def ofUInt8 (n : UInt8) : Json := ofNat n.toNat

def ofUInt32 (n : UInt32) : Json := ofNat n.toNat

def ofUInt64 (n : UInt64) : Json := ofNat n.toNat

def ofList (value : α → Json) (xs : List α) : Json := .array (xs.map value)

def ofOption (value : α → Json) : Option α → Json
  | none => .null
  | some x => value x

def whenSome (name : String) (value : α → Json) : Option α → Fields
  | none => []
  | some x => [(name, value x)]

def whenTrue (name : String) (b : Bool) : Fields := if b then [(name, .bool true)] else []

/-- A member that is left out when empty. -/
def whenNonempty (name : String) (value : α → Json) (xs : List α) : Fields :=
  if xs.isEmpty then [] else [(name, ofList value xs)]

end DdlCatalog.Json
