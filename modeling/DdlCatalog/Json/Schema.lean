import DdlCatalog.Json.Value

/-!
What a schema, draft 7, asks of a value, for the keywords that the schemas of columns have. A keyword for
numbers asks nothing of a value that is not a number, and one for strings nothing of a value that is not a string.
-/

namespace DdlCatalog.Json

/-- Whether a value is of the type of that name. A number without a fraction is an integer too. -/
def isOfType : Json → String → Bool
  | .null, name => name == "null"
  | .bool _, name => name == "boolean"
  | .number (.integer _), name => name == "number" || name == "integer"
  | .number (.real x), name => name == "number" || (name == "integer" && x.floor == x)
  | .string _, name => name == "string"
  | .array _, name => name == "array"
  | .object _, name => name == "object"
  | .unreadable, _ => false

/-- What the keywords for numbers and those for strings ask of them, given the argument of the keyword. -/
structure Limits where
  number : String → Json → Number → Prop
  string : String → Json → String → Prop

/-- What a keyword with its argument asks of a value. A member that is none of the keywords asks nothing. -/
def Asks (limits : Limits) (keyword : String) (argument value : Json) : Prop :=
  match keyword with
  | "type" =>
    match argument with
    | .string name => value.isOfType name = true
    | .array names => ∃ name, .string name ∈ names ∧ value.isOfType name = true
    | _ => False
  | "enum" =>
    match argument with
    | .array values => value ∈ values
    | _ => False
  | "minimum" | "maximum" => ∀ n, value = .number n → limits.number keyword argument n
  | "maxLength" | "pattern" | "format" => ∀ s, value = .string s → limits.string keyword argument s
  | _ => True

/-- A value is valid if it is all that the keywords of the schema ask. -/
def Valid (limits : Limits) (schema value : Json) : Prop :=
  match schema with
  | .object members => ∀ m ∈ members, Asks limits m.1 m.2 value
  | .bool b => b = true
  | _ => False

end DdlCatalog.Json
