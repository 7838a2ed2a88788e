import DdlCatalog.Json.Token

/-!
JSON pointers as fragments of references. In a fragment `%` and two digits stand for a byte; each slash
starts the name of a member or the place of an element, in which `~1` stands for a slash and `~0` for a tilde.
-/

namespace DdlCatalog.Json

/-- The bytes a fragment stands for; none if a percent sign comes without its digits. -/
def percentBytes? : List Char → Option (List UInt8)
  | [] => some []
  | '%' :: high :: low :: r => do
    let high ← hexDigit? high
    let low ← hexDigit? low
    let bytes ← percentBytes? r
    return UInt8.ofNat (16 * high + low) :: bytes
  | '%' :: _ => none
  | c :: r => (percentBytes? r).map (String.utf8EncodeChar c ++ ·)

def percentDecode? (fragment : List Char) : Option (List Char) :=
  (percentBytes? fragment).bind fun bytes => bytes.toByteArray.utf8Decode?.map (·.toList)

def unescape : List Char → List Char
  | '~' :: '1' :: r => '/' :: unescape r
  | '~' :: '0' :: r => '~' :: unescape r
  | c :: r => c :: unescape r
  | [] => []

/-- The steps of a pointer. The empty one has none; any other starts with a slash. -/
def steps? (pointer : List Char) : Option (List String) :=
  match pointer.splitOn '/' with
  | [] :: steps => some (steps.map fun s => String.ofList (unescape s))
  | _ => none

/-- A place in an array, without zeros before its digits. -/
def index? (step : String) : Option Nat :=
  if step.toList.all Char.isDigit ∧ (step = "0" ∨ step.toList.head? ≠ some '0') then step.toNat? else none

def step? (step : String) : Json → Option Json
  | .array elements => (index? step).bind (elements[·]?)
  | j => j.member? step

def follow? : List String → Json → Option Json
  | [], j => some j
  | step :: steps, j => (j.step? step).bind (follow? steps)

/-- What a reference into a document leads to. -/
def resolve? (reference : String) (document : Json) : Option Json :=
  match reference.toList with
  | '#' :: fragment => (percentDecode? fragment).bind fun p => (steps? p).bind (follow? · document)
  | _ => none

end DdlCatalog.Json
