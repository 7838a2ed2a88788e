import DdlCatalog.Decimal.Reading
import DdlCatalog.Schema.Definition

/-!
Column types of a table, with the sizes that a definition leaves out, and the bounds they put on
values.
-/

namespace DdlCatalog

/-- The integers of all sizes are one kind, told apart by their width; texts and blobs by their
length. -/
inductive DatatypeKind
  | int
  | decimal
  | float
  | double
  | bit
  | boolean
  | date
  | time
  | datetime
  | timestamp
  | year
  | char
  | varchar
  | binary
  | varbinary
  | text
  | blob
  | enum
  | set
  | json
  | geometry
  | point
  | linestring
  | polygon
  | multipoint
  | multilinestring
  | multipolygon
  | geometrycollection
  deriving DecidableEq

/-- A column type. A size that means nothing for the kind is unset. -/
structure Datatype where
  kind : DatatypeKind
  /-- bytes of an integer -/
  width : Option UInt8 := none
  /-- digits in all, or shown -/
  digits : Option UInt32 := none
  /-- digits after the point -/
  decimals : Option UInt32 := none
  /-- characters, bytes or bits -/
  length : Option UInt64 := none
  /-- digits of a fraction of a second -/
  fractional : Option UInt8 := none
  values : List String := []
  unsigned : Bool := false
  deriving DecidableEq

inductive ValueFormat
  | date
  | time
  | dateTime
  deriving DecidableEq

def ValueFormat.name : ValueFormat → String
  | .date => "date"
  | .time => "time"
  | .dateTime => "date-time"

structure Bounds where
  least : Option Float := none
  greatest : Option Float := none
  format : Option ValueFormat := none
  pattern : Option String := none
  maxLength : Option UInt64 := none
  allowed : List String := []
  deriving DecidableEq

def clampUInt32 (n : UInt64) : UInt32 :=
  if n.toNat < UInt32.size then n.toUInt32 else UInt32.ofNat (UInt32.size - 1)

def clampUInt8 (n : UInt64) : UInt8 :=
  if n.toNat < UInt8.size then n.toUInt8 else UInt8.ofNat (UInt8.size - 1)

namespace Datatype

def int (width : UInt8) : Datatype := { kind := .int, width := some width }

def varchar (length : UInt64) : Datatype := { kind := .varchar, length := some length }

def isNumeric (d : Datatype) : Bool :=
  match d.kind with
  | .int | .decimal | .float | .double => true
  | _ => false

/-- A binary float with more digits than a short one holds is a long one. -/
def floatOfArguments (first second : Option UInt64) : Datatype :=
  match first, second with
  | some digits, some decimals =>
    { kind := .float, digits := some (clampUInt32 digits), decimals := some (clampUInt32 decimals) }
  | some precision, none => { kind := if 24 < precision then .double else .float }
  | none, _ => { kind := .float }

/-- The type a name and the first two numbers after it stand for, without its modifiers. -/
def ofName (name : TypeName) (first second : Option UInt64) (values : List String) : Datatype :=
  match name with
  | .tinyint => { int 1 with digits := first.map clampUInt32 }
  | .smallint => { int 2 with digits := first.map clampUInt32 }
  | .mediumint => { int 3 with digits := first.map clampUInt32 }
  | .int => { int 4 with digits := first.map clampUInt32 }
  | .bigint => { int 8 with digits := first.map clampUInt32 }
  | .boolean => { kind := .boolean }
  | .decimal =>
    { kind := .decimal
      digits := some ((first.map clampUInt32).getD 10)
      decimals := some ((second.map clampUInt32).getD 0) }
  | .float => floatOfArguments first second
  | .double =>
    { kind := .double
      digits := if second.isSome then first.map clampUInt32 else none
      decimals := second.map clampUInt32 }
  | .bit => { kind := .bit, length := some (first.getD 1) }
  | .date => { kind := .date }
  | .time => { kind := .time, fractional := some ((first.map clampUInt8).getD 0) }
  | .datetime => { kind := .datetime, fractional := some ((first.map clampUInt8).getD 0) }
  | .timestamp => { kind := .timestamp, fractional := some ((first.map clampUInt8).getD 0) }
  | .year => { kind := .year, digits := some ((first.map clampUInt32).getD 4) }
  | .char => { kind := .char, length := some (first.getD 1) }
  | .varchar => { kind := .varchar, length := first }
  | .binary => { kind := .binary, length := some (first.getD 1) }
  | .varbinary => { kind := .varbinary, length := first }
  | .tinytext => { kind := .text, length := some 255 }
  | .text => { kind := .text, length := some (first.getD 65535) }
  | .mediumtext => { kind := .text, length := some 16777215 }
  | .longtext => { kind := .text, length := some 4294967295 }
  | .tinyblob => { kind := .blob, length := some 255 }
  | .blob => { kind := .blob, length := some (first.getD 65535) }
  | .mediumblob => { kind := .blob, length := some 16777215 }
  | .longblob => { kind := .blob, length := some 4294967295 }
  | .enum => { kind := .enum, values := values }
  | .set => { kind := .set, values := values }
  | .json => { kind := .json }
  | .geometry => { kind := .geometry }
  | .point => { kind := .point }
  | .linestring => { kind := .linestring }
  | .polygon => { kind := .polygon }
  | .multipoint => { kind := .multipoint }
  | .multilinestring => { kind := .multilinestring }
  | .multipolygon => { kind := .multipolygon }
  | .geometrycollection => { kind := .geometrycollection }

/-- The type that is written as `spec`. Only numbers are unsigned. -/
def ofSpec (spec : TypeSpec) : Datatype :=
  let d := ofName spec.name spec.arguments.head? spec.arguments[1]? spec.values
  if d.isNumeric then { d with unsigned := spec.unsigned || spec.zerofill } else d

/-- The least and greatest integer of `width` bytes as floats. The greatest unsigned one is
counted one too high. -/
def integerBounds (width : UInt8) (unsigned : Bool) : Option (Float × Float) :=
  if width = 0 ∨ 8 < width then none
  else
    let span := Nat.pow 2 (8 * width.toNat)
    if unsigned then some (0.0, Decimal.nearest span 0)
    else some (-(Decimal.nearest (span / 2) 0), Decimal.nearest (span / 2 - 1) 0)

/-- More nines after the point than this do not change the float. -/
def maxFractionNines : Nat := 40

/-- The greatest number of that many digits, as a float; `none` if there are no digits or no such
float. -/
def nines (digits decimals : UInt32) : Option Float :=
  let decimals := min decimals.toNat digits.toNat
  let whole := digits.toNat - decimals
  let fraction := min decimals maxFractionNines
  if 308 < whole ∨ whole + fraction = 0 then none
  else some (Decimal.nearest (Nat.pow 10 (whole + fraction) - 1) (-fraction))

def isRegexSpecial (c : Char) : Bool := "\\.+*?()|[]\x7b\x7d^$".toList.contains c

def escapeRegex (s : String) : List Char :=
  s.toList.flatMap fun c => if isRegexSpecial c then ['\\', c] else [c]

/-- A value, then any of the following ones, each after a comma. -/
def setAlternative (value : String) (following : List String) : List Char :=
  escapeRegex value ++ following.flatMap fun s => "(?:,".toList ++ escapeRegex s ++ ")?".toList

/-- The alternatives that start with each of the values. -/
def setAlternatives : List String → List (List Char)
  | [] => []
  | value :: following => setAlternative value following :: setAlternatives following

/-- A regular expression for some of the values in their order, with commas between them. -/
def setPattern (values : List String) : String :=
  String.ofList ("^(?:".toList ++ ['|'].intercalate (setAlternatives values) ++ ")?$".toList)

def yearPattern (digits : UInt32) : String :=
  "^\\d\x7b1," ++ toString digits.toNat ++ "\x7d$"

def bounds (d : Datatype) : Bounds :=
  match d.kind with
  | .int =>
    match d.width.bind (integerBounds · d.unsigned) with
    | some (least, greatest) => { least := some least, greatest := some greatest }
    | none => {}
  | .decimal | .float =>
    match d.digits.bind (nines · (d.decimals.getD 0)) with
    | some limit =>
      { least := some (if d.unsigned then 0.0 else -limit), greatest := some limit }
    | none => {}
  | .date => { format := some .date }
  | .time => { format := some .time }
  | .datetime => { format := some .dateTime }
  | .year => { pattern := some (yearPattern (d.digits.getD 4)) }
  | .char | .varchar | .binary | .varbinary | .text => { maxLength := d.length }
  | .enum => { allowed := d.values }
  | .set => { pattern := some (setPattern d.values) }
  | _ => {}

end Datatype

namespace DatatypeKind

def all : List DatatypeKind :=
  [.int, .decimal, .float, .double, .bit, .boolean, .date, .time, .datetime, .timestamp, .year,
    .char, .varchar, .binary, .varbinary, .text, .blob, .enum, .set, .json, .geometry, .point,
    .linestring, .polygon, .multipoint, .multilinestring, .multipolygon, .geometrycollection]

def name : DatatypeKind → String
  | .int => "int"
  | .decimal => "decimal"
  | .float => "float"
  | .double => "double"
  | .bit => "bit"
  | .boolean => "boolean"
  | .date => "date"
  | .time => "time"
  | .datetime => "datetime"
  | .timestamp => "timestamp"
  | .year => "year"
  | .char => "char"
  | .varchar => "varchar"
  | .binary => "binary"
  | .varbinary => "varbinary"
  | .text => "text"
  | .blob => "blob"
  | .enum => "enum"
  | .set => "set"
  | .json => "json"
  | .geometry => "geometry"
  | .point => "point"
  | .linestring => "linestring"
  | .polygon => "polygon"
  | .multipoint => "multipoint"
  | .multilinestring => "multilinestring"
  | .multipolygon => "multipolygon"
  | .geometrycollection => "geometrycollection"

end DatatypeKind

end DdlCatalog
