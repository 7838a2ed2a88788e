import DdlCatalog.Proofs.Spelling.Kinds

/-!
The statements that a canonical spelling gives back. What is left out has either no spelling at all (an
empty list of columns, a number that does not fit) or one that stands for something else (a type that is
filled with zeros and still signed).
-/

namespace DdlCatalog

open Sql Sql.Parser

namespace Sql

/-- A numeral that stands for a real number: digits, a fraction and an exponent, of which one may be left
out. -/
structure Numeral where
  whole : List Char
  fraction : Option (List Char)
  exponent : Option (Bool × List Char)
  whole_digits : ∀ c ∈ whole, isDigit c = true
  whole_nonempty : whole ≠ []
  fraction_digits : ∀ digits ∈ fraction, ∀ c ∈ digits, isDigit c = true
  exponent_digits : ∀ e ∈ exponent, (∀ c ∈ e.2, isDigit c = true) ∧ e.2 ≠ []
  real : fraction.isSome || exponent.isSome

namespace Numeral

def fractionText (n : Numeral) : List Char := n.fraction.elim [] fun digits => '.' :: digits

def exponentText (n : Numeral) : List Char :=
  n.exponent.elim [] fun e => 'e' :: ((if e.1 then ['-'] else []) ++ e.2)

def text (n : Numeral) : List Char := n.whole ++ (n.fractionText ++ n.exponentText)

def shift (n : Numeral) : Int :=
  n.exponent.elim 0 fun e => if e.1 then -(Decimal.valueOf e.2 : Int) else Decimal.valueOf e.2

def value (n : Numeral) : Float :=
  let digits := n.fraction.getD []
  Decimal.nearest (Decimal.valueOf (n.whole ++ digits)) (n.shift - digits.length)

end Numeral

/-- Numbers that are written without a sign. -/
def Small (n : UInt64) : Prop := n.toNat < Nat.pow 2 63

end Sql

/-! ### Keys and columns -/

def IndexOptions.Canonical (o : IndexOptions) : Prop := ∀ n ∈ o.keyBlockSize, Small n

structure Index.Canonical (i : Index) : Prop where
  parts_nonempty : i.parts ≠ []
  options : i.options.Canonical

structure ForeignKey.Canonical (k : ForeignKey) : Prop where
  parts_nonempty : k.parts ≠ []
  target_nonempty : k.reference.parts ≠ []

/-- Enumerations and sets have values, all other types may have numbers. -/
structure TypeSpec.Canonical (s : TypeSpec) : Prop where
  values : s.values ≠ [] ↔ s.name = .enum ∨ s.name = .set
  no_arguments : s.values ≠ [] → s.arguments = []
  arguments_small : ∀ n ∈ s.arguments, Small n
  precise : exceedsPrecision s.name s.arguments = false
  zerofill : s.zerofill = true → s.unsigned = true

/-- The least integer has no spelling, and a real number is that of a numeral or minus that. -/
def DefaultValue.Canonical : DefaultValue → Prop
  | .integer n => n ≠ Int64.minValue
  | .real x => ∃ n : Numeral, if isNegative x then n.value = -x ∧ x = -n.value else n.value = x
  | _ => True

/-- Column formats are in upper case. -/
structure ColumnAttributes.Canonical (a : ColumnAttributes) : Prop where
  default : ∀ v ∈ a.default, v.Canonical
  format : ∀ s ∈ a.format, s.toUpper = s
  storage : ∀ s ∈ a.storage, s.toUpper = s
  target_nonempty : ∀ r ∈ a.reference, r.parts ≠ []

structure ColumnDefinition.Canonical (d : ColumnDefinition) : Prop where
  type : d.type.Canonical
  attributes : d.attributes.Canonical

def TableEntry.Canonical : TableEntry → Prop
  | .column d => d.Canonical
  | .primaryKey key => key.Canonical
  | .foreignKey k => k.Canonical
  | .index _ i => i.Canonical

/-! ### Tables -/

def TableOption.Canonical : TableOption → Prop
  | .autoIncrement n | .avgRowLength n | .keyBlockSize n | .maxRows n | .minRows n => Small n
  | .insertMethod s | .rowFormat s => s.toUpper = s
  | .packKeys mode => mode ∈ ["0", "1", "DEFAULT"]
  | .union tables => tables ≠ []
  | _ => True

def Alteration.Canonical : Alteration → Prop
  | .addColumn d _ | .changeColumn _ d _ | .modifyColumn d _ => d.Canonical
  | .addColumns ds => ds ≠ [] ∧ ∀ d ∈ ds, d.Canonical
  | .addIndex kind i => (TableEntry.index kind i).Canonical
  | .addPrimaryKey key => (TableEntry.primaryKey key).Canonical
  | .addForeignKey k => (TableEntry.foreignKey k).Canonical
  | .setDefault _ value => value.Canonical
  | .setOptions options => options ≠ [] ∧ ∀ o ∈ options, o.Canonical
  | _ => True

/-- A table has a column and an index that is created on its own has a name. -/
def Statement.Canonical : Statement → Prop
  | .createTable d =>
    (∃ e ∈ d.entries, e.isColumn = true) ∧ (∀ e ∈ d.entries, e.Canonical) ∧ ∀ o ∈ d.options, o.Canonical
  | .alterTable _ alterations => alterations ≠ [] ∧ ∀ a ∈ alterations, a.Canonical
  | .dropTable tables _ => tables ≠ []
  | .renameTable renames => renames ≠ []
  | .createIndex _ _ i => i.name.isSome = true ∧ i.Canonical
  | .createTableLike _ | .dropIndex _ _ => True

end DdlCatalog
