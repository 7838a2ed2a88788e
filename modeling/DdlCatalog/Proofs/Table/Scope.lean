import DdlCatalog.Proofs.Table.PrimaryKey

/-!
How far an edit of a table reaches. It is about some parts of the table and, in these, about columns, indexes
and foreign keys of some names; all else is as it was.
-/

namespace DdlCatalog

namespace Table

inductive Part
  | name
  | columns
  | primaryKey
  | foreignKeys
  | indexes (kind : IndexKind)
  | options
  deriving DecidableEq

namespace Part

/-- Two tables agree in a part. -/
def Same (t t' : Table) : Part → Prop
  | .name => t'.name = t.name
  | .columns => t'.columns = t.columns
  | .primaryKey => t'.primaryKey = t.primaryKey
  | .foreignKeys => t'.foreignKeys = t.foreignKeys
  | .indexes kind => t'.indexesOf kind = t.indexesOf kind
  | .options => t'.options = t.options

theorem Same.refl (t : Table) (p : Part) : p.Same t t := by
  cases p <;> rfl

theorem Same.trans {t t' t'' : Table} {p : Part} (h : p.Same t t') (h' : p.Same t' t'') : p.Same t t'' := by
  cases p <;> exact Eq.trans h' h

def anyIndexes : List Part := lookupOrder.map .indexes

/-- The parts that refer to columns. -/
def keys : List Part := .primaryKey :: .foreignKeys :: anyIndexes

end Part

/-- What an edit is about: parts of a table, and the names of columns, indexes and foreign keys. -/
structure Scope where
  parts : List Part
  columns : List String := []
  indexes : List String := []
  symbols : List String := []

namespace Scope

def sparesColumn (s : Scope) (c : Column) : Bool := c.name ∉ s.columns

/-- An index that the scope neither names nor reaches through one of its columns. -/
def sparesIndex (s : Scope) (i : Index) : Bool :=
  (∀ p ∈ i.parts, p.column ∉ s.columns) ∧ ∀ n ∈ i.name.toList, n ∉ s.indexes

def sparesForeignKey (s : Scope) (k : ForeignKey) : Bool :=
  (∀ p ∈ k.parts, p.column ∉ s.columns) ∧ ∀ n ∈ k.symbol.toList, n ∉ s.symbols

/-- Two tables differ within a scope at most: in its parts, and there what is not named stays, in its order. -/
structure Within (s : Scope) (t t' : Table) : Prop where
  parts_same : ∀ p ∉ s.parts, p.Same t t'
  columns_stay : t'.columns.filter s.sparesColumn = t.columns.filter s.sparesColumn
  indexes_stay : ∀ kind, ((t.indexesOf kind).filter s.sparesIndex).Sublist (t'.indexesOf kind)
  foreignKeys_stay : (t.foreignKeys.filter s.sparesForeignKey).Sublist t'.foreignKeys

variable {s : Scope} {t t' t'' : Table}

namespace Within

theorem refl (s : Scope) (t : Table) : s.Within t t :=
  ⟨fun p _ => Part.Same.refl t p, rfl, fun _ => List.filter_sublist, List.filter_sublist⟩

/-- What stays twice stays. -/
theorem filter_sublist_trans {α : Type} {p : α → Bool} {as bs cs : List α} (h : (as.filter p).Sublist bs)
    (h' : (bs.filter p).Sublist cs) : (as.filter p).Sublist cs := by
  have hp := h.filter p
  rw [List.filter_filter] at hp
  simp only [Bool.and_self] at hp
  exact hp.trans h'

theorem trans (h : s.Within t t') (h' : s.Within t' t'') : s.Within t t'' where
  parts_same p hp := (h.parts_same p hp).trans (h'.parts_same p hp)
  columns_stay := h'.columns_stay.trans h.columns_stay
  indexes_stay kind := filter_sublist_trans (h.indexes_stay kind) (h'.indexes_stay kind)
  foreignKeys_stay := filter_sublist_trans h.foreignKeys_stay h'.foreignKeys_stay

end Within

/-- The scope of several edits. -/
def all (ss : List Scope) : Scope where
  parts := ss.flatMap (·.parts)
  columns := ss.flatMap (·.columns)
  indexes := ss.flatMap (·.indexes)
  symbols := ss.flatMap (·.symbols)

theorem indexes_stay_of_eq {kind : IndexKind} (h : t'.indexesOf kind = t.indexesOf kind) :
    ((t.indexesOf kind).filter s.sparesIndex).Sublist (t'.indexesOf kind) := h ▸ List.filter_sublist

namespace Within

theorem of_columns {columns : List Column} (hparts : .columns ∈ s.parts)
    (h : columns.filter s.sparesColumn = t.columns.filter s.sparesColumn) :
    s.Within t { t with columns := columns } := by
  refine ⟨fun p hp => ?_, h, fun kind => indexes_stay_of_eq (by cases kind <;> rfl), List.filter_sublist⟩
  cases p with
  | columns => exact absurd hparts hp
  | indexes kind => cases kind <;> rfl
  | name | primaryKey | foreignKeys | options => rfl

theorem setName (hparts : .name ∈ s.parts) (n : String) : s.Within t (t.setName n) := by
  refine ⟨fun p hp => ?_, rfl, fun kind => indexes_stay_of_eq (by cases kind <;> rfl), List.filter_sublist⟩
  cases p with
  | name => exact absurd hparts hp
  | indexes kind => cases kind <;> rfl
  | columns | primaryKey | foreignKeys | options => rfl

theorem mergeOptions (hparts : .options ∈ s.parts) (options : List TableOption) :
    s.Within t (t.mergeOptions options) := by
  refine ⟨fun p hp => ?_, rfl, fun kind => indexes_stay_of_eq (by cases kind <;> rfl), List.filter_sublist⟩
  cases p with
  | options => exact absurd hparts hp
  | indexes kind => cases kind <;> rfl
  | name | columns | primaryKey | foreignKeys => rfl

end Within

end Scope

/-! ### Columns that stay -/

section Columns

variable {p : Column → Bool} {name : String} {c : Column} {columns columns' : List Column}

end Columns

/-! ### The scope of edits -/

namespace Scope

open Edit

variable {s : Scope} {t t' t'' : Table} {name : String} {c : Column}

/-- A column that goes or takes another name, and what refers to it. -/
def referring (columns : List String) : Scope where
  parts := .columns :: Part.keys
  columns := columns

end Scope

end Table

end DdlCatalog
