import DdlCatalog.Proofs.Table.Built

/-!
Columns and keys in any order. Where no column has constraints of its own, the columns of a definition and
its keys do not meet before all entries are added, so nothing hangs on how the ones stand between the others.
-/

namespace DdlCatalog

namespace TableEntry

/-- A column without constraints of its own. -/
def isPlainColumn : TableEntry → Bool
  | .column d => !(Column.ofDefinition d).hasInline
  | _ => false

end TableEntry

namespace Declared

variable {D : Declared} {c e : TableEntry} {cs es : List TableEntry}

def withColumns (D : Declared) (columns : List Column) : Declared := { D with columns := columns }

theorem add_plainColumn {d : ColumnDefinition} (hc : (Column.ofDefinition d).hasInline = false)
    (h : d.name ∉ D.columnNames) :
    D.add (.column d) = D.withColumns (D.columns ++ [(Column.ofDefinition d).bare]) := by
  have hnone : (Column.ofDefinition d).inline = {} := by simpa [Column.hasInline] using hc
  rw [add_column h]
  simp [ofEntry, hnone, withColumns]

theorem add_withColumns (he : e.isColumn = false) (columns : List Column) :
    (D.withColumns columns).add e = (D.add e).withColumns columns := by
  cases e with
  | column d => cases he
  | primaryKey _ | foreignKey _ | index _ _ =>
      rw [add_of_not_repeats id, add_of_not_repeats id]
      simp [ofEntry, withColumns]

theorem add_key_columns (he : e.isColumn = false) : (D.add e).columns = D.columns := by
  change ((D.withColumns D.columns).add e).columns = D.columns
  rw [add_withColumns he]
  rfl

theorem accepts_withColumns (he : e.isColumn = false) (columns : List Column) :
    (D.withColumns columns).Accepts e ↔ D.Accepts e := by
  cases e with
  | column d => cases he
  | primaryKey _ | foreignKey _ | index _ _ => exact Iff.rfl

/-- A column without constraints and a key, in either order. -/
structure Passes (D : Declared) (c e : TableEntry) : Prop where
  add_comm : (D.add e).add c = (D.add c).add e
  accepts_column : (D.add e).Accepts c ↔ D.Accepts c
  accepts_key : (D.add c).Accepts e ↔ D.Accepts e

theorem passes (hc : c.isPlainColumn = true) (he : e.isColumn = false) : D.Passes c e := by
  cases c with
  | primaryKey _ | foreignKey _ | index _ _ => cases hc
  | column d =>
      have hplain : (Column.ofDefinition d).hasInline = false := by simpa [TableEntry.isPlainColumn] using hc
      have hnames : (D.add e).columnNames = D.columnNames := by
        rw [columnNames, add_key_columns he, columnNames]
      by_cases h : d.name ∈ D.columnNames
      · have hfirst : D.add (.column d) = D := if_pos h
        have hsecond : (D.add e).add (.column d) = D.add e :=
          if_pos (show d.name ∈ (D.add e).columnNames by rwa [hnames])
        exact ⟨by rw [hfirst, hsecond], by rw [Accepts, Accepts, hnames], by rw [hfirst]⟩
      · have hfirst := add_plainColumn hplain h
        have hsecond := add_plainColumn hplain (show d.name ∉ (D.add e).columnNames by rwa [hnames])
        refine ⟨?_, by rw [Accepts, Accepts, hnames], ?_⟩
        · rw [hfirst, hsecond, add_withColumns he, add_key_columns he]
        · rw [hfirst, accepts_withColumns he]

theorem addAll_cons : D.addAll (e :: es) = (D.add e).addAll es := rfl

theorem acceptsAll_cons : D.AcceptsAll (e :: es) ↔ D.Accepts e ∧ (D.add e).AcceptsAll es := Iff.rfl

theorem addAll_append : D.addAll (cs ++ es) = (D.addAll cs).addAll es := List.foldl_append

theorem acceptsAll_append : D.AcceptsAll (cs ++ es) ↔ D.AcceptsAll cs ∧ (D.addAll cs).AcceptsAll es := by
  induction cs generalizing D with
  | nil => simp [AcceptsAll, addAll]
  | cons c cs ih => rw [List.cons_append, acceptsAll_cons, acceptsAll_cons, ih, and_assoc, addAll_cons]

/-- A key passes columns one by one. -/
theorem key_passes (hcs : ∀ c ∈ cs, c.isPlainColumn = true) (he : e.isColumn = false) :
    (D.add e).addAll cs = (D.addAll cs).add e ∧
      (D.Accepts e ∧ (D.add e).AcceptsAll cs ↔ D.AcceptsAll cs ∧ (D.addAll cs).Accepts e) := by
  induction cs generalizing D with
  | nil => simp [addAll, AcceptsAll]
  | cons c cs ih =>
      rw [List.forall_mem_cons] at hcs
      have hp : D.Passes c e := passes hcs.1 he
      obtain ⟨hadd, haccepts⟩ := ih (D := D.add c) hcs.2
      constructor
      · rw [addAll_cons, hp.add_comm, hadd, addAll_cons]
      · rw [acceptsAll_cons, acceptsAll_cons, hp.add_comm, hp.accepts_column, addAll_cons, ← hp.accepts_key]
        rw [and_left_comm, haccepts, and_assoc]

/-- Wherever the keys stand, what counts is their order and that of the columns. -/
theorem columns_first (hplain : ∀ e ∈ es, e.isColumn = true → e.isPlainColumn = true) :
    D.addAll es = D.addAll (es.filter (·.isColumn) ++ es.filter (!·.isColumn)) ∧
      (D.AcceptsAll es ↔ D.AcceptsAll (es.filter (·.isColumn) ++ es.filter (!·.isColumn))) := by
  induction es generalizing D with
  | nil => exact ⟨rfl, Iff.rfl⟩
  | cons e es ih =>
      rw [List.forall_mem_cons] at hplain
      obtain ⟨hadd, haccepts⟩ := ih (D := D.add e) hplain.2
      rw [addAll_cons, acceptsAll_cons, hadd, haccepts]
      cases he : e.isColumn with
      | true =>
          simp only [List.filter_cons, he, if_true, Bool.not_true, Bool.false_eq_true, if_false]
          exact ⟨rfl, Iff.rfl⟩
      | false =>
          have hcolumns : ∀ c ∈ es.filter (·.isColumn), c.isPlainColumn = true := by
            intro c hc
            obtain ⟨hc, hcolumn⟩ := List.mem_filter.1 hc
            exact hplain.2 c hc hcolumn
          obtain ⟨hpassed, hboth⟩ := key_passes (D := D) hcolumns he
          simp only [List.filter_cons, he, if_true, Bool.not_false, Bool.false_eq_true, if_false]
          constructor
          · rw [addAll_append, addAll_append, addAll_cons, hpassed]
          · rw [acceptsAll_append, acceptsAll_append, acceptsAll_cons, hpassed, ← and_assoc, hboth, and_assoc]

end Declared

namespace Table

open Edit

variable {t : Table} {d d' : TableDefinition}

/-- Definitions of one table that have the same columns, in one order, and the same keys, in one order. -/
structure SameSequences (d d' : TableDefinition) : Prop where
  table_eq : d'.table = d.table
  options_eq : d'.options = d.options
  columns_eq : d'.entries.filter (·.isColumn) = d.entries.filter (·.isColumn)
  keys_eq : d'.entries.filter (!·.isColumn) = d.entries.filter (!·.isColumn)

theorem SameSequences.plain (h : SameSequences d d') (hplain : ∀ e ∈ d.entries, e.isColumn = true → e.isPlainColumn = true) :
    ∀ e ∈ d'.entries, e.isColumn = true → e.isPlainColumn = true := by
  intro e he hcolumn
  have hm : e ∈ d'.entries.filter (·.isColumn) := List.mem_filter.2 ⟨he, hcolumn⟩
  rw [h.columns_eq] at hm
  exact hplain e (List.mem_filter.1 hm).1 hcolumn

/-- Both come to the table of the columns alone, then the keys. -/
theorem SameSequences.reaches_iff (h : SameSequences d d')
    (hplain : ∀ e ∈ d.entries, e.isColumn = true → e.isPlainColumn = true) (policy : Policy) :
    (addDefinition policy d').Reaches (empty d'.table) t ↔ (addDefinition policy d).Reaches (empty d.table) t := by
  obtain ⟨hadd, haccepts⟩ := Declared.columns_first (D := {}) hplain
  obtain ⟨hadd', haccepts'⟩ := Declared.columns_first (D := {}) (h.plain hplain)
  rw [h.columns_eq, h.keys_eq] at hadd' haccepts'
  rw [addDefinition_reaches, addDefinition_reaches, declared, declared, hadd, hadd', haccepts, haccepts', h.table_eq,
    h.options_eq]

/-- Where no column has constraints of its own, definitions of the same columns and the same keys make the
same table under the lenient policy, wherever the keys stand among the columns; and the strict policy
accepts the one exactly if it accepts the other, with the same table. -/
theorem ofDefinition_interleaved (hplain : ∀ e ∈ d.entries, e.isColumn = true → e.isPlainColumn = true)
    (h : SameSequences d d') :
    ((ofDefinition .lenient d).result = .ok () ∧ (ofDefinition .lenient d').result = .ok () ∧
      (ofDefinition .lenient d').state = (ofDefinition .lenient d).state) ∧
    ((ofDefinition .strict d').result = .ok () ↔ (ofDefinition .strict d).result = .ok ()) ∧
    ((ofDefinition .strict d).result = .ok () → (ofDefinition .strict d').state = (ofDefinition .strict d).state) := by
  have same (policy : Policy) (hd : (ofDefinition policy d).result = .ok ()) :
      (ofDefinition policy d').result = .ok () ∧ (ofDefinition policy d').state = (ofDefinition policy d).state :=
    (h.reaches_iff hplain policy).2 ⟨hd, rfl⟩
  have hlenient : (ofDefinition .lenient d).result = .ok () := (ofDefinition_lenient d).1
  refine ⟨⟨hlenient, same .lenient hlenient⟩, ⟨fun hd' => ?_, fun hd => (same .strict hd).1⟩, fun hd => (same .strict hd).2⟩
  exact ((h.reaches_iff hplain .strict).1 ⟨hd', rfl⟩).1

/-- Keys before, between and behind the columns they name, one of which is defined twice; one key names no
column of the table and another has its name, and two are the primary key. -/
def scattered : TableDefinition :=
  { table := "t"
    entries := [
      .primaryKey (.onColumns ["b"]),
      .column { name := "a", type := { name := .int } },
      .index .plain { Index.onColumns ["ghost"] with name := some "k" },
      .index .unique { Index.onColumns ["b", "a"] with name := some "k" },
      .column { name := "b", type := { name := .int } },
      .foreignKey (.onColumns ["b"] (.toColumns "t" ["a"])),
      .column { name := "a", type := { name := .text } },
      .primaryKey (.onColumns ["a"])]
    options := [.engine "memory"] }

/-- The same columns and the same keys, all columns first. -/
def gathered : TableDefinition :=
  { scattered with entries := scattered.entries.filter (·.isColumn) ++ scattered.entries.filter (!·.isColumn) }

theorem scattered_gathered : (∀ e ∈ scattered.entries, e.isColumn = true → e.isPlainColumn = true) ∧
    SameSequences scattered gathered ∧
    (ofDefinition .lenient gathered).state = (ofDefinition .lenient scattered).state ∧
    (ofDefinition .lenient scattered).state.primaryKey = some (.onColumns ["a"]) ∧
    (ofDefinition .lenient scattered).state.uniqueKeys = [] := by
  have hplain : ∀ e ∈ scattered.entries, e.isColumn = true → e.isPlainColumn = true := by decide
  have hsame : SameSequences scattered gathered := ⟨rfl, rfl, by decide, by decide⟩
  obtain ⟨⟨-, -, hstate⟩, -⟩ := ofDefinition_interleaved hplain hsame
  exact ⟨hplain, hsame, hstate, by decide, by decide⟩

end Table

end DdlCatalog
