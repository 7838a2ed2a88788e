import DdlCatalog.Proofs.Firsts
import DdlCatalog.Proofs.Table.Definition

/-!
What the entries of a definition declare, collection by collection. An entry that is refused declares
nothing; all others add to the collections, where the first index or foreign key of a name counts and
the last primary key.
-/

namespace DdlCatalog

/-- What entries have declared: all columns, the indexes of all kinds, the foreign keys and the primary
keys, each in the order of the entries. -/
structure Declared where
  columns : List Column := []
  indexes : List (IndexKind × Index) := []
  foreignKeys : List ForeignKey := []
  primaryKeys : List Index := []

namespace Declared

open Edit

def columnNames (D : Declared) : List String := D.columns.map (·.name)

def indexName (e : IndexKind × Index) : Option String := e.2.name

def ofKind (D : Declared) (kind : IndexKind) : List Index :=
  D.indexes.filterMap fun e => if e.1 = kind then some e.2 else none

/-- The table of what is declared, before its keys are resolved. -/
def table (name : String) (D : Declared) : Table :=
  { name := name
    columns := D.columns
    primaryKey := D.primaryKeys.getLast?
    foreignKeys := D.foreignKeys
    uniqueKeys := D.ofKind .unique
    indexes := D.ofKind .plain
    spatialIndexes := D.ofKind .spatial
    fulltextIndexes := D.ofKind .fulltext }

/-- What an entry declares if it is not refused. An empty key always is. -/
def ofEntry : TableEntry → Declared
  | .column d =>
    let c := Column.ofDefinition d
    { columns := [c.bare]
      indexes := if c.inline.uniqueKey then [(.unique, .onColumns [c.name])] else []
      foreignKeys := (c.inline.reference.map (ForeignKey.onColumns [c.name])).toList
      primaryKeys := if c.inline.primaryKey then [.onColumns [c.name]] else [] }
  | .primaryKey key => { primaryKeys := if key.isEmpty then [] else [key] }
  | .foreignKey k => { foreignKeys := if k.plain.isEmpty then [] else [k.plain] }
  | .index kind i => { indexes := if i.isEmpty then [] else [(kind, i)] }

/-- A column of a name that is taken. -/
def Repeats (D : Declared) : TableEntry → Prop
  | .column d => d.name ∈ D.columnNames
  | _ => False

instance (D : Declared) : DecidablePred D.Repeats
  | .column d => inferInstanceAs (Decidable (d.name ∈ D.columnNames))
  | .primaryKey _ | .foreignKey _ | .index _ _ => isFalse id

def add (D : Declared) (e : TableEntry) : Declared :=
  if D.Repeats e then D
  else
    { columns := D.columns ++ (ofEntry e).columns
      indexes := (ofEntry e).indexes.foldl (adjoin indexName) D.indexes
      foreignKeys := (ofEntry e).foreignKeys.foldl (adjoin (·.symbol)) D.foreignKeys
      primaryKeys := D.primaryKeys ++ (ofEntry e).primaryKeys }

/-- What takes an entry for it not to be refused. -/
def Accepts (D : Declared) : TableEntry → Prop
  | .column d => d.name ∉ D.columnNames
  | .primaryKey key => key.isEmpty = false
  | .foreignKey k => k.plain.isEmpty = false ∧ Free (·.symbol) D.foreignKeys k.plain
  | .index kind i => i.isEmpty = false ∧ Free indexName D.indexes (kind, i)

variable {D : Declared} {name : String}

/-! ### Collections -/

@[simp]
theorem table_indexesOf (D : Declared) (name : String) (kind : IndexKind) :
    (D.table name).indexesOf kind = D.ofKind kind := by
  cases kind <;> rfl

theorem mem_ofKind {kind : IndexKind} {i : Index} : i ∈ D.ofKind kind ↔ (kind, i) ∈ D.indexes := by
  rw [ofKind, List.mem_filterMap]
  constructor
  · rintro ⟨⟨kind', j⟩, hj, h⟩
    split at h
    · rename_i hk
      cases h
      cases hk
      exact hj
    · cases h
  · exact fun h => ⟨(kind, i), h, if_pos rfl⟩

/-- The name of an index is the name of an index of some kind. -/
theorem mem_names_iff_ofKind {n : String} :
    n ∈ D.indexes.filterMap indexName ↔ ∃ kind, n ∈ (D.ofKind kind).filterMap (·.name) := by
  simp only [List.mem_filterMap, mem_ofKind, indexName, Prod.exists]

theorem mem_table_indexNames {n : String} :
    n ∈ (D.table name).indexNames ↔ n ∈ D.indexes.filterMap indexName := by
  rw [mem_names_iff_ofKind]
  simp only [Table.indexNames, List.mem_filterMap, List.mem_flatMap, table_indexesOf]
  constructor
  · rintro ⟨i, ⟨kind, -, hi⟩, hn⟩
    exact ⟨kind, i, hi, hn⟩
  · rintro ⟨kind, i, hi, hn⟩
    exact ⟨i, ⟨kind, by cases kind <;> simp [Table.lookupOrder], hi⟩, hn⟩

theorem table_append_index (D : Declared) (name : String) (kind : IndexKind) (i : Index) :
    (D.table name).mapIndexes kind (· ++ [i]) = { D with indexes := D.indexes ++ [(kind, i)] }.table name := by
  cases kind <;> simp [Table.mapIndexes, table, ofKind]

theorem checkIndexName_table (D : Declared) (name : String) {kind : IndexKind} {i : Index} :
    (D.table name).checkIndexName i.name = .ok () ↔ Free indexName D.indexes (kind, i) := by
  simp only [Table.checkIndexName_eq_ok_iff, mem_table_indexNames, Free]
  rfl

theorem checkSymbol_table (D : Declared) (name : String) {k : ForeignKey} :
    (D.table name).checkSymbol k.symbol = .ok () ↔ Free (·.symbol) D.foreignKeys k :=
  Table.checkSymbol_eq_ok_iff

/-! ### Columns -/

theorem updateColumns_concat {columns : List Column} {c : Column} (h : c.name ∉ columns.map (·.name))
    (f : Column → Column) : Table.updateColumns c.name f (columns ++ [c]) = columns ++ [f c] := by
  have hsplit : Table.ColumnSplit c.name (columns ++ [c]) columns c [] :=
    ⟨rfl, rfl, fun d hd he => h (List.mem_map.2 ⟨d, hd, he⟩)⟩
  exact hsplit.updateColumns_eq f

/-- A column declared with a primary key is not nullable to begin with. -/
theorem notNull_ofDefinition {d : ColumnDefinition} (h : (Column.ofDefinition d).inline.primaryKey = true) :
    (Column.ofDefinition d).bare.notNull = (Column.ofDefinition d).bare := by
  have hp : d.attributes.primaryKey = true := h
  simp [Column.ofDefinition, Column.bare, Column.notNull, hp]

theorem add_of_not_repeats {e : TableEntry} (h : ¬D.Repeats e) : D.add e =
    { columns := D.columns ++ (ofEntry e).columns
      indexes := (ofEntry e).indexes.foldl (adjoin indexName) D.indexes
      foreignKeys := (ofEntry e).foreignKeys.foldl (adjoin (·.symbol)) D.foreignKeys
      primaryKeys := D.primaryKeys ++ (ofEntry e).primaryKeys } := if_neg h

/-- The constraints of a column become keys without a name, so none of them is refused. -/
theorem add_column {d : ColumnDefinition} (h : d.name ∉ D.columnNames) : D.add (.column d) =
    { columns := D.columns ++ [(Column.ofDefinition d).bare]
      indexes := D.indexes ++ (ofEntry (.column d)).indexes
      foreignKeys := D.foreignKeys ++ (ofEntry (.column d)).foreignKeys
      primaryKeys := D.primaryKeys ++ (ofEntry (.column d)).primaryKeys } := by
  have hindexes : ∀ i ∈ (ofEntry (.column d)).indexes, indexName i = none := by
    simp [ofEntry, indexName, Index.onColumns]
  have hforeign : ∀ k ∈ (ofEntry (.column d)).foreignKeys, k.symbol = none := by
    simp [ofEntry, ForeignKey.onColumns]
  have hnew : ¬D.Repeats (.column d) := h
  rw [add_of_not_repeats hnew, foldl_adjoin_unnamed hindexes, foldl_adjoin_unnamed hforeign]
  rfl

theorem promote_table {d : ColumnDefinition} (h : d.name ∉ D.columnNames) :
    ({ D.table name with columns := D.columns ++ [(Column.ofDefinition d).bare] } : Table).promote (.ofDefinition d) =
      (D.add (.column d)).table name := by
  rw [add_column h]
  apply Table.ext_kinds
  · exact Table.promote_name ..
  · rw [Table.promote]
    split
    · rename_i hp
      have hattach := updateColumns_concat (c := (Column.ofDefinition d).bare) h Column.notNull
      rwa [notNull_ofDefinition hp] at hattach
    · rfl
  · rw [Table.promote_primaryKey]
    simp only [table, ofEntry]
    split <;> simp
  · rw [Table.promote_foreignKeys]
    rfl
  · intro kind
    rw [Table.promote_indexesOf]
    cases hu : (Column.ofDefinition d).inline.uniqueKey <;> cases kind <;>
      simp [ofKind, ofEntry, hu, Table.indexesOf, table]
  · rw [Table.promote]
    split <;> rfl

/-! ### Entries -/

theorem add_primaryKey {key : Index} (h : D.Accepts (.primaryKey key)) :
    D.add (.primaryKey key) = { D with primaryKeys := D.primaryKeys ++ [key] } := by
  have hkey : key.isEmpty = false := h
  rw [add_of_not_repeats id]
  simp [ofEntry, hkey]

theorem add_foreignKey {k : ForeignKey} (h : D.Accepts (.foreignKey k)) :
    D.add (.foreignKey k) = { D with foreignKeys := D.foreignKeys ++ [k.plain] } := by
  obtain ⟨hk, hfree⟩ := h
  rw [add_of_not_repeats id]
  simp [ofEntry, hk, adjoin_free hfree]

theorem add_index {kind : IndexKind} {i : Index} (h : D.Accepts (.index kind i)) :
    D.add (.index kind i) = { D with indexes := D.indexes ++ [(kind, i)] } := by
  obtain ⟨hi, hfree⟩ := h
  rw [add_of_not_repeats id]
  simp [ofEntry, hi, adjoin_free hfree]

theorem add_refused {e : TableEntry} (h : ¬D.Accepts e) : D.add e = D := by
  cases e with
  | column d => exact if_pos (not_not.1 h)
  | primaryKey key =>
      have hkey : key.isEmpty = true := by simpa [Accepts] using h
      rw [add_of_not_repeats id]
      simp [ofEntry, hkey]
  | foreignKey k =>
      rw [add_of_not_repeats id]
      cases hk : k.plain.isEmpty with
      | true => simp [ofEntry, hk]
      | false => simp [ofEntry, hk, adjoin_taken fun hfree => h ⟨hk, hfree⟩]
  | index kind i =>
      rw [add_of_not_repeats id]
      cases hi : i.isEmpty with
      | true => simp [ofEntry, hi]
      | false => simp [ofEntry, hi, adjoin_taken fun hfree => h ⟨hi, hfree⟩]

/-- A change of the table that adds an entry if it is accepted and is refused otherwise. -/
def AddedBy (D : Declared) (name : String) (e : TableEntry) (result : Except ReferenceError Table) : Prop :=
  (D.Accepts e ∧ result = .ok ((D.add e).table name)) ∨ (¬D.Accepts e ∧ ∃ r, result = .error r)

theorem addColumn_adds (d : ColumnDefinition) :
    D.AddedBy name (.column d) ((D.table name).addColumn (.ofDefinition d) none) := by
  rw [Table.addColumn]
  by_cases h : d.name ∈ D.columnNames
  · have hc : (D.table name).hasColumn (Column.ofDefinition d).name = true := Table.hasColumn_iff_mem.2 h
    rw [if_pos hc]
    exact .inr ⟨not_not_intro h, _, rfl⟩
  · have hc : (D.table name).hasColumn (Column.ofDefinition d).name = false := Table.hasColumn_eq_false_iff.2 h
    rw [if_neg (by simp [hc])]
    exact .inl ⟨h, congrArg Except.ok (promote_table h)⟩

theorem declarePrimaryKey_adds (key : Index) :
    D.AddedBy name (.primaryKey key) (Table.declarePrimaryKey key (D.table name)) := by
  rw [Table.declarePrimaryKey]
  cases hkey : key.isEmpty with
  | true => exact .inr ⟨by simp [Accepts, hkey], _, rfl⟩
  | false =>
      have haccepts : D.Accepts (.primaryKey key) := hkey
      exact .inl ⟨haccepts, by rw [add_primaryKey haccepts]; simp [table, ofKind]⟩

theorem declareForeignKey_adds (k : ForeignKey) :
    D.AddedBy name (.foreignKey k) (Table.declareForeignKey k.plain (D.table name)) := by
  rw [Table.declareForeignKey]
  cases hk : k.plain.isEmpty with
  | true => exact .inr ⟨by simp [Accepts, hk], _, rfl⟩
  | false =>
      cases hs : (D.table name).checkSymbol k.plain.symbol with
      | ok _ =>
          have haccepts : D.Accepts (.foreignKey k) := ⟨hk, (D.checkSymbol_table name).1 hs⟩
          exact .inl ⟨haccepts, by rw [add_foreignKey haccepts]; rfl⟩
      | error r =>
          refine .inr ⟨fun haccepts => ?_, r, rfl⟩
          rw [(D.checkSymbol_table name).2 haccepts.2] at hs
          cases hs

theorem declareIndex_adds (kind : IndexKind) (i : Index) :
    D.AddedBy name (.index kind i) (Table.declareIndex kind i (D.table name)) := by
  rw [Table.declareIndex]
  cases hi : i.isEmpty with
  | true => exact .inr ⟨by simp [Accepts, hi], _, rfl⟩
  | false =>
      cases hn : (D.table name).checkIndexName i.name with
      | ok _ =>
          have haccepts : D.Accepts (.index kind i) := ⟨hi, (D.checkIndexName_table name).1 hn⟩
          refine .inl ⟨haccepts, ?_⟩
          rw [add_index haccepts, ← table_append_index]
          rfl
      | error r =>
          refine .inr ⟨fun haccepts => ?_, r, rfl⟩
          rw [(D.checkIndexName_table name).2 haccepts.2] at hn
          cases hn

/-! ### Runs over entries -/

theorem AddedBy.under_step {e : TableEntry} {change : Table → Except ReferenceError Table} {events : Table → List Event}
    (h : D.AddedBy name e (change (D.table name))) {policy : Policy} {t : Table} :
    (under policy (step change events)).Reaches (D.table name) t ↔
      (policy = .strict → D.Accepts e) ∧ t = (D.add e).table name := by
  rw [reaches_under, run_step]
  rcases h with ⟨haccepts, hok⟩ | ⟨hrefuses, r, herror⟩
  · simp [hok, haccepts]
  · simp [herror, hrefuses, add_refused hrefuses]

theorem addEntry_reaches {policy : Policy} {e : TableEntry} {t : Table} :
    (under policy (Table.addEntry e)).Reaches (D.table name) t ↔
      (policy = .strict → D.Accepts e) ∧ t = (D.add e).table name := by
  cases e with
  | column d =>
      rw [Table.addEntry, Table.Edits.addColumn_eq]
      exact (addColumn_adds d).under_step
  | primaryKey key => exact (declarePrimaryKey_adds key).under_step
  | foreignKey k => exact (declareForeignKey_adds k).under_step
  | index kind i => exact (declareIndex_adds kind i).under_step

def addAll (D : Declared) (es : List TableEntry) : Declared := es.foldl add D

/-- What takes none of the entries for it to be refused. -/
def AcceptsAll : Declared → List TableEntry → Prop
  | _, [] => True
  | D, e :: es => D.Accepts e ∧ (D.add e).AcceptsAll es

/-- The one closed form of a run over entries: the policies differ in whether a refused entry ends it. -/
theorem addEntries_reaches {policy : Policy} {es : List TableEntry} {t : Table} :
    (forEach (fun e => under policy (Table.addEntry e)) es).Reaches (D.table name) t ↔
      (policy = .strict → D.AcceptsAll es) ∧ t = (D.addAll es).table name := by
  induction es generalizing D with
  | nil => simp [forEach_nil, reaches_pure, AcceptsAll, addAll]
  | cons e es ih =>
      rw [forEach_cons, reaches_seq]
      constructor
      · rintro ⟨t', hfirst, hrest⟩
        obtain ⟨haccepts, rfl⟩ := addEntry_reaches.1 hfirst
        obtain ⟨hall, rfl⟩ := ih.1 hrest
        exact ⟨fun hp => ⟨haccepts hp, hall hp⟩, rfl⟩
      · rintro ⟨hall, rfl⟩
        exact ⟨_, addEntry_reaches.2 ⟨fun hp => (hall hp).1, rfl⟩, ih.2 ⟨fun hp => (hall hp).2, rfl⟩⟩

end Declared

end DdlCatalog
