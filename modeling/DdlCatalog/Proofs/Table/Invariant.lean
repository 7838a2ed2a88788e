import DdlCatalog.Proofs.Table.Columns
import Mathlib.Data.List.Nodup
import Mathlib.Data.List.Perm.Basic

/-!
What holds of every table between edits: its columns, indexes and foreign keys are told apart by
their names, its keys have columns that are all there, and no column waits for a constraint of its
own to be taken over.
-/

namespace DdlCatalog.Table

variable {t t' : Table} {name : String}

def columnNames (t : Table) : List String := t.columns.map (·.name)

def symbols (t : Table) : List String := t.foreignKeys.filterMap (·.symbol)

/-- What holds also while the entries of a definition are added, whose keys may stand before their
columns. -/
structure Coherent (t : Table) : Prop where
  columns_distinct : t.columnNames.Nodup
  keys_nonempty : ∀ parts ∈ t.keyParts, parts ≠ []
  indexes_distinct : t.indexNames.Nodup
  symbols_distinct : t.symbols.Nodup
  nothing_pending : ∀ c ∈ t.columns, c.inline = {}

/-- The invariant of tables. -/
structure WellFormed (t : Table) : Prop extends Coherent t where
  keys_resolved : ∀ parts ∈ t.keyParts, ∀ p ∈ parts, p.column ∈ t.columnNames

theorem wellFormed_iff (t : Table) : t.WellFormed ↔
    t.columnNames.Nodup ∧ (∀ parts ∈ t.keyParts, parts ≠ []) ∧ t.indexNames.Nodup ∧
      t.symbols.Nodup ∧ (∀ c ∈ t.columns, c.inline = {}) ∧
      ∀ parts ∈ t.keyParts, ∀ p ∈ parts, p.column ∈ t.columnNames :=
  ⟨fun ⟨⟨hc, hn, hi, hs, hp⟩, hr⟩ => ⟨hc, hn, hi, hs, hp, hr⟩,
    fun ⟨hc, hn, hi, hs, hp, hr⟩ => ⟨⟨hc, hn, hi, hs, hp⟩, hr⟩⟩

/-- The invariant of a table of a given name. -/
def WellFormedAs (name : String) (t : Table) : Prop := t.WellFormed ∧ t.name = name

instance (t : Table) : Decidable t.WellFormed := decidable_of_iff _ (wellFormed_iff t).symm

theorem empty_wellFormed (name : String) : (empty name).WellFormed := by
  rw [wellFormed_iff]
  simp [empty, columnNames, keyParts, indexNames, symbols, lookupOrder, indexesOf]

/-! ### Views of a table -/

theorem hasColumn_iff_mem : t.hasColumn name = true ↔ name ∈ t.columnNames := by
  simp [hasColumn, columnNames]

theorem hasColumn_eq_false_iff : t.hasColumn name = false ↔ name ∉ t.columnNames := by
  rw [← hasColumn_iff_mem, Bool.not_eq_true]

/-- Names are told apart, so a column is the first of its name. -/
theorem WellFormed.columnSplit {c : Column} (h : t.WellFormed) (hc : c ∈ t.columns) :
    ∃ pre post, ColumnSplit c.name t.columns pre c post := by
  have hnamed : ∃ d ∈ t.columns, d.name = c.name := ⟨c, hc, rfl⟩
  obtain ⟨pre, d, post, hs⟩ := exists_split hnamed
  obtain rfl : c = d := List.inj_on_of_nodup_map h.columns_distinct hc hs.mem hs.key_eq.symm
  exact ⟨pre, post, hs⟩

theorem mem_keyParts {parts : List KeyPart} : parts ∈ t.keyParts ↔
    (∃ key, t.primaryKey = some key ∧ key.parts = parts) ∨ (∃ k ∈ t.foreignKeys, k.parts = parts) ∨
      ∃ kind, ∃ i ∈ t.indexesOf kind, i.parts = parts := by
  have hkind : (∃ i, (∃ kind ∈ lookupOrder, i ∈ t.indexesOf kind) ∧ i.parts = parts) ↔
      ∃ kind, ∃ i ∈ t.indexesOf kind, i.parts = parts := by
    constructor
    · rintro ⟨i, ⟨kind, -, hi⟩, hp⟩
      exact ⟨kind, i, hi, hp⟩
    · rintro ⟨kind, i, hi, hp⟩
      exact ⟨i, ⟨kind, by cases kind <;> simp [lookupOrder], hi⟩, hp⟩
  simp only [keyParts, List.mem_append, List.mem_map, List.mem_flatMap, Option.mem_toList, hkind,
    or_assoc]

theorem primaryKey_mem_keyParts {key : Index} (h : t.primaryKey = some key) : key.parts ∈ t.keyParts :=
  mem_keyParts.2 (.inl ⟨key, h, rfl⟩)

theorem foreignKey_mem_keyParts {k : ForeignKey} (h : k ∈ t.foreignKeys) : k.parts ∈ t.keyParts :=
  mem_keyParts.2 (.inr (.inl ⟨k, h, rfl⟩))

theorem index_mem_keyParts {kind : IndexKind} {i : Index} (h : i ∈ t.indexesOf kind) : i.parts ∈ t.keyParts :=
  mem_keyParts.2 (.inr (.inr ⟨kind, i, h, rfl⟩))

/-- Tables are the same that agree in all they hold. -/
theorem ext_kinds {t t' : Table} (hname : t.name = t'.name) (hcolumns : t.columns = t'.columns)
    (hprimary : t.primaryKey = t'.primaryKey) (hforeign : t.foreignKeys = t'.foreignKeys)
    (hindexes : ∀ kind, t.indexesOf kind = t'.indexesOf kind) (hoptions : t.options = t'.options) : t = t' := by
  obtain ⟨name, columns, primaryKey, foreignKeys, uniqueKeys, indexes, spatialIndexes, fulltextIndexes, options⟩ := t
  obtain ⟨name', columns', primaryKey', foreignKeys', uniqueKeys', indexes', spatialIndexes', fulltextIndexes',
    options'⟩ := t'
  have hunique := hindexes .unique
  have hplain := hindexes .plain
  have hspatial := hindexes .spatial
  have hfulltext := hindexes .fulltext
  simp only [indexesOf] at hunique hplain hspatial hfulltext
  simp_all

theorem indexesOf_mapIndexes (t : Table) (kind kind' : IndexKind) (f : List Index → List Index) :
    (t.mapIndexes kind f).indexesOf kind' =
      if kind' = kind then f (t.indexesOf kind) else t.indexesOf kind' := by
  cases kind <;> cases kind' <;> rfl

@[simp]
theorem mapIndexes_columns (t : Table) (kind : IndexKind) (f : List Index → List Index) :
    (t.mapIndexes kind f).columns = t.columns := by
  cases kind <;> rfl

@[simp]
theorem mapIndexes_name (t : Table) (kind : IndexKind) (f : List Index → List Index) :
    (t.mapIndexes kind f).name = t.name := by
  cases kind <;> rfl

@[simp]
theorem mapIndexes_primaryKey (t : Table) (kind : IndexKind) (f : List Index → List Index) :
    (t.mapIndexes kind f).primaryKey = t.primaryKey := by
  cases kind <;> rfl

@[simp]
theorem mapIndexes_foreignKeys (t : Table) (kind : IndexKind) (f : List Index → List Index) :
    (t.mapIndexes kind f).foreignKeys = t.foreignKeys := by
  cases kind <;> rfl

theorem mem_keyParts_mapIndexes {kind : IndexKind} {f : List Index → List Index} {parts : List KeyPart}
    (h : parts ∈ (t.mapIndexes kind f).keyParts) :
    parts ∈ t.keyParts ∨ ∃ i ∈ f (t.indexesOf kind), i.parts = parts := by
  rw [mem_keyParts] at h ⊢
  rcases h with h | h | ⟨kind', i, hi, hp⟩
  · exact .inl (.inl (by simpa using h))
  · exact .inl (.inr (.inl (by simpa using h)))
  · rw [indexesOf_mapIndexes] at hi
    split at hi
    · exact .inr ⟨i, hi, hp⟩
    · exact .inl (.inr (.inr ⟨kind', i, hi, hp⟩))

theorem indexNames_eq (t : Table) : t.indexNames =
    (t.uniqueKeys ++ t.indexes ++ t.fulltextIndexes ++ t.spatialIndexes).filterMap (·.name) := by
  simp [indexNames, lookupOrder, indexesOf]

/-- Up to their order, the index names of a table are those of one collection and those of the
others, which a change of the one leaves alone. -/
theorem indexNames_mapIndexes (t : Table) (kind : IndexKind) :
    ∃ others : List String, ∀ f : List Index → List Index,
      (t.mapIndexes kind f).indexNames.Perm ((f (t.indexesOf kind)).filterMap (·.name) ++ others) := by
  refine ⟨((lookupOrder.filter (· ≠ kind)).flatMap t.indexesOf).filterMap (·.name), fun f => ?_⟩
  -- The collection may be any of the four, so each name is counted.
  apply List.perm_iff_count.2
  intro n
  cases kind <;>
    simp only [indexNames_eq, mapIndexes, lookupOrder, List.filterMap_append, List.count_append] <;>
    simp [indexesOf, List.count_append] <;>
    omega

theorem indexNames_perm (t : Table) (kind : IndexKind) :
    ∃ others : List String, t.indexNames.Perm ((t.indexesOf kind).filterMap (·.name) ++ others) ∧
      ∀ f : List Index → List Index,
        (t.mapIndexes kind f).indexNames.Perm ((f (t.indexesOf kind)).filterMap (·.name) ++ others) := by
  obtain ⟨others, h⟩ := indexNames_mapIndexes t kind
  have hid : t.mapIndexes kind id = t := by cases kind <;> rfl
  exact ⟨others, by simpa [hid] using h id, h⟩

theorem indexNames_sublist
    (h : ∀ kind, ((t'.indexesOf kind).filterMap (·.name)).Sublist ((t.indexesOf kind).filterMap (·.name))) :
    t'.indexNames.Sublist t.indexNames := by
  simp only [indexNames, lookupOrder, List.flatMap_cons, List.flatMap_nil, List.filterMap_append]
  exact (h .unique).append ((h .plain).append ((h .fulltext).append ((h .spatial).append (List.Sublist.refl _))))

theorem index?_some {kind : IndexKind} {i : Index} (h : t.index? name = some (kind, i)) :
    (t.indexesOf kind).find? (·.name == some name) = some i := by
  obtain ⟨k, hk, hf⟩ := List.exists_of_findSome?_eq_some h
  obtain ⟨j, hj, he⟩ := Option.map_eq_some_iff.1 hf
  obtain ⟨rfl, rfl⟩ := Prod.mk.inj he
  exact hj

theorem index?_isSome_iff : (t.index? name).isSome = true ↔ name ∈ t.indexNames := by
  simp only [index?, indexNames, List.findSome?_isSome_iff, Option.isSome_map, List.find?_isSome,
    List.mem_filterMap, List.mem_flatMap, beq_iff_eq]
  constructor
  · rintro ⟨kind, hk, i, hi, hn⟩
    exact ⟨i, ⟨kind, hk, hi⟩, hn⟩
  · rintro ⟨i, ⟨kind, hk, hi⟩, hn⟩
    exact ⟨kind, hk, i, hi, hn⟩

theorem foreignKey?_isSome_iff {symbol : String} :
    (t.foreignKey? symbol).isSome = true ↔ symbol ∈ t.symbols := by
  simp [foreignKey?, symbols]

end DdlCatalog.Table
