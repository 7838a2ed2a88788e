import DdlCatalog.Proofs.Table.Built

/-!
Keys whose columns are missing, under the lenient policy. They go from the table once all entries are
added, but until then they count: their names are taken and a primary key takes the place of the one
before. A definition makes the same table without them exactly where no key that stays has lost its
name or its place to one of them.
-/

namespace DdlCatalog

namespace TableEntry

def columnName? : TableEntry → Option String
  | .column d => some d.name
  | _ => none

/-- The columns that an entry names are among these; a column names none. -/
def resolvesIn (names : List String) (e : TableEntry) : Bool := e.keyColumns.all names.contains

end TableEntry

namespace TableDefinition

/-- The columns that the entries define. -/
def columnNames (d : TableDefinition) : List String := d.entries.filterMap TableEntry.columnName?

/-- The definition without the keys that name a column it does not define. -/
def withoutUnresolved (d : TableDefinition) : TableDefinition :=
  { d with entries := d.entries.filter (·.resolvesIn d.columnNames) }

end TableDefinition

def resolves (names : List String) (parts : List KeyPart) : Bool := (parts.map (·.column)).all names.contains

namespace Declared

variable {D E : Declared} {name : String} {names : List String} {e : TableEntry} {es : List TableEntry}

/-! ### What entries offer -/

def append (D E : Declared) : Declared :=
  { columns := D.columns ++ E.columns
    indexes := D.indexes ++ E.indexes
    foreignKeys := D.foreignKeys ++ E.foreignKeys
    primaryKeys := D.primaryKeys ++ E.primaryKeys }

/-- Adds an entry whether its name as a key is taken or not. -/
def offer (D : Declared) (e : TableEntry) : Declared := if D.Repeats e then D else D.append (ofEntry e)

def offerAll (D : Declared) (es : List TableEntry) : Declared := es.foldl offer D

/-- What is left of what is offered: the first of every name. -/
def admitted (D : Declared) : Declared :=
  { D with
    indexes := firsts indexName D.indexes
    foreignKeys := firsts (·.symbol) D.foreignKeys }

theorem repeats_congr (h : D.columns = E.columns) : D.Repeats e ↔ E.Repeats e := by
  cases e with
  | column d => rw [Repeats, Repeats, columnNames, columnNames, h]
  | primaryKey _ | foreignKey _ | index _ _ => exact Iff.rfl

theorem admitted_add : D.admitted.add e = (D.offer e).admitted := by
  have hsame : D.admitted.Repeats e ↔ D.Repeats e := repeats_congr rfl
  by_cases h : D.Repeats e
  · rw [add, if_pos (hsame.2 h), offer, if_pos h]
  · rw [add, if_neg fun h' => h (hsame.1 h'), offer, if_neg h]
    simp only [admitted, append, firsts_append]

/-- Names are taken after all is offered. -/
theorem admitted_addAll : D.admitted.addAll es = (D.offerAll es).admitted := by
  induction es generalizing D with
  | nil => rfl
  | cons e es ih =>
      rw [addAll, List.foldl_cons, admitted_add, offerAll, List.foldl_cons]
      exact ih

theorem mem_offer_columnNames {n : String} :
    n ∈ (D.offer e).columnNames ↔ n ∈ D.columnNames ∨ e.columnName? = some n := by
  cases e with
  | column d =>
      by_cases h : d.name ∈ D.columnNames
      · rw [offer, if_pos (show D.Repeats (.column d) from h)]
        refine (or_iff_left_of_imp fun hn => ?_).symm
        cases hn
        exact h
      · rw [offer, if_neg (show ¬D.Repeats (.column d) from h)]
        have hnames : (D.append (ofEntry (.column d))).columnNames = D.columnNames ++ [d.name] := by
          simp [append, columnNames, ofEntry, Column.bare, Column.ofDefinition]
        rw [hnames, List.mem_append, List.mem_singleton, TableEntry.columnName?, Option.some.injEq, eq_comm (a := n)]
  | primaryKey _ | foreignKey _ | index _ _ =>
      simp [offer, Repeats, append, columnNames, ofEntry, TableEntry.columnName?]

theorem mem_offerAll_columnNames {n : String} :
    n ∈ (D.offerAll es).columnNames ↔ n ∈ D.columnNames ∨ n ∈ es.filterMap TableEntry.columnName? := by
  induction es generalizing D with
  | nil => simp [offerAll]
  | cons e es ih =>
      have hstep : D.offerAll (e :: es) = (D.offer e).offerAll es := rfl
      rw [hstep, ih, mem_offer_columnNames, or_assoc, List.mem_filterMap, List.mem_filterMap]
      simp only [List.mem_cons, or_and_right, exists_or, exists_eq_left]

/-! ### Keys left out -/

/-- What is left without the keys whose columns are not among the names. -/
def keep (names : List String) (D : Declared) : Declared :=
  { D with
    indexes := D.indexes.filter fun i => resolves names i.2.parts
    foreignKeys := D.foreignKeys.filter fun k => resolves names k.parts
    primaryKeys := D.primaryKeys.filter fun key => resolves names key.parts }

theorem keep_append : (D.append E).keep names = (D.keep names).append (E.keep names) := by
  simp [keep, append]

theorem append_nothing : D.append {} = D := by
  simp [append]

/-- The keys of a column name that column alone. -/
theorem keep_ofEntry_column {d : ColumnDefinition} (h : d.name ∈ names) :
    (ofEntry (.column d)).keep names = ofEntry (.column d) := by
  have hd : resolves names [{ column := (Column.ofDefinition d).name }] = true := by
    simpa [resolves, Column.ofDefinition] using h
  have hindexes : ∀ i ∈ (ofEntry (.column d)).indexes, resolves names i.2.parts = true := by
    intro i hi
    obtain ⟨-, hi⟩ := List.mem_ite_nil_right.1 hi
    cases List.mem_singleton.1 hi
    exact hd
  have hforeign : ∀ k ∈ (ofEntry (.column d)).foreignKeys, resolves names k.parts = true := by
    intro k hk
    obtain ⟨r, -, rfl⟩ := Option.map_eq_some_iff.1 (Option.mem_toList.1 hk)
    exact hd
  have hprimary : ∀ key ∈ (ofEntry (.column d)).primaryKeys, resolves names key.parts = true := by
    intro key hkey
    obtain ⟨-, hkey⟩ := List.mem_ite_nil_right.1 hkey
    cases List.mem_singleton.1 hkey
    exact hd
  rw [keep, List.filter_eq_self.2 hindexes, List.filter_eq_self.2 hforeign, List.filter_eq_self.2 hprimary]

/-- A key is kept or left out as a whole. -/
theorem keep_ofEntry (hdefined : ∀ n ∈ e.columnName?, n ∈ names) :
    (ofEntry e).keep names = if e.resolvesIn names then ofEntry e else {} := by
  cases e with
  | column d =>
      have hcolumn : TableEntry.resolvesIn names (.column d) = true := rfl
      rw [if_pos hcolumn]
      exact keep_ofEntry_column (hdefined d.name rfl)
  | primaryKey key =>
      rw [TableEntry.resolvesIn, TableEntry.keyColumns, ← resolves, ofEntry, keep]
      cases hr : resolves names key.parts <;> cases key.isEmpty <;> simp [hr]
  | foreignKey k =>
      rw [TableEntry.resolvesIn, TableEntry.keyColumns, ← ForeignKey.plain_columns, ← resolves, ofEntry, keep]
      cases hr : resolves names k.plain.parts <;> cases k.plain.isEmpty <;> simp [hr]
  | index kind i =>
      rw [TableEntry.resolvesIn, TableEntry.keyColumns, ← resolves, ofEntry, keep]
      cases hr : resolves names i.parts <;> cases i.isEmpty <;> simp [hr]

theorem keep_offer (hdefined : ∀ n ∈ e.columnName?, n ∈ names) :
    (D.offer e).keep names = if e.resolvesIn names then (D.keep names).offer e else D.keep names := by
  have hsame : (D.keep names).Repeats e ↔ D.Repeats e := repeats_congr rfl
  by_cases h : D.Repeats e
  · rw [offer, if_pos h, offer, if_pos (hsame.2 h), ite_self]
  · rw [offer, if_neg h, offer, if_neg fun h' => h (hsame.1 h'), keep_append, keep_ofEntry hdefined]
    split
    · rfl
    · exact append_nothing

/-- Entries left out beforehand are keys left out of what is offered. -/
theorem keep_offerAll (hdefined : es.filterMap TableEntry.columnName? ⊆ names) :
    (D.offerAll es).keep names = (D.keep names).offerAll (es.filter (·.resolvesIn names)) := by
  induction es generalizing D with
  | nil => rfl
  | cons e es ih =>
      have he : ∀ n ∈ e.columnName?, n ∈ names :=
        fun n hn => hdefined (List.mem_filterMap.2 ⟨e, List.mem_cons_self, hn⟩)
      have hes : es.filterMap TableEntry.columnName? ⊆ names :=
        List.Subset.trans ((List.sublist_cons_self e es).filterMap _).subset hdefined
      have hstep : D.offerAll (e :: es) = (D.offer e).offerAll es := rfl
      rw [hstep, ih hes, keep_offer he, List.filter_cons]
      split
      · rfl
      · rfl

/-! ### What resolution leaves -/

theorem resolves_iff_subset {parts : List KeyPart} :
    resolves names parts = true ↔ parts.map (·.column) ⊆ names := by
  rw [resolves, List.all_eq_true, List.subset_def]
  simp

theorem table_isResolved (h : ∀ n, n ∈ D.columnNames ↔ n ∈ names) (name : String) (parts : List KeyPart) :
    (D.table name).isResolved parts = resolves names parts := by
  have hnames (n : String) : n ∈ (D.table name).columnNames ↔ n ∈ names := h n
  rw [Bool.eq_iff_iff, Table.isResolved_iff_subset, resolves_iff_subset, List.subset_def, List.subset_def]
  simp only [hnames]

theorem ofKind_keep (kind : IndexKind) :
    (D.keep names).ofKind kind = (D.ofKind kind).filter fun i => resolves names i.parts := by
  rw [ofKind, keep, ofKind]
  induction D.indexes with
  | nil => rfl
  | cons i is ih =>
      by_cases hk : i.1 = kind <;> cases hr : resolves names i.2.parts <;> simp_all

theorem ofKind_eq_iff_undisplaced :
    (∀ kind, (D.admitted.keep names).ofKind kind = ((D.keep names).admitted.keep names).ofKind kind) ↔
      Undisplaced indexName (fun i => resolves names i.2.parts) D.indexes := by
  constructor
  · intro h
    apply undisplaced_of_names
    intro n hn
    have hkept : n ∈ ((D.keep names).admitted.keep names).indexes.filterMap indexName := by
      rw [admitted, keep, keep, filter_firsts_filter]
      exact hn
    rw [mem_names_iff_ofKind] at hkept
    simp only [← h] at hkept
    exact mem_names_iff_ofKind.2 hkept
  · intro h kind
    rw [ofKind, ofKind]
    simp only [admitted, keep, filter_firsts_filter, undisplaced_iff.1 h]

theorem foreignKeys_eq_iff_undisplaced :
    (D.admitted.keep names).foreignKeys = ((D.keep names).admitted.keep names).foreignKeys ↔
      Undisplaced (·.symbol) (fun k => resolves names k.parts) D.foreignKeys := by
  simp only [admitted, keep, filter_firsts_filter, undisplaced_iff]

theorem primaryKey_eq_iff :
    D.primaryKeys.getLast?.filter (resolves names ·.parts) =
        (D.keep names).primaryKeys.getLast?.filter (resolves names ·.parts) ↔
      ((∃ key ∈ D.primaryKeys, resolves names key.parts = true) →
        ∀ key ∈ D.primaryKeys.getLast?, resolves names key.parts = true) := by
  rw [keep, filter_getLast?_filter]
  exact getLast?_filter_iff

/-- No key whose columns are missing has taken the name of one that stays, or the place of the primary
key. -/
structure NoneDisplaced (names : List String) (D : Declared) : Prop where
  indexes : Undisplaced indexName (fun i => resolves names i.2.parts) D.indexes
  foreignKeys : Undisplaced (·.symbol) (fun k => resolves names k.parts) D.foreignKeys
  primaryKey : (∃ key ∈ D.primaryKeys, resolves names key.parts = true) →
    ∀ key ∈ D.primaryKeys.getLast?, resolves names key.parts = true

end Declared

namespace Table

variable {t t' : Table}

/-! ### Definitions without the keys that go -/

/-- What the entries of a definition offer, before names are taken. -/
def offered (d : TableDefinition) : Declared := Declared.offerAll {} d.entries

theorem declared_eq (d : TableDefinition) : declared d = (offered d).admitted :=
  Declared.admitted_addAll (D := {})

theorem mem_offered_columnNames (d : TableDefinition) (n : String) :
    n ∈ (offered d).columnNames ↔ n ∈ d.columnNames := by
  rw [offered, Declared.mem_offerAll_columnNames]
  exact or_iff_right (List.not_mem_nil)

theorem offered_withoutUnresolved (d : TableDefinition) :
    offered d.withoutUnresolved = (offered d).keep d.columnNames :=
  (Declared.keep_offerAll (D := {}) (List.Subset.refl _)).symm

theorem withoutUnresolved_keys {D : Declared} {names : List String} (h : ∀ n, n ∈ D.columnNames ↔ n ∈ names)
    (name : String) :
    (D.table name).withoutUnresolved.primaryKey = D.primaryKeys.getLast?.filter (resolves names ·.parts) ∧
      (D.table name).withoutUnresolved.foreignKeys = (D.keep names).foreignKeys ∧
      ∀ kind, (D.table name).withoutUnresolved.indexesOf kind = (D.keep names).ofKind kind := by
  have hresolved (parts : List KeyPart) := Declared.table_isResolved h name parts
  refine ⟨?_, ?_, fun kind => ?_⟩
  · simp only [withoutUnresolved, hresolved]
    rfl
  · simp only [withoutUnresolved, hresolved]
    rfl
  · simp only [withoutUnresolved_indexesOf, Declared.table_indexesOf, hresolved, Declared.ofKind_keep]

theorem withOptions_keys (t : Table) (options : List TableOption) :
    (t.withOptions options).name = t.name ∧ (t.withOptions options).primaryKey = t.primaryKey ∧
      (t.withOptions options).foreignKeys = t.foreignKeys ∧
      ∀ kind, (t.withOptions options).indexesOf kind = t.indexesOf kind := by
  rw [withOptions]
  split
  · exact ⟨rfl, rfl, rfl, fun _ => rfl⟩
  · exact ⟨rfl, rfl, rfl, fun kind => by cases kind <;> rfl⟩

/-- What is required of columns and the options leave the keys as they are, so tables can be told apart
afterwards as before. -/
theorem built_eq_iff {options : List TableOption} (hname : t.name = t'.name) (hcolumns : t.columns = t'.columns)
    (hoptions : t.options = t'.options) :
    t.requirePrimary.withOptions options = t'.requirePrimary.withOptions options ↔
      t.primaryKey = t'.primaryKey ∧ t.foreignKeys = t'.foreignKeys ∧ ∀ kind, t.indexesOf kind = t'.indexesOf kind := by
  obtain ⟨-, hprimary, hforeign, hindexes⟩ := withOptions_keys t.requirePrimary options
  obtain ⟨-, hprimary', hforeign', hindexes'⟩ := withOptions_keys t'.requirePrimary options
  constructor
  · intro h
    rw [h] at hprimary hforeign hindexes
    refine ⟨hprimary.symm.trans hprimary', hforeign.symm.trans hforeign', fun kind => ?_⟩
    simpa using (hindexes kind).symm.trans (hindexes' kind)
  · rintro ⟨hp, hf, hi⟩
    rw [ext_kinds hname hcolumns hp hf hi hoptions]

/-- Under the lenient policy a definition makes the same table without its keys that name a column it does
not define exactly if none of them has taken the name or the place of a key that stays. -/
theorem ofDefinition_lenient_withoutUnresolved_iff (d : TableDefinition) :
    (ofDefinition .lenient d).result = .ok () ∧ (ofDefinition .lenient d.withoutUnresolved).result = .ok () ∧
      ((ofDefinition .lenient d).state = (ofDefinition .lenient d.withoutUnresolved).state ↔
        (offered d).NoneDisplaced d.columnNames) := by
  obtain ⟨hok, hstate⟩ := ofDefinition_lenient d
  obtain ⟨hok', hstate'⟩ := ofDefinition_lenient d.withoutUnresolved
  refine ⟨hok, hok', ?_⟩
  generalize hD : offered d = D
  have hnames (n : String) : n ∈ D.columnNames ↔ n ∈ d.columnNames := hD ▸ mem_offered_columnNames d n
  obtain ⟨hprimary, hforeign, hindexes⟩ := withoutUnresolved_keys (D := D.admitted) hnames d.table
  obtain ⟨hprimary', hforeign', hindexes'⟩ :=
    withoutUnresolved_keys (D := (D.keep d.columnNames).admitted) hnames d.table
  have hkeys := @built_eq_iff (D.admitted.table d.table).withoutUnresolved
    ((D.keep d.columnNames).admitted.table d.table).withoutUnresolved d.options rfl rfl rfl
  rw [hprimary, hforeign, hprimary', hforeign', Declared.foreignKeys_eq_iff_undisplaced] at hkeys
  simp only [hindexes, hindexes', Declared.ofKind_eq_iff_undisplaced] at hkeys
  rw [hstate, hstate', declared_eq, declared_eq, offered_withoutUnresolved, hD]
  refine hkeys.trans ⟨fun ⟨hp, hf, hi⟩ => ⟨hi, hf, Declared.primaryKey_eq_iff.1 hp⟩, fun ⟨hi, hf, hp⟩ => ?_⟩
  exact ⟨Declared.primaryKey_eq_iff.2 hp, hf, hi⟩

/-- An index on a column that is missing and a unique key after it have one name. -/
def shadowed : TableDefinition :=
  { table := "t"
    entries := [
      .column { name := "id", type := { name := .int } },
      .index .plain { Index.onColumns ["ghost"] with name := some "k" },
      .index .unique { Index.onColumns ["id"] with name := some "k" }] }

theorem shadowed_lost :
    shadowed.withoutUnresolved.entries = [
      .column { name := "id", type := { name := .int } },
      .index .unique { Index.onColumns ["id"] with name := some "k" }] ∧
    (ofDefinition .lenient shadowed).state.uniqueKeys = [] ∧
    (ofDefinition .lenient shadowed.withoutUnresolved).state.uniqueKeys =
      [{ Index.onColumns ["id"] with name := some "k" }] ∧
    (ofDefinition .lenient shadowed).state ≠ (ofDefinition .lenient shadowed.withoutUnresolved).state := by
  have hentries : shadowed.withoutUnresolved.entries = [
      .column { name := "id", type := { name := .int } },
      .index .unique { Index.onColumns ["id"] with name := some "k" }] := by decide
  have hlost : (ofDefinition .lenient shadowed).state.uniqueKeys = [] := by decide
  have hkept : (ofDefinition .lenient shadowed.withoutUnresolved).state.uniqueKeys =
      [{ Index.onColumns ["id"] with name := some "k" }] := by decide
  refine ⟨hentries, hlost, hkept, fun h => ?_⟩
  rw [h, hkept] at hlost
  cases hlost

end Table

end DdlCatalog
