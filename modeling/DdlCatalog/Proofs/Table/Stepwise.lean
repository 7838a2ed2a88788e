import DdlCatalog.Proofs.Table.Interleaving
import DdlCatalog.Proofs.Table.PrimaryKey

/-!
A definition beside the edits that build its table step by step: first its columns are added, then its
keys, each to columns that are there, then its options. Where no column has constraints of its own and
one primary key is declared at most, the strict policy accepts the one exactly if none of the others is
refused, and the tables are the same.
-/

namespace DdlCatalog

namespace TableEntry

def isPrimaryKey : TableEntry → Bool
  | .primaryKey _ => true
  | _ => false

end TableEntry

/-! ### One primary key -/

namespace Declared

variable {D : Declared} {e : TableEntry} {es : List TableEntry}

theorem add_primaryKeys_length (he : e.isColumn = false) :
    (D.add e).primaryKeys.length ≤ D.primaryKeys.length + ([e].filter (·.isPrimaryKey)).length := by
  cases e with
  | column d => cases he
  | primaryKey key =>
      rw [add_of_not_repeats id]
      cases hkey : key.isEmpty <;> simp [ofEntry, hkey, TableEntry.isPrimaryKey]
  | foreignKey _ | index _ _ =>
      rw [add_of_not_repeats id]
      simp [ofEntry]

/-- Of the primary keys declared and to come there is one at most. -/
def OnePrimaryKey (D : Declared) (es : List TableEntry) : Prop :=
  D.primaryKeys.length + (es.filter (·.isPrimaryKey)).length ≤ 1

theorem OnePrimaryKey.none_before (h : D.OnePrimaryKey (e :: es)) (he : e.isPrimaryKey = true) :
    D.primaryKeys = [] := by
  rw [OnePrimaryKey, List.filter_cons, if_pos he, List.length_cons] at h
  exact List.length_eq_zero_iff.1 (by omega)

theorem OnePrimaryKey.add (h : D.OnePrimaryKey (e :: es)) (he : e.isColumn = false) : (D.add e).OnePrimaryKey es := by
  have hadd := add_primaryKeys_length (D := D) he
  rw [OnePrimaryKey, ← List.singleton_append, List.filter_append, List.length_append] at h
  rw [OnePrimaryKey]
  omega

end Declared

/-! ### Columns alone -/

namespace Declared

variable {D : Declared} {c : TableEntry} {cs : List TableEntry}

/-- Columns of distinct names have been declared and no keys. -/
structure OnlyColumns (D : Declared) : Prop where
  distinct : D.columnNames.Nodup
  indexes_nil : D.indexes = []
  foreignKeys_nil : D.foreignKeys = []
  primaryKeys_nil : D.primaryKeys = []

theorem OnlyColumns.add_plain (h : D.OnlyColumns) (hc : c.isPlainColumn = true) : (D.add c).OnlyColumns := by
  cases c with
  | primaryKey _ | foreignKey _ | index _ _ => cases hc
  | column d =>
      by_cases hd : d.name ∈ D.columnNames
      · rwa [show D.add (.column d) = D from if_pos hd]
      · rw [add_plainColumn (by simpa [TableEntry.isPlainColumn] using hc) hd]
        refine ⟨?_, h.indexes_nil, h.foreignKeys_nil, h.primaryKeys_nil⟩
        rw [columnNames, withColumns, List.map_append]
        refine List.Nodup.append h.distinct (List.nodup_singleton _) ?_
        simpa [Column.ofDefinition, Column.bare, columnNames] using hd

theorem OnlyColumns.addAll_plain (h : D.OnlyColumns) (hcs : ∀ c ∈ cs, c.isPlainColumn = true) :
    (D.addAll cs).OnlyColumns := by
  induction cs generalizing D with
  | nil => exact h
  | cons c cs ih =>
      rw [List.forall_mem_cons] at hcs
      exact ih (h.add_plain hcs.1) hcs.2

end Declared

/-! ### Keys added at once -/

namespace Table

open Edit

variable {D : Declared} {name : String} {e : TableEntry} {es : List TableEntry} {t t' : Table}

/-- Adds an entry with all its checks at once: a key only to columns that are there. -/
def pushEntry : TableEntry → Edit Table Unit
  | .column d => Edits.addColumn (.ofDefinition d) none
  | .primaryKey key => Edits.addPrimaryKey key
  | .foreignKey k => Edits.pushForeignKey k.plain
  | .index kind i => Edits.pushIndex kind i

/-- The columns of a definition in order, then its keys in order, then its options. -/
def stepwise (d : TableDefinition) : Edit Table Unit := do
  Edit.forEach pushEntry (d.entries.filter (·.isColumn))
  Edit.forEach pushEntry (d.entries.filter (!·.isColumn))
  Edits.mergeOptions d.options

theorem supports_iff {parts : List KeyPart} :
    t.Supports parts ↔ parts.isEmpty = false ∧ parts.map (·.column) ⊆ t.columnNames := by
  rw [Supports, List.subset_def]
  simp

theorem requirePrimary_supports {parts : List KeyPart} : t.requirePrimary.Supports parts ↔ t.Supports parts := by
  rw [Supports, Supports, requirePrimary_columnNames]

theorem requirePrimary_mapIndexes (t : Table) (kind : IndexKind) (f : List Index → List Index) :
    t.requirePrimary.mapIndexes kind f = (t.mapIndexes kind f).requirePrimary := by
  cases kind <;> rfl

theorem requirePrimary_of_none (h : t.primaryKey = none) : t.requirePrimary = t := by
  rw [requirePrimary]
  simp only [h]
  rw [← h]

theorem attachPrimaryKey_eq (hd : t.columnNames.Nodup) (key : Index) :
    t.attachPrimaryKey key = ({ t with primaryKey := some key } : Table).requirePrimary := by
  apply ext_kinds
  · rfl
  · exact attachPrimaryKey_columns hd key
  · rfl
  · rfl
  · intro kind
    cases kind <;> rfl
  · rfl

theorem pushPrimaryKey_reaches {key : Index} (hd : D.columnNames.Nodup) (hnone : D.primaryKeys = []) :
    (pushEntry (.primaryKey key)).Reaches (D.table name).requirePrimary t ↔
      D.Accepts (.primaryKey key) ∧ key.parts.map (·.column) ⊆ D.columnNames ∧
        t = ((D.add (.primaryKey key)).table name).requirePrimary := by
  have hk : (D.table name).primaryKey = none := by rw [Declared.table, hnone]; rfl
  rw [pushEntry, Edits.addPrimaryKey_eq, quiet, reaches_step, requirePrimary_of_none hk, addPrimaryKey, hk,
    Option.isSome_none, if_neg Bool.false_ne_true, setPrimaryKey_eq_ok_iff, supports_iff, and_assoc]
  refine and_congr_right fun hempty => and_congr_right fun _ => ?_
  have haccepts : D.Accepts (.primaryKey key) := hempty
  have hattach := attachPrimaryKey_eq (t := D.table name) hd key
  rw [hattach, Declared.add_primaryKey haccepts, hnone]
  rfl

theorem pushForeignKey_reaches {k : ForeignKey} :
    (pushEntry (.foreignKey k)).Reaches (D.table name).requirePrimary t ↔
      D.Accepts (.foreignKey k) ∧ k.parts.map (·.column) ⊆ D.columnNames ∧
        t = ((D.add (.foreignKey k)).table name).requirePrimary := by
  rw [pushEntry, Edits.pushForeignKey_eq, quiet, reaches_step, pushForeignKey_eq_ok_iff, requirePrimary_supports,
    supports_iff, ForeignKey.plain_columns]
  constructor
  · rintro ⟨⟨hempty, hcolumns⟩, hfree, rfl⟩
    have haccepts : D.Accepts (.foreignKey k) := ⟨hempty, hfree⟩
    exact ⟨haccepts, hcolumns, by rw [Declared.add_foreignKey haccepts]; rfl⟩
  · rintro ⟨haccepts, hcolumns, rfl⟩
    exact ⟨⟨haccepts.1, hcolumns⟩, haccepts.2, by rw [Declared.add_foreignKey haccepts]; rfl⟩

theorem pushIndex_reaches {kind : IndexKind} {i : Index} :
    (pushEntry (.index kind i)).Reaches (D.table name).requirePrimary t ↔
      D.Accepts (.index kind i) ∧ i.parts.map (·.column) ⊆ D.columnNames ∧
        t = ((D.add (.index kind i)).table name).requirePrimary := by
  rw [pushEntry, Edits.pushIndex_eq, quiet, reaches_step, pushIndex_eq_ok_iff, requirePrimary_supports,
    supports_iff, requirePrimary_mapIndexes, Declared.table_append_index]
  constructor
  · rintro ⟨⟨hempty, hcolumns⟩, hfree, rfl⟩
    have haccepts : D.Accepts (.index kind i) :=
      ⟨hempty, (D.checkIndexName_table name).1 (checkIndexName_eq_ok_iff.2 hfree)⟩
    exact ⟨haccepts, hcolumns, by rw [Declared.add_index haccepts]⟩
  · rintro ⟨haccepts, hcolumns, rfl⟩
    have hfree := checkIndexName_eq_ok_iff.1 ((D.checkIndexName_table name).2 haccepts.2)
    exact ⟨⟨haccepts.1, hcolumns⟩, hfree, by rw [Declared.add_index haccepts]⟩

/-- The invariant of a run over keys: a key that is pushed is accepted, and it is resolved at once. -/
theorem pushEntry_reaches (he : e.isColumn = false) (hd : D.columnNames.Nodup)
    (hone : e.isPrimaryKey = true → D.primaryKeys = []) :
    (pushEntry e).Reaches (D.table name).requirePrimary t ↔
      D.Accepts e ∧ e.keyColumns ⊆ D.columnNames ∧ t = ((D.add e).table name).requirePrimary := by
  cases e with
  | column d => cases he
  | primaryKey key => exact pushPrimaryKey_reaches hd (hone rfl)
  | foreignKey k => exact pushForeignKey_reaches
  | index kind i => exact pushIndex_reaches

theorem allResolved_table : (D.table name).AllResolved ↔
    (∀ key ∈ D.primaryKeys.getLast?, key.parts.map (·.column) ⊆ D.columnNames) ∧
      (∀ k ∈ D.foreignKeys, k.parts.map (·.column) ⊆ D.columnNames) ∧
        ∀ i ∈ D.indexes, i.2.parts.map (·.column) ⊆ D.columnNames := by
  simp only [AllResolved, isResolved_iff_subset, forall_keyParts, Declared.table_indexesOf, Declared.mem_ofKind]
  exact and_congr_right fun _ => and_congr_right fun _ => ⟨fun h i hi => h i.1 i.2 hi, fun h kind i hi => h _ hi⟩

theorem allResolved_add (he : e.isColumn = false) (hone : e.isPrimaryKey = true → D.primaryKeys = [])
    (h : D.Accepts e) : ((D.add e).table name).AllResolved ↔
      (D.table name).AllResolved ∧ e.keyColumns ⊆ D.columnNames := by
  rw [allResolved_table, allResolved_table, Declared.columnNames, Declared.add_key_columns he, Declared.columnNames]
  cases e with
  | column d => cases he
  | primaryKey key =>
      rw [Declared.add_primaryKey h]
      simp only [hone rfl, List.nil_append, List.getLast?_singleton, List.getLast?_nil, Option.mem_def,
        Option.some.injEq, forall_eq', reduceCtorEq, false_implies, implies_true, true_and]
      exact and_comm
  | foreignKey k =>
      rw [Declared.add_foreignKey h]
      simp only [List.forall_mem_append, List.forall_mem_singleton, ForeignKey.plain_columns]
      rw [TableEntry.keyColumns]
      tauto
  | index kind i =>
      rw [Declared.add_index h]
      simp only [List.forall_mem_append, List.forall_mem_singleton]
      rw [TableEntry.keyColumns]
      tauto

/-- Keys pushed one by one come to the table in which they are declared first and resolved afterwards. -/
theorem pushKeys_reaches (hkeys : ∀ e ∈ es, e.isColumn = false) (hd : D.columnNames.Nodup)
    (hone : D.OnePrimaryKey es) :
    (forEach pushEntry es).Reaches (D.table name).requirePrimary t ∧ (D.table name).AllResolved ↔
      D.AcceptsAll es ∧ ((D.addAll es).table name).AllResolved ∧ t = ((D.addAll es).table name).requirePrimary := by
  induction es generalizing D with
  | nil =>
      rw [forEach_nil, reaches_pure, and_comm]
      simp [Declared.AcceptsAll, Declared.addAll]
  | cons e es ih =>
      rw [List.forall_mem_cons] at hkeys
      have hfirst := hone.none_before
      have hnames : (D.add e).columnNames.Nodup := by
        rwa [Declared.columnNames, Declared.add_key_columns hkeys.1]
      have hpush (t' : Table) : (pushEntry e).Reaches (D.table name).requirePrimary t' ↔ _ :=
        pushEntry_reaches hkeys.1 hd hfirst
      rw [forEach_cons, reaches_seq]
      constructor
      · rintro ⟨⟨t', he, hrest⟩, hall⟩
        obtain ⟨haccepts, hcolumns, rfl⟩ := (hpush t').1 he
        obtain ⟨hacceptsAll, hresolved⟩ :=
          (ih hkeys.2 hnames (hone.add hkeys.1)).1 ⟨hrest, (allResolved_add hkeys.1 hfirst haccepts).2 ⟨hall, hcolumns⟩⟩
        exact ⟨⟨haccepts, hacceptsAll⟩, hresolved⟩
      · rintro ⟨⟨haccepts, hacceptsAll⟩, hresolved⟩
        obtain ⟨hrest, hall⟩ := (ih hkeys.2 hnames (hone.add hkeys.1)).2 ⟨hacceptsAll, hresolved⟩
        obtain ⟨hall, hcolumns⟩ := (allResolved_add hkeys.1 hfirst haccepts).1 hall
        exact ⟨⟨_, (hpush _).2 ⟨haccepts, hcolumns, rfl⟩, hrest⟩, hall⟩

/-! ### Definitions step by step -/

theorem pushColumns_reaches (hcolumns : ∀ e ∈ es, e.isColumn = true) :
    (forEach pushEntry es).Reaches (D.table name) t ↔ D.AcceptsAll es ∧ t = (D.addAll es).table name := by
  have hsame : forEach pushEntry es = forEach (fun e => under .strict (addEntry e)) es := by
    induction es with
    | nil => rfl
    | cons e es ih =>
        rw [List.forall_mem_cons] at hcolumns
        rw [forEach_cons, forEach_cons, ih hcolumns.2]
        cases e with
        | column d => rfl
        | primaryKey _ | foreignKey _ | index _ _ => cases hcolumns.1
  rw [hsame, Declared.addEntries_reaches]
  simp

theorem withOptions_eq (h : t.options = none) (options : List TableOption) :
    t.withOptions options = t.mergeOptions options := by
  rw [withOptions]
  split
  · rename_i hnil
    rw [List.isEmpty_iff.1 hnil, mergeOptions, setOptions, h]
    simp only [Option.getD_none, TableOptions.merge, List.foldl_nil, TableOptions.isEmpty, beq_self_eq_true, if_true]
    rw [← h]
  · rfl

/-- With columns alone there is nothing to resolve before the first key is pushed. -/
theorem pushKeys_onlyColumns_reaches (honly : D.OnlyColumns) (hkeys : ∀ e ∈ es, e.isColumn = false)
    (hone : (es.filter (·.isPrimaryKey)).length ≤ 1) :
    (forEach pushEntry es).Reaches (D.table name) t ↔
      D.AcceptsAll es ∧ ((D.addAll es).table name).AllResolved ∧ t = ((D.addAll es).table name).requirePrimary := by
  have hresolved : (D.table name).AllResolved := by
    rw [allResolved_table, honly.primaryKeys_nil, honly.foreignKeys_nil, honly.indexes_nil]
    simp
  have hrequire : (D.table name).requirePrimary = D.table name :=
    requirePrimary_of_none (by rw [Declared.table, honly.primaryKeys_nil]; rfl)
  have hcount : D.OnePrimaryKey es := by
    rwa [Declared.OnePrimaryKey, honly.primaryKeys_nil, List.length_nil, Nat.zero_add]
  rw [← pushKeys_reaches hkeys honly.distinct hcount, hrequire, and_iff_left hresolved]

theorem stepwise_reaches {d : TableDefinition}
    (hplain : ∀ e ∈ d.entries, e.isColumn = true → e.isPlainColumn = true)
    (hone : (d.entries.filter (·.isPrimaryKey)).length ≤ 1) :
    (stepwise d).Reaches (empty d.table) t ↔ (addDefinition .strict d).Reaches (empty d.table) t := by
  have hcolumns : ∀ e ∈ d.entries.filter (·.isColumn), e.isColumn = true := fun e he => (List.mem_filter.1 he).2
  have hkeys : ∀ e ∈ d.entries.filter (!·.isColumn), e.isColumn = false := by
    intro e he
    simpa using (List.mem_filter.1 he).2
  have hcount : ((d.entries.filter (!·.isColumn)).filter (·.isPrimaryKey)).length ≤ 1 := by
    rw [List.filter_comm]
    exact Nat.le_trans (List.length_filter_le _ _) hone
  generalize hD : ({} : Declared).addAll (d.entries.filter (·.isColumn)) = D
  have honly : D.OnlyColumns := by
    rw [← hD]
    refine Declared.OnlyColumns.addAll_plain ⟨List.nodup_nil, rfl, rfl, rfl⟩ fun e he => ?_
    exact hplain e (List.mem_filter.1 he).1 (hcolumns e he)
  obtain ⟨hadd, haccepts⟩ := Declared.columns_first (D := {}) hplain
  rw [Declared.addAll_append, hD] at hadd
  rw [Declared.acceptsAll_append, hD] at haccepts
  have hempty : empty d.table = ({} : Declared).table d.table := rfl
  rw [addDefinition_reaches, declared, hadd, haccepts, stepwise, hempty]
  simp only [reaches_seq, pushColumns_reaches hcolumns, hD, and_assoc, exists_and_left, exists_eq_left,
    pushKeys_onlyColumns_reaches honly hkeys hcount, Edits.mergeOptions, reaches_modify, true_implies]
  refine and_congr_right fun _ => and_congr_right fun _ => and_congr_right fun hall => ?_
  rw [hall.withoutUnresolved_eq, withOptions_eq rfl]

/-- Where no column has constraints of its own and there is one primary key at most: a definition in
whatever order makes a table under the strict policy exactly if its columns, then its keys and then its
options can be added to an empty table, and the tables are the same. -/
theorem ofDefinition_strict_stepwise {d : TableDefinition}
    (hplain : ∀ c, .column c ∈ d.entries → (Column.ofDefinition c).hasInline = false)
    (hone : (d.entries.filter (·.isPrimaryKey)).length ≤ 1) :
    ((ofDefinition .strict d).result = .ok () ↔ ((stepwise d).run (empty d.table)).result = .ok ()) ∧
      ((ofDefinition .strict d).result = .ok () →
        (ofDefinition .strict d).state = ((stepwise d).run (empty d.table)).state) := by
  have hcolumns : ∀ e ∈ d.entries, e.isColumn = true → e.isPlainColumn = true := by
    intro e he hcolumn
    cases e with
    | column c => simpa [TableEntry.isPlainColumn] using hplain c he
    | primaryKey _ | foreignKey _ | index _ _ => cases hcolumn
  have hreaches (t : Table) := stepwise_reaches (t := t) hcolumns hone
  refine ⟨⟨fun h => ?_, fun h => ?_⟩, fun h => ?_⟩
  · exact ((hreaches _).2 ⟨h, rfl⟩).1
  · exact ((hreaches _).1 ⟨h, rfl⟩).1
  · exact ((hreaches _).2 ⟨h, rfl⟩).2.symm

/-- Every key stands before a column that it names. -/
def keysAhead : TableDefinition :=
  { table := "t"
    entries := [
      .primaryKey (.onColumns ["a", "b"]),
      .column { name := "a", type := { name := .int } },
      .index .unique { Index.onColumns ["b", "a"] with name := some "u" },
      .foreignKey (.onColumns ["b"] (.toColumns "t" ["a"])),
      .column { name := "b", type := { name := .int } }]
    options := [.engine "memory"] }

theorem keysAhead_stepwise :
    (∀ c, .column c ∈ keysAhead.entries → (Column.ofDefinition c).hasInline = false) ∧
    (keysAhead.entries.filter (·.isPrimaryKey)).length ≤ 1 ∧
    (ofDefinition .strict keysAhead).result = .ok () ∧
    ((stepwise keysAhead).run (empty "t")).result = .ok () ∧
    (ofDefinition .strict keysAhead).state = ((stepwise keysAhead).run (empty "t")).state := by
  have hplain : ∀ c, .column c ∈ keysAhead.entries → (Column.ofDefinition c).hasInline = false := by
    intro c hc
    simp only [keysAhead, List.mem_cons, TableEntry.column.injEq, reduceCtorEq, List.not_mem_nil, false_or,
      or_false] at hc
    rcases hc with rfl | rfl <;> rfl
  have hone : (keysAhead.entries.filter (·.isPrimaryKey)).length ≤ 1 := by decide
  have hbuilt : (ofDefinition .strict keysAhead).result = .ok () := by rfl
  obtain ⟨hiff, hstate⟩ := ofDefinition_strict_stepwise hplain hone
  exact ⟨hplain, hone, hbuilt, hiff.1 hbuilt, hstate hbuilt⟩

end Table

end DdlCatalog
