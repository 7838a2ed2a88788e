import DdlCatalog.Proofs.Table.Declared
import DdlCatalog.Proofs.Table.Policies

/-!
The table of a definition in closed form: what its entries declare, without the keys whose columns are
missing, the columns of the primary key not nullable, with the options of the definition.
-/

namespace DdlCatalog

/-- The columns that an entry names as those of a key. -/
def TableEntry.keyColumns : TableEntry → List String
  | .column _ => []
  | .primaryKey key => key.parts.map (·.column)
  | .foreignKey k => k.parts.map (·.column)
  | .index _ i => i.parts.map (·.column)

@[simp]
theorem ForeignKey.plain_columns (k : ForeignKey) : k.plain.parts.map (·.column) = k.parts.map (·.column) := by
  simp [ForeignKey.plain, KeyPart.plain]

namespace Table

open Edit

variable {t t' : Table} {policy : Policy}

/-! ### Resolution -/

/-- No key is there without its columns. -/
def AllResolved (t : Table) : Prop := ∀ parts ∈ t.keyParts, t.isResolved parts = true

/-- The table without the keys whose columns are missing. -/
def withoutUnresolved (t : Table) : Table :=
  { t with
    primaryKey := t.primaryKey.filter (t.isResolved ·.parts)
    foreignKeys := t.foreignKeys.filter (t.isResolved ·.parts)
    uniqueKeys := t.uniqueKeys.filter (t.isResolved ·.parts)
    indexes := t.indexes.filter (t.isResolved ·.parts)
    spatialIndexes := t.spatialIndexes.filter (t.isResolved ·.parts)
    fulltextIndexes := t.fulltextIndexes.filter (t.isResolved ·.parts) }

/-- The table with the columns of its primary key not nullable. -/
def requirePrimary (t : Table) : Table :=
  { t with
    columns :=
      match t.primaryKey with
      | none => t.columns
      | some key => requireColumns key t.columns }

@[simp]
theorem withoutUnresolved_indexesOf (t : Table) (kind : IndexKind) :
    t.withoutUnresolved.indexesOf kind = (t.indexesOf kind).filter (t.isResolved ·.parts) := by
  cases kind <;> rfl

@[simp]
theorem requirePrimary_indexesOf (t : Table) (kind : IndexKind) :
    t.requirePrimary.indexesOf kind = t.indexesOf kind := by
  cases kind <;> rfl

theorem requirePrimary_columnNames (t : Table) : t.requirePrimary.columnNames = t.columnNames := by
  rw [columnNames, requirePrimary]
  cases t.primaryKey with
  | none => rfl
  | some key => exact map_requireColumns (·.name) (fun _ => rfl) key t.columns

theorem isResolved_iff_subset {parts : List KeyPart} :
    t.isResolved parts = true ↔ parts.map (·.column) ⊆ t.columnNames := by
  rw [isResolved_iff, List.subset_def]
  simp

theorem missingColumn?_eq_none_iff {parts : List KeyPart} :
    t.missingColumn? parts = none ↔ t.isResolved parts = true := by
  rw [isResolved, Option.isNone_iff_eq_none]

theorem refuseUnresolved_reaches {keys : Table → List (List KeyPart)} :
    (refuseUnresolved policy keys).Reaches t t' ↔
      (policy = .strict → ∀ parts ∈ keys t, t.isResolved parts = true) ∧ t' = t := by
  have hstate : ((refuseUnresolved policy keys).run t).state = t := refuseUnresolved_keeps (· = t) policy keys t rfl
  rw [Reaches, hstate, eq_comm (b := t'), run_refuseUnresolved]
  refine and_congr_left fun _ => ?_
  cases policy with
  | lenient =>
      simp only [reduceCtorEq, false_implies, iff_true]
      exact forEach_ok (fun _ _ => rfl) _ _
  | strict =>
      simp only [true_implies, ← missingColumn?_eq_none_iff, ← List.filterMap_eq_nil_iff]
      cases (keys t).filterMap t.missingColumn? with
      | nil => simp [forEach_nil]
      | cons c cs => simp [forEach_cons, run_bind]

theorem resolveIndexes_reaches {kind : IndexKind} : (resolveIndexes policy kind).Reaches t t' ↔
    (policy = .strict → ∀ i ∈ t.indexesOf kind, t.isResolved i.parts = true) ∧
      t' = t.mapIndexes kind (·.filter (t.isResolved ·.parts)) := by
  simp [resolveIndexes, reaches_seq, refuseUnresolved_reaches, reaches_modify, and_assoc]

theorem resolveForeignKeys_reaches : (resolveForeignKeys policy).Reaches t t' ↔
    (policy = .strict → ∀ k ∈ t.foreignKeys, t.isResolved k.parts = true) ∧
      t' = { t with foreignKeys := t.foreignKeys.filter (t.isResolved ·.parts) } := by
  simp [resolveForeignKeys, reaches_seq, refuseUnresolved_reaches, reaches_modify, and_assoc]

theorem resolvePrimaryKey_reaches : (resolvePrimaryKey policy).Reaches t t' ↔
    (policy = .strict → ∀ key ∈ t.primaryKey, t.isResolved key.parts = true) ∧
      t' = ({ t with primaryKey := t.primaryKey.filter (t.isResolved ·.parts) } : Table).requirePrimary := by
  rw [resolvePrimaryKey, reaches_seq]
  simp only [refuseUnresolved_reaches, reaches_modify, List.forall_mem_map, Option.mem_toList, and_assoc,
    exists_and_left, exists_eq_left]
  refine and_congr_right fun _ => ?_
  cases hk : t.primaryKey with
  | none =>
      have hsame : t = { t with primaryKey := none } := by rw [← hk]
      rw [Option.filter_none, ← hsame, requirePrimary]
      simp only [hk, ← hsame]
  | some key =>
      have hsame : t = { t with primaryKey := some key } := by rw [← hk]
      cases hr : t.isResolved key.parts with
      | true =>
          rw [Option.filter_some, if_pos hr, ← hsame, requirePrimary]
          simp only [hr, if_true, hk]
      | false => simp [Option.filter_some, hr, withoutPrimaryKey, requirePrimary]

theorem forall_keyParts {P : List KeyPart → Prop} : (∀ parts ∈ t.keyParts, P parts) ↔
    (∀ key ∈ t.primaryKey, P key.parts) ∧ (∀ k ∈ t.foreignKeys, P k.parts) ∧
      ∀ kind, ∀ i ∈ t.indexesOf kind, P i.parts := by
  simp only [mem_keyParts, or_imp, forall_and, forall_exists_index, and_imp, Option.mem_def]
  refine and_congr ⟨fun h key hk => h _ key hk rfl, fun h _ key hk hp => hp ▸ h key hk⟩ <|
    and_congr ⟨fun h k hk => h _ k hk rfl, fun h _ k hk hp => hp ▸ h k hk⟩
      ⟨fun h kind i hi => h _ kind i hi rfl, fun h _ kind i hi hp => hp ▸ h kind i hi⟩

theorem resolve_reaches : (resolve policy).Reaches t t' ↔
    (policy = .strict → t.AllResolved) ∧ t' = t.withoutUnresolved.requirePrimary := by
  -- Whether a key is resolved does not depend on the collections that are resolved before.
  have hchain : (resolve policy).Reaches t t' ↔
      (policy = .strict → ∀ i ∈ t.fulltextIndexes, t.isResolved i.parts = true) ∧
      (policy = .strict → ∀ i ∈ t.spatialIndexes, t.isResolved i.parts = true) ∧
      (policy = .strict → ∀ i ∈ t.indexes, t.isResolved i.parts = true) ∧
      (policy = .strict → ∀ i ∈ t.uniqueKeys, t.isResolved i.parts = true) ∧
      (policy = .strict → ∀ k ∈ t.foreignKeys, t.isResolved k.parts = true) ∧
      (policy = .strict → ∀ key ∈ t.primaryKey, t.isResolved key.parts = true) ∧
      t' = t.withoutUnresolved.requirePrimary := by
    simp only [resolve, reaches_seq, resolveIndexes_reaches, resolveForeignKeys_reaches, resolvePrimaryKey_reaches,
      and_assoc, exists_and_left, exists_eq_left]
    exact Iff.rfl
  rw [hchain, AllResolved, forall_keyParts]
  cases policy with
  | lenient => simp
  | strict =>
      simp only [true_implies]
      constructor
      · rintro ⟨hfulltext, hspatial, hplain, hunique, hforeign, hprimary, ht⟩
        refine ⟨⟨hprimary, hforeign, fun kind => ?_⟩, ht⟩
        cases kind with
        | plain => exact hplain
        | unique => exact hunique
        | fulltext => exact hfulltext
        | spatial => exact hspatial
      · rintro ⟨⟨hprimary, hforeign, hkinds⟩, ht⟩
        exact ⟨hkinds .fulltext, hkinds .spatial, hkinds .plain, hkinds .unique, hforeign, hprimary, ht⟩

/-- Where all keys have their columns nothing is left out. -/
theorem AllResolved.withoutUnresolved_eq (h : t.AllResolved) : t.withoutUnresolved = t := by
  obtain ⟨hprimary, hforeign, hkinds⟩ := forall_keyParts.1 h
  apply ext_kinds
  · rfl
  · rfl
  · rw [withoutUnresolved]
    cases hk : t.primaryKey with
    | none => rfl
    | some key => rw [Option.filter_some, if_pos (hprimary key hk)]
  · exact List.filter_eq_self.2 hforeign
  · intro kind
    rw [withoutUnresolved_indexesOf]
    exact List.filter_eq_self.2 (hkinds kind)
  · rfl

/-! ### Definitions -/

/-- The table with the options of its definition. -/
def withOptions (t : Table) (options : List TableOption) : Table :=
  if options.isEmpty then t else t.mergeOptions options

/-- What the entries of a definition declare. -/
def declared (d : TableDefinition) : Declared := Declared.addAll {} d.entries

/-- The one closed form of a definition: the policies differ in whether a refused entry or a key without
its columns ends the run. -/
theorem addDefinition_reaches {d : TableDefinition} : (addDefinition policy d).Reaches (empty d.table) t ↔
    (policy = .strict → Declared.AcceptsAll {} d.entries ∧ ((declared d).table d.table).AllResolved) ∧
      t = ((declared d).table d.table).withoutUnresolved.requirePrimary.withOptions d.options := by
  have hempty : empty d.table = ({} : Declared).table d.table := rfl
  rw [addDefinition, hempty]
  simp only [reaches_seq, Declared.addEntries_reaches, resolve_reaches, reaches_modify, and_assoc, exists_and_left,
    exists_eq_left]
  rw [← and_assoc, ← imp_and]
  exact Iff.rfl

/-- The lenient policy makes a table of every definition. -/
theorem ofDefinition_lenient (d : TableDefinition) :
    (ofDefinition .lenient d).result = .ok () ∧ (ofDefinition .lenient d).state =
      ((declared d).table d.table).withoutUnresolved.requirePrimary.withOptions d.options :=
  addDefinition_reaches.2 ⟨by simp, rfl⟩

end Table

end DdlCatalog
