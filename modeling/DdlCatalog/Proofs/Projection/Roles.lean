import DdlCatalog.Projection.DocumentSchema
import DdlCatalog.Proofs.Projection.Members
import DdlCatalog.Proofs.Table.Cascade
import DdlCatalog.Proofs.Table.PrimaryKey

/-!
The part of a column in the keys of its table, as the field of the column shows it. There is one field for each
column, in their order. Every column of the primary key is marked as unique, also one that is unique only together
with others.
-/

namespace DdlCatalog

/-- The column is the only one that the key names, and is named once. -/
def Index.IsOn (i : Index) (name : String) : Prop := i.parts.map (·.column) = [name]

instance (i : Index) (name : String) : Decidable (i.IsOn name) := inferInstanceAs (Decidable (_ = _))

namespace Table

/-- A unique key on this column and no other. -/
def UniqueAlone (t : Table) (name : String) : Prop := ∃ key ∈ t.uniqueKeys, key.IsOn name

instance (t : Table) (name : String) : Decidable (t.UniqueAlone name) :=
  inferInstanceAs (Decidable (∃ key ∈ t.uniqueKeys, _))

/-- The column by itself is a key: the primary key or a unique one. -/
def KeyAlone (t : Table) (name : String) : Prop := (∃ key ∈ t.primaryKey, key.IsOn name) ∨ t.UniqueAlone name

/-- The columns that plain indexes name. -/
def indexedColumns (t : Table) : List String := t.indexes.flatMap fun i => i.parts.map (·.column)

end Table

namespace Projection

open Table

variable {α : Type} {t : Table} {name : String}

/-- The reference that a pair of a foreign key makes. -/
def FieldReference.ofPair (k : ForeignKey) (pair : KeyPart × KeyPart) : FieldReference :=
  ⟨k.reference.table, pair.1.column, pair.2.column⟩

/-- Some foreign key pairs the column with one that it refers to. -/
def Paired (t : Table) (name : String) : Prop := ∃ k ∈ t.foreignKeys, ∃ pair ∈ k.pairs, pair.1.column = name

/-- The last pair that a column is in: there is none after it in its key, and no later key pairs the column. -/
def LastPair (t : Table) (name : String) (r : FieldReference) : Prop :=
  ∃ before k after, t.foreignKeys = before ++ k :: after ∧
    (∃ front pair back, k.pairs = front ++ pair :: back ∧ pair.1.column = name ∧ r = .ofPair k pair ∧
      ∀ later ∈ back, later.1.column ≠ name) ∧
    ∀ later ∈ after, ∀ pair ∈ later.pairs, pair.1.column ≠ name

/-- The reference of a column, if the pair is one of this column. -/
def referenceOf? (name : String) (k : ForeignKey) (pair : KeyPart × KeyPart) : Option FieldReference :=
  if pair.1.column = name then some (.ofPair k pair) else none

/-- The references of a column in the order of the keys and of the pairs in each. -/
def referencesOf (name : String) (keys : List ForeignKey) : List FieldReference :=
  keys.flatMap fun k => k.pairs.filterMap (referenceOf? name k)

theorem findSome?_reverse_eq_some_iff {β : Type} {f : α → Option β} {xs : List α} {y : β} :
    xs.reverse.findSome? f = some y ↔
      ∃ before x after, xs = before ++ x :: after ∧ f x = some y ∧ ∀ z ∈ after, f z = none := by
  rw [List.findSome?_eq_some_iff]
  constructor
  · rintro ⟨after, x, before, hxs, hx, hafter⟩
    refine ⟨before.reverse, x, after.reverse, ?_, hx, fun z hz => hafter z (List.mem_reverse.1 hz)⟩
    rw [← List.reverse_reverse xs, hxs]
    simp
  · rintro ⟨before, x, after, rfl, hx, hafter⟩
    exact ⟨after.reverse, x, before.reverse, by simp, hx, fun z hz => hafter z (List.mem_reverse.1 hz)⟩

theorem getLast?_referencesOf_eq_some_iff {r : FieldReference} :
    (referencesOf name t.foreignKeys).getLast? = some r ↔ LastPair t name r := by
  rw [referencesOf, List.getLast?_flatMap, findSome?_reverse_eq_some_iff, LastPair]
  simp only [List.getLast?_filterMap, findSome?_reverse_eq_some_iff, List.findSome?_eq_none_iff, List.mem_reverse,
    referenceOf?, Option.ite_none_right_eq_some, Option.some.injEq, ite_eq_right_iff, reduceCtorEq, imp_false, and_assoc,
    eq_comm (a := r)]

theorem referencesOf_eq_nil_iff : referencesOf name t.foreignKeys = [] ↔ ¬ Paired t name := by
  simp [referencesOf, referenceOf?, Paired]

/-! ### The passes -/

theorem eachBy_markParts {f : DocumentField → DocumentField} (h : ∀ v, f (f v) = f v) (parts : List KeyPart) :
    EachBy (markParts f parts) fun n v => if ∃ p ∈ parts, p.column = n then f v else v :=
  (eachBy_foldl (fun p : KeyPart => eachBy_update p.column f) parts).congr fun _ v => foldl_mark h _ parts v

theorem eachBy_markUniqueKey (key : Index) :
    EachBy (markUniqueKey · key) fun n v => if key.IsOn n then v.markUnique else v := by
  have hnone (h : ∀ p, key.parts ≠ [p]) (n : String) : ¬ key.IsOn n := fun hon => by
    obtain ⟨p, hp, -⟩ := List.map_eq_singleton_iff.1 hon
    exact h p hp
  intro ms hd
  dsimp only
  rw [markUniqueKey]
  split
  · rename_i p hp
    rw [eachBy_update p.column _ ms hd]
    simp [Index.IsOn, hp]
  · rename_i hparts
    simp [hnone hparts]

theorem eachBy_markUniqueKeys (keys : List Index) :
    EachBy (keys.foldl markUniqueKey) fun n v => if ∃ key ∈ keys, key.IsOn n then v.markUnique else v :=
  (eachBy_foldl eachBy_markUniqueKey keys).congr fun _ v =>
    foldl_mark (f := DocumentField.markUnique) (fun _ => rfl) _ keys v

def referTo (f : DocumentField) (r : FieldReference) : DocumentField := f.refer r.table r.localField r.foreignField

/-- A pair changes the field of its column. -/
theorem foldl_referTo_filterMap (k : ForeignKey) (pairs : List (KeyPart × KeyPart)) (v : DocumentField) :
    (pairs.filterMap (referenceOf? name k)).foldl referTo v =
      pairs.foldl (fun v pair =>
        if pair.1.column = name then v.refer k.reference.table pair.1.column pair.2.column else v) v := by
  rw [List.foldl_filterMap]
  refine List.foldl_ext _ _ v fun v pair _ => ?_
  by_cases hname : pair.1.column = name
  · rw [referenceOf?, if_pos hname, if_pos hname]
    rfl
  · rw [referenceOf?, if_neg hname, if_neg hname]

theorem eachBy_markForeignKeys (keys : List ForeignKey) :
    EachBy (keys.foldl markForeignKey) fun n v => (referencesOf n keys).foldl referTo v := by
  have hkey (k : ForeignKey) := eachBy_foldl
    (fun pair : KeyPart × KeyPart =>
      eachBy_update pair.1.column (DocumentField.refer k.reference.table pair.1.column pair.2.column)) k.pairs
  refine (eachBy_foldl hkey keys).congr fun n v => ?_
  rw [referencesOf, List.foldl_flatMap]
  exact List.foldl_ext _ _ v fun v k _ => (foldl_referTo_filterMap k k.pairs v).symm

/-! ### The fields -/

/-- The field of a column with all that the keys of the table add to it. -/
def keyedField (t : Table) (c : Column) : DocumentField :=
  let f := documentField c
  let f := if c.name ∈ t.primaryColumns then f.markPrimary else f
  let f := if t.UniqueAlone c.name then f.markUnique else f
  let f := (referencesOf c.name t.foreignKeys).getLast?.elim f (referTo f)
  if c.name ∈ t.indexedColumns then f.markIndex else f

theorem documentSchema_columns (h : t.columnNames.Nodup) :
    (documentSchema t).columns = t.columns.map fun c => (c.name, keyedField t c) := by
  have hpasses := (((eachBy_markParts (f := .markPrimary) (fun _ => rfl) (t.primaryKey.toList.flatMap (·.parts))).comp
    (eachBy_markUniqueKeys t.uniqueKeys)).comp (eachBy_markForeignKeys t.foreignKeys)).comp
    (eachBy_markParts (f := .markIndex) (fun _ => rfl) (t.indexes.flatMap (·.parts)))
  have hd : ((t.columns.map fun c => (c.name, documentField c)).map (·.1)).Nodup := by
    rw [List.map_map]
    exact h
  have hprimary (n : String) :
      (∃ p ∈ t.primaryKey.toList.flatMap (·.parts), p.column = n) ↔ n ∈ t.primaryColumns := by
    rw [primaryColumns, ← List.map_flatMap, List.mem_map]
  have hindexed (n : String) : (∃ p ∈ t.indexes.flatMap (·.parts), p.column = n) ↔ n ∈ t.indexedColumns := by
    rw [indexedColumns, ← List.map_flatMap, List.mem_map]
  have hlater (v : DocumentField) (r r' : FieldReference) : referTo (referTo v r) r' = referTo v r' := rfl
  change (fun ms => markParts _ _ (t.foreignKeys.foldl markForeignKey (t.uniqueKeys.foldl markUniqueKey
    (markParts _ _ ms)))) (ofEntries (t.columns.map fun c => (c.name, documentField c))) = _
  rw [columns_ofEntries h, hpasses _ hd, List.map_map]
  simp only [hprimary, hindexed, foldl_overwrite hlater]
  rfl

theorem keyedField_eq (t : Table) (c : Column) :
    keyedField t c =
      { documentField c with
        unique := if c.name ∈ t.primaryColumns ∨ t.UniqueAlone c.name then some true else none
        primary := if c.name ∈ t.primaryColumns then some true else none
        referenceTable := (referencesOf c.name t.foreignKeys).getLast?.map (·.table)
        index := if c.name ∈ t.indexedColumns then some true else none
        required := !c.options.nullable || decide (c.name ∈ t.primaryColumns)
        reference := (referencesOf c.name t.foreignKeys).getLast? } := by
  rw [keyedField]
  by_cases hprimary : c.name ∈ t.primaryColumns <;> by_cases hunique : t.UniqueAlone c.name <;>
    by_cases hindex : c.name ∈ t.indexedColumns <;> cases (referencesOf c.name t.foreignKeys).getLast? <;>
    simp [hprimary, hunique, hindex, documentField, DocumentField.markPrimary, DocumentField.markUnique,
      DocumentField.markIndex, referTo, DocumentField.refer]

/-- What the field of a column says of its part in the keys. -/
structure Shows (t : Table) (c : Column) (f : DocumentField) : Prop where
  primary_eq : f.primary = if c.name ∈ t.primaryColumns then some true else none
  index_eq : f.index = if c.name ∈ t.indexedColumns then some true else none
  required_eq : f.required = decide (c.options.nullable = false ∨ c.name ∈ t.primaryColumns)
  reference_isSome_iff : f.reference.isSome = true ↔ Paired t c.name
  reference_eq_some_iff : ∀ r, f.reference = some r ↔ LastPair t c.name r
  referenceTable_eq : f.referenceTable = f.reference.map (·.table)

theorem keyedField_shows (t : Table) (c : Column) : Shows t c (keyedField t c) := by
  rw [keyedField_eq]
  refine ⟨rfl, rfl, ?_, ?_, fun r => getLast?_referencesOf_eq_some_iff, rfl⟩
  · cases c.options.nullable <;> simp
  · rw [List.getLast?_isSome, ne_eq, referencesOf_eq_nil_iff, not_not]

/-- There is a field for each column, in their order: it tells whether the primary key or a plain index names the
column and whether a value is required, and it refers to the last column that a foreign key pairs this one with. -/
theorem documentSchema_shows (h : t.columnNames.Nodup) :
    List.Forall₂ (fun c m => m.1 = c.name ∧ Shows t c m.2) t.columns (documentSchema t).columns := by
  rw [documentSchema_columns h, List.forall₂_map_right_iff, List.forall₂_same]
  exact fun c _ => ⟨rfl, keyedField_shows t c⟩

/-- Lines of an order. The line is named by the order and the item together; two foreign keys start at the order, one
of them twice, and the note is left without a partner. -/
def orderLines : Table :=
  { name := "lines"
    columns := [{ name := "order", type := .int 8, options := { nullable := false } },
      { name := "item", type := .int 8, options := { nullable := false } }, { name := "note", type := .varchar 80 }]
    primaryKey := some (.onColumns ["order", "item"])
    indexes := [.onColumns ["item", "note"]]
    uniqueKeys := [.onColumns ["note"], .onColumns ["item", "note"]]
    foreignKeys := [.onColumns ["order"] (.toColumns "orders" ["id"]),
      .onColumns ["order", "item", "order", "note"] (.toColumns "stock" ["shelf", "item", "lot"])] }

theorem orderLines_shows :
    orderLines.WellFormed ∧
      List.Forall₂ (fun c m => m.1 = c.name ∧ Shows orderLines c m.2) orderLines.columns
        (documentSchema orderLines).columns ∧
      (documentSchema orderLines).columns.map (fun m => (m.1, m.2.primary, m.2.index, m.2.required, m.2.reference)) =
        [("order", some true, none, true, some ⟨"stock", "order", "lot"⟩),
          ("item", some true, some true, true, some ⟨"stock", "item", "item"⟩),
          ("note", none, some true, false, none)] := by
  have hwell : orderLines.WellFormed := by decide
  exact ⟨hwell, documentSchema_shows hwell.columns_distinct, rfl⟩

/-! ### Marks of uniqueness -/

theorem KeyAlone.marked (h : t.KeyAlone name) : name ∈ t.primaryColumns ∨ t.UniqueAlone name := by
  refine h.imp_left ?_
  rintro ⟨key, hkey, hon⟩
  obtain ⟨p, hp, hname⟩ := List.map_eq_singleton_iff.1 hon
  exact mem_primaryColumns.2 ⟨key, hkey, p, by rw [hp]; exact List.mem_singleton_self p, hname⟩

/-- A column is marked as unique exactly if the primary key names it or a unique key is on it alone. So the mark means
that the column by itself is a key, unless the column is one of several of the primary key and no key by itself. -/
theorem documentSchema_unique (h : t.columnNames.Nodup) :
    List.Forall₂ (fun c m => m.1 = c.name ∧
        m.2.unique = (if c.name ∈ t.primaryColumns ∨ t.UniqueAlone c.name then some true else none) ∧
        ((m.2.unique = some true ↔ t.KeyAlone c.name) ↔ (c.name ∈ t.primaryColumns → t.KeyAlone c.name)))
      t.columns (documentSchema t).columns := by
  rw [documentSchema_columns h, List.forall₂_map_right_iff, List.forall₂_same]
  intro c _
  have hunique : (keyedField t c).unique =
      if c.name ∈ t.primaryColumns ∨ t.UniqueAlone c.name then some true else none := by rw [keyedField_eq]
  have hmarked : (keyedField t c).unique = some true ↔ c.name ∈ t.primaryColumns ∨ t.UniqueAlone c.name := by
    rw [hunique, Option.ite_none_right_eq_some]
    simp
  refine ⟨rfl, hunique, ?_⟩
  rw [hmarked]
  constructor
  · exact fun hiff hprimary => hiff.1 (.inl hprimary)
  · exact fun hprimary => ⟨fun hmark => hmark.elim hprimary .inr, KeyAlone.marked⟩

theorem orderLines_unique :
    orderLines.WellFormed ∧
      List.Forall₂ (fun c m => m.1 = c.name ∧
          m.2.unique =
            (if c.name ∈ orderLines.primaryColumns ∨ orderLines.UniqueAlone c.name then some true else none) ∧
          ((m.2.unique = some true ↔ orderLines.KeyAlone c.name) ↔
            (c.name ∈ orderLines.primaryColumns → orderLines.KeyAlone c.name)))
        orderLines.columns (documentSchema orderLines).columns ∧
      orderLines.KeyAlone "note" := by
  have hwell : orderLines.WellFormed := by decide
  exact ⟨hwell, documentSchema_unique hwell.columns_distinct, .inr (by decide)⟩

/-- An order has many lines, and yet the order of a line is marked as unique. -/
theorem orderLines_order_unique :
    orderLines.WellFormed ∧
      (documentSchema orderLines).columns.map (fun m => (m.1, m.2.unique)) =
        [("order", some true), ("item", some true), ("note", some true)] ∧
      ¬ orderLines.KeyAlone "order" ∧ ¬ orderLines.KeyAlone "item" := by
  refine ⟨by decide, rfl, ?_, ?_⟩
  all_goals
    rintro (⟨key, hkey, hon⟩ | hunique)
    · cases hkey
      exact absurd hon (by decide)
    · exact absurd hunique (by decide)

end Projection

end DdlCatalog
