import DdlCatalog.Proofs.Table.Definition

/-!
The columns of a primary key are not nullable. Every edit of a table keeps this but one: a column of the
key may be replaced by one that is nullable.
-/

namespace DdlCatalog.Table

variable {t t' : Table} {name : String} {c : Column}

/-- The columns that the primary key names. -/
def primaryColumns (t : Table) : List String := t.primaryKey.toList.flatMap fun key => key.parts.map (·.column)

def KeyNotNull (t : Table) : Prop := ∀ c ∈ t.columns, c.name ∈ t.primaryColumns → c.options.nullable = false

instance (t : Table) : Decidable t.KeyNotNull := inferInstanceAs (Decidable (∀ c ∈ t.columns, _))

theorem mem_primaryColumns :
    name ∈ t.primaryColumns ↔ ∃ key ∈ t.primaryKey, ∃ p ∈ key.parts, p.column = name := by
  simp [primaryColumns]

theorem WellFormed.primaryColumns_subset (h : t.WellFormed) : t.primaryColumns ⊆ t.columnNames := by
  intro n hn
  obtain ⟨key, hk, p, hp, rfl⟩ := mem_primaryColumns.1 hn
  exact h.keys_resolved _ (primaryKey_mem_keyParts hk) p hp

/-- What the property looks at in a column. -/
def nullabilities (t : Table) : List (String × Bool) := t.columns.map fun c => (c.name, c.options.nullable)

theorem keyNotNull_iff : t.KeyNotNull ↔ ∀ n ∈ t.primaryColumns, (n, true) ∉ t.nullabilities := by
  constructor
  · intro h n hn hm
    obtain ⟨c, hc, he⟩ := List.mem_map.1 hm
    obtain ⟨rfl, hnull⟩ := Prod.mk.inj he
    rw [h c hc hn] at hnull
    cases hnull
  · intro h c hc hn
    rw [← Bool.not_eq_true]
    exact fun hnull => h c.name hn (List.mem_map.2 ⟨c, hc, by rw [hnull]⟩)

/-- Columns that go or stay as they are, and a key that loses columns. -/
theorem KeyNotNull.of_subset (h : t.KeyNotNull) (hcolumns : t'.nullabilities ⊆ t.nullabilities)
    (hkey : t'.primaryColumns ⊆ t.primaryColumns) : t'.KeyNotNull :=
  keyNotNull_iff.2 fun n hn hm => keyNotNull_iff.1 h n (hkey hn) (hcolumns hm)

theorem KeyNotNull.congr (h : t.KeyNotNull) (hcolumns : t'.columns = t.columns)
    (hkey : t'.primaryKey = t.primaryKey) : t'.KeyNotNull := by
  rw [KeyNotNull, primaryColumns, hcolumns, hkey]
  exact h

/-! ### A key that is set -/

theorem updateColumns_eq_map {columns : List Column} (hd : (columns.map (·.name)).Nodup) (name : String)
    (f : Column → Column) :
    updateColumns name f columns = columns.map fun c => if c.name = name then f c else c := by
  induction columns with
  | nil => rfl
  | cons c cs ih =>
      rw [List.map_cons, List.nodup_cons] at hd
      rw [updateColumns, List.map_cons]
      split
      · rename_i hc
        refine congrArg (f c :: ·) ((List.map_congr_left fun d hm => ?_).trans (List.map_id cs)).symm
        exact if_neg fun he => hd.1 (List.mem_map.2 ⟨d, hm, he.trans hc.symm⟩)
      · rw [ih hd.2]

/-- Part by part or column by column, the same columns are made not nullable. -/
theorem attachPrimaryKey_columns (hd : t.columnNames.Nodup) (key : Index) :
    (t.attachPrimaryKey key).columns = requireColumns key t.columns := by
  suffices h : ∀ (parts : List KeyPart) (columns : List Column), (columns.map (·.name)).Nodup →
      parts.foldl (fun cs p => updateColumns p.column Column.notNull cs) columns =
        columns.map fun c => if parts.any (·.column == c.name) then c.notNull else c from
    h key.parts t.columns hd
  intro parts
  induction parts with
  | nil => simp
  | cons p ps ih =>
      intro columns hd
      have hnames : ((updateColumns p.column Column.notNull columns).map (·.name)).Nodup := by
        rw [map_updateColumns (·.name) fun c => (rfl : c.notNull.name = c.name)]
        exact hd
      rw [List.foldl_cons, ih _ hnames, updateColumns_eq_map hd, List.map_map]
      apply List.map_congr_left
      intro c _
      have hname : c.notNull.name = c.name := rfl
      have htwice : c.notNull.notNull = c.notNull := rfl
      by_cases hc : c.name = p.column
      · simp [hc, hname, htwice]
      · simp [hc, Ne.symm hc]

theorem references_iff {key : Index} : key.references name = true ↔ ∃ p ∈ key.parts, p.column = name := by
  simp [Index.references]

theorem requireColumns_keyNotNull (t : Table) (key : Index) :
    ({ t with columns := requireColumns key t.columns, primaryKey := some key } : Table).KeyNotNull := by
  intro c hc hn
  obtain ⟨d, -, rfl⟩ := List.mem_map.1 hc
  obtain ⟨key', hk, hp⟩ := mem_primaryColumns.1 hn
  cases hk
  by_cases hd : key.references d.name = true
  · rw [if_pos hd]; rfl
  · rw [if_neg hd] at hp
    exact absurd (references_iff.2 hp) hd

theorem attachPrimaryKey_keyNotNull (hd : t.columnNames.Nodup) (key : Index) : (t.attachPrimaryKey key).KeyNotNull :=
  (requireColumns_keyNotNull t key).congr (attachPrimaryKey_columns hd key) rfl

theorem setPrimaryKey_keyNotNull {key : Index} (hw : t.WellFormed) (ht : t.setPrimaryKey key = .ok t') :
    t'.KeyNotNull := by
  obtain ⟨-, rfl⟩ := setPrimaryKey_eq_ok_iff.1 ht
  exact attachPrimaryKey_keyNotNull hw.columns_distinct key

theorem addPrimaryKey_keyNotNull {key : Index} (hw : t.WellFormed) (ht : t.addPrimaryKey key = .ok t') :
    t'.KeyNotNull := by
  rw [addPrimaryKey] at ht
  split at ht
  · cases ht
  · exact setPrimaryKey_keyNotNull hw ht

theorem withoutPrimaryKey_keyNotNull (t : Table) : t.withoutPrimaryKey.KeyNotNull := by
  intro c _ hn
  cases hn

theorem dropPrimaryKey_keyNotNull (ht : t.dropPrimaryKey = .ok t') : t'.KeyNotNull := by
  rw [dropPrimaryKey] at ht
  split at ht <;> cases ht
  exact withoutPrimaryKey_keyNotNull t

/-! ### Columns -/

theorem promote_columns (h : c.inline.primaryKey = false) : (t.promote c).columns = t.columns := by
  simp [promote, h]

theorem promote_keyNotNull (hd : t.columnNames.Nodup) (h : c.inline.primaryKey = false → t.KeyNotNull) :
    (t.promote c).KeyNotNull := by
  cases hc : c.inline.primaryKey with
  | false => exact (h hc).congr (promote_columns hc) (by simp [promote_primaryKey, hc])
  | true =>
      refine (attachPrimaryKey_keyNotNull hd (.onColumns [c.name])).congr ?_ ?_
      · simp [promote, hc]
      · simp [promote_primaryKey, hc, attachPrimaryKey]

theorem addColumn_keyNotNull {placement : Option Placement} (hw : t.WellFormed) (h : t.KeyNotNull)
    (ht : t.addColumn c placement = .ok t') : t'.KeyNotNull := by
  obtain ⟨hc, columns, hp, rfl⟩ := addColumn_cases ht
  refine promote_keyNotNull (hw.of_perm hp hc).columns_distinct fun _ d hd hn => ?_
  rcases List.mem_cons.1 (hp.mem_iff.1 hd) with rfl | hd
  · exact absurd (hw.primaryColumns_subset hn) hc
  · exact h d hd hn

theorem moveColumn_keyNotNull {placement : Placement} (h : t.KeyNotNull)
    (ht : t.moveColumn name placement = .ok t') : t'.KeyNotNull := by
  obtain ⟨columns, hp, rfl⟩ := moveColumn_cases ht
  exact h.of_subset (hp.map _).subset (List.Subset.refl _)

theorem setColumnDefault_keyNotNull {value : Option DefaultValue} (h : t.KeyNotNull)
    (ht : t.setColumnDefault name value = .ok t') : t'.KeyNotNull := by
  rw [setColumnDefault] at ht
  split at ht
  · cases ht
    refine h.of_subset (List.Perm.of_eq ?_).subset (List.Subset.refl _)
    exact map_updateColumns (fun c => (c.name, c.options.nullable)) (by intro c; rfl) name t.columns
  · cases ht

theorem dropColumn_keyNotNull {d : Column} (h : t.KeyNotNull) (ht : t.dropColumn name = .ok (d, t')) :
    t'.KeyNotNull := by
  obtain ⟨hcolumns, hprimary, -, -⟩ := dropColumn_cases ht
  refine h.of_subset ?_ fun n hn => ?_
  · rw [nullabilities, hcolumns]
    exact List.map_subset _ List.eraseP_subset
  · obtain ⟨key, hk, p, hp, rfl⟩ := mem_primaryColumns.1 hn
    rw [hprimary, Option.mem_def, Option.bind_eq_some_iff] at hk
    obtain ⟨key', hk', hw⟩ := hk
    rw [indexWithout] at hw
    split at hw <;> cases hw
    exact mem_primaryColumns.2 ⟨key', hk', p, List.mem_of_mem_filter hp, rfl⟩

theorem primaryColumns_renameReferences (t : Table) (old new : String) :
    (t.renameReferences old new).primaryColumns = t.primaryColumns.map fun n => if n = old then new else n := by
  have hpart (p : KeyPart) : (p.renameColumn old new).column = if p.column = old then new else p.column := by
    rw [KeyPart.renameColumn]
    split <;> rfl
  cases hk : t.primaryKey with
  | none => simp [primaryColumns, renameReferences, hk]
  | some key => simp [primaryColumns, renameReferences, hk, Index.renameColumn, hpart]

theorem mem_primaryColumns_renameReferences {old new : String} :
    name ∈ (t.renameReferences old new).primaryColumns ↔
      ∃ n ∈ t.primaryColumns, (if n = old then new else n) = name := by
  rw [primaryColumns_renameReferences, List.mem_map]

/-- A column in the place of another, which the key follows to its name. -/
theorem exchange_keyNotNull_iff {pre post columns : List Column} {old e : Column} (hw : t.WellFormed)
    (h : t.KeyNotNull) (hs : ColumnSplit name t.columns pre old post)
    (hn : e.name = name ∨ e.name ∉ t.columnNames) (hp : columns.Perm (e :: (pre ++ post))) :
    ({ t.renameReferences name e.name with columns := columns } : Table).KeyNotNull ↔
      (name ∈ t.primaryColumns → e.options.nullable = false) := by
  constructor
  · intro hk hm
    refine hk e (hp.mem_iff.2 List.mem_cons_self) ?_
    exact mem_primaryColumns_renameReferences.2 ⟨name, hm, if_pos rfl⟩
  · intro he d hd hm
    obtain ⟨n, hn', hnd⟩ := mem_primaryColumns_renameReferences.1 hm
    have hmem : n ∈ t.columnNames := hw.primaryColumns_subset hn'
    rcases List.mem_cons.1 (hp.mem_iff.1 hd) with rfl | hd
    · by_cases hname : n = name
      · exact he (hname ▸ hn')
      · -- A key that did not name the old column cannot name the new one, whose name was free.
        rw [if_neg hname] at hnd
        subst hnd
        exact (hn.elim hname fun hfree => hfree hmem).elim
    · have hd' : d ∈ t.columns := hs.perm.mem_iff.2 (List.mem_cons_of_mem _ hd)
      by_cases hname : n = name
      · rw [if_pos hname] at hnd
        have hsame : e.name = name := hn.resolve_right fun hfree => hfree (hnd ▸ List.mem_map_of_mem hd')
        exact absurd (List.mem_map.2 ⟨d, hd, hnd.symm.trans hsame⟩) (hs.notMem_others hw.columns_distinct)
      · rw [if_neg hname] at hnd
        exact h d hd' (hnd ▸ hn')

theorem renameColumn_keyNotNull {old new : String} (hw : t.WellFormed) (h : t.KeyNotNull)
    (ht : t.renameColumn old new = .ok t') : t'.KeyNotNull := by
  rw [renameColumn] at ht
  split at ht
  · cases ht
  · rename_i hold
    split at ht
    · cases ht; exact h
    · split at ht
      · cases ht
      · rename_i hnew
        cases ht
        obtain ⟨pre, c, post, hs⟩ := hasColumn.split (by simpa using hold)
        have := (exchange_keyNotNull_iff (e := { c with name := new }) hw h hs
          (.inr (by simpa [hasColumn_iff_mem] using hnew)) List.perm_middle).2
        rw [updateColumn, hs.updateColumns_eq]
        exact this fun hm => h c hs.mem (hs.key_eq ▸ hm)

/-- A column that takes the place of one in the key has to be not nullable, unless it becomes the key. -/
theorem replaceColumn_keyNotNull_iff {placement : Option Placement} (hw : t.WellFormed) (h : t.KeyNotNull)
    (ht : t.replaceColumn name c placement = .ok t') : t'.KeyNotNull ↔
      (name ∈ t.primaryColumns → c.inline.primaryKey = false → c.options.nullable = false) := by
  obtain ⟨pre, old, post, columns, hs, hn, hp, rfl⟩ := replaceColumn_cases ht
  have hiff := exchange_keyNotNull_iff (e := c.bare) hw h hs hn hp
  have hd := (exchange_wellFormed (e := c.bare) hw hs rfl hn hp).columns_distinct
  cases hc : c.inline.primaryKey with
  | true => exact iff_of_true (promote_keyNotNull hd fun hf => by rw [hc] at hf; cases hf) (by simp)
  | false =>
      constructor
      · intro hk hm _
        exact hiff.1 (hk.congr (promote_columns hc).symm (by simp [promote_primaryKey, hc, Column.bare])) hm
      · intro hk
        exact promote_keyNotNull hd fun _ => hiff.2 fun hm => hk hm rfl

/-! ### Other keys, options and name -/

theorem mapIndexes_keyNotNull (h : t.KeyNotNull) (kind : IndexKind) (f : List Index → List Index) :
    (t.mapIndexes kind f).KeyNotNull :=
  h.congr (mapIndexes_columns ..) (mapIndexes_primaryKey ..)

theorem pushIndex_keyNotNull {kind : IndexKind} {i : Index} (h : t.KeyNotNull)
    (ht : t.pushIndex kind i = .ok t') : t'.KeyNotNull := by
  obtain ⟨-, -, rfl⟩ := pushIndex_eq_ok_iff.1 ht
  exact mapIndexes_keyNotNull h kind _

theorem dropIndex_keyNotNull {kind : IndexKind} (h : t.KeyNotNull) (ht : t.dropIndex name = .ok (kind, t')) :
    t'.KeyNotNull := by
  rw [dropIndex] at ht
  split at ht <;> cases ht
  exact mapIndexes_keyNotNull h kind _

theorem renameIndex_keyNotNull {old new : String} (h : t.KeyNotNull) (ht : t.renameIndex old new = .ok t') :
    t'.KeyNotNull := by
  rw [renameIndex] at ht
  repeat' split at ht
  all_goals cases ht
  · exact h
  · exact mapIndexes_keyNotNull h _ _

theorem pushForeignKey_keyNotNull {k : ForeignKey} (h : t.KeyNotNull) (ht : t.pushForeignKey k = .ok t') :
    t'.KeyNotNull := by
  obtain ⟨-, -, rfl⟩ := pushForeignKey_eq_ok_iff.1 ht
  exact h.congr rfl rfl

theorem dropForeignKey_keyNotNull {symbol : String} {k : ForeignKey} (h : t.KeyNotNull)
    (ht : t.dropForeignKey symbol = .ok (k, t')) : t'.KeyNotNull := by
  rw [dropForeignKey] at ht
  split at ht <;> cases ht
  exact h.congr rfl rfl

theorem mergeOptions_keyNotNull (h : t.KeyNotNull) (options : List TableOption) :
    (t.mergeOptions options).KeyNotNull :=
  h.congr rfl rfl

theorem setName_keyNotNull (h : t.KeyNotNull) (name : String) : (t.setName name).KeyNotNull := h.congr rfl rfl

/-! ### Definitions -/

open Edit

/-- Whatever the entries of a definition leave, the primary key is settled in the end. -/
theorem resolvePrimaryKey_leads_keyNotNull (policy : Policy) :
    (resolvePrimaryKey policy).Leads (fun _ => True) KeyNotNull := by
  refine leads_bind (refuseUnresolved_keeps _ policy _).leads fun _ => leads_modify fun t _ => ?_
  cases hk : t.primaryKey with
  | none =>
      intro c _ hn
      obtain ⟨key, hkey, -⟩ := mem_primaryColumns.1 hn
      rw [hk] at hkey
      cases hkey
  | some key =>
      by_cases hr : t.isResolved key.parts = true
      · simp only [hr, if_true]
        exact requireColumns_keyNotNull t key
      · simp only [hr, Bool.false_eq_true, if_false]
        exact withoutPrimaryKey_keyNotNull t

theorem addDefinition_leads_keyNotNull (policy : Policy) (d : TableDefinition) :
    (addDefinition policy d).Leads (fun _ => True) KeyNotNull := by
  have hany {e : Edit Table Unit} : e.Leads (fun _ => True) fun _ => True := fun _ _ _ _ => trivial
  have hresolve : (resolve policy).Leads (fun _ => True) KeyNotNull :=
    leads_bind hany fun _ => leads_bind hany fun _ => leads_bind hany fun _ => leads_bind hany fun _ =>
      leads_bind hany fun _ => resolvePrimaryKey_leads_keyNotNull policy
  refine leads_bind hany fun _ => leads_bind hresolve fun _ => leads_modify fun t h => ?_
  split
  · exact h
  · exact mergeOptions_keyNotNull h d.options

theorem ofDefinition_keyNotNull {policy : Policy} {d : TableDefinition}
    (h : (ofDefinition policy d).result = .ok ()) : (ofDefinition policy d).state.KeyNotNull :=
  addDefinition_leads_keyNotNull policy d _ () trivial h

end DdlCatalog.Table
