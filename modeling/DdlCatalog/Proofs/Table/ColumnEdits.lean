import DdlCatalog.Proofs.Table.InPlace
import DdlCatalog.Proofs.Table.Invariant

/-!
Edits of the columns of a table keep its invariant: columns that bring constraints of their own, that
move, that go with the references to them, and that take another name or another's place.
-/

namespace DdlCatalog.Table

variable {t t' : Table} {name : String} {c : Column}

/-! ### Columns changed in place -/

theorem map_updateColumns {β : Type} (g : Column → β) {f : Column → Column} (hg : ∀ c, g (f c) = g c)
    (name : String) (columns : List Column) : (updateColumns name f columns).map g = columns.map g := by
  induction columns with
  | nil => rfl
  | cons d ds ih =>
      by_cases hd : d.name = name
      · simp [updateColumns, hd, hg]
      · simp [updateColumns, hd, ih]

theorem map_attachPrimaryKey {β : Type} (g : Column → β) (hg : ∀ c, g c.notNull = g c) (t : Table) (key : Index) :
    (t.attachPrimaryKey key).columns.map g = t.columns.map g := by
  suffices h : ∀ (parts : List KeyPart) (columns : List Column),
      (parts.foldl (fun cs p => updateColumns p.column Column.notNull cs) columns).map g = columns.map g from
    h key.parts t.columns
  intro parts
  induction parts with
  | nil => intro columns; rfl
  | cons p ps ih => intro columns; rw [List.foldl_cons, ih, map_updateColumns g hg]

theorem nothing_pending_iff {columns : List Column} :
    (∀ c ∈ columns, c.inline = {}) ↔ ∀ i ∈ columns.map (·.inline), i = {} := by
  simp

/-- Columns rearranged, or changed but for their names and for what they have pending. -/
theorem WellFormed.of_columns (h : t.WellFormed) {columns : List Column}
    (hp : (columns.map fun c => (c.name, c.inline)).Perm (t.columns.map fun c => (c.name, c.inline))) :
    ({ t with columns := columns } : Table).WellFormed := by
  have hnames : (columns.map (·.name)).Perm t.columnNames := by
    simpa [columnNames, Function.comp_def] using hp.map Prod.fst
  have hinline : (columns.map (·.inline)).Perm (t.columns.map (·.inline)) := by
    simpa [Function.comp_def] using hp.map Prod.snd
  exact {
    columns_distinct := hnames.nodup_iff.2 h.columns_distinct
    keys_nonempty := h.keys_nonempty
    indexes_distinct := h.indexes_distinct
    symbols_distinct := h.symbols_distinct
    nothing_pending := nothing_pending_iff.2 fun i hi =>
      nothing_pending_iff.1 h.nothing_pending i (hinline.mem_iff.1 hi)
    keys_resolved := fun parts hparts p hm => hnames.mem_iff.2 (h.keys_resolved parts hparts p hm) }

theorem setColumnDefault_wellFormed {value : Option DefaultValue} (h : t.WellFormed)
    (ht : t.setColumnDefault name value = .ok t') : t'.WellFormed := by
  rw [setColumnDefault] at ht
  split at ht
  · cases ht
    exact h.of_columns (List.Perm.of_eq (map_updateColumns _ (by intro c; rfl) _ _))
  · cases ht

theorem setColumnDefault_name {value : Option DefaultValue} (ht : t.setColumnDefault name value = .ok t') :
    t'.name = t.name := by
  rw [setColumnDefault] at ht
  split at ht <;> cases ht
  rfl

/-! ### A column more -/

theorem place?_perm {placement : Option Placement} {columns columns' : List Column}
    (h : place? placement c columns = some columns') : columns'.Perm (c :: columns) := by
  have hafter (name : String) (columns columns' : List Column)
      (h : insertAfter? name c columns = some columns') : columns'.Perm (c :: columns) := by
    induction columns generalizing columns' with
    | nil => simp [insertAfter?] at h
    | cons d ds ih =>
        rw [insertAfter?] at h
        split at h
        · cases h; exact List.Perm.swap c d ds
        · obtain ⟨rest, hr, rfl⟩ := Option.map_eq_some_iff.1 h
          exact ((ih rest hr).cons d).trans (List.Perm.swap c d ds)
  cases placement with
  | none => cases h; exact List.perm_append_singleton c columns
  | some p =>
      cases p with
      | first => cases h; exact List.Perm.refl _
      | after name => exact hafter name columns columns' h

theorem promote_primaryKey (t : Table) (c : Column) : (t.promote c).primaryKey =
    if c.inline.primaryKey then some (.onColumns [c.name]) else t.primaryKey := by
  rw [promote]
  split <;> rfl

theorem promote_foreignKeys (t : Table) (c : Column) : (t.promote c).foreignKeys =
    t.foreignKeys ++ (c.inline.reference.map (ForeignKey.onColumns [c.name])).toList := by
  rw [promote]
  split <;> rfl

theorem promote_indexesOf (t : Table) (c : Column) (kind : IndexKind) : (t.promote c).indexesOf kind =
    t.indexesOf kind ++ if kind = .unique ∧ c.inline.uniqueKey = true then [.onColumns [c.name]] else [] := by
  rw [promote]
  cases kind <;> cases c.inline.primaryKey <;> simp [indexesOf, attachPrimaryKey]

@[simp]
theorem promote_name (t : Table) (c : Column) : (t.promote c).name = t.name := by
  rw [promote]
  split <;> rfl

theorem map_promote_columns {β : Type} (g : Column → β) (hg : ∀ c, g c.notNull = g c) (t : Table) (c : Column) :
    (t.promote c).columns.map g = t.columns.map g := by
  rw [promote]
  split
  · exact map_attachPrimaryKey g hg t _
  · rfl

@[simp]
theorem promote_columnNames (t : Table) (c : Column) : (t.promote c).columnNames = t.columnNames :=
  map_promote_columns (·.name) (fun _ => rfl) t c

/-- The keys a column brings along have no names. -/
@[simp]
theorem promote_indexNames (t : Table) (c : Column) : (t.promote c).indexNames = t.indexNames := by
  simp only [indexNames, lookupOrder, List.flatMap_cons, List.flatMap_nil, promote_indexesOf]
  cases c.inline.uniqueKey <;> simp [Index.onColumns]

@[simp]
theorem promote_symbols (t : Table) (c : Column) : (t.promote c).symbols = t.symbols := by
  rw [symbols, promote_foreignKeys]
  cases c.inline.reference <;> simp [symbols, ForeignKey.onColumns]

/-- The keys a column brings along are on that column alone. -/
theorem mem_keyParts_promote {parts : List KeyPart} (h : parts ∈ (t.promote c).keyParts) :
    parts ∈ t.keyParts ∨ parts = [{ column := c.name }] := by
  rw [mem_keyParts] at h ⊢
  rcases h with ⟨key, hk, rfl⟩ | ⟨k, hk, rfl⟩ | ⟨kind, i, hi, rfl⟩
  · rw [promote_primaryKey] at hk
    split at hk
    · cases hk; exact .inr rfl
    · exact .inl (.inl ⟨key, hk, rfl⟩)
  · rw [promote_foreignKeys, List.mem_append] at hk
    rcases hk with hk | hk
    · exact .inl (.inr (.inl ⟨k, hk, rfl⟩))
    · rw [Option.mem_toList, Option.map_eq_some_iff] at hk
      obtain ⟨r, -, rfl⟩ := hk
      exact .inr rfl
  · rw [promote_indexesOf, List.mem_append] at hi
    rcases hi with hi | hi
    · exact .inl (.inr (.inr ⟨kind, i, hi, rfl⟩))
    · split at hi
      · cases List.mem_singleton.1 hi; exact .inr rfl
      · cases hi

theorem promote_coherent (h : t.Coherent) (c : Column) : (t.promote c).Coherent where
  columns_distinct := by rw [promote_columnNames]; exact h.columns_distinct
  keys_nonempty parts hp := by
    rcases mem_keyParts_promote hp with hp | rfl
    · exact h.keys_nonempty parts hp
    · exact List.cons_ne_nil _ _
  indexes_distinct := by rw [promote_indexNames]; exact h.indexes_distinct
  symbols_distinct := by rw [promote_symbols]; exact h.symbols_distinct
  nothing_pending := by
    rw [nothing_pending_iff, map_promote_columns _ (fun _ => rfl), ← nothing_pending_iff]
    exact h.nothing_pending

theorem promote_wellFormed (h : t.WellFormed) (hc : c.name ∈ t.columnNames) : (t.promote c).WellFormed where
  toCoherent := promote_coherent h.toCoherent c
  keys_resolved parts hp p hm := by
    rw [promote_columnNames]
    rcases mem_keyParts_promote hp with hp | rfl
    · exact h.keys_resolved parts hp p hm
    · cases List.mem_singleton.1 hm; exact hc

/-- The columns of a table and a bare one among them, which none of them is called like. -/
theorem Coherent.of_perm (h : t.Coherent) {columns : List Column} (hp : columns.Perm (c.bare :: t.columns))
    (hc : c.name ∉ t.columnNames) : ({ t with columns := columns } : Table).Coherent where
  columns_distinct := by
    have hn : (columns.map (·.name)).Perm (c.name :: t.columnNames) := hp.map _
    exact hn.nodup_iff.2 (List.nodup_cons.2 ⟨hc, h.columns_distinct⟩)
  keys_nonempty := h.keys_nonempty
  indexes_distinct := h.indexes_distinct
  symbols_distinct := h.symbols_distinct
  nothing_pending d hd := by
    rcases List.mem_cons.1 (hp.mem_iff.1 hd) with rfl | hd
    · rfl
    · exact h.nothing_pending d hd

theorem addColumn_cases {placement : Option Placement} (h : t.addColumn c placement = .ok t') :
    c.name ∉ t.columnNames ∧ ∃ columns, columns.Perm (c.bare :: t.columns) ∧
      t' = ({ t with columns := columns } : Table).promote c := by
  rw [addColumn] at h
  split at h
  · cases h
  · rename_i hc
    split at h
    · cases h
    · rename_i columns hp
      cases h
      exact ⟨by simpa [hasColumn_iff_mem] using hc, columns, place?_perm hp, rfl⟩

theorem addColumn_coherent {placement : Option Placement} (h : t.Coherent)
    (ht : t.addColumn c placement = .ok t') : t'.Coherent := by
  obtain ⟨hc, columns, hp, rfl⟩ := addColumn_cases ht
  exact promote_coherent (h.of_perm hp hc) c

theorem addColumn_wellFormed {placement : Option Placement} (h : t.WellFormed)
    (ht : t.addColumn c placement = .ok t') : t'.WellFormed := by
  obtain ⟨hc, columns, hp, rfl⟩ := addColumn_cases ht
  have hn : (columns.map (·.name)).Perm (c.name :: t.columnNames) := hp.map _
  refine promote_wellFormed ⟨h.of_perm hp hc, ?_⟩ (hn.mem_iff.2 (List.mem_cons_self ..))
  intro parts hparts p hm
  exact hn.mem_iff.2 (List.mem_cons_of_mem _ (h.keys_resolved parts hparts p hm))

theorem addColumn_name {placement : Option Placement} (ht : t.addColumn c placement = .ok t') :
    t'.name = t.name := by
  obtain ⟨-, columns, -, rfl⟩ := addColumn_cases ht
  exact promote_name _ c

/-! ### A column elsewhere -/

theorem moveColumn_cases {placement : Placement} (h : t.moveColumn name placement = .ok t') :
    ∃ columns, columns.Perm t.columns ∧ t' = { t with columns := columns } := by
  rw [moveColumn] at h
  split at h
  · cases h
  · rename_i c hc
    split at h
    · cases h
    · rename_i columns hp
      cases h
      have hm : ∃ d ∈ t.columns, d.name = name :=
        ⟨c, List.mem_of_find?_eq_some hc, by simpa using List.find?_some hc⟩
      obtain ⟨pre, d, post, hs⟩ := exists_split hm
      have hd : d = c := Option.some.inj (hs.find?_eq.symm.trans hc)
      subst hd
      rw [otherColumns, hs.eraseP_eq] at hp
      exact ⟨columns, (place?_perm hp).trans hs.perm.symm, rfl⟩

theorem moveColumn_wellFormed {placement : Placement} (h : t.WellFormed)
    (ht : t.moveColumn name placement = .ok t') : t'.WellFormed := by
  obtain ⟨columns, hp, rfl⟩ := moveColumn_cases ht
  exact h.of_columns (hp.map _)

theorem moveColumn_name {placement : Placement} (ht : t.moveColumn name placement = .ok t') :
    t'.name = t.name := by
  obtain ⟨columns, -, rfl⟩ := moveColumn_cases ht
  rfl

/-! ### A column less -/

theorem indexWithout_name {i j : Index} (h : indexWithout name i = some j) : j.name = i.name := by
  rw [indexWithout] at h
  split at h <;> cases h
  rfl

theorem foreignKeyWithout_symbol {k l : ForeignKey} (h : foreignKeyWithout name k = some l) :
    l.symbol = k.symbol := by
  rw [foreignKeyWithout] at h
  split at h <;> cases h
  rfl

/-- A key that stays when a column goes has its other columns, and at least one. -/
theorem indexWithout_parts {i j : Index} (h : indexWithout name i = some j) (hi : i.parts ≠ []) :
    j.parts ≠ [] ∧ ∀ p ∈ j.parts, p ∈ i.parts ∧ p.column ≠ name := by
  rw [indexWithout] at h
  split at h
  · cases h
  · rename_i hk
    cases h
    refine ⟨?_, by simp [Index.dropColumn]⟩
    by_cases hr : i.references name = true
    · simpa [hr, Index.isEmpty] using hk
    · have hall : i.parts.filter (·.column != name) = i.parts := by
        simpa [Index.references] using hr
      rw [Index.dropColumn, hall]
      exact hi

theorem foreignKeyWithout_parts {k l : ForeignKey} (h : foreignKeyWithout name k = some l) (hk : k.parts ≠ []) :
    l.parts ≠ [] ∧ ∀ p ∈ l.parts, p ∈ k.parts ∧ p.column ≠ name := by
  rw [foreignKeyWithout] at h
  split at h
  · cases h
  · rename_i he
    cases h
    refine ⟨?_, by simp [ForeignKey.dropColumn]⟩
    by_cases hr : k.references name = true
    · simpa [hr, ForeignKey.isEmpty] using he
    · have hall : k.parts.filter (·.column != name) = k.parts := by
        simpa [ForeignKey.references] using hr
      simp only [ForeignKey.dropColumn, hall]
      exact hk

theorem sublist_filterMap {α : Type} (f : α → Option α) (g : α → Option String)
    (hfg : ∀ a b, f a = some b → g b = g a) (as : List α) :
    ((as.filterMap f).filterMap g).Sublist (as.filterMap g) := by
  induction as with
  | nil => exact List.Sublist.refl _
  | cons a as ih =>
      cases hf : f a with
      | none =>
          rw [List.filterMap_cons_none hf]
          cases hg : g a with
          | none => rwa [List.filterMap_cons_none hg]
          | some n => rw [List.filterMap_cons_some hg]; exact ih.cons n
      | some b =>
          rw [List.filterMap_cons_some hf]
          cases hg : g a with
          | none => rwa [List.filterMap_cons_none hg, List.filterMap_cons_none ((hfg a b hf).trans hg)]
          | some n =>
              rw [List.filterMap_cons_some hg, List.filterMap_cons_some ((hfg a b hf).trans hg)]
              exact ih.cons_cons n

theorem dropColumn_cases {d : Column} (h : t.dropColumn name = .ok (d, t')) :
    t'.columns = t.otherColumns name ∧ t'.primaryKey = t.primaryKey.bind (indexWithout name) ∧
      t'.foreignKeys = t.foreignKeys.filterMap (foreignKeyWithout name) ∧
      ∀ kind, t'.indexesOf kind = (t.indexesOf kind).filterMap (indexWithout name) := by
  rw [dropColumn] at h
  split at h
  · cases h
  · cases h
    exact ⟨rfl, rfl, rfl, fun kind => by cases kind <;> rfl⟩

/-- The columns of a key that stays are those it had, without the one that goes. -/
theorem mem_keyParts_dropColumn {d : Column} {parts : List KeyPart} (h : t.WellFormed)
    (ht : t.dropColumn name = .ok (d, t')) (hp : parts ∈ t'.keyParts) :
    parts ≠ [] ∧ ∀ p ∈ parts, p.column ≠ name ∧ ∃ parts' ∈ t.keyParts, p ∈ parts' := by
  obtain ⟨-, hprimary, hforeign, hindexes⟩ := dropColumn_cases ht
  rw [mem_keyParts] at hp
  rcases hp with ⟨key, hk, rfl⟩ | ⟨k, hk, rfl⟩ | ⟨kind, i, hi, rfl⟩
  · rw [hprimary, Option.bind_eq_some_iff] at hk
    obtain ⟨key', hk', hw⟩ := hk
    have hm : key'.parts ∈ t.keyParts := primaryKey_mem_keyParts hk'
    obtain ⟨hne, hsub⟩ := indexWithout_parts hw (h.keys_nonempty _ hm)
    exact ⟨hne, fun p hp => ⟨(hsub p hp).2, _, hm, (hsub p hp).1⟩⟩
  · rw [hforeign, List.mem_filterMap] at hk
    obtain ⟨k', hk', hw⟩ := hk
    have hm : k'.parts ∈ t.keyParts := foreignKey_mem_keyParts hk'
    obtain ⟨hne, hsub⟩ := foreignKeyWithout_parts hw (h.keys_nonempty _ hm)
    exact ⟨hne, fun p hp => ⟨(hsub p hp).2, _, hm, (hsub p hp).1⟩⟩
  · rw [hindexes, List.mem_filterMap] at hi
    obtain ⟨i', hi', hw⟩ := hi
    have hm : i'.parts ∈ t.keyParts := index_mem_keyParts hi'
    obtain ⟨hne, hsub⟩ := indexWithout_parts hw (h.keys_nonempty _ hm)
    exact ⟨hne, fun p hp => ⟨(hsub p hp).2, _, hm, (hsub p hp).1⟩⟩

theorem mem_otherColumns {n : String} (h : n ∈ t.columnNames) (hn : n ≠ name) :
    n ∈ (t.otherColumns name).map (·.name) := by
  obtain ⟨d, hd, rfl⟩ := List.mem_map.1 h
  exact List.mem_map_of_mem ((List.mem_eraseP_of_neg (by simpa using hn)).2 hd)

theorem dropColumn_wellFormed {d : Column} (h : t.WellFormed) (ht : t.dropColumn name = .ok (d, t')) :
    t'.WellFormed := by
  obtain ⟨hcolumns, -, hforeign, hindexes⟩ := dropColumn_cases ht
  have hsub : (t.otherColumns name).Sublist t.columns := List.eraseP_sublist
  exact {
    columns_distinct := by rw [columnNames, hcolumns]; exact (hsub.map _).nodup h.columns_distinct
    keys_nonempty := fun parts hp => (mem_keyParts_dropColumn h ht hp).1
    indexes_distinct := by
      apply (indexNames_sublist fun kind => ?_).nodup h.indexes_distinct
      rw [hindexes]
      exact sublist_filterMap _ _ (fun _ _ => indexWithout_name) _
    symbols_distinct := by
      rw [symbols, hforeign]
      exact (sublist_filterMap _ _ (fun _ _ => foreignKeyWithout_symbol) _).nodup h.symbols_distinct
    nothing_pending := fun d hd => h.nothing_pending d (hsub.subset (hcolumns ▸ hd))
    keys_resolved := fun parts hp p hm => by
      obtain ⟨hne, parts', hp', hm'⟩ := (mem_keyParts_dropColumn h ht hp).2 p hm
      rw [columnNames, hcolumns]
      exact mem_otherColumns (h.keys_resolved parts' hp' p hm') hne }

theorem dropColumn_name {d : Column} (ht : t.dropColumn name = .ok (d, t')) : t'.name = t.name := by
  rw [dropColumn] at ht
  split at ht <;> cases ht
  rfl

/-! ### A column of another name -/

theorem renameReferences_indexesOf (t : Table) (old new : String) (kind : IndexKind) :
    (t.renameReferences old new).indexesOf kind = (t.indexesOf kind).map (·.renameColumn old new) := by
  cases kind <;> rfl

theorem mem_keyParts_renameReferences {old new : String} {parts : List KeyPart}
    (h : parts ∈ (t.renameReferences old new).keyParts) :
    ∃ parts' ∈ t.keyParts, parts = parts'.map (KeyPart.renameColumn old new) := by
  rw [mem_keyParts] at h
  rcases h with ⟨key, hk, rfl⟩ | ⟨k, hk, rfl⟩ | ⟨kind, i, hi, rfl⟩
  · obtain ⟨key', hk', rfl⟩ := Option.map_eq_some_iff.1 hk
    exact ⟨key'.parts, primaryKey_mem_keyParts hk', rfl⟩
  · obtain ⟨k', hk', rfl⟩ := List.mem_map.1 hk
    exact ⟨k'.parts, foreignKey_mem_keyParts hk', rfl⟩
  · rw [renameReferences_indexesOf] at hi
    obtain ⟨i', hi', rfl⟩ := List.mem_map.1 hi
    exact ⟨i'.parts, index_mem_keyParts hi', rfl⟩

theorem renameReferences_indexNames (t : Table) (old new : String) :
    (t.renameReferences old new).indexNames = t.indexNames := by
  simp only [indexNames, lookupOrder, List.flatMap_cons, List.flatMap_nil, renameReferences_indexesOf,
    List.filterMap_append, List.filterMap_map]
  rfl

theorem renameReferences_symbols (t : Table) (old new : String) :
    (t.renameReferences old new).symbols = t.symbols := by
  simp only [symbols, renameReferences, List.filterMap_map]
  rfl

theorem KeyPart.renameColumn_self (n : String) (p : KeyPart) : p.renameColumn n n = p := by
  rw [KeyPart.renameColumn]
  split
  · rename_i h; cases h; rfl
  · rfl

theorem renameReferences_self (t : Table) (n : String) : t.renameReferences n n = t := by
  have hp : KeyPart.renameColumn n n = id := funext (KeyPart.renameColumn_self n)
  have hi (i : Index) : i.renameColumn n n = i := by simp [Index.renameColumn, hp]
  have hk (k : ForeignKey) : k.renameColumn n n = k := by simp [ForeignKey.renameColumn, hp]
  simp [renameReferences, hi, hk]

/-- A column in the place of another, the keys of which follow it to its name. -/
theorem exchange_wellFormed {pre post columns : List Column} {old e : Column} (h : t.WellFormed)
    (hs : ColumnSplit name t.columns pre old post) (he : e.inline = {})
    (hn : e.name = name ∨ e.name ∉ t.columnNames) (hp : columns.Perm (e :: (pre ++ post))) :
    ({ t.renameReferences name e.name with columns := columns } : Table).WellFormed := by
  have hnames : t.columnNames.Perm (name :: (pre ++ post).map (·.name)) := by
    have := hs.perm.map (·.name)
    rwa [List.map_cons, hs.key_eq] at this
  have hnames' : (columns.map (·.name)).Perm (e.name :: (pre ++ post).map (·.name)) := hp.map _
  have hdistinct := List.nodup_cons.1 (hnames.nodup_iff.1 h.columns_distinct)
  exact {
    columns_distinct := by
      refine hnames'.nodup_iff.2 (List.nodup_cons.2 ⟨?_, hdistinct.2⟩)
      rcases hn with hn | hn
      · rw [hn]; exact hdistinct.1
      · exact fun hm => hn (hnames.mem_iff.2 (List.mem_cons_of_mem _ hm))
    keys_nonempty := fun parts hparts => by
      obtain ⟨parts', hm, rfl⟩ := mem_keyParts_renameReferences hparts
      simpa using h.keys_nonempty parts' hm
    indexes_distinct := (renameReferences_indexNames t name e.name).symm ▸ h.indexes_distinct
    symbols_distinct := (renameReferences_symbols t name e.name).symm ▸ h.symbols_distinct
    nothing_pending := fun d hd => by
      rcases List.mem_cons.1 (hp.mem_iff.1 hd) with rfl | hd
      · exact he
      · exact h.nothing_pending d (hs.perm.mem_iff.2 (List.mem_cons_of_mem _ hd))
    keys_resolved := fun parts hparts p hm => by
      obtain ⟨parts', hparts', rfl⟩ := mem_keyParts_renameReferences hparts
      obtain ⟨q, hq, rfl⟩ := List.mem_map.1 hm
      apply hnames'.mem_iff.2
      have hold := hnames.mem_iff.1 (h.keys_resolved parts' hparts' q hq)
      rw [KeyPart.renameColumn]
      split
      · exact List.mem_cons_self
      · rename_i hne
        -- It is not renamed, so its column is one of those that stay.
        exact List.mem_cons_of_mem _ ((List.mem_cons.1 hold).resolve_left hne) }

theorem renameColumn_wellFormed {old new : String} (h : t.WellFormed)
    (ht : t.renameColumn old new = .ok t') : t'.WellFormed := by
  rw [renameColumn] at ht
  split at ht
  · cases ht
  · rename_i hold
    split at ht
    · cases ht; exact h
    · split at ht
      · cases ht
      · rename_i hnew
        cases ht
        obtain ⟨pre, c, post, hs⟩ := hasColumn.split (by simpa using hold)
        have hc : c.inline = {} := h.nothing_pending c (by simp [hs.list_eq])
        have := exchange_wellFormed (e := { c with name := new }) h hs hc
          (.inr (by simpa [hasColumn_iff_mem] using hnew)) List.perm_middle
        rw [updateColumn, hs.updateColumns_eq]
        exact this

theorem renameColumn_name {old new : String} (ht : t.renameColumn old new = .ok t') : t'.name = t.name := by
  rw [renameColumn] at ht
  repeat' split at ht
  all_goals cases ht
  all_goals rfl

theorem replaceColumn_cases {placement : Option Placement} (h : t.replaceColumn name c placement = .ok t') :
    ∃ pre old post columns, ColumnSplit name t.columns pre old post ∧
      (c.name = name ∨ c.name ∉ t.columnNames) ∧ columns.Perm (c.bare :: (pre ++ post)) ∧
      t' = ({ t.renameReferences name c.name with columns := columns } : Table).promote c := by
  rw [replaceColumn] at h
  split at h
  · cases h
  · rename_i hold
    split at h
    · cases h
    · rename_i hnew
      split at h
      · cases h
      · rename_i target _
        cases h
        obtain ⟨pre, old, post, hs⟩ := hasColumn.split (by simpa using hold)
        have hn : c.name = name ∨ c.name ∉ t.columnNames := by
          rw [hasColumn_iff_mem] at hnew
          tauto
        have hothers : t.otherColumns name = pre ++ post := hs.eraseP_eq
        have hp : ((place? target c.bare (t.otherColumns name)).getD (t.otherColumns name ++ [c.bare])).Perm
            (c.bare :: (pre ++ post)) := by
          rw [hothers]
          cases hc : place? target c.bare (pre ++ post) with
          | none => exact List.perm_append_singleton _ _
          | some columns => exact place?_perm hc
        refine ⟨pre, old, post, _, hs, hn, hp, ?_⟩
        split
        · rename_i hc
          rw [hc, renameReferences_self]
        · rfl

theorem replaceColumn_wellFormed {placement : Option Placement} (h : t.WellFormed)
    (ht : t.replaceColumn name c placement = .ok t') : t'.WellFormed := by
  obtain ⟨pre, old, post, columns, hs, hn, hp, rfl⟩ := replaceColumn_cases ht
  refine promote_wellFormed (exchange_wellFormed (e := c.bare) h hs rfl hn hp) ?_
  exact List.mem_map.2 ⟨c.bare, hp.mem_iff.2 List.mem_cons_self, rfl⟩

theorem replaceColumn_name {placement : Option Placement} (ht : t.replaceColumn name c placement = .ok t') :
    t'.name = t.name := by
  obtain ⟨pre, old, post, columns, -, -, -, rfl⟩ := replaceColumn_cases ht
  exact promote_name _ c

end DdlCatalog.Table
