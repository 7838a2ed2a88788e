import DdlCatalog.Proofs.Table.ColumnEdits

/-!
Edits of the keys of a table keep its invariant, and validation refuses no table that has it.
-/

namespace DdlCatalog.Table

variable {t t' : Table} {name : String} {kind : IndexKind} {i : Index}

/-! ### Checks -/

/-- What a list of columns takes to be that of a key. -/
def Supports (t : Table) (parts : List KeyPart) : Prop :=
  parts ≠ [] ∧ ∀ p ∈ parts, p.column ∈ t.columnNames

theorem WellFormed.supports (h : t.WellFormed) {parts : List KeyPart} (hp : parts ∈ t.keyParts) :
    t.Supports parts :=
  ⟨h.keys_nonempty parts hp, h.keys_resolved parts hp⟩

theorem checkParts_eq_ok_iff {parts : List KeyPart} : t.checkParts parts = .ok () ↔ t.Supports parts := by
  unfold checkParts Supports
  cases parts with
  | nil => simp
  | cons p ps =>
      cases hf : (p :: ps).find? fun p => !t.hasColumn p.column with
      | none =>
          rw [List.find?_eq_none] at hf
          simpa [hasColumn_iff_mem] using hf
      | some q =>
          have hq : q.column ∉ t.columnNames := by
            simpa [hasColumn_eq_false_iff] using List.find?_some hf
          simp only [List.isEmpty_cons, Bool.false_eq_true, if_false, reduceCtorEq, false_iff, not_and]
          exact fun _ hall => hq (hall q (List.mem_of_find?_eq_some hf))

theorem checkIndexName_eq_ok_iff {name : Option String} :
    t.checkIndexName name = .ok () ↔ ∀ n ∈ name, n ∉ t.indexNames := by
  cases name with
  | none => simp [checkIndexName]
  | some n =>
      have h : (t.index? n).isSome = true ↔ n ∈ t.indexNames := index?_isSome_iff
      by_cases hn : n ∈ t.indexNames <;> simp_all [checkIndexName]

theorem checkSymbol_eq_ok_iff {symbol : Option String} :
    t.checkSymbol symbol = .ok () ↔ ∀ s ∈ symbol, s ∉ t.symbols := by
  cases symbol with
  | none => simp [checkSymbol]
  | some s =>
      have h : (t.foreignKey? s).isSome = true ↔ s ∈ t.symbols := foreignKey?_isSome_iff
      by_cases hs : s ∈ t.symbols <;> simp_all [checkSymbol]

/-- Keys changed under columns that stay. -/
theorem Coherent.of_keys (h : t.Coherent) (hcolumns : t'.columns = t.columns)
    (hkeys : ∀ parts ∈ t'.keyParts, parts ≠ []) (hindexes : t'.indexNames.Nodup)
    (hsymbols : t'.symbols.Nodup) : t'.Coherent where
  columns_distinct := by rw [columnNames, hcolumns]; exact h.columns_distinct
  keys_nonempty := hkeys
  indexes_distinct := hindexes
  symbols_distinct := hsymbols
  nothing_pending := by rw [hcolumns]; exact h.nothing_pending

theorem WellFormed.of_keys (h : t.WellFormed) (hcolumns : t'.columns = t.columns)
    (hkeys : ∀ parts ∈ t'.keyParts, t.Supports parts) (hindexes : t'.indexNames.Nodup)
    (hsymbols : t'.symbols.Nodup) : t'.WellFormed where
  toCoherent := h.toCoherent.of_keys hcolumns (fun parts hp => (hkeys parts hp).1) hindexes hsymbols
  keys_resolved parts hp := by rw [columnNames, hcolumns]; exact (hkeys parts hp).2

/-! ### Indexes -/

theorem pushIndex_eq_ok_iff : t.pushIndex kind i = .ok t' ↔
    t.Supports i.parts ∧ (∀ n ∈ i.name, n ∉ t.indexNames) ∧ t' = t.mapIndexes kind (· ++ [i]) := by
  simp only [pushIndex, Edit.bind_eq_ok_iff, ← checkParts_eq_ok_iff, ← checkIndexName_eq_ok_iff]
  constructor
  · rintro ⟨_, hp, _, hn, h⟩
    cases h
    exact ⟨hp, hn, rfl⟩
  · rintro ⟨hp, hn, rfl⟩
    exact ⟨(), hp, (), hn, rfl⟩

theorem mapIndexes_symbols (t : Table) (kind : IndexKind) (f : List Index → List Index) :
    (t.mapIndexes kind f).symbols = t.symbols := by
  rw [symbols, mapIndexes_foreignKeys, symbols]

theorem indexNames_append (t : Table) (kind : IndexKind) (i : Index) :
    (t.mapIndexes kind (· ++ [i])).indexNames.Perm (i.name.toList ++ t.indexNames) := by
  obtain ⟨others, hold, hnew⟩ := indexNames_perm t kind
  refine (hnew _).trans (List.Perm.trans ?_ (hold.symm.append_left _))
  have hone : ([i].filterMap (·.name)) = i.name.toList := by cases hi : i.name <;> simp [hi]
  rw [List.filterMap_append, hone, ← List.append_assoc]
  exact List.perm_append_comm.append_right others

theorem mem_keyParts_append {parts : List KeyPart} (h : parts ∈ (t.mapIndexes kind (· ++ [i])).keyParts) :
    parts ∈ t.keyParts ∨ parts = i.parts := by
  rcases mem_keyParts_mapIndexes h with h | ⟨j, hj, rfl⟩
  · exact .inl h
  · rcases List.mem_append.1 hj with hj | hj
    · exact .inl (index_mem_keyParts hj)
    · cases List.mem_singleton.1 hj; exact .inr rfl

theorem nodup_toList_append {n : Option String} {names : List String} (hd : names.Nodup)
    (hn : ∀ a ∈ n, a ∉ names) : (n.toList ++ names).Nodup := by
  cases n with
  | none => exact hd
  | some a => exact List.nodup_cons.2 ⟨hn a rfl, hd⟩

theorem append_indexNames_nodup (h : t.indexNames.Nodup) (hn : ∀ n ∈ i.name, n ∉ t.indexNames) :
    (t.mapIndexes kind (· ++ [i])).indexNames.Nodup :=
  (indexNames_append t kind i).nodup_iff.2 (nodup_toList_append h hn)

theorem pushIndex_wellFormed (h : t.WellFormed) (ht : t.pushIndex kind i = .ok t') : t'.WellFormed := by
  obtain ⟨hp, hn, rfl⟩ := pushIndex_eq_ok_iff.1 ht
  refine h.of_keys (mapIndexes_columns ..) ?_ (append_indexNames_nodup h.indexes_distinct hn) ?_
  · intro parts hparts
    rcases mem_keyParts_append hparts with hparts | rfl
    · exact h.supports hparts
    · exact hp
  · rw [mapIndexes_symbols]; exact h.symbols_distinct

theorem pushIndex_name (ht : t.pushIndex kind i = .ok t') : t'.name = t.name := by
  obtain ⟨-, -, rfl⟩ := pushIndex_eq_ok_iff.1 ht
  exact mapIndexes_name ..

/-- Indexes left out of a collection. -/
theorem mem_keyParts_mapIndexes_sublist {f : List Index → List Index} {parts : List KeyPart}
    (hf : (f (t.indexesOf kind)).Sublist (t.indexesOf kind)) (h : parts ∈ (t.mapIndexes kind f).keyParts) :
    parts ∈ t.keyParts := by
  rcases mem_keyParts_mapIndexes h with h | ⟨j, hj, rfl⟩
  · exact h
  · exact index_mem_keyParts (hf.subset hj)

theorem indexNames_mapIndexes_sublist {f : List Index → List Index}
    (hf : (f (t.indexesOf kind)).Sublist (t.indexesOf kind)) :
    (t.mapIndexes kind f).indexNames.Sublist t.indexNames := by
  apply indexNames_sublist
  intro kind'
  rw [indexesOf_mapIndexes]
  split
  · rename_i hk; rw [hk]; exact hf.filterMap _
  · exact List.Sublist.refl _

theorem dropIndex_wellFormed (h : t.WellFormed) (ht : t.dropIndex name = .ok (kind, t')) : t'.WellFormed := by
  rw [dropIndex] at ht
  split at ht
  · cases ht
  · rename_i kind' i hi
    cases ht
    have hf : ((t.indexesOf kind).eraseP (·.name == some name)).Sublist (t.indexesOf kind) := List.eraseP_sublist
    refine h.of_keys (mapIndexes_columns ..) ?_ ?_ ?_
    · exact fun parts hparts => h.supports (mem_keyParts_mapIndexes_sublist hf hparts)
    · exact (indexNames_mapIndexes_sublist hf).nodup h.indexes_distinct
    · rw [mapIndexes_symbols]; exact h.symbols_distinct

theorem dropIndex_name (ht : t.dropIndex name = .ok (kind, t')) : t'.name = t.name := by
  rw [dropIndex] at ht
  split at ht <;> cases ht
  exact mapIndexes_name ..

theorem map_renameFirst {β : Type} (g : Index → β) (hg : ∀ (i : Index) n, g { i with name := some n } = g i)
    (old new : String) (indexes : List Index) : (renameFirst old new indexes).map g = indexes.map g := by
  induction indexes with
  | nil => rfl
  | cons i is ih =>
      by_cases hi : i.name = some old
      · simp [renameFirst, hi, hg]
      · simp [renameFirst, hi, ih]

/-- The names of a collection before and after the first index of a name takes another. -/
theorem renameFirst_names {old : String} (new : String) {indexes : List Index}
    (h : indexes.find? (·.name == some old) = some i) : ∃ others : List String,
      (indexes.filterMap (·.name)).Perm (old :: others) ∧
        ((renameFirst old new indexes).filterMap (·.name)).Perm (new :: others) := by
  induction indexes with
  | nil => simp at h
  | cons j js ih =>
      by_cases hj : j.name = some old
      · exact ⟨js.filterMap (·.name), by simp [hj], by simp [renameFirst, hj]⟩
      · obtain ⟨others, hold, hnew⟩ := ih (by simpa [hj] using h)
        rw [renameFirst, if_neg hj]
        cases hn : j.name with
        | none =>
            rw [List.filterMap_cons_none hn, List.filterMap_cons_none hn]
            exact ⟨others, hold, hnew⟩
        | some n =>
            rw [List.filterMap_cons_some hn, List.filterMap_cons_some hn]
            exact ⟨n :: others, (hold.cons n).trans (.swap ..), (hnew.cons n).trans (.swap ..)⟩

theorem mem_keyParts_renameFirst {old new : String} {parts : List KeyPart}
    (h : parts ∈ (t.mapIndexes kind (renameFirst old new)).keyParts) : parts ∈ t.keyParts := by
  rcases mem_keyParts_mapIndexes h with h | ⟨j, hj, rfl⟩
  · exact h
  · have hm := List.mem_map_of_mem (f := fun k : Index => k.parts) hj
    rw [map_renameFirst _ (fun _ _ => rfl)] at hm
    obtain ⟨k, hk, hkp⟩ := List.mem_map.1 hm
    exact mem_keyParts.2 (.inr (.inr ⟨kind, k, hk, hkp⟩))

/-- The name that goes and the one that comes stand before the same others. -/
theorem renameFirst_indexNames_nodup {old new : String} (h : t.indexNames.Nodup)
    (hi : t.index? old = some (kind, i)) (hnew : new ∉ t.indexNames) :
    (t.mapIndexes kind (renameFirst old new)).indexNames.Nodup := by
  obtain ⟨others, hbefore, hafter⟩ := indexNames_perm t kind
  obtain ⟨rest, hold, hrenamed⟩ := renameFirst_names new (index?_some hi)
  have hb : t.indexNames.Perm (old :: (rest ++ others)) := hbefore.trans (hold.append_right others)
  have ha : (t.mapIndexes kind (renameFirst old new)).indexNames.Perm (new :: (rest ++ others)) :=
    (hafter _).trans (hrenamed.append_right others)
  have hrest : (rest ++ others).Nodup := (List.nodup_cons.1 (hb.nodup_iff.1 h)).2
  have hfresh : new ∉ rest ++ others := fun hm => hnew (hb.mem_iff.2 (List.mem_cons_of_mem _ hm))
  exact ha.nodup_iff.2 (List.nodup_cons.2 ⟨hfresh, hrest⟩)

theorem renameIndex_wellFormed {old new : String} (h : t.WellFormed) (ht : t.renameIndex old new = .ok t') :
    t'.WellFormed := by
  rw [renameIndex] at ht
  split at ht
  · cases ht
  · rename_i kind i hi
    split at ht
    · cases ht; exact h
    · split at ht
      · cases ht
      · rename_i hnew
        cases ht
        rw [index?_isSome_iff] at hnew
        refine h.of_keys (mapIndexes_columns ..) ?_ ?_ ?_
        · exact fun parts hparts => h.supports (mem_keyParts_renameFirst hparts)
        · exact renameFirst_indexNames_nodup h.indexes_distinct hi hnew
        · rw [mapIndexes_symbols]; exact h.symbols_distinct

theorem renameIndex_name {old new : String} (ht : t.renameIndex old new = .ok t') : t'.name = t.name := by
  rw [renameIndex] at ht
  repeat' split at ht
  all_goals cases ht
  · rfl
  · exact mapIndexes_name ..

/-! ### Foreign keys -/

theorem pushForeignKey_eq_ok_iff {k : ForeignKey} : t.pushForeignKey k = .ok t' ↔
    t.Supports k.parts ∧ (∀ s ∈ k.symbol, s ∉ t.symbols) ∧ t' = { t with foreignKeys := t.foreignKeys ++ [k] } := by
  simp only [pushForeignKey, Edit.bind_eq_ok_iff, ← checkParts_eq_ok_iff, ← checkSymbol_eq_ok_iff]
  constructor
  · rintro ⟨_, hp, _, hs, h⟩
    cases h
    exact ⟨hp, hs, rfl⟩
  · rintro ⟨hp, hs, rfl⟩
    exact ⟨(), hp, (), hs, rfl⟩

theorem mem_keyParts_foreignKeys {keys : List ForeignKey} {parts : List KeyPart}
    (h : parts ∈ ({ t with foreignKeys := keys } : Table).keyParts) :
    parts ∈ t.keyParts ∨ ∃ k ∈ keys, k.parts = parts := by
  rw [mem_keyParts] at h ⊢
  rcases h with h | h | ⟨kind, i, hi, hp⟩
  · exact .inl (.inl h)
  · exact .inr h
  · exact .inl (.inr (.inr ⟨kind, i, by cases kind <;> exact hi, hp⟩))

theorem mem_keyParts_appendForeignKey {k : ForeignKey} {parts : List KeyPart}
    (h : parts ∈ ({ t with foreignKeys := t.foreignKeys ++ [k] } : Table).keyParts) :
    parts ∈ t.keyParts ∨ parts = k.parts := by
  rcases mem_keyParts_foreignKeys h with h | ⟨l, hl, rfl⟩
  · exact .inl h
  · rcases List.mem_append.1 hl with hl | hl
    · exact .inl (foreignKey_mem_keyParts hl)
    · cases List.mem_singleton.1 hl; exact .inr rfl

/-- Foreign keys left out. -/
theorem mem_keyParts_foreignKeys_sublist {keys : List ForeignKey} {parts : List KeyPart}
    (hk : keys.Sublist t.foreignKeys) (h : parts ∈ ({ t with foreignKeys := keys } : Table).keyParts) :
    parts ∈ t.keyParts := by
  rcases mem_keyParts_foreignKeys h with h | ⟨k, hk', rfl⟩
  · exact h
  · exact foreignKey_mem_keyParts (hk.subset hk')

theorem append_symbols_nodup {k : ForeignKey} (h : t.symbols.Nodup) (hk : ∀ s ∈ k.symbol, s ∉ t.symbols) :
    ({ t with foreignKeys := t.foreignKeys ++ [k] } : Table).symbols.Nodup := by
  have hone : ([k].filterMap (·.symbol)) = k.symbol.toList := by cases hs : k.symbol <;> simp [hs]
  simp only [symbols, List.filterMap_append, hone]
  exact List.perm_append_comm.nodup_iff.2 (nodup_toList_append h hk)

theorem pushForeignKey_wellFormed {k : ForeignKey} (h : t.WellFormed) (ht : t.pushForeignKey k = .ok t') :
    t'.WellFormed := by
  obtain ⟨hp, hs, rfl⟩ := pushForeignKey_eq_ok_iff.1 ht
  refine h.of_keys rfl ?_ h.indexes_distinct (append_symbols_nodup h.symbols_distinct hs)
  intro parts hparts
  rcases mem_keyParts_appendForeignKey hparts with hparts | rfl
  · exact h.supports hparts
  · exact hp

theorem pushForeignKey_name {k : ForeignKey} (ht : t.pushForeignKey k = .ok t') : t'.name = t.name := by
  obtain ⟨-, -, rfl⟩ := pushForeignKey_eq_ok_iff.1 ht
  rfl

theorem dropForeignKey_wellFormed {symbol : String} {k : ForeignKey} (h : t.WellFormed)
    (ht : t.dropForeignKey symbol = .ok (k, t')) : t'.WellFormed := by
  rw [dropForeignKey] at ht
  split at ht
  · cases ht
  · cases ht
    have hk : (t.foreignKeys.eraseP (·.symbol == some symbol)).Sublist t.foreignKeys := List.eraseP_sublist
    refine h.of_keys rfl ?_ h.indexes_distinct ((hk.filterMap _).nodup h.symbols_distinct)
    exact fun parts hparts => h.supports (mem_keyParts_foreignKeys_sublist hk hparts)

theorem dropForeignKey_name {symbol : String} {k : ForeignKey} (ht : t.dropForeignKey symbol = .ok (k, t')) :
    t'.name = t.name := by
  rw [dropForeignKey] at ht
  split at ht <;> cases ht
  rfl

/-! ### The primary key -/

theorem mem_keyParts_primaryKey {key : Option Index} {parts : List KeyPart}
    (h : parts ∈ ({ t with primaryKey := key } : Table).keyParts) :
    parts ∈ t.keyParts ∨ ∃ k, key = some k ∧ k.parts = parts := by
  rw [mem_keyParts] at h ⊢
  rcases h with h | h | ⟨kind, i, hi, hp⟩
  · exact .inr h
  · exact .inl (.inr (.inl h))
  · exact .inl (.inr (.inr ⟨kind, i, by cases kind <;> exact hi, hp⟩))

theorem primaryKey_wellFormed (h : t.WellFormed) {key : Option Index} (hk : ∀ k ∈ key, t.Supports k.parts) :
    ({ t with primaryKey := key } : Table).WellFormed := by
  refine h.of_keys rfl ?_ h.indexes_distinct h.symbols_distinct
  intro parts hparts
  rcases mem_keyParts_primaryKey hparts with hparts | ⟨k, rfl, rfl⟩
  · exact h.supports hparts
  · exact hk k rfl

theorem attachPrimaryKey_wellFormed (h : t.WellFormed) {key : Index} (hk : t.Supports key.parts) :
    (t.attachPrimaryKey key).WellFormed := by
  have hkey : ({ t with primaryKey := some key } : Table).WellFormed :=
    primaryKey_wellFormed h (by simpa using hk)
  exact hkey.of_columns (List.Perm.of_eq (map_attachPrimaryKey _ (fun _ => rfl) t key))

theorem withoutPrimaryKey_wellFormed (h : t.WellFormed) : t.withoutPrimaryKey.WellFormed :=
  primaryKey_wellFormed h (by simp)

theorem setPrimaryKey_eq_ok_iff {key : Index} : t.setPrimaryKey key = .ok t' ↔
    t.Supports key.parts ∧ t' = t.attachPrimaryKey key := by
  simp only [setPrimaryKey, Edit.bind_eq_ok_iff, ← checkParts_eq_ok_iff]
  constructor
  · rintro ⟨_, hp, h⟩
    cases h
    exact ⟨hp, rfl⟩
  · rintro ⟨hp, rfl⟩
    exact ⟨(), hp, rfl⟩

theorem setPrimaryKey_wellFormed {key : Index} (h : t.WellFormed) (ht : t.setPrimaryKey key = .ok t') :
    t'.WellFormed := by
  obtain ⟨hk, rfl⟩ := setPrimaryKey_eq_ok_iff.1 ht
  exact attachPrimaryKey_wellFormed h hk

theorem setPrimaryKey_name {key : Index} (ht : t.setPrimaryKey key = .ok t') : t'.name = t.name := by
  obtain ⟨-, rfl⟩ := setPrimaryKey_eq_ok_iff.1 ht
  rfl

theorem addPrimaryKey_wellFormed {key : Index} (h : t.WellFormed) (ht : t.addPrimaryKey key = .ok t') :
    t'.WellFormed := by
  rw [addPrimaryKey] at ht
  split at ht
  · cases ht
  · exact setPrimaryKey_wellFormed h ht

theorem addPrimaryKey_name {key : Index} (ht : t.addPrimaryKey key = .ok t') : t'.name = t.name := by
  rw [addPrimaryKey] at ht
  split at ht
  · cases ht
  · exact setPrimaryKey_name ht

theorem dropPrimaryKey_wellFormed (h : t.WellFormed) (ht : t.dropPrimaryKey = .ok t') : t'.WellFormed := by
  rw [dropPrimaryKey] at ht
  split at ht
  · cases ht; exact withoutPrimaryKey_wellFormed h
  · cases ht

theorem dropPrimaryKey_name (ht : t.dropPrimaryKey = .ok t') : t'.name = t.name := by
  rw [dropPrimaryKey] at ht
  split at ht <;> cases ht
  rfl

/-! ### Options and name -/

theorem setOptions_wellFormed (h : t.WellFormed) (options : TableOptions) : (t.setOptions options).WellFormed :=
  h.of_keys rfl (fun _ hp => h.supports hp) h.indexes_distinct h.symbols_distinct

theorem mergeOptions_wellFormed (h : t.WellFormed) (options : List TableOption) :
    (t.mergeOptions options).WellFormed :=
  setOptions_wellFormed h _

theorem setName_wellFormed (h : t.WellFormed) (name : String) : (t.setName name).WellFormed :=
  h.of_keys rfl (fun _ hp => h.supports hp) h.indexes_distinct h.symbols_distinct

/-! ### Validation -/

theorem firstRepeated?_eq_none_iff {seen names : List String} :
    firstRepeated? seen names = none ↔ names.Nodup ∧ ∀ n ∈ names, n ∉ seen := by
  induction names generalizing seen with
  | nil => simp [firstRepeated?]
  | cons n ns ih =>
      by_cases hn : n ∈ seen
      · simp [firstRepeated?, hn]
      · have hseen : firstRepeated? seen (n :: ns) = firstRepeated? (n :: seen) ns := by
          simp [firstRepeated?, hn]
        rw [hseen, ih, List.nodup_cons]
        simp only [List.mem_cons, not_or, forall_eq_or_imp, hn, not_false_eq_true, true_and]
        constructor
        · rintro ⟨hd, hall⟩
          exact ⟨⟨fun hm => (hall n hm).1 rfl, hd⟩, fun m hm => (hall m hm).2⟩
        · rintro ⟨⟨hm, hd⟩, hall⟩
          exact ⟨hd, fun m hm' => ⟨fun he => hm (he ▸ hm'), hall m hm'⟩⟩

theorem firstRepeated?_nil_iff {names : List String} : firstRepeated? [] names = none ↔ names.Nodup := by
  simp [firstRepeated?_eq_none_iff]

theorem forM_eq_ok_iff {α : Type} {check : α → Except ReferenceError Unit} {as : List α} :
    forM as check = .ok () ↔ ∀ a ∈ as, check a = .ok () := by
  induction as with
  | nil => simp [pure, Except.pure]
  | cons a as ih =>
      rw [List.forM_cons]
      cases ha : check a with
      | error r => simp [ha]
      | ok _ => simp [ha, ih]

/-- Validation sees repeated columns, repeated indexes and keys that do not resolve. -/
theorem validate_eq_ok_iff : t.validate = .ok () ↔
    t.columnNames.Nodup ∧ (∀ parts ∈ t.keyParts, t.Supports parts) ∧ t.indexNames.Nodup := by
  have hcolumns : firstRepeated? [] t.columnNames = none ↔ t.columnNames.Nodup := firstRepeated?_nil_iff
  have hindexes : firstRepeated? [] t.indexNames = none ↔ t.indexNames.Nodup := firstRepeated?_nil_iff
  have hkeys : t.keyParts.forM t.checkParts = .ok () ↔ ∀ parts ∈ t.keyParts, t.Supports parts :=
    forM_eq_ok_iff.trans (by simp only [checkParts_eq_ok_iff])
  rw [← hcolumns, ← hkeys, ← hindexes, validate, ← columnNames]
  cases firstRepeated? [] t.columnNames with
  | some n => simp [throw, throwThe, MonadExceptOf.throw]
  | none =>
      cases t.keyParts.forM t.checkParts with
      | error r => simp
      | ok _ =>
          cases firstRepeated? [] t.indexNames with
          | some n => simp [throw, throwThe, MonadExceptOf.throw]
          | none => simp

theorem WellFormed.validate_eq_ok (h : t.WellFormed) : t.validate = .ok () :=
  validate_eq_ok_iff.2 ⟨h.columns_distinct, fun _ hp => h.supports hp, h.indexes_distinct⟩

end DdlCatalog.Table
