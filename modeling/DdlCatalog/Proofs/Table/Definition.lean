import DdlCatalog.Proofs.Table.Calls
import DdlCatalog.Schema.Build

/-!
A table made from a definition has the invariant. While its entries are added a key may be there
before its columns; once the last is added, collection after collection is resolved.
-/

namespace DdlCatalog.Table

open Edit

variable {t t' : Table} {name : String} {kind : IndexKind}

/-! ### Entries -/

/-- What holds between the entries of a definition. -/
def CoherentAs (name : String) (t : Table) : Prop := t.Coherent ∧ t.name = name

theorem declareIndex_coherentAs {i : Index} (h : t.CoherentAs name) (ht : declareIndex kind i t = .ok t') :
    t'.CoherentAs name := by
  rw [declareIndex] at ht
  split at ht
  · cases ht
  · rename_i hi
    obtain ⟨_, hn, ht⟩ := bind_eq_ok_iff.1 ht
    cases ht
    refine ⟨h.1.of_keys (mapIndexes_columns ..) ?_ ?_ ?_, (mapIndexes_name ..).trans h.2⟩
    · intro parts hparts
      rcases mem_keyParts_append hparts with hparts | rfl
      · exact h.1.keys_nonempty parts hparts
      · simpa [Index.isEmpty] using hi
    · exact append_indexNames_nodup h.1.indexes_distinct (checkIndexName_eq_ok_iff.1 hn)
    · rw [mapIndexes_symbols]; exact h.1.symbols_distinct

theorem declareForeignKey_coherentAs {k : ForeignKey} (h : t.CoherentAs name)
    (ht : declareForeignKey k t = .ok t') : t'.CoherentAs name := by
  rw [declareForeignKey] at ht
  split at ht
  · cases ht
  · rename_i hk
    obtain ⟨_, hs, ht⟩ := bind_eq_ok_iff.1 ht
    cases ht
    refine ⟨h.1.of_keys rfl ?_ h.1.indexes_distinct ?_, h.2⟩
    · intro parts hparts
      rcases mem_keyParts_appendForeignKey hparts with hparts | rfl
      · exact h.1.keys_nonempty parts hparts
      · simpa [ForeignKey.isEmpty] using hk
    · exact append_symbols_nodup h.1.symbols_distinct (checkSymbol_eq_ok_iff.1 hs)

theorem declarePrimaryKey_coherentAs {key : Index} (h : t.CoherentAs name)
    (ht : declarePrimaryKey key t = .ok t') : t'.CoherentAs name := by
  rw [declarePrimaryKey] at ht
  split at ht
  · cases ht
  · rename_i hk
    cases ht
    refine ⟨h.1.of_keys rfl ?_ h.1.indexes_distinct h.1.symbols_distinct, h.2⟩
    intro parts hparts
    rcases mem_keyParts_primaryKey hparts with hparts | ⟨k, hk', rfl⟩
    · exact h.1.keys_nonempty parts hparts
    · cases hk'
      simpa [Index.isEmpty] using hk

theorem addEntry_keeps (name : String) (e : TableEntry) : (addEntry e).Keeps (CoherentAs name) := by
  cases e with
  | column d =>
      rw [addEntry, Edits.addColumn_eq]
      exact keeps_step fun t t' h ht => ⟨addColumn_coherent h.1 ht, (addColumn_name ht).trans h.2⟩
  | primaryKey key => exact keeps_step fun t t' h ht => declarePrimaryKey_coherentAs h ht
  | foreignKey k => exact keeps_step fun t t' h ht => declareForeignKey_coherentAs h ht
  | index kind i => exact keeps_step fun t t' h ht => declareIndex_coherentAs h ht

/-! ### Resolution -/

theorem isResolved_iff {parts : List KeyPart} :
    t.isResolved parts = true ↔ ∀ p ∈ parts, p.column ∈ t.columnNames := by
  simp [isResolved, missingColumn?, ← hasColumn_iff_mem]

/-- Looking for keys that do not resolve changes nothing, whatever becomes of those that are found. -/
theorem refuseUnresolved_keeps (P : Table → Prop) (policy : Policy) (keys : Table → List (List KeyPart)) :
    (refuseUnresolved policy keys).Keeps P := by
  intro t h
  exact keeps_forEach (fun c _ => keeps_under policy (keeps_refuse _)) t h

/-- A table on the way of resolution: which of its indexes are resolved, and whether its foreign keys
are. -/
structure Resolving (name : String) (kinds : List IndexKind) (foreign : Bool) (t : Table) : Prop where
  coherentAs : t.CoherentAs name
  indexes_resolved : ∀ kind ∈ kinds, ∀ i ∈ t.indexesOf kind, t.isResolved i.parts = true
  foreignKeys_resolved : foreign = true → ∀ k ∈ t.foreignKeys, t.isResolved k.parts = true

theorem isResolved_mapIndexes (t : Table) (kind : IndexKind) (f : List Index → List Index) (parts : List KeyPart) :
    (t.mapIndexes kind f).isResolved parts = t.isResolved parts := by
  cases kind <;> rfl

theorem Resolving.filter_indexes {kinds : List IndexKind} {foreign : Bool} (h : Resolving name kinds foreign t)
    (kind : IndexKind) :
    Resolving name (kind :: kinds) foreign (t.mapIndexes kind (·.filter fun i => t.isResolved i.parts)) where
  coherentAs := by
    have hf : ((t.indexesOf kind).filter fun i => t.isResolved i.parts).Sublist (t.indexesOf kind) :=
      List.filter_sublist
    refine ⟨h.coherentAs.1.of_keys (mapIndexes_columns ..) ?_ ?_ ?_, (mapIndexes_name ..).trans h.coherentAs.2⟩
    · exact fun parts hparts => h.coherentAs.1.keys_nonempty parts (mem_keyParts_mapIndexes_sublist hf hparts)
    · exact (indexNames_mapIndexes_sublist hf).nodup h.coherentAs.1.indexes_distinct
    · rw [mapIndexes_symbols]; exact h.coherentAs.1.symbols_distinct
  indexes_resolved kind' hkind' i hi := by
    rw [isResolved_mapIndexes]
    rw [indexesOf_mapIndexes] at hi
    split at hi
    · exact (List.mem_filter.1 hi).2
    · rename_i hne
      exact h.indexes_resolved kind' ((List.mem_cons.1 hkind').resolve_left hne) i hi
  foreignKeys_resolved hf k hk := by
    rw [isResolved_mapIndexes]
    exact h.foreignKeys_resolved hf k (by simpa using hk)

theorem resolveIndexes_leads {kinds : List IndexKind} {foreign : Bool} (policy : Policy) (kind : IndexKind) :
    (resolveIndexes policy kind).Leads (Resolving name kinds foreign) (Resolving name (kind :: kinds) foreign) :=
  leads_bind (refuseUnresolved_keeps _ policy _).leads fun _ => leads_modify fun _ h => h.filter_indexes kind

theorem resolveForeignKeys_leads {kinds : List IndexKind} (policy : Policy) :
    (resolveForeignKeys policy).Leads (Resolving name kinds false) (Resolving name kinds true) := by
  refine leads_bind (refuseUnresolved_keeps _ policy _).leads fun _ => leads_modify fun t h => ?_
  have hsub : (t.foreignKeys.filter fun k => t.isResolved k.parts).Sublist t.foreignKeys := List.filter_sublist
  exact {
    coherentAs := by
      refine ⟨h.coherentAs.1.of_keys rfl ?_ h.coherentAs.1.indexes_distinct
        ((hsub.filterMap _).nodup h.coherentAs.1.symbols_distinct), h.coherentAs.2⟩
      exact fun parts hparts => h.coherentAs.1.keys_nonempty parts (mem_keyParts_foreignKeys_sublist hsub hparts)
    indexes_resolved := fun kind hkind i hi => h.indexes_resolved kind hkind i (by cases kind <;> exact hi)
    foreignKeys_resolved := fun _ k hk => (List.mem_filter.1 hk).2 }

/-- With all other keys resolved, the primary key is all that may stand without its columns. -/
theorem Resolving.wellFormedAs {kinds : List IndexKind} (h : Resolving name kinds true t)
    (hall : ∀ kind, kind ∈ kinds) (hp : ∀ key ∈ t.primaryKey, t.isResolved key.parts = true) :
    t.WellFormedAs name := by
  refine ⟨⟨h.coherentAs.1, ?_⟩, h.coherentAs.2⟩
  intro parts hparts
  apply isResolved_iff.1
  rcases mem_keyParts.1 hparts with ⟨key, hk, rfl⟩ | ⟨k, hk, rfl⟩ | ⟨kind, i, hi, rfl⟩
  · exact hp key hk
  · exact h.foreignKeys_resolved rfl k hk
  · exact h.indexes_resolved kind (hall kind) i hi

theorem Resolving.withoutPrimaryKey {kinds : List IndexKind} {foreign : Bool}
    (h : Resolving name kinds foreign t) : Resolving name kinds foreign t.withoutPrimaryKey where
  coherentAs := by
    refine ⟨h.coherentAs.1.of_keys rfl ?_ h.coherentAs.1.indexes_distinct h.coherentAs.1.symbols_distinct,
      h.coherentAs.2⟩
    intro parts hparts
    rcases mem_keyParts_primaryKey hparts with hparts | ⟨k, hk, rfl⟩
    · exact h.coherentAs.1.keys_nonempty parts hparts
    · cases hk
  indexes_resolved kind hkind i hi := h.indexes_resolved kind hkind i (by cases kind <;> exact hi)
  foreignKeys_resolved := h.foreignKeys_resolved

theorem map_requireColumns {β : Type} (g : Column → β) (hg : ∀ c, g c.notNull = g c) (key : Index)
    (columns : List Column) : (requireColumns key columns).map g = columns.map g := by
  rw [requireColumns, List.map_map]
  apply List.map_congr_left
  intro c _
  by_cases hc : key.references c.name <;> simp [hc, hg]

theorem resolvePrimaryKey_leads {kinds : List IndexKind} (policy : Policy) (hall : ∀ kind, kind ∈ kinds) :
    (resolvePrimaryKey policy).Leads (Resolving name kinds true) (WellFormedAs name) := by
  refine leads_bind (refuseUnresolved_keeps _ policy _).leads fun _ => leads_modify fun t h => ?_
  cases hk : t.primaryKey with
  | none => exact h.wellFormedAs hall (by simp [hk])
  | some key =>
      by_cases hr : t.isResolved key.parts = true
      · have hw : t.WellFormedAs name := h.wellFormedAs hall (by simpa [hk] using hr)
        simp only [hr, if_true]
        refine ⟨?_, hw.2⟩
        rw [← hk]
        exact hw.1.of_columns (List.Perm.of_eq (map_requireColumns _ (fun _ => rfl) key t.columns))
      · simp only [hr, Bool.false_eq_true, if_false]
        exact h.withoutPrimaryKey.wellFormedAs hall (by simp [Table.withoutPrimaryKey])

theorem resolve_leads (policy : Policy) : (resolve policy).Leads (CoherentAs name) (WellFormedAs name) := by
  have hstart (t : Table) (h : t.CoherentAs name) : Resolving name [] false t :=
    ⟨h, by simp, by simp⟩
  have hall (kind : IndexKind) : kind ∈ [.unique, .plain, .spatial, .fulltext] := by cases kind <;> simp
  -- Every collection adds itself to what is resolved; the primary key needs all of them.
  have hchain : (resolve policy).Leads (Resolving name [] false) (WellFormedAs name) :=
    leads_bind (resolveIndexes_leads policy .fulltext) fun _ =>
      leads_bind (resolveIndexes_leads policy .spatial) fun _ =>
        leads_bind (resolveIndexes_leads policy .plain) fun _ =>
          leads_bind (resolveIndexes_leads policy .unique) fun _ =>
            leads_bind (resolveForeignKeys_leads policy) fun _ => resolvePrimaryKey_leads policy hall
  exact fun t a h hr => hchain t a (hstart t h) hr

/-! ### Definitions -/

theorem addDefinition_leads (policy : Policy) (d : TableDefinition) :
    (addDefinition policy d).Leads (CoherentAs name) (WellFormedAs name) := by
  refine leads_bind (Keeps.leads ?_) fun _ => leads_bind (resolve_leads policy) fun _ => leads_modify ?_
  · exact keeps_forEach fun e _ => keeps_under policy (addEntry_keeps name e)
  · intro t h
    split
    · exact h
    · exact ⟨mergeOptions_wellFormed h.1 d.options, h.2⟩

/-- Under either policy: a definition that makes a table makes one of which the invariant holds. -/
theorem ofDefinition_wellFormedAs {policy : Policy} {d : TableDefinition}
    (h : (ofDefinition policy d).result = .ok ()) : (ofDefinition policy d).state.WellFormedAs d.table :=
  addDefinition_leads policy d _ () ⟨(empty_wellFormed d.table).toCoherent, rfl⟩ h

theorem ofLike_wellFormedAs {source : Table} (h : source.WellFormed) (d : LikeDefinition) :
    (source.ofLike d).WellFormedAs d.table :=
  ⟨setName_wellFormed h d.table, rfl⟩

end DdlCatalog.Table
