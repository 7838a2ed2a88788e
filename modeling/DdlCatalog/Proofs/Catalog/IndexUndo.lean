import DdlCatalog.Proofs.Catalog.Batches

/-!
An index that a statement creates is the one of its name, in whichever collection it stands, and dropping the
name takes it out again. Only where the name is that of the primary key does the drop go elsewhere.
-/

namespace DdlCatalog.Table

variable {t : Table} {kind : IndexKind} {i : Index} {name : String}

theorem mem_indexNames : name ∈ t.indexNames ↔ ∃ kind, ∃ j ∈ t.indexesOf kind, j.name = some name := by
  simp only [indexNames, List.mem_filterMap, List.mem_flatMap]
  constructor
  · rintro ⟨j, ⟨kind, -, hj⟩, hn⟩
    exact ⟨kind, j, hj, hn⟩
  · rintro ⟨kind, j, hj, hn⟩
    exact ⟨j, ⟨kind, by cases kind <;> simp [lookupOrder], hj⟩, hn⟩

/-- An index whose name was free is the one found under it, though other collections are looked at first. -/
theorem index?_append (hname : i.name = some name) (hfree : name ∉ t.indexNames) :
    (t.mapIndexes kind (· ++ [i])).index? name = some (kind, i) := by
  have hothers (kind' : IndexKind) : ∀ j ∈ t.indexesOf kind', j.name ≠ some name :=
    fun j hj hn => hfree (mem_indexNames.2 ⟨kind', j, hj, hn⟩)
  have hnamed : name ∈ (t.mapIndexes kind (· ++ [i])).indexNames :=
    mem_indexNames.2 ⟨kind, i, by simp [indexesOf_mapIndexes], hname⟩
  obtain ⟨⟨kind', j⟩, hj⟩ := Option.isSome_iff_exists.1 (index?_isSome_iff.2 hnamed)
  have hfound := index?_some hj
  rw [indexesOf_mapIndexes] at hfound
  split at hfound
  · rename_i hkind
    have hnone : (t.indexesOf kind).find? (·.name == some name) = none := by simpa using hothers kind
    have hlast : [i].find? (·.name == some name) = some i := by simp [hname]
    rw [List.find?_append, hnone, Option.none_or, hlast] at hfound
    rw [hj, hkind, ← Option.some.inj hfound]
  · have hold : j.name = some name := by simpa using List.find?_some hfound
    exact absurd hold (hothers kind' j (List.mem_of_find?_eq_some hfound))

theorem mapIndexes_append_eraseP (hname : i.name = some name) (hfree : name ∉ t.indexNames) :
    (t.mapIndexes kind (· ++ [i])).mapIndexes kind (·.eraseP (·.name == some name)) = t := by
  have hothers : ∀ j ∈ t.indexesOf kind, ¬ (j.name == some name) = true :=
    fun j hj hn => hfree (mem_indexNames.2 ⟨kind, j, hj, by simpa using hn⟩)
  have herase : (t.indexesOf kind ++ [i]).eraseP (·.name == some name) = t.indexesOf kind := by
    rw [List.eraseP_append_right [i] hothers]
    simp [hname]
  refine ext_kinds (by simp) (by simp) (by simp) (by simp) (fun kind' => ?_) ?_
  · rw [indexesOf_mapIndexes, indexesOf_mapIndexes, indexesOf_mapIndexes, if_pos rfl, herase]
    split
    · rename_i hkind; rw [hkind]
    · rfl
  · cases kind <;> rfl

theorem dropIndex_append (hname : i.name = some name) (hfree : name ∉ t.indexNames) :
    (t.mapIndexes kind (· ++ [i])).dropIndex name = .ok (kind, t) := by
  rw [dropIndex, index?_append hname hfree]
  simp only [mapIndexes_append_eraseP hname hfree]

theorem mapIndexes_append_ne (t : Table) (kind : IndexKind) (i : Index) : t.mapIndexes kind (· ++ [i]) ≠ t := by
  intro h
  have hkind := congrArg (fun t => (t.indexesOf kind).length) h
  simp [indexesOf_mapIndexes] at hkind

/-- The names under which the primary key is dropped. -/
def NamesPrimaryKey (name : String) : Prop := name.toLower = "primary"

instance (name : String) : Decidable (NamesPrimaryKey name) := inferInstanceAs (Decidable (_ = _))

/-- No drop under a name of the primary key touches an index. -/
theorem dropIndex_indexesOf (hprimary : NamesPrimaryKey name) (t : Table) (kind : IndexKind) :
    ((Edits.dropIndex name).run t).state.indexesOf kind = t.indexesOf kind := by
  rw [Edits.dropIndex, if_pos (by simpa [NamesPrimaryKey] using hprimary), Edits.dropPrimaryKey_eq, Edit.run_quiet,
    dropPrimaryKey]
  split
  · rfl
  · rename_i hdropped
    split at hdropped
    · cases hdropped; cases kind <;> rfl
    · cases hdropped

end DdlCatalog.Table

namespace DdlCatalog.Catalog

open Edit Table

variable {c : Catalog} {table name : String} {kind : IndexKind} {i : Index}

/-- What a statement on an index comes to where the table takes it. -/
theorem run_under_editTable {policy : Policy} {e : Edit Table Unit} {t t' : Table} (ht : c.table? table = some t)
    (he : e.run t = ⟨.ok (), t', []⟩) : (under policy (editTable table e)).run c = ⟨.ok (), c.set table t', []⟩ := by
  have hrun : (editTable table e).run c = ⟨.ok (), c.set table t', []⟩ := by rw [run_editTable, ht]; simp only [he]
  rw [run_under, hrun]
  cases policy <;> rfl

/-- The index is in its table, behind those of its kind, once the statement that creates it is run. -/
def IndexAdded (c : Catalog) (table : String) (kind : IndexKind) (i : Index) : Prop :=
  ∃ t, c.table? table = some t ∧
    ((apply (.createIndex table kind i)).run c).state.table? table = some (t.mapIndexes kind (· ++ [i]))

/-- An index is added where the table takes it, and what the statement leaves is the catalog with that table. -/
theorem IndexAdded.run (h : c.WellFormed) (hadded : c.IndexAdded table kind i) : ∃ t, c.table? table = some t ∧
    t.pushIndex kind i = .ok (t.mapIndexes kind (· ++ [i])) ∧
    (apply (.createIndex table kind i)).run c =
      ⟨.ok (), c.set table (t.mapIndexes kind (· ++ [i])), [.applying (Statement.createIndex table kind i).kind]⟩ := by
  obtain ⟨t, ht, hafter⟩ := hadded
  rw [run_apply, applyStatement, Table.Edits.pushIndex_eq] at hafter ⊢
  refine ⟨t, ht, ?_⟩
  cases hpush : t.pushIndex kind i with
  | error r =>
      -- A table that refuses the index stays as it was.
      obtain ⟨pre, post, hs⟩ := table?_split ht
      have hkept : (editTable table (quiet (·.pushIndex kind i))).run c = ⟨.error r, c, []⟩ := by
        rw [run_editTable, ht]
        simp only [run_quiet, hpush, hs.set_self h.keys_distinct]
      rw [state_under, hkept, ht] at hafter
      exact absurd (Option.some.inj hafter).symm (mapIndexes_append_ne t kind i)
  | ok t' =>
      obtain ⟨-, -, rfl⟩ := pushIndex_eq_ok_iff.1 hpush
      have hedit : (quiet (·.pushIndex kind i) : Edit Table Unit).run t =
          ⟨.ok (), t.mapIndexes kind (· ++ [i]), []⟩ := by
        rw [run_quiet, hpush]
      exact ⟨rfl, by rw [run_under_editTable ht hedit]⟩

theorem set_table? {t : Table} (ht : c.table? table = some t) (h : c.WellFormed) (t' : Table) :
    (c.set table t').table? table = some t' := by
  obtain ⟨pre, post, hs⟩ := table?_split ht
  exact (hs.set_split h.keys_distinct t').table?_eq

/-- A dropped name leads back to the catalog before the index, unless it leads to the primary key. -/
theorem dropIndex_createIndex (h : c.WellFormed) (hname : i.name = some name) (hadded : c.IndexAdded table kind i)
    (hfree : ¬ NamesPrimaryKey name) :
    (apply (.dropIndex table name)).run ((apply (.createIndex table kind i)).run c).state =
      ⟨.ok (), c, [.applying (Statement.dropIndex table name).kind]⟩ := by
  obtain ⟨t, ht, hpush, hrun⟩ := hadded.run h
  obtain ⟨-, hnew, -⟩ := pushIndex_eq_ok_iff.1 hpush
  obtain ⟨pre, post, hs⟩ := table?_split ht
  have hdrop : (Table.Edits.dropIndex name).run (t.mapIndexes kind (· ++ [i])) = ⟨.ok (), t, []⟩ := by
    rw [Table.Edits.dropIndex, if_neg (by simpa [NamesPrimaryKey] using hfree), Table.Edits.dropNamedIndex_eq,
      whole_discard, run_step, dropIndex_append hname (hnew name hname)]
    rfl
  rw [hrun, run_apply, applyStatement, run_under_editTable (set_table? ht h _) hdrop, set_set,
    hs.set_self h.keys_distinct]

/-- Under a name of the primary key the index stays. -/
theorem dropIndex_createIndex_primary (h : c.WellFormed) (hadded : c.IndexAdded table kind i)
    (hprimary : NamesPrimaryKey name) :
    ((apply (.dropIndex table name)).run ((apply (.createIndex table kind i)).run c).state).state ≠ c := by
  obtain ⟨t, ht, -, hrun⟩ := hadded.run h
  intro hback
  rw [hrun, run_apply, applyStatement, state_under, run_editTable, set_table? ht h] at hback
  simp only [set_set] at hback
  have hsame := set_table? ht h ((Table.Edits.dropIndex name).run (t.mapIndexes kind (· ++ [i]))).state
  rw [hback, ht] at hsame
  have hindexes := dropIndex_indexesOf hprimary (t.mapIndexes kind (· ++ [i])) kind
  rw [← Option.some.inj hsame, indexesOf_mapIndexes, if_pos rfl] at hindexes
  simp at hindexes

/-- Whatever has been done to an empty catalog: an index that a statement adds to a table is taken out by
dropping its name, with nothing passed over, and the catalog is the one before both statements. That is so for
every name but that of the primary key. -/
theorem reached_dropIndex_createIndex (policy : Policy) (ops : List Operation) (hops : ∀ op ∈ ops, op.Admissible)
    (table : String) (kind : IndexKind) (i : Index) (name : String) (hname : i.name = some name)
    (hadded : ((empty policy).runAll ops).IndexAdded table kind i) :
    let c := (empty policy).runAll ops
    (apply (.dropIndex table name)).run ((apply (.createIndex table kind i)).run c).state =
      ⟨.ok (), c, [.applying (Statement.dropIndex table name).kind]⟩ ↔ ¬ NamesPrimaryKey name := by
  intro c
  have hw : c.WellFormed := runAll_wellFormed hops (empty_wellFormed policy)
  constructor
  · intro hrun hprimary
    exact dropIndex_createIndex_primary hw hadded hprimary (by rw [hrun])
  · exact dropIndex_createIndex hw hname hadded

/-- A fulltext index that one of two tables takes goes again, and the other table is not touched. -/
theorem twinTables_dropIndex_createIndex :
    let i : Index := { name := some "i", parts := [{ column := "x" }] }
    (∀ op ∈ twinTables, op.Admissible) ∧ i.name = some "i" ∧
      ((empty .strict).runAll twinTables).IndexAdded "b" .fulltext i ∧ ¬ NamesPrimaryKey "i" ∧
      ((apply (.createIndex "b" .fulltext i)).run ((empty .strict).runAll twinTables)).state ≠
        (empty .strict).runAll twinTables ∧
      (apply (.dropIndex "b" "i")).run
          ((apply (.createIndex "b" .fulltext i)).run ((empty .strict).runAll twinTables)).state =
        ⟨.ok (), (empty .strict).runAll twinTables, [.applying (Statement.dropIndex "b" "i").kind]⟩ := by
  intro i
  have hops : ∀ op ∈ twinTables, op.Admissible := by
    simp [twinTables, Operation.Admissible]
  have hadded : ((empty .strict).runAll twinTables).IndexAdded "b" .fulltext i := ⟨_, rfl, rfl⟩
  have hfree : ¬ NamesPrimaryKey "i" := by decide +kernel
  exact ⟨hops, rfl, hadded, hfree, by decide,
    (reached_dropIndex_createIndex .strict twinTables hops "b" .fulltext i "i" rfl hadded).2 hfree⟩

/-- An index that has the name of the primary key stays when the name is dropped: the drop is refused for the
key that is missing. -/
theorem twinTables_index_named_primary :
    let i : Index := { name := some "PRIMARY", parts := [{ column := "x" }] }
    let c := (empty .strict).runAll twinTables
    (∀ op ∈ twinTables, op.Admissible) ∧ c.IndexAdded "b" .plain i ∧
      ((apply (.dropIndex "b" "PRIMARY")).run ((apply (.createIndex "b" .plain i)).run c).state).result =
        .error (.missingPrimaryKey "b") ∧
      ((apply (.dropIndex "b" "PRIMARY")).run ((apply (.createIndex "b" .plain i)).run c).state).state ≠ c := by
  intro i c
  have hops : ∀ op ∈ twinTables, op.Admissible := by
    simp [twinTables, Operation.Admissible]
  have hadded : c.IndexAdded "b" .plain i := ⟨_, rfl, rfl⟩
  have hprimary : NamesPrimaryKey "PRIMARY" := by decide +kernel
  have hw : c.WellFormed := runAll_wellFormed hops (empty_wellFormed .strict)
  refine ⟨hops, hadded, ?_, dropIndex_createIndex_primary hw hadded hprimary⟩
  rw [run_apply, applyStatement, Table.Edits.dropIndex, if_pos (by simpa [NamesPrimaryKey] using hprimary)]
  rfl

end DdlCatalog.Catalog
