import DdlCatalog.Proofs.Catalog.Statements
import DdlCatalog.Proofs.Table.Policies

/-!
A statement under both policies, on the same tables: the strict policy refuses with the first error
that the lenient one ignores, and where there is none the two policies come to the same.
-/

namespace DdlCatalog.Catalog

open Edit

/-- Catalogs of the same tables in the same order, perhaps under different policies. -/
def SameTables (c c' : Catalog) : Prop := c.entries = c'.entries

variable {c c' : Catalog}

/-! ### The register of either -/

theorem SameTables.contains_eq (h : SameTables c c') (name : String) : c.contains name = c'.contains name := by
  rw [contains, contains, h]

theorem SameTables.table?_eq (h : SameTables c c') (name : String) : c.table? name = c'.table? name := by
  rw [table?, table?, h]

theorem SameTables.push (h : SameTables c c') (name : String) (t : Table) :
    SameTables (c.push name t) (c'.push name t) :=
  congrArg (· ++ [(name, t)]) h

theorem SameTables.erase (h : SameTables c c') (name : String) : SameTables (c.erase name) (c'.erase name) :=
  congrArg (List.eraseP _) h

theorem SameTables.set (h : SameTables c c') (name : String) (t : Table) :
    SameTables (c.set name t) (c'.set name t) :=
  congrArg (List.map _) h

theorem SameTables.rekey (h : SameTables c c') (old new : String) (t : Table) :
    SameTables (c.rekey old new t) (c'.rekey old new t) := by
  have hr : c.rekeying? old new = c'.rekeying? old new := by
    rw [rekeying?, rekeying?, h]
  unfold Catalog.rekey SameTables
  rw [← hr]
  cases c.rekeying? old new with
  | none => exact h
  | some r => rfl

theorem SameTables.commit (h : SameTables c c') (previous : String) (t : Table) :
    SameTables (c.commit previous t) (c'.commit previous t) := by
  unfold Catalog.commit
  split
  · exact h.set previous t
  · exact h.rekey previous t.name t

/-! ### Statements -/

/-- What a clause does to a working copy hangs on the names of the tables alone. -/
theorem alteration_edit_eq (h : ∀ name, c.contains name = c'.contains name) (a : Alteration) : a.edit c = a.edit c' := by
  cases a with
  | renameTable newName =>
      have hn : Alteration.checkName c newName = Alteration.checkName c' newName := by
        funext t
        rw [Alteration.checkName, Alteration.checkName, h]
      rw [Alteration.edit, hn, Alteration.edit]
  | _ => rfl

theorem alteration_heedful (c : Catalog) (a : Alteration) : (a.edit c).Heedful := by
  cases a with
  | addColumn d placement => exact Table.Edits.addColumn_heedful _ placement
  | addColumns ds => exact heedful_forEach (fun d => Table.Edits.addColumn_heedful _ none) ds
  | addIndex kind i => exact Table.Edits.pushIndex_heedful kind i
  | addPrimaryKey key => exact Table.Edits.addPrimaryKey_heedful key
  | addForeignKey k => exact Table.Edits.pushForeignKey_heedful k.plain
  | setDefault column value => exact Table.Edits.setColumnDefault_heedful column _
  | dropDefault column => exact Table.Edits.setColumnDefault_heedful column none
  | changeColumn column d placement => exact Table.Edits.replaceColumn_heedful column _ placement
  | modifyColumn d placement => exact Table.Edits.replaceColumn_heedful d.name _ placement
  | renameColumn column newName => exact Table.Edits.renameColumn_heedful column newName
  | dropColumn column => exact heedful_discard (Table.Edits.dropColumn_heedful column)
  | dropIndex i => exact Table.Edits.dropIndex_heedful i
  | dropPrimaryKey => exact Table.Edits.dropPrimaryKey_heedful
  | dropForeignKey symbol => exact heedful_discard (Table.Edits.dropForeignKey_heedful symbol)
  | renameIndex i newName => exact Table.Edits.renameIndex_heedful i newName
  | renameTable newName => exact heedful_quiet _
  | setOptions options => exact heedful_quiet _

theorem alterations_agree (h : SameTables c c') (as : List Alteration) :
    Agree Eq (alterations .lenient c as) (alterations .strict c' as) := by
  apply agree_forEach
  intro a
  rw [← alteration_edit_eq h.contains_eq a]
  exact agree_under (alteration_heedful c a).alike

theorem putIn_predicts {lenient strict : Outcome Table Unit} {put put' : Table → Catalog}
    (ho : Predicts Eq lenient strict) (hl : lenient.result = .ok ())
    (hput : ∀ t, SameTables (put t) (put' t)) :
    Predicts SameTables (c.putIn put lenient) (c'.putIn put' strict) := by
  rw [putIn_done hl]
  constructor
  · intro hn
    obtain ⟨hr, hstate⟩ := ho.none_ignored hn
    rw [putIn_done hr, ← hstate]
    exact ⟨rfl, hput lenient.state⟩
  · intro r hi
    rw [putIn_refused (ho.first_ignored r hi)]

theorem existing_agree (table : String) (ifNotExists : Bool) :
    Agree SameTables (existing .lenient table ifNotExists) (existing .strict table ifNotExists) := by
  unfold existing
  split
  · exact ⟨fun _ => rfl, fun c c' h => predicts_done h rfl⟩
  · exact agree_under (alike_refuse _)

theorem createTable_agree (d : TableDefinition) :
    Agree SameTables (createTable .lenient d) (createTable .strict d) := by
  have hd := Table.addDefinition_agree d
  constructor
  · intro c
    rw [run_createTable]
    split
    · exact (existing_agree d.table d.ifNotExists).lenient_ok c
    · exact hd.lenient_ok _
  · intro c c' h
    rw [run_createTable, run_createTable, ← h.contains_eq]
    split
    · exact (existing_agree d.table d.ifNotExists).predicts c c' h
    · exact putIn_predicts (hd.predicts _ _ rfl) (hd.lenient_ok _) (h.push d.table)

theorem createTableLike_agree (d : LikeDefinition) :
    Agree SameTables (createTableLike .lenient d) (createTableLike .strict d) := by
  have hmissing : Agree SameTables (under .lenient (refuse (.unknownTable d.like)))
      (under .strict (refuse (.unknownTable d.like))) := agree_under (alike_refuse _)
  constructor
  · intro c
    rw [run_createTableLike]
    split
    · exact (existing_agree d.table d.ifNotExists).lenient_ok c
    · split
      · exact hmissing.lenient_ok c
      · rfl
  · intro c c' h
    rw [run_createTableLike, run_createTableLike, ← h.contains_eq, ← h.table?_eq]
    split
    · exact (existing_agree d.table d.ifNotExists).predicts c c' h
    · split
      · exact hmissing.predicts c c' h
      · exact predicts_done (h.push d.table _) rfl

theorem alterTable_agree (table : String) (as : List Alteration) :
    Agree SameTables (alterTable .lenient table as) (alterTable .strict table as) := by
  have hmissing : Agree SameTables (under .lenient (refuse (.unknownTable table)))
      (under .strict (refuse (.unknownTable table))) := agree_under (alike_refuse _)
  constructor
  · intro c
    rw [run_alterTable]
    split
    · exact hmissing.lenient_ok c
    · exact (alterations_agree (c := c) rfl as).lenient_ok _
  · intro c c' h
    rw [run_alterTable, run_alterTable, ← h.table?_eq]
    split
    · exact hmissing.predicts c c' h
    · rename_i t _
      have ha := alterations_agree h as
      exact putIn_predicts (ha.predicts t t rfl) (ha.lenient_ok t) (h.commit table)

theorem dropTableIf_agree (ifExists : Bool) (table : String) :
    Agree SameTables (dropTableIf .lenient ifExists table) (dropTableIf .strict ifExists table) := by
  have hdrop : Agree SameTables (under .lenient (quiet (dropTable table))) (under .strict (quiet (dropTable table))) := by
    refine agree_under (alike_quiet fun c c' h => ?_)
    unfold dropTable
    rw [← h.contains_eq]
    cases c.contains table with
    | true => exact .inr ⟨_, _, rfl, rfl, h.erase table⟩
    | false => exact .inl ⟨_, rfl, rfl⟩
  constructor
  · intro c
    rw [run_dropTableIf]
    split
    · rfl
    · exact hdrop.lenient_ok c
  · intro c c' h
    rw [run_dropTableIf, run_dropTableIf, ← h.contains_eq]
    split
    · exact predicts_done h rfl
    · exact hdrop.predicts c c' h

theorem renameTable_agree (r : String × String) :
    Agree SameTables (renameTable .lenient r) (renameTable .strict r) := by
  refine agree_under (alike_quiet fun c c' h => ?_)
  unfold rename
  rw [← h.contains_eq, ← h.table?_eq]
  cases c.contains r.2 with
  | true => exact .inl ⟨_, rfl, rfl⟩
  | false =>
      cases c.table? r.1 with
      | none => exact .inl ⟨_, rfl, rfl⟩
      | some t => exact .inr ⟨_, _, rfl, rfl, h.rekey r.1 r.2 _⟩

theorem editTable_alike {e : Edit Table Unit} (he : e.Heedful) (name : String) :
    Alike SameTables (editTable name e) (editTable name e) where
  heedful c := by
    rw [run_editTable]
    split
    · rfl
    · exact he _
  result_eq c c' h := by
    rw [run_editTable, run_editTable, ← h.table?_eq]
    split <;> rfl
  state_rel c c' h := by
    rw [run_editTable, run_editTable, ← h.table?_eq]
    split
    · exact h
    · exact h.set name _

theorem applyStatement_agree (s : Statement) :
    Agree SameTables (applyStatement .lenient s) (applyStatement .strict s) := by
  cases s with
  | createTable d => exact createTable_agree d
  | createTableLike d => exact createTableLike_agree d
  | alterTable table as => exact alterTable_agree table as
  | dropTable tables ifExists => exact agree_forEach (dropTableIf_agree ifExists) tables
  | renameTable renames => exact agree_forEach renameTable_agree renames
  | createIndex table kind i => exact agree_under (editTable_alike (Table.Edits.pushIndex_heedful kind i) table)
  | dropIndex table i => exact agree_under (editTable_alike (Table.Edits.dropIndex_heedful i) table)

/-- A statement on the same tables under either policy: the lenient catalog never refuses it. If it
ignores no error, the strict catalog does not refuse the statement either and comes to the same tables;
otherwise the strict catalog refuses it with the first error that the lenient one ignores. -/
theorem apply_lenient_predicts_strict (entries : List (String × Table)) (s : Statement) :
    let lenient := (apply s).run { policy := .lenient, entries := entries }
    let strict := (apply s).run { policy := .strict, entries := entries }
    lenient.result = .ok () ∧
      match lenient.events.findSome? Event.ignored? with
      | none => strict.result = .ok () ∧ strict.state.entries = lenient.state.entries
      | some e => strict.result = .error e := by
  intro lenient strict
  have ha := applyStatement_agree s
  have hp := ha.predicts { policy := .lenient, entries := entries } { policy := .strict, entries := entries } rfl
  refine ⟨ha.lenient_ok _, ?_⟩
  have hevents : lenient.events.findSome? Event.ignored? =
      firstIgnored ((applyStatement .lenient s).run { policy := .lenient, entries := entries }).events := rfl
  rw [hevents]
  split
  · rename_i hn
    obtain ⟨hr, hstate⟩ := hp.none_ignored hn
    exact ⟨hr, hstate.symm⟩
  · rename_i e hi
    exact hp.first_ignored e hi

end DdlCatalog.Catalog
