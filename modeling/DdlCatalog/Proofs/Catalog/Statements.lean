import DdlCatalog.Proofs.Catalog.Register
import DdlCatalog.Proofs.Table.Definition

/-!
Statements keep the invariant of catalogs, whether they are refused or not. An altered table is put
back under the name it has by then, which is its own or one that no other table has.
-/

namespace DdlCatalog.Catalog

open Edit Table

variable {c : Catalog} {name : String} {policy : Policy}

/-! ### How statements run -/

theorem run_existing (policy : Policy) (table : String) (ifNotExists : Bool) (c : Catalog) :
    (existing policy table ifNotExists).run c =
      if ifNotExists then ⟨.ok (), c, [.tableExists table]⟩
      else (under policy (refuse (.duplicateTable table))).run c := by
  rw [existing]
  split <;> rfl

theorem run_editTable (name : String) (e : Edit Table Unit) (c : Catalog) :
    (editTable name e).run c =
      match c.table? name with
      | none => ⟨.error (.unknownTable name), c, []⟩
      | some t => ⟨(e.run t).result, c.set name (e.run t).state, (e.run t).events⟩ := rfl

theorem run_createTable (policy : Policy) (d : TableDefinition) (c : Catalog) :
    (createTable policy d).run c =
      if c.contains d.table then (existing policy d.table d.ifNotExists).run c
      else c.putIn (c.push d.table) (ofDefinition policy d) := rfl

theorem run_createTableLike (policy : Policy) (d : LikeDefinition) (c : Catalog) :
    (createTableLike policy d).run c =
      if c.contains d.table then (existing policy d.table d.ifNotExists).run c
      else
        match c.table? d.like with
        | none => (under policy (refuse (.unknownTable d.like))).run c
        | some source => ⟨.ok (), c.push d.table (source.ofLike d), []⟩ := rfl

theorem run_alterTable (policy : Policy) (table : String) (as : List Alteration) (c : Catalog) :
    (alterTable policy table as).run c =
      match c.table? table with
      | none => (under policy (refuse (.unknownTable table))).run c
      | some t => c.putIn (c.commit table) ((alterations policy c as).run t) := rfl

theorem run_dropTableIf (policy : Policy) (ifExists : Bool) (table : String) (c : Catalog) :
    (dropTableIf policy ifExists table).run c =
      if ifExists && !c.contains table then ⟨.ok (), c, []⟩
      else (under policy (quiet (dropTable table))).run c := rfl

theorem run_apply (s : Statement) (c : Catalog) :
    (apply s).run c =
      ⟨((applyStatement c.policy s).run c).result, ((applyStatement c.policy s).run c).state,
        .applying s.kind :: ((applyStatement c.policy s).run c).events⟩ := rfl

theorem putIn_refused {put : Table → Catalog} {o : Outcome Table Unit} {r : ReferenceError}
    (h : o.result = .error r) : c.putIn put o = ⟨.error r, c, o.events⟩ := by
  simp [putIn, h, Except.isOk, Except.toBool]

theorem putIn_done {put : Table → Catalog} {o : Outcome Table Unit} (h : o.result = .ok ()) :
    c.putIn put o = ⟨.ok (), put o.state, o.events⟩ := by
  simp [putIn, h, Except.isOk, Except.toBool]

theorem putIn_wellFormed {put : Table → Catalog} {o : Outcome Table Unit} (h : c.WellFormed)
    (hput : o.result = .ok () → (put o.state).WellFormed) : (c.putIn put o).state.WellFormed := by
  cases hr : o.result with
  | error r => rw [putIn_refused hr]; exact h
  | ok _ => rw [putIn_done hr]; exact hput hr

/-! ### Working copies -/

/-- A working copy of the table registered under a name, perhaps under a free name. -/
def WorkingCopy (c : Catalog) (name : String) (t : Table) : Prop :=
  t.WellFormed ∧ (t.name = name ∨ c.contains t.name = false)

theorem keeps_workingCopy {e : Edit Table Unit} (h : ∀ n, e.Keeps (WellFormedAs n)) :
    e.Keeps (WorkingCopy c name) := by
  intro t ht
  obtain ⟨hw, hn⟩ := h t.name t ⟨ht.1, rfl⟩
  exact ⟨hw, hn ▸ ht.2⟩

theorem checkName_workingCopy {newName : String} {t t' : Table} (h : WorkingCopy c name t)
    (ht : Alteration.checkName c newName t = .ok t') : WorkingCopy c name t' := by
  rw [Alteration.checkName] at ht
  split at ht
  · cases ht
  · rename_i hn
    cases ht
    refine ⟨setName_wellFormed h.1 newName, ?_⟩
    by_cases hsame : newName = t.name
    · rw [hsame]; exact h.2
    · exact .inr (by simpa [hsame, setName] using hn)

/-- Only the clause that says so gives a table another name. -/
theorem alteration_keepsName {a : Alteration} (h : ∀ newName, a ≠ .renameTable newName) (n : String) :
    (a.edit c).Keeps (WellFormedAs n) := by
  cases a with
  | addColumn d placement => exact Edits.addColumn_keeps n _ placement
  | addColumns ds => exact keeps_forEach fun d _ => Edits.addColumn_keeps n _ none
  | addIndex kind i => exact Edits.pushIndex_keeps n kind i
  | addPrimaryKey key => exact Edits.addPrimaryKey_keeps n key
  | addForeignKey k => exact Edits.pushForeignKey_keeps n k.plain
  | setDefault column value => exact Edits.setColumnDefault_keeps n column _
  | dropDefault column => exact Edits.setColumnDefault_keeps n column none
  | changeColumn column d placement => exact Edits.replaceColumn_keeps n column _ placement
  | modifyColumn d placement => exact Edits.replaceColumn_keeps n d.name _ placement
  | renameColumn column newName => exact Edits.renameColumn_keeps n column newName
  | dropColumn column => exact keeps_discard (Edits.dropColumn_keeps n column)
  | dropIndex i => exact Edits.dropIndex_keeps n i
  | dropPrimaryKey => exact Edits.dropPrimaryKey_keeps n
  | dropForeignKey symbol => exact keeps_discard (Edits.dropForeignKey_keeps n symbol)
  | renameIndex i newName => exact Edits.renameIndex_keeps n i newName
  | renameTable newName => exact absurd rfl (h newName)
  | setOptions options => exact Edits.mergeOptions_keeps n options

theorem alteration_keeps (a : Alteration) : (a.edit c).Keeps (WorkingCopy c name) := by
  by_cases hr : ∃ newName, a = .renameTable newName
  · obtain ⟨newName, rfl⟩ := hr
    exact keeps_step fun t t' h ht => checkName_workingCopy h ht
  · exact keeps_workingCopy (alteration_keepsName fun newName he => hr ⟨newName, he⟩)

theorem alterations_keeps (policy : Policy) (c : Catalog) (name : String) (as : List Alteration) :
    (alterations policy c as).Keeps (WorkingCopy c name) :=
  keeps_forEach fun a _ => keeps_under policy (alteration_keeps a)

theorem alterations_workingCopy (h : c.WellFormed) {t : Table} (ht : c.table? name = some t)
    (policy : Policy) (as : List Alteration) : WorkingCopy c name ((alterations policy c as).run t).state := by
  obtain ⟨hw, hn⟩ := h.table? ht
  exact alterations_keeps policy c name as t ⟨hw, .inl hn⟩

/-- The table goes back in its place, where it may have another name now. -/
theorem commit_wellFormed (h : c.WellFormed) {t t' : Table} (ht : c.table? name = some t)
    (ht' : WorkingCopy c name t') : (c.commit name t').WellFormed := by
  rw [commit]
  split
  · rename_i hn
    exact set_wellFormed h ht ⟨ht'.1, hn⟩
  · rename_i hn
    exact rekey_wellFormed h ht (ht'.2.resolve_left hn) ⟨ht'.1, rfl⟩

/-! ### Statements -/

theorem existing_keeps (policy : Policy) (table : String) (ifNotExists : Bool) :
    (existing policy table ifNotExists).Keeps WellFormed := by
  intro c h
  rw [run_existing]
  split
  · exact h
  · exact keeps_under policy (keeps_refuse _) c h

theorem createTable_keeps (policy : Policy) (d : TableDefinition) : (createTable policy d).Keeps WellFormed := by
  intro c h
  rw [run_createTable]
  split
  · exact existing_keeps policy d.table d.ifNotExists c h
  · rename_i hc
    exact putIn_wellFormed h fun hr => push_wellFormed h (by simpa using hc) (ofDefinition_wellFormedAs hr)

theorem createTableLike_keeps (policy : Policy) (d : LikeDefinition) :
    (createTableLike policy d).Keeps WellFormed := by
  intro c h
  rw [run_createTableLike]
  split
  · exact existing_keeps policy d.table d.ifNotExists c h
  · rename_i hc
    split
    · exact keeps_under policy (keeps_refuse _) c h
    · rename_i source hs
      exact push_wellFormed h (by simpa using hc) (ofLike_wellFormedAs (h.table? hs).1 d)

theorem alterTable_keeps (policy : Policy) (table : String) (as : List Alteration) :
    (alterTable policy table as).Keeps WellFormed := by
  intro c h
  rw [run_alterTable]
  split
  · exact keeps_under policy (keeps_refuse _) c h
  · rename_i t ht
    exact putIn_wellFormed h fun _ => commit_wellFormed h ht (alterations_workingCopy h ht policy as)

theorem dropTableIf_keeps (policy : Policy) (ifExists : Bool) (table : String) :
    (dropTableIf policy ifExists table).Keeps WellFormed := by
  intro c h
  rw [run_dropTableIf]
  split
  · exact h
  · refine keeps_under policy (keeps_step fun c c' hw hc => ?_) c h
    rw [dropTable] at hc
    split at hc <;> cases hc
    exact erase_wellFormed hw table

theorem renameTable_keeps (policy : Policy) (r : String × String) : (renameTable policy r).Keeps WellFormed := by
  refine keeps_under policy (keeps_step fun c c' h hc => ?_)
  obtain ⟨hnew, t, ht, rfl⟩ := rename_cases hc
  exact rekey_wellFormed h ht hnew ⟨setName_wellFormed (h.table? ht).1 r.2, rfl⟩

theorem editTable_keeps {e : Edit Table Unit} (h : ∀ n, e.Keeps (WellFormedAs n)) (name : String) :
    (editTable name e).Keeps WellFormed := by
  intro c hc
  rw [run_editTable]
  split
  · exact hc
  · rename_i t ht
    exact set_wellFormed hc ht (h name t (hc.table? ht))

theorem applyStatement_keeps (policy : Policy) (s : Statement) : (applyStatement policy s).Keeps WellFormed := by
  cases s with
  | createTable d => exact createTable_keeps policy d
  | createTableLike d => exact createTableLike_keeps policy d
  | alterTable table as => exact alterTable_keeps policy table as
  | dropTable tables ifExists => exact keeps_forEach fun table _ => dropTableIf_keeps policy ifExists table
  | renameTable renames => exact keeps_forEach fun r _ => renameTable_keeps policy r
  | createIndex table kind i =>
      exact keeps_under policy (editTable_keeps (fun n => Edits.pushIndex_keeps n kind i) table)
  | dropIndex table i => exact keeps_under policy (editTable_keeps (fun n => Edits.dropIndex_keeps n i) table)

theorem apply_keeps (s : Statement) : (apply s).Keeps WellFormed := by
  intro c h
  rw [run_apply]
  exact applyStatement_keeps c.policy s c h

end DdlCatalog.Catalog
