import DdlCatalog.Proofs.Catalog.Atomicity
import DdlCatalog.Proofs.Catalog.Batches

/-!
Statements that have the effect of a clause of an altered table: they change a table in its place or give it
its new name at once, while the clause changes a copy that is put back in the end.
-/

namespace DdlCatalog.Catalog

open Edit

variable {c : Catalog} {table : String} {t : Table} {a : Alteration}

theorem alterations_one (policy : Policy) (c : Catalog) (a : Alteration) :
    alterations policy c [a] = under policy (a.edit c) := forEach_one _ a

theorem run_editTable_missing (ht : c.table? table = none) (policy : Policy) (e : Edit Table Unit) :
    (under policy (editTable table e)).run c = (under policy (refuse (.unknownTable table))).run c := by
  have hrun : (editTable table e).run c = (refuse (.unknownTable table) : Edit Catalog Unit).run c := by
    rw [run_editTable, ht]
    rfl
  rw [run_under, run_under, hrun]

/-- A copy that is as the table was goes back without a trace. -/
theorem commit_self (h : c.WellFormed) (ht : c.table? table = some t) : c.commit table t = c := by
  obtain ⟨pre, post, hs⟩ := table?_split ht
  rw [commit, if_pos (h.table? ht).2]
  exact hs.set_self h.keys_distinct

/-- An alteration by one clause is the edit of the clause, done to the table in its place: if it is refused the
copy is as the table was, and if not it has the name of the table still. -/
theorem run_alterTable_one (h : c.WellFormed) (hatomic : (a.edit c).Atomic)
    (hname : ∀ n, (a.edit c).Keeps (Table.WellFormedAs n)) (policy : Policy) (table : String) :
    (alterTable policy table [a]).run c = (under policy (editTable table (a.edit c))).run c := by
  rw [run_alterTable]
  cases ht : c.table? table with
  | none => exact (run_editTable_missing ht policy (a.edit c)).symm
  | some t =>
      have hcopy : ((a.edit c).run t).state.name = table := (hname table t (h.table? ht)).2
      have hedit : (editTable table (a.edit c)).run c =
          ⟨((a.edit c).run t).result, c.commit table ((a.edit c).run t).state, ((a.edit c).run t).events⟩ := by
        rw [run_editTable, ht, commit, if_pos hcopy]
      simp only [alterations_one, run_under, hedit]
      cases hr : ((a.edit c).run t).result with
      | ok _ => cases policy <;> exact putIn_done hr
      | error r =>
          have hsame := hatomic t r hr
          cases policy with
          | lenient => exact putIn_done rfl
          | strict =>
              rw [hsame, commit_self h ht]
              exact putIn_refused hr

/-! ### Renaming -/

theorem checkName_cases {newName : String} : Alteration.checkName c newName t =
    if newName ≠ t.name ∧ c.contains newName = true then .error (.duplicateTable newName)
    else .ok (t.setName newName) := rfl

/-- A table takes another name by either statement, in its place, if it is there and the name is free. The two
say different things only of a table that is missing where the name is taken as well. -/
theorem renameTable_alterForm (h : c.WellFormed) (policy : Policy) {old new : String} (hne : old ≠ new) :
    (((renameTable policy (old, new)).run c).result = .ok () ↔
      ((alterTable policy old [.renameTable new]).run c).result = .ok ()) ∧
    ((renameTable policy (old, new)).run c).state = ((alterTable policy old [.renameTable new]).run c).state := by
  rw [renameTable, run_under, run_quiet, rename, run_alterTable]
  cases ht : c.table? old with
  | none => cases c.contains new <;> cases policy <;> simp [run_under]
  | some t =>
      have hown : t.name = old := (h.table? ht).2
      have hcheck : Alteration.checkName c new t =
          if c.contains new then .error (.duplicateTable new) else .ok (t.setName new) := by
        simp [checkName_cases, hown, hne.symm]
      have hclause : (Alteration.renameTable new).edit c = quiet (Alteration.checkName c new) := rfl
      have hcommit : c.commit old (t.setName new) = c.rekey old new (t.setName new) := by
        rw [commit, if_neg (show (t.setName new).name ≠ old from hne.symm)]
        rfl
      simp only [alterations_one, run_under, hclause, run_quiet, hcheck]
      cases c.contains new with
      | true =>
          cases policy with
          | lenient => simp [putIn_done, commit_self h ht]
          | strict => simp [putIn_refused (r := .duplicateTable new)]
      | false => cases policy <;> simp [putIn_done, hcommit]

/-! ### All forms -/

/-- Where one statement is refused the other is, with the same error, and they leave the same catalog. -/
def SameEffect (c : Catalog) (s s' : Statement) : Prop :=
  ((apply s).run c).result = ((apply s').run c).result ∧ ((apply s).run c).state = ((apply s').run c).state

theorem sameEffect_of_run_eq {s s' : Statement}
    (h : (applyStatement c.policy s).run c = (applyStatement c.policy s').run c) : c.SameEffect s s' := by
  rw [SameEffect, run_apply, run_apply, h]
  exact ⟨rfl, rfl⟩

theorem createIndex_alterForm (h : c.WellFormed) (table : String) (kind : IndexKind) (i : Index) :
    c.SameEffect (.createIndex table kind i) (.alterTable table [.addIndex kind i]) := by
  apply sameEffect_of_run_eq
  refine (run_alterTable_one (a := .addIndex kind i) h ?_ ?_ c.policy table).symm
  · rw [Alteration.edit, Table.Edits.pushIndex_eq]
    exact atomic_step _ _
  · exact fun n => Table.Edits.pushIndex_keeps n kind i

theorem dropIndex_alterForm (h : c.WellFormed) (table index : String) :
    c.SameEffect (.dropIndex table index) (.alterTable table [.dropIndex index]) := by
  apply sameEffect_of_run_eq
  refine (run_alterTable_one (a := .dropIndex index) h ?_ ?_ c.policy table).symm
  · exact Table.Edits.dropIndex_atomic index
  · exact fun n => Table.Edits.dropIndex_keeps n index

/-- Whatever has been done to an empty catalog: an index is created or dropped by a statement of its own as by
the clause of an altered table, refused alike and with the same error, and a table takes another name by
either statement on the same catalogs and with the same outcome. -/
theorem reached_alterForms (policy : Policy) (ops : List Operation) (hops : ∀ op ∈ ops, op.Admissible) :
    let c := (empty policy).runAll ops
    (∀ (table : String) (kind : IndexKind) (i : Index),
      c.SameEffect (.createIndex table kind i) (.alterTable table [.addIndex kind i])) ∧
    (∀ table index : String, c.SameEffect (.dropIndex table index) (.alterTable table [.dropIndex index])) ∧
    ∀ old new : String, old ≠ new →
      (((apply (.renameTable [(old, new)])).run c).result = .ok () ↔
        ((apply (.alterTable old [.renameTable new])).run c).result = .ok ()) ∧
      ((apply (.renameTable [(old, new)])).run c).state = ((apply (.alterTable old [.renameTable new])).run c).state := by
  intro c
  have hw : c.WellFormed := runAll_wellFormed hops (empty_wellFormed policy)
  refine ⟨createIndex_alterForm hw, dropIndex_alterForm hw, fun old new hne => ?_⟩
  have hone : applyStatement c.policy (.renameTable [(old, new)]) = renameTable c.policy (old, new) :=
    forEach_one _ _
  rw [run_apply, run_apply, hone]
  exact renameTable_alterForm hw c.policy hne

/-- Of two tables the first takes another name in its place; an index is refused for its column and one is
missing, by either statement. -/
theorem twinTables_alterForms :
    (∀ op ∈ twinTables, op.Admissible) ∧ "a" ≠ "c" ∧
      let c := (empty .strict).runAll twinTables
      c.SameEffect (.createIndex "b" .plain { parts := [{ column := "z" }] })
          (.alterTable "b" [.addIndex .plain { parts := [{ column := "z" }] }]) ∧
        c.SameEffect (.dropIndex "a" "i") (.alterTable "a" [.dropIndex "i"]) ∧
        ((apply (.renameTable [("a", "c")])).run c).result = .ok () ∧
        ((apply (.alterTable "a" [.renameTable "c"])).run c).result = .ok () ∧
        ((apply (.renameTable [("a", "c")])).run c).state.keys = ["c", "b"] ∧
        ((apply (.alterTable "a" [.renameTable "c"])).run c).state.keys = ["c", "b"] := by
  have hops : ∀ op ∈ twinTables, op.Admissible := by
    simp [twinTables, Operation.Admissible]
  have hne : "a" ≠ "c" := by decide
  obtain ⟨hcreate, hdrop, hrename⟩ := reached_alterForms .strict twinTables hops
  obtain ⟨hresult, hstate⟩ := hrename "a" "c" hne
  have hdone : ((apply (.renameTable [("a", "c")])).run ((empty .strict).runAll twinTables)).result = .ok () := rfl
  have hkeys : ((apply (.renameTable [("a", "c")])).run ((empty .strict).runAll twinTables)).state.keys =
      ["c", "b"] := rfl
  exact ⟨hops, hne, hcreate _ _ _, hdrop _ _, hdone, hresult.1 hdone, hkeys, by rw [← hstate, hkeys]⟩

end DdlCatalog.Catalog
