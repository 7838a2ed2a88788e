import DdlCatalog.Proofs.Catalog.Policies
import DdlCatalog.Proofs.Catalog.Run

/-!
Long statements cut in two. A lenient catalog does not tell a list of clauses, of tables to drop or of
renamings from its two halves in statements of their own.
-/

namespace DdlCatalog.Catalog

open Edit

variable {c : Catalog} {name : String} {p : Policy} {t : Table}

/-! ### The policy stays -/

theorem rekey_policy (c : Catalog) (old new : String) (t : Table) : (c.rekey old new t).policy = c.policy := by
  rw [rekey]
  split <;> rfl

theorem commit_policy (c : Catalog) (previous : String) (t : Table) : (c.commit previous t).policy = c.policy := by
  rw [commit]
  split
  · rfl
  · exact c.rekey_policy previous t.name t

theorem putIn_policy {put : Table → Catalog} (hput : ∀ t, (put t).policy = c.policy) (o : Outcome Table Unit) :
    (c.putIn put o).state.policy = c.policy := by
  rw [putIn]
  split
  · exact hput o.state
  · rfl

theorem editTable_keeps_policy (name : String) (e : Edit Table Unit) : (editTable name e).Keeps (·.policy = p) := by
  intro c h
  rw [run_editTable]
  split
  · exact h
  · exact h

theorem refused_keeps_policy (policy : Policy) (r : ReferenceError) :
    (under policy (refuse r) : Edit Catalog Unit).Keeps (·.policy = p) :=
  keeps_under policy (keeps_refuse r)

theorem existing_keeps_policy (policy : Policy) (table : String) (ifNotExists : Bool) :
    (existing policy table ifNotExists).Keeps (·.policy = p) := by
  intro c h
  rw [run_existing]
  split
  · exact h
  · exact refused_keeps_policy policy _ c h

theorem dropTableIf_keeps_policy (policy : Policy) (ifExists : Bool) (table : String) :
    (dropTableIf policy ifExists table).Keeps (·.policy = p) := by
  have hdrop : (under policy (quiet (dropTable table))).Keeps (·.policy = p) := by
    refine keeps_under policy (keeps_step fun c c' h hc => ?_)
    rw [dropTable] at hc
    split at hc <;> cases hc
    exact h
  intro c h
  rw [run_dropTableIf]
  split
  · exact h
  · exact hdrop c h

theorem renameTable_keeps_policy (policy : Policy) (r : String × String) :
    (renameTable policy r).Keeps (·.policy = p) := by
  refine keeps_under policy (keeps_step fun c c' h hc => ?_)
  obtain ⟨-, t, -, rfl⟩ := rename_cases hc
  exact (c.rekey_policy _ _ _).trans h

theorem applyStatement_keeps_policy (policy : Policy) (s : Statement) :
    (applyStatement policy s).Keeps (·.policy = p) := by
  cases s with
  | createTable d =>
      intro c h
      rw [applyStatement, run_createTable]
      split
      · exact existing_keeps_policy policy d.table d.ifNotExists c h
      · have hput (t : Table) : (c.push d.table t).policy = c.policy := rfl
        exact (putIn_policy hput _).trans h
  | createTableLike d =>
      intro c h
      rw [applyStatement, run_createTableLike]
      split
      · exact existing_keeps_policy policy d.table d.ifNotExists c h
      · split
        · exact refused_keeps_policy policy _ c h
        · exact h
  | alterTable table as =>
      intro c h
      rw [applyStatement, run_alterTable]
      split
      · exact refused_keeps_policy policy _ c h
      · exact (putIn_policy (c.commit_policy table) _).trans h
  | dropTable tables ifExists => exact keeps_forEach fun table _ => dropTableIf_keeps_policy policy ifExists table
  | renameTable renames => exact keeps_forEach fun r _ => renameTable_keeps_policy policy r
  | createIndex table kind i => exact keeps_under policy (editTable_keeps_policy table _)
  | dropIndex table i => exact keeps_under policy (editTable_keeps_policy table _)

theorem apply_keeps_policy (s : Statement) : (apply s).Keeps (·.policy = p) := by
  intro c h
  rw [run_apply]
  exact applyStatement_keeps_policy c.policy s c h

theorem Operation.run_policy (op : Operation) (c : Catalog) : (op.run c).policy = c.policy := by
  have hall (ss : List Statement) : ((applyAll ss).run c).state.policy = c.policy :=
    keeps_forEach (fun s _ => apply_keeps_policy s) c rfl
  cases op with
  | feed script => rw [run_feed]; exact hall _
  | apply s => exact apply_keeps_policy s c rfl
  | applyJson text => rw [run_applyJson]; exact hall _
  | insert t =>
      rw [run, Catalog.insert]
      cases c.contains t.name <;> rfl

theorem runAll_policy (c : Catalog) (ops : List Operation) : (c.runAll ops).policy = c.policy := by
  induction ops generalizing c with
  | nil => rfl
  | cons op ops ih => exact (ih (op.run c)).trans (op.run_policy c)

/-! ### Two statements in place of one -/

/-- A statement leaves what two statements leave that are applied one after the other. -/
def CutInto (c : Catalog) (s first second : Statement) : Prop :=
  ((apply s).run c).state = ((apply second).run ((apply first).run c).state).state

theorem cutInto_iff (hp : c.policy = .lenient) (s first second : Statement) :
    c.CutInto s first second ↔ ((applyStatement .lenient s).run c).state =
      ((applyStatement .lenient second).run ((applyStatement .lenient first).run c).state).state := by
  have hfirst : ((applyStatement .lenient first).run c).state.policy = .lenient :=
    applyStatement_keeps_policy .lenient first c hp
  simp only [CutInto, run_apply, hp, hfirst]

/-- Edits that are never refused can be cut anywhere. -/
theorem state_forEach_append {α σ : Type} {edit : α → Edit σ Unit} (h : ∀ a s, ((edit a).run s).result = .ok ())
    (as bs : List α) (s : σ) :
    ((forEach edit (as ++ bs)).run s).state = ((forEach edit bs).run ((forEach edit as).run s).state).state := by
  rw [forEach_append, state_bind (forEach_ok h as s)]

theorem dropTable_cutInto (hp : c.policy = .lenient) (xs ys : List String) (ifExists : Bool) :
    c.CutInto (.dropTable (xs ++ ys) ifExists) (.dropTable xs ifExists) (.dropTable ys ifExists) := by
  rw [cutInto_iff hp]
  exact state_forEach_append (fun table => (dropTableIf_agree ifExists table).lenient_ok) xs ys c

theorem renameTable_cutInto (hp : c.policy = .lenient) (xs ys : List (String × String)) :
    c.CutInto (.renameTable (xs ++ ys)) (.renameTable xs) (.renameTable ys) := by
  rw [cutInto_iff hp]
  exact state_forEach_append (fun r => (renameTable_agree r).lenient_ok) xs ys c

theorem state_alterTable_missing {table : String} (ht : c.table? table = none) (as : List Alteration) :
    ((alterTable .lenient table as).run c).state = c := by
  rw [run_alterTable, ht]
  rfl

theorem state_alterTable {table : String} (ht : c.table? table = some t) (as : List Alteration) :
    ((alterTable .lenient table as).run c).state = c.commit table ((alterations .lenient c as).run t).state := by
  have hok : ((alterations .lenient c as).run t).result = .ok () := (alterations_agree rfl as).lenient_ok t
  rw [run_alterTable, ht]
  exact congrArg Outcome.state (putIn_done hok)

theorem under_lenient_ok (c : Catalog) (a : Alteration) (t : Table) :
    ((under .lenient (a.edit c)).run t).result = .ok () :=
  (agree_under (alteration_heedful c a).alike).lenient_ok t

/-- The clauses before the cut leave the table under its name, so that the ones behind it meet the same
names in a statement of their own. -/
theorem alterTable_cutInto (h : c.WellFormed) (hp : c.policy = .lenient) (table : String) {xs : List Alteration}
    (hxs : ∀ newName, .renameTable newName ∉ xs) (ys : List Alteration) :
    c.CutInto (.alterTable table (xs ++ ys)) (.alterTable table xs) (.alterTable table ys) := by
  rw [cutInto_iff hp, applyStatement, applyStatement, applyStatement]
  cases ht : c.table? table with
  | none => rw [state_alterTable_missing ht, state_alterTable_missing ht, state_alterTable_missing ht]
  | some t =>
      obtain ⟨pre, post, hs⟩ := table?_split ht
      have hkeeps : (alterations .lenient c xs).Keeps (Table.WellFormedAs table) :=
        keeps_forEach fun a ha =>
          keeps_under .lenient (alteration_keepsName (fun newName he => hxs newName (he ▸ ha)) table)
      rw [state_alterTable ht, state_alterTable ht]
      generalize hhalf : ((alterations .lenient c xs).run t).state = half
      have hname : half.name = table := hhalf ▸ (hkeeps t (h.table? ht)).2
      have hsame : alterations .lenient (c.set table half) ys = alterations .lenient c ys := by
        simp only [alterations, alteration_edit_eq (c.set_contains table half)]
      rw [commit, commit, if_pos hname, state_alterTable (hs.set_split h.keys_distinct half).table?_eq, hsame,
        hs.commit_set h.keys_distinct, alterations, state_forEach_append (under_lenient_ok c), ← hhalf]
      rfl

/-- Whatever has been done to an empty lenient catalog, a statement can be cut in two: between the clauses
of an alteration, if none before the cut gives the table another name, between the tables that are dropped
and between the renamings. -/
theorem reached_cutInto (ops : List Operation) (hops : ∀ op ∈ ops, op.Admissible) :
    let c := (empty .lenient).runAll ops
    (∀ (table : String) (xs ys : List Alteration), (∀ newName, .renameTable newName ∉ xs) →
      c.CutInto (.alterTable table (xs ++ ys)) (.alterTable table xs) (.alterTable table ys)) ∧
    (∀ (xs ys : List String) (ifExists : Bool),
      c.CutInto (.dropTable (xs ++ ys) ifExists) (.dropTable xs ifExists) (.dropTable ys ifExists)) ∧
    ∀ xs ys : List (String × String), c.CutInto (.renameTable (xs ++ ys)) (.renameTable xs) (.renameTable ys) := by
  intro c
  have hw : c.WellFormed := runAll_wellFormed hops (empty_wellFormed .lenient)
  have hp : c.policy = .lenient := runAll_policy (empty .lenient) ops
  exact ⟨fun table xs ys hxs => alterTable_cutInto hw hp table hxs ys, dropTable_cutInto hp, renameTable_cutInto hp⟩

/-- Two tables, one of which is altered. -/
def twinTables : List Operation :=
  [.apply (.createTable { table := "a", entries := [.column { name := "x", type := { name := .int } }] }),
    .apply (.createTableLike { table := "b", like := "a" }), .apply (.dropTable ["c"] false)]

/-- Clauses of which some are passed over, before the cut and behind it. -/
def beforeCut : List Alteration :=
  [.dropColumn "z", .addColumn { name := "y", type := { name := .int } } (some .first), .addPrimaryKey { parts := [] }]

def behindCut : List Alteration := [.renameTable "b", .dropColumn "x", .renameTable "c"]

theorem twinTables_cutInto :
    (∀ op ∈ twinTables, op.Admissible) ∧ (∀ newName, .renameTable newName ∉ beforeCut) ∧
      ((empty .lenient).runAll twinTables).CutInto (.alterTable "a" (beforeCut ++ behindCut))
        (.alterTable "a" beforeCut) (.alterTable "a" behindCut) ∧
      ((apply (.alterTable "a" (beforeCut ++ behindCut))).run ((empty .lenient).runAll twinTables)).state.entries.map
        (fun e => (e.1, e.2.columnNames)) = [("c", ["y"]), ("b", ["x"])] := by
  have hops : ∀ op ∈ twinTables, op.Admissible := by
    simp [twinTables, Operation.Admissible]
  have hclauses : ∀ newName, .renameTable newName ∉ beforeCut := by
    simp [beforeCut]
  exact ⟨hops, hclauses, (reached_cutInto twinTables hops).1 "a" beforeCut behindCut hclauses, rfl⟩

end DdlCatalog.Catalog
