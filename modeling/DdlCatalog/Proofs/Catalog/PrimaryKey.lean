import DdlCatalog.Proofs.Catalog.Atomicity
import DdlCatalog.Proofs.Catalog.Run
import DdlCatalog.Proofs.Table.PrimaryKey

/-!
The columns of primary keys in the tables that statements make. They are not nullable, unless a clause
has put a nullable column in the place of one of them.
-/

namespace DdlCatalog

open Edit

/-! ### Clauses -/

/-- Whether the column of a definition is nullable and not a key of its own. -/
def ColumnDefinition.AllowsNull (d : ColumnDefinition) : Prop :=
  d.attributes.primaryKey = false ∧ d.attributes.nullable ≠ some false

instance (d : ColumnDefinition) : Decidable d.AllowsNull := inferInstanceAs (Decidable (_ ∧ _))

theorem Column.ofDefinition_notNull_iff (d : ColumnDefinition) :
    ((ofDefinition d).inline.primaryKey = false → (ofDefinition d).options.nullable = false) ↔
      ¬ d.AllowsNull := by
  rw [ofDefinition, ColumnDefinition.AllowsNull]
  cases d.attributes.primaryKey <;> rcases d.attributes.nullable with _ | _ | _ <;> simp

/-- The invariant of tables together with that of their primary keys. -/
def Table.Tight (t : Table) : Prop := t.WellFormed ∧ t.KeyNotNull

namespace Alteration

variable {c : Catalog} {t : Table} {a : Alteration}

/-- The column that a clause replaces, and the definition of the one that takes its place. -/
def replacement? : Alteration → Option (String × ColumnDefinition)
  | .changeColumn column d _ => some (column, d)
  | .modifyColumn d _ => some (d.name, d)
  | _ => none

/-- A clause that puts a nullable column in the place of one of the primary key. -/
def Loosens (a : Alteration) (t : Table) : Prop :=
  ∃ r ∈ a.replacement?, r.1 ∈ t.primaryColumns ∧ r.2.AllowsNull

instance (a : Alteration) (t : Table) : Decidable (a.Loosens t) :=
  inferInstanceAs (Decidable (∃ r ∈ a.replacement?, _))

theorem edit_of_replacement? {r : String × ColumnDefinition} (h : a.replacement? = some r) :
    ∃ placement, a.edit c = Table.Edits.replaceColumn r.1 (.ofDefinition r.2) placement := by
  cases a <;> cases h
  · exact ⟨_, rfl⟩
  · exact ⟨_, rfl⟩

open Table in
/-- No other clause makes a column of the primary key nullable, also where it is refused midway. -/
theorem edit_keeps_tight (h : a.replacement? = none) : (a.edit c).Keeps Tight := by
  cases a with
  | changeColumn column d placement | modifyColumn d placement => cases h
  | addColumn d placement =>
      rw [edit, Edits.addColumn_eq]
      exact keeps_step fun t t' h ht => ⟨addColumn_wellFormed h.1 ht, addColumn_keyNotNull h.1 h.2 ht⟩
  | addColumns ds =>
      refine keeps_forEach fun d _ => ?_
      rw [Edits.addColumn_eq]
      exact keeps_step fun t t' h ht => ⟨addColumn_wellFormed h.1 ht, addColumn_keyNotNull h.1 h.2 ht⟩
  | addIndex kind i =>
      rw [edit, Edits.pushIndex_eq]
      exact keeps_step fun t t' h ht => ⟨pushIndex_wellFormed h.1 ht, pushIndex_keyNotNull h.2 ht⟩
  | addPrimaryKey key =>
      rw [edit, Edits.addPrimaryKey_eq]
      exact keeps_step fun t t' h ht => ⟨addPrimaryKey_wellFormed h.1 ht, addPrimaryKey_keyNotNull h.1 ht⟩
  | addForeignKey k =>
      rw [edit, Edits.pushForeignKey_eq]
      exact keeps_step fun t t' h ht => ⟨pushForeignKey_wellFormed h.1 ht, pushForeignKey_keyNotNull h.2 ht⟩
  | setDefault column value | dropDefault column =>
      rw [edit, Edits.setColumnDefault_eq]
      exact keeps_step fun t t' h ht => ⟨setColumnDefault_wellFormed h.1 ht, setColumnDefault_keyNotNull h.2 ht⟩
  | renameColumn column newName =>
      rw [edit, Edits.renameColumn_eq]
      exact keeps_step fun t t' h ht => ⟨renameColumn_wellFormed h.1 ht, renameColumn_keyNotNull h.1 h.2 ht⟩
  | dropColumn column =>
      rw [edit, Edits.dropColumn_eq]
      refine keeps_discard (keeps_whole fun t d t' h ht => ?_)
      exact ⟨dropColumn_wellFormed h.1 ht, dropColumn_keyNotNull h.2 ht⟩
  | dropIndex i =>
      rw [edit, Edits.dropIndex]
      split
      · rw [Edits.dropPrimaryKey_eq]
        exact keeps_step fun t t' h ht => ⟨dropPrimaryKey_wellFormed h.1 ht, dropPrimaryKey_keyNotNull ht⟩
      · rw [Edits.dropNamedIndex_eq]
        refine keeps_discard (keeps_whole fun t kind t' h ht => ?_)
        exact ⟨dropIndex_wellFormed h.1 ht, dropIndex_keyNotNull h.2 ht⟩
  | dropPrimaryKey =>
      rw [edit, Edits.dropPrimaryKey_eq]
      exact keeps_step fun t t' h ht => ⟨dropPrimaryKey_wellFormed h.1 ht, dropPrimaryKey_keyNotNull ht⟩
  | dropForeignKey symbol =>
      rw [edit, Edits.dropForeignKey_eq]
      refine keeps_discard (keeps_whole fun t k t' h ht => ?_)
      exact ⟨dropForeignKey_wellFormed h.1 ht, dropForeignKey_keyNotNull h.2 ht⟩
  | renameIndex i newName =>
      rw [edit, Edits.renameIndex_eq]
      exact keeps_step fun t t' h ht => ⟨renameIndex_wellFormed h.1 ht, renameIndex_keyNotNull h.2 ht⟩
  | renameTable newName =>
      refine keeps_step fun t t' h ht => ?_
      rw [checkName] at ht
      split at ht <;> cases ht
      exact ⟨setName_wellFormed h.1 newName, setName_keyNotNull h.2 newName⟩
  | setOptions options =>
      exact keeps_modify fun t h => ⟨mergeOptions_wellFormed h.1 options, mergeOptions_keyNotNull h.2 options⟩

/-- A clause that is carried out keeps the property if and only if it does not loosen the key. -/
theorem edit_keyNotNull_iff (h : t.Tight) (hr : ((a.edit c).run t).result = .ok ()) :
    ((a.edit c).run t).state.KeyNotNull ↔ ¬ a.Loosens t := by
  cases ha : a.replacement? with
  | none => exact iff_of_true (edit_keeps_tight ha t h).2 (by simp [Loosens, ha])
  | some r =>
      obtain ⟨placement, he⟩ := edit_of_replacement? (c := c) ha
      rw [he, Table.Edits.replaceColumn_eq, run_step] at hr ⊢
      cases ht : t.replaceColumn r.1 (.ofDefinition r.2) placement with
      | error e => rw [ht] at hr; cases hr
      | ok t' =>
          rw [Table.replaceColumn_keyNotNull_iff h.1 h.2 ht, Column.ofDefinition_notNull_iff]
          simp [Loosens, ha]

/-- A clause that is refused changes no column there is, and otherwise it has to leave the key as it is. -/
theorem edit_tight (h : t.Tight) (hl : ((a.edit c).run t).result = .ok () → ¬ a.Loosens t) :
    ((a.edit c).run t).state.Tight := by
  cases ha : a.replacement? with
  | none => exact edit_keeps_tight ha t h
  | some r =>
      obtain ⟨placement, he⟩ := edit_of_replacement? (c := c) ha
      cases hr : ((a.edit c).run t).result with
      | ok _ =>
          refine ⟨?_, (edit_keyNotNull_iff h hr).2 (hl hr)⟩
          rw [he]
          exact (Table.Edits.replaceColumn_keeps t.name r.1 _ placement t ⟨h.1, rfl⟩).1
      | error e =>
          rw [he, Table.Edits.replaceColumn_eq] at hr ⊢
          rw [atomic_step _ _ t e hr]
          exact h

end Alteration

namespace Catalog

variable {c c' : Catalog} {name : String} {t : Table} {policy : Policy}

/-! ### The register -/

def KeysNotNull (c : Catalog) : Prop := ∀ e ∈ c.entries, e.2.KeyNotNull

instance (c : Catalog) : Decidable c.KeysNotNull := inferInstanceAs (Decidable (∀ e ∈ c.entries, _))

/-- The invariant of catalogs together with that of the primary keys. -/
def Tight (c : Catalog) : Prop := c.WellFormed ∧ c.KeysNotNull

theorem empty_tight (policy : Policy) : (empty policy).Tight :=
  ⟨empty_wellFormed policy, fun _ he => nomatch he⟩

theorem Tight.table? (h : c.Tight) (ht : c.table? name = some t) : t.Tight := by
  obtain ⟨pre, post, hs⟩ := table?_split ht
  exact ⟨(h.1.table? ht).1, h.2 _ hs.mem⟩

/-- Tables that stay, and one that comes. -/
theorem KeysNotNull.of_entries (h : c.KeysNotNull) (ht : t.KeyNotNull)
    (hc : ∀ e ∈ c'.entries, e ∈ c.entries ∨ e.2 = t) : c'.KeysNotNull := by
  intro e he
  rcases hc e he with he | rfl
  · exact h e he
  · exact ht

theorem mem_push {e : String × Table} (h : e ∈ (c.push name t).entries) : e ∈ c.entries ∨ e.2 = t := by
  rcases List.mem_append.1 h with h | h
  · exact .inl h
  · exact .inr (congrArg Prod.snd (List.mem_singleton.1 h))

theorem mem_set {e : String × Table} (h : e ∈ (c.set name t).entries) : e ∈ c.entries ∨ e.2 = t := by
  obtain ⟨d, hd, rfl⟩ := List.mem_map.1 h
  split
  · exact .inr rfl
  · exact .inl hd

theorem mem_rekey {new : String} {e : String × Table} (h : e ∈ (c.rekey name new t).entries) :
    e ∈ c.entries ∨ e.2 = t := by
  rw [rekey] at h
  split at h
  · exact .inl h
  · rename_i r hr
    obtain ⟨i, -, rfl⟩ := Option.map_eq_some_iff.1 hr
    rcases List.eq_or_mem_of_mem_insertIdx h with rfl | h
    · exact .inr rfl
    · exact .inl (List.mem_of_mem_eraseIdx (List.mem_of_mem_eraseP h))

theorem mem_commit {e : String × Table} (h : e ∈ (c.commit name t).entries) : e ∈ c.entries ∨ e.2 = t := by
  rw [commit] at h
  split at h
  · exact mem_set h
  · exact mem_rekey h

theorem putIn_keysNotNull {put : Table → Catalog} {o : Outcome Table Unit} (h : c.KeysNotNull)
    (hput : o.result = .ok () → (put o.state).KeysNotNull) : (c.putIn put o).state.KeysNotNull := by
  cases hr : o.result with
  | error r => rw [putIn_refused hr]; exact h
  | ok _ => rw [putIn_done hr]; exact hput hr

/-! ### Statements -/

theorem createTable_keysNotNull (h : c.Tight) (policy : Policy) (d : TableDefinition) :
    ((createTable policy d).run c).state.KeysNotNull := by
  rw [run_createTable]
  split
  · rw [existing_unchanged]; exact h.2
  · exact putIn_keysNotNull h.2 fun hr => h.2.of_entries (Table.ofDefinition_keyNotNull hr) fun _ => mem_push

theorem createTableLike_keysNotNull (h : c.Tight) (policy : Policy) (d : LikeDefinition) :
    ((createTableLike policy d).run c).state.KeysNotNull := by
  rw [run_createTableLike]
  split
  · rw [existing_unchanged]; exact h.2
  · split
    · rw [state_under]; exact h.2
    · rename_i source hs
      exact h.2.of_entries (Table.setName_keyNotNull (h.table? hs).2 d.table) fun _ => mem_push

theorem editTable_keysNotNull {e : Edit Table Unit} (he : e.Keeps Table.Tight) (h : c.Tight) (name : String) :
    ((editTable name e).run c).state.KeysNotNull := by
  rw [run_editTable]
  split
  · exact h.2
  · rename_i t ht
    exact h.2.of_entries (he t (h.table? ht)).2 fun _ => mem_set

theorem dropTableIf_keeps_tight (policy : Policy) (ifExists : Bool) (table : String) :
    (dropTableIf policy ifExists table).Keeps Tight := by
  intro c h
  refine ⟨dropTableIf_keeps policy ifExists table c h.1, ?_⟩
  rw [run_dropTableIf]
  split
  · exact h.2
  · rw [state_under, run_quiet, dropTable]
    split
    · exact h.2
    · rename_i c' hc
      split at hc <;> cases hc
      exact fun e he => h.2 e (List.mem_of_mem_eraseP he)

theorem renameTable_keeps_tight (policy : Policy) (r : String × String) : (renameTable policy r).Keeps Tight := by
  intro c h
  refine ⟨renameTable_keeps policy r c h.1, ?_⟩
  rw [renameTable, state_under, run_quiet]
  split
  · exact h.2
  · rename_i c' hc
    obtain ⟨-, t, ht, rfl⟩ := rename_cases hc
    exact h.2.of_entries (Table.setName_keyNotNull (h.table? ht).2 r.2) fun _ => mem_rekey

/-- The clauses of a statement, each with the working copy it comes to. -/
def clauses (c : Catalog) : Statement → List (Alteration × Table)
  | .alterTable table as => (c.table? table).toList.flatMap (visits (fun a => .under c.policy (a.edit c)) as)
  | _ => []

/-- A statement of which a clause that is carried out puts a nullable column in the place of one of the
primary key. -/
def Loosens (c : Catalog) (s : Statement) : Prop :=
  ∃ v ∈ c.clauses s, ((v.1.edit c).run v.2).result = .ok () ∧ v.1.Loosens v.2

instance (c : Catalog) (s : Statement) : Decidable (c.Loosens s) :=
  inferInstanceAs (Decidable (∃ v ∈ c.clauses s, _))

theorem alterTable_keysNotNull {table : String} {as : List Alteration} (h : c.Tight)
    (hl : ¬ c.Loosens (.alterTable table as)) : ((alterTable c.policy table as).run c).state.KeysNotNull := by
  rw [run_alterTable]
  split
  · rw [state_under]; exact h.2
  · rename_i t ht
    -- Every clause finds a working copy that the ones before it have left tight.
    have hcopy : ((alterations c.policy c as).run t).state.Tight := by
      refine forEach_of_visits (h.table? ht) fun v hv htight => ?_
      rw [state_under]
      refine Alteration.edit_tight htight fun hr hloose => hl ⟨v, ?_, hr, hloose⟩
      simpa [clauses, ht] using hv
    exact putIn_keysNotNull h.2 fun _ => h.2.of_entries hcopy.2 fun _ => mem_commit

theorem apply_tight {s : Statement} (h : c.Tight) (hl : ¬ c.Loosens s) : ((apply s).run c).state.Tight := by
  refine ⟨apply_keeps s c h.1, ?_⟩
  rw [run_apply]
  cases s with
  | createTable d => exact createTable_keysNotNull h c.policy d
  | createTableLike d => exact createTableLike_keysNotNull h c.policy d
  | alterTable table as => exact alterTable_keysNotNull h hl
  | dropTable tables ifExists => exact (keeps_forEach (fun a _ => dropTableIf_keeps_tight _ ifExists a) c h).2
  | renameTable renames => exact (keeps_forEach (fun r _ => renameTable_keeps_tight _ r) c h).2
  | createIndex table kind i =>
      rw [applyStatement, state_under]
      exact editTable_keysNotNull ((Alteration.addIndex kind i).edit_keeps_tight (c := c) rfl) h table
  | dropIndex table i =>
      rw [applyStatement, state_under]
      exact editTable_keysNotNull ((Alteration.dropIndex i).edit_keeps_tight (c := c) rfl) h table

/-! ### Runs -/

namespace Operation

/-- What an operation brings in from elsewhere is tight. -/
def BringsTight : Operation → Prop
  | .insert t => t.Tight
  | _ => True

/-- An operation of which a statement loosens a primary key in the catalog it comes to. -/
def Loosens (op : Operation) (c : Catalog) : Prop := ∃ v ∈ visits Catalog.apply op.statements c, v.2.Loosens v.1

instance (op : Operation) (c : Catalog) : Decidable (op.Loosens c) :=
  inferInstanceAs (Decidable (∃ v ∈ visits Catalog.apply op.statements c, _))

theorem run_tight {op : Operation} (hop : op.BringsTight) (h : c.Tight) (hl : ¬ op.Loosens c) :
    (op.run c).Tight := by
  have hall : ((applyAll op.statements).run c).state.Tight :=
    forEach_of_visits h fun v hv htight => apply_tight htight fun hloose => hl ⟨v, hv, hloose⟩
  cases op with
  | feed script => rw [run_feed]; exact hall
  | applyJson text => rw [run_applyJson]; exact hall
  | apply s => exact apply_tight h fun hloose => hl ⟨(s, c), List.mem_cons_self, hloose⟩
  | insert t =>
      rw [run]
      split
      · rename_i c' hc
        refine ⟨insert_wellFormed h.1 hop.1 hc, ?_⟩
        rw [Catalog.insert] at hc
        split at hc <;> cases hc
        exact h.2.of_entries hop.2 fun _ => mem_push
      · exact h

end Operation

theorem runAll_tight {ops : List Operation} (hops : ∀ op ∈ ops, op.BringsTight) (h : c.Tight)
    (hl : ∀ pre op post, ops = pre ++ op :: post → ¬ op.Loosens (c.runAll pre)) : (c.runAll ops).Tight := by
  induction ops generalizing c with
  | nil => exact h
  | cons op ops ih =>
      refine ih (fun op' hop' => hops op' (List.mem_cons_of_mem _ hop')) ?_ fun pre op' post he => ?_
      · exact op.run_tight (hops op List.mem_cons_self) h (hl [] op ops rfl)
      · exact hl (op :: pre) op' post (by rw [he]; rfl)

/-- Whatever is done to an empty catalog, under either policy and however it fails: no column of a primary
key is nullable, as long as no clause replaces one by a nullable column. In every table so reached a
clause that is carried out leaves the columns of the key not nullable unless it does that. -/
theorem reached_keysNotNull_unless_loosened (policy : Policy) (ops : List Operation)
    (hops : ∀ op ∈ ops, op.BringsTight)
    (hl : ∀ pre op post, ops = pre ++ op :: post → ¬ op.Loosens ((empty policy).runAll pre)) :
    ((empty policy).runAll ops).KeysNotNull ∧
      ∀ e ∈ ((empty policy).runAll ops).entries, ∀ (c : Catalog) (a : Alteration),
        ((a.edit c).run e.2).result = .ok () → (((a.edit c).run e.2).state.KeyNotNull ↔ ¬ a.Loosens e.2) := by
  have htight := runAll_tight hops (empty_tight policy) hl
  refine ⟨htight.2, fun e he c a hr => ?_⟩
  exact Alteration.edit_keyNotNull_iff ⟨(htight.1.tables_wellFormed e he).1, htight.2 e he⟩ hr

/-- A table of one column, which is its key. -/
def keyedTable : Statement :=
  .createTable
    { table := "t"
      entries := [.column { name := "id", type := { name := .int }, attributes := { primaryKey := true } }] }

/-- Its column, declared anew. -/
def redeclare (nullable : Option Bool) : Alteration :=
  .modifyColumn { name := "id", type := { name := .int }, attributes := { nullable := nullable } } none

/-- The table made, and its column declared anew and not nullable. -/
def redeclaredNotNull : List Operation := [.apply keyedTable, .apply (.alterTable "t" [redeclare (some false)])]

/-- The column stays in the key and not nullable; declared anew without a nullability it would be nullable. -/
theorem redeclaredNotNull_keysNotNull : (∀ op ∈ redeclaredNotNull, op.BringsTight) ∧
    (∀ pre op post, redeclaredNotNull = pre ++ op :: post → ¬ op.Loosens ((empty .strict).runAll pre)) ∧
    ((empty .strict).runAll redeclaredNotNull).tables.map Table.primaryColumns = [["id"]] ∧
    ((empty .strict).runAll redeclaredNotNull).KeysNotNull ∧
    ∀ e ∈ ((empty .strict).runAll redeclaredNotNull).entries,
      ¬ (((redeclare none).edit (empty .strict)).run e.2).state.KeyNotNull := by
  have hops : ∀ op ∈ redeclaredNotNull, op.BringsTight := by
    intro op hop
    simp only [redeclaredNotNull, List.mem_cons, List.not_mem_nil, or_false] at hop
    rcases hop with rfl | rfl <;> trivial
  have hl : ∀ pre op post, redeclaredNotNull = pre ++ op :: post →
      ¬ op.Loosens ((empty .strict).runAll pre) := by
    intro pre op post he
    rcases pre with _ | ⟨first, _ | ⟨second, rest⟩⟩
    · cases he; decide
    · cases he; decide
    · cases rest <;> cases he
  obtain ⟨hkeys, hnext⟩ := reached_keysNotNull_unless_loosened .strict redeclaredNotNull hops hl
  refine ⟨hops, hl, by decide, hkeys, fun e he => ?_⟩
  have hloosens : ∀ e ∈ ((empty .strict).runAll redeclaredNotNull).entries,
      (((redeclare none).edit (empty .strict)).run e.2).result = .ok () ∧ (redeclare none).Loosens e.2 := by
    decide
  intro hnull
  exact (hnext e he _ _ (hloosens e he).1).1 hnull (hloosens e he).2

/-- Under either policy the column of the key is nullable once it is declared anew without a nullability. -/
theorem redeclared_not_keysNotNull :
    ¬ ((empty .lenient).runAll [.apply keyedTable, .apply (.alterTable "t" [redeclare none])]).KeysNotNull ∧
      ¬ ((empty .strict).runAll [.apply keyedTable, .apply (.alterTable "t" [redeclare none])]).KeysNotNull := by
  decide

end Catalog

end DdlCatalog
