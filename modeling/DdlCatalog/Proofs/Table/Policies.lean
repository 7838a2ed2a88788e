import DdlCatalog.Proofs.Policies
import DdlCatalog.Proofs.Table.InPlace
import DdlCatalog.Schema.Build

/-!
Edits of tables and definitions under both policies. An edit of a table is refused, if it is, without
having ignored anything; what is ignored in a definition are entries and keys as a whole.
-/

namespace DdlCatalog.Table

open Edit

/-! ### What is reported -/

theorem firstIgnored_eq_none_iff {events : List Event} :
    firstIgnored events = none ↔ ∀ event ∈ events, event.ignored? = none :=
  List.findSome?_eq_none_iff

theorem promoteEvents_ignored (t : Table) (c : Column) : firstIgnored (t.promoteEvents c) = none := by
  rw [promoteEvents]
  split <;> rfl

theorem declareEvents_ignored (t : Table) : firstIgnored (declareEvents t) = none := by
  rw [declareEvents]
  split <;> rfl

theorem dropEvents_ignored (t : Table) (column : String) : firstIgnored (t.dropEvents column) = none := by
  rw [firstIgnored_eq_none_iff]
  have hindexes (kind : IndexKind) : ∀ event ∈ t.removedIndexes column kind, event.ignored? = none := by
    intro event he
    obtain ⟨i, -, rfl⟩ := List.mem_map.1 he
    rfl
  have hforeign : ∀ event ∈ t.removedForeignKeys column, event.ignored? = none := by
    intro event he
    obtain ⟨k, -, rfl⟩ := List.mem_map.1 he
    rfl
  have hprimary : ∀ event ∈ t.removedPrimaryKey column, event.ignored? = none := by
    intro event he
    rw [removedPrimaryKey] at he
    split at he
    · cases List.mem_singleton.1 he; rfl
    · cases he
  intro event he
  simp only [dropEvents, List.mem_append] at he
  rcases he with ((((he | he) | he) | he) | he) | he
  · exact hindexes .fulltext event he
  · exact hindexes .spatial event he
  · exact hindexes .plain event he
  · exact hindexes .unique event he
  · exact hforeign event he
  · exact hprimary event he

namespace Edits

theorem addColumn_heedful (c : Column) (placement : Option Placement) : (addColumn c placement).Heedful := by
  rw [addColumn_eq]
  exact heedful_step fun t => promoteEvents_ignored t c

theorem replaceColumn_heedful (name : String) (c : Column) (placement : Option Placement) :
    (replaceColumn name c placement).Heedful := by
  rw [replaceColumn_eq]
  exact heedful_step fun t => promoteEvents_ignored t c

theorem dropColumn_heedful (name : String) : (dropColumn name).Heedful := by
  rw [dropColumn_eq]
  exact heedful_whole fun t => dropEvents_ignored t name

theorem renameColumn_heedful (old new : String) : (renameColumn old new).Heedful := by
  rw [renameColumn_eq]
  exact heedful_quiet _

theorem setColumnDefault_heedful (name : String) (value : Option DefaultValue) :
    (setColumnDefault name value).Heedful := by
  rw [setColumnDefault_eq]
  exact heedful_quiet _

theorem pushIndex_heedful (kind : IndexKind) (i : Index) : (pushIndex kind i).Heedful := by
  rw [pushIndex_eq]
  exact heedful_quiet _

theorem pushForeignKey_heedful (k : ForeignKey) : (pushForeignKey k).Heedful := by
  rw [pushForeignKey_eq]
  exact heedful_quiet _

theorem addPrimaryKey_heedful (key : Index) : (addPrimaryKey key).Heedful := by
  rw [addPrimaryKey_eq]
  exact heedful_quiet _

theorem dropPrimaryKey_heedful : dropPrimaryKey.Heedful := by
  rw [dropPrimaryKey_eq]
  exact heedful_quiet _

theorem dropForeignKey_heedful (symbol : String) : (dropForeignKey symbol).Heedful := by
  rw [dropForeignKey_eq]
  exact heedful_whole fun _ => rfl

theorem dropIndex_heedful (name : String) : (dropIndex name).Heedful := by
  rw [dropIndex]
  split
  · exact dropPrimaryKey_heedful
  · rw [dropNamedIndex_eq]
    exact heedful_discard (heedful_whole fun _ => rfl)

theorem renameIndex_heedful (old new : String) : (renameIndex old new).Heedful := by
  rw [renameIndex_eq]
  exact heedful_quiet _

end Edits

/-! ### Definitions -/

theorem addEntry_heedful (e : TableEntry) : (addEntry e).Heedful := by
  cases e with
  | column d => exact Edits.addColumn_heedful _ none
  | primaryKey key => exact heedful_step declareEvents_ignored
  | foreignKey k => exact heedful_quiet _
  | index kind i => exact heedful_quiet _

theorem run_refuseUnresolved (policy : Policy) (keys : Table → List (List KeyPart)) (t : Table) :
    (refuseUnresolved policy keys).run t =
      (forEach (fun column => under policy (refuse (.unknownColumn t.name column)))
        ((keys t).filterMap t.missingColumn?)).run t := rfl

/-- The keys that do not resolve are refused one by one on the same table. -/
theorem refuseUnresolved_agree (keys : Table → List (List KeyPart)) :
    Agree Eq (refuseUnresolved .lenient keys) (refuseUnresolved .strict keys) := by
  have h (t : Table) := agree_forEach
    (fun column => agree_under (alike_refuse (.unknownColumn t.name column) : Alike (σ := Table) Eq _ _))
    ((keys t).filterMap t.missingColumn?)
  constructor
  · intro t
    rw [run_refuseUnresolved]
    exact (h t).lenient_ok t
  · rintro t _ rfl
    rw [run_refuseUnresolved, run_refuseUnresolved]
    exact (h t).predicts t t rfl

theorem agree_modify_eq (change : Table → Table) : Agree Eq (modify change) (modify change) :=
  agree_modify fun _ _ h => congrArg change h

theorem resolve_agree : Agree Eq (resolve .lenient) (resolve .strict) := by
  have hindexes (kind : IndexKind) : Agree Eq (resolveIndexes .lenient kind) (resolveIndexes .strict kind) :=
    agree_bind (refuseUnresolved_agree _) (agree_modify_eq _)
  have hforeign : Agree Eq (resolveForeignKeys .lenient) (resolveForeignKeys .strict) :=
    agree_bind (refuseUnresolved_agree _) (agree_modify_eq _)
  have hprimary : Agree Eq (resolvePrimaryKey .lenient) (resolvePrimaryKey .strict) :=
    agree_bind (refuseUnresolved_agree _) (agree_modify_eq _)
  exact agree_bind (hindexes .fulltext) <| agree_bind (hindexes .spatial) <| agree_bind (hindexes .plain) <|
    agree_bind (hindexes .unique) <| agree_bind hforeign hprimary

theorem addDefinition_agree (d : TableDefinition) :
    Agree Eq (addDefinition .lenient d) (addDefinition .strict d) :=
  agree_bind (agree_forEach (fun e => agree_under (addEntry_heedful e).alike) d.entries) <|
    agree_bind resolve_agree (agree_modify_eq _)

end DdlCatalog.Table
