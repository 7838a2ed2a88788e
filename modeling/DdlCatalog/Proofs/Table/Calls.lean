import DdlCatalog.Proofs.Table.KeyEdits

/-!
The operations of a table as one: a call that is refused has changed nothing, and any other leaves a
table of which the invariant holds again.
-/

namespace DdlCatalog.Table

open Edit

/-- A call of an operation of tables, with its arguments. -/
inductive Call
  | addColumn (c : Column) (placement : Option Placement)
  | moveColumn (name : String) (placement : Placement)
  | dropColumn (name : String)
  | renameColumn (old new : String)
  | replaceColumn (name : String) (c : Column) (placement : Option Placement)
  | setColumnDefault (name : String) (value : Option DefaultValue)
  | pushIndex (kind : IndexKind) (i : Index)
  | pushForeignKey (k : ForeignKey)
  | addPrimaryKey (key : Index)
  | setPrimaryKey (key : Index)
  | dropPrimaryKey
  | dropForeignKey (symbol : String)
  | dropIndex (name : String)
  | renameIndex (old new : String)
  | mergeOptions (options : List TableOption)
  | setOptions (options : TableOptions)

/-- What a call does to its table, apart from what it gives back. -/
def Call.edit : Call → Edit Table Unit
  | .addColumn c placement => Edits.addColumn c placement
  | .moveColumn name placement => Edits.moveColumn name placement
  | .dropColumn name => do let _ ← Edits.dropColumn name
  | .renameColumn old new => Edits.renameColumn old new
  | .replaceColumn name c placement => Edits.replaceColumn name c placement
  | .setColumnDefault name value => Edits.setColumnDefault name value
  | .pushIndex kind i => Edits.pushIndex kind i
  | .pushForeignKey k => Edits.pushForeignKey k
  | .addPrimaryKey key => Edits.addPrimaryKey key
  | .setPrimaryKey key => do let _ ← Edits.setPrimaryKey key
  | .dropPrimaryKey => do let _ ← Edits.takePrimaryKey
  | .dropForeignKey symbol => do let _ ← Edits.dropForeignKey symbol
  | .dropIndex name => do let _ ← Edits.dropNamedIndex name
  | .renameIndex old new => Edits.renameIndex old new
  | .mergeOptions options => Edits.mergeOptions options
  | .setOptions options => Edits.setOptions options

namespace Edits

/-! ### Refused as a whole -/

theorem takePrimaryKey_eq : takePrimaryKey = .whole (fun t => .ok (t.primaryKey, t.withoutPrimaryKey)) fun _ => [] :=
  rfl

theorem dropIndex_atomic (name : String) : (dropIndex name).Atomic := by
  rw [dropIndex]
  split
  · rw [dropPrimaryKey_eq]; exact atomic_step _ _
  · rw [dropNamedIndex_eq, whole_discard]; exact atomic_step _ _

/-! ### The invariant kept -/

section Keeps

variable (n : String)

theorem keeps_of_change {change : Table → Except ReferenceError Table} {events : Table → List Event}
    (hw : ∀ t t', t.WellFormed → change t = .ok t' → t'.WellFormed)
    (hn : ∀ t t', change t = .ok t' → t'.name = t.name) : (step change events).Keeps (WellFormedAs n) :=
  keeps_step fun t t' h ht => ⟨hw t t' h.1 ht, (hn t t' ht).trans h.2⟩

theorem keeps_of_whole {α : Type} {change : Table → Except ReferenceError (α × Table)}
    {events : Table → List Event} (hw : ∀ t a t', t.WellFormed → change t = .ok (a, t') → t'.WellFormed)
    (hn : ∀ t a t', change t = .ok (a, t') → t'.name = t.name) : (whole change events).Keeps (WellFormedAs n) :=
  keeps_whole fun t a t' h ht => ⟨hw t a t' h.1 ht, (hn t a t' ht).trans h.2⟩

theorem addColumn_keeps (c : Column) (placement : Option Placement) :
    (addColumn c placement).Keeps (WellFormedAs n) := by
  rw [addColumn_eq]
  exact keeps_of_change n (fun _ _ => addColumn_wellFormed) fun _ _ => addColumn_name

theorem moveColumn_keeps (name : String) (placement : Placement) :
    (moveColumn name placement).Keeps (WellFormedAs n) := by
  rw [moveColumn_eq]
  exact keeps_of_change n (fun _ _ => moveColumn_wellFormed) fun _ _ => moveColumn_name

theorem dropColumn_keeps (name : String) : (dropColumn name).Keeps (WellFormedAs n) := by
  rw [dropColumn_eq]
  exact keeps_of_whole n (fun _ _ _ => dropColumn_wellFormed) fun _ _ _ => dropColumn_name

theorem renameColumn_keeps (old new : String) : (renameColumn old new).Keeps (WellFormedAs n) := by
  rw [renameColumn_eq]
  exact keeps_of_change n (fun _ _ => renameColumn_wellFormed) fun _ _ => renameColumn_name

theorem replaceColumn_keeps (name : String) (c : Column) (placement : Option Placement) :
    (replaceColumn name c placement).Keeps (WellFormedAs n) := by
  rw [replaceColumn_eq]
  exact keeps_of_change n (fun _ _ => replaceColumn_wellFormed) fun _ _ => replaceColumn_name

theorem setColumnDefault_keeps (name : String) (value : Option DefaultValue) :
    (setColumnDefault name value).Keeps (WellFormedAs n) := by
  rw [setColumnDefault_eq]
  exact keeps_of_change n (fun _ _ => setColumnDefault_wellFormed) fun _ _ => setColumnDefault_name

theorem pushIndex_keeps (kind : IndexKind) (i : Index) : (pushIndex kind i).Keeps (WellFormedAs n) := by
  rw [pushIndex_eq]
  exact keeps_of_change n (fun _ _ => pushIndex_wellFormed) fun _ _ => pushIndex_name

theorem pushForeignKey_keeps (k : ForeignKey) : (pushForeignKey k).Keeps (WellFormedAs n) := by
  rw [pushForeignKey_eq]
  exact keeps_of_change n (fun _ _ => pushForeignKey_wellFormed) fun _ _ => pushForeignKey_name

theorem setPrimaryKey_keeps (key : Index) : (setPrimaryKey key).Keeps (WellFormedAs n) := by
  rw [setPrimaryKey_eq]
  apply keeps_whole
  intro t previous t' h ht
  cases hk : t.setPrimaryKey key with
  | error r => simp [hk] at ht
  | ok t'' =>
      rw [hk] at ht
      cases ht
      exact ⟨setPrimaryKey_wellFormed h.1 hk, (setPrimaryKey_name hk).trans h.2⟩

theorem addPrimaryKey_keeps (key : Index) : (addPrimaryKey key).Keeps (WellFormedAs n) := by
  rw [addPrimaryKey_eq]
  exact keeps_of_change n (fun _ _ => addPrimaryKey_wellFormed) fun _ _ => addPrimaryKey_name

theorem takePrimaryKey_keeps : takePrimaryKey.Keeps (WellFormedAs n) := by
  rw [takePrimaryKey_eq]
  apply keeps_whole
  intro t previous t' h ht
  cases ht
  exact ⟨withoutPrimaryKey_wellFormed h.1, h.2⟩

theorem dropPrimaryKey_keeps : dropPrimaryKey.Keeps (WellFormedAs n) := by
  rw [dropPrimaryKey_eq]
  exact keeps_of_change n (fun _ _ => dropPrimaryKey_wellFormed) fun _ _ => dropPrimaryKey_name

theorem dropForeignKey_keeps (symbol : String) : (dropForeignKey symbol).Keeps (WellFormedAs n) := by
  rw [dropForeignKey_eq]
  exact keeps_of_whole n (fun _ _ _ => dropForeignKey_wellFormed) fun _ _ _ => dropForeignKey_name

theorem dropNamedIndex_keeps (name : String) : (dropNamedIndex name).Keeps (WellFormedAs n) := by
  rw [dropNamedIndex_eq]
  exact keeps_of_whole n (fun _ _ _ => dropIndex_wellFormed) fun _ _ _ => dropIndex_name

theorem dropIndex_keeps (name : String) : (dropIndex name).Keeps (WellFormedAs n) := by
  rw [dropIndex]
  split
  · exact dropPrimaryKey_keeps n
  · exact keeps_discard (dropNamedIndex_keeps n name)

theorem renameIndex_keeps (old new : String) : (renameIndex old new).Keeps (WellFormedAs n) := by
  rw [renameIndex_eq]
  exact keeps_of_change n (fun _ _ => renameIndex_wellFormed) fun _ _ => renameIndex_name

theorem mergeOptions_keeps (options : List TableOption) : (mergeOptions options).Keeps (WellFormedAs n) :=
  keeps_modify fun _ h => ⟨mergeOptions_wellFormed h.1 options, h.2⟩

theorem setOptions_keeps (options : TableOptions) : (setOptions options).Keeps (WellFormedAs n) :=
  keeps_modify fun _ h => ⟨setOptions_wellFormed h.1 options, h.2⟩

end Keeps

end Edits

/-! ### Calls -/

theorem Call.edit_atomic (call : Call) : call.edit.Atomic := by
  cases call with
  | addColumn c placement => rw [edit, Edits.addColumn_eq]; exact atomic_step _ _
  | moveColumn name placement => rw [edit, Edits.moveColumn_eq]; exact atomic_step _ _
  | dropColumn name => rw [edit, Edits.dropColumn_eq, whole_discard]; exact atomic_step _ _
  | renameColumn old new => rw [edit, Edits.renameColumn_eq]; exact atomic_step _ _
  | replaceColumn name c placement => rw [edit, Edits.replaceColumn_eq]; exact atomic_step _ _
  | setColumnDefault name value => rw [edit, Edits.setColumnDefault_eq]; exact atomic_step _ _
  | pushIndex kind i => rw [edit, Edits.pushIndex_eq]; exact atomic_step _ _
  | pushForeignKey k => rw [edit, Edits.pushForeignKey_eq]; exact atomic_step _ _
  | addPrimaryKey key => rw [edit, Edits.addPrimaryKey_eq]; exact atomic_step _ _
  | setPrimaryKey key => rw [edit, Edits.setPrimaryKey_eq, whole_discard]; exact atomic_step _ _
  | dropPrimaryKey => rw [edit, Edits.takePrimaryKey_eq, whole_discard]; exact atomic_step _ _
  | dropForeignKey symbol => rw [edit, Edits.dropForeignKey_eq, whole_discard]; exact atomic_step _ _
  | dropIndex name => rw [edit, Edits.dropNamedIndex_eq, whole_discard]; exact atomic_step _ _
  | renameIndex old new => rw [edit, Edits.renameIndex_eq]; exact atomic_step _ _
  | mergeOptions options => exact atomic_step _ _
  | setOptions options => exact atomic_step _ _

theorem Call.edit_keeps (n : String) (call : Call) : call.edit.Keeps (WellFormedAs n) := by
  cases call with
  | addColumn c placement => exact Edits.addColumn_keeps n c placement
  | moveColumn name placement => exact Edits.moveColumn_keeps n name placement
  | dropColumn name => exact keeps_discard (Edits.dropColumn_keeps n name)
  | renameColumn old new => exact Edits.renameColumn_keeps n old new
  | replaceColumn name c placement => exact Edits.replaceColumn_keeps n name c placement
  | setColumnDefault name value => exact Edits.setColumnDefault_keeps n name value
  | pushIndex kind i => exact Edits.pushIndex_keeps n kind i
  | pushForeignKey k => exact Edits.pushForeignKey_keeps n k
  | addPrimaryKey key => exact Edits.addPrimaryKey_keeps n key
  | setPrimaryKey key => exact keeps_discard (Edits.setPrimaryKey_keeps n key)
  | dropPrimaryKey => exact keeps_discard (Edits.takePrimaryKey_keeps n)
  | dropForeignKey symbol => exact keeps_discard (Edits.dropForeignKey_keeps n symbol)
  | dropIndex name => exact keeps_discard (Edits.dropNamedIndex_keeps n name)
  | renameIndex old new => exact Edits.renameIndex_keeps n old new
  | mergeOptions options => exact Edits.mergeOptions_keeps n options
  | setOptions options => exact Edits.setOptions_keeps n options

/-- Whatever is called on a well-formed table, and with whatever arguments: it is refused and the table
is the one before, in all its parts, or it is done and the table is well-formed again. -/
theorem call_refused_unchanged_or_wellFormed {t : Table} (h : t.WellFormed) (call : Call) :
    match (call.edit.run t).result with
    | .error _ => (call.edit.run t).state = t
    | .ok _ => (call.edit.run t).state.WellFormed := by
  cases hr : (call.edit.run t).result with
  | error r => exact call.edit_atomic t r hr
  | ok _ => exact (call.edit_keeps t.name t ⟨h, rfl⟩).1

/-- A table with a key on each of its columns. -/
def keyed : Table :=
  { name := "t"
    columns := [{ name := "a", type := .int 4 }, { name := "b", type := .int 4 }]
    primaryKey := some (.onColumns ["a"])
    uniqueKeys := [{ Index.onColumns ["b"] with name := some "ub" }] }

/-- A column is out of the table when the place behind itself is looked up, and back in it after that;
renamed, it takes its key along. -/
theorem keyed_moveColumn_refused_renameColumn_wellFormed : keyed.WellFormed ∧
    ((Call.moveColumn "a" (.after "a")).edit.run keyed).result = .error (.unknownColumn "t" "a") ∧
    ((Call.moveColumn "a" (.after "a")).edit.run keyed).state = keyed ∧
    ((Call.renameColumn "a" "c").edit.run keyed).result = .ok () ∧
    ((Call.renameColumn "a" "c").edit.run keyed).state.WellFormed := by
  have hw : keyed.WellFormed := by decide
  have hmove : ((Call.moveColumn "a" (.after "a")).edit.run keyed).result = .error (.unknownColumn "t" "a") :=
    rfl
  have hrename : ((Call.renameColumn "a" "c").edit.run keyed).result = .ok () := rfl
  have hunchanged := call_refused_unchanged_or_wellFormed hw (.moveColumn "a" (.after "a"))
  have hagain := call_refused_unchanged_or_wellFormed hw (.renameColumn "a" "c")
  rw [hmove] at hunchanged
  rw [hrename] at hagain
  exact ⟨hw, hmove, hunchanged, hrename, hagain⟩

end DdlCatalog.Table
