import DdlCatalog.Proofs.Table.Calls
import DdlCatalog.Proofs.Table.Renaming

/-!
Foreign keys of a table to itself, when a column takes another name. Their own side follows to the new name.
The side referred to stays as it was declared, so that it names a missing column if it named this one.
-/

namespace DdlCatalog.Table

variable {t t' : Table} {old new : String} {c : Column} {k : ForeignKey} {brought : List ForeignKey}

/-- A table has the columns that a foreign key names, those of its own side and those referred to. -/
def HasBothSides (t : Table) (k : ForeignKey) : Prop :=
  ∀ p ∈ k.parts ++ k.reference.parts, p.column ∈ t.columnNames

/-- The foreign keys of a table to itself refer to columns that it has. -/
def SelfReferencesResolved (t : Table) : Prop :=
  ∀ k ∈ t.foreignKeys, k.reference.table = t.name → ∀ p ∈ k.reference.parts, p.column ∈ t.columnNames

instance (t : Table) (k : ForeignKey) : Decidable (t.HasBothSides k) :=
  inferInstanceAs (Decidable (∀ p ∈ _, _))

instance (t : Table) : Decidable t.SelfReferencesResolved :=
  inferInstanceAs (Decidable (∀ k ∈ _, _))

theorem SelfReferencesResolved.hasBothSides (hself : t.SelfReferencesResolved) (h : t.WellFormed)
    (hk : k ∈ t.foreignKeys) (htable : k.reference.table = t.name) : t.HasBothSides k := by
  intro p hp
  rcases List.mem_append.1 hp with hown | hreferred
  · exact h.keys_resolved k.parts (foreignKey_mem_keyParts hk) p hown
  · exact hself k hk htable p hreferred

/-! ### A table with a column renamed -/

/-- A column of the table has taken a name and has brought foreign keys along. -/
structure Renamed (old new : String) (brought : List ForeignKey) (t t' : Table) : Prop where
  name_eq : t'.name = t.name
  mem_columnNames_iff : ∀ n, n ∈ t'.columnNames ↔ n = new ∨ n ∈ t.columnNames ∧ n ≠ old
  foreignKeys_eq : t'.foreignKeys = t.foreignKeys.map (·.renameColumn old new) ++ brought

theorem renamed_of_replaceColumn {placement : Option Placement} (h : t.WellFormed)
    (ht : t.replaceColumn old c placement = .ok t') :
    Renamed old c.name (c.inline.reference.map (ForeignKey.onColumns [c.name])).toList t t' := by
  obtain ⟨pre, d, post, columns, hs, -, hp, rfl⟩ := replaceColumn_cases ht
  have hnames : (columns.map (·.name)).Perm (c.name :: (pre ++ post).map (·.name)) := hp.map _
  exact {
    name_eq := promote_name _ c
    mem_columnNames_iff := fun n => by
      rw [promote_columnNames, ← mem_others_iff h.columns_distinct hs, ← List.mem_cons]
      exact hnames.mem_iff
    foreignKeys_eq := promote_foreignKeys _ c }

/-- A column renamed in place is one replaced by itself, which brings nothing along. -/
theorem renamed_of_renameColumn (h : t.WellFormed) (ht : t.renameColumn old new = .ok t') :
    Renamed old new [] t t' := by
  cases hold : t.hasColumn old with
  | false =>
      rw [renameColumn, hold] at ht
      cases ht
  | true =>
      obtain ⟨c, hc, rfl⟩ := hasColumn_iff.1 hold
      rw [← replaceColumn_renamed h hc new] at ht
      simpa [h.nothing_pending c hc] using renamed_of_replaceColumn h ht

namespace Renamed

/-- No column is lost but the one renamed. -/
theorem mem_columnNames_iff_of_mem (hr : Renamed old new brought t t') {n : String} (hn : n ∈ t.columnNames) :
    n ∈ t'.columnNames ↔ (n = old → old = new) := by
  rw [hr.mem_columnNames_iff]
  by_cases hold : n = old
  · subst hold
    simp
  · simp [hn, hold]

theorem renameColumn_mem (hr : Renamed old new brought t t') {p : KeyPart} (hp : p.column ∈ t.columnNames) :
    (p.renameColumn old new).column ∈ t'.columnNames := by
  rw [hr.mem_columnNames_iff, KeyPart.renameColumn]
  split
  · exact .inl rfl
  · rename_i hne
    exact .inr ⟨hp, hne⟩

/-- Both sides of a foreign key are still there exactly if the side referred to did not name the column. -/
theorem hasBothSides_iff (hr : Renamed old new brought t t') (hk : t.HasBothSides k) :
    t'.HasBothSides (k.renameColumn old new) ↔ old = new ∨ ∀ p ∈ k.reference.parts, p.column ≠ old := by
  have hown : ∀ q ∈ k.parts.map (KeyPart.renameColumn old new), q.column ∈ t'.columnNames := by
    intro q hq
    obtain ⟨p, hp, rfl⟩ := List.mem_map.1 hq
    exact hr.renameColumn_mem (hk p (List.mem_append_left _ hp))
  have hreferred (p : KeyPart) (hp : p ∈ k.reference.parts) :
      p.column ∈ t'.columnNames ↔ (p.column = old → old = new) :=
    hr.mem_columnNames_iff_of_mem (hk p (List.mem_append_right _ hp))
  constructor
  · intro hboth
    by_cases hsame : old = new
    · exact .inl hsame
    · refine .inr fun p hp hcolumn => hsame ?_
      exact (hreferred p hp).1 (hboth p (List.mem_append_right _ hp)) hcolumn
  · intro hspared q hq
    rcases List.mem_append.1 hq with hq | hq
    · exact hown q hq
    · refine (hreferred q hq).2 fun hcolumn => ?_
      exact hspared.resolve_right fun hother => hother q hq hcolumn

end Renamed

/-! ### Calls -/

/-- The column to which a call gives a name, and the name that it gives. -/
def Call.renaming? : Call → Option (String × String)
  | .renameColumn old new => some (old, new)
  | .replaceColumn name c _ => some (name, c.name)
  | _ => none

/-- The foreign keys that the column of a call brings along. -/
def Call.broughtKeys : Call → List ForeignKey
  | .addColumn c _ | .replaceColumn _ c _ => (c.inline.reference.map (ForeignKey.onColumns [c.name])).toList
  | _ => []

theorem Call.renamed {call : Call} (h : t.WellFormed) (hcall : call.renaming? = some (old, new))
    (ht : call.edit.Reaches t t') : Renamed old new call.broughtKeys t t' := by
  cases call with
  | renameColumn column name =>
      cases hcall
      rw [edit, Edits.renameColumn_eq] at ht
      exact renamed_of_renameColumn h (Edit.reaches_step.1 ht)
  | replaceColumn column c placement =>
      cases hcall
      rw [edit, Edits.replaceColumn_eq] at ht
      exact renamed_of_replaceColumn h (Edit.reaches_step.1 ht)
  | _ => cases hcall

/-- Where the foreign keys of a table to itself refer to columns that it has, a column that is renamed, or replaced
by one of another name, leaves each of them with both sides exactly if it is none of the columns referred to. -/
theorem renaming_selfReferences_iff {call : Call} (h : t.WellFormed) (hself : t.SelfReferencesResolved)
    (hcall : call.renaming? = some (old, new)) (ht : call.edit.Reaches t t') :
    t'.name = t.name ∧
      t'.foreignKeys = t.foreignKeys.map (·.renameColumn old new) ++ call.broughtKeys ∧
      ∀ k ∈ t.foreignKeys, k.reference.table = t.name →
        (t'.HasBothSides (k.renameColumn old new) ↔ old = new ∨ ∀ p ∈ k.reference.parts, p.column ≠ old) := by
  have hr := call.renamed h hcall ht
  exact ⟨hr.name_eq, hr.foreignKeys_eq, fun k hk htable => hr.hasBothSides_iff (hself.hasBothSides h hk htable)⟩

/-- People under others of the same office, which both sides of a foreign key name. -/
def staff : Table :=
  { name := "staff"
    columns := [{ name := "office", type := .int 4 }, { name := "number", type := .int 4 },
      { name := "manager", type := .int 4 }, { name := "room", type := .int 4 }]
    foreignKeys := [.onColumns ["office", "manager"] (.toColumns "staff" ["office", "number"]),
      .onColumns ["room"] (.toColumns "rooms" ["manager"]), .onColumns ["manager"] (.toColumns "staff" ["number"])]
    uniqueKeys := [.onColumns ["office", "number"]] }

/-- A manager of another name comes first and brings one more foreign key to the table itself. -/
theorem staff_manager_replaced :
    let call := Call.replaceColumn "manager"
      { name := "head", type := .int 8, inline := { reference := some (.toColumns "staff" ["number"]) } } (some .first)
    let t' := (call.edit.run staff).state
    staff.WellFormed ∧ staff.SelfReferencesResolved ∧ call.renaming? = some ("manager", "head") ∧
      call.edit.Reaches staff t' ∧
      t'.foreignKeys = staff.foreignKeys.map (·.renameColumn "manager" "head") ++
        [.onColumns ["head"] (.toColumns "staff" ["number"])] ∧
      ∀ k ∈ staff.foreignKeys, k.reference.table = "staff" → t'.HasBothSides (k.renameColumn "manager" "head") := by
  intro call t'
  have hw : staff.WellFormed := by decide
  have hself : staff.SelfReferencesResolved := by decide
  have hcall : call.renaming? = some ("manager", "head") := rfl
  have ht : call.edit.Reaches staff t' := ⟨rfl, rfl⟩
  have hspared : ∀ k ∈ staff.foreignKeys, k.reference.table = "staff" →
      ∀ p ∈ k.reference.parts, p.column ≠ "manager" := by decide
  obtain ⟨-, hkeys, hiff⟩ := renaming_selfReferences_iff hw hself hcall ht
  exact ⟨hw, hself, hcall, ht, hkeys, fun k hk htable => (hiff k hk htable).2 (.inr (hspared k hk htable))⟩

/-- A number of another name is missing on the side that is referred to, whichever call gave it the name. -/
theorem staff_number_missing :
    let renamed := (Call.renameColumn "number" "badge").edit.run staff
    let replaced := (Call.replaceColumn "number" { name := "badge", type := .int 4 } none).edit.run staff
    staff.WellFormed ∧ staff.SelfReferencesResolved ∧ renamed.result = .ok () ∧ replaced = renamed ∧
      renamed.state.name = "staff" ∧ renamed.state.columnNames = ["office", "badge", "manager", "room"] ∧
      renamed.state.foreignKeys = staff.foreignKeys ∧
      ¬ ∀ k ∈ renamed.state.foreignKeys, k.reference.table = "staff" → renamed.state.HasBothSides k := by
  exact ⟨by decide, by decide, rfl, rfl, rfl, rfl, rfl, by decide⟩

end DdlCatalog.Table
