import DdlCatalog.Catalog.Script
import DdlCatalog.Proofs.Catalog.Policies
import DdlCatalog.Proofs.Parsed.WellFormed

/-!
A key without columns is refused where it is added or declared, and nowhere else. The statements of a script have
none, so that a catalog never meets one, however the script goes.
-/

namespace DdlCatalog

/-- A key is refused because it has no columns. -/
def ReferenceError.IsEmptyKey : ReferenceError → Prop
  | .emptyKey _ => True
  | _ => False

namespace Edit

variable {σ α β : Type} {E : ReferenceError → Prop}

/-- No such error is met: the edit is not refused with one and passes none over. -/
def Avoids (E : ReferenceError → Prop) (e : Edit σ α) : Prop :=
  ∀ s r, E r → (e.run s).result ≠ .error r ∧ .ignored r ∉ (e.run s).events

theorem Heedful.avoids {e : Edit σ α} (he : e.Heedful) (h : ∀ s r, E r → (e.run s).result ≠ .error r) :
    e.Avoids E := by
  refine fun s r hr => ⟨h s r hr, fun hm => ?_⟩
  have hnone := Table.firstIgnored_eq_none_iff.1 (he s) _ hm
  cases hnone

theorem avoids_pure (a : α) : (pure a : Edit σ α).Avoids E := (heedful_pure a).avoids (by rintro s r hr ⟨⟩)

theorem avoids_modify (change : σ → σ) : (modify change).Avoids E :=
  (heedful_quiet _).avoids (by rintro s r hr ⟨⟩)

theorem avoids_refuse {r : ReferenceError} (h : ¬ E r) : (refuse r : Edit σ α).Avoids E := by
  refine (heedful_refuse r).avoids fun s r' hr' hrun => ?_
  cases hrun
  exact h hr'

theorem avoids_step {change : σ → Except ReferenceError σ} {events : σ → List Event}
    (hevents : ∀ s, firstIgnored (events s) = none) (h : ∀ s r, E r → change s ≠ .error r) :
    (step change events).Avoids E := by
  refine (heedful_step hevents).avoids fun s r hr hrun => ?_
  rw [run_step] at hrun
  cases hc : change s with
  | error r' => rw [hc] at hrun; cases hrun; exact h s r hr hc
  | ok s' => rw [hc] at hrun; cases hrun

theorem avoids_quiet {change : σ → Except ReferenceError σ} (h : ∀ s r, E r → change s ≠ .error r) :
    (quiet change).Avoids E :=
  avoids_step (fun _ => rfl) h

theorem avoids_whole {change : σ → Except ReferenceError (α × σ)} {events : σ → List Event}
    (hevents : ∀ s, firstIgnored (events s) = none) (h : ∀ s r, E r → change s ≠ .error r) :
    (whole change events).Avoids E := by
  refine (heedful_whole hevents).avoids fun s r hr hrun => ?_
  rw [run_whole] at hrun
  cases hc : change s with
  | error r' => rw [hc] at hrun; cases hrun; exact h s r hr hc
  | ok p => rw [hc] at hrun; cases hrun

theorem avoids_bind {e : Edit σ α} {f : α → Edit σ β} (he : e.Avoids E) (hf : ∀ a, (f a).Avoids E) :
    (e >>= f).Avoids E := by
  intro s r hr
  have hfirst := he s r hr
  rw [run_bind]
  cases hc : (e.run s).result with
  | error r' =>
      rw [hc] at hfirst
      exact ⟨fun heq => hfirst.1 (by cases heq; rfl), hfirst.2⟩
  | ok a =>
      have hsecond := hf a (e.run s).state r hr
      exact ⟨hsecond.1, fun hm => (List.mem_append.1 hm).elim hfirst.2 hsecond.2⟩

theorem avoids_discard {e : Edit σ α} (he : e.Avoids E) : (do let _ ← e : Edit σ Unit).Avoids E :=
  avoids_bind he fun _ => avoids_pure ()

/-- What is passed over is what the edit is refused with. -/
theorem avoids_under {e : Edit σ Unit} (policy : Policy) (he : e.Avoids E) : (under policy e).Avoids E := by
  intro s r hr
  have hrun := he s r hr
  rw [run_under]
  cases policy with
  | strict => exact hrun
  | lenient =>
      cases hc : (e.run s).result with
      | ok _ =>
          rw [hc] at hrun
          simp only [hc]
          exact hrun
      | error r' =>
          refine ⟨fun heq => (by cases heq), fun hm => ?_⟩
          rcases List.mem_append.1 hm with hm | hm
          · exact hrun.2 hm
          · cases List.mem_singleton.1 hm
            exact hrun.1 hc

theorem avoids_forEach {edit : α → Edit σ Unit} {as : List α} (h : ∀ a ∈ as, (edit a).Avoids E) :
    (forEach edit as).Avoids E := by
  induction as with
  | nil => exact avoids_pure ()
  | cons a as ih =>
      exact avoids_bind (h a List.mem_cons_self) fun _ => ih fun b hb => h b (List.mem_cons_of_mem _ hb)

end Edit

namespace Table

open Edit ReferenceError

variable {t : Table} {r : ReferenceError}

/-! ### Changes of a table -/

theorem addColumn_ne_emptyKey (hr : r.IsEmptyKey) (t : Table) (c : Column) (placement : Option Placement) :
    t.addColumn c placement ≠ .error r := by
  intro h
  rw [addColumn] at h
  split at h
  · cases h; exact hr
  · split at h
    · cases h
      rw [noPlace.eq_def] at hr
      split at hr <;> exact hr
    · cases h

theorem columnPosition_ne_emptyKey (hr : r.IsEmptyKey) (t : Table) (name : String) :
    t.columnPosition name ≠ .error r := by
  intro h
  rw [columnPosition] at h
  split at h
  · cases h; exact hr
  · cases h
  · split at h <;> cases h

theorem replaceColumn_ne_emptyKey (hr : r.IsEmptyKey) (t : Table) (name : String) (c : Column)
    (placement : Option Placement) : t.replaceColumn name c placement ≠ .error r := by
  have hplace : t.replacementPlace name placement ≠ .error r := by
    intro h
    rw [replacementPlace.eq_def] at h
    split at h
    · exact columnPosition_ne_emptyKey hr t name h
    · cases h
    · split at h <;> cases h
      exact hr
  intro h
  rw [replaceColumn] at h
  split at h
  · cases h; exact hr
  · split at h
    · cases h; exact hr
    · split at h
      · rename_i hp; cases h; exact hplace hp
      · cases h

theorem dropColumn_ne_emptyKey (hr : r.IsEmptyKey) (t : Table) (name : String) : t.dropColumn name ≠ .error r := by
  intro h
  rw [dropColumn] at h
  split at h <;> cases h
  exact hr

theorem renameColumn_ne_emptyKey (hr : r.IsEmptyKey) (t : Table) (old new : String) :
    t.renameColumn old new ≠ .error r := by
  intro h
  rw [renameColumn] at h
  repeat' split at h
  all_goals cases h
  all_goals exact hr

theorem setColumnDefault_ne_emptyKey (hr : r.IsEmptyKey) (t : Table) (name : String) (value : Option DefaultValue) :
    t.setColumnDefault name value ≠ .error r := by
  intro h
  rw [setColumnDefault] at h
  split at h <;> cases h
  exact hr

/-- The one check that finds a key without columns. -/
theorem checkParts_ne_emptyKey (hr : r.IsEmptyKey) (t : Table) {parts : List KeyPart} (hp : parts ≠ []) :
    t.checkParts parts ≠ .error r := by
  intro h
  rw [checkParts, if_neg (by simpa using hp)] at h
  split at h <;> cases h
  exact hr

theorem checkIndexName_ne_emptyKey (hr : r.IsEmptyKey) (t : Table) (name : Option String) :
    t.checkIndexName name ≠ .error r := by
  intro h
  rw [checkIndexName.eq_def] at h
  repeat' split at h
  all_goals cases h
  exact hr

theorem checkSymbol_ne_emptyKey (hr : r.IsEmptyKey) (t : Table) (symbol : Option String) :
    t.checkSymbol symbol ≠ .error r := by
  intro h
  rw [checkSymbol.eq_def] at h
  repeat' split at h
  all_goals cases h
  exact hr

/-- A check that passes the error on is followed by one that may have it. -/
theorem bind_ne_error {α β : Type} {check : Except ReferenceError α} {f : α → Except ReferenceError β}
    (hcheck : check ≠ .error r) (hf : ∀ a, f a ≠ .error r) : (check >>= f) ≠ .error r := by
  cases check with
  | error r' => exact fun h => hcheck (by cases h; rfl)
  | ok a => exact hf a

theorem pushIndex_ne_emptyKey (hr : r.IsEmptyKey) (t : Table) (kind : IndexKind) {i : Index} (hi : i.WellFormed) :
    t.pushIndex kind i ≠ .error r :=
  bind_ne_error (checkParts_ne_emptyKey hr t hi) fun _ =>
    bind_ne_error (checkIndexName_ne_emptyKey hr t i.name) fun _ => by rintro ⟨⟩

theorem pushForeignKey_ne_emptyKey (hr : r.IsEmptyKey) (t : Table) {k : ForeignKey} (hk : k.parts ≠ []) :
    t.pushForeignKey k ≠ .error r :=
  bind_ne_error (checkParts_ne_emptyKey hr t hk) fun _ =>
    bind_ne_error (checkSymbol_ne_emptyKey hr t k.symbol) fun _ => by rintro ⟨⟩

theorem addPrimaryKey_ne_emptyKey (hr : r.IsEmptyKey) (t : Table) {key : Index} (hi : key.WellFormed) :
    t.addPrimaryKey key ≠ .error r := by
  intro h
  rw [addPrimaryKey] at h
  split at h
  · cases h; exact hr
  · exact bind_ne_error (checkParts_ne_emptyKey hr t hi) (fun _ => by rintro ⟨⟩) h

theorem dropPrimaryKey_ne_emptyKey (hr : r.IsEmptyKey) (t : Table) : t.dropPrimaryKey ≠ .error r := by
  intro h
  rw [dropPrimaryKey] at h
  split at h <;> cases h
  exact hr

theorem dropForeignKey_ne_emptyKey (hr : r.IsEmptyKey) (t : Table) (symbol : String) :
    t.dropForeignKey symbol ≠ .error r := by
  intro h
  rw [dropForeignKey] at h
  split at h <;> cases h
  exact hr

theorem dropIndex_ne_emptyKey (hr : r.IsEmptyKey) (t : Table) (name : String) : t.dropIndex name ≠ .error r := by
  intro h
  rw [dropIndex] at h
  split at h <;> cases h
  exact hr

theorem renameIndex_ne_emptyKey (hr : r.IsEmptyKey) (t : Table) (old new : String) :
    t.renameIndex old new ≠ .error r := by
  intro h
  rw [renameIndex] at h
  repeat' split at h
  all_goals cases h
  all_goals exact hr

/-! ### Definitions -/

theorem dropIndex_avoids (name : String) : (Edits.dropIndex name).Avoids IsEmptyKey := by
  rw [Edits.dropIndex]
  split
  · rw [Edits.dropPrimaryKey_eq]
    exact avoids_quiet fun t _ hr => dropPrimaryKey_ne_emptyKey hr t
  · rw [Edits.dropNamedIndex_eq]
    exact avoids_discard (avoids_whole (fun _ => rfl) fun t _ hr => dropIndex_ne_emptyKey hr t name)

theorem addColumn_avoids (c : Column) (placement : Option Placement) :
    (Edits.addColumn c placement).Avoids IsEmptyKey := by
  rw [Edits.addColumn_eq]
  exact avoids_step (fun t => promoteEvents_ignored t c) fun t _ hr => addColumn_ne_emptyKey hr t c placement

theorem addEntry_avoids {e : TableEntry} (he : e.Meets wellFormedParts) : (addEntry e).Avoids IsEmptyKey := by
  have hnonempty {i : Index} (hi : i.WellFormed) : i.isEmpty = false := by
    simpa [Index.isEmpty, Index.WellFormed] using hi
  cases e with
  | column d => exact addColumn_avoids _ none
  | primaryKey key =>
      refine avoids_step declareEvents_ignored fun t r hr h => ?_
      have hkey : key.isEmpty = false := hnonempty he
      rw [declarePrimaryKey, hkey] at h
      cases h
  | foreignKey k =>
      have hkey : k.plain.isEmpty = false := by
        have hparts : k.parts ≠ [] := ForeignKey.WellFormed.parts_nonempty he
        simpa [ForeignKey.isEmpty, ForeignKey.plain] using hparts
      refine avoids_quiet fun t r hr => ?_
      rw [declareForeignKey, hkey]
      exact bind_ne_error (checkSymbol_ne_emptyKey hr t _) fun _ => by rintro ⟨⟩
  | index kind i =>
      have hkey : i.isEmpty = false := hnonempty he
      refine avoids_quiet fun t r hr => ?_
      rw [declareIndex, hkey]
      exact bind_ne_error (checkIndexName_ne_emptyKey hr t _) fun _ => by rintro ⟨⟩

theorem refuseUnresolved_avoids (policy : Policy) (keys : Table → List (List KeyPart)) :
    (refuseUnresolved policy keys).Avoids IsEmptyKey := by
  intro t
  rw [run_refuseUnresolved]
  exact avoids_forEach (fun _ _ => avoids_under policy (avoids_refuse id)) t

theorem resolve_avoids (policy : Policy) : (resolve policy).Avoids IsEmptyKey := by
  have hindexes (kind : IndexKind) : (resolveIndexes policy kind).Avoids IsEmptyKey :=
    avoids_bind (refuseUnresolved_avoids policy _) fun _ => avoids_modify _
  have hforeign : (resolveForeignKeys policy).Avoids IsEmptyKey :=
    avoids_bind (refuseUnresolved_avoids policy _) fun _ => avoids_modify _
  have hprimary : (resolvePrimaryKey policy).Avoids IsEmptyKey :=
    avoids_bind (refuseUnresolved_avoids policy _) fun _ => avoids_modify _
  exact avoids_bind (hindexes .fulltext) fun _ => avoids_bind (hindexes .spatial) fun _ =>
    avoids_bind (hindexes .plain) fun _ => avoids_bind (hindexes .unique) fun _ => avoids_bind hforeign fun _ => hprimary

theorem addDefinition_avoids (policy : Policy) {d : TableDefinition} (h : ∀ e ∈ d.entries, e.Meets wellFormedParts) :
    (addDefinition policy d).Avoids IsEmptyKey :=
  avoids_bind (avoids_forEach fun e he => avoids_under policy (addEntry_avoids (h e he))) fun _ =>
    avoids_bind (resolve_avoids policy) fun _ => avoids_modify _

end Table

namespace Catalog

open Edit Table ReferenceError

variable {c : Catalog}

/-! ### Statements -/

theorem alteration_avoids (c : Catalog) {a : Alteration} (ha : a.Meets wellFormedParts) :
    (a.edit c).Avoids IsEmptyKey := by
  cases a with
  | addColumn d placement => exact addColumn_avoids _ placement
  | addColumns ds => exact avoids_forEach fun d _ => addColumn_avoids _ none
  | addIndex kind i =>
      rw [Alteration.edit, Edits.pushIndex_eq]
      exact avoids_quiet fun t _ hr => pushIndex_ne_emptyKey hr t kind ha
  | addPrimaryKey key =>
      rw [Alteration.edit, Edits.addPrimaryKey_eq]
      exact avoids_quiet fun t _ hr => addPrimaryKey_ne_emptyKey hr t ha
  | addForeignKey k =>
      have hparts : k.plain.parts ≠ [] := by
        simpa [ForeignKey.plain] using ForeignKey.WellFormed.parts_nonempty ha
      rw [Alteration.edit, Edits.pushForeignKey_eq]
      exact avoids_quiet fun t _ hr => pushForeignKey_ne_emptyKey hr t hparts
  | setDefault column value =>
      rw [Alteration.edit, Edits.setColumnDefault_eq]
      exact avoids_quiet fun t _ hr => setColumnDefault_ne_emptyKey hr t column (some value)
  | dropDefault column =>
      rw [Alteration.edit, Edits.setColumnDefault_eq]
      exact avoids_quiet fun t _ hr => setColumnDefault_ne_emptyKey hr t column none
  | changeColumn column d placement =>
      rw [Alteration.edit, Edits.replaceColumn_eq]
      exact avoids_step (promoteEvents_ignored · _) fun t _ hr => replaceColumn_ne_emptyKey hr t column _ placement
  | modifyColumn d placement =>
      rw [Alteration.edit, Edits.replaceColumn_eq]
      exact avoids_step (promoteEvents_ignored · _) fun t _ hr => replaceColumn_ne_emptyKey hr t d.name _ placement
  | renameColumn column newName =>
      rw [Alteration.edit, Edits.renameColumn_eq]
      exact avoids_quiet fun t _ hr => renameColumn_ne_emptyKey hr t column newName
  | dropColumn column =>
      rw [Alteration.edit, Edits.dropColumn_eq]
      exact avoids_discard (avoids_whole (dropEvents_ignored · column) fun t _ hr => dropColumn_ne_emptyKey hr t column)
  | dropIndex i => exact dropIndex_avoids i
  | dropPrimaryKey =>
      rw [Alteration.edit, Edits.dropPrimaryKey_eq]
      exact avoids_quiet fun t _ hr => dropPrimaryKey_ne_emptyKey hr t
  | dropForeignKey symbol =>
      rw [Alteration.edit, Edits.dropForeignKey_eq]
      exact avoids_discard (avoids_whole (fun _ => rfl) fun t _ hr => dropForeignKey_ne_emptyKey hr t symbol)
  | renameIndex i newName =>
      rw [Alteration.edit, Edits.renameIndex_eq]
      exact avoids_quiet fun t _ hr => renameIndex_ne_emptyKey hr t i newName
  | renameTable newName =>
      refine avoids_quiet fun t r hr h => ?_
      rw [Alteration.checkName] at h
      split at h <;> cases h
      exact hr
  | setOptions options => exact avoids_modify _

/-- Statements on tables that are missing or taken are refused for that. -/
theorem refusal_avoids (policy : Policy) {r : ReferenceError} (h : ¬ r.IsEmptyKey) :
    (under policy (refuse r) : Edit Catalog Unit).Avoids IsEmptyKey :=
  avoids_under policy (avoids_refuse h)

theorem existing_avoids (policy : Policy) (table : String) (ifNotExists : Bool) :
    (existing policy table ifNotExists).Avoids IsEmptyKey := by
  unfold existing
  split
  · intro c r hr
    exact ⟨by rintro ⟨⟩, by simp⟩
  · exact refusal_avoids policy id

/-- The outcome of an edit of a copy is that of the edit. -/
theorem putIn_avoids {e : Edit Table Unit} (he : e.Avoids IsEmptyKey) (put : Table → Catalog) (t : Table)
    {r : ReferenceError} (hr : r.IsEmptyKey) :
    (c.putIn put (e.run t)).result ≠ .error r ∧ .ignored r ∉ (c.putIn put (e.run t)).events :=
  he t r hr

theorem createTable_avoids (policy : Policy) {d : TableDefinition} (h : ∀ e ∈ d.entries, e.Meets wellFormedParts) :
    (createTable policy d).Avoids IsEmptyKey := by
  intro c r hr
  rw [run_createTable]
  split
  · exact existing_avoids policy d.table d.ifNotExists c r hr
  · exact putIn_avoids (addDefinition_avoids policy h) _ _ hr

theorem createTableLike_avoids (policy : Policy) (d : LikeDefinition) :
    (createTableLike policy d).Avoids IsEmptyKey := by
  intro c r hr
  rw [run_createTableLike]
  split
  · exact existing_avoids policy d.table d.ifNotExists c r hr
  · split
    · exact refusal_avoids policy id c r hr
    · exact ⟨by rintro ⟨⟩, by simp⟩

theorem alterTable_avoids (policy : Policy) (table : String) {as : List Alteration}
    (h : ∀ a ∈ as, a.Meets wellFormedParts) : (alterTable policy table as).Avoids IsEmptyKey := by
  intro c r hr
  rw [run_alterTable]
  split
  · exact refusal_avoids policy id c r hr
  · exact putIn_avoids (avoids_forEach fun a ha => avoids_under policy (alteration_avoids c (h a ha))) _ _ hr

theorem dropTableIf_avoids (policy : Policy) (ifExists : Bool) (table : String) :
    (dropTableIf policy ifExists table).Avoids IsEmptyKey := by
  have hdrop : (under policy (quiet (dropTable table))).Avoids IsEmptyKey := by
    refine avoids_under policy (avoids_quiet fun c r hr h => ?_)
    rw [dropTable] at h
    split at h <;> cases h
    exact hr
  intro c r hr
  rw [run_dropTableIf]
  split
  · exact ⟨by rintro ⟨⟩, by simp⟩
  · exact hdrop c r hr

theorem renameTable_avoids (policy : Policy) (p : String × String) : (renameTable policy p).Avoids IsEmptyKey := by
  refine avoids_under policy (avoids_quiet fun c r hr h => ?_)
  rw [rename] at h
  repeat' split at h
  all_goals cases h
  all_goals exact hr

theorem editTable_avoids {e : Edit Table Unit} (he : e.Avoids IsEmptyKey) (name : String) :
    (editTable name e).Avoids IsEmptyKey := by
  intro c r hr
  rw [run_editTable]
  split
  · exact ⟨fun h => by cases h; exact hr, by simp⟩
  · exact he _ r hr

theorem apply_avoids {s : Statement} (hs : s.WellFormed) : (apply s).Avoids IsEmptyKey := by
  intro c r hr
  have hstatement : (applyStatement c.policy s).Avoids IsEmptyKey := by
    cases s with
    | createTable d => exact createTable_avoids c.policy hs.2.1
    | createTableLike d => exact createTableLike_avoids c.policy d
    | alterTable table as => exact alterTable_avoids c.policy table hs
    | dropTable tables ifExists => exact avoids_forEach fun table _ => dropTableIf_avoids c.policy ifExists table
    | renameTable renames => exact avoids_forEach fun p _ => renameTable_avoids c.policy p
    | createIndex table kind i =>
        rw [applyStatement, Edits.pushIndex_eq]
        exact avoids_under c.policy (editTable_avoids (avoids_quiet fun t _ hr => pushIndex_ne_emptyKey hr t kind hs) table)
    | dropIndex table i => exact avoids_under c.policy (editTable_avoids (dropIndex_avoids i) table)
  rw [run_apply]
  obtain ⟨hresult, hevents⟩ := hstatement c r hr
  exact ⟨hresult, fun hm => (List.mem_cons.1 hm).elim (by rintro ⟨⟩) hevents⟩

/-! ### Scripts -/

/-- What feeding a script comes to, where no statement of it meets such an error. -/
theorem applied_avoids {E : ReferenceError → Prop} {ss : List Statement} (h : ∀ s ∈ ss, (apply s).Avoids E) (c : Catalog)
    {r : ReferenceError} (hr : E r) :
    (c.applied ss).result ≠ .error (.reference r) ∧ .ignored r ∉ (c.applied ss).events := by
  obtain ⟨hresult, hevents⟩ := avoids_forEach h c r hr
  refine ⟨fun hfailed => hresult ?_, hevents⟩
  change ((applyAll ss).run c).result.mapError ScriptError.reference = _ at hfailed
  change ((applyAll ss).run c).result = _
  cases hrun : ((applyAll ss).run c).result with
  | error r' => rw [hrun] at hfailed; cases hfailed; rfl
  | ok _ => rw [hrun] at hfailed; cases hfailed

/-- Of any script: its statements are well-formed, and a catalog that is fed with it, of either policy and with
whatever tables, is neither refused for a key without columns nor passes one over. -/
theorem parsed_wellFormed_feed_avoids_emptyKey (script : String) :
    (∀ ss, Sql.parse script = .ok ss → ∀ s ∈ ss, s.WellFormed) ∧
      ∀ (c : Catalog) (table : String), (c.feed script).result ≠ .error (.reference (.emptyKey table)) ∧
        .ignored (.emptyKey table) ∉ (c.feed script).events := by
  have hparsed (ss : List Statement) (h : Sql.parse script = .ok ss) : ∀ s ∈ ss, s.WellFormed :=
    Sql.parse_meets (Sql.Parser.givesParts_wellFormed _) h
  refine ⟨hparsed, fun c table => ?_⟩
  rw [feed]
  cases hp : Sql.parse script with
  | error e => exact ⟨by rintro ⟨⟩, by simp⟩
  | ok ss => exact applied_avoids (E := IsEmptyKey) (fun s hs => apply_avoids (hparsed ss hp s hs)) c trivial

end Catalog

end DdlCatalog
