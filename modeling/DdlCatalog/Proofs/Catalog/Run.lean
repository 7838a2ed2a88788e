import DdlCatalog.Catalog.Script
import DdlCatalog.Proofs.Catalog.Statements
import DdlCatalog.Proofs.Table.KeyEdits

/-!
Runs of a catalog: scripts, statements, JSON texts and tables from elsewhere, in any order, each of
which may fail on the way. The invariant holds after every run, and it is what every table that takes
another name relies on.
-/

namespace DdlCatalog.Catalog

open Edit

variable {c : Catalog}

/-! ### Tables that take another name -/

/-- What becomes of the register when an altered table is put back under another name. -/
def committing? (c : Catalog) (previous : String) (t : Table) : Option Rekeying :=
  if t.name = previous then none else c.rekeying? previous t.name

/-- What becomes of the register when a table is renamed. -/
def renaming? (c : Catalog) (r : String × String) : Option Rekeying :=
  if c.contains r.2 then none else c.rekeying? r.1 r.2

theorem commit_of_committing? {previous : String} {t : Table} {r : Rekeying}
    (h : c.committing? previous t = some r) : c.commit previous t = { c with entries := r.insert t } := by
  rw [committing?] at h
  split at h
  · cases h
  · rename_i hn
    simp only [commit, if_neg hn, rekey, h]

theorem rename_of_renaming? {old new : String} {t : Table} {r : Rekeying} (ht : c.table? old = some t)
    (h : c.renaming? (old, new) = some r) :
    c.rename old new = .ok { c with entries := r.insert (t.setName new) } := by
  rw [renaming?] at h
  split at h
  · cases h
  · rename_i hn
    simp only [rename, if_neg hn, ht, rekey, h]

/-- The tables that a statement puts under another name, in order. -/
def rekeyings (c : Catalog) : Statement → List Rekeying
  | .alterTable table as =>
    match c.table? table with
    | none => []
    | some t =>
      match ((alterations c.policy c as).run t).result with
      | .ok _ => (c.committing? table ((alterations c.policy c as).run t).state).toList
      | .error _ => []
  | .renameTable renames =>
    (visits (renameTable c.policy) renames c).flatMap fun v => (v.2.renaming? v.1).toList
  | _ => []

theorem rekeyings_fit (h : c.WellFormed) (s : Statement) : ∀ r ∈ c.rekeyings s, r.Fits := by
  intro r hr
  cases s with
  | alterTable table as =>
      rw [rekeyings] at hr
      split at hr
      · cases hr
      · rename_i t ht
        split at hr
        · rw [Option.mem_toList, committing?] at hr
          split at hr
          · cases hr
          · rename_i hn
            have hfree := (alterations_workingCopy h ht c.policy as).2.resolve_left hn
            exact rekeying_fits hr (contains_eq_false_iff.1 hfree)
        · cases hr
  | renameTable renames =>
      rw [rekeyings, List.mem_flatMap] at hr
      obtain ⟨v, hv, hr⟩ := hr
      rw [Option.mem_toList, renaming?] at hr
      split at hr
      · cases hr
      · rename_i hfree
        exact rekeying_fits hr (contains_eq_false_iff.1 (by simpa using hfree))
  | createTable d | createTableLike d | dropTable tables ifExists | createIndex table kind i
  | dropIndex table i => cases hr

/-! ### Operations -/

inductive Operation
  | feed (script : String)
  | apply (s : Statement)
  | applyJson (text : String)
  | insert (t : Table)

namespace Operation

/-- A table from elsewhere has the invariant of tables; nothing is asked of a text or a statement. -/
def Admissible : Operation → Prop
  | .insert t => t.WellFormed
  | _ => True

/-- The catalog after an operation, also where it fails. -/
def run (c : Catalog) : Operation → Catalog
  | .feed script => (c.feed script).catalog
  | .apply s => ((Catalog.apply s).run c).state
  | .applyJson text => (c.feedJson text).catalog
  | .insert t =>
    match c.insert t with
    | .ok c' => c'
    | .error _ => c

def statements : Operation → List Statement
  | .feed script =>
    match Sql.parse script with
    | .ok ss => ss
    | .error _ => []
  | .apply s => [s]
  | .applyJson text => ((Json.parse? text).bind Statement.listOfJson?).getD []
  | .insert _ => []

/-- The tables that an operation puts under another name, in order. -/
def rekeyings (op : Operation) (c : Catalog) : List Rekeying :=
  (visits Catalog.apply op.statements c).flatMap fun v => v.2.rekeyings v.1

theorem rekeyings_fit (h : c.WellFormed) (op : Operation) : ∀ r ∈ op.rekeyings c, r.Fits := by
  intro r hr
  obtain ⟨v, hv, hr⟩ := List.mem_flatMap.1 hr
  exact Catalog.rekeyings_fit (keeps_visits apply_keeps h v hv) v.1 r hr

/-- A text that cannot be read stands for no statements. -/
theorem run_feed (script : String) (c : Catalog) :
    (feed script).run c = ((applyAll (feed script).statements).run c).state := by
  rw [run, statements, Catalog.feed]
  cases Sql.parse script <;> rfl

theorem run_applyJson (text : String) (c : Catalog) :
    (applyJson text).run c = ((applyAll (applyJson text).statements).run c).state := by
  rw [run, statements, Catalog.feedJson]
  cases (Json.parse? text).bind Statement.listOfJson? <;> rfl

theorem run_wellFormed (op : Operation) (hop : op.Admissible) (h : c.WellFormed) : (op.run c).WellFormed := by
  have hall (ss : List Statement) : ((applyAll ss).run c).state.WellFormed :=
    keeps_forEach (fun s _ => apply_keeps s) c h
  cases op with
  | feed script => rw [run_feed]; exact hall _
  | apply s => exact apply_keeps s c h
  | applyJson text => rw [run_applyJson]; exact hall _
  | insert t =>
      rw [run]
      split
      · rename_i c' hc
        exact insert_wellFormed h hop hc
      · exact h

end Operation

/-! ### Runs -/

/-- The catalog after operations, each of which starts from what the ones before it left. -/
def runAll (c : Catalog) (ops : List Operation) : Catalog := ops.foldl Operation.run c

theorem runAll_wellFormed {ops : List Operation} (hops : ∀ op ∈ ops, op.Admissible) (h : c.WellFormed) :
    (c.runAll ops).WellFormed := by
  induction ops generalizing c with
  | nil => exact h
  | cons op ops ih =>
      apply ih fun op' hop' => hops op' (List.mem_cons_of_mem _ hop')
      exact op.run_wellFormed (hops op List.mem_cons_self) h

/-- Whatever is done to an empty catalog, and however it fails: the catalog is well-formed, its tables
are valid, and whatever is done next puts a table under another name only where there is a place for
it and none of that name. -/
theorem reached_wellFormed_valid_rekeyings_fit (policy : Policy) (ops : List Operation)
    (hops : ∀ op ∈ ops, op.Admissible) :
    ((empty policy).runAll ops).WellFormed ∧
      (∀ t ∈ ((empty policy).runAll ops).tables, t.validate = .ok ()) ∧
      ∀ next : Operation, ∀ r ∈ next.rekeyings ((empty policy).runAll ops), r.Fits := by
  have hw := runAll_wellFormed hops (empty_wellFormed policy)
  refine ⟨hw, ?_, fun next => next.rekeyings_fit hw⟩
  intro t ht
  obtain ⟨e, he, rfl⟩ := List.mem_map.1 ht
  exact (hw.tables_wellFormed e he).1.validate_eq_ok

/-- A table from elsewhere that takes another name while a second one stands behind it; a statement on a
table that is not there fails in between. -/
def renamedOnTheWay : List Operation :=
  [.insert Table.keyed, .apply (.createTableLike { table := "v", like := "t" }), .apply (.dropTable ["w"] false),
    .apply (.renameTable [("t", "u")])]

theorem renamedOnTheWay_wellFormed : (∀ op ∈ renamedOnTheWay, op.Admissible) ∧
    ((empty .strict).runAll renamedOnTheWay).keys = ["u", "v"] ∧
    ((empty .strict).runAll renamedOnTheWay).WellFormed ∧
    (Operation.apply (.alterTable "u" [.renameTable "w"])).rekeyings ((empty .strict).runAll renamedOnTheWay) =
      [⟨[("v", Table.keyed.setName "v")], 0, "w"⟩] ∧
    (Rekeying.mk [("v", Table.keyed.setName "v")] 0 "w").Fits := by
  have hops : ∀ op ∈ renamedOnTheWay, op.Admissible := by
    intro op hop
    simp only [renamedOnTheWay, List.mem_cons, List.not_mem_nil, or_false] at hop
    rcases hop with rfl | rfl | rfl | rfl
    · exact (by decide : Table.keyed.WellFormed)
    · trivial
    · trivial
    · trivial
  have hr : (Operation.apply (.alterTable "u" [.renameTable "w"])).rekeyings
      ((empty .strict).runAll renamedOnTheWay) = [⟨[("v", Table.keyed.setName "v")], 0, "w"⟩] := rfl
  obtain ⟨hw, -, hfit⟩ := reached_wellFormed_valid_rekeyings_fit .strict renamedOnTheWay hops
  exact ⟨hops, rfl, hw, hr, hfit (.apply (.alterTable "u" [.renameTable "w"])) _ (by rw [hr]; simp)⟩

end DdlCatalog.Catalog
