import DdlCatalog.Proofs.Catalog.Batches
import DdlCatalog.Proofs.Table.Positions

/-!
Clauses that are refused. A clause is carried out or refused as a whole, unless it adds a list of columns:
those before the one that is refused have been added by then, and a lenient catalog keeps them.
-/

namespace DdlCatalog

open Edit

/-! ### One clause -/

namespace Alteration

variable {c : Catalog} {t : Table} {r : ReferenceError}

/-- One column of a list. -/
def addOne (d : ColumnDefinition) : Edit Table Unit := Table.Edits.addColumn (.ofDefinition d) none

/-- The columns that a clause adds one by one. -/
def listed : Alteration → List ColumnDefinition
  | .addColumns ds => ds
  | _ => []

/-- What a refused clause leaves done: the columns of its list before the refused one, each in a clause of
its own. -/
def remains (t : Table) (a : Alteration) : List Alteration := (finished addOne a.listed t).map (.addColumn · none)

/-- What it takes that a clause, once refused, leaves the table as it was. Of a list of columns it has to
be the first that the table has already. -/
def LeavesNoTrace (t : Table) (a : Alteration) : Prop := ∀ d ∈ a.listed.head?, d.name ∈ t.columnNames

instance (t : Table) : DecidablePred (LeavesNoTrace t) := fun a =>
  inferInstanceAs (Decidable (∀ d ∈ a.listed.head?, d.name ∈ t.columnNames))

theorem addOne_atomic (d : ColumnDefinition) : (addOne d).Atomic := by
  rw [addOne, Table.Edits.addColumn_eq]
  exact atomic_step _ _

theorem addOne_ok_iff {d : ColumnDefinition} : ((addOne d).run t).result = .ok () ↔ d.name ∉ t.columnNames := by
  rw [addOne, (Table.addColumn_added t (.ofDefinition d) none).done_iff]
  exact and_iff_left nofun

theorem addOne_keeps_mem (n : String) (d : ColumnDefinition) : (addOne d).Keeps (n ∈ ·.columnNames) := by
  intro t hn
  have hd := Table.addColumn_added t (.ofDefinition d) none
  cases hr : ((addOne d).run t).result with
  | error r => rwa [addOne_atomic d t r hr]
  | ok _ =>
      rw [Table.columnNames, addOne, hd.columns_eq hr, List.map_append]
      exact List.mem_append_left _ hn

theorem addOne_adds {d : ColumnDefinition} (h : ((addOne d).run t).result = .ok ()) :
    d.name ∈ ((addOne d).run t).state.columnNames := by
  rw [Table.columnNames, addOne, (Table.addColumn_added t (.ofDefinition d) none).columns_eq h, List.map_append]
  exact List.mem_append_right _ (List.mem_singleton.2 (Column.received_name (.ofDefinition d)).symm)

/-- A clause is a list of columns, or it is refused as a whole. -/
theorem listed_or_atomic (c : Catalog) (a : Alteration) :
    a = .addColumns a.listed ∨ a.listed = [] ∧ (a.edit c).Atomic := by
  cases a with
  | addColumns ds => exact .inl rfl
  | addColumn d placement => exact .inr ⟨rfl, Table.Call.edit_atomic (.addColumn (.ofDefinition d) placement)⟩
  | addIndex kind i => exact .inr ⟨rfl, Table.Call.edit_atomic (.pushIndex kind i)⟩
  | addPrimaryKey key => exact .inr ⟨rfl, Table.Call.edit_atomic (.addPrimaryKey key)⟩
  | addForeignKey k => exact .inr ⟨rfl, Table.Call.edit_atomic (.pushForeignKey k.plain)⟩
  | setDefault column value => exact .inr ⟨rfl, Table.Call.edit_atomic (.setColumnDefault column (some value))⟩
  | dropDefault column => exact .inr ⟨rfl, Table.Call.edit_atomic (.setColumnDefault column none)⟩
  | changeColumn column d placement =>
      exact .inr ⟨rfl, Table.Call.edit_atomic (.replaceColumn column (.ofDefinition d) placement)⟩
  | modifyColumn d placement =>
      exact .inr ⟨rfl, Table.Call.edit_atomic (.replaceColumn d.name (.ofDefinition d) placement)⟩
  | renameColumn column newName => exact .inr ⟨rfl, Table.Call.edit_atomic (.renameColumn column newName)⟩
  | dropColumn column => exact .inr ⟨rfl, Table.Call.edit_atomic (.dropColumn column)⟩
  | dropIndex i => exact .inr ⟨rfl, Table.Edits.dropIndex_atomic i⟩
  | dropPrimaryKey =>
      refine .inr ⟨rfl, ?_⟩
      rw [edit, Table.Edits.dropPrimaryKey_eq]
      exact atomic_step _ _
  | dropForeignKey symbol => exact .inr ⟨rfl, Table.Call.edit_atomic (.dropForeignKey symbol)⟩
  | renameIndex i newName => exact .inr ⟨rfl, Table.Call.edit_atomic (.renameIndex i newName)⟩
  | renameTable newName => exact .inr ⟨rfl, atomic_step _ _⟩
  | setOptions options => exact .inr ⟨rfl, Table.Call.edit_atomic (.mergeOptions options)⟩

/-- A list whose first column is new leaves that column behind. -/
theorem addColumns_unchanged_iff {ds : List ColumnDefinition} (h : ((forEach addOne ds).run t).result = .error r) :
    ((forEach addOne ds).run t).state = t ↔ ∀ d ∈ ds.head?, d.name ∈ t.columnNames := by
  cases ds with
  | nil => cases h
  | cons d ds =>
      simp only [List.head?_cons, Option.mem_def, Option.some.injEq, forall_eq']
      rw [forEach_cons, run_bind]
      cases hr : ((addOne d).run t).result with
      | error r' =>
          have hold : d.name ∈ t.columnNames := by
            by_contra hn
            rw [addOne_ok_iff.2 hn] at hr
            cases hr
          exact iff_of_true (addOne_atomic d t r' hr) hold
      | ok _ =>
          have hkept : d.name ∈ ((forEach addOne ds).run ((addOne d).run t).state).state.columnNames :=
            keeps_forEach (fun d' _ => addOne_keeps_mem d.name d') _ (addOne_adds hr)
          refine iff_of_false (fun hsame => ?_) (addOne_ok_iff.1 hr)
          exact addOne_ok_iff.1 hr (hsame ▸ hkept)

theorem refused_unchanged_iff {a : Alteration} (h : ((a.edit c).run t).result = .error r) :
    ((a.edit c).run t).state = t ↔ a.LeavesNoTrace t := by
  rcases listed_or_atomic c a with hl | ⟨hl, ha⟩
  · rw [hl] at h ⊢
    exact addColumns_unchanged_iff h
  · exact iff_of_true (ha t r h) (by simp [LeavesNoTrace, hl])

theorem remains_eq_nil {a : Alteration} (h : a.LeavesNoTrace t) : a.remains t = [] := by
  rw [remains, List.map_eq_nil_iff]
  cases hl : a.listed with
  | nil => rfl
  | cons d ds =>
      have hold : d.name ∈ t.columnNames := h d (by simp [hl])
      rw [finished]
      split
      · rename_i hr
        exact absurd hold (addOne_ok_iff.1 hr)
      · rfl

/-- A refused clause leaves what its remains lead to. -/
theorem remains_reaches {a : Alteration} (h : ((a.edit c).run t).result = .error r) :
    (Catalog.alterations .strict c (a.remains t)).Reaches t ((a.edit c).run t).state := by
  rw [Catalog.alterations, remains, forEach_map]
  rcases listed_or_atomic c a with hl | ⟨hl, ha⟩
  · rw [hl]
    exact reaches_finished addOne_atomic a.listed t
  · rw [hl]
    exact reaches_pure.2 (ha t r h)

end Alteration

/-! ### The clauses of a statement -/

namespace Catalog

variable {c : Catalog}

/-- A clause is refused by the table it meets. -/
def Refuses (c : Catalog) (v : Alteration × Table) : Prop := ((v.1.edit c).run v.2).result.isOk = false

instance (c : Catalog) : DecidablePred c.Refuses := fun v =>
  inferInstanceAs (Decidable (((v.1.edit c).run v.2).result.isOk = false))

/-- The clauses of a statement, each with the table it meets when none before it ends the statement. -/
def meetings (c : Catalog) (table : String) (as : List Alteration) : List (Alteration × Table) :=
  (c.table? table).elim [] (visits (fun a => under .lenient (a.edit c)) as)

/-- The clauses that are not refused. -/
def accepted (c : Catalog) (vs : List (Alteration × Table)) : List Alteration :=
  (vs.filter fun v => ¬ c.Refuses v).map (·.1)

/-- The clauses that are not refused, and what the refused ones leave done. -/
def effective (c : Catalog) (vs : List (Alteration × Table)) : List Alteration :=
  vs.flatMap fun v => if c.Refuses v then v.1.remains v.2 else [v.1]

theorem effective_eq_accepted {vs : List (Alteration × Table)} (h : ∀ v ∈ vs, c.Refuses v → v.1.LeavesNoTrace v.2) :
    c.effective vs = c.accepted vs := by
  induction vs with
  | nil => rfl
  | cons v vs ih =>
      have hrest := ih fun w hw => h w (List.mem_cons_of_mem _ hw)
      rw [effective, List.flatMap_cons, ← effective, hrest, accepted, accepted]
      by_cases hv : c.Refuses v
      · rw [if_pos hv, Alteration.remains_eq_nil (h v List.mem_cons_self hv), List.filter_cons_of_neg (by simpa using hv)]
        rfl
      · rw [if_neg hv, List.filter_cons_of_pos (by simpa using hv)]
        rfl

theorem effective_reaches (c : Catalog) (a : Alteration) (t : Table) :
    (alterations .strict c (c.effective [(a, t)])).Reaches t ((a.edit c).run t).state := by
  rw [effective, List.flatMap_singleton]
  cases hr : ((a.edit c).run t).result with
  | error r =>
      rw [if_pos (by simp [Refuses, hr, Except.isOk, Except.toBool])]
      exact Alteration.remains_reaches hr
  | ok _ =>
      rw [if_neg (by simp [Refuses, hr, Except.isOk, Except.toBool]), alterations, forEach_one]
      exact ⟨hr, rfl⟩

theorem visits_cons (c : Catalog) (a : Alteration) (as : List Alteration) (t : Table) :
    visits (fun a => under .lenient (a.edit c)) (a :: as) t =
      [(a, t)] ++ visits (fun a => under .lenient (a.edit c)) as ((a.edit c).run t).state := by
  rw [visits, under_lenient_ok, state_under]
  rfl

theorem state_alterations_cons (c : Catalog) (a : Alteration) (as : List Alteration) (t : Table) :
    ((alterations .lenient c (a :: as)).run t).state =
      ((alterations .lenient c as).run ((a.edit c).run t).state).state := by
  rw [alterations, forEach_cons, state_bind (under_lenient_ok c a t), state_under]
  rfl

/-- What is left done leads to the table that the whole list leads to. -/
theorem effective_visits_reaches (c : Catalog) (as : List Alteration) (t : Table) :
    (alterations .strict c (c.effective (visits (fun a => under .lenient (a.edit c)) as t))).Reaches t
      ((alterations .lenient c as).run t).state := by
  induction as generalizing t with
  | nil => exact reaches_pure.2 rfl
  | cons a as ih =>
      -- The rest meets the table that this clause leaves, which its effective clauses reach too.
      rw [state_alterations_cons, visits_cons, effective, List.flatMap_append, alterations, forEach_append]
      exact reaches_seq.2 ⟨_, effective_reaches c a t, ih _⟩

/-- Where the strict run is not refused the lenient one comes to the same. -/
theorem state_lenient {as : List Alteration} {t u : Table} (h : (alterations .strict c as).Reaches t u) :
    ((alterations .lenient c as).run t).state = u := by
  have hp := (alterations_agree (c := c) rfl as).predicts t t rfl
  cases hi : firstIgnored ((alterations .lenient c as).run t).events with
  | none => rw [(hp.none_ignored hi).2, h.2]
  | some r => cases (hp.first_ignored r hi).symm.trans h.1

/-- Two statements end alike. -/
def EndAlike (c : Catalog) (s s' : Statement) : Prop :=
  ((apply s).run c).result = ((apply s').run c).result ∧ ((apply s).run c).state = ((apply s').run c).state

theorem alterTable_endAlike (hp : c.policy = .lenient) {table : String} {as bs : List Alteration}
    (h : ∀ t, c.table? table = some t →
      ((alterations .lenient c as).run t).state = ((alterations .lenient c bs).run t).state) :
    c.EndAlike (.alterTable table as) (.alterTable table bs) := by
  have hok (as : List Alteration) : ((alterTable .lenient table as).run c).result = .ok () :=
    (alterTable_agree table as).lenient_ok c
  simp only [EndAlike, run_apply, hp, applyStatement]
  refine ⟨(hok as).trans (hok bs).symm, ?_⟩
  cases ht : c.table? table with
  | none => rw [state_alterTable_missing ht, state_alterTable_missing ht]
  | some t => rw [state_alterTable ht, state_alterTable ht, h t ht]

/-- A clause that is refused leaves the table as it was, unless it is a list of columns the first of which is
new. A lenient alteration ends like that of its effective clauses, of which none is refused; and like that of
its accepted clauses, if no list of columns is refused behind its first column. -/
theorem alterTable_refused_clauses (c : Catalog) :
    (∀ (a : Alteration) (t : Table) (r : ReferenceError), ((a.edit c).run t).result = .error r →
      (((a.edit c).run t).state = t ↔ a.LeavesNoTrace t)) ∧
    (c.policy = .lenient → ∀ (table : String) (as : List Alteration),
      let vs := c.meetings table as
      c.EndAlike (.alterTable table as) (.alterTable table (c.effective vs)) ∧
      (c.contains table → ((applyStatement .strict (.alterTable table (c.effective vs))).run c).result = .ok ()) ∧
      ((∀ v ∈ vs, c.Refuses v → v.1.LeavesNoTrace v.2) →
        c.EndAlike (.alterTable table as) (.alterTable table (c.accepted vs)))) := by
  refine ⟨fun a t r h => Alteration.refused_unchanged_iff h, fun hp table as => ?_⟩
  intro vs
  have hreaches (t : Table) (ht : c.table? table = some t) :
      (alterations .strict c (c.effective vs)).Reaches t ((alterations .lenient c as).run t).state := by
    have hvs : vs = visits (fun a => under .lenient (a.edit c)) as t := congrArg (Option.elim · [] _) ht
    rw [hvs]
    exact effective_visits_reaches c as t
  have hlike : c.EndAlike (.alterTable table as) (.alterTable table (c.effective vs)) :=
    alterTable_endAlike hp fun t ht => (state_lenient (hreaches t ht)).symm
  refine ⟨hlike, fun hc => ?_, fun h => effective_eq_accepted h ▸ hlike⟩
  obtain ⟨pre, t, post, hs⟩ := contains_split hc
  have ht : c.table? table = some t := hs.table?_eq
  rw [applyStatement, run_alterTable, ht]
  exact congrArg Outcome.result (putIn_done (hreaches t ht).1)

def ledgerTable : Table := { name := "t", columns := [{ name := "id", type := .int 4 }] }

/-- A lenient catalog of one table. -/
def ledger : Catalog := { entries := [("t", ledgerTable)] }

def intColumn (name : String) : ColumnDefinition := { name := name, type := { name := .int } }

/-- A list of which the first column is there already, and one of which the second is. -/
def headRefused : List Alteration := [.addColumns [intColumn "id", intColumn "a"], .dropColumn "x", .dropDefault "id"]

def tailRefused : List Alteration := [.addColumns [intColumn "a", intColumn "id", intColumn "b"], .dropColumn "x"]

theorem ledger_refused_clauses :
    (((Alteration.dropColumn "x").edit ledger).run ledgerTable).result = .error (.unknownColumn "t" "x") ∧
      (((Alteration.dropColumn "x").edit ledger).run ledgerTable).state = ledgerTable ∧
      (∀ v ∈ ledger.meetings "t" headRefused, ledger.Refuses v → v.1.LeavesNoTrace v.2) ∧
      ledger.EndAlike (.alterTable "t" headRefused) (.alterTable "t" [.dropDefault "id"]) ∧
      ledger.EndAlike (.alterTable "t" tailRefused) (.alterTable "t" [.addColumn (intColumn "a") none]) ∧
      ((applyStatement .strict (.alterTable "t" [.addColumn (intColumn "a") none])).run ledger).result = .ok () := by
  obtain ⟨hclause, hstatement⟩ := alterTable_refused_clauses ledger
  have hrefused : (((Alteration.dropColumn "x").edit ledger).run ledgerTable).result =
      .error (.unknownColumn "t" "x") := rfl
  have htrace : ∀ v ∈ ledger.meetings "t" headRefused, ledger.Refuses v → v.1.LeavesNoTrace v.2 := by
    decide
  have haccepted : ledger.accepted (ledger.meetings "t" headRefused) = [.dropDefault "id"] := by
    decide
  have heffective : ledger.effective (ledger.meetings "t" tailRefused) = [.addColumn (intColumn "a") none] := by
    decide
  have hhead := (hstatement rfl "t" headRefused).2.2 htrace
  obtain ⟨htail, hstrict, -⟩ := hstatement rfl "t" tailRefused
  rw [haccepted] at hhead
  rw [heffective] at htail hstrict
  exact ⟨hrefused, (hclause _ _ _ hrefused).2 (by decide), htrace, hhead, htail, hstrict rfl⟩

/-- The list is refused for its second column; the first is in the table all the same. -/
theorem ledger_tailRefused_changed : ledgerTable.WellFormed ∧
    ((Alteration.addColumns [intColumn "a", intColumn "id"]).edit ledger |>.run ledgerTable).result =
      .error (.duplicateColumn "t" "id") ∧
    ((Alteration.addColumns [intColumn "a", intColumn "id"]).edit ledger |>.run ledgerTable).state ≠ ledgerTable ∧
    ledger.accepted (ledger.meetings "t" [.addColumns [intColumn "a", intColumn "id"]]) = [] ∧
    ¬ ledger.EndAlike (.alterTable "t" [.addColumns [intColumn "a", intColumn "id"]]) (.alterTable "t" []) :=
  ⟨by decide, rfl, by decide, by decide, fun h => absurd h.2 (by decide)⟩

end Catalog

end DdlCatalog
