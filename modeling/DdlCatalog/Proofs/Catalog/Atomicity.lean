import DdlCatalog.Proofs.Catalog.Statements

/-!
What a statement that is refused under the strict policy leaves behind. Most statements leave nothing;
those on several tables stop at the one that is refused and keep what they have done by then.
-/

namespace DdlCatalog.Catalog

open Edit

variable {c c' : Catalog} {r : ReferenceError}

/-! ### Statements on one table -/

theorem existing_unchanged (policy : Policy) (table : String) (ifNotExists : Bool) (c : Catalog) :
    ((existing policy table ifNotExists).run c).state = c := by
  rw [run_existing]
  split
  · rfl
  · exact state_under policy _ c

theorem createTable_strict_refused {d : TableDefinition}
    (h : ((createTable .strict d).run c).result = .error r) : ((createTable .strict d).run c).state = c := by
  rw [run_createTable] at h ⊢
  split at h
  · rename_i hc
    rw [if_pos hc]
    exact existing_unchanged ..
  · rename_i hc
    have hr : (Table.ofDefinition .strict d).result = .error r := h
    rw [if_neg hc, putIn_refused hr]

theorem createTableLike_strict_refused {d : LikeDefinition}
    (h : ((createTableLike .strict d).run c).result = .error r) :
    ((createTableLike .strict d).run c).state = c := by
  rw [run_createTableLike] at h ⊢
  split at h
  · rename_i hc
    rw [if_pos hc]
    exact existing_unchanged ..
  · rename_i hc
    rw [if_neg hc]
    split at h
    · rfl
    · cases h

/-- The working copy is given up. -/
theorem alterTable_strict_refused {table : String} {as : List Alteration}
    (h : ((alterTable .strict table as).run c).result = .error r) :
    ((alterTable .strict table as).run c).state = c := by
  rw [run_alterTable] at h ⊢
  cases ht : c.table? table with
  | none => rfl
  | some t =>
      rw [ht] at h
      have hr : ((alterations .strict c as).run t).result = .error r := h
      simp only [putIn_refused hr]

theorem editTable_refused {e : Edit Table Unit} (he : e.Atomic) (hd : c.keys.Nodup) {name : String}
    (h : ((editTable name e).run c).result = .error r) : ((editTable name e).run c).state = c := by
  rw [run_editTable] at h ⊢
  cases ht : c.table? name with
  | none => rfl
  | some t =>
      rw [ht] at h
      obtain ⟨pre, post, hs⟩ := table?_split ht
      simp only [he t r h]
      exact hs.set_self hd

/-! ### Dropping several tables -/

theorem run_dropTableIf_strict (ifExists : Bool) (table : String) (c : Catalog) :
    (dropTableIf .strict ifExists table).run c =
      if c.contains table then ⟨.ok (), c.erase table, []⟩
      else if ifExists then ⟨.ok (), c, []⟩ else ⟨.error (.unknownTable table), c, []⟩ := by
  rw [run_dropTableIf, under_strict, run_quiet]
  cases ifExists <;> cases hc : c.contains table <;> simp [dropTable, hc]

theorem dropTableIf_shrinks (n : Nat) (ifExists : Bool) (table : String) :
    (dropTableIf .strict ifExists table).Keeps fun c => c.entries.length ≤ n := by
  intro c h
  rw [run_dropTableIf_strict]
  split
  · exact Nat.le_trans List.eraseP_sublist.length_le h
  · split <;> exact h

/-- A table that is dropped is missing at the end, whatever else is dropped. -/
theorem dropTables_refused_iff {tables : List String} {ifExists : Bool}
    (h : ((forEach (dropTableIf .strict ifExists) tables).run c).result = .error r) :
    ((forEach (dropTableIf .strict ifExists) tables).run c).state.entries = c.entries ↔
      ∀ table ∈ tables.head?, c.contains table = false := by
  cases tables with
  | nil => cases h
  | cons table tables =>
      rw [List.head?_cons]
      simp only [Option.mem_def, Option.some.injEq, forall_eq']
      rw [forEach_cons, run_bind, run_dropTableIf_strict] at h ⊢
      cases hc : c.contains table with
      | true =>
          -- One table less than before, and no drop after it brings a table back.
          obtain ⟨pre, t, post, hs⟩ := contains_split hc
          have hless : (c.erase table).entries.length < c.entries.length := by
            rw [hs.erase_eq, hs.list_eq]
            simp
          have hrest : ((forEach (dropTableIf .strict ifExists) tables).run (c.erase table)).state.entries.length ≤
              (c.erase table).entries.length :=
            keeps_forEach (fun a _ => dropTableIf_shrinks _ ifExists a) (c.erase table) (Nat.le_refl _)
          simp only [if_true, reduceCtorEq, iff_false]
          intro heq
          rw [heq] at hrest
          omega
      | false =>
          rw [hc] at h
          cases ifExists with
          | true =>
              have hok : ((forEach (dropTableIf .strict true) tables).run c).result = .ok () :=
                forEach_ok (fun a s => by rw [run_dropTableIf_strict]; split <;> rfl) tables c
              simp only [Bool.false_eq_true, if_false, if_true] at h
              rw [hok] at h
              cases h
          | false => simp

/-! ### Renaming several tables -/

/-- An entry once a table is renamed. -/
def renameEntry (e : String × Table) (p : String × String) : String × Table :=
  if e.1 = p.1 then (p.2, e.2.setName p.2) else e

theorem rename_entries {old new : String} (hd : c.keys.Nodup) (h : c.rename old new = .ok c') :
    c'.entries = c.entries.map (renameEntry · (old, new)) ∧ c'.keys.Nodup := by
  obtain ⟨hfree, t, ht, rfl⟩ := rename_cases h
  obtain ⟨pre, post, hs⟩ := table?_split ht
  have hnew := contains_eq_false_iff.1 hfree
  have he := hs.rekey_eq hnew (t.setName new)
  refine ⟨?_, hs.keys_distinct hd he (.inr hnew)⟩
  rw [he, hs.map_eq hd (f := (renameEntry · (old, new))) fun e hne => if_neg hne]
  simp [renameEntry]

theorem run_renameTable_strict (p : String × String) (c : Catalog) :
    (renameTable .strict p).run c =
      match c.rename p.1 p.2 with
      | .error e => ⟨.error e, c, []⟩
      | .ok c' => ⟨.ok (), c', []⟩ := by
  rw [renameTable, under_strict, run_quiet]
  cases c.rename p.1 p.2 <;> rfl

/-- The renamings done before one is refused are what there is to see of them all. -/
theorem renameTables_entries (renames : List (String × String)) (hd : c.keys.Nodup) :
    ((forEach (renameTable .strict) renames).run c).state.entries =
      c.entries.map fun e => (finished (renameTable .strict) renames c).foldl renameEntry e := by
  -- The keys stay distinct, so that each renaming is one of entries: no other entry has the name.
  induction renames generalizing c with
  | nil => simp [finished, forEach_nil]
  | cons p ps ih =>
      rw [forEach_cons, run_bind, finished, run_renameTable_strict]
      cases hr : c.rename p.1 p.2 with
      | error e => simp
      | ok c' =>
          obtain ⟨he, hd'⟩ := rename_entries hd hr
          simp only [ih hd', he, List.map_map, List.foldl_cons]
          rfl

theorem map_eq_self_iff {α : Type} {f : α → α} {as : List α} : as.map f = as ↔ ∀ a ∈ as, f a = a := by
  have h := List.map_inj_left (f := f) (g := id) (l := as)
  simpa using h

/-! ### All statements -/

/-- What it takes that a statement, once refused, leaves the catalog as it was. The tables dropped
before one is refused are gone, and the renamings done before one is refused stay. -/
def LeavesNoTrace (c : Catalog) : Statement → Prop
  | .dropTable tables _ => ∀ table ∈ tables.head?, c.contains table = false
  | .renameTable renames =>
    ∀ e ∈ c.entries, (finished (renameTable .strict) renames c).foldl renameEntry e = e
  | _ => True

/-- Under the strict policy a refused statement leaves the catalog as it was, with two exceptions: it
has dropped a table before it came to the one that is missing, or it has renamed tables and not back. -/
theorem apply_strict_refused_unchanged_iff {s : Statement} (hp : c.policy = .strict) (hd : c.keys.Nodup)
    (h : ((apply s).run c).result = .error r) :
    ((apply s).run c).state.entries = c.entries ↔ c.LeavesNoTrace s := by
  rw [run_apply, hp] at h ⊢
  have unchanged (hs : ((applyStatement .strict s).run c).state = c) (ht : c.LeavesNoTrace s) :
      ((applyStatement .strict s).run c).state.entries = c.entries ↔ c.LeavesNoTrace s :=
    iff_of_true (congrArg entries hs) ht
  cases s with
  | createTable d => exact unchanged (createTable_strict_refused h) trivial
  | createTableLike d => exact unchanged (createTableLike_strict_refused h) trivial
  | alterTable table as => exact unchanged (alterTable_strict_refused h) trivial
  | dropTable tables ifExists => exact dropTables_refused_iff h
  | renameTable renames =>
      rw [applyStatement, renameTables_entries renames hd]
      exact map_eq_self_iff
  | createIndex table kind i =>
      refine unchanged (editTable_refused ?_ hd h) trivial
      rw [Table.Edits.pushIndex_eq]
      exact atomic_step _ _
  | dropIndex table i => exact unchanged (editTable_refused (Table.Edits.dropIndex_atomic i) hd h) trivial

/-- A catalog of one table under the strict policy. -/
def single : Catalog := { policy := .strict, entries := [("t", Table.keyed)] }

/-- Renamed there and back before the renaming that is refused, and renamed only there. -/
theorem single_renameTable_refused :
    ((apply (.renameTable [("t", "u"), ("u", "t"), ("x", "y")])).run single).result =
        .error (.unknownTable "x") ∧
      ((apply (.renameTable [("t", "u"), ("u", "t"), ("x", "y")])).run single).state.entries = single.entries ∧
      ((apply (.renameTable [("t", "u"), ("x", "y")])).run single).result = .error (.unknownTable "x") ∧
      ((apply (.renameTable [("t", "u"), ("x", "y")])).run single).state.entries ≠ single.entries := by
  have hd : single.keys.Nodup := by decide
  have hback : ((apply (.renameTable [("t", "u"), ("u", "t"), ("x", "y")])).run single).result =
      .error (.unknownTable "x") := rfl
  have hthere : ((apply (.renameTable [("t", "u"), ("x", "y")])).run single).result =
      .error (.unknownTable "x") := rfl
  refine ⟨hback, (apply_strict_refused_unchanged_iff rfl hd hback).2 ?_, hthere, ?_⟩
  · intro e he
    cases List.mem_singleton.1 he
    rfl
  · intro heq
    have htrace := (apply_strict_refused_unchanged_iff rfl hd hthere).1 heq
    have hname := congrArg Prod.fst (htrace ("t", Table.keyed) List.mem_cons_self)
    exact absurd hname (by decide)

/-- The first of the two tables is dropped before the second is missed. -/
theorem single_dropTable_refused_changed : single.WellFormed ∧
    ((apply (.dropTable ["t", "u"] false)).run single).result = .error (.unknownTable "u") ∧
    ((apply (.dropTable ["t", "u"] false)).run single).state.entries ≠ single.entries :=
  ⟨by decide, rfl, fun h => absurd (congrArg List.length h) (by decide)⟩

end DdlCatalog.Catalog
