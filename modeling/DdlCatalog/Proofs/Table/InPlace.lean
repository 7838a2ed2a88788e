import DdlCatalog.Proofs.Edit
import DdlCatalog.Proofs.Table.Columns

/-!
An edit in place ends as the change it stands for does: refused with the same error, where it is
refused, with the table as it was, or with the changed table. What moves a column takes it out before
it knows where it goes, and still leaves nothing half done.
-/

namespace DdlCatalog.Table

variable {t : Table} {name : String} {pre post : List Column} {c : Column}

/-! ### Positions -/

theorem ColumnSplit.columnIndex_eq (h : ColumnSplit name t.columns pre c post) :
    t.columnIndex name = .ok pre.length := by
  simp [columnIndex, h.findIdx?_eq]

theorem ColumnSplit.column?_eq (h : ColumnSplit name t.columns pre c post) : t.column? name = some c :=
  h.find?_eq

theorem ColumnSplit.locate_eq (h : ColumnSplit name t.columns pre c post) :
    t.locate name = .ok (c, pre.length) := by
  simp [locate, h.column?_eq, h.columnIndex_eq]

theorem findIdx?_of_missing (h : t.hasColumn name = false) :
    t.columns.findIdx? (·.name == name) = none := by
  simpa [hasColumn] using h

theorem column?_of_missing (h : t.hasColumn name = false) : t.column? name = none := by
  simpa [hasColumn, column?] using h

theorem columnIndex_of_missing (h : t.hasColumn name = false) :
    t.columnIndex name = .error (.unknownColumn t.name name) := by
  simp [columnIndex, findIdx?_of_missing h]

theorem locate_of_missing (h : t.hasColumn name = false) :
    t.locate name = .error (.unknownColumn t.name name) := by
  simp [locate, column?_of_missing h]

theorem insertAfter?_of_missing {columns : List Column} (h : ∀ d ∈ columns, d.name ≠ name) (c : Column) :
    insertAfter? name c columns = none := by
  induction columns with
  | nil => rfl
  | cons d ds ih =>
      have hd : d.name ≠ name := h d (by simp)
      simp [insertAfter?, hd, ih (fun e he => h e (by simp [he]))]

/-- Where a place is found it is the one the column is inserted at, and otherwise it is missing for
both for the same reason. -/
theorem insertionIndex_cases (t : Table) (placement : Option Placement) (c : Column) :
    (∃ i, t.insertionIndex placement = .ok i ∧
      place? placement c t.columns = some (t.columns.insertIdx i c)) ∨
    (t.insertionIndex placement = .error (t.noPlace placement) ∧ place? placement c t.columns = none) := by
  cases placement with
  | none => exact .inl ⟨t.columns.length, rfl, by simp [place?]⟩
  | some p =>
      cases p with
      | first => exact .inl ⟨0, rfl, by simp [place?]⟩
      | after name =>
          cases h : t.hasColumn name with
          | true =>
              obtain ⟨pre, d, post, hs⟩ := hasColumn.split h
              refine .inl ⟨pre.length + 1, by simp [insertionIndex, hs.columnIndex_eq], ?_⟩
              have hi := insertIdx_length_append c (pre ++ [d]) post
              simp only [List.length_append, List.length_singleton, List.append_assoc,
                List.singleton_append] at hi
              rw [place?, hs.insertAfter?_eq, hs.list_eq, hi]
          | false =>
              refine .inr ⟨by simp [insertionIndex, columnIndex_of_missing h, noPlace], ?_⟩
              exact insertAfter?_of_missing (by simpa [hasColumn] using h) c

/-! ### Columns -/

theorem modify_insertIdx (f : Column → Column) (c : Column) (columns : List Column) (i : Nat) :
    (columns.insertIdx i c).modify i f = columns.insertIdx i (f c) := by
  induction i generalizing columns with
  | zero => simp
  | succ i ih => cases columns <;> simp [ih]

theorem changeColumnAt_insertColumnAt (t : Table) (i : Nat) (c : Column) (f : Column → Column) :
    (t.insertColumnAt i c).changeColumnAt i f = t.insertColumnAt i (f c) := by
  simp [insertColumnAt, changeColumnAt, modify_insertIdx]

/-- The column at a position is changed where the first of its name is. -/
theorem ColumnSplit.changeColumnAt_eq (h : ColumnSplit name t.columns pre c post) (f : Column → Column) :
    t.changeColumnAt pre.length f = t.updateColumn name f := by
  rw [changeColumnAt, h.modify_eq, updateColumn, h.updateColumns_eq]

theorem ColumnSplit.removeColumnAt_eq (h : ColumnSplit name t.columns pre c post) :
    t.removeColumnAt pre.length = { t with columns := t.otherColumns name } := by
  rw [removeColumnAt, h.eraseIdx_eq, otherColumns, h.eraseP_eq]

/-! ### Pairs of a foreign key -/

/-- Without a column of its own that goes, a foreign key refers to all it did. -/
theorem partnersWithout_of_spared {parts : List KeyPart} (h : ∀ p ∈ parts, p.column ≠ name) (partners : List KeyPart) :
    ForeignKey.partnersWithout name parts partners = partners := by
  induction parts generalizing partners with
  | nil => cases partners <;> rfl
  | cons p ps ih =>
      cases partners with
      | nil => rfl
      | cons r rs =>
          rw [ForeignKey.partnersWithout, if_neg (h p List.mem_cons_self),
            ih fun q hq => h q (List.mem_cons_of_mem _ hq)]

/-- The partner of the first part on a column is the one at its position. -/
theorem partnersWithout_split {parts before after : List KeyPart} {p : KeyPart}
    (h : Split KeyPart.column name parts before p after) (partners : List KeyPart) :
    ForeignKey.partnersWithout name parts partners =
      ForeignKey.partnersWithout name (before ++ after) (partners.eraseIdx before.length) := by
  obtain ⟨rfl, hp, hfresh⟩ := h
  induction before generalizing partners with
  | nil =>
      cases partners with
      | nil => cases after <;> rfl
      | cons r rs => simp [ForeignKey.partnersWithout, hp]
  | cons q qs ih =>
      cases partners with
      | nil => rfl
      | cons r rs =>
          have hq : q.column ≠ name := hfresh q List.mem_cons_self
          simp [ForeignKey.partnersWithout, hq, ih rs fun b hb => hfresh b (List.mem_cons_of_mem _ hb)]

/-- Taken out one by one, the pairs on a column are all taken out, and no other. -/
theorem takePairs_eq (column : String) (parts partners : List KeyPart) :
    takePairs column parts partners =
      (parts.filter (·.column != column), ForeignKey.partnersWithout column parts partners) := by
  fun_induction takePairs column parts partners with
  | case1 parts partners h =>
      have hspared : ∀ p ∈ parts, p.column ≠ column := by simpa using h
      have hkeep : parts.filter (·.column != column) = parts := by simpa using hspared
      rw [hkeep, partnersWithout_of_spared hspared]
  | case2 parts partners i h ih =>
      have hin : ∃ p ∈ parts, p.column = column := by
        by_contra hnone
        rw [List.findIdx?_eq_none_iff.2 (by simpa using hnone)] at h
        cases h
      obtain ⟨before, p, after, hs⟩ := exists_split hin
      obtain rfl : i = before.length := Option.some.inj (h.symm.trans hs.findIdx?_eq)
      have hdrop : parts.filter (·.column != column) = (before ++ after).filter (·.column != column) := by
        simp [hs.list_eq, hs.key_eq]
      rw [ih, hs.eraseIdx_eq, hdrop, partnersWithout_split hs]

theorem foreignKeyLeft_eq (column : String) : foreignKeyLeft column = foreignKeyWithout column := by
  funext k
  rw [foreignKeyLeft, takePairs_eq]
  rfl

namespace Edits

/-- The constraints of an inserted column are taken over as if it had been inserted without them. -/
@[simp]
theorem run_promoteAt_insertColumnAt (t : Table) (i : Nat) (c : Column) :
    (promoteAt i c).run (t.insertColumnAt i c) =
      ⟨.ok (), (t.insertColumnAt i c.bare).promote c, t.promoteEvents c⟩ := by
  simp only [promoteAt, Edit.run_bind, Edit.run_modify, Edit.run_emit, changeColumnAt_insertColumnAt,
    List.nil_append, List.append_nil]
  rfl

theorem addColumn_eq (c : Column) (placement : Option Placement) :
    addColumn c placement = .step (·.addColumn c placement) (·.promoteEvents c) := by
  apply Edit.ext_run
  intro t
  cases h : t.hasColumn c.name with
  | true => simp [addColumn, checkNewColumn, Table.addColumn, Edit.run_bind, Edit.run_step, h]
  | false =>
      rcases insertionIndex_cases t placement c.bare with ⟨i, hi, hp⟩ | ⟨hi, hp⟩
      · simp [addColumn, checkNewColumn, Table.addColumn, Edit.run_bind, Edit.run_step, h, hi, hp]
        rfl
      · simp [addColumn, checkNewColumn, Table.addColumn, Edit.run_bind, Edit.run_step, h, hi, hp]

/-- The column that is taken out goes back where it was if its new place is missing without it. -/
theorem moveColumn_eq (name : String) (placement : Placement) :
    moveColumn name placement = .quiet (·.moveColumn name placement) := by
  apply Edit.ext_run
  intro t
  cases h : t.hasColumn name with
  | false => simp [moveColumn, Table.moveColumn, Edit.run_bind, Edit.run_quiet, locate_of_missing h, column?_of_missing h]
  | true =>
      obtain ⟨pre, c, post, hs⟩ := hasColumn.split h
      have hback : ({ t with columns := t.otherColumns name } : Table).insertColumnAt pre.length c = t := by
        rw [insertColumnAt, otherColumns, hs.eraseP_eq, insertIdx_length_append, ← hs.list_eq]
      have hplace := insertionIndex_cases { t with columns := t.otherColumns name } (some placement) c
      cases placement with
      | first =>
          simp [moveColumn, Table.moveColumn, Edit.run_bind, Edit.run_quiet, hs.locate_eq, hs.column?_eq,
            hs.removeColumnAt_eq, insertionIndex, place?, insertColumnAt]
      | after target =>
          -- The target is looked up twice: before the column is taken out, and among the others.
          cases ht : t.hasColumn target with
          | false =>
              have hn : insertAfter? target c (t.otherColumns name) = none := by
                apply insertAfter?_of_missing
                intro d hd
                simp only [hasColumn, List.any_eq_false, beq_iff_eq] at ht
                exact ht d (List.mem_of_mem_eraseP hd)
              simp [moveColumn, Table.moveColumn, Edit.run_bind, Edit.run_quiet, hs.locate_eq, hs.column?_eq,
                columnIndex_of_missing ht, place?, hn, noPlace]
          | true =>
              obtain ⟨before, d, rest, hd⟩ := hasColumn.split ht
              rcases hplace with ⟨i, hi, hp⟩ | ⟨hi, hp⟩
              · simp [moveColumn, Table.moveColumn, Edit.run_bind, Edit.run_quiet, hs.locate_eq, hs.column?_eq,
                  hd.columnIndex_eq, hs.removeColumnAt_eq, hi, hp]
                rfl
              -- Only the column itself can be missing the second time.
              · simp [moveColumn, Table.moveColumn, Edit.run_bind, Edit.run_quiet, hs.locate_eq, hs.column?_eq,
                  hd.columnIndex_eq, hs.removeColumnAt_eq, hi, hp, hback]
                rfl

theorem renameColumn_eq (old new : String) :
    renameColumn old new = .quiet (·.renameColumn old new) := by
  apply Edit.ext_run
  intro t
  cases h : t.hasColumn old with
  | false => simp [renameColumn, Table.renameColumn, Edit.run_bind, Edit.run_quiet, h, columnIndex_of_missing h]
  | true =>
      obtain ⟨pre, c, post, hs⟩ := hasColumn.split h
      by_cases hn : old = new
      · subst hn
        simp [renameColumn, Table.renameColumn, Edit.run_bind, Edit.run_quiet, h, hs.columnIndex_eq]
      · cases hf : t.hasColumn new <;>
          simp [renameColumn, Table.renameColumn, Edit.run_bind, Edit.run_quiet, h, hf, hn,
            hs.columnIndex_eq, checkNewColumn, hs.changeColumnAt_eq]

theorem setColumnDefault_eq (name : String) (value : Option DefaultValue) :
    setColumnDefault name value = .quiet (·.setColumnDefault name value) := by
  apply Edit.ext_run
  intro t
  cases h : t.hasColumn name with
  | false =>
      simp [setColumnDefault, Table.setColumnDefault, Edit.run_bind, Edit.run_quiet, h, columnIndex_of_missing h]
  | true =>
      obtain ⟨pre, c, post, hs⟩ := hasColumn.split h
      simp [setColumnDefault, Table.setColumnDefault, Edit.run_bind, Edit.run_quiet, h,
        hs.columnIndex_eq, hs.changeColumnAt_eq]

theorem pushIndex_eq (kind : IndexKind) (i : Index) : pushIndex kind i = .quiet (·.pushIndex kind i) := by
  apply Edit.ext_run
  intro t
  cases hp : t.checkParts i.parts <;> cases hn : t.checkIndexName i.name <;>
    simp [pushIndex, Table.pushIndex, Edit.run_bind, Edit.run_quiet, hp, hn]

theorem dropColumn_eq (name : String) : dropColumn name = .whole (·.dropColumn name) (·.dropEvents name) := by
  apply Edit.ext_run
  intro t
  cases h : t.hasColumn name with
  | false =>
      simp [dropColumn, Table.dropColumn, Edit.run_bind, Edit.run_whole, locate_of_missing h, column?_of_missing h]
  | true =>
      obtain ⟨pre, c, post, hs⟩ := hasColumn.split h
      simp only [dropColumn, Table.dropColumn, Edit.run_bind, Edit.run_whole, Edit.run_check, Edit.run_modify,
        Edit.run_emit, Edit.run_pure, hs.locate_eq, hs.column?_eq, hs.removeColumnAt_eq, dropFromIndexes,
        dropFromForeignKeys, foreignKeyLeft_eq, dropFromPrimaryKey, List.nil_append, List.append_nil, dropEvents, List.append_assoc]
      rfl

theorem run_placeColumn (t : Table) (c : Column) (placement : Option Placement) :
    (placeColumn c placement).run t =
      ⟨.ok (), ({ t with
        columns := (place? placement c.bare t.columns).getD (t.columns ++ [c.bare]) } : Table).promote c,
        t.promoteEvents c⟩ := by
  rcases insertionIndex_cases t placement c.bare with ⟨i, hi, hp⟩ | ⟨hi, hp⟩
  · simp [placeColumn, Edit.run_bind, hi, hp]
    rfl
  · have hlast : t.insertColumnAt t.columns.length c.bare = { t with columns := t.columns ++ [c.bare] } := by
      simp [insertColumnAt]
    simp [placeColumn, Edit.run_bind, hi, hp, hlast]

theorem replaceColumn_eq (name : String) (c : Column) (placement : Option Placement) :
    replaceColumn name c placement = .step (·.replaceColumn name c placement) (·.promoteEvents c) := by
  apply Edit.ext_run
  intro t
  cases h : t.hasColumn name with
  | false =>
      simp [replaceColumn, Table.replaceColumn, Edit.run_bind, Edit.run_step, h, columnIndex_of_missing h]
  | true =>
      obtain ⟨pre, old, post, hs⟩ := hasColumn.split h
      by_cases hn : c.name = name
      · cases hp : t.replacementPlace name placement with
        | error r =>
            simp [replaceColumn, Table.replaceColumn, Edit.run_bind, Edit.run_step, h, hs.columnIndex_eq, hn, hp]
        | ok target =>
            simp [replaceColumn, Table.replaceColumn, Edit.run_bind, Edit.run_step, h, hs.columnIndex_eq, hn, hp,
              hs.removeColumnAt_eq, run_placeColumn]
            rfl
      · cases hf : t.hasColumn c.name with
        | true =>
            simp [replaceColumn, Table.replaceColumn, Edit.run_bind, Edit.run_step, h, hs.columnIndex_eq, hn, hf,
              checkNewColumn]
        | false =>
            cases hp : t.replacementPlace name placement with
            | error r =>
                simp [replaceColumn, Table.replaceColumn, Edit.run_bind, Edit.run_step, h, hs.columnIndex_eq, hn,
                  hf, hp, checkNewColumn]
            | ok target =>
                simp [replaceColumn, Table.replaceColumn, Edit.run_bind, Edit.run_step, h, hs.columnIndex_eq, hn,
                  hf, hp, checkNewColumn, hs.removeColumnAt_eq, run_placeColumn, renameReferences, promoteEvents]

theorem pushForeignKey_eq (k : ForeignKey) : pushForeignKey k = .quiet (·.pushForeignKey k) := by
  apply Edit.ext_run
  intro t
  cases hp : t.checkParts k.parts <;> cases hn : t.checkSymbol k.symbol <;>
    simp [pushForeignKey, Table.pushForeignKey, Edit.run_bind, Edit.run_quiet, hp, hn]

theorem setPrimaryKey_eq (key : Index) :
    setPrimaryKey key = .whole (fun t => (t.setPrimaryKey key).map (t.primaryKey, ·)) fun _ => [] := by
  apply Edit.ext_run
  intro t
  cases hp : t.checkParts key.parts <;>
    simp [setPrimaryKey, Table.setPrimaryKey, Edit.run_bind, Edit.run_whole, hp]

theorem addPrimaryKey_eq (key : Index) : addPrimaryKey key = .quiet (·.addPrimaryKey key) := by
  apply Edit.ext_run
  intro t
  cases h : t.primaryKey with
  | some present => simp [addPrimaryKey, Table.addPrimaryKey, Edit.run_bind, Edit.run_quiet, h]
  | none =>
      cases hp : t.setPrimaryKey key <;>
        simp [addPrimaryKey, Table.addPrimaryKey, setPrimaryKey_eq, Edit.run_bind, Edit.run_quiet,
          Edit.run_whole, h, hp]

/-- The key is taken off before it is seen whether there was one. -/
theorem dropPrimaryKey_eq : dropPrimaryKey = .quiet (·.dropPrimaryKey) := by
  apply Edit.ext_run
  intro t
  cases h : t.primaryKey with
  | none =>
      have ht : t.withoutPrimaryKey = t := by rw [withoutPrimaryKey, ← h]
      simp [dropPrimaryKey, Table.dropPrimaryKey, takePrimaryKey, Edit.run_bind, Edit.run_quiet, h, ht]
  | some key => simp [dropPrimaryKey, Table.dropPrimaryKey, takePrimaryKey, Edit.run_bind, Edit.run_quiet, h]

theorem dropForeignKey_eq (symbol : String) :
    dropForeignKey symbol = .whole (·.dropForeignKey symbol) fun _ => [] := by
  apply Edit.ext_run
  intro t
  cases h : t.foreignKey? symbol with
  | none => simp [dropForeignKey, Table.dropForeignKey, Edit.run_bind, Edit.run_whole, h]
  | some k =>
      have herase : t.foreignKeys.eraseP (·.symbol == some symbol) = _ := List.eraseP_eq_eraseIdx
      cases hi : t.foreignKeys.findIdx? (·.symbol == some symbol) with
      | none =>
          rw [List.findIdx?_eq_none_iff] at hi
          have hk := hi k (List.mem_of_find?_eq_some h)
          simp [List.find?_some h] at hk
      | some i =>
          rw [hi] at herase
          simp [dropForeignKey, Table.dropForeignKey, Edit.run_bind, Edit.run_whole, h, hi, herase]

theorem dropNamedIndex_eq (name : String) :
    dropNamedIndex name = .whole (·.dropIndex name) fun _ => [] := by
  apply Edit.ext_run
  intro t
  cases h : t.index? name <;>
    simp [dropNamedIndex, Table.dropIndex, kindOf, Edit.run_bind, Edit.run_whole, h]

theorem renameIndex_eq (old new : String) : renameIndex old new = .quiet (·.renameIndex old new) := by
  apply Edit.ext_run
  intro t
  cases h : t.index? old with
  | none => simp [renameIndex, Table.renameIndex, kindOf, Edit.run_bind, Edit.run_quiet, h]
  | some p =>
      by_cases hn : old = new
      · subst hn
        simp [renameIndex, Table.renameIndex, kindOf, Edit.run_bind, Edit.run_quiet, h]
      · cases hf : t.index? new <;>
          simp [renameIndex, Table.renameIndex, kindOf, Edit.run_bind, Edit.run_quiet, checkIndexName, h, hf, hn]

end Edits

end DdlCatalog.Table
