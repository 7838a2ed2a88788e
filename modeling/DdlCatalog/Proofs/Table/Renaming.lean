import DdlCatalog.Proofs.Table.Positions

/-!
A column that takes another name. Renamed in place or replaced by itself under the new name, the table is
the same, and the old name given back is the table before.
-/

namespace DdlCatalog.Table

variable {t t' : Table} {name old new : String} {c : Column}

/-! ### Two ways to rename -/

theorem promote_of_bare (hc : c.inline = {}) : t.promote c = t := by
  simp [promote, hc]

theorem renameColumn_split {pre post : List Column} (hs : ColumnSplit old t.columns pre c post) (hne : old ≠ new)
    (hnew : t.hasColumn new = false) : t.renameColumn old new =
      .ok { t.renameReferences old new with columns := pre ++ { c with name := new } :: post } := by
  have hold : t.hasColumn old = true := hasColumn_iff.2 ⟨c, hs.mem, hs.key_eq⟩
  rw [renameColumn, hold, hnew, updateColumn, hs.updateColumns_eq]
  simp [hne, renameReferences]

/-- A column without constraints of its own, put in the place of another. -/
theorem replaceColumn_split {pre post : List Column} {d : Column} (h : t.WellFormed)
    (hs : ColumnSplit old t.columns pre c post) (hd : d.inline = {})
    (hnew : d.name = old ∨ t.hasColumn d.name = false) : t.replaceColumn old d none =
      .ok { t.renameReferences old d.name with columns := pre ++ d :: post } := by
  have hold : t.hasColumn old = true := hasColumn_iff.2 ⟨c, hs.mem, hs.key_eq⟩
  have hbare : d.bare = d := by rw [Column.bare, ← hd]
  have hfree : ¬(d.name ≠ old ∧ t.hasColumn d.name = true) := by
    rintro ⟨hne, htaken⟩
    rcases hnew with heq | hfree
    · exact hne heq
    · rw [hfree] at htaken; cases htaken
  obtain ⟨target, htarget, -, hplace⟩ := columnPosition_place h.columns_distinct hs
  have hrenamed : (if d.name = old then t else t.renameReferences old d.name) = t.renameReferences old d.name := by
    split
    · rename_i heq; rw [heq, renameReferences_self]
    · rfl
  rw [replaceColumn, hold, if_neg (by simp), if_neg hfree, replacementPlace, htarget, otherColumns, hs.eraseP_eq, hbare]
  simp only [hplace, Option.getD_some, hrenamed, promote_of_bare hd]

theorem replaceColumn_renamed (h : t.WellFormed) (hc : c ∈ t.columns) (new : String) :
    t.replaceColumn c.name { c with name := new } none = t.renameColumn c.name new := by
  obtain ⟨pre, post, hs⟩ := h.columnSplit hc
  have hold : t.hasColumn c.name = true := hasColumn_iff.2 ⟨c, hc, rfl⟩
  have hinline : c.inline = {} := h.nothing_pending c hc
  by_cases hne : c.name = new
  · subst hne
    rw [replaceColumn_split h hs hinline (.inl rfl), renameReferences_self, ← hs.list_eq, renameColumn, hold]
    simp
  · cases hnew : t.hasColumn new with
    | true => simp [replaceColumn, renameColumn, hold, hnew, hne, Ne.symm hne]
    | false =>
        rw [renameColumn_split hs hne hnew]
        exact replaceColumn_split (d := { c with name := new }) h hs hinline (.inr hnew)

/-! ### There and back -/

theorem KeyPart.renameColumn_back {p : KeyPart} (hp : p.column ≠ new) :
    (p.renameColumn old new).renameColumn new old = p := by
  by_cases ho : p.column = old
  · obtain ⟨column, length, order⟩ := p
    obtain rfl : column = old := ho
    simp [KeyPart.renameColumn]
  · simp [KeyPart.renameColumn, ho, hp]

/-- A name that no key refers to can be taken on by the references to a column, and given back. -/
theorem renameReferences_back (h : ∀ parts ∈ t.keyParts, ∀ p ∈ parts, p.column ≠ new) :
    (t.renameReferences old new).renameReferences new old = t := by
  have hparts (parts : List KeyPart) (hp : parts ∈ t.keyParts) :
      (parts.map (KeyPart.renameColumn old new)).map (KeyPart.renameColumn new old) = parts := by
    rw [List.map_map]
    exact (List.map_congr_left fun p hm => KeyPart.renameColumn_back (h parts hp p hm)).trans (List.map_id _)
  have hindex (i : Index) (hi : i.parts ∈ t.keyParts) : (i.renameColumn old new).renameColumn new old = i := by
    simp only [Index.renameColumn, hparts i.parts hi]
  have hforeign (k : ForeignKey) (hk : k.parts ∈ t.keyParts) :
      (k.renameColumn old new).renameColumn new old = k := by
    simp only [ForeignKey.renameColumn, hparts k.parts hk]
  refine ext_kinds rfl rfl ?_ ?_ (fun kind => ?_) rfl
  · rw [renameReferences, renameReferences]
    cases hk : t.primaryKey with
    | none => rfl
    | some key =>
        rw [Option.map_some, Option.map_some, hindex key (primaryKey_mem_keyParts hk)]
  · rw [renameReferences, renameReferences, List.map_map]
    exact (List.map_congr_left fun k hk => hforeign k (foreignKey_mem_keyParts hk)).trans (List.map_id _)
  · rw [renameReferences_indexesOf, renameReferences_indexesOf, List.map_map]
    exact (List.map_congr_left fun i hi =>
      hindex i (index_mem_keyParts hi)).trans (List.map_id _)

theorem renameColumn_ok (hne : old ≠ new) (ht : t.renameColumn old new = .ok t') :
    t.hasColumn old = true ∧ t.hasColumn new = false := by
  rw [renameColumn] at ht
  split at ht
  · cases ht
  · rename_i hold
    split at ht
    · cases ht
    · rename_i hnew
      exact ⟨by simpa using hold, by simpa using hnew⟩

/-- The name that a column had is free once it has another, which no key of the table referred to before. -/
theorem renameColumn_back (h : t.WellFormed) (hne : old ≠ new) (ht : t.renameColumn old new = .ok t') :
    t'.renameColumn new old = .ok t := by
  obtain ⟨hold, hnew⟩ := renameColumn_ok hne ht
  obtain ⟨pre, c, post, hs⟩ := hasColumn.split hold
  have hunnamed : ∀ parts ∈ t.keyParts, ∀ p ∈ parts, p.column ≠ new := by
    rintro parts hparts p hp rfl
    exact hasColumn_eq_false_iff.1 hnew (h.keys_resolved parts hparts p hp)
  have hothers : ∀ d ∈ pre ++ post, d.name ≠ old := by
    rintro d hd heq
    exact hs.notMem_others h.columns_distinct (List.mem_map.2 ⟨d, hd, heq⟩)
  have hfresh : ∀ d ∈ pre, d.name ≠ new := by
    rintro d hd heq
    rw [hasColumn, List.any_eq_false] at hnew
    exact hnew d (hs.list_eq ▸ List.mem_append_left _ hd) (by simpa using heq)
  rw [renameColumn_split hs hne hnew] at ht
  obtain rfl := Except.ok.inj ht
  have hback : ColumnSplit new (pre ++ { c with name := new } :: post) pre { c with name := new } post :=
    ⟨rfl, rfl, hfresh⟩
  have hfree : ({ t.renameReferences old new with columns := pre ++ { c with name := new } :: post } : Table).hasColumn
      old = false := by
    simp only [hasColumn, List.any_append, List.any_cons, Bool.or_eq_false_iff, List.any_eq_false, beq_iff_eq,
      beq_eq_false_iff_ne]
    exact ⟨fun d hd => hothers d (List.mem_append_left _ hd), hne.symm, fun d hd =>
      hothers d (List.mem_append_right _ hd)⟩
  have hsame : ({ c with name := old } : Column) = c := by rw [← hs.key_eq]
  have hreferences : (t.renameReferences old new).renameReferences new old = t := renameReferences_back hunnamed
  rw [renameColumn_split hback hne.symm hfree, hsame, ← hs.list_eq]
  exact congrArg (fun t'' : Table => Except.ok { t'' with columns := t.columns }) hreferences

/-- To rename a column is to replace it by itself under the new name, with the same result and the same
table after it; and a column renamed can be renamed back, which restores the table. -/
theorem renameColumn_eq_replaceColumn_and_back (h : t.WellFormed) (hc : c ∈ t.columns) (new : String) :
    (Edits.renameColumn c.name new).run t = (Edits.replaceColumn c.name { c with name := new } none).run t ∧
      (c.name ≠ new → ((Edits.renameColumn c.name new).run t).result = .ok () →
        (Edits.renameColumn new c.name).run ((Edits.renameColumn c.name new).run t).state = ⟨.ok (), t, []⟩) := by
  have hevents : t.promoteEvents { c with name := new } = [] := by
    simp [promoteEvents, h.nothing_pending c hc]
  rw [Edits.renameColumn_eq, Edits.renameColumn_eq, Edits.replaceColumn_eq, Edit.run_quiet, Edit.run_step,
    replaceColumn_renamed h hc, hevents]
  refine ⟨rfl, fun hne hresult => ?_⟩
  cases ht : t.renameColumn c.name new with
  | error r => rw [ht] at hresult; cases hresult
  | ok t' => rw [Edit.run_quiet, renameColumn_back h hne ht]

/-- A column between two others, which keys of three kinds refer to. -/
def enrolment : Table :=
  { name := "enrolment"
    columns := [{ name := "a", type := .int 4 }, { name := "b", type := .int 4 }, { name := "c", type := .int 4 }]
    primaryKey := some (.onColumns ["b", "a"])
    foreignKeys := [.onColumns ["b", "c"] (.toColumns "u" ["b", "c"])]
    uniqueKeys := [{ parts := [{ column := "c" }, { column := "b", length := some 3, order := some .descending }] }] }

/-- The column goes back to its place behind `a`, and the keys to the name it had. -/
theorem enrolment_renamed_and_back : enrolment.WellFormed ∧
    ((Edits.renameColumn "b" "d").run enrolment).result = .ok () ∧
    ((Edits.renameColumn "b" "d").run enrolment).state.primaryKey = some (.onColumns ["d", "a"]) ∧
    (Edits.renameColumn "b" "d").run enrolment =
      (Edits.replaceColumn "b" { name := "d", type := .int 4 } none).run enrolment ∧
    (Edits.renameColumn "d" "b").run ((Edits.renameColumn "b" "d").run enrolment).state = ⟨.ok (), enrolment, []⟩ := by
  have hw : enrolment.WellFormed := by decide
  have hc : ({ name := "b", type := .int 4 } : Column) ∈ enrolment.columns := by decide
  have hresult : ((Edits.renameColumn "b" "d").run enrolment).result = .ok () := by rfl
  obtain ⟨hsame, hback⟩ := renameColumn_eq_replaceColumn_and_back hw hc "d"
  exact ⟨hw, hresult, by rfl, hsame, hback (by decide) hresult⟩

end DdlCatalog.Table
