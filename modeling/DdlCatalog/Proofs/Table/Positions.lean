import DdlCatalog.Proofs.Table.ColumnEdits

/-!
Where columns stand. A column that is added, moved or put in the place of another is first, or right
behind the column it is placed after, and the others are as they were; and the position that a table
gives for a column is the one it goes back to.
-/

namespace DdlCatalog

/-- The column as a table keeps it that has taken over its constraints: one of the primary key is not
nullable. -/
def Column.received (c : Column) : Column := if c.inline.primaryKey then c.bare.notNull else c.bare

@[simp]
theorem Column.received_name (c : Column) : c.received.name = c.name := by
  rw [received]
  split <;> rfl

/-- The columns in front of a place: none, or some of which the one placed after is the last. -/
def Placement.Ends (pre : List Column) : Placement → Prop
  | .first => pre = []
  | .after name => pre.getLast?.map (·.name) = some name

/-- The columns with one more at a place, all others as they were. -/
def Placement.Puts (placement : Placement) (c : Column) (others columns : List Column) : Prop :=
  ∃ pre post, others = pre ++ post ∧ columns = pre ++ c :: post ∧ placement.Ends pre

namespace Table

variable {t t' : Table} {name : String} {c d : Column} {others columns pre post : List Column}
  {placement : Option Placement}

/-! ### Places -/

theorem puts_after (pre : List Column) (d c : Column) (post : List Column) :
    (Placement.after d.name).Puts c (pre ++ d :: post) (pre ++ d :: c :: post) :=
  ⟨pre ++ [d], post, by simp, by simp, by simp [Placement.Ends]⟩

/-- A column is put where it is placed, unless that is behind a column that is not there. -/
theorem place?_cases (p : Placement) (c : Column) (others : List Column) :
    (∃ columns, place? (some p) c others = some columns ∧ p.Puts c others columns ∧
      ∀ n, p = .after n → n ∈ others.map (·.name)) ∨
    (place? (some p) c others = none ∧ ∃ n, p = .after n ∧ n ∉ others.map (·.name)) := by
  cases p with
  | first => exact .inl ⟨c :: others, rfl, ⟨[], others, rfl, rfl, rfl⟩, by simp⟩
  | after n =>
      by_cases hn : ∃ d ∈ others, d.name = n
      · obtain ⟨pre, d, post, hs⟩ := exists_split hn
        obtain rfl := hs.list_eq
        obtain rfl := hs.key_eq
        refine .inl ⟨_, ColumnSplit.insertAfter?_eq hs c, puts_after pre d c post, ?_⟩
        rintro m hm
        cases hm
        exact List.mem_map_of_mem hs.mem
      · have hmissing : ∀ d ∈ others, d.name ≠ n := fun d hd he => hn ⟨d, hd, he⟩
        exact .inr ⟨insertAfter?_of_missing hmissing c, n, rfl, by simpa using hmissing⟩

/-- The column that was put is the one of its name, and it is the one changed when the table takes its
constraints over. -/
theorem promote_inserted (hpre : ∀ d ∈ pre, d.name ≠ c.name) :
    (({ t with columns := pre ++ c.bare :: post } : Table).promote c).columns = pre ++ c.received :: post := by
  have hs : ColumnSplit c.name (pre ++ c.bare :: post) pre c.bare post := ⟨rfl, rfl, hpre⟩
  rw [promote, Column.received]
  split
  · exact hs.updateColumns_eq Column.notNull
  · rfl

theorem promote_puts {p : Placement} (h : p.Puts c.bare others columns) (hc : c.name ∉ others.map (·.name)) :
    p.Puts c.received others (({ t with columns := columns } : Table).promote c).columns := by
  obtain ⟨pre, post, rfl, rfl, hp⟩ := h
  refine ⟨pre, post, rfl, promote_inserted fun d hd he => hc ?_, hp⟩
  exact List.mem_map.2 ⟨d, List.mem_append_left post hd, he⟩

/-- Where names are told apart, a column is the first of its name. -/
theorem columnSplit_of_eq (h : t.columnNames.Nodup) (ht : t.columns = pre ++ c :: post) :
    ColumnSplit c.name t.columns pre c post := by
  refine ⟨ht, rfl, fun d hd he => ?_⟩
  rw [columnNames, ht, List.map_append, List.map_cons] at h
  exact (List.nodup_append.1 h).2.2 d.name (List.mem_map_of_mem hd) c.name List.mem_cons_self he

/-- The position of a column is where another goes that takes its place. -/
theorem columnPosition_place (h : t.columnNames.Nodup) (hs : ColumnSplit name t.columns pre c post) :
    ∃ target, t.columnPosition name = .ok target ∧ (target = none → post = []) ∧
      ∀ d, place? target d (pre ++ post) = some (pre ++ d :: post) := by
  rcases List.eq_nil_or_concat' pre with rfl | ⟨before, e, rfl⟩
  · exact ⟨some .first, by simp [columnPosition, hs.findIdx?_eq], by simp, fun _ => rfl⟩
  · have hindex : t.columns.findIdx? (·.name == name) = some (before.length + 1) := by simpa using hs.findIdx?_eq
    have hlength : t.columns.length = before.length + 2 + post.length := by
      simp only [hs.list_eq, List.length_append, List.length_cons, List.length_nil]
      omega
    rw [columnPosition, hindex]
    by_cases hlast : post = []
    · subst hlast
      exact ⟨none, by simp [hlength], by simp, by simp [place?]⟩
    · have hinside : before.length + 2 ≠ t.columns.length := by
        have := List.length_pos_iff.2 hlast
        omega
      have hget : t.columns[before.length]? = some e := by simp [hs.list_eq]
      have hdistinct : (before ++ e :: c :: post).Pairwise fun a b => a.name ≠ b.name := by
        have := List.pairwise_map.1 h
        simpa [hs.list_eq] using this
      -- The column before is the first of its name among the others too.
      have hbefore : ColumnSplit e.name (before ++ [e] ++ post) before e post :=
        ⟨by simp, rfl, fun b hb => (List.pairwise_append.1 hdistinct).2.2 b hb e List.mem_cons_self⟩
      refine ⟨some (.after e.name), by simp [hinside, hget], by simp, fun d => ?_⟩
      rw [place?, hbefore.insertAfter?_eq]
      simp

/-! ### Added -/

/-- A column to be added is refused for its name or for its place, or it stands there. -/
structure Added (t : Table) (c : Column) (placement : Option Placement) (o : Outcome Table Unit) : Prop where
  done_iff : o.result = .ok () ↔
    c.name ∉ t.columnNames ∧ ∀ n, placement = some (.after n) → n ∈ t.columnNames
  columns_eq : o.result = .ok () →
    match placement with
    | none => o.state.columns = t.columns ++ [c.received]
    | some p => p.Puts c.received t.columns o.state.columns

theorem addColumn_added (t : Table) (c : Column) (placement : Option Placement) :
    Added t c placement ((Edits.addColumn c placement).run t) := by
  rw [Edits.addColumn_eq, Edit.run_step, addColumn]
  cases hc : t.hasColumn c.name with
  | true => exact ⟨by simp [hasColumn_iff_mem.1 hc], fun hr => by cases hr⟩
  | false =>
      have hnew : c.name ∉ t.columnNames := hasColumn_eq_false_iff.1 hc
      cases placement with
      | none =>
          refine ⟨by simp [place?, hnew], fun _ => ?_⟩
          exact promote_inserted fun d hd he => hnew (List.mem_map.2 ⟨d, hd, he⟩)
      | some p =>
          rcases place?_cases p c.bare t.columns with ⟨columns, hp, hputs, htarget⟩ | ⟨hp, n, rfl, hn⟩
          · have htarget : ∀ n, p = .after n → n ∈ t.columnNames := htarget
            simp only [Bool.false_eq_true, if_false, hp]
            exact ⟨by simpa [hnew] using htarget, fun _ => promote_puts hputs hnew⟩
          · have hn : n ∉ t.columnNames := hn
            simp only [Bool.false_eq_true, if_false, hp]
            exact ⟨by simp [hnew, hn], fun hr => by cases hr⟩

/-! ### Moved -/

/-- A column that moves is refused a place behind itself or behind none; nothing but its place changes. -/
structure Moved (t : Table) (name : String) (p : Placement) (o : Outcome Table Unit) : Prop where
  done_iff : o.result = .ok () ↔
    name ∈ t.columnNames ∧ ∀ n, p = .after n → n ∈ t.columnNames ∧ n ≠ name
  state_eq : o.result = .ok () → ∃ pre c post columns, t.columns = pre ++ c :: post ∧ c.name = name ∧
    p.Puts c (pre ++ post) columns ∧ o.state = { t with columns := columns }

theorem mem_others_iff (h : t.columnNames.Nodup) (hs : ColumnSplit name t.columns pre c post) {n : String} :
    n ∈ (pre ++ post).map (·.name) ↔ n ∈ t.columnNames ∧ n ≠ name := by
  have hfresh := hs.notMem_others h
  have hnames : n ∈ t.columnNames ↔ n = name ∨ n ∈ (pre ++ post).map (·.name) := by
    rw [columnNames, (hs.perm.map _).mem_iff, List.map_cons, List.mem_cons, hs.key_eq]
  rw [hnames]
  constructor
  · intro hn
    refine ⟨.inr hn, ?_⟩
    rintro rfl
    exact hfresh hn
  · rintro ⟨hn, hne⟩
    exact hn.resolve_left hne

theorem moveColumn_moved (h : t.columnNames.Nodup) (name : String) (p : Placement) :
    Moved t name p ((Edits.moveColumn name p).run t) := by
  rw [Edits.moveColumn_eq, Edit.run_quiet, moveColumn]
  cases hn : t.hasColumn name with
  | false =>
      rw [column?_of_missing hn]
      exact ⟨by simp [hasColumn_eq_false_iff.1 hn], fun hr => by cases hr⟩
  | true =>
      obtain ⟨pre, c, post, hs⟩ := hasColumn.split hn
      have hname : name ∈ t.columnNames := hasColumn_iff_mem.1 hn
      rw [hs.column?_eq, otherColumns, hs.eraseP_eq]
      rcases place?_cases p c (pre ++ post) with ⟨columns, hp, hputs, htarget⟩ | ⟨hp, n, rfl, hn⟩
      · simp only [hp]
        refine ⟨?_, fun _ => ⟨pre, c, post, columns, hs.list_eq, hs.key_eq, hputs, rfl⟩⟩
        simpa [hname, ← mem_others_iff h hs] using htarget
      · simp only [hp]
        refine ⟨?_, fun hr => by cases hr⟩
        simpa [hname, ← mem_others_iff h hs] using hn

/-! ### Replaced -/

/-- A column in the place of another is refused for its name, or for its place as one that moves; where no
place is asked for it has that of the other. -/
structure Replaced (t : Table) (name : String) (c : Column) (placement : Option Placement)
    (o : Outcome Table Unit) : Prop where
  done_iff : o.result = .ok () ↔ name ∈ t.columnNames ∧ (c.name = name ∨ c.name ∉ t.columnNames) ∧
    ∀ n, placement = some (.after n) → n ∈ t.columnNames ∧ n ≠ name
  columns_eq : o.result = .ok () → ∃ pre old post, t.columns = pre ++ old :: post ∧ old.name = name ∧
    match placement with
    | none => o.state.columns = pre ++ c.received :: post
    | some p => p.Puts c.received (pre ++ post) o.state.columns

/-- The place asked for is among the others, or there is none for the column. -/
theorem replacementPlace_cases (h : t.columnNames.Nodup) (hs : ColumnSplit name t.columns pre d post) (p : Placement)
    (c : Column) :
    (∃ columns, t.replacementPlace name (some p) = .ok (some p) ∧ place? (some p) c (pre ++ post) = some columns ∧
      p.Puts c (pre ++ post) columns ∧ ∀ n, p = .after n → n ∈ t.columnNames ∧ n ≠ name) ∨
    ((∃ r, t.replacementPlace name (some p) = .error r) ∧ ∃ n, p = .after n ∧ ¬(n ∈ t.columnNames ∧ n ≠ name)) := by
  simp only [← mem_others_iff h hs]
  rcases place?_cases p c (pre ++ post) with ⟨columns, hp, hputs, htarget⟩ | ⟨hp, n, rfl, hn⟩
  · refine .inl ⟨columns, ?_, hp, hputs, htarget⟩
    cases p with
    | first => rfl
    | after n =>
        obtain ⟨hn, hne⟩ := (mem_others_iff h hs).1 (htarget n rfl)
        simp [replacementPlace, hne, hasColumn_iff_mem.2 hn]
  · refine .inr ⟨⟨.unknownColumn t.name n, ?_⟩, n, rfl, hn⟩
    rw [replacementPlace, if_pos]
    rw [mem_others_iff h hs, ← hasColumn_iff_mem] at hn
    by_cases hne : n = name
    · simp [hne]
    · simpa [hne] using hn

theorem replaceColumn_replaced (h : t.columnNames.Nodup) (name : String) (c : Column) (placement : Option Placement) :
    Replaced t name c placement ((Edits.replaceColumn name c placement).run t) := by
  rw [Edits.replaceColumn_eq, Edit.run_step, replaceColumn]
  cases hn : t.hasColumn name with
  | false => exact ⟨by simp [hasColumn_eq_false_iff.1 hn], fun hr => by cases hr⟩
  | true =>
      obtain ⟨pre, old, post, hs⟩ := hasColumn.split hn
      have hname : name ∈ t.columnNames := hasColumn_iff_mem.1 hn
      simp only [Bool.not_true, Bool.false_eq_true, if_false]
      by_cases hc : c.name ≠ name ∧ t.hasColumn c.name = true
      · rw [if_pos hc]
        rw [hasColumn_iff_mem] at hc
        exact ⟨by simp [hc.1, hc.2], fun hr => by cases hr⟩
      · rw [if_neg hc]
        have hnew : c.name = name ∨ c.name ∉ t.columnNames := by
          rw [hasColumn_iff_mem] at hc
          tauto
        have hfree : c.name ∉ (pre ++ post).map (·.name) := by
          rw [mem_others_iff h hs]
          tauto
        have hpre : ∀ d ∈ pre, d.name ≠ c.name :=
          fun d hd he => hfree (List.mem_map.2 ⟨d, List.mem_append_left post hd, he⟩)
        rw [otherColumns, hs.eraseP_eq]
        cases placement with
        | none =>
            obtain ⟨target, htarget, -, hplace⟩ := columnPosition_place h hs
            have hkept : t.replacementPlace name none = .ok target := htarget
            simp only [hkept, hplace, Option.getD_some]
            refine ⟨by simp [hname, hnew], fun _ => ⟨pre, old, post, hs.list_eq, hs.key_eq, ?_⟩⟩
            exact promote_inserted hpre
        | some p =>
            rcases replacementPlace_cases h hs p c.bare with ⟨columns, hr, hp, hputs, htarget⟩ | ⟨⟨r, hr⟩, n, rfl, hn⟩
            · simp only [hr, hp, Option.getD_some]
              refine ⟨by simpa [hname, hnew] using htarget, fun _ => ⟨pre, old, post, hs.list_eq, hs.key_eq, ?_⟩⟩
              exact promote_puts hputs hfree
            · simp only [hr]
              exact ⟨by simpa [hname, hnew] using hn, fun hr => by cases hr⟩

/-! ### Put back -/

/-- A column that is moved to where it stands. -/
theorem moveColumn_position (h : t.columnNames.Nodup) (ht : t.columns = pre ++ c :: post) (hpost : post ≠ []) :
    ∃ p, t.columnPosition c.name = .ok (some p) ∧ (Edits.moveColumn c.name p).run t = ⟨.ok (), t, []⟩ := by
  have hs : ColumnSplit c.name t.columns pre c post := columnSplit_of_eq h ht
  obtain ⟨target, htarget, hlast, hplace⟩ := columnPosition_place h hs
  obtain ⟨p, rfl⟩ := Option.ne_none_iff_exists'.1 (mt hlast hpost)
  refine ⟨p, htarget, ?_⟩
  rw [Edits.moveColumn_eq, Edit.run_quiet, moveColumn, hs.column?_eq, otherColumns, hs.eraseP_eq]
  simp only [hplace, ← ht]

/-- A column that is dropped and added again where it stood. -/
theorem dropColumn_addColumn (h : t.columnNames.Nodup) (ht : t.columns = pre ++ c :: post) :
    ∃ position, t.columnPosition c.name = .ok position ∧ ((Edits.dropColumn c.name).run t).result = .ok c ∧
      ((Edits.addColumn c position).run ((Edits.dropColumn c.name).run t).state).result = .ok () ∧
      ((Edits.addColumn c position).run ((Edits.dropColumn c.name).run t).state).state.columns =
        pre ++ c.received :: post := by
  have hs : ColumnSplit c.name t.columns pre c post := columnSplit_of_eq h ht
  obtain ⟨target, htarget, -, hplace⟩ := columnPosition_place h hs
  refine ⟨target, htarget, ?_⟩
  obtain ⟨t', ht'⟩ : ∃ t', t.dropColumn c.name = .ok (c, t') := by
    rw [dropColumn, hs.column?_eq]
    exact ⟨_, rfl⟩
  have hcolumns : t'.columns = pre ++ post := (dropColumn_cases ht').1.trans hs.eraseP_eq
  have hfree : c.name ∉ (pre ++ post).map (·.name) := hs.notMem_others h
  have hc : t'.hasColumn c.name = false := by
    rw [hasColumn_eq_false_iff, columnNames, hcolumns]
    exact hfree
  rw [Edits.dropColumn_eq, Edit.run_whole, ht', Edits.addColumn_eq, Edit.run_step, addColumn, hc, hcolumns]
  simp only [Bool.false_eq_true, if_false, hplace, true_and]
  exact promote_inserted fun d hd he => hfree (List.mem_map.2 ⟨d, List.mem_append_left post hd, he⟩)

theorem received_of_bare (hc : c.inline = {}) : c.received = c := by
  have hbare : c.bare = c := by rw [Column.bare, ← hc]
  rw [Column.received, hbare, hc]
  rfl

/-- In a table whose columns have names of their own: where a column stands that is added, moved or put in
the place of another; that a column, unless it is the last, can be moved to the position the table gives
for it, which changes nothing; and that a column dropped and added again at that position is back in its
place, as it was if it brings no constraints along. -/
theorem columns_placed_and_put_back (h : t.columnNames.Nodup) :
    (∀ c placement, Added t c placement ((Edits.addColumn c placement).run t)) ∧
    (∀ name p, Moved t name p ((Edits.moveColumn name p).run t)) ∧
    (∀ name c placement, Replaced t name c placement ((Edits.replaceColumn name c placement).run t)) ∧
    ∀ pre c post, t.columns = pre ++ c :: post →
      (post ≠ [] → ∃ p, t.columnPosition c.name = .ok (some p) ∧
        (Edits.moveColumn c.name p).run t = ⟨.ok (), t, []⟩) ∧
      ∃ position, t.columnPosition c.name = .ok position ∧
        let dropped := (Edits.dropColumn c.name).run t
        let added := (Edits.addColumn c position).run dropped.state
        dropped.result = .ok c ∧ added.result = .ok () ∧
          added.state.columns = pre ++ c.received :: post ∧ added.state.columnNames = t.columnNames ∧
          (c.inline = {} → added.state.columns = t.columns) := by
  refine ⟨addColumn_added t, moveColumn_moved h, replaceColumn_replaced h, fun pre c post ht => ⟨?_, ?_⟩⟩
  · exact moveColumn_position h ht
  · obtain ⟨position, hposition, hdropped, hadded, hcolumns⟩ := dropColumn_addColumn h ht
    refine ⟨position, hposition, hdropped, hadded, hcolumns, ?_, fun hc => ?_⟩
    · simp only [columnNames, hcolumns, ht, List.map_append, List.map_cons, Column.received_name]
    · rw [hcolumns, received_of_bare hc, ht]

/-- Columns first, last and between others, one with a key of its own. -/
def itinerary : Table :=
  { name := "itinerary"
    columns := [{ name := "a", type := .int 4 }, { name := "b", type := .int 4 },
      { name := "c", type := .int 4, inline := { primaryKey := true } }, { name := "d", type := .int 4 }]
    indexes := [.onColumns ["b", "d"]] }

/-- The last column goes behind the first, the third behind the second, where it is; the key of the third
is taken over when it is added again. -/
theorem itinerary_placed_and_put_back : itinerary.columnNames.Nodup ∧
    ((Edits.moveColumn "d" (.after "a")).run itinerary).state.columnNames = ["a", "d", "b", "c"] ∧
    itinerary.columnPosition "c" = .ok (some (.after "b")) ∧
    (Edits.moveColumn "c" (.after "b")).run itinerary = ⟨.ok (), itinerary, []⟩ ∧
    ((Edits.addColumn { name := "c", type := .int 4, inline := { primaryKey := true } } (some (.after "b"))).run
        ((Edits.dropColumn "c").run itinerary).state).state.columns =
      [{ name := "a", type := .int 4 }, { name := "b", type := .int 4 },
        { name := "c", type := .int 4, options := { nullable := false } }, { name := "d", type := .int 4 }] := by
  have h : itinerary.columnNames.Nodup := by decide
  have hposition : itinerary.columnPosition "c" = .ok (some (.after "b")) := by rfl
  obtain ⟨-, -, -, hback⟩ := columns_placed_and_put_back h
  obtain ⟨hmoved, position, hposition', -, -, hcolumns, -, -⟩ :=
    hback [{ name := "a", type := .int 4 }, { name := "b", type := .int 4 }]
      { name := "c", type := .int 4, inline := { primaryKey := true } } [{ name := "d", type := .int 4 }] rfl
  obtain ⟨p, hp, hstays⟩ := hmoved (List.cons_ne_nil _ _)
  obtain rfl := Option.some.inj (Except.ok.inj (hposition.symm.trans hp))
  obtain rfl := Except.ok.inj (hposition.symm.trans hposition')
  exact ⟨h, by rfl, hposition, hstays, hcolumns⟩

end Table

end DdlCatalog
