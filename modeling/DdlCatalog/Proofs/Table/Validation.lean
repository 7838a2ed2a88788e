import DdlCatalog.Proofs.Encoding.Settled

/-!
Validation against the invariant of tables. Of a table that a text holds, validation sees all of the
invariant but one thing: that no two foreign keys have one symbol.
-/

namespace DdlCatalog

open Json

/-! ### Tables of texts -/

theorem Json.exists_of_mem_list? {α : Type} {element? : Json → Option α} {j : Json} {xs : List α}
    (h : list? element? j = some xs) {x : α} (hx : x ∈ xs) : ∃ element, element? element = some x := by
  cases j with
  | array elements =>
      rw [list?] at h
      induction elements generalizing xs with
      | nil => cases h; cases hx
      | cons element elements ih =>
          simp only [List.mapM_cons, Option.bind_eq_bind, Option.bind_eq_some_iff] at h
          obtain ⟨y, hy, ys, hys, he⟩ := h
          cases he
          rcases List.mem_cons.1 hx with rfl | hx
          · exact ⟨element, hy⟩
          · exact ih hx hys
  | _ => cases h

theorem Column.ofJson?_inline {j : Json} {c : Column} (h : ofJson? j = some c) : c.inline = {} := by
  simp only [ofJson?, Option.bind_eq_bind, Option.bind_eq_some_iff] at h
  obtain ⟨f, -, name, -, type, -, options, -, he⟩ := h
  cases he
  rfl

namespace Table

variable {t : Table} {text : String}

/-- A text has no place for constraints that a table has not taken over. -/
theorem ofJson?_nothing_pending {j : Json} (h : ofJson? j = some t) : ∀ c ∈ t.columns, c.inline = {} := by
  simp only [ofJson?, Option.bind_eq_bind, Option.bind_eq_some_iff] at h
  obtain ⟨fields, -, name, -, columns, hcolumns, _, -, _, -, _, -, _, -, _, -, _, -, _, -, he⟩ := h
  cases he
  intro c hc
  obtain ⟨listed, -, hlist⟩ := Option.bind_eq_some_iff.1 hcolumns
  obtain ⟨element, helement⟩ := exists_of_mem_list? hlist hc
  exact Column.ofJson?_inline helement

/-- A text is accepted whose table is valid. -/
theorem ofCompact_eq_ok_iff (h : (Json.parse? text).bind ofJson? = some t) :
    ofCompact text = .ok t ↔ t.validate = .ok () := by
  rw [ofCompact, h]
  cases hv : t.validate with
  | error e => simp [hv]
  | ok _ => simp [hv]

/-- The invariant of a table from a text takes a valid table and symbols that are told apart. -/
theorem wellFormed_iff_valid {j : Json} (h : ofJson? j = some t) :
    t.WellFormed ↔ t.validate = .ok () ∧ t.symbols.Nodup := by
  constructor
  · intro hw
    exact ⟨hw.validate_eq_ok, hw.symbols_distinct⟩
  · rintro ⟨hv, hsymbols⟩
    obtain ⟨hcolumns, hkeys, hindexes⟩ := validate_eq_ok_iff.1 hv
    exact
      { columns_distinct := hcolumns
        keys_nonempty := fun parts hp => (hkeys parts hp).1
        indexes_distinct := hindexes
        symbols_distinct := hsymbols
        nothing_pending := ofJson?_nothing_pending h
        keys_resolved := fun parts hp => (hkeys parts hp).2 }

/-- What is asked of the table of a text before it is accepted: columns that are told apart, keys that are
not empty and whose columns are there, and indexes that are told apart. That is the invariant of tables but
for the symbols of foreign keys, which are not looked at. -/
theorem accepted_iff_wellFormed_but_symbols (h : (Json.parse? text).bind ofJson? = some t) :
    (t.validate = .ok () ↔
      t.columnNames.Nodup ∧ (∀ parts ∈ t.keyParts, t.Supports parts) ∧ t.indexNames.Nodup) ∧
    (ofCompact text = .ok t ↔ t.validate = .ok ()) ∧
    (t.WellFormed ↔ ofCompact text = .ok t ∧ t.symbols.Nodup) := by
  obtain ⟨j, -, hj⟩ := Option.bind_eq_some_iff.1 h
  refine ⟨validate_eq_ok_iff, ofCompact_eq_ok_iff h, ?_⟩
  rw [ofCompact_eq_ok_iff h]
  exact wellFormed_iff_valid hj

/-- A foreign key of the symbol `s` to some table. -/
def toTable (table : String) : ForeignKey :=
  { ForeignKey.onColumns ["a"] (.toColumns table ["x"]) with symbol := some "s" }

def referring (tables : List String) : Table :=
  { name := "t", columns := [{ name := "a", type := .int 4 }], foreignKeys := tables.map toTable }

theorem decode_referring (tables : List String) :
    (Json.parse? (referring tables).compact).bind ofJson? = some (referring tables) := by
  have hpending : ∀ c ∈ (referring tables).columns, c.inline = {} := by simp [referring]
  have hreads : (referring tables).DefaultsReadBack := by simp [DefaultsReadBack, referring]
  exact decode_compact hpending hreads

theorem referring_accepted :
    (Json.parse? (referring ["u"]).compact).bind ofJson? = some (referring ["u"]) ∧
      ofCompact (referring ["u"]).compact = .ok (referring ["u"]) ∧ (referring ["u"]).WellFormed := by
  obtain ⟨-, haccepted, hwellFormed⟩ := accepted_iff_wellFormed_but_symbols (decode_referring ["u"])
  have hvalid : (referring ["u"]).validate = .ok () := by decide
  have hread := haccepted.2 hvalid
  exact ⟨decode_referring ["u"], hread, hwellFormed.2 ⟨hread, by decide⟩⟩

/-- Two foreign keys of one symbol are accepted, the second of which is never found; it could not be added to
the table that has the first one. -/
theorem referringTwice_accepted :
    ofCompact (referring ["u", "v"]).compact = .ok (referring ["u", "v"]) ∧
      (referring ["u", "v"]).validate = .ok () ∧ ¬ (referring ["u", "v"]).symbols.Nodup ∧
      (referring ["u", "v"]).foreignKey? "s" = some (toTable "u") ∧
      (referring ["u"]).pushForeignKey (toTable "v") = .error (.duplicateForeignKey "t" "s") := by
  have hvalid : (referring ["u", "v"]).validate = .ok () := by decide
  exact ⟨(ofCompact_eq_ok_iff (decode_referring ["u", "v"])).2 hvalid, hvalid, by decide, by decide, by decide⟩

end Table

end DdlCatalog
