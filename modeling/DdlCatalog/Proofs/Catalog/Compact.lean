import DdlCatalog.Proofs.Catalog.Run
import DdlCatalog.Proofs.Encoding.Settled
import DdlCatalog.Proofs.Spelling.Script

/-!
Tables and catalogs through their texts: what is written is read back, but for infinite defaults, which
are read as null.
-/

namespace DdlCatalog.Catalog

variable {c : Catalog}

/-! ### Registering tables again -/

def register (ts : List Table) : List (String × Table) := ts.map fun t => (t.name, t)

/-- Valid tables whose names are free and told apart are registered in their order. -/
theorem insertAll_eq_ok {ts : List Table} (hvalid : ∀ t ∈ ts, t.validate = .ok ())
    (hnames : (ts.map (·.name)).Nodup) (hfree : ∀ t ∈ ts, c.contains t.name = false) :
    c.insertAll ts = .ok { c with entries := c.entries ++ register ts } := by
  induction ts generalizing c with
  | nil => simp [insertAll, register]
  | cons t ts ih =>
      rw [List.map_cons, List.nodup_cons] at hnames
      have hinsert : c.insert t = .ok (c.push t.name t) := by
        rw [insert, hfree t List.mem_cons_self]
        rfl
      have hfree' : ∀ u ∈ ts, (c.push t.name t).contains u.name = false := by
        intro u hu
        have hne : t.name ≠ u.name := fun he => hnames.1 (he ▸ List.mem_map_of_mem hu)
        simpa [contains, push, hne] using hfree u (List.mem_cons_of_mem _ hu)
      have hrest := ih (fun u hu => hvalid u (List.mem_cons_of_mem _ hu)) hnames.2 hfree'
      rw [insertAll, hvalid t List.mem_cons_self, hinsert, Edit.ok_bind, Edit.ok_bind, hrest]
      simp [push, register]

/-! ### The text of a catalog -/

def settled (c : Catalog) : Catalog := { c with entries := c.entries.map fun e => (e.1, e.2.settled) }

theorem tables_settled (c : Catalog) : c.settled.tables = c.tables.map Table.settled := by
  simp [tables, settled]

theorem settled_eq_iff : c.settled.tables = c.tables ↔ ∀ t ∈ c.tables, t.DefaultsFinite := by
  rw [tables_settled]
  constructor
  · intro h t ht
    exact Table.settled_eq_iff.1 (List.map_eq_map_iff.1 (h.trans (List.map_id _).symm) t ht)
  · intro h
    exact (List.map_congr_left fun t ht => Table.settled_eq_iff.2 (h t ht)).trans (List.map_id _)

theorem settled_entries_eq (h : ∀ t ∈ c.tables, t.DefaultsFinite) : c.settled.entries = c.entries := by
  refine (List.map_congr_left fun e he => ?_).trans (List.map_id _)
  rw [Table.settled_eq_iff.2 (h e.2 (List.mem_map_of_mem he)), id]

theorem alike_settled (c : Catalog) : Json.Alike c.settled.toJson c.toJson := by
  apply Json.alike_array
  rw [tables_settled, List.map_map, List.forall₂_map_left_iff, List.forall₂_map_right_iff, List.forall₂_same]
  exact fun t _ => t.alike_settled

theorem compact_settled (c : Catalog) : c.settled.compact = c.compact := c.alike_settled.render_eq

/-- Tables that a text is made of: valid ones with nothing pending, each under its own name. -/
structure Encodable (c : Catalog) : Prop where
  keys_distinct : c.keys.Nodup
  own_names : ∀ e ∈ c.entries, e.2.name = e.1
  nothing_pending : ∀ t ∈ c.tables, ∀ col ∈ t.columns, col.inline = {}
  tables_valid : ∀ t ∈ c.tables, t.validate = .ok ()

theorem WellFormed.encodable (h : c.WellFormed) : c.Encodable where
  keys_distinct := h.keys_distinct
  own_names e he := (h.tables_wellFormed e he).2
  nothing_pending t ht := by
    obtain ⟨e, he, rfl⟩ := List.mem_map.1 ht
    exact (h.tables_wellFormed e he).1.nothing_pending
  tables_valid t ht := by
    obtain ⟨e, he, rfl⟩ := List.mem_map.1 ht
    exact (h.tables_wellFormed e he).1.validate_eq_ok

theorem register_tables (h : ∀ e ∈ c.entries, e.2.name = e.1) : register c.tables = c.entries := by
  rw [register, tables, List.map_map]
  refine (List.map_congr_left fun e he => ?_).trans (List.map_id _)
  rw [Function.comp_apply, h e he, id]

theorem ofCompact_settled (h : c.Encodable) (hreads : ∀ t ∈ c.tables, t.DefaultsReadBack) :
    ofCompact c.compact = .ok { policy := .lenient, entries := c.settled.entries } := by
  have hfits : c.settled.toJson.Fits Json.maxDepth := by
    apply Json.fits_ofList.2
    rw [tables_settled]
    intro t' ht'
    obtain ⟨t, ht, rfl⟩ := List.mem_map.1 ht'
    exact Table.fits_toJson (Table.settled_readsBack (hreads t ht))
  have hparse : Json.parse? c.compact = some c.settled.toJson := by
    rw [← c.compact_settled]
    exact Json.parse?_render hfits
  have hread : Json.list? Table.ofJson? c.settled.toJson = some c.settled.tables := by
    rw [toJson, Json.list?_ofList fun t _ => t.ofJson?_toJson, tables_settled, List.map_map]
    refine congrArg some (List.map_congr_left fun t ht => ?_)
    exact Table.bare_eq (Table.settled_pending (h.nothing_pending t ht))
  have hvalid : ∀ t' ∈ c.settled.tables, t'.validate = .ok () := by
    rw [tables_settled]
    intro t' ht'
    obtain ⟨t, ht, rfl⟩ := List.mem_map.1 ht'
    exact Table.settled_valid (h.tables_valid t ht)
  have hown : ∀ e ∈ c.settled.entries, e.2.name = e.1 := by
    intro e' he'
    obtain ⟨e, he, rfl⟩ := List.mem_map.1 he'
    exact h.own_names e he
  have hnames : (c.settled.tables.map (·.name)).Nodup := by
    have hkeys : c.settled.tables.map (·.name) = c.keys := by
      rw [tables_settled, tables, keys, List.map_map, List.map_map]
      exact List.map_congr_left h.own_names
    rw [hkeys]
    exact h.keys_distinct
  have hfree : ∀ t ∈ c.settled.tables, (empty .lenient).contains t.name = false := fun _ _ => rfl
  simp only [ofCompact, hparse, Option.bind_some, hread, insertAll_eq_ok hvalid hnames hfree, register_tables hown]
  rfl

/-- Valid tables with nothing pending and finite defaults are read back from their texts, on their own
and as the tables of a catalog, whose order stays. A catalog that is read is a lenient one. -/
theorem ofCompact_compact :
    (∀ t : Table, (∀ col ∈ t.columns, col.inline = {}) → t.validate = .ok () → t.DefaultsFinite →
      t.DefaultsReadBack → Table.ofCompact t.compact = .ok t) ∧
    ∀ c : Catalog, c.Encodable → (∀ t ∈ c.tables, t.DefaultsFinite ∧ t.DefaultsReadBack) →
      ofCompact c.compact = .ok { c with policy := .lenient } := by
  constructor
  · intro t hpending hvalid hfinite hreads
    rw [Table.ofCompact_settled hpending hvalid hreads, Table.settled_eq_iff.2 hfinite]
  · intro c h hdefaults
    rw [ofCompact_settled h fun t ht => (hdefaults t ht).2, c.settled_entries_eq fun t ht => (hdefaults t ht).1]

/-- A table with a default that is written with a point, and a key whose name is quoted in its text. -/
def measured : Table :=
  { name := "m"
    columns :=
      [{ name := "x", type := .int 4 },
        { name := "y", type := { kind := .double }, options := { default := some (.real 1.5) } }]
    uniqueKeys := [{ name := some "\"", parts := [{ column := "x", length := some 3 }] }] }

def measuredAlone : Catalog := { policy := .strict, entries := [("m", measured)] }

theorem measured_reread :
    (measured.WellFormed ∧ measured.DefaultsFinite ∧ measured.DefaultsReadBack ∧
      Table.ofCompact measured.compact = .ok measured) ∧
    measuredAlone.Encodable ∧ ofCompact measuredAlone.compact = .ok { measuredAlone with policy := .lenient } := by
  have hw : measuredAlone.WellFormed := by decide
  have ht : measured.WellFormed := (hw.tables_wellFormed _ List.mem_cons_self).1
  have hfinite : measured.DefaultsFinite := by decide +kernel
  have hreads : measured.DefaultsReadBack := by decide +kernel
  have hdefaults : ∀ t ∈ measuredAlone.tables, t.DefaultsFinite ∧ t.DefaultsReadBack := by
    intro t hm
    obtain rfl := List.mem_singleton.1 hm
    exact ⟨hfinite, hreads⟩
  exact ⟨⟨ht, hfinite, hreads, ofCompact_compact.1 measured ht.nothing_pending ht.validate_eq_ok hfinite hreads⟩,
    hw.encodable, ofCompact_compact.2 measuredAlone hw.encodable hdefaults⟩

/-! ### Catalogs of scripts -/

theorem ofScript_wellFormed {script : String} (h : ofScript script = .ok c) : c.WellFormed := by
  have hw := (Operation.feed script).run_wellFormed trivial (empty_wellFormed .lenient)
  rw [Operation.run] at hw
  rw [ofScript] at h
  cases hr : ((empty .lenient).feed script).result with
  | error e => rw [hr] at h; cases h
  | ok _ => rw [hr] at h; cases h; exact hw

/-- The catalog of a script is read back from its text up to its infinite defaults, which are null then:
it has the same tables exactly if there are none. What is read has the same text again. -/
theorem ofScript_compact {script : String} {c : Catalog} (h : ofScript script = .ok c)
    (hreads : ∀ t ∈ c.tables, t.DefaultsReadBack) : ∃ c', ofCompact c.compact = .ok c' ∧
      c'.tables = c.tables.map Table.settled ∧ c'.compact = c.compact ∧
      (c'.tables = c.tables ↔ ∀ t ∈ c.tables, t.DefaultsFinite) := by
  have hread := ofCompact_settled (ofScript_wellFormed h).encodable hreads
  exact ⟨_, hread, c.tables_settled, c.compact_settled, c.settled_eq_iff⟩

/-! ### Real defaults of scripts -/

def realColumn (x : Float) : Statement :=
  .createTable
    { table := "t"
      entries := [.column { name := "a", type := { name := .double }, attributes := { default := some (.real x) } }] }

def realTable (x : Float) : Table :=
  { name := "t"
    columns := [{ name := "a", type := { kind := .double }, options := { default := some (.real x) } }] }

theorem realColumn_canonical (n : Sql.Numeral) (h : DefaultValue.isNegative n.value = false) :
    (realColumn n.value).Canonical := by
  have htype : TypeSpec.Canonical { name := .double } := ⟨by decide, by simp, by simp, by decide, by simp⟩
  have hdefault : (DefaultValue.real n.value).Canonical := ⟨n, by rw [if_neg (by simp [h])]⟩
  refine ⟨⟨_, List.mem_singleton_self _, rfl⟩, List.forall_mem_singleton.2 ?_, by simp⟩
  exact { type := htype, attributes := ⟨by simpa using hdefault, by simp, by simp, by simp⟩ }

/-- The tokens of a script that makes the numeral the default of a column. -/
def realTexts (n : Sql.Numeral) : List (List Char) :=
  ["CREATE".toList, "TABLE".toList, "\x60t\x60".toList, ['('], "\x60a\x60".toList, "DOUBLE".toList, "DEFAULT".toList,
    n.text, [')']]

theorem parse_realColumn {script : String} (n : Sql.Numeral) (h : DefaultValue.isNegative n.value = false)
    (hscript : script.toList = [' '].intercalate (realTexts n)) : Sql.parse script = .ok [realColumn n.value] := by
  have hkinds : (realColumn n.value).kinds = [.word "create", .word "table", .quoted "t", .leftParen, .quoted "a",
      .word "double", .word "default", .real n.value, .rightParen] := by
    have hdefault : (DefaultValue.real n.value).kinds = [.real n.value] := by
      rw [DefaultValue.kinds, h]
      rfl
    simp [realColumn, Statement.kinds, Statement.temporaryTable, TableEntry.kinds, ColumnDefinition.kinds,
      TypeSpec.kinds, TypeSpec.argumentKinds, TypeSpec.pieces, TypeName.name, ColumnAttributes.pieces, hdefault,
      Sql.Parser.inParens, Sql.Parser.joined, Sql.ifSome, Sql.ifTrue]
  have htexts : Sql.IsSpelling (realColumn n.value).kinds script.toList := by
    rw [hkinds]
    refine ⟨realTexts n, ?_, hscript⟩
    refine .cons rfl (.cons rfl (.cons rfl (.cons ⟨_, rfl, rfl⟩ (.cons rfl (.cons rfl (.cons rfl ?_))))))
    exact .cons ⟨n, rfl, rfl⟩ (.cons ⟨_, rfl, rfl⟩ .nil)
  exact Sql.parse_of_isScript (List.forall_mem_singleton.2 (realColumn_canonical n h))
    ⟨[script.toList], .cons htexts .nil, List.intercalate_singleton.symm⟩

theorem ofScript_eq_ok {script : String} {ss : List Statement} {c : Catalog} (hparse : Sql.parse script = .ok ss)
    (h : (((empty .lenient).applied ss).result.toOption, ((empty .lenient).applied ss).catalog) = (some (), c)) :
    ofScript script = .ok c := by
  obtain ⟨hresult, rfl⟩ := Prod.mk.inj h
  rw [ofScript, feed, hparse]
  simp only
  cases hr : ((empty .lenient).applied ss).result with
  | error e => rw [hr] at hresult; cases hresult
  | ok _ => rfl

/-- A numeral that is in the range of real numbers, and one beyond it. -/
def oneAndAHalf : Sql.Numeral where
  whole := ['1']
  fraction := some ['5']
  exponent := none
  whole_digits := by simp [Sql.isDigit]
  whole_nonempty := by simp
  fraction_digits := by simp [Sql.isDigit]
  exponent_digits := by simp [Sql.isDigit]
  real := rfl

def outOfRange : Sql.Numeral where
  whole := ['1']
  fraction := none
  exponent := some (false, ['9', '9', '9'])
  whole_digits := by simp [Sql.isDigit]
  whole_nonempty := by simp
  fraction_digits := by simp [Sql.isDigit]
  exponent_digits := by simp [Sql.isDigit]
  real := rfl

def realAlone (x : Float) : Catalog := { policy := .lenient, entries := [("t", realTable x)] }

theorem oneAndAHalf_reread :
    ofScript "CREATE TABLE \x60t\x60 ( \x60a\x60 DOUBLE DEFAULT 1.5 )" = .ok (realAlone 1.5) ∧
      ∃ c', ofCompact (realAlone 1.5).compact = .ok c' ∧ c'.tables = [realTable 1.5] := by
  have hscript : ofScript "CREATE TABLE \x60t\x60 ( \x60a\x60 DOUBLE DEFAULT 1.5 )" = .ok (realAlone 1.5) :=
    ofScript_eq_ok (parse_realColumn oneAndAHalf (by decide +kernel) rfl) (by decide +kernel)
  have hreads : ∀ t ∈ (realAlone 1.5).tables, t.DefaultsReadBack := by decide +kernel
  have hfinite : ∀ t ∈ (realAlone 1.5).tables, t.DefaultsFinite := by decide +kernel
  obtain ⟨c', hread, -, -, htables⟩ := ofScript_compact hscript hreads
  exact ⟨hscript, c', hread, htables.2 hfinite⟩

/-- The default of a script whose numeral is out of range is not the one that is read back. -/
theorem outOfRange_not_reread : ∃ c c' : Catalog,
    ofScript "CREATE TABLE \x60t\x60 ( \x60a\x60 DOUBLE DEFAULT 1e999 )" = .ok c ∧ ofCompact c.compact = .ok c' ∧
      c'.tables ≠ c.tables := by
  have hscript : ofScript "CREATE TABLE \x60t\x60 ( \x60a\x60 DOUBLE DEFAULT 1e999 )" = .ok (realAlone (1.0 / 0.0)) :=
    ofScript_eq_ok (parse_realColumn outOfRange (by decide +kernel) rfl) (by decide +kernel)
  have hreads : ∀ t ∈ (realAlone (1.0 / 0.0)).tables, t.DefaultsReadBack := by decide +kernel
  have hinfinite : ¬∀ t ∈ (realAlone (1.0 / 0.0)).tables, t.DefaultsFinite := by decide +kernel
  exact ⟨_, _, hscript, ofCompact_settled (ofScript_wellFormed hscript).encodable hreads,
    fun h => hinfinite (settled_eq_iff.1 h)⟩

end DdlCatalog.Catalog
