import DdlCatalog.Proofs.Spelling.TableOption
import DdlCatalog.Sql.Grammar.Alteration

/-!
The entries of a table and the clauses that alter one, read from their canonical spelling. An entry is a
key if a word of a key comes first, else a column: the name of a column is in backticks.
-/

namespace DdlCatalog.Sql.Parser

variable {ks : List TokenKind}

/-! ### Entries of a table -/

theorem reads_noConstraint (h : ks.head? ≠ some (.word "constraint")) : Reads constraint? ks none ks :=
  reads_noWord ⟨by simp, h⟩ (reads_pure none ks)

theorem reads_constraintSymbol (s : String) (ks : List TokenKind) :
    Reads constraintSymbol (.quoted s :: ks) (some s) ks :=
  reads_peekWord (reads_identifier (reads_pure (some s) ks))

theorem reads_constraint? (symbol : Option String) (h : ks.head? ≠ some (.word "constraint")) :
    Reads constraint? (ifSome symbol (fun s => [.word "constraint", .quoted s]) ++ ks) symbol ks := by
  cases symbol with
  | none => exact reads_noConstraint h
  | some s => exact reads_word (by simp) (reads_constraintSymbol s ks)

section KeyOr

variable {α : Type} {key : TableEntry → α} {column : Parser α}

theorem reads_keyOr_tail {symbol : Option String} {start body : List TokenKind} {w : String}
    {q : Parser TableEntry} {e : TableEntry} (hsymbol : Reads constraint? start symbol (.word w :: body))
    (hq : keyEntryTail? symbol w = some q) (hw : w ≠ "check") (h : Reads q body e ks) :
    Reads (keyOr key column) start (some (key e)) ks := by
  refine hsymbol.bind (reads_peekWord ?_)
  have hcheck : (headWord? (.word w :: body) == some "check") = false :=
    beq_eq_false_iff_ne.2 fun he => hw (Option.some.inj he)
  have htail : (headWord? (.word w :: body)).bind (keyEntryTail? symbol) = some q := hq
  simp only [hcheck, htail]
  exact reads_skip (h.bind (reads_pure _ ks))

theorem reads_keyOr_word {body : List TokenKind} {w : String} {q : Parser TableEntry} {e : TableEntry}
    (hq : keyEntryTail? none w = some q) (hw : w ≠ "check" ∧ w ≠ "constraint") (h : Reads q body e ks) :
    Reads (keyOr key column) (.word w :: body) (some (key e)) ks :=
  reads_keyOr_tail (reads_noConstraint (by simpa using hw.2)) hq hw.1 h

theorem reads_keyOr_index {kind : IndexKind} {i : Index} (h : i.Canonical) (hks : Closes ks) :
    Reads (keyOr key column) ((TableEntry.index kind i).kinds ++ ks) (some (key (.index kind i))) ks := by
  have hindex := reads_index h hks
  rw [TableEntry.kinds, List.append_assoc]
  cases kind with
  | plain => exact reads_keyOr_word rfl (by simp) (hindex.bind (reads_pure _ ks))
  | unique => exact reads_keyOr_word rfl (by simp) (reads_either (by simp) (hindex.bind (reads_pure _ ks)))
  | fulltext => exact reads_keyOr_word rfl (by simp) (reads_either (by simp) (hindex.bind (reads_pure _ ks)))
  | spatial => exact reads_keyOr_word rfl (by simp) (reads_either (by simp) (hindex.bind (reads_pure _ ks)))

theorem reads_keyOr_primaryKey {i : Index} (h : i.Canonical) (hks : Closes ks) :
    Reads (keyOr key column) ((TableEntry.primaryKey i).kinds ++ ks) (some (key (.primaryKey i))) ks :=
  reads_keyOr_word rfl (by simp) (reads_keyword (by simp) ((reads_index h hks).bind (reads_pure _ ks)))

theorem reads_keyOr_foreignKey {k : ForeignKey} (h : k.Canonical) (hks : Closes ks) :
    Reads (keyOr key column) ((TableEntry.foreignKey k).kinds ++ ks) (some (key (.foreignKey k))) ks := by
  rw [TableEntry.kinds, List.append_assoc]
  exact reads_keyOr_tail (reads_constraint? k.symbol (by simp)) rfl (by simp)
    (reads_keyword (by simp) ((reads_foreignKey h hks).bind (reads_pure _ ks)))

/-- What starts with a name or a parenthesis is no key. -/
theorem reads_keyOr_column {start : List TokenKind} {a : α} (h : Reads column start a ks)
    (hstart : headWord? start = none) : Reads (keyOr key column) start (some a) ks := by
  have hsymbol : start.head? ≠ some (.word "constraint") := by
    intro he
    rw [headWord?, he] at hstart
    cases hstart
  refine (reads_noConstraint hsymbol).bind (reads_peekWord ?_)
  rw [hstart]
  exact h.bind (reads_pure _ ks)

end KeyOr

/-! ### Clauses -/

theorem reads_placement? (placement : Option Placement) (hks : Closes ks) :
    Reads placement? (ifSome placement Placement.kinds ++ ks) placement ks := by
  cases placement with
  | none =>
      have hnone (w : String) : ks.head? ≠ some (.word w) := hks.head?_ne (by simp [closers])
      exact reads_noWord ⟨by simp, hnone _⟩ (reads_noWord ⟨by simp, hnone _⟩ (reads_pure none ks))
  | some placement =>
      cases placement with
      | first => exact reads_word (by simp) (reads_pure _ ks)
      | after column =>
          change Reads placement? (.word "after" :: .quoted column :: ks) _ _
          exact reads_noWord (by simp) (reads_word (by simp) (reads_identifier (reads_pure _ ks)))

theorem follows_placement (placement : Option Placement) (hks : Closes ks) :
    Follows columnClosers (ifSome placement Placement.kinds ++ ks) := by
  cases placement with
  | none => exact hks.mono (by decide)
  | some placement =>
      cases placement with
      | first => exact follows_cons (by decide) _
      | after column => exact follows_cons (by decide) _

theorem reads_placedColumn {α : Type} {g : ColumnDefinition → Option Placement → α} {d : ColumnDefinition}
    (h : d.Canonical) (placement : Option Placement) (hks : Closes ks) :
    Reads (do let d ← columnDefinition; return g d (← placement?))
      (d.kinds ++ (ifSome placement Placement.kinds ++ ks)) (g d placement) ks :=
  (reads_columnDefinition h (follows_placement placement hks)).bind
    ((reads_placement? placement hks).bind (reads_pure _ ks))

theorem reads_addedColumn {d : ColumnDefinition} (h : d.Canonical) (placement : Option Placement) (hks : Closes ks) :
    Reads addedColumns (d.kinds ++ (ifSome placement Placement.kinds ++ ks)) (.addColumn d placement) ks := by
  refine reads_notEaten rfl ?_ (reads_placedColumn h placement hks)
  rw [ColumnDefinition.kinds]
  simp

theorem reads_addedColumns {ds : List ColumnDefinition} (hne : ds ≠ []) (h : ∀ d ∈ ds, d.Canonical)
    (ks : List TokenKind) :
    Reads addedColumns (inParens (joined ColumnDefinition.kinds ds) ++ ks) (.addColumns ds) ks := by
  rw [inParens, List.cons_append, List.append_assoc]
  refine reads_eaten rfl (Reads.bind (reads_commaList hne ?_ (closes_rightParen ks) (by simp)) ?_)
  · exact fun d hd ks hks => reads_columnDefinition (h d hd) (hks.mono (by decide))
  · exact reads_symbol rfl (reads_pure _ ks)

/-- A clause from its first word on. -/
theorem reads_clause {a : Alteration} (h : a.Canonical) (hks : Closes ks)
    (ha : ∀ options, a ≠ .setOptions options) :
    ∃ w body q, a.kinds = .word w :: body ∧ clauseTail? w = some q ∧ Reads q (body ++ ks) (some a) ks := by
  cases a with
  | addColumn d placement =>
      refine ⟨_, _, _, rfl, rfl, ?_⟩
      rw [List.cons_append, List.append_assoc]
      exact reads_word (by simp) ((reads_addedColumn h placement hks).bind (reads_pure _ ks))
  | addColumns ds =>
      refine ⟨_, _, _, rfl, rfl, ?_⟩
      exact reads_word (by simp) ((reads_addedColumns h.1 h.2 ks).bind (reads_pure _ ks))
  | addIndex kind i =>
      refine ⟨_, _, _, rfl, rfl, ?_⟩
      refine reads_noWord ⟨by simp, ?_⟩ (reads_keyOr_index h hks)
      cases kind <;> simp [TableEntry.kinds, IndexKind.kinds]
  | addPrimaryKey key =>
      refine ⟨_, _, _, rfl, rfl, ?_⟩
      refine reads_noWord ⟨by simp, ?_⟩ (reads_keyOr_primaryKey h hks)
      simp [TableEntry.kinds]
  | addForeignKey k =>
      refine ⟨_, _, _, rfl, rfl, ?_⟩
      refine reads_noWord ⟨by simp, ?_⟩ (reads_keyOr_foreignKey h hks)
      rcases k with ⟨_ | _, _⟩ <;> simp [TableEntry.kinds, ifSome]
  | setDefault column value =>
      refine ⟨_, _, _, rfl, rfl, ?_⟩
      refine reads_word (by simp) (reads_identifier (reads_word (by simp) (reads_noEither (by simp) ?_)))
      exact reads_keyword (by simp) ((reads_defaultValue h ks).bind (reads_pure _ ks))
  | dropDefault column =>
      refine ⟨_, _, _, rfl, rfl, ?_⟩
      refine reads_word (by simp) (reads_identifier (reads_noWord (by simp) ?_))
      exact reads_keyword (by simp) (reads_keyword (by simp) (reads_pure _ ks))
  | changeColumn column d placement =>
      refine ⟨_, _, _, rfl, rfl, ?_⟩
      simp only [List.cons_append, List.append_assoc]
      exact reads_word (by simp) (reads_identifier (reads_placedColumn h placement hks))
  | modifyColumn d placement =>
      refine ⟨_, _, _, rfl, rfl, ?_⟩
      simp only [List.cons_append, List.append_assoc]
      exact reads_word (by simp) (reads_placedColumn h placement hks)
  | renameColumn column new =>
      refine ⟨_, _, _, rfl, rfl, ?_⟩
      exact reads_word (by simp) (reads_identifier (reads_keyword (by simp) (reads_identifier (reads_pure _ ks))))
  | dropColumn column =>
      refine ⟨_, _, _, rfl, rfl, ?_⟩
      refine reads_noWord (by simp) (reads_noWord (by simp) (reads_noEither (by simp) (reads_noEither (by simp) ?_)))
      exact reads_word (by simp) (reads_identifier (reads_pure _ ks))
  | dropIndex index =>
      refine ⟨_, _, _, rfl, rfl, ?_⟩
      refine reads_noWord (by simp) (reads_noWord (by simp) ?_)
      exact reads_either (by simp) (reads_identifier (reads_pure _ ks))
  | dropPrimaryKey =>
      refine ⟨_, _, _, rfl, rfl, ?_⟩
      exact reads_word (by simp) (reads_keyword (by simp) (reads_pure _ ks))
  | dropForeignKey symbol =>
      refine ⟨_, _, _, rfl, rfl, ?_⟩
      refine reads_noWord (by simp) (reads_word (by simp) ?_)
      exact reads_keyword (by simp) (reads_identifier (reads_pure _ ks))
  | renameIndex index new =>
      refine ⟨_, _, _, rfl, rfl, ?_⟩
      refine reads_noWord (by simp) (reads_either (by simp) (reads_identifier ?_))
      exact reads_keyword (by simp) (reads_identifier (reads_pure _ ks))
  | renameTable new =>
      refine ⟨_, _, _, rfl, rfl, ?_⟩
      refine reads_noWord (by simp) (reads_noEither (by simp) (reads_either (by simp) ?_))
      exact (reads_tableName new (hks.head?_ne (by decide))).bind (reads_pure _ ks)
  | setOptions options => exact absurd rfl (ha options)

/-- No option is taken for a clause of another kind. -/
theorem clauseTail?_eq_none (h : Follows (optionStarts ++ closers) ks) : (headWord? ks).bind clauseTail? = none := by
  have hall : ∀ k ∈ optionStarts ++ closers, (k.word?.bind clauseTail?).isNone = true := by decide
  rw [headWord?]
  cases hk : ks.head? with
  | none => rfl
  | some k => exact Option.isNone_iff_eq_none.1 (hall k (h k hk))

theorem reads_alteration? {a : Alteration} (h : a.Canonical) (hks : Closes ks) :
    Reads alteration? (a.kinds ++ ks) (some a) ks := by
  by_cases ha : ∃ options, a = .setOptions options
  · obtain ⟨options, rfl⟩ := ha
    have hnone : (headWord? (options.flatMap TableOption.kinds ++ ks)).bind clauseTail? = none :=
      clauseTail?_eq_none (follows_tableOptions options (List.subset_append_left _ _)
        (hks.mono (List.subset_append_right _ _)))
    refine reads_peekWord ?_
    rw [Alteration.kinds, hnone]
    refine (reads_tableOptions h.2 hks (by simp)).bind ?_
    have hempty : options.isEmpty = false := by simpa using h.1
    simp only [hempty]
    exact reads_pure _ ks
  · obtain ⟨w, body, q, hkinds, hq, hreads⟩ := reads_clause h hks fun options he => ha ⟨options, he⟩
    rw [hkinds, List.cons_append]
    refine reads_peekWord ?_
    have htail : (headWord? (.word w :: (body ++ ks))).bind clauseTail? = some q := hq
    rw [htail]
    exact reads_skip hreads

theorem joined_map {α β : Type} (spell : β → List TokenKind) (f : α → β) (xs : List α) :
    joined spell (xs.map f) = joined (fun x => spell (f x)) xs := by
  cases xs with
  | nil => rfl
  | cons x xs => simp only [joined, List.map_cons, List.flatMap_map]

/-- Items that may give nothing, all of which give something. -/
theorem reads_commaList_some {α : Type} {item : Parser (Option α)} {spell : α → List TokenKind} {xs : List α}
    (hne : xs ≠ []) (hitem : ∀ x ∈ xs, ∀ ks, Closes ks → Reads item (spell x ++ ks) (some x) ks)
    (hks : Closes ks) (hend : ks.head? ≠ some .comma) :
    Reads (commaList item) (joined spell xs ++ ks) (xs.map some) ks := by
  have hjoined : joined spell xs = joined (fun o => o.elim [] spell) (xs.map some) := by
    rw [joined_map]
    rfl
  rw [hjoined]
  refine reads_commaList (by simpa using hne) ?_ hks hend
  rintro _ ho
  obtain ⟨x, hx, rfl⟩ := List.mem_map.1 ho
  exact hitem x hx

theorem reads_alterations {as : List Alteration} (hne : as ≠ []) (h : ∀ a ∈ as, a.Canonical) (hks : Closes ks)
    (hend : ks.head? ≠ some .comma) : Reads alterations (joined Alteration.kinds as ++ ks) as ks := by
  refine (reads_commaList_some hne (fun a ha _ hks => reads_alteration? (h a ha) hks) hks hend).bind ?_
  rw [List.filterMap_map]
  simpa using reads_pure as ks

end DdlCatalog.Sql.Parser
