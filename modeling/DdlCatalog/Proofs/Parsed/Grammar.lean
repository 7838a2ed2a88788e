import DdlCatalog.Proofs.Parsed.Yields
import DdlCatalog.Sql.Grammar.Statement

/-!
What the parts of a statement are, if they are what the rules for columns, indexes, foreign keys, default values
and table options give. Lists of a statement that may not be empty are not.
-/

namespace DdlCatalog

/-- What is asked of the parts of a statement. -/
structure Asked where
  column : ColumnDefinition → Prop := fun _ => True
  index : Index → Prop := fun _ => True
  foreignKey : ForeignKey → Prop := fun _ => True
  default : DefaultValue → Prop := fun _ => True
  option : TableOption → Prop := fun _ => True

variable (P : Asked)

def TableEntry.Meets : TableEntry → Prop
  | .column d => P.column d
  | .primaryKey i | .index _ i => P.index i
  | .foreignKey k => P.foreignKey k

def Alteration.Meets : Alteration → Prop
  | .addColumn d _ | .changeColumn _ d _ | .modifyColumn d _ => P.column d
  | .addColumns ds => ds ≠ [] ∧ ∀ d ∈ ds, P.column d
  | .addIndex _ i | .addPrimaryKey i => P.index i
  | .addForeignKey k => P.foreignKey k
  | .setDefault _ value => P.default value
  | .setOptions options => options ≠ [] ∧ ∀ o ∈ options, P.option o
  | _ => True

/-- A table has a column, and tables that are dropped or renamed are named. -/
def Statement.Meets : Statement → Prop
  | .createTable d => (∃ e ∈ d.entries, e.isColumn = true) ∧ (∀ e ∈ d.entries, e.Meets P) ∧ ∀ o ∈ d.options, P.option o
  | .createIndex _ _ i => P.index i
  | .alterTable _ as => ∀ a ∈ as, a.Meets P
  | .dropTable tables _ => tables ≠ []
  | .renameTable renames => renames ≠ []
  | _ => True

end DdlCatalog

namespace DdlCatalog.Sql.Parser

variable {script : Tokens} {P : Asked}

/-- The parts of whatever is read from a script are such. -/
structure GivesParts (script : Tokens) (P : Asked) : Prop where
  column : Yields script columnDefinition P.column
  index : ∀ name method, Yields script (indexTail name method) P.index
  foreignKey : ∀ symbol, Yields script (foreignKey symbol) P.foreignKey
  default : ∀ (t : Token) r, t.kind.isWord "default" = true → .ok t :: r <:+ script →
    YieldsOn r defaultValue P.default
  conversion : ∀ name, P.option (.charset name) ∧ P.option (.collation name)
  option : ∀ (t : Token) p, tableOption? t = some p → Yields script p fun o => ∀ a ∈ o, P.option a

namespace GivesParts

/-! ### Keys and columns -/

theorem indexFrom (h : GivesParts script P) (symbol : Option String) : Yields script (Parser.index symbol) P.index :=
  yields_seq fun name => yields_seq fun method => h.index (name.or symbol) method

theorem keyEntryTail (h : GivesParts script P) {symbol : Option String} {word : String} {p : Parser TableEntry}
    (hp : keyEntryTail? symbol word = some p) : Yields script p (TableEntry.Meets P) := by
  have hindex (kind : IndexKind) (symbol : Option String) :
      Yields script (do return .index kind (← Parser.index symbol)) (TableEntry.Meets P) :=
    (h.indexFrom symbol).map fun _ hi => hi
  rw [keyEntryTail?.eq_def] at hp
  split at hp <;> cases hp
  · exact yields_seq fun _ => (h.indexFrom symbol).map fun _ hi => hi
  · exact yields_seq fun _ => hindex .unique symbol
  · exact yields_seq fun _ => (h.foreignKey symbol).map fun _ hk => hk
  · exact hindex .plain none
  · exact hindex .plain none
  · exact yields_seq fun _ => hindex .fulltext none
  · exact yields_seq fun _ => hindex .spatial none

theorem keyOr {α : Type} {key : TableEntry → α} {column : Parser α} {Q : α → Prop} (h : GivesParts script P)
    (hkey : ∀ e, e.Meets P → Q (key e)) (hcolumn : Yields script column Q) :
    Yields script (Parser.keyOr key column) fun o => ∀ a ∈ o, Q a := by
  have hsome {p : Parser α} (hp : Yields script p Q) : Yields script (do return some (← p)) fun o => ∀ a ∈ o, Q a :=
    hp.map fun a ha b hb => Option.some.inj hb ▸ ha
  refine yields_seq fun symbol => yields_seq fun word => yields_ite ?_ ?_
  · exact yields_seq fun _ => yields_seq fun _ => yields_pure (by simp)
  · split
    · rename_i entry hentry
      obtain ⟨word, -, hword⟩ := Option.bind_eq_some_iff.1 hentry
      exact yields_seq fun _ => (h.keyEntryTail hword).map fun e he a ha => Option.some.inj ha ▸ hkey e he
    · exact yields_ite (yields_seq fun _ => yields_fail_bind _) (hsome hcolumn)

/-! ### Table options -/

theorem tableOptions (h : GivesParts script P) (commas : Bool) :
    Yields script (Parser.tableOptions commas) fun options => ∀ o ∈ options, P.option o := by
  have hmore {t : Token} {p : Parser (Option TableOption)} (hp : tableOption? t = some p) {done : List TableOption}
      (hdone : ∀ o ∈ done, P.option o) : Yields script (do return Round.again ((← p).toList ++ done))
        fun step => ∀ o ∈ step.state, P.option o :=
    (h.option t p hp).map fun o ho a ha => (List.mem_append.1 ha).elim (fun ha => ho a (by simpa using ha)) (hdone a)
  have hloop : Yields script (loop (optionRound commas) []) fun done => ∀ o ∈ done, P.option o := by
    refine yields_loop (fun done t q hdone hq => ?_) (by simp)
    rw [optionRound] at hq
    split at hq
    · cases hq
      refine yields_seq fun next => ?_
      split
      · exact yields_pure hdone
      · rename_i option hoption
        obtain ⟨t', -, ht'⟩ := Option.bind_eq_some_iff.1 hoption
        exact yields_seq fun _ => hmore ht' hdone
    · obtain ⟨option, hoption, rfl⟩ := Option.map_eq_some_iff.1 hq
      exact hmore hoption hdone
  exact hloop.map fun done hdone o ho => hdone o (List.mem_reverse.1 ho)

/-! ### Clauses of an alteration -/

theorem addedColumns (h : GivesParts script P) : Yields script Parser.addedColumns (Alteration.Meets P) := by
  refine yields_seq fun _ => yields_ite ?_ ?_
  · exact h.column.commaList.bind fun ds hds => yields_seq fun _ => yields_pure hds
  · exact h.column.bind fun d hd => yields_seq fun _ => yields_pure hd

/-- A clause gives nothing, or something such. -/
def Clause (P : Asked) (a : Option Alteration) : Prop := ∀ b ∈ a, b.Meets P

theorem clause_some {a : Alteration} (h : a.Meets P) : Clause P (some a) := fun _ hb => Option.some.inj hb ▸ h

theorem clause_none : Clause P none := by rintro a ⟨⟩

theorem addTail (h : GivesParts script P) : Yields script Parser.addTail (Clause P) := by
  refine yields_seq fun _ => yields_ite (h.addedColumns.map fun _ => clause_some) ?_
  refine h.keyOr (fun e he => ?_) h.addedColumns
  cases e <;> exact he

theorem alterTail (h : GivesParts script P) : Yields script Parser.alterTail (Clause P) := by
  refine yields_seq fun _ => yields_seq fun column => yields_seq fun _ => yields_ite ?_ ?_
  · refine yields_seq fun _ => yields_ite (yields_pure clause_none) ?_
    exact yields_keyword_bind fun t r ht hr => (h.default t r ht hr).map fun value hv => clause_some hv
  · exact yields_seq fun _ => yields_seq fun _ => yields_pure (clause_some trivial)

theorem changeTail (h : GivesParts script P) : Yields script Parser.changeTail (Clause P) :=
  yields_seq fun _ => yields_seq fun _ => h.column.bind fun _ hd => yields_seq fun _ => yields_pure (clause_some hd)

theorem modifyTail (h : GivesParts script P) : Yields script Parser.modifyTail (Clause P) :=
  yields_seq fun _ => h.column.bind fun _ hd => yields_seq fun _ => yields_pure (clause_some hd)

/-- A clause of which no part is asked anything. -/
theorem yields_clause {a : Alteration} (h : a.Meets P) : Yields script (pure (some a)) (Clause P) :=
  yields_pure (clause_some h)

theorem dropTail : Yields script Parser.dropTail (Clause P) := by
  refine yields_seq fun _ => yields_ite (yields_seq fun _ => yields_clause trivial) ?_
  refine yields_seq fun _ => yields_ite (yields_seq fun _ => yields_seq fun _ => yields_clause trivial) ?_
  refine yields_seq fun _ => yields_ite (yields_seq fun _ => yields_clause trivial) ?_
  refine yields_seq fun _ => yields_ite (yields_seq fun _ => yields_pure clause_none) ?_
  exact yields_seq fun _ => yields_seq fun _ => yields_clause trivial

theorem renameTail : Yields script Parser.renameTail (Clause P) := by
  have hnamed {f : String → Alteration} (hf : ∀ newName, (f newName).Meets P) :
      Yields script (keyword "to" >>= fun _ => identifier >>= fun newName => pure (some (f newName))) (Clause P) :=
    yields_seq fun _ => yields_seq fun newName => yields_clause (hf newName)
  refine yields_seq fun _ => yields_ite (yields_seq fun _ => hnamed fun _ => trivial) ?_
  refine yields_seq fun _ => yields_ite (yields_seq fun _ => hnamed fun _ => trivial) ?_
  exact yields_seq fun _ => yields_seq fun _ => yields_clause trivial

/-- The options of a conversion are read by no rule for options. -/
theorem convertTail (hoption : ∀ name, P.option (.charset name) ∧ P.option (.collation name)) :
    Yields script Parser.convertTail (Clause P) := by
  refine yields_seq fun _ => yields_seq fun _ => yields_seq fun charset => yields_seq fun _ => yields_ite ?_ ?_
  · exact yields_seq fun collation => yields_clause ⟨by simp, by simp [hoption]⟩
  · exact yields_clause ⟨by simp, by simp [hoption]⟩

theorem clauseTail (h : GivesParts script P) {word : String} {p : Parser (Option Alteration)}
    (hp : clauseTail? word = some p) : Yields script p (Clause P) := by
  rw [clauseTail?.eq_def] at hp
  split at hp <;> cases hp
  · exact h.addTail
  · exact h.alterTail
  · exact h.changeTail
  · exact h.modifyTail
  · exact dropTail
  · exact renameTail
  · exact convertTail h.conversion
  · exact yields_seq fun _ => yields_pure clause_none
  · exact yields_seq fun _ => yields_pure clause_none
  · exact yields_pure clause_none

theorem alteration (h : GivesParts script P) : Yields script alteration? (Clause P) := by
  refine yields_seq fun word => ?_
  split
  · rename_i clause hclause
    obtain ⟨w, -, hw⟩ := Option.bind_eq_some_iff.1 hclause
    exact yields_seq fun _ => h.clauseTail hw
  · refine (h.tableOptions false).bind fun options hoptions => ?_
    split
    · exact yields_seq fun _ => yields_fail_bind _
    · rename_i hnonempty
      exact yields_clause ⟨by simpa using hnonempty, hoptions⟩

theorem alterations (h : GivesParts script P) :
    Yields script Parser.alterations fun as => ∀ a ∈ as, a.Meets P := by
  refine h.alteration.commaList.map fun clauses hclauses a ha => ?_
  obtain ⟨clause, hclause, hsome⟩ := List.mem_filterMap.1 ha
  exact hclauses.2 clause hclause a hsome

/-! ### Statements -/

theorem tableBody (h : GivesParts script P) (table : String) (temporary ifNotExists : Bool) :
    Yields script (Parser.tableBody table temporary ifNotExists) (Statement.Meets P) := by
  have hcolumn : Yields script (do return TableEntry.column (← columnDefinition)) (TableEntry.Meets P) :=
    h.column.map fun _ hd => hd
  have hentry : Yields script (Parser.keyOr id (do return .column (← columnDefinition)))
      fun o => ∀ e ∈ o, e.Meets P := h.keyOr (fun _ he => he) hcolumn
  refine hentry.commaList.bind fun entries hentries => yields_seq fun _ => ?_
  have hall : ∀ e ∈ entries.filterMap id, e.Meets P := by
    intro e he
    obtain ⟨o, ho, hsome⟩ := List.mem_filterMap.1 he
    exact hentries.2 o ho e hsome
  dsimp only
  split
  · exact yields_fail_bind _
  · rename_i hany
    rw [Bool.not_eq_true, Bool.not_eq_false'] at hany
    exact (h.tableOptions true).map fun options hoptions => ⟨List.any_eq_true.1 hany, hall, hoptions⟩

theorem createTableTail (h : GivesParts script P) (temporary : Bool) :
    Yields script (Parser.createTableTail temporary) (Statement.Meets P) := by
  refine yields_seq fun _ => yields_seq fun _ => yields_seq fun _ => yields_ite ?_ ?_
  · exact yields_seq fun _ => yields_pure trivial
  · refine yields_seq fun _ => yields_seq fun _ => yields_ite ?_ (h.tableBody _ temporary _)
    exact yields_seq fun _ => yields_seq fun _ => yields_pure trivial

theorem createIndexTail (h : GivesParts script P) (kind : IndexKind) :
    Yields script (Parser.createIndexTail kind) (Statement.Meets P) :=
  yields_seq fun name => yields_seq fun method => yields_seq fun _ => yields_seq fun _ =>
    (h.index (some name) method).bind fun _ hi => yields_seq fun _ => yields_pure hi

theorem createTail (h : GivesParts script P) : Yields script Parser.createTail (Statement.Meets P) := by
  refine yields_seq fun _ => yields_ite (yields_seq fun _ => h.createTableTail true) ?_
  refine yields_seq fun word => ?_
  split
  · exact yields_seq fun _ => h.createIndexTail .plain
  · exact yields_seq fun _ => yields_seq fun _ => h.createIndexTail .unique
  · exact yields_seq fun _ => yields_seq fun _ => h.createIndexTail .fulltext
  · exact yields_seq fun _ => yields_seq fun _ => h.createIndexTail .spatial
  · exact yields_seq fun _ => h.createTableTail false

theorem alterTableTail (h : GivesParts script P) : Yields script Parser.alterTableTail (Statement.Meets P) :=
  yields_seq fun _ => yields_seq fun _ => yields_seq fun _ => yields_seq fun _ => h.alterations.map fun _ has => has

theorem dropTablesTail : Yields script Parser.dropTablesTail (Statement.Meets P) :=
  yields_seq fun _ => yields_seq fun _ => (yields_true tableName).commaList.bind fun _ htables =>
    yields_seq fun _ => yields_pure htables.1

theorem dropStatementTail : Yields script Parser.dropStatementTail (Statement.Meets P) := by
  refine yields_seq fun _ => yields_ite dropTablesTail ?_
  refine yields_seq fun _ => yields_ite ?_ dropTablesTail
  exact yields_seq fun _ => yields_seq fun _ => yields_seq fun _ => yields_seq fun _ => yields_pure trivial

theorem renameTablesTail : Yields script Parser.renameTablesTail (Statement.Meets P) :=
  yields_seq fun _ => (yields_true rename).commaList.map fun _ hrenames => hrenames.1

theorem statementTail (h : GivesParts script P) (t : Token) :
    Yields script (Parser.statementTail t) (Statement.Meets P) := by
  unfold Parser.statementTail
  split
  · exact h.createTail
  · exact h.alterTableTail
  · exact dropStatementTail
  · exact renameTablesTail
  · exact yields_fail _

theorem statements (h : GivesParts script P) :
    Yields script Parser.statements fun ss => ∀ s ∈ ss, s.Meets P := by
  have hloop : Yields script (loop statementRound []) fun done => ∀ s ∈ done, s.Meets P := by
    refine yields_loop (fun done t q hdone hq => ?_) (by simp)
    rw [statementRound] at hq
    split at hq <;> cases hq
    · exact yields_pure hdone
    · refine (h.statementTail t).bind fun s hs => yields_seq fun finish => ?_
      have hmore : ∀ s' ∈ s :: done, s'.Meets P := by
        intro s' hs'
        rcases List.mem_cons.1 hs' with rfl | hs'
        · exact hs
        · exact hdone s' hs'
      split
      · exact yields_pure hmore
      · exact yields_pure hmore
      · exact yields_fail _
  exact hloop.map fun done hdone s hs => hdone s (List.mem_reverse.1 hs)

end GivesParts

end Parser

/-- The parts of every statement of a script are such as the rules give. -/
theorem parse_meets {script : String} {P : Asked} (h : Parser.GivesParts (tokens script) P) {ss : List Statement}
    (hparse : parse script = .ok ss) : ∀ s ∈ ss, s.Meets P := by
  rw [parse] at hparse
  cases hrun : Parser.statements.run (tokens script) with
  | error e => rw [hrun] at hparse; cases hparse
  | ok r =>
      rw [hrun] at hparse
      cases hparse
      exact h.statements _ (List.suffix_refl _) r.1 r.2 hrun

end DdlCatalog.Sql
