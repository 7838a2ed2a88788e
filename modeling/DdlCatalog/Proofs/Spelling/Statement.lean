import DdlCatalog.Proofs.Spelling.Alteration
import DdlCatalog.Sql.Grammar.Statement

/-!
Statements and scripts read from their canonical spelling.
-/

namespace DdlCatalog

open Sql Sql.Parser

/-- Statements with semicolons between them. -/
def Statement.scriptKinds : List Statement → List TokenKind
  | [] => []
  | [s] => s.kinds
  | s :: ss => s.kinds ++ .semicolon :: scriptKinds ss

end DdlCatalog

namespace DdlCatalog.Sql.Parser

variable {ks : List TokenKind}

theorem head?_joined_ne {α : Type} {spell : α → List TokenKind} {xs : List α} {k : TokenKind} (hne : xs ≠ [])
    (h : ∀ x ∈ xs, ∀ ks, Closes ks → (spell x ++ ks).head? ≠ some k) (hks : Closes ks) :
    (joined spell xs ++ ks).head? ≠ some k := by
  cases xs with
  | nil => exact absurd rfl hne
  | cons x xs =>
      rw [joined, List.append_assoc]
      refine h x List.mem_cons_self _ ?_
      cases xs with
      | nil => exact hks
      | cons y ys => exact closes_comma _

/-- What follows a statement. -/
def Ends (ks : List TokenKind) : Prop := Follows [.semicolon] ks

theorem Ends.closes (h : Ends ks) : Closes ks := h.mono (by decide)

/-! ### Tables -/

theorem reads_entry {e : TableEntry} (h : e.Canonical) (hks : Closes ks) :
    Reads (keyOr id (do return .column (← columnDefinition))) (e.kinds ++ ks) (some e) ks := by
  cases e with
  | column d =>
      exact reads_keyOr_column ((reads_columnDefinition h (hks.mono (by decide))).bind (reads_pure _ ks)) rfl
  | primaryKey key => exact reads_keyOr_primaryKey h hks
  | foreignKey k => exact reads_keyOr_foreignKey h hks
  | index kind i => exact reads_keyOr_index h hks

theorem head?_entry_ne (e : TableEntry) (ks : List TokenKind) : (e.kinds ++ ks).head? ≠ some (.word "like") := by
  cases e with
  | column d => simp [TableEntry.kinds, ColumnDefinition.kinds]
  | primaryKey key => simp [TableEntry.kinds]
  | foreignKey k => rcases k with ⟨_ | _, _⟩ <;> simp [TableEntry.kinds, ifSome]
  | index kind i => cases kind <;> simp [TableEntry.kinds, IndexKind.kinds]

theorem reads_ifNotExists (on : Bool) (h : ks.head? ≠ some (.word "if")) :
    Reads ifNotExists (ifTrue on [.word "if", .word "not", .word "exists"] ++ ks) on ks := by
  cases on with
  | false => exact reads_noWord ⟨by simp, h⟩ (reads_pure false ks)
  | true => exact reads_word (by simp) (reads_keyword (by simp) (reads_keyword (by simp) (reads_pure true ks)))

theorem reads_ifExists (on : Bool) (h : ks.head? ≠ some (.word "if")) :
    Reads ifExists (ifTrue on [.word "if", .word "exists"] ++ ks) on ks := by
  cases on with
  | false => exact reads_noWord ⟨by simp, h⟩ (reads_pure false ks)
  | true => exact reads_word (by simp) (reads_keyword (by simp) (reads_pure true ks))

/-- The words that start a table, and then its name and definition. -/
theorem reads_temporaryTable {s : Statement} (temporary ifNotExists : Bool) {body : List TokenKind}
    (h : Reads (createTableTail temporary)
      (ifTrue ifNotExists [.word "if", .word "not", .word "exists"] ++ body) s ks) :
    Reads createTail (Statement.temporaryTable temporary ifNotExists ++ body) s ks := by
  cases temporary with
  | false =>
      change Reads createTail (.word "table" :: _) _ _
      exact reads_noWord (by simp) (reads_peekWord (reads_keyword (by simp) h))
  | true => exact reads_word (by simp) (reads_keyword (by simp) h)

theorem reads_tableBody {d : TableDefinition} (h : (Statement.createTable d).Canonical) (hks : Ends ks) :
    Reads (tableBody d.table d.temporary d.ifNotExists)
      (joined TableEntry.kinds d.entries ++ .rightParen :: (d.options.flatMap TableOption.kinds ++ ks))
      (.createTable d) ks := by
  obtain ⟨⟨e, he, hcolumn⟩, hentries, hoptions⟩ := h
  refine (reads_commaList_some (List.ne_nil_of_mem he) (fun e he _ hks => reads_entry (hentries e he) hks)
    (closes_rightParen _) (by simp)).bind (reads_symbol rfl ?_)
  have hall : (d.entries.map some).filterMap id = d.entries := by
    rw [List.filterMap_map]
    simp
  have hany : d.entries.any TableEntry.isColumn = true := List.any_eq_true.2 ⟨e, he, hcolumn⟩
  simp only [hall, hany]
  exact (reads_tableOptions hoptions hks.closes fun _ => hks.head?_ne (by decide)).bind (reads_pure _ ks)

theorem reads_createTable {d : TableDefinition} (h : (Statement.createTable d).Canonical) (hks : Ends ks) :
    Reads createTail (Statement.temporaryTable d.temporary d.ifNotExists ++ .quoted d.table ::
      (inParens (joined TableEntry.kinds d.entries) ++ (d.options.flatMap TableOption.kinds ++ ks)))
      (.createTable d) ks := by
  refine reads_temporaryTable _ _ ((reads_ifNotExists d.ifNotExists (by simp)).bind ?_)
  rw [inParens, List.cons_append, List.append_assoc]
  refine (reads_tableName d.table (by simp)).bind (reads_noWord (by simp) (reads_symbol rfl ?_))
  refine reads_noWord ⟨by simp, ?_⟩ (reads_tableBody h hks)
  obtain ⟨⟨e, he, -⟩, -⟩ := h
  exact head?_joined_ne (List.ne_nil_of_mem he) (fun e _ ks _ => head?_entry_ne e ks) (closes_rightParen _)

theorem reads_createTableLike (d : LikeDefinition) (hks : Ends ks) :
    Reads createTail (Statement.temporaryTable d.temporary d.ifNotExists ++
      .quoted d.table :: .word "like" :: .quoted d.like :: ks) (.createTableLike d) ks := by
  refine reads_temporaryTable _ _ ((reads_ifNotExists d.ifNotExists (by simp)).bind ?_)
  refine (reads_tableName d.table (by simp)).bind (reads_word (by simp) ?_)
  exact (reads_tableName d.like (hks.head?_ne (by decide))).bind (reads_pure _ ks)

theorem reads_tableWord {α : Type} {p : Parser α} {a : α} {body : List TokenKind} (h : Reads p body a ks) :
    Reads (tableWord >>= fun _ => p) (.word "table" :: body) a ks := by
  have hword : Reads tableWord (.word "table" :: body) () body :=
    reads_noWord (by simp) (reads_keywordAlone (by simp) body)
  exact hword.bind h

theorem reads_rename (r : String × String) (hks : Closes ks) :
    Reads rename ([.quoted r.1, .word "to", .quoted r.2] ++ ks) r ks := by
  refine (reads_tableName r.1 (by simp)).bind (reads_keyword (by simp) ?_)
  exact (reads_tableName r.2 (hks.head?_ne (by decide))).bind (reads_pure r ks)

theorem head?_alteration_ne {a : Alteration} (h : a.Canonical) (hks : Closes ks) :
    (a.kinds ++ ks).head? ≠ some .dot := by
  cases a with
  | setOptions options =>
      have hstart : Follows (optionStarts ++ closers) (options.flatMap TableOption.kinds ++ ks) :=
        follows_tableOptions options (List.subset_append_left _ _) (hks.mono (List.subset_append_right _ _))
      exact hstart.head?_ne (by decide)
  | _ => simp [Alteration.kinds]

/-! ### Indexes -/

theorem reads_algorithmAndLock (hks : Closes ks) : Reads algorithmAndLock ks () ks :=
  reads_loop_done fun t ht => by rw [hks.lowerWord?_eq_none ht]

theorem reads_createIndexTail {table : String} {kind : IndexKind} {i : Index} {s : String} (hname : i.name = some s)
    (h : i.Canonical) (hks : Closes ks) : Reads (createIndexTail kind)
      (.quoted s :: (usingKinds i.method ++
        .word "on" :: .quoted table :: (partKinds i.parts ++ (i.options.kinds ++ ks))))
      (.createIndex table kind i) ks := by
  refine reads_identifier ((reads_usingMethod i.method (by simp)).bind (reads_keyword (by simp) ?_))
  refine (reads_tableName table (head?_partKinds_ne _ _ (by simp))).bind ?_
  rw [← hname]
  exact (reads_indexTail h hks).bind ((reads_algorithmAndLock hks).bind (reads_pure _ ks))

theorem reads_createIndex {kind : IndexKind} {s : Statement} {body : List TokenKind}
    (h : Reads (createIndexTail kind) body s ks) : Reads createTail (kind.kinds ++ body) s ks := by
  cases kind with
  | plain =>
      change Reads createTail (.word "index" :: _) _ _
      exact reads_noWord (by simp) (reads_peekWord (reads_skip h))
  | unique =>
      change Reads createTail (.word "unique" :: .word "index" :: _) _ _
      exact reads_noWord (by simp) (reads_peekWord (reads_skip (reads_keyword (by simp) h)))
  | fulltext =>
      change Reads createTail (.word "fulltext" :: .word "index" :: _) _ _
      exact reads_noWord (by simp) (reads_peekWord (reads_skip (reads_keyword (by simp) h)))
  | spatial =>
      change Reads createTail (.word "spatial" :: .word "index" :: _) _ _
      exact reads_noWord (by simp) (reads_peekWord (reads_skip (reads_keyword (by simp) h)))

/-! ### Statements -/

/-- A statement from its first word on. -/
theorem reads_statement {s : Statement} (h : s.Canonical) (hks : Ends ks) :
    ∃ w body, s.kinds = .word w :: body ∧ ∀ t : Token, t.kind.folded = .word w →
      Reads (statementTail t) (body ++ ks) s ks := by
  cases s with
  | createTable d =>
      refine ⟨_, _, rfl, fun t ht => ?_⟩
      rw [statementTail, lowerWord?_of_folded ht]
      simpa using reads_createTable h hks
  | createTableLike d =>
      refine ⟨_, _, rfl, fun t ht => ?_⟩
      rw [statementTail, lowerWord?_of_folded ht]
      simpa using reads_createTableLike d hks
  | alterTable table alterations =>
      refine ⟨_, _, rfl, fun t ht => ?_⟩
      rw [statementTail, lowerWord?_of_folded ht]
      have hdot : (joined Alteration.kinds alterations ++ ks).head? ≠ some .dot :=
        head?_joined_ne h.1 (fun a ha _ hks => head?_alteration_ne (h.2 a ha) hks) hks.closes
      refine reads_noWord (by simp) (reads_noWord (by simp) (reads_keyword (by simp) ?_))
      refine (reads_tableName table hdot).bind ?_
      exact (reads_alterations h.1 h.2 hks.closes (hks.head?_ne (by decide))).bind (reads_pure _ ks)
  | dropTable tables ifExists =>
      refine ⟨_, _, rfl, fun t ht => ?_⟩
      rw [statementTail, lowerWord?_of_folded ht]
      have htables : Reads (commaList tableName) (joined (fun s => [.quoted s]) tables ++ ks) tables ks :=
        reads_commaList h (fun s _ ks hks => reads_tableName s (hks.head?_ne (by decide))) hks.closes
          (hks.head?_ne (by decide))
      have hif : (joined (fun s => [.quoted s]) tables ++ ks).head? ≠ some (.word "if") :=
        head?_joined_ne h (fun s _ ks _ => by simp) hks.closes
      refine reads_noWord (by simp) (reads_noWord (by simp) (reads_tableWord ?_))
      rw [List.append_eq, List.append_assoc]
      refine (reads_ifExists ifExists hif).bind (htables.bind ?_)
      refine reads_noEither ⟨⟨by simp, ?_⟩, by simp, ?_⟩ (reads_pure _ ks)
      · exact hks.head?_ne (by decide)
      · exact hks.head?_ne (by decide)
  | renameTable renames =>
      refine ⟨_, _, rfl, fun t ht => ?_⟩
      rw [statementTail, lowerWord?_of_folded ht]
      refine reads_tableWord (Reads.bind ?_ (reads_pure _ ks))
      exact reads_commaList h (fun r _ _ hks => reads_rename r hks) hks.closes (hks.head?_ne (by decide))
  | createIndex table kind i =>
      refine ⟨_, _, rfl, fun t ht => ?_⟩
      rw [statementTail, lowerWord?_of_folded ht]
      obtain ⟨s, hs⟩ := Option.isSome_iff_exists.1 h.1
      rw [hs]
      simpa [ifSome] using reads_createIndex (reads_createIndexTail hs h.2 hks.closes)
  | dropIndex table index =>
      refine ⟨_, _, rfl, fun t ht => ?_⟩
      rw [statementTail, lowerWord?_of_folded ht]
      refine reads_noWord (by simp) (reads_word (by simp) (reads_identifier (reads_keyword (by simp) ?_)))
      exact (reads_tableName table (hks.head?_ne (by decide))).bind
        ((reads_algorithmAndLock hks.closes).bind (reads_pure _ ks))

/-- A statement with its semicolon, or at the end of the script, is read in one round. -/
theorem reads_statementRound {s : Statement} (h : s.Canonical) {rest : List TokenKind}
    (hrest : rest = .semicolon :: ks ∨ rest = [] ∧ ks = []) :
    ∃ k body, s.kinds ++ rest = k :: body ∧ ∀ (done : List Statement) (t : Token), t.kind.folded = k →
      ∃ q, statementRound done t = some q ∧ Reads q body (.again (s :: done)) ks := by
  have hends : Ends rest := by
    rcases hrest with rfl | ⟨rfl, -⟩
    · exact follows_cons (by decide) _
    · exact follows_nil _
  obtain ⟨w, body, hkinds, hreads⟩ := reads_statement h hends
  refine ⟨.word w, body ++ rest, by rw [hkinds]; rfl, fun done t ht => ?_⟩
  have hkind : t.kind ≠ .semicolon := by
    intro he
    rw [he] at ht
    cases ht
  refine ⟨_, if_neg hkind, (hreads t ht).bind ?_⟩
  rcases hrest with rfl | ⟨rfl, rfl⟩
  · refine reads_next_bind fun t ht => ?_
    simp only [Option.map_some, TokenKind.eq_of_folded ht rfl]
    exact reads_pure _ ks
  · exact reads_next_end (reads_pure _ [])

/-- The statements read round by round, onto those that are read before. -/
theorem reads_statementRounds {ss : List Statement} (h : ∀ s ∈ ss, s.Canonical) (done : List Statement) :
    Reads (loop statementRound done) (Statement.scriptKinds ss) (ss.reverse ++ done) [] := by
  induction ss generalizing done with
  | nil => exact reads_loop_done fun t ht => by cases ht
  | cons s ss ih =>
      have hs : s.Canonical := h s List.mem_cons_self
      have hlater := ih (fun s hs => h s (List.mem_cons_of_mem _ hs)) (s :: done)
      rw [List.reverse_cons, List.append_assoc]
      cases ss with
      | nil =>
          obtain ⟨k, body, hkinds, hround⟩ := reads_statementRound hs (.inr ⟨rfl, rfl⟩)
          rw [List.append_nil] at hkinds
          rw [Statement.scriptKinds, hkinds]
          exact reads_loop_again (hround done) hlater
      | cons s' ss =>
          obtain ⟨k, body, hkinds, hround⟩ := reads_statementRound hs (.inl rfl)
          rw [Statement.scriptKinds, hkinds]
          exact reads_loop_again (hround done) hlater
          simp

theorem reads_script {ss : List Statement} (h : ∀ s ∈ ss, s.Canonical) :
    Reads statements (Statement.scriptKinds ss) ss [] := by
  refine (reads_statementRounds h []).bind ?_
  rw [List.append_nil, List.reverse_reverse]
  exact reads_pure ss []

end DdlCatalog.Sql.Parser
