import DdlCatalog.Proofs.Spelling.Column
import DdlCatalog.Sql.Grammar.TableOption

/-!
Table options read from their canonical spelling, one after another.
-/

namespace DdlCatalog.Sql.Parser

variable {ks : List TokenKind}

/-! ### Values -/

theorem reads_optionValue {α : Type} {p : Parser α} {a : α} {rest : List TokenKind} (h : Reads p ks a rest) :
    Reads (optionValue p) (.equals :: ks) a rest :=
  reads_eaten rfl h

theorem reads_flag (on : Bool) (ks : List TokenKind) : Reads flag (TableOption.flagKind on :: ks) on ks := by
  refine reads_expect fun k' hk => ?_
  rw [TokenKind.eq_of_folded hk rfl]
  cases on <;> rfl

theorem toLower_yes_no : "Y".toLower = "y" ∧ "N".toLower = "n" := by decide +kernel

theorem reads_encryption (on : Bool) (ks : List TokenKind) :
    Reads encryption (.string (if on then "Y" else "N") :: ks) on ks := by
  refine reads_next_bind fun t ht => ?_
  simp only [Option.map_some, TokenKind.eq_of_folded ht rfl]
  cases on with
  | false =>
      simp only [Bool.false_eq_true, if_false, toLower_yes_no]
      exact reads_pure false ks
  | true =>
      simp only [if_true, toLower_yes_no]
      exact reads_pure true ks

theorem reads_packKeys {mode : String} (h : mode ∈ ["0", "1", "DEFAULT"]) (ks : List TokenKind) :
    Reads packKeys ((if mode = "0" then .integer 0 else if mode = "1" then .integer 1 else .word "default") :: ks)
      mode ks := by
  refine reads_next_bind fun t ht => ?_
  simp only [List.mem_cons, List.not_mem_nil, or_false] at h
  obtain rfl | rfl | rfl := h
  · simp only [Option.map_some, TokenKind.eq_of_folded ht rfl]
    exact reads_pure _ ks
  · simp only [Option.map_some, TokenKind.eq_of_folded ht rfl]
    exact reads_pure _ ks
  · obtain ⟨s, hs, hlower⟩ := TokenKind.eq_word_of_folded ht
    simp only [Option.map_some, hs, hlower]
    exact reads_pure _ ks

theorem reads_tablespace (s : String) (h : ks.head? ≠ some (.word "storage")) :
    Reads tablespace (.quoted s :: ks) s ks :=
  reads_name (reads_noWord ⟨by simp, h⟩ (reads_pure s ks))

/-! ### Options -/

def optionStarts : List TokenKind :=
  [.word "engine", .word "auto_increment", .word "avg_row_length", .word "character", .word "checksum",
    .word "collate", .word "comment", .word "compression", .word "connection", .word "data", .word "index",
    .word "delay_key_write", .word "encryption", .word "insert_method", .word "key_block_size", .word "max_rows",
    .word "min_rows", .word "pack_keys", .word "password", .word "row_format", .word "tablespace", .word "union"]

/-- An option from its first word on. -/
theorem reads_tableOption {o : TableOption} (h : o.Canonical) (hks : ks.head? ≠ some (.word "storage")) :
    ∃ w body q, o.kinds = .word w :: body ∧ .word w ∈ optionStarts ∧
      (∀ t : Token, t.kind.lowerWord? = some w → tableOption? t = some q) ∧ Reads q (body ++ ks) (some o) ks := by
  cases o with
  | engine s | collation s =>
      refine ⟨_, _, _, rfl, by decide, fun t ht => by rw [tableOption?, ht]; rfl, ?_⟩
      exact (reads_optionValue (reads_quotedName s ks)).bind (reads_pure _ ks)
  | charset s =>
      refine ⟨_, _, _, rfl, by decide, fun t ht => by rw [tableOption?, ht]; rfl, ?_⟩
      exact reads_keyword (by simp) ((reads_optionValue (reads_quotedName s ks)).bind (reads_pure _ ks))
  | tablespace s =>
      refine ⟨_, _, _, rfl, by decide, fun t ht => by rw [tableOption?, ht]; rfl, ?_⟩
      exact (reads_optionValue (reads_tablespace s hks)).bind (reads_pure _ ks)
  | autoIncrement n | avgRowLength n | keyBlockSize n | maxRows n | minRows n =>
      refine ⟨_, _, _, rfl, by decide, fun t ht => by rw [tableOption?, ht]; rfl, ?_⟩
      exact (reads_optionValue (reads_unsignedInteger h ks)).bind (reads_pure _ ks)
  | checksum on | delayKeyWrite on =>
      refine ⟨_, _, _, rfl, by decide, fun t ht => by rw [tableOption?, ht]; rfl, ?_⟩
      exact (reads_optionValue (reads_flag on ks)).bind (reads_pure _ ks)
  | encryption on =>
      refine ⟨_, _, _, rfl, by decide, fun t ht => by rw [tableOption?, ht]; rfl, ?_⟩
      exact (reads_optionValue (reads_encryption on ks)).bind (reads_pure _ ks)
  | comment s | compression s | connection s | password s =>
      refine ⟨_, _, _, rfl, by decide, fun t ht => by rw [tableOption?, ht]; rfl, ?_⟩
      exact (reads_optionValue (reads_stringLiteral ks s)).bind (reads_pure _ ks)
  | dataDirectory s | indexDirectory s =>
      refine ⟨_, _, _, rfl, by decide, fun t ht => by rw [tableOption?, ht]; rfl, ?_⟩
      exact reads_keyword (by simp) ((reads_optionValue (reads_stringLiteral ks s)).bind (reads_pure _ ks))
  | insertMethod s | rowFormat s =>
      have hs : s.toUpper = s := h
      refine ⟨_, _, _, rfl, by decide, fun t ht => by rw [tableOption?, ht]; rfl, ?_⟩
      refine (reads_optionValue (reads_quotedIdentifier s ks)).bind ?_
      rw [hs]
      exact reads_pure _ ks
  | packKeys mode =>
      refine ⟨_, _, _, rfl, by decide, fun t ht => by rw [tableOption?, ht]; rfl, ?_⟩
      exact (reads_optionValue (reads_packKeys h ks)).bind (reads_pure _ ks)
  | union tables =>
      refine ⟨_, _, _, rfl, by decide, fun t ht => by rw [tableOption?, ht]; rfl, ?_⟩
      have htables : Reads (parenthesized tableName) (inParens (joined (fun s => [.quoted s]) tables) ++ ks)
          tables ks :=
        reads_parenthesized h (fun s _ ks hks => reads_tableName s (hks.head?_ne (by decide))) ks
      exact (reads_optionValue htables).bind (reads_pure _ ks)

theorem follows_tableOptions {allowed : List TokenKind} (options : List TableOption)
    (hsub : optionStarts ⊆ allowed) (hks : Follows allowed ks) :
    Follows allowed (options.flatMap TableOption.kinds ++ ks) := by
  cases options with
  | nil => exact hks
  | cons o options =>
      have hstart : ∃ k body, o.kinds = k :: body ∧ k ∈ optionStarts := by
        cases o with
        | _ => exact ⟨_, _, rfl, by decide⟩
      obtain ⟨k, body, ho, hk⟩ := hstart
      rw [List.flatMap_cons, ho]
      exact follows_cons (hsub hk) _

/-- The options read round by round, onto those that are read before. -/
theorem reads_optionRounds {commas : Bool} {options : List TableOption} (h : ∀ o ∈ options, o.Canonical)
    (hks : Closes ks) (hend : commas = true → ks.head? ≠ some .comma) (done : List TableOption) :
    Reads (loop (optionRound commas) done) (options.flatMap TableOption.kinds ++ ks) (options.reverse ++ done) ks := by
  induction options generalizing done with
  | nil =>
      refine reads_loop_done fun t ht => ?_
      have hcomma : (commas && !done.isEmpty && decide (t.kind = .comma)) = false := by
        cases commas with
        | false => rfl
        | true =>
            have hkind : t.kind ≠ .comma := by
              intro hc
              rw [List.flatMap_nil, List.nil_append, hc] at ht
              exact hend rfl ht
            rw [decide_eq_false hkind, Bool.and_false]
      have hnone : tableOption? t = none := by
        rw [tableOption?, hks.lowerWord?_eq_none ht]
      simp only [optionRound, hcomma, hnone]
      rfl
  | cons o os ih =>
      have hnext : Follows (optionStarts ++ closers) (os.flatMap TableOption.kinds ++ ks) :=
        follows_tableOptions os (List.subset_append_left _ _) (hks.mono (List.subset_append_right _ _))
      obtain ⟨w, body, q, ho, -, hq, hbody⟩ := reads_tableOption (h o List.mem_cons_self) (hnext.head?_ne (by decide))
      rw [List.flatMap_cons, ho, List.append_assoc, List.cons_append, List.reverse_cons, List.append_assoc]
      have hround (t : Token) (ht : t.kind.lowerWord? = some w) : optionRound commas done t =
          some (q >>= fun option => return .again (option.toList ++ done)) := by
        have hkind : t.kind ≠ .comma := by
          intro hc
          rw [hc] at ht
          cases ht
        rw [optionRound, decide_eq_false hkind, Bool.and_false, hq t ht]
        rfl
      exact reads_loop_word hround (hbody.bind (reads_pure _ _))
        (ih (fun o ho => h o (List.mem_cons_of_mem _ ho)) (o :: done))

theorem reads_tableOptions {commas : Bool} {options : List TableOption} (h : ∀ o ∈ options, o.Canonical)
    (hks : Closes ks) (hend : commas = true → ks.head? ≠ some .comma) :
    Reads (tableOptions commas) (options.flatMap TableOption.kinds ++ ks) options ks := by
  refine (reads_optionRounds h hks hend []).bind ?_
  rw [List.append_nil, List.reverse_reverse]
  exact reads_pure options ks

end DdlCatalog.Sql.Parser
