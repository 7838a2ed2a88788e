import DdlCatalog.Proofs.Composition.Options
import DdlCatalog.Proofs.Parsed.OneAhead
import DdlCatalog.Sql.Grammar.Statement

/-!
The rules for what stands in the parentheses of a table look one token ahead, and so do those for the options behind
them.
-/

namespace DdlCatalog.Sql.Parser

-- A rule of many steps takes as many instances.
set_option synthInstance.maxSize 512

/-! ### Keys -/

instance oneAhead_sortOrder : OneAhead sortOrder := by
  unfold sortOrder
  infer_instance

instance oneAhead_partLength : OneAhead partLength := by
  unfold partLength
  infer_instance

instance oneAhead_keyPart : OneAhead keyPart := by
  unfold keyPart
  infer_instance

instance oneAhead_keyParts : OneAhead keyParts := by
  unfold keyParts
  infer_instance

instance oneAhead_indexMethod : OneAhead indexMethod := by
  unfold indexMethod
  infer_instance

instance oneAhead_usingMethod : OneAhead usingMethod := by
  unfold usingMethod
  infer_instance

instance oneAhead_indexName? : OneAhead indexName? := by
  unfold indexName?
  refine @oneAhead_bind _ _ _ _ oneAhead_peek fun t? => ?_
  split <;> infer_instance

instance oneAhead_indexTail (name : Option String) (method : Option IndexMethod) :
    OneAhead (indexTail name method) := by
  have hoptions (i : Index) : OneAhead (loop indexOption i) := by
    refine oneAhead_loop (fun s t q hq => ?_) i
    rw [indexOption] at hq
    split at hq <;> cases hq <;> infer_instance
  unfold indexTail
  infer_instance

instance oneAhead_index (symbol : Option String) : OneAhead (index symbol) := by
  unfold index
  infer_instance

instance oneAhead_matchRule : OneAhead matchRule := by
  unfold matchRule
  refine @oneAhead_bind _ _ _ _ oneAhead_next fun t? => ?_
  split <;> infer_instance

instance oneAhead_referentialAction : OneAhead referentialAction := by
  unfold referentialAction
  infer_instance

instance oneAhead_reference : OneAhead reference := by
  have hclauses (r : Reference) : OneAhead (loop referenceClause r) := by
    refine oneAhead_loop (fun s t q hq => ?_) r
    rw [referenceClause] at hq
    split at hq <;> cases hq <;> infer_instance
  unfold reference
  infer_instance

instance oneAhead_foreignKey (symbol : Option String) : OneAhead (foreignKey symbol) := by
  unfold foreignKey
  infer_instance

/-! ### Columns -/

instance oneAhead_typeName? (word : String) : OneAhead (typeName? word) := by
  unfold typeName?
  split <;> infer_instance

instance oneAhead_typeArguments (word : String) (offset : Nat) (name : TypeName) :
    OneAhead (typeArguments word offset name) := by
  unfold typeArguments
  infer_instance

instance oneAhead_typeModifier (s : TypeSpec) : OneAhead (loop typeModifier s) := by
  refine oneAhead_loop (fun s t q hq => ?_) s
  rw [typeModifier] at hq
  split at hq <;> (try split at hq) <;> cases hq <;> infer_instance

instance oneAhead_typeSpec : OneAhead typeSpec := by
  unfold typeSpec
  refine @oneAhead_bind _ _ _ _ oneAhead_next fun t? => ?_
  split
  · refine @oneAhead_ite _ _ _ _ _ inferInstance (@oneAhead_bind _ _ _ _ inferInstance fun name? => ?_)
    split <;> infer_instance
  · infer_instance

instance oneAhead_expressionText : OneAhead expressionText where
  on := by
    have htokens : OneAhead expressionTokens := by
      unfold expressionTokens
      refine @oneAhead_bind _ _ _ _ oneAhead_next fun first? => ?_
      dsimp only
      split
      · infer_instance
      · split
        · infer_instance
        · refine @oneAhead_bind _ _ _ _ oneAhead_peek fun t? => ?_
          split <;> infer_instance
        all_goals infer_instance
    exact htokens.on

instance oneAhead_signedNumber (negative : Bool) : OneAhead (signedNumber negative) where
  on := by
    have htokens : NoneAhead (signedTokens negative) := noneAhead_expect _ _
    have hahead : OneAhead (signedTokens negative) := inferInstance
    exact hahead.on

instance oneAhead_defaultValue : OneAhead defaultValue := by
  unfold defaultValue
  refine @oneAhead_bind _ _ _ _ oneAhead_peek fun t? => ?_
  split
  · infer_instance
  · split <;> infer_instance

instance oneAhead_checkTail : OneAhead checkTail := by
  unfold checkTail
  infer_instance

instance oneAhead_constraintSymbol : OneAhead constraintSymbol := by
  unfold constraintSymbol
  refine @oneAhead_bind _ _ _ _ oneAhead_peekWord fun word => ?_
  split <;> infer_instance

instance oneAhead_generatedTail : OneAhead generatedTail := by
  unfold generatedTail
  infer_instance

instance oneAhead_columnAttribute (a : ColumnAttributes) : OneAhead (loop columnAttribute a) := by
  refine oneAhead_loop (fun s t q hq => ?_) a
  rw [columnAttribute] at hq
  split at hq <;> cases hq <;> infer_instance

instance oneAhead_columnDefinition : OneAhead columnDefinition := by
  unfold columnDefinition
  infer_instance

/-! ### Entries of a table -/

theorem oneAhead_keyEntryTail {symbol : Option String} {word : String} {p : Parser TableEntry}
    (h : keyEntryTail? symbol word = some p) : OneAhead p := by
  rw [keyEntryTail?.eq_def] at h
  split at h <;> cases h <;> infer_instance

instance oneAhead_constraint? : OneAhead constraint? := by
  unfold constraint?
  infer_instance

instance oneAhead_keyOr {α : Type} (key : TableEntry → α) {column : Parser α} [OneAhead column] :
    OneAhead (keyOr key column) := by
  unfold keyOr
  refine @oneAhead_bind _ _ _ _ oneAhead_constraint? fun symbol =>
    @oneAhead_bind _ _ _ _ oneAhead_peekWord fun word => @oneAhead_ite _ _ _ _ _ inferInstance ?_
  split
  · rename_i entry hentry
    obtain ⟨w, -, hw⟩ := Option.bind_eq_some_iff.1 hentry
    have := oneAhead_keyEntryTail hw
    infer_instance
  · infer_instance

instance oneAhead_ifNotExists : OneAhead ifNotExists := by
  unfold ifNotExists
  infer_instance

/-! ### Options -/

variable {t : Token} {ts us : List Token} {q : Parser (Option TableOption)} {o : Option TableOption}

instance noneAhead_optionValue {α : Type} {value : Parser α} [NoneAhead value] : NoneAhead (optionValue value) := by
  unfold optionValue
  infer_instance

instance oneAhead_characterSet : OneAhead characterSet := by
  unfold characterSet
  infer_instance

instance noneAhead_encryption : NoneAhead encryption := by
  unfold encryption
  refine noneAhead_next_bind (by rintro b rest ⟨⟩) fun t => ?_
  simp only [Option.map_some]
  split
  · split
    · exact .inl ⟨true, rfl⟩
    · split
      · exact .inl ⟨false, rfl⟩
      · exact .inr ⟨_, rfl⟩
  · exact .inr ⟨_, rfl⟩

instance noneAhead_packKeys : NoneAhead packKeys := by
  unfold packKeys
  refine noneAhead_next_bind (by rintro b rest ⟨⟩) fun t => ?_
  simp only [Option.map_some]
  split
  · split
    · exact .inl ⟨"0", rfl⟩
    · split
      · exact .inl ⟨"1", rfl⟩
      · exact .inr ⟨_, rfl⟩
  · split
    · exact .inl ⟨"DEFAULT", rfl⟩
    · exact .inr ⟨_, rfl⟩
  · exact .inr ⟨_, rfl⟩

/-- Every option ends with a token of its own, but those that are dropped and the one that a word may follow. -/
theorem noneAhead_tableOption (h : tableOption? t = some q) (hignored : t.kind.ignored = false)
    (hspace : t.kind.lowerWord? ≠ some "tablespace") : NoneAhead q := by
  rw [tableOption?] at h
  split at h
  case h_1 ht | h_2 ht | h_3 ht =>
    rw [TokenKind.ignored, ht] at hignored
    cases hignored
  all_goals cases h
  all_goals first
    | exact absurd ‹_› hspace
    | infer_instance

end DdlCatalog.Sql.Parser
