import DdlCatalog.Proofs.Composition.Steady
import DdlCatalog.Sql.Grammar.Statement

/-!
The rules of the grammar are steady, all but the options of a table and what ends with them.
-/

namespace DdlCatalog.Sql.Parser

-- A rule of many steps is steady by as many instances.
set_option synthInstance.maxSize 512

/-! ### Key parts, indexes and references -/

instance steady_sortOrder : Steady sortOrder sortOrder := by
  unfold sortOrder
  infer_instance

instance steady_partLength : Steady partLength partLength := by
  unfold partLength
  infer_instance

instance steady_keyPart : Steady keyPart keyPart := by
  unfold keyPart
  infer_instance

instance steady_keyParts : Steady keyParts keyParts := by
  unfold keyParts
  infer_instance

/-- A token that is taken only to be refused. -/
instance steady_refuse {α : Type} (expected : String) :
    Steady (next >>= fun t => fail (α := α) (unexpected expected t)) (next >>= fun t => fail (unexpected expected t)) :=
  steady_next_bind (by rintro b rest ⟨⟩) fun _ _ _ => inferInstance

instance steady_refuse_bind {α β : Type} (expected : String) (g : α → Parser β) :
    Steady (next >>= fun t => fail (unexpected expected t) >>= g)
      (next >>= fun t => fail (unexpected expected t) >>= g) :=
  steady_next_bind (by rintro b rest ⟨⟩) fun _ _ _ => ⟨fun _ => by rintro b rest ⟨⟩⟩

instance steady_indexMethod : Steady indexMethod indexMethod := by
  unfold indexMethod
  infer_instance

instance steady_usingMethod : Steady usingMethod usingMethod := by
  unfold usingMethod
  infer_instance

instance steady_indexName? : Steady indexName? indexName? := by
  unfold indexName?
  refine steady_peek_bind (fun t t' ts ts' ht hts => ?_) (fun t' ht => ?_) (steady_pure none)
  · simp only [Option.map_some, ht.kind]
    split <;> exact Steady.on (.cons ht hts)
  · obtain ⟨k, _, _, _⟩ := t'
    cases k <;> first | exact steady_pure none | cases ht

theorem byKind_indexOption : ByKind indexOption where
  same s t t' h := by simp only [indexOption, h]
  stops s t h := by simp only [indexOption, lowerWord?_of_stops h]

instance steady_indexOption (s : Index) : Steady (loop indexOption s) (loop indexOption s) := by
  refine steady_loop byKind_indexOption (fun s t q h => ?_) s
  rw [indexOption] at h
  split at h <;> cases h <;> infer_instance

instance steady_indexTail (name : Option String) (method : Option IndexMethod) :
    Steady (indexTail name method) (indexTail name method) := by
  unfold indexTail
  infer_instance

instance steady_index (symbol : Option String) : Steady (index symbol) (index symbol) := by
  unfold index
  infer_instance

instance steady_matchRule : Steady matchRule matchRule := by
  unfold matchRule
  refine steady_next_bind (by rintro b rest ⟨⟩) fun t t' ht => ?_
  simp only [Option.bind_some, ht.kind]
  split <;> infer_instance

instance steady_referentialAction : Steady referentialAction referentialAction := by
  unfold referentialAction
  infer_instance

theorem byKind_referenceClause : ByKind referenceClause where
  same s t t' h := by simp only [referenceClause, h]
  stops s t h := by simp only [referenceClause, lowerWord?_of_stops h]

instance steady_referenceClause (s : Reference) : Steady (loop referenceClause s) (loop referenceClause s) := by
  refine steady_loop byKind_referenceClause (fun s t q h => ?_) s
  rw [referenceClause] at h
  split at h <;> cases h <;> infer_instance

instance steady_reference : Steady reference reference := by
  unfold reference
  infer_instance

instance steady_foreignKey (symbol : Option String) : Steady (foreignKey symbol) (foreignKey symbol) := by
  unfold foreignKey
  infer_instance

/-! ### Columns -/

instance steady_typeName? (word : String) : Steady (typeName? word) (typeName? word) := by
  unfold typeName?
  split <;> infer_instance

/-- The place of a type is for errors alone. -/
instance steady_typeArguments (word : String) (offset offset' : Nat) (name : TypeName) :
    Steady (typeArguments word offset name) (typeArguments word offset' name) := by
  unfold typeArguments
  infer_instance

theorem byKind_typeModifier : ByKind typeModifier where
  same s t t' h := by simp only [typeModifier, h]
  stops s t h := by simp only [typeModifier, lowerWord?_of_stops h]

instance steady_typeModifier (s : TypeSpec) : Steady (loop typeModifier s) (loop typeModifier s) := by
  refine steady_loop byKind_typeModifier (fun s t q h => ?_) s
  rw [typeModifier] at h
  split at h <;> (try split at h) <;> cases h <;> infer_instance

instance steady_typeSpec : Steady typeSpec typeSpec := by
  unfold typeSpec
  refine steady_next_bind (by rintro b rest ⟨⟩) fun t t' ht => ?_
  obtain ⟨kind, offset, text, gap⟩ := t
  obtain ⟨kind', offset', text', gap'⟩ := t'
  obtain rfl : kind' = kind := ht.kind
  cases kind' with
  | word w =>
      refine (steady_pure _).ite ((steady_typeName? w).bind fun name? => ?_)
      cases name? <;> infer_instance
  | _ => exact steady_fail _ _

theorem verbatim_alike {first first' : Token} {more more' : List Token} (h : first.Alike first')
    (hmore : Alike more more') : verbatim first' more' = verbatim first more := by
  have hflat : (more'.flatMap fun t => t.gap ++ t.text) = more.flatMap fun t => t.gap ++ t.text := by
    induction hmore with
    | nil => rfl
    | cons ht _ ih => rw [List.flatMap_cons, List.flatMap_cons, ih, ht.gap, ht.text]
  rw [verbatim, verbatim, h.text, hflat]

instance steady_expressionTokens : Steady expressionTokens expressionTokens := by
  unfold expressionTokens
  refine steady_next_bind (by rintro b rest ⟨⟩) fun t t' ht => ?_
  have hinner {more more' : List Token} (hmore : Alike more more') :
      Steady (pure (verbatim t more)) (pure (verbatim t' more')) := by
    rw [verbatim_alike ht hmore]
    infer_instance
  simp only [ht.kind]
  split
  · exact steady_balanced_bind fun _ _ h => hinner h
  · -- A word is the start of a call if a parenthesis follows it.
    refine steady_peek_bind (fun u u' ts ts' hu hts => ?_) (fun u' hu => ?_) (hinner .nil)
    · simp only [hu.kind]
      split
      · exact steadyOn_next_bind ((steady_balanced_bind fun _ _ h => hinner (.cons hu h)).on hts)
      · exact (hinner .nil).on (.cons hu hts)
    · have hparen : u'.kind ≠ .leftParen := by
        intro h
        rw [h] at hu
        cases hu
      simp only [if_neg hparen]
      exact hinner .nil
  · exact steady_pure _
  · exact steady_fail _ _
  · exact steady_fail _ _
  · exact steady_fail _ _
  · exact hinner .nil

instance steady_expressionText : Steady expressionText expressionText where
  on := steady_expressionTokens.on

instance steady_signedTokens (negative : Bool) : Steady (signedTokens negative) (signedTokens negative) :=
  steady_expect _ _

instance steady_signedNumber (negative : Bool) : Steady (signedNumber negative) (signedNumber negative) where
  on := (steady_signedTokens negative).on

instance steady_defaultValue : Steady defaultValue defaultValue := by
  unfold defaultValue
  refine steady_peek_bind (fun t t' ts ts' ht hts => ?_) (fun t' ht => steady_fail _ _) (steady_fail _ _)
  simp only [Option.bind_some, Option.map_some, ht.kind]
  split
  · exact steadyOn_next_bind ((steady_pure _).on hts)
  · split
    · exact Steady.on (.cons ht hts)
    · exact Steady.on (.cons ht hts)
    · exact steadyOn_next_bind (Steady.on hts)
    · exact steadyOn_next_bind (Steady.on hts)
    · exact (steady_fail _ _).on (.cons ht hts)

instance steady_checkTail : Steady checkTail checkTail := by
  unfold checkTail
  have hafter : Steady (balanced >>= fun _ => eatWord "not" >>= fun _ => eatWord "enforced" >>= fun _ => pure ())
    (balanced >>= fun _ => eatWord "not" >>= fun _ => eatWord "enforced" >>= fun _ => pure ()) :=
    steady_balanced_bind fun _ _ _ => inferInstance
  infer_instance

instance steady_constraintSymbol : Steady constraintSymbol constraintSymbol := by
  unfold constraintSymbol
  refine steady_peekWord_bind inferInstance fun w t t' ts ts' ht hts => ?_
  split <;> exact Steady.on (.cons ht hts)

instance steady_generatedTail : Steady generatedTail generatedTail := by
  unfold generatedTail
  have hafter : Steady (balanced >>= fun _ => eatEither "virtual" "stored" >>= fun _ => pure ())
    (balanced >>= fun _ => eatEither "virtual" "stored" >>= fun _ => pure ()) :=
    steady_balanced_bind fun _ _ _ => inferInstance
  infer_instance

theorem byKind_columnAttribute : ByKind columnAttribute where
  same s t t' h := by simp only [columnAttribute, h]
  stops s t h := by simp only [columnAttribute, lowerWord?_of_stops h]

instance steady_columnAttribute (s : ColumnAttributes) : Steady (loop columnAttribute s) (loop columnAttribute s) := by
  refine steady_loop byKind_columnAttribute (fun s t q h => ?_) s
  rw [columnAttribute] at h
  split at h <;> cases h <;> infer_instance

instance steady_columnDefinition : Steady columnDefinition columnDefinition := by
  unfold columnDefinition
  infer_instance

/-! ### Table options -/

instance steady_optionValue {α : Type} {value : Parser α} [Steady value value] :
    Steady (optionValue value) (optionValue value) := by
  unfold optionValue
  infer_instance

instance steady_characterSet : Steady characterSet characterSet := by
  unfold characterSet
  infer_instance

instance steady_encryption : Steady encryption encryption := by
  unfold encryption
  refine steady_next_bind (by rintro b rest ⟨⟩) fun t t' ht => ?_
  simp only [Option.map_some, ht.kind]
  split <;> infer_instance

instance steady_packKeys : Steady packKeys packKeys := by
  unfold packKeys
  refine steady_next_bind (by rintro b rest ⟨⟩) fun t t' ht => ?_
  simp only [Option.map_some, ht.kind]
  split <;> infer_instance

instance steady_tablespace : Steady tablespace tablespace := by
  unfold tablespace
  infer_instance

/-! ### Clauses of an alteration -/

theorem steady_keyEntryTail {symbol : Option String} {word : String} {p : Parser TableEntry}
    (h : keyEntryTail? symbol word = some p) : Steady p p := by
  rw [keyEntryTail?.eq_def] at h
  split at h <;> cases h <;> infer_instance

instance steady_constraint? : Steady constraint? constraint? := by
  unfold constraint?
  infer_instance

instance steady_keyOr {α : Type} (key : TableEntry → α) {column : Parser α} [Steady column column] :
    Steady (keyOr key column) (keyOr key column) := by
  unfold keyOr
  refine steady_constraint?.bind fun symbol => steady_peekWord_bind ?_ fun w t t' ts ts' ht hts => ?_
  · simp only [beq_iff_eq, reduceCtorEq, if_false, Option.bind_none]
    infer_instance
  · split
    · exact steadyOn_next_bind (Steady.on hts)
    · simp only [Option.bind_some]
      split
      · rename_i entry hentry
        have := steady_keyEntryTail hentry
        exact steadyOn_next_bind (Steady.on hts)
      · exact Steady.on (.cons ht hts)

instance steady_placement? : Steady placement? placement? := by
  unfold placement?
  infer_instance

instance steady_addedColumns : Steady addedColumns addedColumns := by
  unfold addedColumns
  infer_instance

instance steady_addTail : Steady addTail addTail := by
  unfold addTail
  infer_instance

instance steady_alterTail : Steady alterTail alterTail := by
  unfold alterTail
  infer_instance

instance steady_changeTail : Steady changeTail changeTail := by
  unfold changeTail
  infer_instance

instance steady_modifyTail : Steady modifyTail modifyTail := by
  unfold modifyTail
  infer_instance

instance steady_dropTail : Steady dropTail dropTail := by
  unfold dropTail
  infer_instance

instance steady_renameTail : Steady renameTail renameTail := by
  unfold renameTail
  infer_instance

instance steady_convertTail : Steady convertTail convertTail := by
  unfold convertTail
  infer_instance

instance steady_ignoredValue : Steady ignoredValue ignoredValue := by
  unfold ignoredValue
  infer_instance

theorem steady_clauseTail {word : String} {p : Parser (Option Alteration)} (h : clauseTail? word = some p) :
    Steady p p := by
  rw [clauseTail?.eq_def] at h
  split at h <;> cases h <;> infer_instance

/-! ### Statements without options -/

instance steady_ifNotExists : Steady ifNotExists ifNotExists := by
  unfold ifNotExists
  infer_instance

instance steady_ifExists : Steady ifExists ifExists := by
  unfold ifExists
  infer_instance

instance steady_tableWord : Steady tableWord tableWord := by
  unfold tableWord
  infer_instance

instance steady_dropTablesTail : Steady dropTablesTail dropTablesTail := by
  unfold dropTablesTail
  infer_instance

instance steady_algorithmAndLock : Steady algorithmAndLock algorithmAndLock := by
  unfold algorithmAndLock
  refine steady_loop ⟨fun s t t' h => ?_, fun s t h => ?_⟩ (fun s t q h => ?_) ()
  · simp only [h]
  · simp only [lowerWord?_of_stops h]
  · split at h <;> cases h <;> infer_instance

instance steady_createIndexTail (kind : IndexKind) : Steady (createIndexTail kind) (createIndexTail kind) := by
  unfold createIndexTail
  infer_instance

instance steady_dropIndexTail : Steady dropIndexTail dropIndexTail := by
  unfold dropIndexTail
  infer_instance

instance steady_dropStatementTail : Steady dropStatementTail dropStatementTail := by
  unfold dropStatementTail
  infer_instance

instance steady_rename : Steady rename rename := by
  unfold rename
  infer_instance

instance steady_renameTablesTail : Steady renameTablesTail renameTablesTail := by
  unfold renameTablesTail
  infer_instance

end DdlCatalog.Sql.Parser
