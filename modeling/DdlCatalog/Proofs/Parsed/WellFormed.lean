import DdlCatalog.Proofs.Parsed.Grammar

/-!
Statements that are read are well-formed: keys have columns, types the values and numbers they may have, and
lists that may not be empty are not.
-/

namespace DdlCatalog

/-- Of the numbers of a type the first one and the second one, where they are given, are at most these. -/
def AtMost (digits decimals : UInt64) (arguments : List UInt64) : Prop :=
  (∀ n ∈ arguments[0]?, n ≤ digits) ∧ ∀ n ∈ arguments[1]?, n ≤ decimals

/-- A single number after FLOAT is a number of bits. -/
def TypeSpec.WithinLimits (t : TypeSpec) : Prop :=
  match t.name with
  | .decimal => AtMost 65 30 t.arguments
  | .double => AtMost 255 30 t.arguments
  | .float => if t.arguments.length = 1 then ∀ n ∈ t.arguments, n ≤ 53 else AtMost 255 30 t.arguments
  | _ => True

structure TypeSpec.WellFormed (t : TypeSpec) : Prop where
  values_listed : t.name = .enum ∨ t.name = .set → t.values ≠ [] ∧ t.arguments = []
  no_values : t.name ≠ .enum → t.name ≠ .set → t.values = []
  within_limits : t.WithinLimits

def Index.WellFormed (i : Index) : Prop := i.parts ≠ []

def Reference.WellFormed (r : Reference) : Prop := r.parts ≠ []

structure ForeignKey.WellFormed (k : ForeignKey) : Prop where
  parts_nonempty : k.parts ≠ []
  reference : k.reference.WellFormed

structure ColumnDefinition.WellFormed (d : ColumnDefinition) : Prop where
  type : d.type.WellFormed
  reference : ∀ r ∈ d.attributes.reference, r.WellFormed

def TableOption.WellFormed : TableOption → Prop
  | .union tables => tables ≠ []
  | _ => True

def wellFormedParts : Asked where
  column := ColumnDefinition.WellFormed
  index := Index.WellFormed
  foreignKey := ForeignKey.WellFormed
  option := TableOption.WellFormed

/-- The parts of the statement are well-formed, and its lists are not empty that may not be. -/
def Statement.WellFormed (s : Statement) : Prop := s.Meets wellFormedParts

end DdlCatalog

namespace DdlCatalog.Sql.Parser

variable {script : Tokens}

/-! ### Keys -/

theorem yields_keyParts : Yields script keyParts (· ≠ []) :=
  (yields_true keyPart).parenthesized.mono fun _ h => h.1

theorem yields_indexTail (name : Option String) (method : Option IndexMethod) :
    Yields script (indexTail name method) Index.WellFormed := by
  refine yields_keyParts.bind fun parts hparts => yields_loop (fun i t q hi hq => ?_) hparts
  -- No option of an index changes its columns.
  have hkept {α : Type} {p : Parser α} {f : α → Index} (hf : ∀ a, (f a).parts = i.parts) :
      Yields script (p >>= fun a => pure (Round.again (f a))) fun step => Index.WellFormed step.state :=
    yields_seq fun a => yields_pure fun hnone => hi ((hf a).symm.trans hnone)
  rw [indexOption] at hq
  split at hq <;> cases hq
  · exact yields_seq fun _ => hkept fun _ => rfl
  · exact hkept fun _ => rfl
  · exact yields_seq fun _ => hkept fun _ => rfl
  · exact hkept fun _ => rfl
  · exact yields_pure hi
  · exact yields_pure hi

theorem yields_reference : Yields script reference Reference.WellFormed := by
  refine yields_seq fun table => yields_keyParts.bind fun parts hparts => yields_loop (fun r t q hr hq => ?_) hparts
  rw [referenceClause] at hq
  split at hq <;> cases hq
  · exact yields_seq fun _ => yields_pure hr
  · refine yields_seq fun _ => yields_ite ?_ ?_
    · exact yields_seq fun _ => yields_pure hr
    · exact yields_seq fun _ => yields_seq fun _ => yields_pure hr

theorem yields_foreignKey (symbol : Option String) : Yields script (foreignKey symbol) ForeignKey.WellFormed :=
  yields_seq fun _ => yields_keyParts.bind fun _ hparts => yields_seq fun _ => yields_reference.map fun _ hr => ⟨hparts, hr⟩

/-! ### Types -/

theorem withinLimits_of_not_exceeds {t : TypeSpec} (h : exceedsPrecision t.name t.arguments = false) :
    t.WithinLimits := by
  obtain ⟨name, arguments, values, unsigned, zerofill⟩ := t
  have hlimits (digits decimals : UInt64)
      (hn : (arguments.head?.any (digits < ·) || arguments[1]?.any (decimals < ·)) = false) :
      AtMost digits decimals arguments := by
    rw [Bool.or_eq_false_iff] at hn
    constructor
    · intro n hmem
      rw [← List.head?_eq_getElem?] at hmem
      simpa [Option.mem_def.1 hmem] using hn.1
    · intro n hmem
      simpa [Option.mem_def.1 hmem] using hn.2
  cases name with
  | decimal | double => exact hlimits _ _ (by simpa [exceedsPrecision, precisionLimits] using h)
  | float =>
      cases arguments with
      | nil => simp [TypeSpec.WithinLimits, AtMost]
      | cons first more =>
          cases more with
          | nil => simpa [exceedsPrecision, precisionLimits, TypeSpec.WithinLimits] using h
          | cons second more =>
              have hmany := hlimits 255 30 (by simpa [exceedsPrecision, precisionLimits] using h)
              simpa [TypeSpec.WithinLimits] using hmany
  | _ => trivial

theorem yields_typeArguments (word : String) (offset : Nat) (name : TypeName) :
    Yields script (typeArguments word offset name) TypeSpec.WellFormed := by
  unfold typeArguments
  split
  · rename_i hlisted
    refine (yields_true stringLiteral).parenthesized.map fun values hvalues => ⟨fun _ => ⟨hvalues.1, rfl⟩, ?_, ?_⟩
    · rintro hnoEnum hnoSet
      exact absurd hlisted (by simp [hnoEnum, hnoSet])
    · rcases hlisted with rfl | rfl <;> trivial
  · rename_i hnumbered
    refine yields_seq fun _ => yields_ite ?_ ?_
    · refine yields_seq fun arguments => yields_seq fun _ => ?_
      split
      · exact yields_fail_bind _
      · rename_i hfits
        refine yields_pure ⟨fun hlisted => absurd hlisted hnumbered, fun _ _ => rfl, ?_⟩
        exact withinLimits_of_not_exceeds (by simpa using hfits)
    · refine yields_pure ⟨fun hlisted => absurd hlisted hnumbered, fun _ _ => rfl, ?_⟩
      exact withinLimits_of_not_exceeds (by cases name <;> rfl)

/-- A type is as well-formed as another one of the same name, numbers and values. -/
theorem wellFormed_of_same {t t' : TypeSpec} (h : t.WellFormed) (hname : t'.name = t.name)
    (harguments : t'.arguments = t.arguments) (hvalues : t'.values = t.values) : t'.WellFormed where
  values_listed := by rw [hname, harguments, hvalues]; exact h.values_listed
  no_values := by rw [hname, hvalues]; exact h.no_values
  within_limits := by
    rw [TypeSpec.WithinLimits, hname, harguments]
    exact h.within_limits

theorem yields_typeModifiers {t : TypeSpec} (h : t.WellFormed) :
    Yields script (loop typeModifier t) TypeSpec.WellFormed := by
  refine yields_loop (fun s t q hs hq => ?_) h
  rw [typeModifier] at hq
  split at hq <;> (try split at hq) <;> cases hq
  all_goals exact yields_pure (wellFormed_of_same hs rfl rfl rfl)

theorem yields_typeSpec : Yields script typeSpec fun t => t.1.WellFormed ∧ t.2.reference = none := by
  refine yields_seq fun first => ?_
  split
  · refine yields_ite (yields_pure ⟨⟨by simp, by simp, trivial⟩, rfl⟩) (yields_seq fun name => ?_)
    split
    · exact yields_fail _
    · exact (yields_typeArguments _ _ _).bind fun t ht => (yields_typeModifiers ht).map fun t' ht' => ⟨ht', rfl⟩
  · exact yields_fail _

/-! ### Columns and options -/

/-- The one attribute that has columns is read where it is declared. -/
theorem yields_columnAttributes {a : ColumnAttributes} (h : a.reference = none) :
    Yields script (loop columnAttribute a) fun a => ∀ r ∈ a.reference, r.WellFormed := by
  refine yields_loop (fun a t q ha hq => ?_) (by simp [h])
  have hkept {α : Type} {p : Parser α} {f : α → ColumnAttributes} (hf : ∀ b, (f b).reference = a.reference) :
      Yields script (p >>= fun b => pure (Round.again (f b))) fun step =>
        ∀ r ∈ step.state.reference, Reference.WellFormed r :=
    yields_seq fun b => yields_pure fun r hr => ha r (hf b ▸ hr)
  have hsame : Yields script (pure (Round.again a)) fun step => ∀ r ∈ step.state.reference, Reference.WellFormed r :=
    yields_pure ha
  rw [columnAttribute] at hq
  split at hq <;> cases hq
  case h_17 => exact yields_reference.map fun r hr s hs => Option.some.inj hs ▸ hr
  all_goals first
    | exact yields_pure ha
    | exact hkept fun _ => rfl
    | exact yields_seq fun _ => hkept fun _ => rfl
    | exact yields_seq fun _ => hsame
    | exact yields_seq fun _ => yields_seq fun _ => hsame
    | exact yields_seq fun _ => yields_seq fun _ => yields_seq fun _ => hsame

theorem yields_columnDefinition : Yields script columnDefinition ColumnDefinition.WellFormed :=
  yields_seq fun _ => yields_typeSpec.bind fun _ ht => (yields_columnAttributes ht.2).map fun _ ha => ⟨ht.1, ha⟩

theorem yields_tableOption {t : Token} {p : Parser (Option TableOption)} (h : tableOption? t = some p) :
    Yields script p fun o => ∀ a ∈ o, TableOption.WellFormed a := by
  have hvalue {α : Type} {q : Parser α} {f : α → TableOption} (hf : ∀ a, (f a).WellFormed) :
      Yields script (q >>= fun a => pure (some (f a))) fun o => ∀ a ∈ o, TableOption.WellFormed a :=
    yields_seq fun a => yields_pure fun b hb => Option.some.inj hb ▸ hf a
  have htables : Yields script (optionValue (parenthesized tableName)) (· ≠ []) :=
    yields_seq fun _ => (yields_true tableName).parenthesized.mono fun _ h => h.1
  have hunion : Yields script (optionValue (parenthesized tableName) >>= fun tables => pure (some (.union tables)))
      fun o => ∀ a ∈ o, TableOption.WellFormed a := by
    refine htables.map fun tables hne a ha => ?_
    cases ha
    exact hne
  rw [tableOption?] at h
  split at h <;> cases h
  all_goals first
    | exact hvalue fun _ => trivial
    | exact yields_seq fun _ => hvalue fun _ => trivial
    | exact yields_seq fun _ => yields_ite (hvalue fun _ => trivial) (yields_seq fun _ => hvalue fun _ => trivial)
    | exact hunion
    | exact yields_seq fun _ => yields_seq fun _ => yields_pure (by simp)

/-- The rules give parts that are well-formed. -/
theorem givesParts_wellFormed (script : Tokens) : GivesParts script wellFormedParts where
  column := yields_columnDefinition
  index := yields_indexTail
  foreignKey := yields_foreignKey
  default _ _ _ _ _ _ _ := trivial
  conversion _ := ⟨trivial, trivial⟩
  option _ _ := yields_tableOption

end DdlCatalog.Sql.Parser
