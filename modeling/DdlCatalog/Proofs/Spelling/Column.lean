import DdlCatalog.Proofs.Spelling.Key

/-!
Column definitions read from their canonical spelling. Each attribute is told by its first word, so that
one which is left out is not mistaken for the next.
-/

namespace DdlCatalog.Sql.Parser

variable {ks : List TokenKind}

/-! ### Pieces -/

/-- What comes first in pieces, of which any may be left out, or after them. -/
theorem follows_flatten {allowed : List TokenKind} {pieces : List (List TokenKind)}
    (h : ∀ piece ∈ pieces, Follows allowed piece) (hks : Follows allowed ks) :
    Follows allowed (pieces.flatten ++ ks) := by
  induction pieces with
  | nil => exact hks
  | cons piece pieces ih =>
      rw [List.flatten_cons, List.append_assoc]
      cases piece with
      | nil => exact ih fun p hp => h p (List.mem_cons_of_mem _ hp)
      | cons k piece => exact follows_cons (h _ List.mem_cons_self k rfl) _

theorem follows_ifSome {τ : Type} {allowed : List TokenKind} {o : Option τ} {clause : τ → List TokenKind}
    (h : ∀ x, Follows allowed (clause x)) : Follows allowed (ifSome o clause) := by
  cases o with
  | none => exact follows_nil _
  | some x => exact h x

theorem follows_ifTrue {allowed clause : List TokenKind} {on : Bool} (h : Follows allowed clause) :
    Follows allowed (ifTrue on clause) := by
  cases on with
  | false => exact follows_nil _
  | true => exact h

/-! ### Types -/

theorem ofWord?_of_lower {word : String} {name : TypeName} (h : word.toLower = name.name) :
    TypeName.ofWord? word = some name := by
  rw [TypeName.ofWord?, h]
  cases name <;> rfl

theorem reads_typeName? {word : String} {name : TypeName} (h : word.toLower = name.name)
    (hks : ks.head? ≠ some (.word "precision") ∧ ks.head? ≠ some (.word "varying")) :
    Reads (typeName? word) ks (some name) ks := by
  have hname : Reads (pure (TypeName.ofWord? word)) ks (some name) ks := by
    rw [ofWord?_of_lower h]
    exact reads_pure _ ks
  rw [typeName?, h]
  cases name with
  | double => exact reads_noWord ⟨by simp, hks.1⟩ (reads_pure _ ks)
  | char => exact reads_noWord ⟨by simp, hks.2⟩ hname
  | _ => exact hname

/-- The first words of the attributes of a column, and what follows a column. -/
def attributeStarts : List TokenKind :=
  [.word "null", .word "not", .word "default", .word "on", .word "auto_increment", .word "unique", .word "primary",
    .word "comment", .word "character", .word "collate", .word "column_format", .word "storage", .word "invisible",
    .word "references"] ++ columnClosers

def modifierStarts : List TokenKind := .word "unsigned" :: .word "zerofill" :: attributeStarts

theorem reads_typeArguments {s : TypeSpec} (h : s.Canonical) (word : String) (offset : Nat)
    (hks : Follows modifierStarts ks) : Reads (typeArguments word offset s.name) (s.argumentKinds ++ ks)
      { name := s.name, arguments := s.arguments, values := s.values } ks := by
  obtain ⟨name, arguments, values, unsigned, zerofill⟩ := s
  rw [typeArguments, TypeSpec.argumentKinds]
  by_cases hvalues : values = []
  · have hname : ¬(name = .enum ∨ name = .set) := fun hn => h.values.2 hn hvalues
    subst hvalues
    simp only [if_neg hname, ne_eq, not_true_eq_false, if_false]
    by_cases harguments : arguments = []
    · subst harguments
      simp only [not_true_eq_false, if_false]
      exact reads_notEaten rfl (hks.head?_ne (by decide)) (reads_pure _ ks)
    · have hprecise : exceedsPrecision name arguments = false := h.precise
      have hlist : Reads (commaList unsignedInteger) (joined (fun n => [numberKind n]) arguments ++ .rightParen :: ks)
          arguments (.rightParen :: ks) :=
        reads_commaList harguments (fun n hn ks _ => reads_unsignedInteger (h.arguments_small n hn) ks)
          (closes_rightParen ks) (by simp)
      simp only [harguments, not_false_eq_true, if_true, inParens, List.cons_append, List.append_assoc]
      refine reads_eaten rfl (hlist.bind (reads_symbol rfl ?_))
      simp only [hprecise]
      exact reads_pure _ ks
  · have hname : name = .enum ∨ name = .set := h.values.1 hvalues
    have harguments : arguments = [] := h.no_arguments hvalues
    subst harguments
    simp only [if_pos hname, ne_eq, hvalues, not_false_eq_true, if_true]
    exact (reads_parenthesized hvalues (fun v _ ks _ => reads_stringLiteral ks v) ks).bind (reads_pure _ ks)

theorem reads_typeModifiers (s : TypeSpec) (hzerofill : s.zerofill = true → s.unsigned = true)
    (hks : Follows attributeStarts ks) :
    Reads (loop typeModifier { name := s.name, arguments := s.arguments, values := s.values })
      (s.pieces.flatten ++ ks) s ks := by
  simp only [TypeSpec.pieces, List.flatten_cons, List.flatten_nil, List.append_nil, List.append_assoc]
  obtain ⟨name, arguments, values, unsigned, zerofill⟩ := s
  refine reads_mark (fun on => ({ name, arguments, values, unsigned := on } : TypeSpec)) (fun _ h => ?_) ?_
  · exact reads_loop_word (fun t ht => by rw [typeModifier, ht]; rfl) (reads_pure _ _) h
  refine reads_mark (fun on => ({ name, arguments, values, unsigned, zerofill := on } : TypeSpec)) (fun hz h => ?_) ?_
  · obtain rfl : unsigned = true := hzerofill hz
    exact reads_loop_word (fun t ht => by rw [typeModifier, ht]; rfl) (reads_pure _ _) h
  refine reads_loop_done fun t ht => ?_
  rw [typeModifier]
  split
  all_goals first | rfl | exact absurd ‹_› (hks.lowerWord?_ne ht (by decide))

theorem reads_typeSpec {s : TypeSpec} (h : s.Canonical) (hks : Follows attributeStarts ks) :
    Reads typeSpec (s.kinds ++ ks) (s, {}) ks := by
  have hmodifiers : Follows modifierStarts (s.pieces.flatten ++ ks) := by
    refine follows_flatten ?_ (hks.mono (by decide))
    simp only [TypeSpec.pieces, List.forall_mem_cons]
    exact ⟨follows_ifTrue (follows_cons (by decide) _), follows_ifTrue (follows_cons (by decide) _), by simp⟩
  have hword : (s.argumentKinds ++ (s.pieces.flatten ++ ks)).head? ≠ some (.word "precision") ∧
      (s.argumentKinds ++ (s.pieces.flatten ++ ks)).head? ≠ some (.word "varying") := by
    rw [TypeSpec.argumentKinds]
    split
    · simp [inParens]
    split
    · simp [inParens]
    · exact ⟨(hmodifiers.head?_ne (by decide)), (hmodifiers.head?_ne (by decide))⟩
  simp only [TypeSpec.kinds, List.cons_append, List.append_assoc]
  refine reads_next_bind fun t ht => ?_
  obtain ⟨kind, offset, text, gap⟩ := t
  obtain ⟨word, rfl, hlower⟩ := TokenKind.eq_word_of_folded ht
  have hserial : (word.toLower == "serial") = false := by
    rw [hlower]
    cases s.name <;> rfl
  simp only [hserial, Bool.false_eq_true, if_false]
  refine (reads_typeName? hlower hword).bind ((reads_typeArguments h word offset hmodifiers).bind ?_)
  exact (reads_typeModifiers s h.zerofill hks).bind (reads_pure _ ks)

/-! ### Values -/

theorem reads_expressionText (s : String) (ks : List TokenKind) : Reads expressionText (.string s :: ks) s ks := by
  refine reads_next_bind fun t ht => ?_
  simp only [TokenKind.eq_of_folded ht rfl]
  exact reads_pure s ks

theorem reads_literal {k : TokenKind} {v : DefaultValue}
    (h : ∀ k' : TokenKind, k'.folded = k → literal? k' = some v) (ks : List TokenKind) :
    Reads defaultValue (k :: ks) v ks := by
  refine reads_peek_bind fun t ht => ?_
  obtain ⟨t, rfl, hkind⟩ := Option.map_eq_some_iff.1 ht
  simp only [Option.bind_some, h t.kind hkind]
  exact reads_skip (reads_pure v ks)

theorem reads_negative {k : TokenKind} {v : DefaultValue} (h : Reads (signedTokens true) (k :: ks) v ks) :
    Reads defaultValue (.minus :: k :: ks) v ks := by
  refine reads_peek_bind fun t ht => ?_
  obtain ⟨t, rfl, hkind⟩ := Option.map_eq_some_iff.1 ht
  simp only [Option.bind_some, Option.map_some, TokenKind.eq_of_folded hkind rfl, literal?]
  exact reads_skip h

theorem reads_defaultValue {v : DefaultValue} (h : v.Canonical) (ks : List TokenKind) :
    Reads defaultValue (v.kinds ++ ks) v ks := by
  have hword {w : String} (hlit : ∀ s : String, s.toLower = w → literal? (.word s) = some v) :
      Reads defaultValue (.word w :: ks) v ks := by
    refine reads_literal (fun k' hk => ?_) ks
    obtain ⟨s, rfl, hs⟩ := TokenKind.eq_word_of_folded hk
    exact hlit s hs
  cases v with
  | null => exact hword fun s hs => by rw [literal?, hs]; rfl
  | bool b =>
      cases b with
      | false => exact hword fun s hs => by rw [literal?, hs]; rfl
      | true => exact hword fun s hs => by rw [literal?, hs]; rfl
  | text s => exact reads_literal (fun k' hk => by rw [TokenKind.eq_of_folded hk rfl]; rfl) ks
  | integer n =>
      rw [DefaultValue.kinds]
      split
      · refine reads_negative (reads_expect fun k' hk => ?_)
        rw [TokenKind.eq_of_folded hk rfl]
        simp
      · exact reads_literal (fun k' hk => by rw [TokenKind.eq_of_folded hk rfl]; rfl) ks
  | real x =>
      obtain ⟨n, hn⟩ := h
      rw [DefaultValue.kinds]
      split at hn
      · rename_i hx
        rw [if_pos hx]
        refine reads_negative (reads_expect fun k' hk => ?_)
        rw [TokenKind.eq_of_folded hk rfl]
        simp [← hn.1, ← hn.2]
      · rename_i hx
        rw [if_neg hx]
        exact reads_literal (fun k' hk => by rw [TokenKind.eq_of_folded hk rfl]; rfl) ks

/-! ### Attributes -/

theorem follows_attributes (a : ColumnAttributes) : ∀ piece ∈ a.pieces, Follows attributeStarts piece := by
  simp only [ColumnAttributes.pieces, List.forall_mem_cons]
  refine ⟨follows_ifSome fun b => ?_, follows_ifSome fun _ => follows_cons (by decide) _,
    follows_ifSome fun _ => follows_cons (by decide) _, follows_ifTrue (follows_cons (by decide) _),
    follows_ifTrue (follows_cons (by decide) _), follows_ifTrue (follows_cons (by decide) _),
    follows_ifSome fun _ => follows_cons (by decide) _, follows_ifSome fun _ => follows_cons (by decide) _,
    follows_ifSome fun _ => follows_cons (by decide) _, follows_ifSome fun _ => follows_cons (by decide) _,
    follows_ifSome fun _ => follows_cons (by decide) _, follows_ifTrue (follows_cons (by decide) _),
    follows_ifSome fun _ => follows_cons (by decide) _, by simp⟩
  cases b with
  | false => exact follows_cons (by decide) _
  | true => exact follows_cons (by decide) _

theorem reads_columnAttributes {a : ColumnAttributes} (h : a.Canonical) (hks : Follows columnClosers ks) :
    Reads (loop columnAttribute {}) (a.pieces.flatten ++ ks) a ks := by
  -- Of the words after UNIQUE only KEY would be taken for a part of it.
  have hunique : Follows attributeStarts ((a.pieces.drop 5).flatten ++ ks) :=
    follows_flatten (fun p hp => follows_attributes a p (List.mem_of_mem_drop hp)) (hks.mono (by decide))
  obtain ⟨nullable, default, onUpdate, autoIncrement, unique, primaryKey, comment, charset, collation, format,
    storage, invisible, target⟩ := a
  simp only [ColumnAttributes.pieces, List.drop_succ_cons, List.drop_zero, List.flatten_cons, List.flatten_nil,
    List.append_nil, List.append_assoc] at hunique ⊢
  refine reads_piece (fun v => ({ nullable := v } : ColumnAttributes)) (fun b _ => ?_) ?_
  · cases b with
    | false =>
        exact reads_loop_word (fun t ht => by rw [columnAttribute, ht]; rfl) (reads_keyword (by simp) (reads_pure _ _))
    | true =>
        exact reads_loop_word (fun t ht => by rw [columnAttribute, ht]; rfl) (reads_pure _ _)
  refine reads_piece (fun v => ({ nullable, default := v } : ColumnAttributes)) (fun v hv => ?_) ?_
  · refine reads_loop_word (fun t ht => by rw [columnAttribute, ht]; rfl) ?_
    exact (reads_defaultValue (h.default v hv) _).bind (reads_pure _ _)
  refine reads_piece (fun v => ({ nullable, default, onUpdate := v } : ColumnAttributes)) (fun s _ => ?_) ?_
  · refine reads_loop_word (fun t ht => by rw [columnAttribute, ht]; rfl) ?_
    exact reads_keyword (by simp) ((reads_expressionText s _).bind (reads_pure _ _))
  refine reads_mark (fun v => ({ nullable, default, onUpdate, autoIncrement := v } : ColumnAttributes))
    (fun _ => ?_) ?_
  · exact reads_loop_word (fun t ht => by rw [columnAttribute, ht]; rfl) (reads_pure _ _)
  refine reads_mark (fun v => ({ nullable, default, onUpdate, autoIncrement, unique := v } : ColumnAttributes))
    (fun _ => ?_) ?_
  · refine reads_loop_word (fun t ht => by rw [columnAttribute, ht]; rfl) ?_
    exact reads_noWord ⟨by simp, hunique.head?_ne (by decide)⟩ (reads_pure _ _)
  refine reads_mark (fun v => ({
      nullable, default, onUpdate, autoIncrement, unique, primaryKey := v } : ColumnAttributes)) (fun _ => ?_) ?_
  · exact reads_loop_word (fun t ht => by rw [columnAttribute, ht]; rfl) (reads_keyword (by simp) (reads_pure _ _))
  refine reads_piece (fun v => ({
      nullable, default, onUpdate, autoIncrement, unique, primaryKey,
      comment := v } : ColumnAttributes)) (fun s _ => ?_) ?_
  · refine reads_loop_word (fun t ht => by rw [columnAttribute, ht]; rfl) ?_
    exact (reads_stringLiteral _ s).bind (reads_pure _ _)
  refine reads_piece (fun v => ({
      nullable, default, onUpdate, autoIncrement, unique, primaryKey, comment,
      charset := v } : ColumnAttributes)) (fun s _ => ?_) ?_
  · refine reads_loop_word (fun t ht => by rw [columnAttribute, ht]; rfl) ?_
    exact reads_keyword (by simp) (reads_name (reads_pure _ _))
  refine reads_piece (fun v => ({
      nullable, default, onUpdate, autoIncrement, unique, primaryKey, comment, charset,
      collation := v } : ColumnAttributes)) (fun s _ => ?_) ?_
  · refine reads_loop_word (fun t ht => by rw [columnAttribute, ht]; rfl) ?_
    exact reads_name (reads_pure _ _)
  refine reads_piece (fun v => ({
      nullable, default, onUpdate, autoIncrement, unique, primaryKey, comment, charset, collation,
      format := v } : ColumnAttributes)) (fun s hs => ?_) ?_
  · refine reads_loop_word (fun t ht => by rw [columnAttribute, ht]; rfl) ?_
    exact reads_identifier (by rw [h.format s hs]; exact reads_pure _ _)
  refine reads_piece (fun v => ({
      nullable, default, onUpdate, autoIncrement, unique, primaryKey, comment, charset, collation,
      format, storage := v } : ColumnAttributes)) (fun s hs => ?_) ?_
  · refine reads_loop_word (fun t ht => by rw [columnAttribute, ht]; rfl) ?_
    exact reads_identifier (by rw [h.storage s hs]; exact reads_pure _ _)
  refine reads_mark (fun v => ({
      nullable, default, onUpdate, autoIncrement, unique, primaryKey, comment, charset, collation,
      format, storage, invisible := v } : ColumnAttributes)) (fun _ => ?_) ?_
  · exact reads_loop_word (fun t ht => by rw [columnAttribute, ht]; rfl) (reads_pure _ _)
  refine reads_piece (fun v => ({
      nullable, default, onUpdate, autoIncrement, unique, primaryKey, comment, charset, collation,
      format, storage, invisible, reference := v } : ColumnAttributes)) (fun r hr => ?_) ?_
  · refine reads_loop_word (fun t ht => by rw [columnAttribute, ht]; rfl) ?_
    exact (reads_reference (h.target_nonempty r hr) hks).bind (reads_pure _ _)
  refine reads_loop_done fun t ht => ?_
  rw [columnAttribute]
  split
  all_goals first | rfl | exact absurd ‹_› (hks.lowerWord?_ne ht (by decide))

theorem reads_columnDefinition {d : ColumnDefinition} (h : d.Canonical) (hks : Follows columnClosers ks) :
    Reads columnDefinition (d.kinds ++ ks) d ks := by
  have hattributes : Follows attributeStarts (d.attributes.pieces.flatten ++ ks) :=
    follows_flatten (follows_attributes d.attributes) (hks.mono (by decide))
  simp only [ColumnDefinition.kinds, List.cons_append, List.append_assoc]
  refine reads_identifier ((reads_typeSpec h.type hattributes).bind ?_)
  exact (reads_columnAttributes h.attributes hks).bind (reads_pure d ks)

end DdlCatalog.Sql.Parser
