import DdlCatalog.Proofs.Spelling.Canonical
import DdlCatalog.Sql.Grammar.Key

/-!
Keys, indexes and references read from their canonical spelling.
-/

namespace DdlCatalog.Sql.Parser

variable {ks : List TokenKind}

/-! ### Key parts -/

theorem reads_sortOrder (o : Option SortOrder) (hks : Closes ks) :
    Reads sortOrder ((ifSome o fun o => [.word o.name]) ++ ks) o ks := by
  cases o with
  | none =>
      have hnone (w : String) : ks.head? ≠ some (.word w) := hks.head?_ne (by simp [closers])
      exact reads_noWord ⟨by simp, hnone _⟩ (reads_noWord ⟨by simp, hnone _⟩ (reads_pure none ks))
  | some o =>
      cases o with
      | ascending => exact reads_word (by simp) (reads_pure _ ks)
      | descending =>
          change Reads sortOrder (.word "desc" :: ks) _ _
          exact reads_noWord (by simp) (reads_word (by simp) (reads_pure _ ks))

theorem reads_startLength (n : UInt32) (ks : List TokenKind) :
    Reads startLength (.integer (Int64.ofNat n.toNat) :: ks) n ks := by
  refine reads_expect fun k' h => ?_
  rw [TokenKind.eq_of_folded h rfl]
  have hn := n.toNat_lt
  have hint : (Int64.ofNat n.toNat).toInt = n.toNat := Int64.toInt_ofNat_of_lt (by omega)
  have hrange : 0 ≤ (n.toNat : Int) ∧ (n.toNat : Int) < UInt32.size :=
    ⟨Int.natCast_nonneg _, by exact_mod_cast hn⟩
  simp only [hint, if_pos hrange, Int.toNat_natCast, UInt32.ofNat_toNat]

theorem reads_partLength (n : Option UInt32) (h : n = none → ks.head? ≠ some .leftParen) :
    Reads partLength (ifSome n KeyPart.lengthKinds ++ ks) n ks := by
  cases n with
  | none => exact reads_notEaten rfl (h rfl) (reads_pure none ks)
  | some n => exact reads_eaten rfl ((reads_startLength n _).bind (reads_symbol rfl (reads_pure _ ks)))

theorem reads_keyPart (p : KeyPart) (hks : Closes ks) : Reads keyPart (p.kinds ++ ks) p ks := by
  have horder : (ifSome p.order (fun o => [.word o.name]) ++ ks).head? ≠ some .leftParen := by
    cases p.order with
    | none => exact (hks.head?_ne (by decide))
    | some o => simp [ifSome]
  rw [KeyPart.kinds, List.cons_append, List.append_assoc]
  exact reads_identifier ((reads_partLength p.length fun _ => horder).bind
    ((reads_sortOrder p.order hks).bind (reads_pure p ks)))

theorem reads_keyParts {parts : List KeyPart} (hne : parts ≠ []) (ks : List TokenKind) :
    Reads keyParts (partKinds parts ++ ks) parts ks :=
  reads_parenthesized hne (fun p _ _ hks => reads_keyPart p hks) ks

/-! ### Indexes -/

theorem reads_indexMethod (m : IndexMethod) (ks : List TokenKind) : Reads indexMethod (.word m.name :: ks) m ks := by
  cases m with
  | btree => exact reads_word (by simp) (reads_pure _ ks)
  | hash =>
      change Reads indexMethod (.word "hash" :: ks) _ _
      exact reads_noWord (by simp) (reads_word (by simp) (reads_pure _ ks))

theorem reads_usingMethod (m : Option IndexMethod) (h : m = none → ks.head? ≠ some (.word "using")) :
    Reads usingMethod (usingKinds m ++ ks) m ks := by
  cases m with
  | none => exact reads_noWord ⟨by simp, h rfl⟩ (reads_pure none ks)
  | some m => exact reads_word (by simp) ((reads_indexMethod m ks).bind (reads_pure _ ks))

theorem reads_indexName? (name : Option String)
    (h : name = none → ks.head? = some .leftParen ∨ ks.head? = some (.word "using")) :
    Reads indexName? (ifSome name (fun s => [.quoted s]) ++ ks) name ks := by
  refine reads_peek_bind fun t ht => ?_
  cases name with
  | some s =>
      obtain ⟨t, rfl, hkind⟩ := Option.map_eq_some_iff.1 ht
      simp only [Option.map_some, TokenKind.eq_of_folded hkind rfl]
      exact reads_identifier (reads_pure _ ks)
  | none =>
      have hnone : Reads (pure none : Parser (Option String)) ks none ks := reads_pure none ks
      rcases h rfl with hparen | husing
      · obtain ⟨t, rfl, hkind⟩ := Option.map_eq_some_iff.1 (ht.trans hparen)
        simp only [Option.map_some, TokenKind.eq_of_folded hkind rfl]
        exact hnone
      · obtain ⟨t, rfl, hkind⟩ := Option.map_eq_some_iff.1 (ht.trans husing)
        obtain ⟨s, hs, hlower⟩ := TokenKind.eq_word_of_folded hkind
        simp only [Option.map_some, hs, hlower, beq_self_eq_true, if_true]
        exact hnone

/-- The value of an integer that has no sign. -/
def unsigned? : TokenKind → Option UInt64
  | .integer n => if 0 ≤ n then some n.toUInt64 else none
  | _ => none

theorem unsigned?_numberKind {n : UInt64} (h : Small n) : unsigned? (numberKind n) = some n := by
  have hint : (Int64.ofNat n.toNat).toInt = n.toNat := Int64.toInt_ofNat_of_lt h
  have hnonneg : 0 ≤ Int64.ofNat n.toNat := by
    rw [Int64.le_iff_toInt_le, hint]
    exact Int.natCast_nonneg _
  simp only [numberKind, unsigned?, if_pos hnonneg, Int64.toUInt64_ofNat', UInt64.ofNat_toNat]

theorem reads_unsignedInteger {n : UInt64} (h : Small n) (ks : List TokenKind) :
    Reads unsignedInteger (numberKind n :: ks) n ks := by
  refine reads_expect fun k' hk => ?_
  rw [TokenKind.eq_of_folded hk rfl]
  exact unsigned?_numberKind h

theorem reads_indexOptions {i : Index} (h : i.options.Canonical) (hks : Closes ks) :
    Reads (loop indexOption { i with options := {} }) (i.options.kinds ++ ks) i ks := by
  simp only [IndexOptions.kinds, IndexOptions.pieces, List.flatten_cons, List.flatten_nil, List.append_nil,
    List.append_assoc]
  refine reads_piece (fun v => { i with options := { keyBlockSize := v } }) (fun n hn => ?_) ?_
  · refine reads_loop_word (fun t ht => by rw [indexOption, ht]; rfl) ?_
    exact reads_eaten rfl ((reads_unsignedInteger (h n hn) _).bind (reads_pure _ _))
  refine reads_piece (fun v => { i with options := { keyBlockSize := i.options.keyBlockSize, parserPlugin := v } })
    (fun s _ => ?_) ?_
  · refine reads_loop_word (fun t ht => by rw [indexOption, ht]; rfl) ?_
    exact reads_keyword (by simp) (reads_identifier (reads_pure _ _))
  refine reads_piece (fun v => { i with options := { i.options with comment := v, visible := none } })
    (fun s _ => ?_) ?_
  · refine reads_loop_word (fun t ht => by rw [indexOption, ht]; rfl) ?_
    exact (reads_stringLiteral _ s).bind (reads_pure _ _)
  refine reads_piece (fun v => { i with options := { i.options with visible := v } }) (fun b _ => ?_) ?_
  · cases b with
    | false =>
        exact reads_loop_word (fun t ht => by rw [indexOption, ht]; rfl) (reads_pure _ _)
    | true =>
        exact reads_loop_word (fun t ht => by rw [indexOption, ht]; rfl) (reads_pure _ _)
  refine reads_loop_done fun t ht => ?_
  rw [indexOption, hks.lowerWord?_eq_none ht]

theorem reads_indexTail {i : Index} (h : i.Canonical) (hks : Closes ks) :
    Reads (indexTail i.name i.method) (partKinds i.parts ++ (i.options.kinds ++ ks)) i ks :=
  (reads_keyParts h.parts_nonempty _).bind (reads_indexOptions h.options hks)

theorem head?_partKinds (parts : List KeyPart) (ks : List TokenKind) :
    (partKinds parts ++ ks).head? = some .leftParen := rfl

theorem head?_partKinds_ne {k : TokenKind} (parts : List KeyPart) (ks : List TokenKind)
    (hk : k ≠ .leftParen) : (partKinds parts ++ ks).head? ≠ some k :=
  fun h => hk (Option.some.inj h).symm

/-- An index that has no symbol of a constraint to go by. -/
theorem reads_index {i : Index} (h : i.Canonical) (hks : Closes ks) : Reads (index none) (i.kinds ++ ks) i ks := by
  have hname : i.name = none → (usingKinds i.method ++ (partKinds i.parts ++ (i.options.kinds ++ ks))).head? =
      some .leftParen ∨ (usingKinds i.method ++ (partKinds i.parts ++ (i.options.kinds ++ ks))).head? =
        some (.word "using") := by
    intro _
    cases i.method with
    | none => exact .inl (head?_partKinds _ _)
    | some m => exact .inr rfl
  simp only [Index.kinds, List.append_assoc]
  refine (reads_indexName? i.name hname).bind ?_
  refine (reads_usingMethod i.method fun _ => head?_partKinds_ne _ _ (by simp)).bind ?_
  rw [Option.or_none]
  exact reads_indexTail h hks

/-! ### References -/

theorem reads_matchRule (m : MatchRule) (ks : List TokenKind) : Reads matchRule (.word m.name :: ks) m ks := by
  refine reads_next_bind fun t ht => ?_
  simp only [Option.bind_some, lowerWord?_of_folded ht]
  cases m <;> exact reads_pure _ ks

theorem reads_referentialAction (a : ReferentialAction) (ks : List TokenKind) :
    Reads referentialAction (a.kinds ++ ks) a ks := by
  cases a with
  | restrict => exact reads_word (by simp) (reads_pure _ ks)
  | cascade =>
      change Reads referentialAction (.word "cascade" :: ks) _ _
      exact reads_noWord (by simp) (reads_word (by simp) (reads_pure _ ks))
  | setNull =>
      change Reads referentialAction (.word "set" :: .word "null" :: ks) _ _
      refine reads_noWord (by simp) (reads_noWord (by simp) ?_)
      exact reads_word (by simp) (reads_word (by simp) (reads_pure _ ks))
  | setDefault =>
      change Reads referentialAction (.word "set" :: .word "default" :: ks) _ _
      refine reads_noWord (by simp) (reads_noWord (by simp) ?_)
      exact reads_word (by simp) (reads_noWord (by simp) (reads_keyword (by simp) (reads_pure _ ks)))
  | noAction =>
      change Reads referentialAction (.word "no" :: .word "action" :: ks) _ _
      refine reads_noWord (by simp) (reads_noWord (by simp) (reads_noWord (by simp) ?_))
      exact reads_word (by simp) (reads_keyword (by simp) (reads_pure _ ks))

/-- What follows a column or its reference: the end of an item, or where the column goes. -/
def columnClosers : List TokenKind := [.word "first", .word "after", .comma, .rightParen, .semicolon]

theorem reads_referenceClauses (r : Reference) (hks : Follows columnClosers ks) :
    Reads (loop referenceClause { table := r.table, parts := r.parts }) (r.pieces.flatten ++ ks) r ks := by
  simp only [Reference.pieces, List.flatten_cons, List.flatten_nil, List.append_nil, List.append_assoc]
  refine reads_piece (fun v => ({ table := r.table, parts := r.parts, matchRule := v } : Reference)) (fun m _ => ?_) ?_
  · refine reads_loop_word (fun t ht => by rw [referenceClause, ht]; rfl) ?_
    exact (reads_matchRule m _).bind (reads_pure _ _)
  refine reads_piece (fun v => { r with onDelete := v, onUpdate := none }) (fun a _ => ?_) ?_
  · refine reads_loop_word (fun t ht => by rw [referenceClause, ht]; rfl) ?_
    exact reads_word (by simp) ((reads_referentialAction a _).bind (reads_pure _ _))
  refine reads_piece (fun v => { r with onUpdate := v }) (fun a _ => ?_) ?_
  · refine reads_loop_word (fun t ht => by rw [referenceClause, ht]; rfl) ?_
    exact reads_noWord (by simp) (reads_keyword (by simp) ((reads_referentialAction a _).bind (reads_pure _ _)))
  refine reads_loop_done fun t ht => ?_
  have hk := hks _ ht
  simp only [columnClosers, List.mem_cons, List.not_mem_nil, or_false] at hk
  rw [referenceClause, TokenKind.lowerWord?_eq]
  rcases hk with hk | hk | hk | hk | hk
  all_goals rw [hk]; rfl

theorem reads_reference {r : Reference} (h : r.parts ≠ []) (hks : Follows columnClosers ks) :
    Reads reference (r.kinds ++ ks) r ks := by
  simp only [Reference.kinds, List.cons_append, List.append_assoc]
  exact (reads_tableName r.table (head?_partKinds_ne _ _ (by simp))).bind
    ((reads_keyParts h _).bind (reads_referenceClauses r hks))

theorem reads_foreignKey {k : ForeignKey} (h : k.Canonical) (hks : Closes ks) :
    Reads (foreignKey k.symbol) (k.kinds ++ ks) k ks := by
  simp only [ForeignKey.kinds, List.cons_append, List.append_assoc]
  refine (reads_indexName? k.name fun _ => .inl (head?_partKinds _ _)).bind ?_
  refine (reads_keyParts h.parts_nonempty _).bind (reads_keyword (by simp) ?_)
  exact (reads_reference h.target_nonempty (hks.mono (by decide))).bind (reads_pure k ks)

end DdlCatalog.Sql.Parser
