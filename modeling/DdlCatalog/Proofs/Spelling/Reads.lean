import DdlCatalog.Sql.Parser
import Mathlib.Data.List.Forall2

/-!
What a parser reads, up to the letter case of words: `Reads p ks a rest` says that on any tokens of the
kinds `ks` the parser gives `a` and leaves tokens of the kinds `rest`. A grammar rule is read token by
token; what may follow it is a condition on `rest`.
-/

namespace DdlCatalog.Sql

/-- The kind with words in lower case. -/
def TokenKind.folded : TokenKind → TokenKind
  | .word s => .word s.toLower
  | k => k

def TokenKind.word? : TokenKind → Option String
  | .word s => some s
  | _ => none

namespace TokenKind

variable {k k' : TokenKind} {w : String}

theorem lowerWord?_eq (k : TokenKind) : k.lowerWord? = k.folded.word? := by
  cases k <;> rfl

theorem isWord_eq (k : TokenKind) (hw : w.toLower = w) : k.isWord w = decide (k.folded = .word w) := by
  cases k <;> simp [isWord, folded, hw, beq_eq_decide]

/-- Only words have letter cases. -/
theorem eq_of_folded (h : k.folded = k') (hk : k'.word? = none) : k = k' := by
  cases k with
  | word s => rw [← h] at hk; cases hk
  | _ => exact h

theorem eq_word_of_folded (h : k.folded = .word w) : ∃ s, k = .word s ∧ s.toLower = w := by
  cases k with
  | word s => cases h; exact ⟨s, rfl, rfl⟩
  | _ => cases h

end TokenKind

/-- The words that the grammar looks for in a place are in lower case. -/
@[simp]
theorem toLower_words :
    "action".toLower = "action" ∧ "after".toLower = "after" ∧ "as".toLower = "as" ∧ "asc".toLower = "asc" ∧
    "btree".toLower = "btree" ∧ "cascade".toLower = "cascade" ∧ "character".toLower = "character" ∧
    "charset".toLower = "charset" ∧ "check".toLower = "check" ∧ "collate".toLower = "collate" ∧
    "column".toLower = "column" ∧ "constraint".toLower = "constraint" ∧ "default".toLower = "default" ∧
    "delete".toLower = "delete" ∧ "desc".toLower = "desc" ∧ "directory".toLower = "directory" ∧
    "drop".toLower = "drop" ∧ "exists".toLower = "exists" ∧ "first".toLower = "first" ∧
    "foreign".toLower = "foreign" ∧ "hash".toLower = "hash" ∧ "if".toLower = "if" ∧ "ignore".toLower = "ignore" ∧
    "index".toLower = "index" ∧ "invisible".toLower = "invisible" ∧ "key".toLower = "key" ∧
    "like".toLower = "like" ∧ "no".toLower = "no" ∧ "not".toLower = "not" ∧ "null".toLower = "null" ∧
    "on".toLower = "on" ∧ "online".toLower = "online" ∧ "parser".toLower = "parser" ∧
    "precision".toLower = "precision" ∧ "primary".toLower = "primary" ∧ "references".toLower = "references" ∧
    "restrict".toLower = "restrict" ∧ "set".toLower = "set" ∧ "storage".toLower = "storage" ∧
    "table".toLower = "table" ∧ "tables".toLower = "tables" ∧ "temporary".toLower = "temporary" ∧
    "to".toLower = "to" ∧ "update".toLower = "update" ∧ "using".toLower = "using" ∧
    "varying".toLower = "varying" ∧ "visible".toLower = "visible" := by
  decide +kernel

/-- Tokens of the given kinds, with words in any letter case. -/
def Spelled (ks : List TokenKind) (ts : Tokens) : Prop :=
  List.Forall₂ (fun k item => ∃ t : Token, item = .ok t ∧ t.kind.folded = k) ks ts

theorem spelled_cons {k : TokenKind} {ks : List TokenKind} {ts : Tokens} (h : Spelled (k :: ks) ts) :
    ∃ t ts', t.kind.folded = k ∧ Spelled ks ts' ∧ ts = .ok t :: ts' := by
  obtain ⟨item, ts', ⟨t, rfl, ht⟩, hts, rfl⟩ := List.forall₂_cons_left_iff.1 h
  exact ⟨t, ts', ht, hts, rfl⟩

theorem spelled_nil {ts : Tokens} (h : Spelled [] ts) : ts = [] := List.forall₂_nil_left_iff.1 h

namespace Parser

variable {α β σ : Type} {p : Parser α} {f : α → Parser β} {a : α} {b : β} {k : TokenKind}
  {ks ks' rest : List TokenKind}

/-- On tokens of the kinds `ks` the parser gives `a` and leaves tokens of the kinds `rest`. -/
def Reads (p : Parser α) (ks : List TokenKind) (a : α) (rest : List TokenKind) : Prop :=
  ∀ ts, Spelled ks ts → ∃ ts', Spelled rest ts' ∧ p.run ts = .ok (a, ts')

theorem reads_pure (a : α) (ks : List TokenKind) : Reads (pure a) ks a ks := fun ts h => ⟨ts, h, rfl⟩

theorem Reads.bind (hp : Reads p ks a ks') (hf : Reads (f a) ks' b rest) : Reads (p >>= f) ks b rest := by
  intro ts h
  obtain ⟨ts', h', hrun⟩ := hp ts h
  rw [run_bind, hrun]
  exact hf ts' h'

/-! ### What may follow -/

/-- The next token, if there is one, is of one of the kinds. -/
def Follows (allowed ks : List TokenKind) : Prop := ∀ k ∈ ks.head?, k ∈ allowed

theorem follows_nil (allowed : List TokenKind) : Follows allowed [] := by
  rintro k hk
  cases hk

theorem follows_cons {allowed : List TokenKind} (h : k ∈ allowed) (ks : List TokenKind) :
    Follows allowed (k :: ks) := by
  rintro k' hk
  cases hk
  exact h

theorem Follows.mono {allowed allowed' : List TokenKind} (h : Follows allowed ks) (hsub : allowed ⊆ allowed') :
    Follows allowed' ks := fun k hk => hsub (h k hk)

theorem Follows.head?_ne {allowed : List TokenKind} (h : Follows allowed ks) (hk : k ∉ allowed) :
    ks.head? ≠ some k := fun he => hk (h k he)

/-- What follows an item of a list or a whole statement, unless the script ends. -/
def closers : List TokenKind := [.comma, .rightParen, .semicolon]

def Closes (ks : List TokenKind) : Prop := Follows closers ks

theorem closes_comma (ks : List TokenKind) : Closes (.comma :: ks) := follows_cons (by decide) ks

theorem closes_rightParen (ks : List TokenKind) : Closes (.rightParen :: ks) := follows_cons (by decide) ks

theorem Closes.head?_ne (h : Closes ks) (hk : k ∉ closers) : ks.head? ≠ some k := Follows.head?_ne h hk

/-! ### Single tokens -/

/-- A token that is looked at has the first of the kinds, and there is none if there are no kinds. -/
theorem reads_peek_bind {f : Option Token → Parser β}
    (h : ∀ t : Option Token, t.map (·.kind.folded) = ks.head? → Reads (f t) ks b rest) :
    Reads (peek >>= f) ks b rest := by
  intro ts hts
  cases ks with
  | nil =>
      obtain rfl := spelled_nil hts
      exact h none rfl [] hts
  | cons k ks =>
      obtain ⟨t, ts', ht, -, rfl⟩ := spelled_cons hts
      exact h (some t) (congrArg some ht) _ hts

theorem reads_next_bind {f : Option Token → Parser β}
    (h : ∀ t : Token, t.kind.folded = k → Reads (f (some t)) ks b rest) :
    Reads (next >>= f) (k :: ks) b rest := by
  intro ts hts
  obtain ⟨t, ts', ht, hts', rfl⟩ := spelled_cons hts
  exact h t ht ts' hts'

/-- The end of the script counts as a token. -/
theorem reads_next_end {f : Option Token → Parser β} (h : Reads (f none) [] b rest) :
    Reads (next >>= f) [] b rest := by
  intro ts hts
  obtain rfl := spelled_nil hts
  exact h [] hts

theorem reads_skip {q : Parser β} (h : Reads q ks b rest) : Reads (next >>= fun _ => q) (k :: ks) b rest :=
  reads_next_bind fun _ _ => h

theorem reads_eat {accept : TokenKind → Bool} (h : ∀ k' : TokenKind, k'.folded = k → accept k' = true) :
    Reads (eat accept) (k :: ks) true ks := by
  apply reads_peek_bind
  rintro (_ | t) ht
  · cases ht
  · simp only [h t.kind (Option.some.inj ht), if_true]
    exact reads_skip (reads_pure true ks)

theorem reads_eat_other {accept : TokenKind → Bool}
    (h : ∀ k' : TokenKind, ks.head? = some k'.folded → accept k' = false) :
    Reads (eat accept) ks false ks := by
  apply reads_peek_bind
  rintro (_ | t) ht
  · exact reads_pure false ks
  · simp only [h t.kind ht.symm, Bool.false_eq_true, if_false]
    exact reads_pure false ks

theorem reads_expect {expected : String} {value? : TokenKind → Option α}
    (h : ∀ k' : TokenKind, k'.folded = k → value? k' = some a) : Reads (expect expected value?) (k :: ks) a ks := by
  apply reads_next_bind
  intro t ht
  simp only [Option.bind_some, h t.kind ht]
  exact reads_pure a ks

section Words

variable {w w' : String} {g : Bool → Parser β} {q : Unit → Parser β}

theorem reads_eatWord (ks : List TokenKind) (hw : w.toLower = w) : Reads (eatWord w) (.word w :: ks) true ks :=
  reads_eat fun k' hk => by rw [TokenKind.isWord_eq k' hw, hk, decide_eq_true_eq]

theorem reads_eatWord_other (h : ks.head? ≠ some (.word w)) (hw : w.toLower = w) : Reads (eatWord w) ks false ks :=
  reads_eat_other fun k' hk => by
    rw [TokenKind.isWord_eq k' hw, decide_eq_false_iff_not]
    exact fun he => h (hk.trans (congrArg some he))

/-- An optional word that is there. -/
theorem reads_word (hw : w.toLower = w) (h : Reads (g true) ks b rest) :
    Reads (eatWord w >>= g) (.word w :: ks) b rest :=
  (reads_eatWord ks hw).bind h

/-- An optional word that is left out. -/
theorem reads_noWord (hw : w.toLower = w ∧ ks.head? ≠ some (.word w)) (h : Reads (g false) ks b rest) :
    Reads (eatWord w >>= g) ks b rest :=
  (reads_eatWord_other hw.2 hw.1).bind h

/-- Two words that are both left out. -/
theorem reads_noEither
    (hw : (w.toLower = w ∧ ks.head? ≠ some (.word w)) ∧ w'.toLower = w' ∧ ks.head? ≠ some (.word w'))
    (h : Reads (g false) ks b rest) : Reads (eatEither w w' >>= g) ks b rest := by
  have hboth : Reads (eatEither w w') ks false ks := reads_noWord hw.1 (reads_eatWord_other hw.2.2 hw.2.1)
  exact hboth.bind h

/-- The first of two words. -/
theorem reads_either (hw : w.toLower = w) (h : Reads (g true) ks b rest) :
    Reads (eatEither w w' >>= g) (.word w :: ks) b rest := by
  have hfirst : Reads (eatEither w w') (.word w :: ks) true ks := reads_word hw (reads_pure true ks)
  exact hfirst.bind h

theorem reads_keywordAlone (hw : w.toLower = w) (ks : List TokenKind) : Reads (keyword w) (.word w :: ks) () ks :=
  reads_expect fun k' hk => by rw [TokenKind.isWord_eq k' hw, hk, if_pos (decide_eq_true rfl)]

theorem reads_keyword (hw : w.toLower = w) (h : Reads (q ()) ks b rest) :
    Reads (keyword w >>= q) (.word w :: ks) b rest :=
  (reads_keywordAlone hw ks).bind h

theorem reads_eaten (hk : k.word? = none) (h : Reads (g true) ks b rest) :
    Reads (eatSymbol k >>= g) (k :: ks) b rest :=
  (reads_eat fun k' h' => by rw [TokenKind.eq_of_folded h' hk, beq_self_eq_true]).bind h

theorem reads_notEaten (hk : k.word? = none) (hks : ks.head? ≠ some k) (h : Reads (g false) ks b rest) :
    Reads (eatSymbol k >>= g) ks b rest := by
  refine (reads_eat_other fun k' h' => ?_).bind h
  rw [beq_eq_false_iff_ne]
  rintro rfl
  have hfold : k'.folded = k' := by cases k' <;> first | rfl | cases hk
  exact hks (h'.trans (congrArg some hfold))

theorem reads_symbol (hk : k.word? = none) (h : Reads (q ()) ks b rest) :
    Reads (symbol k >>= q) (k :: ks) b rest := by
  refine (reads_expect (a := ()) fun k' h' => ?_).bind h
  rw [TokenKind.eq_of_folded h' hk, if_pos rfl]

end Words

section Values

variable {s : String} {g : String → Parser β}

theorem reads_quotedIdentifier (s : String) (ks : List TokenKind) : Reads identifier (.quoted s :: ks) s ks :=
  reads_expect fun _ h' => by rw [TokenKind.eq_of_folded h' rfl]

theorem reads_quotedName (s : String) (ks : List TokenKind) : Reads name (.quoted s :: ks) s ks :=
  reads_expect fun _ h' => by rw [TokenKind.eq_of_folded h' rfl]

theorem reads_identifier (h : Reads (g s) ks b rest) : Reads (identifier >>= g) (.quoted s :: ks) b rest :=
  (reads_quotedIdentifier s ks).bind h

theorem reads_name (h : Reads (g s) ks b rest) : Reads (name >>= g) (.quoted s :: ks) b rest :=
  (reads_quotedName s ks).bind h

theorem reads_stringLiteral (ks : List TokenKind) (s : String) : Reads stringLiteral (.string s :: ks) s ks :=
  reads_expect fun _ h' => by rw [TokenKind.eq_of_folded h' rfl]

end Values

/-! ### Words that decide -/

/-- The word that comes first, if a word does. -/
def headWord? (ks : List TokenKind) : Option String := ks.head?.bind TokenKind.word?

theorem reads_peekWord {g : Option String → Parser β} (h : Reads (g (headWord? ks)) ks b rest) :
    Reads (peekWord >>= g) ks b rest := by
  refine Reads.bind (reads_peek_bind fun t ht => ?_) h
  have hword : (t.bind fun t => t.kind.lowerWord?) = headWord? ks := by
    rw [headWord?, ← ht, Option.bind_map]
    exact congrArg (Option.bind t) (funext fun t => t.kind.lowerWord?_eq)
  rw [← hword]
  exact reads_pure _ ks

/-! ### Loops -/

theorem lowerWord?_of_folded {t : Token} {w : String} (h : t.kind.folded = .word w) :
    t.kind.lowerWord? = some w := by
  rw [TokenKind.lowerWord?_eq, h]
  rfl

theorem reads_loop_again {round : σ → Token → Option (Parser (Round σ))} {s s' r : σ}
    (hround : ∀ t : Token, t.kind.folded = k → ∃ q, round s t = some q ∧ Reads q ks (.again s') ks')
    (h : Reads (loop round s') ks' r rest) : Reads (loop round s) (k :: ks) r rest := by
  intro ts hts
  obtain ⟨t, ts', ht, hts', rfl⟩ := spelled_cons hts
  obtain ⟨q, hq, hreads⟩ := hround t ht
  obtain ⟨ts'', hts'', hrun⟩ := hreads ts' hts'
  obtain ⟨ts₃, hts₃, hloop⟩ := h ts'' hts''
  refine ⟨ts₃, hts₃, ?_⟩
  change loopRun round s _ = _
  rw [loopRun]
  simp only [hq]
  split
  · rename_i he; rw [hrun] at he; cases he
  · rename_i he; rw [hrun] at he; cases he
  · rename_i he; rw [hrun] at he; cases he; exact hloop

/-- The same where the round goes by the word that it stands at. -/
theorem reads_loop_word {round : σ → Token → Option (Parser (Round σ))} {w : String} {q : Parser (Round σ)}
    {s s' r : σ} (hround : ∀ t : Token, t.kind.lowerWord? = some w → round s t = some q)
    (hq : Reads q ks (.again s') ks') (h : Reads (loop round s') ks' r rest) :
    Reads (loop round s) (.word w :: ks) r rest :=
  reads_loop_again (fun t ht => ⟨q, hround t (lowerWord?_of_folded ht), hq⟩) h

theorem reads_loop_done {round : σ → Token → Option (Parser (Round σ))} {s : σ}
    (h : ∀ t : Token, ks.head? = some t.kind.folded → round s t = none) : Reads (loop round s) ks s ks := by
  intro ts hts
  cases ks with
  | nil =>
      obtain rfl := spelled_nil hts
      refine ⟨[], hts, ?_⟩
      change loopRun round s _ = _
      rw [loopRun]
  | cons k ks =>
      obtain ⟨t, ts', ht, -, rfl⟩ := spelled_cons hts
      refine ⟨_, hts, ?_⟩
      change loopRun round s _ = _
      rw [loopRun]
      simp only [h t (congrArg some ht.symm)]

theorem Follows.lowerWord?_ne {allowed : List TokenKind} {w : String} (h : Follows allowed ks) {t : Token}
    (ht : ks.head? = some t.kind.folded) (hw : .word w ∉ allowed) : t.kind.lowerWord? ≠ some w := by
  rw [TokenKind.lowerWord?_eq]
  intro he
  cases hk : t.kind.folded with
  | word s =>
      rw [hk] at he
      cases he
      exact hw (hk ▸ h _ ht)
  | _ => rw [hk] at he; cases he

theorem Closes.lowerWord?_eq_none (h : Closes ks) {t : Token} (ht : ks.head? = some t.kind.folded) :
    t.kind.lowerWord? = none := by
  have hk := h _ ht
  simp only [closers, List.mem_cons, List.not_mem_nil, or_false] at hk
  rw [TokenKind.lowerWord?_eq]
  rcases hk with hk | hk | hk
  all_goals rw [hk]; rfl

/-- A clause that may be left out, read into a part of the state that is unset before. -/
theorem reads_piece {τ : Type} {round : σ → Token → Option (Parser (Round σ))} {r : σ} (state : Option τ → σ)
    {o : Option τ} {clause : τ → List TokenKind}
    (hclause : ∀ x, o = some x → Reads (loop round (state (some x))) ks r rest →
      Reads (loop round (state none)) (clause x ++ ks) r rest)
    (h : Reads (loop round (state o)) ks r rest) :
    Reads (loop round (state none)) (o.elim [] clause ++ ks) r rest := by
  cases o with
  | none => exact h
  | some x => exact hclause x rfl h

/-- The same for a clause that is there or not. -/
theorem reads_mark {round : σ → Token → Option (Parser (Round σ))} {r : σ} (state : Bool → σ) {on : Bool}
    {clause : List TokenKind}
    (hclause : on = true → Reads (loop round (state true)) ks r rest →
      Reads (loop round (state false)) (clause ++ ks) r rest)
    (h : Reads (loop round (state on)) ks r rest) :
    Reads (loop round (state false)) ((if on then clause else []) ++ ks) r rest := by
  cases on with
  | false => exact h
  | true => exact hclause rfl h

/-! ### Lists -/

variable {item : Parser α} {spell : α → List TokenKind}

/-- Items with commas between them. -/
def joined (spell : α → List TokenKind) : List α → List TokenKind
  | [] => []
  | x :: xs => spell x ++ xs.flatMap fun y => .comma :: spell y

def inParens (ks : List TokenKind) : List TokenKind := .leftParen :: (ks ++ [.rightParen])

theorem reads_commaList {xs : List α} (hne : xs ≠ [])
    (hitem : ∀ x ∈ xs, ∀ ks, Closes ks → Reads item (spell x ++ ks) x ks) (hks : Closes ks)
    (hend : ks.head? ≠ some .comma) : Reads (commaList item) (joined spell xs ++ ks) xs ks := by
  have hnext (ys : List α) : Closes ((ys.flatMap fun y => .comma :: spell y) ++ ks) := by
    cases ys with
    | nil => exact hks
    | cons y ys => exact closes_comma _
  have hmore (done ys : List α) (hys : ∀ y ∈ ys, y ∈ xs) : Reads (loop (fun done t =>
      if t.kind = .comma then some (do return .again ((← item) :: done)) else none) done)
      ((ys.flatMap fun y => .comma :: spell y) ++ ks) (ys.reverse ++ done) ks := by
    induction ys generalizing done with
    | nil =>
        refine reads_loop_done fun t ht => if_neg fun hc => hend ?_
        rw [List.flatMap_nil, List.nil_append] at ht
        rw [ht, hc]
        rfl
    | cons y ys ih =>
        rw [List.flatMap_cons, List.append_assoc, List.cons_append, List.reverse_cons, List.append_assoc]
        refine reads_loop_again (fun t ht => ⟨_, if_pos (TokenKind.eq_of_folded ht rfl), ?_⟩)
          (ih (y :: done) fun z hz => hys z (List.mem_cons_of_mem _ hz))
        exact (hitem y (hys y List.mem_cons_self) _ (hnext ys)).bind (reads_pure _ _)
  cases xs with
  | nil => exact absurd rfl hne
  | cons x xs =>
      rw [joined, List.append_assoc]
      refine (hitem x List.mem_cons_self _ (hnext xs)).bind ?_
      refine (hmore [] xs fun y hy => List.mem_cons_of_mem _ hy).bind ?_
      rw [List.append_nil, List.reverse_reverse]
      exact reads_pure _ ks

theorem reads_parenthesized {xs : List α} (hne : xs ≠ [])
    (hitem : ∀ x ∈ xs, ∀ ks, Closes ks → Reads item (spell x ++ ks) x ks) (ks : List TokenKind) :
    Reads (parenthesized item) (inParens (joined spell xs) ++ ks) xs ks := by
  rw [inParens, List.cons_append, List.append_assoc]
  refine reads_symbol rfl ((reads_commaList hne hitem (closes_rightParen ks) (by simp)).bind ?_)
  exact reads_symbol rfl (reads_pure xs ks)

theorem reads_tableName (s : String) (h : ks.head? ≠ some .dot) :
    Reads tableName (.quoted s :: ks) s ks := by
  refine reads_identifier (reads_loop_done fun t ht => if_neg fun hdot => h ?_)
  rw [ht, hdot]
  rfl

end Parser

end DdlCatalog.Sql
