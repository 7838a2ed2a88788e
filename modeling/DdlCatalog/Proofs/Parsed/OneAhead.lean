import DdlCatalog.Proofs.Composition.Steady
import DdlCatalog.Proofs.Reading.Runs

/-!
One token of lookahead. What a parser gives does not depend on what stands behind the next token; a parser that always
takes a last token does not even look at the next one.
-/

namespace DdlCatalog.Sql.Parser

variable {α β σ : Type} {p q : Parser α} {f : α → Parser β} {ts : Tokens}

/-- Where a token is left, those behind it do not matter. -/
def OneAheadOn (p : Parser α) (ts : Tokens) : Prop :=
  ∀ a item r, p.run ts = .ok (a, item :: r) →
    ∃ taken, ts = taken ++ item :: r ∧ ∀ tail, p.run (taken ++ item :: tail) = .ok (a, item :: tail)

class OneAhead (p : Parser α) : Prop where
  on : ∀ ts, OneAheadOn p ts

/-- The parser takes a token, and those behind the last one that it takes do not matter. -/
class NoneAhead (p : Parser α) : Prop where
  on : ∀ {ts a rest}, p.run ts = .ok (a, rest) →
    ∃ taken item, ts = taken ++ item :: rest ∧ ∀ tail, p.run (taken ++ item :: tail) = .ok (a, tail)

instance (priority := low) NoneAhead.oneAhead [h : NoneAhead p] : OneAhead p where
  on ts a item r hrun := by
    obtain ⟨taken, last, rfl, hsame⟩ := h.on hrun
    exact ⟨taken ++ [last], by simp, fun tail => by simpa using hsame (item :: tail)⟩

/-- Where several tokens are left, those behind any one of them do not matter. -/
theorem OneAheadOn.leaving (hp : OneAheadOn p ts) {a : α} {more r : Tokens} {item : Except LexError Token}
    (h : p.run ts = .ok (a, more ++ item :: r)) :
    ∃ taken, ts = taken ++ item :: r ∧ ∀ tail, p.run (taken ++ item :: tail) = .ok (a, more ++ item :: tail) := by
  cases more with
  | nil => exact hp a item r h
  | cons first more =>
      obtain ⟨taken, rfl, htaken⟩ := hp a first _ h
      refine ⟨taken ++ first :: more, by simp, fun tail => ?_⟩
      rw [List.append_assoc]
      exact htaken _

/-! ### Steps -/

instance oneAhead_pure (a : α) : OneAhead (pure a : Parser α) where
  on ts := by
    rintro b item r ⟨⟩
    exact ⟨[], rfl, fun tail => rfl⟩

instance oneAhead_fail (e : ParseError) : OneAhead (fail e : Parser α) where
  on ts := by rintro b item r ⟨⟩

theorem OneAheadOn.bind (hp : OneAheadOn p ts) (hf : ∀ a rest, p.run ts = .ok (a, rest) → OneAheadOn (f a) rest) :
    OneAheadOn (p >>= f) ts := by
  intro b item r h
  obtain ⟨a, rest, hrun, hnext⟩ := run_bind_eq_ok h
  obtain ⟨more, rfl, hmore⟩ := hf a rest hrun b item r hnext
  obtain ⟨taken, hts, htaken⟩ := hp.leaving hrun
  exact ⟨taken, hts, fun tail => (run_bind_of_ok (htaken tail)).trans (hmore tail)⟩

instance oneAhead_bind [hp : OneAhead p] [hf : ∀ a, OneAhead (f a)] : OneAhead (p >>= f) where
  on ts := (hp.on ts).bind fun a rest _ => (hf a).on rest

instance noneAhead_bind [hp : OneAhead p] [hf : ∀ a, NoneAhead (f a)] : NoneAhead (p >>= f) where
  on {ts b rest} h := by
    obtain ⟨a, rest', hrun, hnext⟩ := run_bind_eq_ok h
    obtain ⟨more, item, rfl, hmore⟩ := (hf a).on hnext
    obtain ⟨taken, hts, htaken⟩ := (hp.on ts).leaving hrun
    exact ⟨taken, item, hts, fun tail => (run_bind_of_ok (htaken tail)).trans (hmore tail)⟩

instance noneAhead_map [hp : NoneAhead p] (g : α → β) : NoneAhead (p >>= fun a => pure (g a)) where
  on {ts b rest} h := by
    obtain ⟨a, rest', hrun, ⟨⟩⟩ := run_bind_eq_ok h
    obtain ⟨taken, item, rfl, hsame⟩ := hp.on hrun
    exact ⟨taken, item, rfl, fun tail => run_bind_of_ok (hsame tail)⟩

instance oneAhead_ite {c : Prop} [Decidable c] [hp : OneAhead p] [hq : OneAhead q] :
    OneAhead (if c then p else q) := by
  split
  · exact hp
  · exact hq

instance noneAhead_ite {c : Prop} [Decidable c] [hp : NoneAhead p] [hq : NoneAhead q] :
    NoneAhead (if c then p else q) := by
  split
  · exact hp
  · exact hq

/-! ### Tokens -/

instance oneAhead_peek : OneAhead peek where
  on ts a item r h := by
    rcases ts with _ | ⟨e | t, ts⟩
    · cases h
    · cases h
    · cases h
      exact ⟨[], rfl, fun tail => rfl⟩

instance oneAhead_next : OneAhead next where
  on ts a item r h := by
    rcases ts with _ | ⟨e | t, ts⟩
    · cases h
    · cases h
    · cases h
      exact ⟨[.ok t], rfl, fun tail => rfl⟩

instance noneAhead_expect (expected : String) (value? : TokenKind → Option α) : NoneAhead (expect expected value?) where
  on h := by
    obtain ⟨t, rfl, ht⟩ := expect_run_eq_ok_iff.1 h
    exact ⟨[], .ok t, rfl, fun tail => expect_run ht tail⟩

/-- A token that is refused or not, and of which nothing else depends. -/
theorem noneAhead_next_bind {f : Option Token → Parser β} (hend : ∀ b rest, (f none).run [] ≠ .ok (b, rest))
    (h : ∀ t, (∃ b, f (some t) = pure b) ∨ ∃ e, f (some t) = fail e) : NoneAhead (next >>= f) where
  on {ts b rest} hrun := by
    rcases ts with _ | ⟨e | t, ts⟩
    · exact absurd hrun (hend b rest)
    · cases hrun
    · rw [run_next_bind] at hrun
      obtain ⟨b', hb⟩ | ⟨e, he⟩ := h t
      · rw [hb] at hrun
        cases hrun
        exact ⟨[], .ok t, rfl, fun tail => by rw [List.nil_append, run_next_bind, hb, run_pure]⟩
      · rw [he] at hrun
        cases hrun

instance oneAhead_eat (accept : TokenKind → Bool) : OneAhead (eat accept) := by
  refine @oneAhead_bind _ _ _ _ oneAhead_peek fun t? => ?_
  cases t? with
  | none => infer_instance
  | some t => infer_instance

instance oneAhead_eatSymbol (k : TokenKind) : OneAhead (eatSymbol k) := oneAhead_eat _

instance oneAhead_eatWord (w : String) : OneAhead (eatWord w) := oneAhead_eat _

instance oneAhead_eatEither (w w' : String) : OneAhead (eatEither w w') := by
  unfold eatEither
  infer_instance

instance noneAhead_symbol (k : TokenKind) : NoneAhead (symbol k) := noneAhead_expect _ _

instance noneAhead_keyword (w : String) : NoneAhead (keyword w) := noneAhead_expect _ _

instance noneAhead_identifier : NoneAhead identifier := noneAhead_expect _ _

instance noneAhead_name : NoneAhead name := noneAhead_expect _ _

instance noneAhead_stringLiteral : NoneAhead stringLiteral := noneAhead_expect _ _

instance noneAhead_unsignedInteger : NoneAhead unsignedInteger := noneAhead_expect _ _

instance noneAhead_startLength : NoneAhead startLength := noneAhead_expect _ _

instance noneAhead_flag : NoneAhead flag := noneAhead_expect _ _

instance oneAhead_peekWord : OneAhead peekWord := by
  unfold peekWord
  infer_instance

/-! ### Loops and lists -/

section Loops

variable {round : σ → Token → Option (Parser (Round σ))}

theorem oneAhead_loop (hround : ∀ s t q, round s t = some q → OneAhead q) (s : σ) : OneAhead (loop round s) where
  on ts := by
    -- Every round takes a token, so that what is left to do is on fewer of them.
    induction hn : ts.length using Nat.strongRecOn generalizing ts s with
    | _ n ih =>
        intro a item r h
        rcases ts with _ | ⟨e | t, ts⟩
        · cases (loop_run_none (by simp)).symm.trans h
        · cases (loop_run_error e ts).symm.trans h
        rw [List.length_cons] at hn
        cases hq : round s t with
        | none =>
            have hstay (tail : Tokens) : (loop round s).run (.ok t :: tail) = .ok (s, .ok t :: tail) :=
              loop_run_none (by rintro item ⟨⟩; exact ⟨t, rfl, hq⟩)
            cases (hstay ts).symm.trans h
            exact ⟨[], rfl, hstay⟩
        | some q =>
            rw [loop_run_cons hq] at h
            have hon : OneAheadOn (q >>= afterRound round) ts := by
              refine ((hround s t q hq).on ts).bind fun step rest hrun => ?_
              have hle := q.length_run hrun
              cases step with
              | stop s' => exact (oneAhead_pure s').on rest
              | again s' => exact ih rest.length (by omega) s' rest rfl
            obtain ⟨taken, rfl, hsame⟩ := hon a item r h
            exact ⟨.ok t :: taken, rfl, fun tail => (loop_run_cons hq _).trans (hsame tail)⟩

end Loops

instance oneAhead_commaList {item : Parser α} [hitem : OneAhead item] : OneAhead (commaList item) := by
  have hmore : OneAhead (loop (commaRound item) []) := by
    refine oneAhead_loop (fun done t q hq => ?_) []
    rw [commaRound] at hq
    split at hq <;> cases hq
    infer_instance
  rw [commaList_eq]
  infer_instance

instance noneAhead_parenthesized {item : Parser α} [OneAhead item] : NoneAhead (parenthesized item) := by
  unfold parenthesized
  infer_instance

instance oneAhead_tableName : OneAhead tableName := by
  have hmore (first : String) : OneAhead (loop (fun _ t =>
      if t.kind = .dot then some (do return .again (← identifier)) else none) first) := by
    refine oneAhead_loop (fun s t q hq => ?_) first
    split at hq <;> cases hq
    infer_instance
  unfold tableName
  infer_instance

theorem balancedRun_noneAhead {depth : Nat} {inner : List Token} {rest : Tokens}
    (h : balancedRun depth ts = .ok (inner, rest)) :
    ∃ taken item, ts = taken ++ item :: rest ∧ ∀ tail, balancedRun depth (taken ++ item :: tail) = .ok (inner, tail) := by
  induction ts generalizing depth inner with
  | nil => cases h
  | cons item ts ih =>
      cases item with
      | error e => cases h
      | ok t =>
          rcases balancedRun_cons depth t.kind with hclosed | ⟨depth', hmore⟩
          · rw [(hclosed t ts rfl).1] at h
            cases h
            exact ⟨[], .ok t, rfl, fun tail => (hclosed t tail rfl).1⟩
          · rw [(hmore t ts rfl).1] at h
            cases hr : balancedRun depth' ts with
            | error e => rw [hr] at h; cases h
            | ok found =>
                rw [hr] at h
                cases h
                obtain ⟨taken, last, rfl, hsame⟩ := ih hr
                refine ⟨.ok t :: taken, last, rfl, fun tail => ?_⟩
                rw [List.cons_append, (hmore t _ rfl).1, hsame]
                rfl

instance noneAhead_balanced : NoneAhead balanced := ⟨balancedRun_noneAhead⟩

end DdlCatalog.Sql.Parser
