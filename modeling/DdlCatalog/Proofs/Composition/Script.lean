import DdlCatalog.Catalog.Script
import DdlCatalog.Proofs.Composition.Lexing
import DdlCatalog.Proofs.Composition.Statement
import DdlCatalog.Proofs.Edit

/-!
A script behind another one. The first script is closed, so that a semicolon ends it and the second one is read
on its own, or it lacks the value of its last option, for which the semicolon is taken.
-/

namespace DdlCatalog.Sql

namespace Parser

variable {t t' : Token} {ts ts' us us' : List Token} {ss earlier : List Statement} {p q : Parser (List Statement)}

theorem run_after (ss : List Statement) (p : Parser (List Statement)) (tail : Tokens) :
    (after ss p).run tail = (p.run tail).map (Prod.map (ss ++ ·) id) := by
  rw [after, run_bind]
  cases p.run tail <;> rfl

theorem run_after_nil (p : Parser (List Statement)) (tail : Tokens) : (after [] p).run tail = p.run tail := by
  rw [run_after]
  cases p.run tail <;> rfl

theorem run_after_after {tail tail' : Tokens} (h : q.run tail = (after ss p).run tail') (earlier : List Statement) :
    (after earlier q).run tail = (after (earlier ++ ss) p).run tail' := by
  rw [run_after, h, run_after, run_after]
  cases p.run tail' with
  | error e => rfl
  | ok r => simp [Except.map, Prod.map]

theorem after_ok {tail rest : Tokens} (h : (after earlier p).run tail = .ok (ss, rest)) :
    ∃ more, ss = earlier ++ more ∧ p.run tail = .ok (more, rest) := by
  rw [run_after] at h
  cases hr : p.run tail with
  | error e => rw [hr] at h; cases h
  | ok r => rw [hr] at h; cases h; exact ⟨_, rfl, rfl⟩

/-- A script that starts with a statement gives it and what follows it. -/
theorem statements_statement_eq_ok {tail rest : Tokens} (ht : t.kind ≠ .semicolon)
    (h : statements.run (.ok t :: tail) = .ok (ss, rest)) : ∃ s more rest', ss = s :: more ∧
      (statementTail t).run tail = .ok (s, rest') ∧ afterStatement.run rest' = .ok (more, rest) := by
  rw [statements_statement ht] at h
  obtain ⟨s, rest', hs, h⟩ := run_bind_eq_ok h
  obtain ⟨more, rfl, hmore⟩ := after_ok h
  exact ⟨s, more, rest', rfl, hs, hmore⟩

theorem afterStatement_nil : afterStatement.run [] = .ok ([], []) := statements_nil

theorem afterStatement_semicolon (ht : t.kind = .semicolon) (r : Tokens) :
    afterStatement.run (.ok t :: r) = statements.run r := by
  obtain ⟨k, offset, text, gap⟩ := t
  cases ht
  rfl

theorem afterStatement_other (ht : t.kind ≠ .semicolon) (r : Tokens) :
    ∃ e, afterStatement.run (.ok t :: r) = .error e := by
  obtain ⟨k, offset, text, gap⟩ := t
  cases k <;> first | exact absurd rfl ht | exact ⟨_, rfl⟩

theorem statements_integer {n : Int64} (ht : t.kind = .integer n) (r : Tokens) :
    ∃ e, statements.run (.ok t :: r) = .error e := by
  have hsemicolon : t.kind ≠ .semicolon := by
    rw [ht]
    exact fun h => nomatch h
  refine ⟨unexpected "CREATE, ALTER, DROP, or RENAME" (some t), ?_⟩
  rw [statements_statement hsemicolon, run_bind, statementTail, lowerWord?_of_stops (by rw [ht]; rfl)]
  rfl

/-- The tokens give the statements, and more of them are read behind a semicolon. An integer is no end of them. -/
structure Closed (ts : List Token) (ss : List Statement) : Prop where
  at_end : statements.run (items ts) = .ok (ss, [])
  semicolon : ∀ (t : Token) (tail : Tokens), t.kind = .semicolon →
    statements.run (items ts ++ .ok t :: tail) = (after ss statements).run tail
  integer : ∀ (t : Token) (n : Int64) (tail : Tokens), t.kind = .integer n →
    ∃ e, statements.run (items ts ++ .ok t :: tail) = .error e

/-- The tokens give the statements, but a token that stops is taken for a part of the last one. -/
structure Open (ts : List Token) (ss : List Statement) : Prop where
  at_end : statements.run (items ts) = .ok (ss, [])
  taken : ∀ (t : Token) (tail : Tokens), t.kind.stops = true → Starting tail →
    statements.run (items ts ++ .ok t :: tail) = (after ss afterStatement).run tail

/-- Where the first tokens end, the earlier statements are read, and the other tokens are left. -/
def Precede (earlier : List Statement) (us ts : List Token) : Prop :=
  ∀ tail, Stopping tail → statements.run (items ts ++ tail) = (after earlier statements).run (items us ++ tail)

theorem Precede.at_end (hrun : Precede earlier us ts) (h : statements.run (items us) = .ok (ss, [])) :
    statements.run (items ts) = .ok (earlier ++ ss, []) := by
  have hend := hrun [] stopping_nil
  rw [List.append_nil, List.append_nil, run_after, h] at hend
  exact hend

theorem Closed.behind (h : Closed us ss) (hrun : Precede earlier us ts) : Closed ts (earlier ++ ss) where
  at_end := hrun.at_end h.at_end
  semicolon t tail ht := by
    rw [hrun _ (stopping_cons (by rw [ht]; rfl) tail)]
    exact run_after_after (h.semicolon t tail ht) earlier
  integer t n tail ht := by
    obtain ⟨e, he⟩ := h.integer t n tail ht
    rw [hrun _ (stopping_cons (by rw [ht]; rfl) tail), run_after, he]
    exact ⟨e, rfl⟩

theorem Open.behind (h : Open us ss) (hrun : Precede earlier us ts) : Open ts (earlier ++ ss) where
  at_end := hrun.at_end h.at_end
  taken t tail ht htail := by
    rw [hrun _ (stopping_cons ht tail)]
    exact run_after_after (h.taken t tail ht htail) earlier

theorem closed_nil : Closed [] [] where
  at_end := statements_nil
  semicolon _ tail ht := (statements_semicolon ht tail).trans (run_after_nil statements tail).symm
  integer _ _ tail ht := statements_integer ht tail

theorem precede_semicolon (ht : t.kind = .semicolon) (ts : List Token) : Precede [] ts (t :: ts) := fun _ _ =>
  (statements_semicolon ht _).trans (run_after_nil statements _).symm

/-- A statement up to its end. -/
theorem closed_statement {s : Statement} (ht : t.kind ≠ .semicolon) (h : (statementTail t).Stays ts s []) :
    Closed (t :: ts) [s] := by
  have hrun (tail : Tokens) (htail : Stopping tail) :
      statements.run (items (t :: ts) ++ tail) = (after [s] afterStatement).run tail := by
    rw [items_cons, List.cons_append, statements_statement ht, run_bind, h tail htail]
    rfl
  refine ⟨?_, fun u tail hu => ?_, fun u n tail hu => ?_⟩
  · rw [← List.append_nil (items (t :: ts)), hrun [] stopping_nil, run_after, afterStatement_nil]
    rfl
  · rw [hrun _ (stopping_cons (by rw [hu]; rfl) tail), run_after, run_after, afterStatement_semicolon hu]
  · obtain ⟨e, he⟩ := afterStatement_other (t := u) (by rw [hu]; exact fun h => nomatch h) tail
    rw [hrun _ (stopping_cons (by rw [hu]; rfl) tail), run_after, he]
    exact ⟨e, rfl⟩

/-- A statement that lacks a token. -/
theorem open_statement {s : Statement} (ht : t.kind ≠ .semicolon) (h : (statementTail t).TakesOne ts s) :
    Open (t :: ts) [s] where
  at_end := by
    rw [items_cons, statements_statement ht, run_bind, h.at_end]
    change (after [s] afterStatement).run [] = _
    rw [run_after, afterStatement_nil]
    rfl
  taken u tail hu htail := by
    rw [items_cons, List.cons_append, statements_statement ht, run_bind, h.before u tail hu htail]

theorem precede_statement {s : Statement} (ht : t.kind ≠ .semicolon) {u : Token} (hu : u.kind = .semicolon)
    (h : (statementTail t).Stays ts s (u :: us)) : Precede [s] us (t :: ts) := fun tail htail => by
  rw [items_cons, List.cons_append, statements_statement ht, run_bind, h tail htail]
  change (after [s] afterStatement).run _ = _
  rw [run_after, run_after, items_cons, List.cons_append, afterStatement_semicolon hu]

theorem closed_or_open_behind (h : Closed us' ss ∨ LacksValue us ∧ Open us' ss) (hsuffix : us <:+ ts)
    (hrun : Precede earlier us' ts') : Closed ts' (earlier ++ ss) ∨ LacksValue ts ∧ Open ts' (earlier ++ ss) :=
  h.imp (·.behind hrun) fun ⟨hlacks, hopen⟩ => ⟨hlacks.of_suffix hsuffix, hopen.behind hrun⟩

/-- Scripts that can be read are closed, or they lack the value of an option. -/
theorem closed_or_open (hts : Alike ts ts') {rest : Tokens} (h : statements.run (items ts) = .ok (ss, rest)) :
    Closed ts' ss ∨ LacksValue ts ∧ Open ts' ss := by
  induction hn : ts.length using Nat.strongRecOn generalizing ts ts' ss with
  | _ n ih =>
    cases hts with
    | nil =>
        cases statements_nil.symm.trans h
        exact .inl closed_nil
    | @cons t t' ts ts' ht hts =>
        rw [List.length_cons] at hn
        rw [items_cons] at h
        by_cases hsemicolon : t.kind = .semicolon
        · rw [statements_semicolon hsemicolon] at h
          exact closed_or_open_behind (ih ts.length (by omega) hts h rfl) (List.suffix_cons t ts)
            (precede_semicolon (ht.kind.trans hsemicolon) ts')
        have hsemicolon' : t'.kind ≠ .semicolon := fun he => hsemicolon (ht.kind.symm.trans he)
        obtain ⟨s, more, rest', rfl, hs, hmore⟩ := statements_statement_eq_ok hsemicolon h
        have hsame : statementTail t' = statementTail t := (statementTail_ok hs).2 t' ht.kind
        rcases (loose_statementTail t).on hts s rest' hs with
          ⟨us, us', rfl, hsuffix, hus, hstays⟩ | ⟨hlacks, rfl, htakes⟩
        · rw [← hsame] at hstays
          cases hus with
          | nil =>
              cases afterStatement_nil.symm.trans hmore
              exact .inl (closed_statement hsemicolon' hstays)
          | @cons u u' us us' hu hus =>
              by_cases husemicolon : u.kind = .semicolon
              · rw [items_cons, afterStatement_semicolon husemicolon] at hmore
                have hshorter := hsuffix.length_le
                rw [List.length_cons] at hshorter
                exact closed_or_open_behind (ih us.length (by omega) hus hmore rfl)
                  (((List.suffix_cons u us).trans hsuffix).trans (List.suffix_cons t ts))
                  (precede_statement hsemicolon' (hu.kind.trans husemicolon) hstays)
              · obtain ⟨e, he⟩ := afterStatement_other husemicolon (items us)
                cases he.symm.trans hmore
        · rw [← hsame] at htakes
          cases afterStatement_nil.symm.trans hmore
          exact .inr ⟨hlacks.of_suffix (List.suffix_cons t ts), open_statement hsemicolon' htakes⟩

theorem starting_of_statements {rest : Tokens} (h : statements.run (items us) = .ok (ss, rest)) :
    Starting (items us) := by
  rintro item hitem
  cases us with
  | nil => cases hitem
  | cons u us =>
      cases hitem
      refine ⟨u, rfl, ?_⟩
      by_cases hu : u.kind = .semicolon
      · rw [hu]; rfl
      · obtain ⟨s, more, rest', -, hs, -⟩ := statements_statement_eq_ok hu h
        exact (statementTail_ok hs).1

/-! ### More statements behind a semicolon -/

variable {more : List Statement}

theorem Closed.joined (h : Closed ts ss) (ht : t.kind = .semicolon)
    (hmore : statements.run (items us) = .ok (more, [])) :
    statements.run (items ts ++ .ok t :: items us) = .ok (ss ++ more, []) := by
  rw [h.semicolon t _ ht, run_after, hmore]
  rfl

theorem Open.joined (h : Open ts ss) (ht : t.kind = .semicolon) (hmore : statements.run (items us) = .ok (more, []))
    (hhead : ∀ u ∈ us.head?, u.kind = .semicolon) :
    statements.run (items ts ++ .ok t :: items us) = .ok (ss ++ more, []) := by
  rw [h.taken t _ (by rw [ht]; rfl) (starting_of_statements hmore), run_after]
  cases us with
  | nil =>
      cases statements_nil.symm.trans hmore
      rw [items_nil, afterStatement_nil]
      rfl
  | cons u us =>
      have hu := hhead u rfl
      rw [items_cons, statements_semicolon hu] at hmore
      rw [items_cons, afterStatement_semicolon hu, hmore]
      rfl

/-- A statement does not follow another one without a semicolon. -/
theorem Open.not_joined (h : Open ts ss) (ht : t.kind = .semicolon) (hmore : statements.run (items us) = .ok (more, []))
    {u : Token} (hu : u ∈ us.head?) (hkind : u.kind ≠ .semicolon) :
    ∃ e, statements.run (items ts ++ .ok t :: items us) = .error e := by
  obtain ⟨rest, rfl⟩ := List.head?_eq_some_iff.1 hu
  obtain ⟨e, he⟩ := afterStatement_other hkind (items rest)
  rw [h.taken t _ (by rw [ht]; rfl) (starting_of_statements hmore), run_after, items_cons, he]
  exact ⟨e, rfl⟩

/-- The end of a script is the end of its statements. -/
theorem statements_rest {tail rest : Tokens} (h : statements.run tail = .ok (ss, rest)) : rest = [] := by
  induction hn : tail.length using Nat.strongRecOn generalizing tail ss with
  | _ n ih =>
    match tail, hn with
    | [], _ =>
        cases statements_nil.symm.trans h
        rfl
    | .error e :: tail, _ =>
        rw [statements, run_bind, loop_run_error] at h
        cases h
    | .ok t :: tail, hn =>
        rw [List.length_cons] at hn
        by_cases ht : t.kind = .semicolon
        · rw [statements_semicolon ht] at h
          exact ih tail.length (by omega) h rfl
        · obtain ⟨s, more, rest₁, rfl, hs, hmore⟩ := statements_statement_eq_ok ht h
          obtain ⟨_, rest₂, he, hmore⟩ := run_bind_eq_ok hmore
          have h₁ := (statementTail t).length_run hs
          have h₂ := endOfStatement.length_run he
          exact ih rest₂.length (by omega) hmore rfl

end Parser

open DdlCatalog.Sql.Parser

/-! ### Texts -/

variable {script following : String} {ss more : List Statement}

theorem parse_eq_ok_iff : parse script = .ok ss ↔
    ∃ ts, tokens script = items ts ∧ statements.run (items ts) = .ok (ss, []) := by
  rw [parse]
  constructor
  · intro h
    cases hr : statements.run (tokens script) with
    | error e => rw [hr] at h; cases h
    | ok r =>
        obtain ⟨ss, rest⟩ := r
        rw [hr] at h
        cases h
        obtain rfl := statements_rest hr
        obtain ⟨ts, hts⟩ := statements.leaves_run hr
        rw [List.append_nil] at hts
        exact ⟨ts, hts, by rw [items, ← hts, hr]⟩
  · rintro ⟨ts, hts, hr⟩
    rw [hts, hr]
    rfl

/-- The script is read as the same with a zero behind it, which is then the value of its last option. -/
def AwaitsValue (script : String) : Prop := parse (script ++ "\n0") = parse script

/-- The last words of the script are the name of an option that is read and dropped, without a value. -/
def EndsInOption (script : String) : Prop := ∃ ts, tokens script = items ts ∧ LacksValue ts

/-- The script starts with a statement, and not with a semicolon or its end. -/
def StartsWithStatement (script : String) : Prop := ∃ t rest, tokens script = .ok t :: rest ∧ t.kind ≠ .semicolon

theorem startsWithStatement_iff {us us' : List Token} (h : tokens script = items us) (hus : Alike us us') :
    StartsWithStatement script ↔ ∃ u ∈ us'.head?, u.kind ≠ .semicolon := by
  rw [StartsWithStatement, h]
  cases hus with
  | nil => simp
  | cons hu hus => simp [hu.kind]

/-- A semicolon and a second script behind a script: the first script is read up to its end or it takes the
semicolon for the value of an option, and then the second one has to bring another semicolon. -/
theorem parse_joined (h : parse script = .ok ss) (hfollowing : parse following = .ok more) :
    (AwaitsValue script → EndsInOption script) ∧
    (¬ (AwaitsValue script ∧ StartsWithStatement following) →
      parse (script ++ "\n;" ++ following) = .ok (ss ++ more)) ∧
    (AwaitsValue script ∧ StartsWithStatement following → ∃ e, parse (script ++ "\n;" ++ following) = .error e) := by
  obtain ⟨ts, hts, hrun⟩ := parse_eq_ok_iff.1 h
  obtain ⟨us, hus, hrun'⟩ := parse_eq_ok_iff.1 hfollowing
  obtain ⟨zero, hzero, hprobe⟩ := tokens_zero hts
  obtain ⟨t, us', ht, halike, hjoined⟩ := tokens_semicolon hts hus
  have hmore : statements.run (items us') = .ok (more, []) := by
    rcases closed_or_open halike hrun' with hclosed | ⟨-, hopen⟩
    · exact hclosed.at_end
    · exact hopen.at_end
  rcases closed_or_open (Alike.refl ts) hrun with hclosed | ⟨hlacks, hopen⟩
  · have hnot : ¬ AwaitsValue script := by
      obtain ⟨e, he⟩ := hclosed.integer zero 0 [] hzero
      rw [AwaitsValue, h, parse, hprobe, he]
      rintro ⟨⟩
    refine ⟨fun hawaits => absurd hawaits hnot, fun _ => ?_, fun hbad => absurd hbad.1 hnot⟩
    rw [parse, hjoined, hclosed.joined ht hmore]
    rfl
  · have hawaits : AwaitsValue script := by
      have hzero' : zero.kind.stops = true := by rw [hzero]; rfl
      rw [AwaitsValue, h, parse, hprobe, hopen.taken zero [] hzero' (by rintro item ⟨⟩), run_after, afterStatement_nil]
      simp [Except.map]
    refine ⟨fun _ => ⟨ts, hts, hlacks⟩, fun hnot => ?_, fun hbad => ?_⟩
    · have hhead : ∀ u ∈ us'.head?, u.kind = .semicolon := by
        intro u hu
        by_contra hkind
        exact hnot ⟨hawaits, (startsWithStatement_iff hus halike).2 ⟨u, hu, hkind⟩⟩
      rw [parse, hjoined, hopen.joined ht hmore hhead]
      rfl
    · obtain ⟨u, hu, hkind⟩ := (startsWithStatement_iff hus halike).1 hbad.2
      obtain ⟨e, he⟩ := hopen.not_joined ht hmore hu hkind
      exact ⟨e, by rw [parse, hjoined, he]; rfl⟩

end DdlCatalog.Sql
