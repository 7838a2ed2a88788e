import DdlCatalog.Proofs.Composition.Script
import DdlCatalog.Proofs.Parsed.Lookahead
import DdlCatalog.Proofs.Parsed.Yields

/-!
Options of a table with commas among them. Which options are read does not depend on where commas stand, but not every
comma is accepted: an option that is kept has to stand somewhere before it, and no other comma right behind it.
-/

namespace DdlCatalog.Sql

open DdlCatalog.Sql.Parser

/-- The tokens of an option, of which nothing is kept if it is one that is dropped. Such an option has a value, which
is not looked at. -/
structure OptionTokens where
  first : Token
  more : List Token
  option : Option TableOption
  reads : ∃ q, tableOption? first = some q ∧ q.run (items more) = .ok (option, [])
  valued : first.kind.ignored = true → more ≠ [] ∧ ∀ e, more = [e] → e.kind ≠ .equals

/-- What stands behind the columns and keys of a table. -/
inductive Part
  | comma (t : Token) (h : t.kind = .comma)
  | option (o : OptionTokens)

namespace Part

def tokens : Part → List Token
  | comma t _ => [t]
  | option o => o.first :: o.more

/-- The option that is kept, if there is one. -/
def option? : Part → Option TableOption
  | comma _ _ => none
  | option o => o.option

def isComma : Part → Prop
  | comma _ _ => True
  | option _ => False

end Part

/-- Before every comma there is an option that is kept, and no comma right behind it. -/
def Separated (parts : List Part) : Prop := ∀ before t h after, parts = before ++ .comma t h :: after →
  (∃ p ∈ before, p.option?.isSome = true) ∧ ∀ p ∈ after.head?, ¬ p.isComma

/-- The same behind other parts, of which one was kept or not. -/
def SeparatedAfter (kept : Bool) (parts : List Part) : Prop :=
  ∀ before t h after, parts = before ++ .comma t h :: after →
    (kept = true ∨ ∃ p ∈ before, p.option?.isSome = true) ∧ ∀ p ∈ after.head?, ¬ p.isComma

theorem separated_iff (parts : List Part) : Separated parts ↔ SeparatedAfter false parts := by
  simp only [Separated, SeparatedAfter, Bool.false_eq_true, false_or]

variable {kept : Bool} {part : Part} {parts : List Part}

theorem separatedAfter_nil : SeparatedAfter kept [] := by
  rintro before t h after he
  cases (List.append_eq_nil_iff.1 he.symm).2

theorem separatedAfter_cons : SeparatedAfter kept (part :: parts) ↔
    (part.isComma → kept = true ∧ ∀ p ∈ parts.head?, ¬ p.isComma) ∧
      SeparatedAfter (kept || part.option?.isSome) parts := by
  constructor
  · intro hall
    constructor
    · intro hcomma
      cases part with
      | option o => cases hcomma
      | comma t h =>
          obtain ⟨hkept, hhead⟩ := hall [] t h parts rfl
          exact ⟨by simpa using hkept, hhead⟩
    · rintro before t h after rfl
      obtain ⟨hkept, hhead⟩ := hall (part :: before) t h after rfl
      exact ⟨by simpa [or_assoc] using hkept, hhead⟩
  · rintro ⟨hcomma, hall⟩ (_ | ⟨p, before⟩) t h after he
    · obtain ⟨rfl, rfl⟩ := List.cons.inj he
      obtain ⟨hkept, hhead⟩ := hcomma trivial
      exact ⟨.inl hkept, hhead⟩
    · obtain ⟨rfl, rfl⟩ := List.cons.inj he
      obtain ⟨hkept, hhead⟩ := hall before t h after rfl
      exact ⟨by simpa [or_assoc] using hkept, hhead⟩

/-! ### One option -/

namespace Parser

variable {t : Token} {ts us : List Token} {q : Parser (Option TableOption)} {o : Option TableOption}

theorem tableOption?_ignored (h : t.kind.ignored = true) : tableOption? t = some ignoredTail := by
  rw [TokenKind.ignored] at h
  rw [tableOption?]
  split at h
  · rename_i hw
    rw [hw]
    rfl
  · rename_i hw
    rw [hw]
    rfl
  · rename_i hw
    rw [hw]
    rfl
  · cases h

theorem run_ignoredTail (hne : ts ≠ []) (hvalue : ∀ e, ts = [e] → e.kind ≠ .equals)
    (hrun : ignoredTail.run (items ts) = .ok (o, [])) (tail : Tokens) :
    ignoredTail.run (items ts ++ tail) = .ok (o, tail) := by
  obtain ⟨u, ts, rfl⟩ := List.exists_cons_of_ne_nil hne
  by_cases hu : u.kind = .equals
  · cases ts with
    | nil => exact absurd hu (hvalue u rfl)
    | cons v ts =>
        rw [items_cons, ignoredTail_equals hu] at hrun
        cases ts with
        | cons w ts => cases hrun
        | nil =>
            cases hrun
            exact ignoredTail_equals hu _
  · rw [items_cons, ignoredTail_other hu] at hrun
    cases ts with
    | cons w ts => cases hrun
    | nil =>
        cases hrun
        exact ignoredTail_other hu tail

/-- The name of a table space, where no storage is named behind it. -/
theorem run_tablespace (hus : ∀ u ∈ us.head?, u.kind.isWord "storage" = false) {s : String}
    (hrun : tablespace.run (items ts) = .ok (s, [])) : tablespace.run (items ts ++ items us) = .ok (s, items us) := by
  obtain ⟨space, rest, hname, hmore⟩ := run_bind_eq_ok hrun
  obtain ⟨t, hts, ht⟩ := expect_run_eq_ok_iff.1 hname
  obtain ⟨first, ts, rfl⟩ := List.exists_cons_of_ne_nil (l := ts) (by rintro rfl; cases hts)
  rw [items_cons] at hts
  obtain ⟨hfirst, rfl⟩ := List.cons.inj hts
  cases hfirst
  have hspace (tail : Tokens) : tablespace.run (.ok t :: tail) = _ := run_bind_of_ok (expect_run ht tail)
  rw [items_cons, List.cons_append, hspace]
  cases ts with
  | nil =>
      cases hmore
      cases us with
      | nil => rfl
      | cons u us => exact run_bind_of_ok (eatWord_run_other (hus u rfl) _)
  | cons u ts =>
      cases hu : u.kind.isWord "storage" with
      | false =>
          rw [items_cons, run_bind_of_ok (eatWord_run_other hu _)] at hmore
          cases hmore
      | true =>
          rw [items_cons, run_bind_of_ok (eatWord_run hu _)] at hmore
          rw [items_cons, List.cons_append, run_bind_of_ok (eatWord_run hu _)]
          have hstorage : NoneAhead (identifier >>= fun _ => (pure space : Parser String)) := inferInstance
          obtain ⟨taken, item, hts, hsame⟩ := hstorage.on hmore
          rw [hts, List.append_assoc]
          exact hsame _

theorem run_tablespaceValue (hus : ∀ u ∈ us.head?, u.kind.isWord "storage" = false)
    (hrun : (optionValue tablespace >>= fun s => pure (some (.tablespace s))).run (items ts) = .ok (o, [])) :
    (optionValue tablespace >>= fun s => pure (some (TableOption.tablespace s))).run (items ts ++ items us) =
      .ok (o, items us) := by
  obtain ⟨s, rest, hvalue, ⟨⟩⟩ := run_bind_eq_ok hrun
  refine run_bind_of_ok (?_ : (optionValue tablespace).run _ = .ok (s, items us))
  cases ts with
  | nil => cases hvalue
  | cons t ts =>
      by_cases ht : t.kind = .equals
      · rw [optionValue, items_cons, run_bind_of_ok (eatSymbol_run ht _)] at hvalue
        rw [optionValue, items_cons, List.cons_append, run_bind_of_ok (eatSymbol_run ht _)]
        exact run_tablespace hus hvalue
      · rw [optionValue, items_cons, run_bind_of_ok (eatSymbol_run_other ht _)] at hvalue
        rw [optionValue, items_cons, List.cons_append, run_bind_of_ok (eatSymbol_run_other ht _)]
        rw [← List.cons_append, ← items_cons]
        exact run_tablespace hus hvalue

/-- An option is read in the same way before other tokens as by itself. -/
theorem run_tableOption (h : tableOption? t = some q)
    (hvalue : t.kind.ignored = true → ts ≠ [] ∧ ∀ e, ts = [e] → e.kind ≠ .equals)
    (hrun : q.run (items ts) = .ok (o, [])) (hus : ∀ u ∈ us.head?, u.kind.isWord "storage" = false) :
    q.run (items ts ++ items us) = .ok (o, items us) := by
  cases hignored : t.kind.ignored with
  | true =>
      cases h.symm.trans (tableOption?_ignored hignored)
      exact run_ignoredTail (hvalue hignored).1 (hvalue hignored).2 hrun (items us)
  | false =>
      by_cases hspace : t.kind.lowerWord? = some "tablespace"
      · rw [tableOption?, hspace] at h
        cases h
        exact run_tablespaceValue hus hrun
      · have halone := noneAhead_tableOption h hignored hspace
        obtain ⟨taken, item, hts, hsame⟩ := halone.on hrun
        rw [hts, List.append_assoc]
        exact hsame _

/-! ### Many options -/

theorem lowerWord?_of_isWord {k : TokenKind} {w : String} (h : k.isWord w = true) : k.lowerWord? = some w.toLower := by
  cases k with
  | word s => exact congrArg some (beq_iff_eq.1 h)
  | _ => cases h

theorem not_storage_of_tableOption (h : tableOption? t = some q) : t.kind.isWord "storage" = false := by
  rw [Bool.eq_false_iff]
  intro hstorage
  have hlower : "storage".toLower = "storage" := by simp
  rw [tableOption?, lowerWord?_of_isWord hstorage, hlower] at h
  cases h

theorem optionRound_option {done : List TableOption} (h : tableOption? t = some q) :
    optionRound true done t = some (q >>= fun o => pure (.again (o.toList ++ done))) := by
  have hcomma : t.kind ≠ .comma := by
    intro hc
    rw [tableOption?, hc] at h
    cases h
  rw [optionRound, decide_eq_false hcomma, Bool.and_false, h]
  rfl

end Parser

/-- The tokens are at an end of a statement. -/
def AtEnd (us : List Token) : Prop := ∀ u ∈ us.head?, u.kind = .semicolon

theorem AtEnd.items {us : List Token} (hus : AtEnd us) :
    ∀ item ∈ (items us).head?, ∃ u : Token, item = .ok u ∧ u.kind = .semicolon := by
  cases us with
  | nil => nofun
  | cons u us =>
      rintro item ⟨⟩
      exact ⟨u, rfl, hus u rfl⟩

/-- What stands behind an option is no part of it. -/
theorem not_storage (parts : List Part) {us : List Token} (hus : AtEnd us) :
    ∀ u ∈ (parts.flatMap Part.tokens ++ us).head?, u.kind.isWord "storage" = false := by
  cases parts with
  | nil =>
      intro u hu
      rw [hus u hu]
      rfl
  | cons part parts =>
      cases part with
      | comma t h =>
          rintro u ⟨⟩
          rw [h]
          rfl
      | option o =>
          rintro u ⟨⟩
          obtain ⟨q, hq, -⟩ := o.reads
          exact not_storage_of_tableOption hq

theorem items_parts (part : Part) (parts : List Part) (us : List Token) :
    items ((part :: parts).flatMap Part.tokens ++ us) =
      items part.tokens ++ items (parts.flatMap Part.tokens ++ us) := by
  rw [List.flatMap_cons, List.append_assoc]
  exact List.map_append

namespace Parser

variable {done : List TableOption} {tail : Tokens}

theorem loop_option (o : OptionTokens) (hus : ∀ u ∈ us.head?, u.kind.isWord "storage" = false) :
    (loop (optionRound true) done).run (items (o.first :: o.more) ++ items us) =
      (loop (optionRound true) (o.option.toList ++ done)).run (items us) := by
  obtain ⟨q, hq, hrun⟩ := o.reads
  rw [items_cons, List.cons_append, loop_run_cons (optionRound_option hq)]
  have hround : (q >>= fun o => pure (Round.again (o.toList ++ done))).run (items o.more ++ items us) =
      .ok (.again (o.option.toList ++ done), items us) := run_bind_of_ok (run_tableOption hq o.valued hrun hus)
  exact run_bind_of_ok hround

theorem optionRound_comma (ht : t.kind = .comma) (hdone : done ≠ []) :
    optionRound true done t = some (optionAfterComma done) := by
  rw [optionRound, if_pos (by simp [ht, hdone])]
  rfl

/-- A comma behind an option that was kept, and before one. -/
theorem loop_comma_option (ht : t.kind = .comma) (hdone : done ≠ []) (o : OptionTokens) :
    (loop (optionRound true) done).run (.ok t :: items (o.first :: o.more) ++ tail) =
      (loop (optionRound true) done).run (items (o.first :: o.more) ++ tail) := by
  obtain ⟨q, hq, -⟩ := o.reads
  rw [List.cons_append, loop_run_cons (optionRound_comma ht hdone), items_cons, List.cons_append,
    loop_run_cons (optionRound_option hq), run_bind, optionAfterComma_some hq]
  rfl

theorem tableOption?_comma (h : t.kind = .comma) : tableOption? t = none := by
  rw [tableOption?, h]
  rfl

theorem tableOption?_semicolon (h : t.kind = .semicolon) : tableOption? t = none := by
  rw [tableOption?, h]
  rfl

/-- A comma that no option follows is taken. -/
theorem loop_comma_end (ht : t.kind = .comma) (hdone : done ≠ [])
    (htail : ∀ item ∈ tail.head?, ∃ u : Token, item = .ok u ∧ tableOption? u = none) :
    (loop (optionRound true) done).run (.ok t :: tail) = .ok (done, tail) := by
  rw [loop_run_cons (optionRound_comma ht hdone)]
  exact run_bind_of_ok (optionAfterComma_none htail)

theorem optionRound_semicolon (ht : t.kind = .semicolon) : optionRound true done t = none := by
  have hcomma : t.kind ≠ .comma := by
    rw [ht]
    nofun
  rw [optionRound, decide_eq_false hcomma, Bool.and_false, tableOption?_semicolon ht]
  rfl

/-- Before any option is kept only options are taken. -/
theorem optionRound_none (h : tableOption? t = none) : optionRound true [] t = none := by
  rw [optionRound, h]
  rfl

/-- Options are read to their end, or up to a comma that should not be there, which is left. -/
def ReadParts (us : List Token) (parts : List Part) (done : List TableOption) : Prop :=
  (SeparatedAfter (!done.isEmpty) parts ∧
    (loop (optionRound true) done).run (items (parts.flatMap Part.tokens ++ us)) =
      .ok ((parts.filterMap Part.option?).reverse ++ done, items us)) ∨
  (¬ SeparatedAfter (!done.isEmpty) parts ∧ ∃ found t rest, t.kind = .comma ∧
    (loop (optionRound true) done).run (items (parts.flatMap Part.tokens ++ us)) = .ok (found, .ok t :: rest))

theorem readParts_nil (hus : AtEnd us) (done : List TableOption) : ReadParts us [] done := by
  refine .inl ⟨separatedAfter_nil, loop_run_none fun item hitem => ?_⟩
  obtain ⟨u, rfl, hu⟩ := hus.items item hitem
  exact ⟨u, rfl, optionRound_semicolon hu⟩

/-- A part that may stand where it does and after which reading goes on as if it had not been there, but for the
option it gives. -/
theorem readParts_cons {part : Part} {parts : List Part} {kept : List TableOption}
    (hkept : kept = part.option?.toList ++ done)
    (hparts : SeparatedAfter (!done.isEmpty) (part :: parts) ↔ SeparatedAfter (!kept.isEmpty) parts)
    (hrun : (loop (optionRound true) done).run (items ((part :: parts).flatMap Part.tokens ++ us)) =
      (loop (optionRound true) kept).run (items (parts.flatMap Part.tokens ++ us)))
    (h : ReadParts us parts kept) : ReadParts us (part :: parts) done := by
  have hfound : ((part :: parts).filterMap Part.option?).reverse ++ done =
      (parts.filterMap Part.option?).reverse ++ kept := by
    rw [hkept]
    cases ho : part.option? <;> simp [ho]
  rw [ReadParts, hparts, hfound]
  refine h.imp (And.imp_right hrun.trans) (And.imp_right ?_)
  rintro ⟨found, t, rest, ht, hstop⟩
  exact ⟨found, t, rest, ht, hrun.trans hstop⟩

theorem readParts_option {parts : List Part} (hus : AtEnd us) (o : OptionTokens)
    (h : ReadParts us parts (o.option.toList ++ done)) : ReadParts us (.option o :: parts) done := by
  refine readParts_cons rfl ?_ ?_ h
  · have hkept : (!(o.option.toList ++ done).isEmpty) = (!done.isEmpty || o.option.isSome) := by
      cases o.option <;> simp
    change _ ↔ SeparatedAfter (!(o.option.toList ++ done).isEmpty) parts
    rw [separatedAfter_cons, hkept]
    exact and_iff_right False.elim
  · rw [items_parts]
    exact loop_option o (not_storage parts hus)

/-- A comma before any option that is kept. -/
theorem readParts_comma_first (ht : t.kind = .comma) (parts : List Part) : ReadParts us (.comma t ht :: parts) [] := by
  refine .inr ⟨fun hparts => ?_, [], t, _, ht, loop_run_none ?_⟩
  · cases ((separatedAfter_cons.1 hparts).1 trivial).1
  · rintro item ⟨⟩
    exact ⟨t, rfl, optionRound_none (tableOption?_comma ht)⟩

theorem readParts_comma_last (hus : AtEnd us) (ht : t.kind = .comma) (hdone : done ≠ []) :
    ReadParts us [.comma t ht] done := by
  refine .inl ⟨?_, loop_comma_end ht hdone fun item hitem => ?_⟩
  · rw [separatedAfter_cons]
    exact ⟨fun _ => ⟨by simpa using hdone, by simp⟩, separatedAfter_nil⟩
  · obtain ⟨u, rfl, hu⟩ := hus.items item hitem
    exact ⟨u, rfl, tableOption?_semicolon hu⟩

theorem readParts_comma_comma {u : Token} (ht : t.kind = .comma) (hu : u.kind = .comma) (hdone : done ≠ [])
    (parts : List Part) : ReadParts us (.comma t ht :: .comma u hu :: parts) done := by
  refine .inr ⟨fun hparts => ?_, done, u, _, hu, loop_comma_end ht hdone ?_⟩
  · exact ((separatedAfter_cons.1 hparts).1 trivial).2 _ rfl trivial
  · rintro item ⟨⟩
    exact ⟨u, rfl, tableOption?_comma hu⟩

theorem readParts_comma_option {o : OptionTokens} {parts : List Part} (ht : t.kind = .comma) (hdone : done ≠ [])
    (h : ReadParts us (.option o :: parts) done) : ReadParts us (.comma t ht :: .option o :: parts) done := by
  refine readParts_cons rfl ?_ ?_ h
  · rw [separatedAfter_cons, Part.option?, Option.isSome_none, Bool.or_false]
    exact and_iff_right fun _ => ⟨by simpa using hdone, by rintro p ⟨⟩; exact id⟩
  · rw [items_parts, items_parts]
    exact loop_comma_option ht hdone o

theorem loop_parts (parts : List Part) (done : List TableOption) (hus : AtEnd us) : ReadParts us parts done := by
  induction parts generalizing done with
  | nil => exact readParts_nil hus done
  | cons part parts ih =>
      cases part with
      | option o => exact readParts_option hus o (ih _)
      | comma t ht =>
          by_cases hdone : done = []
          · subst hdone
            exact readParts_comma_first ht parts
          rcases parts with _ | ⟨⟨u, hu⟩ | o, parts⟩
          · exact readParts_comma_last hus ht hdone
          · exact readParts_comma_comma ht hu hdone parts
          · exact readParts_comma_option ht hdone (ih done)

/-! ### The table before its options -/

/-- A table that the parser reads ends with a parenthesis and its options: behind the parenthesis any options are read
for it. -/
def OptionsLast (p : Parser Statement) : Prop := ∀ ts d rest, p.run ts = .ok (.createTable d, rest) →
  ∃ taken close us, ts = taken ++ .ok close :: us ∧ close.kind = .rightParen ∧
    (tableOptions true).run us = .ok (d.options, rest) ∧
    ∀ tail, p.run (taken ++ .ok close :: tail) =
      (tableOptions true >>= fun options => pure (.createTable { d with options := options })).run tail

variable {α : Type} {p p' : Parser Statement} {f : α → Parser Statement}

theorem optionsLast_bind {p : Parser α} [hp : OneAhead p] (hf : ∀ a, OptionsLast (f a)) : OptionsLast (p >>= f) := by
  intro ts d rest h
  obtain ⟨a, rest', hrun, hnext⟩ := run_bind_eq_ok h
  obtain ⟨more, close, us, rfl, hclose, hoptions, hmore⟩ := hf a rest' d rest hnext
  obtain ⟨taken, hts, htaken⟩ := (hp.on ts).leaving hrun
  exact ⟨taken, close, us, hts, hclose, hoptions, fun tail => (run_bind_of_ok (htaken tail)).trans (hmore tail)⟩

theorem optionsLast_ite {c : Prop} [Decidable c] (hp : OptionsLast p) (hp' : OptionsLast p') :
    OptionsLast (if c then p else p') := by
  split
  · exact hp
  · exact hp'

/-- A parser of other statements. -/
theorem optionsLast_of_other (h : ∀ ts, Yields ts p fun s => ∀ d, s ≠ .createTable d) : OptionsLast p :=
  fun ts d rest hrun => absurd rfl (h ts ts (List.suffix_refl ts) _ rest hrun d)

theorem optionsLast_tableBody (table : String) (temporary ifNotExists : Bool) :
    OptionsLast (tableBody table temporary ifNotExists) := by
  unfold tableBody
  refine optionsLast_bind fun entries ts d rest h => ?_
  obtain ⟨_, us, hclose, hbody⟩ := run_bind_eq_ok h
  obtain ⟨close, rfl, hvalue⟩ := expect_run_eq_ok_iff.1 hclose
  have hkind : close.kind = .rightParen := by
    by_contra hne
    rw [if_neg hne] at hvalue
    cases hvalue
  dsimp only at hbody
  split at hbody
  · cases hbody
  · rename_i hany
    obtain ⟨options, rest', hoptions, ⟨⟩⟩ := run_bind_eq_ok hbody
    refine ⟨[], close, us, rfl, hkind, hoptions, fun tail => ?_⟩
    have hsymbol : (symbol .rightParen).run (.ok close :: tail) = .ok ((), tail) := expect_run hvalue tail
    rw [List.nil_append, run_bind_of_ok hsymbol]
    dsimp only
    rw [if_neg hany]

theorem optionsLast_createTableTail (temporary : Bool) : OptionsLast (createTableTail temporary) := by
  unfold createTableTail
  refine optionsLast_bind fun ifNotExists => optionsLast_bind fun table => optionsLast_bind fun _ => ?_
  refine optionsLast_ite ?_ (optionsLast_bind fun _ => optionsLast_bind fun _ => ?_)
  · exact optionsLast_of_other fun ts => yields_seq fun like => yields_pure (by simp)
  · refine optionsLast_ite ?_ (optionsLast_tableBody _ _ _)
    exact optionsLast_of_other fun ts => yields_seq fun like => yields_seq fun _ => yields_pure (by simp)

theorem optionsLast_createIndexTail (kind : IndexKind) : OptionsLast (createIndexTail kind) :=
  optionsLast_of_other fun ts => yields_seq fun _ => yields_seq fun _ => yields_seq fun _ => yields_seq fun _ =>
    yields_seq fun _ => yields_seq fun _ => yields_pure (by simp)

theorem optionsLast_createTail : OptionsLast createTail := by
  unfold createTail
  refine optionsLast_bind fun temporary => optionsLast_ite ?_ ?_
  · exact optionsLast_bind fun _ => optionsLast_createTableTail true
  refine optionsLast_bind fun word => ?_
  split
  · exact optionsLast_bind fun _ => optionsLast_createIndexTail _
  · exact optionsLast_bind fun _ => optionsLast_bind fun _ => optionsLast_createIndexTail _
  · exact optionsLast_bind fun _ => optionsLast_bind fun _ => optionsLast_createIndexTail _
  · exact optionsLast_bind fun _ => optionsLast_bind fun _ => optionsLast_createIndexTail _
  · exact optionsLast_bind fun _ => optionsLast_createTableTail false

theorem yields_dropStatementTail (ts : Tokens) :
    Yields ts dropStatementTail fun s => ∀ d : TableDefinition, s ≠ .createTable d := by
  have htables : Yields ts dropTablesTail fun s => ∀ d : TableDefinition, s ≠ .createTable d :=
    yields_seq fun _ => yields_seq fun _ => yields_seq fun _ => yields_seq fun _ => yields_pure (by simp)
  refine yields_seq fun _ => yields_ite htables (yields_seq fun _ => yields_ite ?_ htables)
  exact yields_seq fun _ => yields_seq fun _ => yields_seq fun _ => yields_seq fun _ => yields_pure (by simp)

theorem optionsLast_statementTail (t : Token) : OptionsLast (statementTail t) := by
  unfold statementTail
  split
  · exact optionsLast_createTail
  · exact optionsLast_of_other fun ts => yields_seq fun _ => yields_seq fun _ => yields_seq fun _ =>
      yields_seq fun _ => yields_seq fun _ => yields_pure (by simp)
  · exact optionsLast_of_other yields_dropStatementTail
  · exact optionsLast_of_other fun ts => yields_seq fun _ => yields_seq fun _ => yields_pure (by simp)
  · exact optionsLast_of_other fun ts => yields_fail _

/-! ### Options that are dropped -/

/-- Nothing that was read is lost. -/
theorem yields_options (script : Tokens) (done : List TableOption) :
    Yields script (loop (optionRound true) done) fun found => done <:+ found := by
  refine yields_loop (fun found t q hfound hq => ?_) (List.suffix_refl done)
  have hmore (p : Parser (Option TableOption)) :
      Yields script (p >>= fun o => pure (Round.again (o.toList ++ found))) fun step => done <:+ step.state :=
    yields_seq fun o => yields_pure (hfound.trans (List.suffix_append ..))
  rw [optionRound] at hq
  split at hq
  · cases hq
    refine yields_seq fun next => ?_
    split
    · exact yields_pure hfound
    · exact yields_seq fun _ => hmore _
  · obtain ⟨option, -, rfl⟩ := Option.map_eq_some_iff.1 hq
    exact hmore option

theorem yields_kept (h : tableOption? t = some q) (hkept : t.kind.ignored = false) (script : Tokens) :
    Yields script q fun o => o ≠ none := by
  have hvalue {α : Type} {p : Parser α} {f : α → TableOption} :
      Yields script (p >>= fun a => pure (some (f a))) fun o => o ≠ none :=
    yields_seq fun a => yields_pure (by simp)
  rw [tableOption?] at h
  split at h
  case h_1 ht | h_2 ht | h_3 ht =>
    rw [TokenKind.ignored, ht] at hkept
    cases hkept
  all_goals cases h
  all_goals first
    | exact hvalue
    | exact yields_seq fun _ => hvalue
    | exact yields_seq fun _ => yields_ite hvalue (yields_seq fun _ => hvalue)

/-- An option that is dropped, with its value behind it. -/
def droppedOption (t : Token) (ht : t.kind.ignored = true) (more : List Token)
    (hrun : ignoredTail.run (items more) = .ok (none, [])) (hvalue : more ≠ [] ∧ ∀ e, more = [e] → e.kind ≠ .equals) :
    OptionTokens :=
  ⟨t, more, none, ⟨ignoredTail, tableOption?_ignored ht, hrun⟩, fun _ => hvalue⟩

/-- The rest of an option that is dropped, which does not lack its value, and what follows it. -/
theorem ignoredTail_split {rest : Tokens} (hne : ts ≠ []) (hlast : ∀ e, ts = [e] → e.kind ≠ .equals)
    (hrun : ignoredTail.run (items ts) = .ok (o, rest)) : ∃ more us, ts = more ++ us ∧ rest = items us ∧
      ignoredTail.run (items more) = .ok (none, []) ∧ more ≠ [] ∧ ∀ e, more = [e] → e.kind ≠ .equals := by
  obtain ⟨u, ts, rfl⟩ := List.exists_cons_of_ne_nil hne
  by_cases hu : u.kind = .equals
  · obtain ⟨v, ts, rfl⟩ := List.exists_cons_of_ne_nil (l := ts) (by rintro rfl; exact hlast u rfl hu)
    rw [items_cons, ignoredTail_equals hu] at hrun
    cases hrun
    exact ⟨[u, v], ts, rfl, rfl, ignoredTail_equals hu _, by simp, by simp⟩
  · rw [items_cons, ignoredTail_other hu] at hrun
    cases hrun
    refine ⟨[u], ts, rfl, rfl, ignoredTail_other hu _, by simp, ?_⟩
    rintro e ⟨⟩
    exact hu

/-- Options that give nothing are all dropped. -/
theorem exists_dropped {us : List Token} (hlast : ∀ t ∈ us.getLast?, t.kind = .rightParen)
    (h : (loop (optionRound true) []).run (items us) = .ok ([], [])) :
    ∃ parts : List Part, parts.flatMap Part.tokens = us ∧ ∀ p ∈ parts, ¬ p.isComma ∧ p.option? = none := by
  induction hn : us.length using Nat.strongRecOn generalizing us with
  | _ n ih =>
    rcases us with _ | ⟨t, us⟩
    · exact ⟨[], rfl, by simp⟩
    cases hq : tableOption? t with
    | none =>
        have hstop : (loop (optionRound true) []).run (items (t :: us)) = .ok ([], items (t :: us)) := by
          refine loop_run_none ?_
          rintro item ⟨⟩
          exact ⟨t, rfl, optionRound_none hq⟩
        cases hstop.symm.trans h
    | some q =>
        rw [items_cons, loop_run_cons (optionRound_option hq)] at h
        obtain ⟨step, rest, hstep, hmore⟩ := run_bind_eq_ok h
        obtain ⟨o, rest', hrun, ⟨⟩⟩ := run_bind_eq_ok hstep
        obtain rfl : o = none := by
          have hsuffix := yields_options rest _ rest (List.suffix_refl rest) _ _ hmore
          cases o with
          | none => rfl
          | some o => cases List.suffix_nil.1 hsuffix
        have hignored : t.kind.ignored = true := by
          rw [← Bool.not_eq_false]
          exact fun hkept => yields_kept hq hkept _ _ (List.suffix_refl _) _ _ hrun rfl
        cases hq.symm.trans (tableOption?_ignored hignored)
        have hne : us ≠ [] := by
          rintro rfl
          have ht := hlast t rfl
          rw [ht] at hignored
          cases hignored
        have hvalue : ∀ e, us = [e] → e.kind ≠ .equals := by
          rintro e rfl he
          cases he.symm.trans (hlast e rfl)
        obtain ⟨more, us, rfl, rfl, halone, hmoreNe, hmoreValue⟩ := ignoredTail_split hne hvalue hrun
        have hlast' : ∀ u ∈ us.getLast?, u.kind = .rightParen := by
          intro u hu
          have hsame : u ∈ (t :: more ++ us).getLast? := List.mem_getLast?_append_of_mem_getLast? hu
          exact hlast u hsame
        have hshorter : us.length < n := by
          rw [← hn, List.length_cons, List.length_append]
          omega
        obtain ⟨parts, rfl, hparts⟩ := ih us.length hshorter hlast' hmore rfl
        refine ⟨.option (droppedOption t hignored more halone ⟨hmoreNe, hmoreValue⟩) :: parts, rfl, ?_⟩
        intro p hp
        rcases List.mem_cons.1 hp with rfl | hp
        · exact ⟨id, rfl⟩
        · exact hparts p hp

end Parser

/-! ### Whole statements -/

theorem Parser.afterStatement_end {us : List Token} (hus : AtEnd us) :
    afterStatement.run (items us) = statements.run (items us) := by
  cases us with
  | nil => exact afterStatement_nil.trans statements_nil.symm
  | cons u us =>
      rw [items_cons, afterStatement_semicolon (hus u rfl), statements_semicolon (hus u rfl)]

/-- The tokens are a CREATE TABLE without options that are kept, and end with a parenthesis. -/
structure TableHead (head : List Token) (d : TableDefinition) : Prop where
  read : ∃ t ts, head = t :: ts ∧ (statementTail t).run (items ts) = .ok (.createTable d, [])
  no_options : d.options = []
  closed : ∃ t ∈ head.getLast?, t.kind = .rightParen

variable {head : List Token} {d : TableDefinition}

/-- Behind the parenthesis that closes a table its options are read. -/
theorem TableHead.run_append (h : TableHead head d) (ts : List Token) :
    ∃ dropped : List Part, (∀ p ∈ dropped, ¬ p.isComma ∧ p.option? = none) ∧
      statements.run (items (head ++ ts)) =
        (tableOptions true >>= fun options =>
          after [.createTable { d with options := options }] afterStatement).run
            (items (dropped.flatMap Part.tokens ++ ts)) := by
  obtain ⟨t, hs, rfl, hread⟩ := h.read
  obtain ⟨taken, close, us, htaken, -, hoptions, hmore⟩ := optionsLast_statementTail t _ d [] hread
  obtain ⟨before, behind, rfl, rfl, hbehind⟩ := List.map_eq_append_iff.1 htaken
  obtain ⟨c, us, rfl, hc, rfl⟩ := List.map_eq_cons_iff.1 hbehind
  cases hc
  have hnone : (loop (optionRound true) []).run (items us) = .ok ([], []) := by
    obtain ⟨found, rest, hfound, he⟩ := run_bind_eq_ok hoptions
    obtain ⟨hreverse, rfl⟩ := Prod.mk.inj (Except.ok.inj he)
    rw [h.no_options, List.reverse_eq_nil_iff] at hreverse
    rw [hreverse] at hfound
    exact hfound
  have hlast : ∀ u ∈ us.getLast?, u.kind = .rightParen := by
    intro u hu
    obtain ⟨last, hlast, hkind⟩ := h.closed
    have hsame : u ∈ (t :: (before ++ [close]) ++ us).getLast? := List.mem_getLast?_append_of_mem_getLast? hu
    rw [List.cons_append, List.append_assoc] at hsame
    rw [Option.mem_unique hsame hlast, hkind]
  obtain ⟨dropped, rfl, hdropped⟩ := exists_dropped hlast hnone
  refine ⟨dropped, hdropped, ?_⟩
  have hsemicolon : t.kind ≠ .semicolon := by
    intro ht
    rw [statementTail, ht] at hread
    cases hread
  have hitems : items (before ++ close :: dropped.flatMap Part.tokens ++ ts) =
      before.map .ok ++ .ok close :: items (dropped.flatMap Part.tokens ++ ts) := by
    simp [items]
  rw [List.cons_append, items_cons, statements_statement hsemicolon, run_bind, hitems, hmore, run_bind, run_bind]
  cases (tableOptions true).run (items (dropped.flatMap Part.tokens ++ ts)) <;> rfl

theorem separated_dropped {dropped : List Part} (h : ∀ p ∈ dropped, ¬ p.isComma ∧ p.option? = none)
    (parts : List Part) :
    (Separated (dropped ++ parts) ↔ Separated parts) ∧
      (dropped ++ parts).filterMap Part.option? = parts.filterMap Part.option? := by
  induction dropped with
  | nil => exact ⟨Iff.rfl, rfl⟩
  | cons p dropped ih =>
      obtain ⟨hcomma, hnone⟩ := h p List.mem_cons_self
      obtain ⟨hseparated, hkept⟩ := ih fun p hp => h p (List.mem_cons_of_mem _ hp)
      constructor
      · rw [← hseparated, List.cons_append, separated_iff, separatedAfter_cons, hnone, separated_iff]
        exact and_iff_right fun hc => absurd hc hcomma
      · rw [List.cons_append, List.filterMap_cons_none hnone, hkept]

/-- Commas among the options of a table do not change which options are read, and neither do options that are dropped.
The statement is refused just when a comma stands before all options that are kept, or right before another one: a
comma behind an option that is kept is accepted also at the end, and one behind dropped options alone is not. -/
theorem parse_options_separated {script : String} {parts : List Part} {us : List Token} (hhead : TableHead head d)
    (hus : AtEnd us) (hscript : tokens script = items (head ++ parts.flatMap Part.tokens ++ us)) :
    (Separated parts → parse script = (statements.run (items us)).map fun found =>
        .createTable { d with options := parts.filterMap Part.option? } :: found.1) ∧
      (¬ Separated parts → ∃ e, parse script = .error e) := by
  obtain ⟨dropped, hdropped, hrun⟩ := hhead.run_append (parts.flatMap Part.tokens ++ us)
  obtain ⟨hseparated, hkept⟩ := separated_dropped hdropped parts
  rw [← List.append_assoc, ← List.append_assoc, ← List.flatMap_append] at hrun
  rw [← hseparated, separated_iff, parse, hscript, hrun, ← hkept]
  rcases loop_parts (dropped ++ parts) [] hus with ⟨hparts, hloop⟩ | ⟨hparts, found, t, rest, ht, hloop⟩
  · refine ⟨fun _ => ?_, fun hnot => absurd hparts hnot⟩
    rw [List.append_nil] at hloop
    rw [run_bind_of_ok (run_bind_of_ok hloop), List.reverse_reverse, run_after, afterStatement_end hus]
    cases statements.run (items us) <;> rfl
  · refine ⟨fun hsep => absurd hsep hparts, fun _ => ?_⟩
    obtain ⟨e, he⟩ := afterStatement_other (t := t) (by simp [ht]) rest
    refine ⟨e, ?_⟩
    rw [run_bind_of_ok (run_bind_of_ok hloop), run_after, he]
    rfl

/-- The tokens of "create table t (a int)". -/
def smallHead : List Token :=
  [⟨.word "create", 0, "create".toList, []⟩, ⟨.word "table", 7, "table".toList, [' ']⟩, ⟨.word "t", 13, ['t'], [' ']⟩,
    ⟨.leftParen, 15, ['('], [' ']⟩, ⟨.word "a", 16, ['a'], []⟩, ⟨.word "int", 18, "int".toList, [' ']⟩,
    ⟨.rightParen, 21, [')'], []⟩]

def smallTable : TableDefinition where
  table := "t"
  entries := [.column { name := "a", type := { name := .int } }]

theorem tableHead_small : TableHead smallHead smallTable where
  read := ⟨_, _, rfl, by decide +kernel⟩
  no_options := rfl
  closed := ⟨_, rfl, rfl⟩

/-- The option "engine=x". -/
def engineTokens (offset : Nat) : OptionTokens where
  first := ⟨.word "engine", offset, "engine".toList, [' ']⟩
  more := [⟨.equals, offset + 6, ['='], []⟩, ⟨.word "x", offset + 7, ['x'], []⟩]
  option := some (.engine "x")
  reads := by
    have hword : (TokenKind.word "engine").lowerWord? = some "engine" := by decide +kernel
    refine ⟨optionValue name >>= fun s => pure (some (.engine s)), ?_, rfl⟩
    rw [tableOption?, hword]
    rfl
  valued := by
    have hkept : (TokenKind.word "engine").ignored = false := by decide +kernel
    rw [hkept]
    nofun

/-- The option "stats_persistent=1". -/
def statsTokens (offset : Nat) : OptionTokens :=
  droppedOption ⟨.word "stats_persistent", offset, "stats_persistent".toList, [' ']⟩
    (show (TokenKind.word "stats_persistent").ignored = true by decide +kernel)
    [⟨.equals, offset + 16, ['='], []⟩, ⟨.integer 1, offset + 17, ['1'], []⟩] (ignoredTail_equals rfl _) (by simp)

/-- A comma is accepted at the end, and refused behind an option that is dropped. -/
theorem smallTable_options_separated :
    parse "create table t (a int) engine=x stats_persistent=1,;" =
        .ok [.createTable { smallTable with options := [.engine "x"] }] ∧
      ∃ e, parse "create table t (a int) stats_persistent=1, engine=x" = .error e := by
  let comma (offset : Nat) : Part := .comma ⟨.comma, offset, [','], []⟩ rfl
  constructor
  · have hseparated : Separated [.option (engineTokens 23), .option (statsTokens 32), comma 50] := by
      simp [separated_iff, separatedAfter_cons, separatedAfter_nil, Part.isComma, Part.option?, engineTokens, comma]
    let semicolon : Token := ⟨.semicolon, 51, [';'], []⟩
    have hend : AtEnd [semicolon] := by
      rintro u ⟨⟩
      rfl
    have hscript : tokens "create table t (a int) engine=x stats_persistent=1,;" = items (smallHead ++
        [.option (engineTokens 23), .option (statsTokens 32), comma 50].flatMap Part.tokens ++ [semicolon]) := by
      decide +kernel
    have hnothing : statements.run (items [semicolon]) = .ok ([], []) :=
      (statements_semicolon rfl []).trans statements_nil
    rw [(parse_options_separated tableHead_small hend hscript).1 hseparated, hnothing]
    rfl
  · have hseparated : ¬ Separated [.option (statsTokens 23), comma 41, .option (engineTokens 43)] := by
      simp [separated_iff, separatedAfter_cons, Part.isComma, Part.option?, statsTokens, droppedOption, comma]
    have hend : AtEnd [] := nofun
    exact (parse_options_separated tableHead_small hend (by decide +kernel)).2 hseparated

/-- Between the same two options a blank is accepted and a comma is not. -/
theorem smallTable_comma_after_dropped :
    parse "create table t (a int) stats_persistent=1 engine=x" =
        .ok [.createTable { smallTable with options := [.engine "x"] }] ∧
      parse "create table t (a int) stats_persistent=1, engine=x" =
        .error (.unexpectedToken .comma 41 "';' or end of input") ∧
      parse "create table t (a int) engine=x," =
        .ok [.createTable { smallTable with options := [.engine "x"] }] := by
  decide +kernel

end DdlCatalog.Sql
