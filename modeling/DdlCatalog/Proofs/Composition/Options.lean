import DdlCatalog.Proofs.Composition.Grammar

/-!
Options of a table at the end of a script. The value of an option that is read and dropped is not looked at, so
that the end of the script will do for it, and so will a semicolon.
-/

namespace DdlCatalog.Sql

/-- The name of an option that is read and dropped. -/
def TokenKind.ignored (k : TokenKind) : Bool :=
  match k.lowerWord? with
  | some "stats_persistent" | some "stats_auto_recalc" | some "stats_sample_pages" => true
  | _ => false

/-- The last token is the name of an option that is read and dropped, or the equals sign behind that. -/
def LacksValue (ts : List Token) : Prop :=
  ∃ init t, t.kind.ignored = true ∧ (ts = init ++ [t] ∨ ∃ e : Token, e.kind = .equals ∧ ts = init ++ [t, e])

theorem LacksValue.of_suffix {us ts : List Token} (hsuffix : us <:+ ts) (h : LacksValue us) : LacksValue ts := by
  obtain ⟨pre, rfl⟩ := hsuffix
  obtain ⟨init, t, ht, rfl | ⟨e, he, rfl⟩⟩ := h
  · exact ⟨pre ++ init, t, ht, .inl (List.append_assoc ..).symm⟩
  · exact ⟨pre ++ init, t, ht, .inr ⟨e, he, (List.append_assoc ..).symm⟩⟩

namespace Parser

variable {t t' : Token} {ts ts' : List Token}

/-- The rest of an option that is read and dropped. -/
def ignoredTail : Parser (Option TableOption) := do
  let _ ← eatSymbol .equals
  let _ ← next
  return none

theorem ignoredTail_equals (h : t.kind = .equals) (r : Tokens) :
    ignoredTail.run (.ok t :: r) = (next >>= fun _ => pure none).run r := by
  simp [ignoredTail, eatSymbol, eat, peek, next, run_bind, h]

theorem ignoredTail_other (h : t.kind ≠ .equals) (r : Tokens) : ignoredTail.run (.ok t :: r) = .ok (none, r) := by
  simp [ignoredTail, eatSymbol, eat, peek, next, run_bind, h]

theorem loose_ignoredTail (ht : t.kind.ignored = true) : Loose (fun ts => LacksValue (t :: ts)) ignoredTail where
  on hts := by
    cases hts with
    | nil =>
        rintro a rest ⟨⟩
        refine .inr ⟨⟨[], t, ht, .inl rfl⟩, rfl, rfl, fun u tail hu _ => ignoredTail_other ?_ tail⟩
        rintro he
        rw [he] at hu
        cases hu
    | @cons u u' ts ts' hu hts =>
        intro a rest hrun
        by_cases he : u.kind = .equals
        · have he' : u'.kind = .equals := hu.kind.trans he
          rw [items_cons, ignoredTail_equals he] at hrun
          cases hts with
          | nil =>
              cases hrun
              exact .inr ⟨⟨[], t, ht, .inr ⟨u, he, rfl⟩⟩, rfl, ignoredTail_equals he' [],
                fun v tail _ _ => ignoredTail_equals he' _⟩
          | @cons v v' ts ts' hv hts =>
              cases hrun
              have hsuffix : ts <:+ u :: v :: ts := (List.suffix_cons v ts).trans (List.suffix_cons u _)
              exact .inl ⟨ts, ts', rfl, hsuffix, hts, fun tail _ => ignoredTail_equals he' _⟩
        · rw [items_cons, ignoredTail_other he] at hrun
          cases hrun
          exact .inl ⟨ts, ts', rfl, List.suffix_cons u ts, hts,
            fun tail _ => ignoredTail_other (fun h => he (hu.kind.symm.trans h)) _⟩

theorem loose_tableOption {q : Parser (Option TableOption)} (h : tableOption? t = some q) :
    Loose (fun ts => LacksValue (t :: ts)) q := by
  rw [tableOption?] at h
  split at h
  case h_1 ht | h_2 ht | h_3 ht => cases h; exact loose_ignoredTail (by rw [TokenKind.ignored, ht]; rfl)
  all_goals cases h
  all_goals exact Steady.loose inferInstance

/-! ### Rounds of options -/

variable {commas : Bool} {done : List TableOption}

theorem tableOption?_of_kind (h : t.kind = t'.kind) : tableOption? t = tableOption? t' := by
  simp only [tableOption?, h]

theorem tableOption?_of_stops (h : t.kind.stops = true) : tableOption? t = none := by
  simp only [tableOption?, lowerWord?_of_stops h]

theorem tableOption?_of_starts (h : t.kind.starts = true) : tableOption? t = none := by
  simp only [TokenKind.starts, Bool.or_eq_true, decide_eq_true_eq, List.mem_cons, List.not_mem_nil, or_false] at h
  rcases h with h | h | h | h | h
  · exact tableOption?_of_stops (by rw [h]; rfl)
  all_goals rw [tableOption?, h]; rfl

theorem byKind_optionRound (commas : Bool) : ByKind (optionRound commas) where
  same done t t' h := by simp only [optionRound, h, tableOption?_of_kind h]
  stops done t h := by
    have hcomma : t.kind ≠ .comma := by
      intro hc
      rw [hc] at h
      cases h
    simp [optionRound, hcomma, tableOption?_of_stops h]

theorem optionRound_of_starts (h : t.kind.starts = true) : optionRound commas done t = none := by
  have hcomma : t.kind ≠ .comma := by
    intro hc
    rw [hc] at h
    cases h
  simp [optionRound, hcomma, tableOption?_of_starts h]

/-- The rest of a round that starts with a comma. -/
def optionAfterComma (done : List TableOption) : Parser (Round (List TableOption)) := do
  match (← peek).bind tableOption? with
  | none => return .stop done
  | some option =>
    let _ ← next
    return .again ((← option).toList ++ done)

theorem optionAfterComma_none {tail : Tokens}
    (h : ∀ item ∈ tail.head?, ∃ u : Token, item = .ok u ∧ tableOption? u = none) :
    (optionAfterComma done).run tail = .ok (.stop done, tail) := by
  cases tail with
  | nil => rfl
  | cons item tail =>
      obtain ⟨u, rfl, hu⟩ := h item rfl
      simp [optionAfterComma, peek, run_bind, hu]

theorem optionAfterComma_some {option : Parser (Option TableOption)} (h : tableOption? t = some option) (r : Tokens) :
    (optionAfterComma done).run (.ok t :: r) =
      (option >>= fun o => pure (Round.again (o.toList ++ done))).run r := by
  simp [optionAfterComma, peek, next, run_bind, h]

theorem loose_optionAfterComma : Loose LacksValue (optionAfterComma done) where
  on hts := by
    cases hts with
    | nil =>
        rintro a rest ⟨⟩
        refine .inl ⟨[], [], rfl, List.suffix_refl [], .nil, fun tail htail => ?_⟩
        refine optionAfterComma_none fun item hitem => ?_
        obtain ⟨u, rfl, hu⟩ := htail item hitem
        exact ⟨u, rfl, tableOption?_of_stops hu⟩
    | @cons u u' ts ts' hu hts =>
        cases ho : tableOption? u with
        | none =>
            have hstop (v : Token) (hv : tableOption? v = none) (r : Tokens) :
                (optionAfterComma done).run (.ok v :: r) = .ok (.stop done, .ok v :: r) :=
              optionAfterComma_none (by rintro item ⟨⟩; exact ⟨v, rfl, hv⟩)
            intro a rest hrun
            rw [items_cons, hstop u ho] at hrun
            cases hrun
            exact .inl ⟨u :: ts, u' :: ts', rfl, List.suffix_refl _, .cons hu hts,
              fun tail _ => hstop u' ((tableOption?_of_kind hu.kind).trans ho) _⟩
        | some option =>
            have hloose := (loose_tableOption ho).map (fun _ => id) fun o => Round.again (o.toList ++ done)
            exact (hloose.on hts).cons (optionAfterComma_some ho)
              (optionAfterComma_some ((tableOption?_of_kind hu.kind).trans ho))

/-- What a round reads after the token that it takes first. -/
theorem loose_optionRound {q : Parser (Round (List TableOption))} (h : optionRound commas done t = some q) :
    Loose (fun ts => LacksValue (t :: ts)) q := by
  rw [optionRound] at h
  split at h
  · cases h
    exact loose_optionAfterComma.mono fun ts => LacksValue.of_suffix (List.suffix_cons t ts)
  · obtain ⟨option, ho, rfl⟩ := Option.map_eq_some_iff.1 h
    exact (loose_tableOption ho).map (fun _ => id) fun o => Round.again (o.toList ++ done)

theorem loose_tableOptions (commas : Bool) : Loose LacksValue (tableOptions commas) := by
  have hloop : Loose LacksValue (loop (optionRound commas) []) :=
    loose_loop (byKind_optionRound commas) (fun _ _ => LacksValue.of_suffix)
      (fun _ _ _ _ => optionRound_of_starts) (fun _ _ _ => loose_optionRound) []
  exact hloop.map (fun _ => id) List.reverse

end Parser

end DdlCatalog.Sql
