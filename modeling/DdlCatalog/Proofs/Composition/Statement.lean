import DdlCatalog.Proofs.Composition.Options
import DdlCatalog.Sql.Grammar.Statement

/-!
Statements at the end of a script. One that may end with options of a table may lack the value of its last option.
-/

namespace DdlCatalog.Sql.Parser

-- A rule of many steps is steady by as many instances.
set_option synthInstance.maxSize 512

variable {α β : Type} {p q : Parser α} {f : α → Parser β} {Q : List Token → Prop}

theorem Loose.ite {c : Prop} [Decidable c] (hp : Loose Q p) (hq : Loose Q q) : Loose Q (if c then p else q) := by
  split
  · exact hp
  · exact hq

theorem loose_steady [hp : Steady p p] : Loose LacksValue p := hp.loose

/-- A steady step before the rest of a rule. -/
theorem loose_then [hp : Steady p p] (hf : ∀ a, Loose LacksValue (f a)) : Loose LacksValue (p >>= f) :=
  hp.bind_loose (fun _ _ => LacksValue.of_suffix) hf

/-! ### Tables -/

theorem loose_tableBody (table : String) (temporary ifNotExists : Bool) :
    Loose LacksValue (tableBody table temporary ifNotExists) := by
  unfold tableBody
  refine loose_then fun entries => loose_then fun _ => .ite ?_ ?_
  · exact Steady.loose ⟨fun _ => by rintro b rest ⟨⟩⟩
  · exact (loose_tableOptions true).map (fun _ => id) _

theorem loose_createTableTail (temporary : Bool) : Loose LacksValue (createTableTail temporary) := by
  unfold createTableTail
  refine loose_then fun ifNotExists => loose_then fun table => loose_then fun like => .ite loose_steady ?_
  exact loose_then fun _ => loose_then fun like => .ite loose_steady (loose_tableBody table temporary ifNotExists)

theorem loose_createTail : Loose LacksValue createTail := by
  unfold createTail
  refine loose_then fun temporary => .ite (loose_then fun _ => loose_createTableTail true) ?_
  have htable : Loose LacksValue (keyword "table" >>= fun _ => createTableTail false) :=
    loose_then fun _ => loose_createTableTail false
  refine loose_peekWord_bind htable fun w t t' ts ts' ht hts => ?_
  split
  · exact (steadyOn_next_bind (Steady.on hts)).loose
  · exact (steadyOn_next_bind (Steady.on hts)).loose
  · exact (steadyOn_next_bind (Steady.on hts)).loose
  · exact (steadyOn_next_bind (Steady.on hts)).loose
  · exact htable.on (.cons ht hts)

/-! ### Alterations -/

theorem loose_alterationOptions : Loose LacksValue (tableOptions false >>= fun options =>
    if options.isEmpty then next >>= fun t => fail (unexpected "alter specification" t) >>= fun _ : Unit => pure none
    else pure (some (Alteration.setOptions options))) where
  on hts := by
    refine ((loose_tableOptions false).on hts).bind id (fun _ => LacksValue.of_suffix)
      (fun options us us' _ hus => SteadyOn.loose (Steady.on hus)) ?_
    intro _ options b rest hrun
    split at hrun
    · cases hrun
    · rename_i hsome
      cases hrun
      exact ⟨rfl, fun tail _ => by rw [if_neg hsome]; rfl⟩

theorem loose_alteration? : Loose LacksValue alteration? := by
  unfold alteration?
  refine loose_peekWord_bind loose_alterationOptions fun w t t' ts ts' ht hts => ?_
  simp only [Option.bind_some]
  split
  · rename_i clause hclause
    exact (steadyOn_next_bind ((steady_clauseTail hclause).on hts)).loose
  · exact loose_alterationOptions.on (.cons ht hts)

theorem loose_alterTableTail : Loose LacksValue alterTableTail := by
  unfold alterTableTail
  refine loose_then fun _ => loose_then fun _ => loose_then fun _ => loose_then fun table => ?_
  have hall : Loose LacksValue alterations :=
    (loose_commaList loose_alteration? fun _ _ => LacksValue.of_suffix).map (fun _ => id) _
  exact hall.map (fun _ => id) _

/-! ### Scripts -/

variable {t t' : Token} {ts ts' : List Token} {ss : List Statement} {s : Statement}

theorem loose_statementTail (t : Token) : Loose LacksValue (statementTail t) := by
  unfold statementTail
  split
  · exact loose_createTail
  · exact loose_alterTableTail
  · exact loose_steady
  · exact loose_steady
  · exact Steady.loose (steady_fail _ _)

theorem statementTail_ok {tail rest : Tokens} (h : (statementTail t).run tail = .ok (s, rest)) :
    t.kind.starts = true ∧ ∀ t' : Token, t'.kind = t.kind → statementTail t' = statementTail t := by
  simp only [statementTail, TokenKind.starts] at h ⊢
  split at h
  case h_5 => cases h
  all_goals
    rename_i hword
    refine ⟨by simp [hword], fun t' ht => ?_⟩
    rw [ht, hword]
    rfl

/-- The end of a statement: the end of the script, or a semicolon. -/
def endOfStatement : Parser Unit := do
  let finish ← next
  match finish.map Token.kind with
  | none | some .semicolon => return
  | _ => fail (unexpected "';' or end of input" finish)

variable {done : List Statement}

theorem loop_semicolon (ht : t.kind = .semicolon) (r : Tokens) :
    (loop statementRound done).run (.ok t :: r) = (loop statementRound done).run r := by
  rw [loop_run_cons (q := pure (.again done)) (by rw [statementRound, if_pos ht])]
  rfl

theorem loop_statement (ht : t.kind ≠ .semicolon) (r : Tokens) :
    (loop statementRound done).run (.ok t :: r) =
      (statementTail t >>= fun s => endOfStatement >>= fun _ => loop statementRound (s :: done)).run r := by
  rw [loop_run_cons (by rw [statementRound, if_neg ht])]
  simp only [run_bind, endOfStatement]
  cases (statementTail t).run r with
  | error e => rfl
  | ok o =>
      obtain ⟨s, rest⟩ := o
      dsimp only
      cases next.run rest with
      | error e => rfl
      | ok o =>
          obtain ⟨finish, rest⟩ := o
          cases finish with
          | none => rfl
          | some t => obtain ⟨k, -, -, -⟩ := t; cases k <;> rfl

/-- The statements of a script do not depend on those before it. -/
theorem run_loop_statementRound (done : List Statement) (ts : Tokens) :
    (loop statementRound done).run ts = (loop statementRound [] >>= fun ss => pure (ss ++ done)).run ts := by
  induction hn : ts.length using Nat.strongRecOn generalizing ts done with
  | _ n ih =>
    match ts, hn with
    | [], _ => rw [run_bind, loop_run_none (by simp), loop_run_none (by simp)]; rfl
    | .error e :: r, _ => rw [run_bind, loop_run_error, loop_run_error]
    | .ok t :: r, hn =>
        rw [List.length_cons] at hn
        by_cases ht : t.kind = .semicolon
        · rw [run_bind, loop_semicolon ht, loop_semicolon ht, ih r.length (by omega) done r rfl, run_bind]
        · rw [run_bind, loop_statement ht, loop_statement ht]
          simp only [run_bind]
          cases hs : (statementTail t).run r with
          | error e => rfl
          | ok o =>
              obtain ⟨s, rest⟩ := o
              have hrest := (statementTail t).length_run hs
              dsimp only
              cases he : endOfStatement.run rest with
              | error e => rfl
              | ok o =>
                  obtain ⟨_, rest'⟩ := o
                  have hrest' := endOfStatement.length_run he
                  dsimp only
                  rw [ih rest'.length (by omega) (s :: done) rest' rfl, ih rest'.length (by omega) [s] rest' rfl,
                    run_bind, run_bind]
                  cases (loop statementRound []).run rest' with
                  | error e => rfl
                  | ok o => simp

theorem statements_nil : statements.run [] = .ok ([], []) := by
  rw [statements, run_bind, loop_run_none (by simp)]
  rfl

theorem statements_semicolon (ht : t.kind = .semicolon) (r : Tokens) :
    statements.run (.ok t :: r) = statements.run r := by
  rw [statements, run_bind, loop_semicolon ht, run_bind]

/-- What follows a statement: its end, and more statements. -/
def afterStatement : Parser (List Statement) := do
  endOfStatement
  statements

/-- The statements that a parser reads, after those read before. -/
def after (ss : List Statement) (p : Parser (List Statement)) : Parser (List Statement) := do return ss ++ (← p)

theorem statements_statement (ht : t.kind ≠ .semicolon) (r : Tokens) :
    statements.run (.ok t :: r) = (statementTail t >>= fun s => after [s] afterStatement).run r := by
  rw [statements, run_bind, loop_statement ht]
  simp only [run_bind, after, afterStatement, statements]
  cases (statementTail t).run r with
  | error e => rfl
  | ok o =>
      obtain ⟨s, rest⟩ := o
      dsimp only
      cases endOfStatement.run rest with
      | error e => rfl
      | ok o =>
          obtain ⟨_, rest'⟩ := o
          dsimp only
          rw [run_loop_statementRound, run_bind]
          cases (loop statementRound []).run rest' with
          | error e => rfl
          | ok o => simp

end DdlCatalog.Sql.Parser
