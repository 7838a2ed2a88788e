import DdlCatalog.Proofs.Spelling.Lexing
import DdlCatalog.Proofs.Spelling.Writable

/-!
The canonical spelling of statements as text, and that a script so written is read as those statements.
-/

namespace DdlCatalog.Sql

variable {ks : List TokenKind}

/-- Tokens of the kinds with single spaces between them. -/
def IsSpelling (ks : List TokenKind) (cs : List Char) : Prop :=
  ∃ texts, List.Forall₂ TokenKind.IsText ks texts ∧ cs = [' '].intercalate texts

/-- Statements in their canonical spelling with semicolons between them. -/
def IsScript (ss : List Statement) (script : String) : Prop :=
  ∃ texts, List.Forall₂ (fun s text => IsSpelling s.kinds text) ss texts ∧ script.toList = [';'].intercalate texts

/-! ### Existence -/

theorem exists_forall₂ {α β : Type} {R : α → β → Prop} {xs : List α} (h : ∀ x ∈ xs, ∃ y, R x y) :
    ∃ ys, List.Forall₂ R xs ys := by
  induction xs with
  | nil => exact ⟨[], .nil⟩
  | cons x xs ih =>
      obtain ⟨y, hy⟩ := h x List.mem_cons_self
      obtain ⟨ys, hys⟩ := ih fun x hx => h x (List.mem_cons_of_mem _ hx)
      exact ⟨y :: ys, .cons hy hys⟩

theorem exists_isSpelling (h : AllWritable ks) : ∃ cs, IsSpelling ks cs := by
  obtain ⟨texts, htexts⟩ := exists_forall₂ fun k hk => (h k hk).exists_text
  exact ⟨_, texts, htexts, rfl⟩

theorem exists_isScript {ss : List Statement} (h : ∀ s ∈ ss, s.Canonical) : ∃ script, IsScript ss script := by
  obtain ⟨texts, htexts⟩ := exists_forall₂ fun s hs => exists_isSpelling (Statement.writable (h s hs))
  exact ⟨String.ofList ([';'].intercalate texts), texts, htexts, String.toList_ofList⟩

/-! ### Tokens -/

theorem separates_nil : Separates [] := by
  rintro c hc
  cases hc

theorem separates_blank (cs : List Char) : Separates (' ' :: cs) := by
  rintro c hc
  exact .inl (Option.some.inj hc).symm

theorem separates_semicolon (cs : List Char) : Separates (';' :: cs) := by
  rintro c hc
  exact .inr (Option.some.inj hc).symm

/-- Tokens with single spaces between them, perhaps after a blank. -/
theorem scans_spaced {rest blank : List Char} {ks' : List TokenKind} {texts : List (List Char)} (hks : AllWritable ks)
    (h : List.Forall₂ TokenKind.IsText ks texts) (hblank : blank = [] ∨ blank = [' ']) (hne : ks ≠ [])
    (hsep : Separates rest) (hrest : Scans rest ks') :
    Scans (blank ++ ([' '].intercalate texts ++ rest)) (ks ++ ks') := by
  induction h generalizing blank with
  | nil => exact absurd rfl hne
  | @cons k cs ks texts hk htexts ih =>
      obtain ⟨hwritable, hks⟩ := allWritable_cons.1 hks
      cases htexts with
      | nil =>
          rw [List.intercalate_singleton]
          exact scans_token hblank (lexed_of_isText hwritable hk hsep) hrest
      | @cons k' cs' ks texts hk' htexts =>
          have hlater := ih hks (.inr rfl) (by simp)
          rw [List.intercalate_cons_cons, List.append_assoc, List.append_assoc]
          exact scans_token hblank (lexed_of_isText hwritable hk (separates_blank _)) hlater

theorem scans_spelling {rest cs : List Char} {ks' : List TokenKind} (hks : AllWritable ks) (h : IsSpelling ks cs)
    (hne : ks ≠ []) (hsep : Separates rest) (hrest : Scans rest ks') : Scans (cs ++ rest) (ks ++ ks') := by
  obtain ⟨texts, htexts, rfl⟩ := h
  exact scans_spaced hks htexts (.inl rfl) hne hsep hrest

theorem kinds_ne_nil {s : Statement} (h : s.Canonical) : s.kinds ≠ [] := by
  obtain ⟨w, body, hkinds, -⟩ := Parser.reads_statement h (Parser.follows_nil _)
  simp [hkinds]

theorem scans_script {ss : List Statement} {texts : List (List Char)} (h : ∀ s ∈ ss, s.Canonical)
    (htexts : List.Forall₂ (fun s text => IsSpelling s.kinds text) ss texts) :
    Scans ([';'].intercalate texts) (Statement.scriptKinds ss) := by
  induction htexts with
  | nil => exact scans_nil
  | @cons s text ss texts htext htexts ih =>
      have hs := h s List.mem_cons_self
      have hlater := ih fun s hs => h s (List.mem_cons_of_mem _ hs)
      cases htexts with
      | nil =>
          have hscan := scans_spelling (Statement.writable hs) htext (kinds_ne_nil hs) separates_nil scans_nil
          rw [List.append_nil, List.append_nil] at hscan
          rwa [List.intercalate_singleton]
      | @cons s' text' ss texts htext' htexts =>
          rw [List.intercalate_cons_cons, List.append_assoc, Statement.scriptKinds]
          refine scans_spelling (Statement.writable hs) htext (kinds_ne_nil hs) (separates_semicolon _) ?_
          exact scans_token (.inl rfl) (lexed_semicolon _) hlater
          simp

/-! ### Parsing -/

theorem parse_of_isScript {ss : List Statement} {script : String} (h : ∀ s ∈ ss, s.Canonical)
    (hscript : IsScript ss script) : parse script = .ok ss := by
  obtain ⟨texts, htexts, hcs⟩ := hscript
  have hspelled := scans_script h htexts 0
  rw [← hcs] at hspelled
  obtain ⟨rest, -, hrun⟩ := Parser.reads_script h _ hspelled
  rw [parse, tokens]
  change (Parser.statements.run (scan ⟨0, script.toList⟩).1).map (·.1) = _
  rw [hrun]
  rfl

/-- Canonical statements have a spelling, and every spelling of them is read as just these statements. -/
theorem canonical_script_parses {ss : List Statement} (h : ∀ s ∈ ss, s.Canonical) :
    (∃ script, IsScript ss script) ∧ ∀ script, IsScript ss script → parse script = .ok ss :=
  ⟨exists_isScript h, fun _ hscript => parse_of_isScript h hscript⟩

/-- Two statements with characters that have to be doubled. -/
def quotesKept : List Statement :=
  [.createTable
    { table := "it\x60s"
      entries := [.column
        { name := "x"
          type := { name := .int }
          attributes := { nullable := some false, default := some (.integer (-7)), comment := some "a\\b" } }] },
    .alterTable "it\x60s" [.dropColumn "x"]]

theorem quotesKept_parses : (∀ s ∈ quotesKept, s.Canonical) ∧
    parse ("CREATE TABLE \x60it\x60\x60s\x60 ( \x60x\x60 Int NOT null DEFAULT - 7 COMMENT 'a\\\\b' );" ++
      "Alter Table \x60it\x60\x60s\x60 DROP COLUMN \x60x\x60") = .ok quotesKept := by
  have hcolumn : ColumnDefinition.Canonical
      { name := "x", type := { name := .int },
        attributes := { nullable := some false, default := some (.integer (-7)), comment := some "a\\b" } } :=
    { type := ⟨by decide, by simp, by simp, by decide, by simp⟩
      attributes := ⟨by simp [DefaultValue.Canonical], by simp, by simp, by simp⟩ }
  have hcanonical : ∀ s ∈ quotesKept, s.Canonical := by
    simp only [quotesKept, List.forall_mem_cons]
    exact ⟨⟨⟨_, List.mem_singleton_self _, rfl⟩, List.forall_mem_singleton.2 hcolumn, by simp⟩,
      ⟨by simp, by simp [Alteration.Canonical]⟩, by simp⟩
  refine ⟨hcanonical, (canonical_script_parses hcanonical).2 _ ⟨[_, _], .cons ⟨["CREATE".toList, "TABLE".toList,
    "\x60it\x60\x60s\x60".toList, ['('], "\x60x\x60".toList, "Int".toList, "NOT".toList, "null".toList,
    "DEFAULT".toList, ['-'], ['7'], "COMMENT".toList, "'a\\\\b'".toList, [')']], ?_, rfl⟩
    (.cons ⟨["Alter".toList, "Table".toList, "\x60it\x60\x60s\x60".toList, "DROP".toList, "COLUMN".toList,
      "\x60x\x60".toList], ?_, rfl⟩ .nil), rfl⟩⟩
  all_goals repeat first | exact .nil | refine .cons rfl ?_ | refine .cons ⟨_, rfl, rfl⟩ ?_

end DdlCatalog.Sql
