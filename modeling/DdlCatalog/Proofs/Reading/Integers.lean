import DdlCatalog.Proofs.Reading.Spacing
import DdlCatalog.Proofs.Reading.Words
import DdlCatalog.Proofs.Spelling.Key
import DdlCatalog.Sql.Grammar.Statement

/-!
Integers as values. The digits of an integer are read before its sign, and a run of digits is an integer only below
`2 ^ 63`. So of the numbers that the fields can hold, the least default value and the greater half of the values of
table options are not read as what they are.
-/

namespace DdlCatalog.Sql

variable {g text rest digits : List Char} {k : TokenKind}

/-! ### Digits -/

theorem standsFirst_digits (hdigits : ∀ c ∈ digits, isDigit c = true) (hne : digits ≠ []) (hrest : EndsNumber rest) :
    StandsFirst (integerKind digits) digits rest := by
  obtain ⟨c, r, rfl⟩ := List.exists_cons_of_ne_nil hne
  have hc := hdigits c List.mem_cons_self
  have hchar := isWordChar_of_isDigit hc
  rw [standsFirst_iff List.cons_append (gapItem?_wordChar hchar _) (ne_of_isWordChar hchar (by decide))]
  intro offset
  have hother (e : Char) (he : isWordChar e = true ∧ isDigit e = false) : (r ++ rest).head? ≠ some e := by
    intro hd
    cases r with
    | nil => exact absurd he.1 (by rw [(hrest e hd).1]; decide)
    | cons d r =>
        obtain rfl := Option.some.inj hd
        exact absurd (hdigits d (by simp)) (by rw [he.2]; decide)
  rw [lexeme_eq_number hc fun _ => ⟨hother 'x' (by decide), hother 'b' (by decide)⟩, ← List.cons_append]
  exact number_integer offset hdigits hrest

theorem standsFirst_toDigits (m : Nat) (hrest : EndsNumber rest) :
    StandsFirst (integerKind (Nat.toDigits 10 m)) (Nat.toDigits 10 m) rest :=
  standsFirst_digits (fun _ hc => Decimal.isDigit_of_mem_toDigits hc) Nat.toDigits_ne_nil hrest

/-- A token behind a gap. -/
theorem scan_behind (h : StandsFirst k text rest) (hg : Blank g) (offset : Nat) :
    (scan ⟨offset, g ++ (text ++ rest)⟩).1 =
      .ok ⟨k, offset + byteLength g, text, g⟩ :: (scan ⟨offset + byteLength (g ++ text), rest⟩).1 := by
  have hnext := next_blank hg offset (text ++ rest)
  rw [h] at hnext
  rw [scan_of_next hnext, byteLength_append, Nat.add_assoc]
  simp [Token.behind]

theorem standsFirst_sign {c : Char} (h : symbol? c = some k) (hc : c = '+' ∨ c = '-') (hrest : rest.head? ≠ some '-') :
    StandsFirst k [c] rest := by
  have hgap : (isSpace c = false ∧ c ≠ '#' ∧ c ≠ '/') := by
    rcases hc with rfl | rfl <;> decide
  rw [standsFirst_iff List.singleton_append (gapItem?_eq_none hgap fun _ => hrest) hgap.2.2]
  intro offset
  rw [lexeme.eq_def, h]

theorem scan_signed {c : Char} (h : symbol? c = some k) (hc : c = '+' ∨ c = '-') (hg : Blank g)
    (hrest : EndsNumber rest) (m offset : Nat) : (scan ⟨offset, g ++ (c :: Nat.toDigits 10 m ++ rest)⟩).1 =
      .ok ⟨k, offset + byteLength g, [c], g⟩ ::
        .ok ⟨integerKind (Nat.toDigits 10 m), offset + byteLength (g ++ [c]), Nat.toDigits 10 m, []⟩ ::
          (scan ⟨offset + byteLength (g ++ c :: Nat.toDigits 10 m), rest⟩).1 := by
  have hminus : (Nat.toDigits 10 m ++ rest).head? ≠ some '-' := by
    obtain ⟨d, r, hd⟩ := List.exists_cons_of_ne_nil (Nat.toDigits_ne_nil (b := 10) (n := m))
    rw [hd]
    rintro ⟨⟩
    have hdigit : isDigit '-' = true := Decimal.isDigit_of_mem_toDigits (n := m) (by rw [hd]; simp)
    exact absurd hdigit (by decide)
  have hsign := scan_behind (standsFirst_sign h hc hminus) hg offset
  have hdigits := scan_behind (standsFirst_toDigits m hrest) .nil (offset + byteLength (g ++ [c]))
  have htext : c :: Nat.toDigits 10 m ++ rest = [c] ++ (Nat.toDigits 10 m ++ rest) := rfl
  have hplace : offset + byteLength (g ++ [c]) + byteLength (Nat.toDigits 10 m) =
      offset + byteLength (g ++ c :: Nat.toDigits 10 m) := by
    simp only [byteLength_append, byteLength_cons, byteLength_nil]
    omega
  rw [List.nil_append, List.nil_append, byteLength_nil, Nat.add_zero, hplace] at hdigits
  rw [htext, hsign, hdigits]

/-! ### Default values -/

/-- An integer in decimal with its sign, which may be left out where it is a plus. -/
inductive Written (n : Int64) : List Char → Prop
  | plain : 0 ≤ n.toInt → Written n (Nat.toDigits 10 n.toInt.toNat)
  | plus : 0 ≤ n.toInt → Written n ('+' :: Nat.toDigits 10 n.toInt.toNat)
  | minus : n.toInt < 0 → Written n ('-' :: Nat.toDigits 10 (-n.toInt).toNat)

/-- What an integer is read as: the digits of the least one are those of no integer. -/
def readDefault (n : Int64) : DefaultValue :=
  if n = Int64.minValue then .real (-(Decimal.nearest (2 ^ 63) 0)) else .integer n

section Magnitudes

variable {n : Int64}

theorem readDefault_of_ne (h : n ≠ Int64.minValue) : readDefault n = .integer n := if_neg h

theorem ne_minValue_of_nonneg (h : 0 ≤ n.toInt) : n ≠ Int64.minValue := by
  rintro rfl
  exact absurd h (by decide)

theorem integerKind_of_neg (h : n.toInt < 0) (hn : n ≠ Int64.minValue) :
    integerKind (Nat.toDigits 10 (-n.toInt).toNat) = .integer (-n) := by
  have hlt : (-n.toInt).toNat < Nat.pow 2 63 := by
    have hle := n.le_toInt
    have hne : n.toInt ≠ -2 ^ 63 := fun he => hn (Int64.toInt_inj.1 he)
    change (-n.toInt).toNat < 2 ^ 63
    omega
  have hback : Int64.ofNat (-n.toInt).toNat = -n := by
    have hnonneg : 0 ≤ -n.toInt := by omega
    rw [← Int64.ofInt_eq_ofNat, Int.toNat_of_nonneg hnonneg, Int64.ofInt_neg, Int64.ofInt_toInt]
  rw [integerKind_toDigits, if_pos hlt, hback]

theorem integerKind_minValue :
    integerKind (Nat.toDigits 10 (-Int64.minValue.toInt).toNat) = .real (Decimal.nearest (2 ^ 63) 0) := by
  have hleast : (-Int64.minValue.toInt).toNat = 2 ^ 63 := by decide
  have hlarge : ¬ 2 ^ 63 < Nat.pow 2 63 := Nat.lt_irrefl _
  rw [integerKind_toDigits, hleast, if_neg hlarge]

end Magnitudes

namespace Parser

variable {α : Type} {p : Parser α} {a : α} {t : Token} {ts following after : Tokens} {before : List Token}
  {v : DefaultValue} {n : Int64} {m : UInt64}

theorem defaultValue_run_literal (h : literal? t.kind = some v) (ts : Tokens) :
    defaultValue.run (.ok t :: ts) = .ok (v, ts) := by
  rw [defaultValue, run_peek_bind]
  simp only [Option.bind_some, h]
  rfl

theorem defaultValue_run_plus (h : t.kind = .plus) (ts : Tokens) :
    defaultValue.run (.ok t :: ts) = (signedTokens false).run ts := by
  rw [defaultValue, run_peek_bind]
  simp only [Option.bind_some, Option.map_some, h]
  rfl

theorem defaultValue_run_minus (h : t.kind = .minus) (ts : Tokens) :
    defaultValue.run (.ok t :: ts) = (signedTokens true).run ts := by
  rw [defaultValue, run_peek_bind]
  simp only [Option.bind_some, Option.map_some, h]
  rfl

/-- Behind some tokens the parser takes the text, after any gap, and gives the value. -/
def TakesText (p : Parser α) (before : List Token) (text : List Char) (a : α) : Prop :=
  ∀ g rest, Blank g → EndsNumber rest → ∀ offset, p.run (items before ++ (scan ⟨offset, g ++ (text ++ rest)⟩).1) =
    .ok (a, (scan ⟨offset + byteLength (g ++ text), rest⟩).1)

theorem defaultValue_takes (h : Written n text) : TakesText defaultValue [] text (readDefault n) := by
  intro g rest hg hrest offset
  rw [items_nil, List.nil_append]
  cases h with
  | plain hn =>
      rw [scan_behind (standsFirst_toDigits _ hrest) hg, integerKind_of_nonneg hn,
        readDefault_of_ne (ne_minValue_of_nonneg hn)]
      exact defaultValue_run_literal rfl _
  | plus hn =>
      rw [scan_signed rfl (.inl rfl) hg hrest, integerKind_of_nonneg hn, readDefault_of_ne (ne_minValue_of_nonneg hn),
        defaultValue_run_plus rfl]
      refine expect_run ?_ _
      rfl
  | minus hn =>
      rw [scan_signed rfl (.inr rfl) hg hrest, defaultValue_run_minus rfl]
      refine expect_run ?_ _
      by_cases hleast : n = Int64.minValue
      · rw [hleast, integerKind_minValue]
        rfl
      · rw [integerKind_of_neg hn hleast, readDefault_of_ne hleast]
        simp

/-- The name of a column, perhaps after the word COLUMN, and SET DEFAULT. -/
inductive SetsDefault (column : String) : List Token → Prop
  | named {name set default : Token} : name.kind.isWord "column" = false → name.kind.name? = some column →
      set.kind.isWord "set" = true → default.kind.isWord "default" = true → SetsDefault column [name, set, default]
  | column {word name set default : Token} : word.kind.isWord "column" = true → name.kind.name? = some column →
      set.kind.isWord "set" = true → default.kind.isWord "default" = true →
      SetsDefault column [word, name, set, default]

theorem SetsDefault.eatWord_run {column : String} (h : SetsDefault column before) (following : Tokens) :
    ∃ found name set default, (eatWord "column").run (items before ++ following) =
        .ok (found, .ok name :: .ok set :: .ok default :: following) ∧
      name.kind.name? = some column ∧ set.kind.isWord "set" = true ∧ default.kind.isWord "default" = true := by
  cases h with
  | named hcolumn hname hset hdefault => exact ⟨_, _, _, _, eatWord_run_other hcolumn _, hname, hset, hdefault⟩
  | column hword hname hset hdefault => exact ⟨_, _, _, _, Parser.eatWord_run hword _, hname, hset, hdefault⟩

theorem alterTail_run {column : String} (h : SetsDefault column before)
    (hvalue : defaultValue.run following = .ok (v, after)) :
    alterTail.run (items before ++ following) = .ok (some (.setDefault column v), after) := by
  obtain ⟨found, name, set, default, hfound, hname, hset, hdefault⟩ := h.eatWord_run following
  have hvisible := eatEither_run_other (isWord_eq_false hdefault (by decide +kernel : _ ≠ "visible".toLower))
    (isWord_eq_false hdefault (by decide +kernel : _ ≠ "invisible".toLower)) following
  rw [alterTail, run_bind_of_ok hfound, run_bind_of_ok (identifier_run hname _), run_bind_of_ok (eatWord_run hset _)]
  simp only [if_true]
  rw [run_bind_of_ok hvisible]
  simp only [Bool.false_eq_true, if_false]
  rw [run_bind_of_ok (keyword_run hdefault _), run_bind_of_ok hvalue]
  rfl

theorem columnAttribute_default (a : ColumnAttributes) (h : t.kind.lowerWord? = some "default") :
    columnAttribute a t = some (do return .again { a with default := some (← defaultValue) }) := by
  rw [columnAttribute, h]
  rfl

/-! ### Table options -/

/-- The options that count something, with their names. -/
def countOptions : List (String × (UInt64 → TableOption)) :=
  [("auto_increment", .autoIncrement), ("avg_row_length", .avgRowLength), ("key_block_size", .keyBlockSize),
    ("max_rows", .maxRows), ("min_rows", .minRows)]

def countOption (option : UInt64 → TableOption) : Parser (Option TableOption) := do
  return some (option (← optionValue unsignedInteger))

theorem tableOption?_count {name : String} {option : UInt64 → TableOption} (h : (name, option) ∈ countOptions)
    (ht : t.kind.lowerWord? = some name) : tableOption? t = some (countOption option) := by
  simp only [countOptions, List.mem_cons, List.not_mem_nil, or_false, Prod.mk.injEq] at h
  rcases h with ⟨rfl, rfl⟩ | ⟨rfl, rfl⟩ | ⟨rfl, rfl⟩ | ⟨rfl, rfl⟩ | ⟨rfl, rfl⟩
  all_goals
    rw [tableOption?, ht]
    rfl

theorem unsignedInteger_eq : unsignedInteger = expect "unsigned integer" unsigned? := rfl

/-- Nothing, or an equals sign. -/
def MayEqual (before : List Token) : Prop := before = [] ∨ ∃ t : Token, t.kind = .equals ∧ before = [t]

theorem optionValue_run (hbefore : MayEqual before) (ht : t.kind ≠ .equals) (ts : Tokens) :
    (optionValue p).run (items before ++ .ok t :: ts) = p.run (.ok t :: ts) := by
  rcases hbefore with rfl | ⟨equals, hequals, rfl⟩
  · exact run_bind_of_ok (eatSymbol_run_other ht ts)
  · exact run_bind_of_ok (eatSymbol_run hequals _)

theorem integerKind_ne_equals (digits : List Char) : integerKind digits ≠ .equals := by
  unfold integerKind
  dsimp only
  split <;> exact nofun

theorem countOption_takes (option : UInt64 → TableOption) (hbefore : MayEqual before) (hm : Small m) :
    TakesText (countOption option) before (Nat.toDigits 10 m.toNat) (some (option m)) := by
  intro g rest hg hrest offset
  have hkind : integerKind (Nat.toDigits 10 m.toNat) = numberKind m := by
    rw [integerKind_toDigits]
    exact if_pos hm
  rw [scan_behind (standsFirst_toDigits _ hrest) hg, countOption,
    run_bind_of_ok ((optionValue_run hbefore (integerKind_ne_equals _) _).trans ?_)]
  · rfl
  · rw [unsignedInteger_eq]
    refine expect_run ?_ _
    rw [hkind]
    exact unsigned?_numberKind hm

theorem countOption_refuses (option : UInt64 → TableOption) (hbefore : MayEqual before) (hm : ¬ Small m) (hg : Blank g)
    (hrest : EndsNumber rest) (offset : Nat) :
    (countOption option).run (items before ++ (scan ⟨offset, g ++ (Nat.toDigits 10 m.toNat ++ rest)⟩).1) =
      .error (.unexpectedToken (.real (Decimal.nearest m.toNat 0)) (offset + byteLength g) "unsigned integer") := by
  have hkind : integerKind (Nat.toDigits 10 m.toNat) = .real (Decimal.nearest m.toNat 0) := by
    rw [integerKind_toDigits]
    exact if_neg hm
  rw [scan_behind (standsFirst_toDigits _ hrest) hg, countOption,
    run_bind_of_error ((optionValue_run hbefore (integerKind_ne_equals _) _).trans ?_)]
  rw [unsignedInteger_eq, hkind]
  exact expect_run_other rfl _

end Parser

/-- An integer after DEFAULT is read as the same integer, in a definition of a column and in a clause that alters one,
except for the least one, which becomes a real number. A number below `2 ^ 63` as the value of an option is read as the
same number, and any greater one is refused. -/
theorem integers_read (n : Int64) (m : UInt64) :
    (∀ text, Written n text →
      (∀ a (t : Token), t.kind.lowerWord? = some "default" → ∃ p, Parser.columnAttribute a t = some p ∧
        p.TakesText [] text (.again { a with default := some (readDefault n) })) ∧
      ∀ column before, Parser.SetsDefault column before →
        Parser.alterTail.TakesText before text (some (.setDefault column (readDefault n)))) ∧
    ∀ name option, (name, option) ∈ Parser.countOptions → ∀ t : Token, t.kind.lowerWord? = some name →
      ∃ p, Parser.tableOption? t = some p ∧ ∀ before, Parser.MayEqual before →
        (Small m → p.TakesText before (Nat.toDigits 10 m.toNat) (some (option m))) ∧
        (¬ Small m → ∀ g rest, Blank g → EndsNumber rest → ∀ offset,
          p.run (items before ++ (scan ⟨offset, g ++ (Nat.toDigits 10 m.toNat ++ rest)⟩).1) = .error
            (.unexpectedToken (.real (Decimal.nearest m.toNat 0)) (offset + byteLength g) "unsigned integer")) := by
  refine ⟨fun text htext => ⟨fun a t ht => ?_, fun column before hbefore g rest hg hrest offset => ?_⟩,
    fun name option hoption t ht => ?_⟩
  · refine ⟨_, Parser.columnAttribute_default a ht, fun g rest hg hrest offset => ?_⟩
    rw [Parser.run_bind_of_ok (Parser.defaultValue_takes htext g rest hg hrest offset)]
    rfl
  · exact Parser.alterTail_run hbefore (Parser.defaultValue_takes htext g rest hg hrest offset)
  · refine ⟨_, Parser.tableOption?_count hoption ht, fun before hbefore => ⟨?_, ?_⟩⟩
    · exact Parser.countOption_takes option hbefore
    · exact fun hm g rest hg hrest offset => Parser.countOption_refuses option hbefore hm hg hrest offset

theorem small_integers_read :
    (∃ p, Parser.columnAttribute {} ⟨.word "default", 0, [], []⟩ = some p ∧
      p.run (tokens " -7)") = .ok (.again { default := some (.integer (-7)) }, [.ok ⟨.rightParen, 3, [')'], []⟩])) ∧
    Parser.alterTail.run (items [⟨.word "c", 0, [], []⟩, ⟨.word "set", 0, [], []⟩, ⟨.word "default", 0, [], []⟩] ++
      tokens " +7") = .ok (some (.setDefault "c" (.integer 7)), []) ∧
    ∃ p, Parser.tableOption? ⟨.word "max_rows", 0, [], []⟩ = some p ∧
      p.run (items [⟨.equals, 0, [], []⟩] ++ tokens " 7") = .ok (some (.maxRows 7), []) := by
  have hblank : Blank [' '] := .space rfl .nil
  have hnothing : EndsNumber [] := nofun
  have hparen : EndsNumber [')'] := by
    rintro c ⟨⟩
    decide
  have hend : (scan ⟨3, [')']⟩).1 = [.ok ⟨.rightParen, 3, [')'], []⟩] := by decide +kernel
  obtain ⟨hnegative, -⟩ := integers_read (-7) 7
  obtain ⟨hpositive, hoptions⟩ := integers_read 7 7
  refine ⟨?_, ?_, ?_⟩
  · obtain ⟨p, hp, htakes⟩ := (hnegative ['-', '7'] (.minus (by decide))).1 {} ⟨.word "default", 0, [], []⟩
      (by decide +kernel)
    have hread := htakes [' '] [')'] hblank hparen 0
    change p.run (tokens " -7)") = .ok (_, (scan ⟨3, [')']⟩).1) at hread
    rw [hend] at hread
    exact ⟨p, hp, hread⟩
  · have hwords : Parser.SetsDefault "c"
        [⟨.word "c", 0, [], []⟩, ⟨.word "set", 0, [], []⟩, ⟨.word "default", 0, [], []⟩] :=
      .named (by decide +kernel) rfl (by decide +kernel) (by decide +kernel)
    have hread := (hpositive ['+', '7'] (.plus (by decide))).2 "c" _ hwords [' '] [] hblank hnothing 0
    rw [scan_end] at hread
    exact hread
  · obtain ⟨p, hp, htakes⟩ := hoptions "max_rows" .maxRows (by simp [Parser.countOptions])
      ⟨.word "max_rows", 0, [], []⟩ (by decide +kernel)
    have hsmall : Small 7 := by
      unfold Small
      decide
    have hread := (htakes _ (.inr ⟨⟨.equals, 0, [], []⟩, rfl, rfl⟩)).1 hsmall [' '] [] hblank hnothing 0
    rw [scan_end] at hread
    exact ⟨p, hp, hread⟩

/-- Each of the numbers fits into its field, but the least integer is not kept as one and the greatest value of an
option is refused. -/
theorem greatest_numbers_astray :
    parse "create table t (c bigint default -9223372036854775808)" ≠ .ok [.createTable
      { table := "t"
        entries := [.column
          { name := "c"
            type := { name := .bigint }
            attributes := { default := some (.integer Int64.minValue) } }] }] ∧
    parse "alter table t alter c set default -9223372036854775808" ≠
      .ok [.alterTable "t" [.setDefault "c" (.integer Int64.minValue)]] ∧
    ∀ ss, parse "create table t (c int) auto_increment=18446744073709551615" ≠ .ok ss := by
  have hrefused : (parse "create table t (c int) auto_increment=18446744073709551615").toOption = none := by
    decide +kernel
  refine ⟨by decide +kernel, by decide +kernel, fun ss h => ?_⟩
  rw [h] at hrefused
  cases hrefused

end DdlCatalog.Sql
