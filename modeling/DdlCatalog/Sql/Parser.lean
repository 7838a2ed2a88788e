import DdlCatalog.Sql.Reader

/-!
Parsers over the tokens of a script. A parser leaves the end of what it was given, and what it took
could be read; the only loop, `Parser.loop`, takes a token in every round. Every parser also reads
from the bytes of a script, and then gives what it gives for the tokens.
-/

namespace DdlCatalog.Sql

/-- What is left after some tokens have been taken. -/
def Leaves (ts rest : Tokens) : Prop := ∃ taken : List Token, ts = taken.map .ok ++ rest

namespace Leaves

variable {ts rest rest' : Tokens} {t : Token}

theorem refl (ts : Tokens) : Leaves ts ts := ⟨[], rfl⟩

theorem trans (h : Leaves ts rest) (h' : Leaves rest rest') : Leaves ts rest' := by
  obtain ⟨taken, rfl⟩ := h
  obtain ⟨taken', rfl⟩ := h'
  exact ⟨taken ++ taken', by simp⟩

theorem cons (h : Leaves ts rest) : Leaves (.ok t :: ts) rest := by
  obtain ⟨taken, rfl⟩ := h
  exact ⟨t :: taken, rfl⟩

theorem length_le (h : Leaves ts rest) : rest.length ≤ ts.length := by
  obtain ⟨taken, rfl⟩ := h
  simp

end Leaves

structure Parser (α : Type) where
  run : Tokens → Except ParseError (α × Tokens)
  leaves_run : ∀ {ts a rest}, run ts = .ok (a, rest) → Leaves ts rest
  read : Reading α
  agrees : ∀ {text a r}, Bytes.Lexes text → r.At text a → Agrees text (run (scan a).1) (read text r)

namespace Parser

variable {α β σ : Type}

theorem length_run (p : Parser α) {ts rest : Tokens} {a : α} (h : p.run ts = .ok (a, rest)) :
    rest.length ≤ ts.length := (p.leaves_run h).length_le

protected def pure (a : α) : Parser α where
  run ts := .ok (a, ts)
  leaves_run h := by cases h; exact .refl _
  read := pure a
  agrees _ h := .pure a h

protected def bind (p : Parser α) (f : α → Parser β) : Parser β where
  run ts :=
    match p.run ts with
    | .error e => .error e
    | .ok (a, rest) => (f a).run rest
  leaves_run h := by
    split at h
    · cases h
    · rename_i hp
      exact (p.leaves_run hp).trans ((f _).leaves_run h)
  read := do (f (← p.read)).read
  agrees hlexes h := by
    refine (p.agrees hlexes h).bind (fun e he => by rw [he]) fun x b r hx hat => ?_
    rw [hx]
    exact (f x).agrees hlexes hat

instance : Monad Parser where
  pure := Parser.pure
  bind := Parser.bind

@[simp]
theorem run_pure (a : α) (ts : Tokens) : (pure a : Parser α).run ts = .ok (a, ts) := rfl

theorem run_bind (p : Parser α) (f : α → Parser β) (ts : Tokens) :
    (p >>= f).run ts =
      match p.run ts with
      | .error e => .error e
      | .ok (a, rest) => (f a).run rest := rfl

def fail (e : ParseError) : Parser α where
  run _ := .error e
  leaves_run h := by cases h
  read := .refuse e
  agrees _ _ := .refuse e

/-- The same parser, with another way to read from the bytes. -/
def reread (p : Parser α) (read : Reading α)
    (agrees : ∀ {text a r}, Bytes.Lexes text → r.At text a → Agrees text (p.run (scan a).1) (read text r)) : Parser α :=
  { p with read, agrees }

/-- The error for a token, or the end of the script, that does not belong here. -/
def unexpected (expected : String) : Option Token → ParseError
  | none => .unexpectedEnd expected
  | some t => .unexpectedToken t.kind t.offset expected

/-- The next token, which is left in place. -/
def peek : Parser (Option Token) where
  run
    | [] => .ok (none, [])
    | .error e :: _ => .error (.lexical e)
    | .ok t :: r => .ok (some t, .ok t :: r)
  leaves_run h := by split at h <;> cases h <;> exact .refl _
  read := .peek
  agrees := agrees_peek

def next : Parser (Option Token) where
  run
    | [] => .ok (none, [])
    | .error e :: _ => .error (.lexical e)
    | .ok t :: r => .ok (some t, r)
  leaves_run h := by
    split at h <;> cases h
    · exact .refl _
    · exact (Leaves.refl _).cons
  read := .next
  agrees := agrees_next

/-- What goes by the next token may use that it was there, and where it stood. -/
theorem agrees_next_bind {text : List Char} {a : Cursor} {r : Reader} {f : Option Token → Parser β}
    {g : Option Token → Reading β} (hlexes : Bytes.Lexes text) (h : r.At text a)
    (hnone : ∀ b r', r'.At text b → Agrees text ((f none).run (scan b).1) (g none text r'))
    (htoken : ∀ t b, a.next = (.ok (some t), b) →
      Agrees text ((f (some t)).run (scan b).1) (g (some t) text ⟨b.offset, none, r.taken + 1⟩)) :
    Agrees text ((next >>= f).run (scan a).1) ((Reading.next >>= g) text r) := by
  rw [Reading.bind_apply]
  rcases a.next_cases with ⟨b, hnext, hscan, hrest⟩ | ⟨e, b, hnext, hscan⟩ | ⟨t, b, hnext, hscan⟩
  · have hend := hnone b _ (h.moved hnext)
    rw [hrest] at hend
    rw [hscan, h.next_eq hlexes hnext]
    exact hend
  · rw [hscan, Reading.next, h.ahead_eq hlexes, hnext]
    rfl
  · rw [hscan, h.next_eq hlexes hnext]
    exact htoken t b hnext

def loopRun (round : σ → Token → Option (Parser (Round σ))) (s : σ) :
    Tokens → Except ParseError (σ × Tokens)
  | [] => .ok (s, [])
  | .error e :: _ => .error (.lexical e)
  | .ok t :: r =>
    match round s t with
    | none => .ok (s, .ok t :: r)
    | some p =>
      match _h : p.run r with
      | .error e => .error e
      | .ok (.stop s, rest) => .ok (s, rest)
      | .ok (.again s, rest) => loopRun round s rest
termination_by ts => ts.length
decreasing_by
  have := p.length_run _h
  simp only [List.length_cons]
  omega

theorem leaves_loopRun {round : σ → Token → Option (Parser (Round σ))} {s a : σ}
    {ts rest : Tokens} (h : loopRun round s ts = .ok (a, rest)) : Leaves ts rest := by
  fun_induction loopRun round s ts with
  | case1 => cases h; exact .refl _
  | case2 => cases h
  | case3 => cases h; exact .refl _
  | case4 => cases h
  | case5 s t r p hp s' rest' hr =>
    cases h
    exact (p.leaves_run hr).cons
  | case6 s t r p hp s' rest' hr ih => exact ((p.leaves_run hr).trans (ih h)).cons

theorem loopRun_round {round : σ → Token → Option (Parser (Round σ))} {s : σ} {t : Token} {p : Parser (Round σ)}
    (h : round s t = some p) (r : Tokens) :
    loopRun round s (.ok t :: r) =
      match p.run r with
      | .error e => .error e
      | .ok (.stop s, rest) => .ok (s, rest)
      | .ok (.again s, rest) => loopRun round s rest := by
  rw [loopRun]
  simp only [h]
  split
  all_goals
    rename_i he
    rw [he]

section Loops

variable {text : List Char} {round : σ → Token → Option (Parser (Round σ))} {s : σ} {a : Cursor} {r : Reader}

theorem agrees_loopRun {expected : Except ParseError (σ × Tokens)} {found : Except Stop (σ × Reader)}
    (hloop : loopRun round s (scan a).1 = expected) (h : Agrees text expected found) :
    Agrees text (loopRun round s (scan a).1) found := by rwa [hloop]

/-- A round starts with a token that it takes, so that fewer are left after it. -/
theorem progress_roundAt (hlexes : Bytes.Lexes text) (h : r.At text a) :
    Progress text (fun a s => Agrees text (loopRun round s (scan a).1)) a s
      (Reading.roundAt (fun s t => (round s t).map Parser.read) s text r) := by
  rw [roundAt_apply hlexes h]
  rcases a.next_cases with ⟨b, hnext, hscan, hrest⟩ | ⟨e, b, hnext, hscan⟩ | ⟨t, b, hnext, hscan⟩
  · have hloop : loopRun round s (scan a).1 = .ok (s, []) := by rw [hscan, loopRun]
    rw [hnext]
    exact agrees_loopRun hloop ⟨a, _, rfl, h.looked hnext, hscan⟩
  · have hloop : loopRun round s (scan a).1 = .error (.lexical e) := by rw [hscan, loopRun]
    rw [hnext]
    exact agrees_loopRun hloop rfl
  · rw [hnext]
    dsimp only [Option.bind_some]
    cases hp : round s t with
    | none =>
        have hloop : loopRun round s (scan a).1 = .ok (s, (scan a).1) := by
          rw [hscan, loopRun]
          simp only [hp]
        exact agrees_loopRun hloop ⟨a, _, rfl, h.looked hnext, rfl⟩
    | some p =>
        have hagrees := p.agrees hlexes (h.moved hnext)
        have hloop := loopRun_round hp (scan b).1
        rw [← hscan] at hloop
        dsimp only [Option.map_some]
        cases hrun : p.run (scan b).1 with
        | error e =>
            rw [hrun] at hagrees hloop
            rw [hagrees]
            exact agrees_loopRun hloop rfl
        | ok result =>
            obtain ⟨step, rest⟩ := result
            rw [hrun] at hagrees hloop
            obtain ⟨c, r', hread, hat, rfl⟩ := hagrees
            have hleft := p.length_run hrun
            rw [hread]
            cases step with
            | stop s' => exact agrees_loopRun hloop ⟨c, r', rfl, hat, rfl⟩
            | again s' =>
                refine ⟨c, hat, ?_, fun found hfound => agrees_loopRun hloop hfound⟩
                rw [hscan, List.length_cons]
                omega

end Loops

/-- Takes tokens for as long as `round` has a parser for what follows the next one. -/
def loop (round : σ → Token → Option (Parser (Round σ))) (s : σ) : Parser σ where
  run := loopRun round s
  leaves_run := leaves_loopRun
  read := .loop (fun s t => (round s t).map Parser.read) s
  agrees hlexes h := goRound_rule (fun _ _ _ => progress_roundAt hlexes) h h.length_le

/-! ### Single tokens -/

def expect (expected : String) (value? : TokenKind → Option α) : Parser α := do
  let t ← next
  match t.bind fun t => value? t.kind with
  | some a => pure a
  | none => fail (unexpected expected t)

def eat (accept : TokenKind → Bool) : Parser Bool := do
  match ← peek with
  | some t => if accept t.kind then (do let _ ← next; pure true) else pure false
  | none => pure false

def eatSymbol (kind : TokenKind) : Parser Bool := eat (· == kind)

def eatWord (keyword : String) : Parser Bool := eat (·.isWord keyword)

def eatEither (first second : String) : Parser Bool := do
  if ← eatWord first then pure true else eatWord second

def symbol (kind : TokenKind) : Parser Unit :=
  expect kind.shown fun k => if k = kind then some () else none

def keyword (word : String) : Parser Unit :=
  expect word.toUpper fun k => if k.isWord word then some () else none

def identifier : Parser String :=
  expect "identifier" fun
    | .word s | .quoted s => some s
    | _ => none

/-- A name that may also be written as a string. -/
def name : Parser String :=
  expect "name" fun
    | .word s | .quoted s | .string s => some s
    | _ => none

def stringLiteral : Parser String :=
  expect "string literal" fun
    | .string s => some s
    | _ => none

def unsignedInteger : Parser UInt64 :=
  expect "unsigned integer" fun
    | .integer n => if 0 ≤ n then some n.toUInt64 else none
    | _ => none

def startLength : Parser UInt32 :=
  expect "prefix length" fun
    | .integer n => if 0 ≤ n.toInt ∧ n.toInt < UInt32.size then some (UInt32.ofNat n.toInt.toNat) else none
    | _ => none

def flag : Parser Bool :=
  expect "0 or 1" fun
    | .integer n => if n = 0 then some false else if n = 1 then some true else none
    | _ => none

/-- The next token in lower case, if it is a word. It is left in place. -/
def peekWord : Parser (Option String) := do
  return (← peek).bind (·.kind.lowerWord?)

/-! ### Lists -/

/-- Items with commas between them, at least one. -/
def commaList (item : Parser α) : Parser (List α) := do
  let first ← item
  let more ← loop (fun done t =>
    if t.kind = .comma then some (do return .again ((← item) :: done)) else none) []
  return first :: more.reverse

/-- Items in parentheses with commas between them. -/
def parenthesized (item : Parser α) : Parser (List α) := do
  symbol .leftParen
  let items ← commaList item
  symbol .rightParen
  return items

/-- The name of a table, perhaps after the name of its schema, which is dropped. -/
def tableName : Parser String := do
  loop (fun _ t => if t.kind = .dot then some (do return .again (← identifier)) else none)
    (← identifier)

/-! ### Text in parentheses -/

/-- The tokens up to and with the parenthesis that closes the given number of open ones and one
more. -/
def balancedRun (depth : Nat) : Tokens → Except ParseError (List Token × Tokens)
  | [] => .error (.unexpectedEnd "')'")
  | .error e :: _ => .error (.lexical e)
  | .ok t :: r =>
    let more (depth : Nat) : Except ParseError (List Token × Tokens) :=
      match balancedRun depth r with
      | .error e => .error e
      | .ok (inner, rest) => .ok (t :: inner, rest)
    match t.kind, depth with
    | .leftParen, _ => more (depth + 1)
    | .rightParen, 0 => .ok ([t], r)
    | .rightParen, depth + 1 => more depth
    | _, _ => more depth

theorem leaves_balancedRun {depth : Nat} {ts rest : Tokens} {inner : List Token}
    (h : balancedRun depth ts = .ok (inner, rest)) : Leaves ts rest := by
  induction ts generalizing depth inner with
  | nil => simp [balancedRun] at h
  | cons item r ih =>
    cases item with
    | error e => simp [balancedRun] at h
    | ok t =>
      have step : ∀ d, (match balancedRun d r with
          | .error e => .error e
          | .ok (inner, rest) => .ok (t :: inner, rest) : Except ParseError _) = .ok (inner, rest) →
          Leaves (Except.ok t :: r) rest := by
        intro d hd
        split at hd
        · cases hd
        · rename_i hr
          cases hd
          exact (ih hr).cons
      simp only [balancedRun] at h
      split at h
      · exact step _ h
      · cases h; exact (Leaves.refl _).cons
      · exact step _ h
      · exact step _ h

/-- A token closes the parentheses, or it is before those that close them; both ways to read it agree. -/
theorem balancedRun_cons (depth : Nat) (k : TokenKind) :
    (∀ (t : Token) r, t.kind = k → balancedRun depth (.ok t :: r) = .ok ([t], r) ∧
      ∀ done text r', Reading.inParentheses (depth, done) t text r' = .ok (.stop (0, t :: done), r')) ∨
    ∃ depth', ∀ (t : Token) r, t.kind = k →
      balancedRun depth (.ok t :: r) = (balancedRun depth' r).map (Prod.map (t :: ·) id) ∧
      ∀ done text r', Reading.inParentheses (depth, done) t text r' = .ok (.again (depth', t :: done), r') := by
  have hmore (d : Nat) (t : Token) (r : Tokens) :
      (match balancedRun d r with
        | .error e => .error e
        | .ok (inner, rest) => .ok (t :: inner, rest)) = (balancedRun d r).map (Prod.map (t :: ·) id) := by
    cases balancedRun d r <;> rfl
  cases k with
  | leftParen =>
      refine .inr ⟨depth + 1, ?_⟩
      rintro ⟨kind, offset, spelled, gap⟩ r rfl
      exact ⟨by simp only [balancedRun, hmore], fun done text r' => rfl⟩
  | rightParen =>
      cases depth with
      | zero =>
          refine .inl ?_
          rintro ⟨kind, offset, spelled, gap⟩ r rfl
          exact ⟨by simp only [balancedRun], fun done text r' => rfl⟩
      | succ depth =>
          refine .inr ⟨depth, ?_⟩
          rintro ⟨kind, offset, spelled, gap⟩ r rfl
          exact ⟨by simp only [balancedRun, hmore], fun done text r' => rfl⟩
  | _ =>
      refine .inr ⟨depth, ?_⟩
      rintro ⟨kind, offset, spelled, gap⟩ r rfl
      exact ⟨by simp only [balancedRun, hmore], fun done text r' => rfl⟩

section Balanced

variable {text : List Char} {a : Cursor} {r : Reader}

theorem takes_balancedRun {depth : Nat} {value : List Token → Cursor → β}
    {expected : Except ParseError (List Token × Tokens)} {found : Except Stop (β × Reader)}
    (hrun : balancedRun depth (scan a).1 = expected) (h : Takes text a value expected found) :
    Takes text a value (balancedRun depth (scan a).1) found := by rwa [hrun]

/-- Every round takes a token, and the one that closes the parentheses is the last. -/
theorem progress_balancedRound (hlexes : Bytes.Lexes text) (h : r.At text a) (s : Nat × List Token) :
    Progress text
      (fun a s => Takes text a (fun inner _ => ((0 : Nat), inner.reverse ++ s.2)) (balancedRun s.1 (scan a).1)) a s
      (Reading.balancedRound s text r) := by
  obtain ⟨depth, done⟩ := s
  rw [balancedRound_apply hlexes h]
  rcases a.next_cases with ⟨b, hnext, hscan, -⟩ | ⟨e, b, hnext, hscan⟩ | ⟨t, b, hnext, hscan⟩
  · have hrun : balancedRun depth (scan a).1 = .error (.unexpectedEnd "')'") := by rw [hscan, balancedRun]
    rw [hnext]
    exact takes_balancedRun hrun rfl
  · have hrun : balancedRun depth (scan a).1 = .error (.lexical e) := by rw [hscan, balancedRun]
    rw [hnext]
    exact takes_balancedRun hrun rfl
  · have hmoved : Reader.At text b ⟨b.offset, none, r.taken + 1⟩ := h.moved hnext
    rw [hnext]
    dsimp only
    rcases balancedRun_cons depth t.kind with hclose | ⟨depth', hmore⟩
    · obtain ⟨hrun, hread⟩ := hclose t (scan b).1 rfl
      rw [← hscan] at hrun
      rw [hread]
      exact takes_balancedRun hrun ⟨b, _, rfl, hmoved, rfl, rfl, .step hnext (.refl b)⟩
    · obtain ⟨hrun, hread⟩ := hmore t (scan b).1 rfl
      rw [← hscan] at hrun
      rw [hread]
      refine ⟨b, hmoved, ?_, fun found hfound => takes_balancedRun hrun (.cons hnext ?_)⟩
      · rw [hscan]
        exact Nat.lt_succ_self _
      · simpa only [List.reverse_cons, List.append_assoc, List.singleton_append] using hfound

theorem takes_balanced (hlexes : Bytes.Lexes text) (h : r.At text a) :
    Takes text a (fun inner _ => inner) (balancedRun 0 (scan a).1) (Reading.balanced text r) := by
  have hloop := @goRound_rule text a r _ (0, []) Reading.balancedRound _
    (fun a s r h => progress_balancedRound hlexes h s) (byteLength text) h h.length_le
  refine Takes.map hloop fun inner b r' _ => ?_
  rw [List.append_nil]
  change Except.ok (inner.reverse.reverse, r') = _
  rw [List.reverse_reverse]

end Balanced

/-- What follows an opening parenthesis, up to and with the one that closes it. -/
def balanced : Parser (List Token) where
  run := balancedRun 0
  leaves_run := leaves_balancedRun
  read := .balanced
  agrees hlexes h := (takes_balanced hlexes h).agrees

end Parser

end DdlCatalog.Sql
