import DdlCatalog.Sql.Bytes

/-!
Reading a script token by token from its bytes, with one token of lookahead. Loops are checked: a round that takes
no token is not followed by another one, and there are no more rounds than the text has bytes.
-/

namespace DdlCatalog.Sql

open Bytes

/-- The tokens that are left, up to the end of the script or the first that cannot be read. -/
abbrev Tokens := List (Except LexError Token)

/-- The place after the last token that was read or looked at, the token that was only looked at, and the number of
tokens taken. The end of the script can be looked at, but it is not a token that is taken. -/
structure Reader where
  position : Nat
  peeked : Option (Option Token)
  taken : Nat

namespace Reader

def start : Reader := ⟨0, none, 0⟩

/-- The next token and the place after it. -/
def ahead (text : List Char) (r : Reader) : Except Stop (Option Token × Nat) :=
  match r.peeked with
  | some t? => .ok (t?, r.position)
  | none => lexAt text r.position

end Reader

/-- Reads from a text, from where the reader stands. -/
abbrev Reading := ReaderT (List Char) (StateT Reader (Except Stop))

/-- Whether a loop goes on after a round. -/
inductive Round (σ : Type)
  | again (s : σ)
  | stop (s : σ)

namespace Reading

variable {α β σ : Type}

def fault (f : Fault) : Reading α := fun _ _ => .error (.fault f)

def refuse (e : ParseError) : Reading α := fun _ _ => .error (.refused e)

/-- The next token, which is left in place. -/
def peek : Reading (Option Token) := fun text r =>
  match r.ahead text with
  | .error e => .error e
  | .ok (t?, stop) => .ok (t?, ⟨stop, some t?, r.taken⟩)

def next : Reading (Option Token) := fun text r =>
  match r.ahead text with
  | .error e => .error e
  | .ok (t?, stop) => .ok (t?, ⟨stop, none, r.taken + t?.toList.length⟩)

def position : Reading Nat := fun _ r => .ok (r.position, r)

def taken : Reading Nat := fun _ r => .ok (r.taken, r)

/-- The text between two places. -/
def source (start stop : Nat) : Reading (List Char) := fun text r =>
  match slice text start stop with
  | .error e => .error e
  | .ok part => .ok (part, r)

/-- Goes round for as long as `body` says so, and no more often than given. -/
def goRound (body : σ → Reading (Round σ)) (rounds : Nat) (s : σ) : Reading σ := do
  let before ← taken
  match ← body s with
  | .stop s => return s
  | .again s =>
    let after ← taken
    if after ≤ before then fault .stalled
    else
      match rounds with
      | 0 => fault .endless
      | rounds + 1 => goRound body rounds s
termination_by structural rounds

def repeatWhile (body : σ → Reading (Round σ)) (s : σ) : Reading σ := fun text =>
  goRound body (byteLength text) s text

/-- A round for what follows the next token, if `round` has one. -/
def roundAt (round : σ → Token → Option (Reading (Round σ))) (s : σ) : Reading (Round σ) := do
  match (← peek).bind (round s) with
  | none => return .stop s
  | some body =>
    let _ ← next
    body

def loop (round : σ → Token → Option (Reading (Round σ))) (s : σ) : Reading σ := repeatWhile (roundAt round) s

/-- One less, if there is one. -/
def lower (depth : Nat) : Reading Nat := if 1 ≤ depth then pure (depth - 1) else fault .belowZero

/-- The number with the other sign, if there is one. -/
def negate (n : Int64) : Reading Int64 := if n = Int64.minValue then fault .overflow else pure (-n)

/-- What a token does inside parentheses, given how many more are open and the tokens so far, the last one first. -/
def inParentheses (s : Nat × List Token) (t : Token) : Reading (Round (Nat × List Token)) := do
  match t.kind with
  | .leftParen => return .again (s.1 + 1, t :: s.2)
  | .rightParen =>
    if s.1 = 0 then return .stop (s.1, t :: s.2)
    else return .again (← lower s.1, t :: s.2)
  | _ => return .again (s.1, t :: s.2)

def balancedRound (s : Nat × List Token) : Reading (Round (Nat × List Token)) := do
  match ← next with
  | none => refuse (.unexpectedEnd "')'")
  | some t => inParentheses s t

/-- What follows an opening parenthesis, up to and with the one that closes it. -/
def balanced : Reading (List Token) := do
  let (_, inner) ← repeatWhile balancedRound (0, [])
  return inner.reverse

theorem bind_apply (p : Reading α) (f : α → Reading β) (text : List Char) (r : Reader) :
    (p >>= f) text r =
      match p text r with
      | .error e => .error e
      | .ok (a, r) => f a text r := by
  change Except.bind (p text r) _ = _
  cases p text r <;> rfl

section Rounds

variable {body : σ → Reading (Round σ)} {rounds : Nat} {s s' : σ} {text : List Char} {r r' : Reader}

theorem goRound_apply (body : σ → Reading (Round σ)) (rounds : Nat) (s : σ) (text : List Char) (r : Reader) :
    goRound body rounds s text r =
      match body s text r with
      | .error e => .error e
      | .ok (.stop s', r') => .ok (s', r')
      | .ok (.again s', r') =>
        if r'.taken ≤ r.taken then .error (.fault .stalled)
        else
          match rounds with
          | 0 => .error (.fault .endless)
          | rounds + 1 => goRound body rounds s' text r' := by
  have htaken (r : Reader) : taken text r = .ok (r.taken, r) := rfl
  rw [goRound]
  simp only [bind_apply, htaken]
  cases hbody : body s text r with
  | error e => rfl
  | ok result =>
      obtain ⟨round, r'⟩ := result
      cases round with
      | stop s' => rfl
      | again s' =>
          simp only [bind_apply, htaken]
          split
          · rfl
          · cases rounds <;> rfl

theorem goRound_of_error {e : Stop} (h : body s text r = .error e) : goRound body rounds s text r = .error e := by
  rw [goRound_apply, h]

theorem goRound_of_stop (h : body s text r = .ok (.stop s', r')) : goRound body rounds s text r = .ok (s', r') := by
  rw [goRound_apply, h]

theorem goRound_of_again (h : body s text r = .ok (.again s', r')) (htaken : r.taken < r'.taken) :
    goRound body (rounds + 1) s text r = goRound body rounds s' text r' := by
  rw [goRound_apply, h]
  exact if_neg (Nat.not_le.2 htaken)

/-- A round that takes no token is the last one. -/
theorem goRound_of_stalled (h : body s text r = .ok (.again s', r')) (htaken : r'.taken ≤ r.taken) :
    goRound body rounds s text r = .error (.fault .stalled) := by
  rw [goRound_apply, h]
  exact if_pos htaken

end Rounds

end Reading

/-! ### Where a reader stands -/

variable {α β : Type} {text : List Char} {a b : Cursor} {r : Reader} {t? : Option Token}

/-- A reader stands where a cursor does, perhaps with the token after it looked at, and has taken the tokens before. -/
structure Reader.At (text : List Char) (a : Cursor) (r : Reader) : Prop where
  placed : Placed text a.offset a.rest
  ahead : (r.peeked = none ∧ r.position = a.offset) ∨
    ∃ t? b, r.peeked = some t? ∧ a.next = (.ok t?, b) ∧ r.position = b.offset
  counted : r.taken + (scan a).1.length = (scan (.start text)).1.length

theorem Cursor.next_placed (h : Placed text a.offset a.rest) (hnext : a.next = (.ok t?, b)) :
    Placed text b.offset b.rest := by
  cases t? with
  | none =>
      obtain ⟨hrest, hoffset⟩ := Cursor.next_end hnext
      rw [hrest, hoffset]
      refine Placed.after ?_
      rwa [List.append_nil]
  | some t =>
      obtain ⟨hstart, hstop⟩ := Cursor.next_offset hnext
      rw [hstop, hstart, Nat.add_assoc, ← byteLength_append]
      refine Placed.after ?_
      rwa [Cursor.next_append hnext]

theorem Cursor.next_at_end (h : a.rest = []) : a.next = (.ok none, a) := by
  obtain ⟨offset, rest⟩ := a
  obtain rfl : rest = [] := h
  rw [Cursor.next, gap]
  rfl

theorem scan_of_next_end (h : a.next.1 = .ok none) : (scan a).1 = [] := by
  rcases scan_cases a with ⟨-, hscan⟩ | ⟨e, herror, -⟩ | ⟨t, b, hnext, -⟩
  · exact hscan
  · cases h.symm.trans herror
  · rw [hnext] at h
    cases h

/-- A cursor moves over the tokens one by one. -/
theorem Cursor.next_cases (a : Cursor) :
    (∃ b, a.next = (.ok none, b) ∧ (scan a).1 = [] ∧ (scan b).1 = []) ∨
    (∃ e b, a.next = (.error e, b) ∧ (scan a).1 = [.error e]) ∨
    ∃ t b, a.next = (.ok (some t), b) ∧ (scan a).1 = .ok t :: (scan b).1 := by
  rcases scan_cases a with ⟨hend, hscan⟩ | ⟨e, herror, hscan⟩ | htoken
  · obtain ⟨b, hnext⟩ : ∃ b, a.next = (.ok none, b) := ⟨a.next.2, by rw [← hend]⟩
    exact .inl ⟨b, hnext, hscan, scan_of_next_end (by rw [Cursor.next_at_end (Cursor.next_end hnext).1])⟩
  · exact .inr (.inl ⟨e, a.next.2, by rw [← herror], hscan⟩)
  · exact .inr (.inr htoken)

/-- A token that is taken is one less to come. -/
theorem Cursor.next_counted (hnext : a.next = (.ok t?, b)) :
    t?.toList.length + (scan b).1.length = (scan a).1.length := by
  rcases a.next_cases with ⟨c, hnext', hscan, hrest⟩ | ⟨e, c, hnext', -⟩ | ⟨t, c, hnext', hscan⟩
  · cases hnext.symm.trans hnext'
    rw [hscan, hrest]
    rfl
  · cases hnext.symm.trans hnext'
  · cases hnext.symm.trans hnext'
    rw [hscan, List.length_cons, Nat.add_comm]
    rfl

/-- There are no more tokens to come than characters. -/
theorem length_scan_le (a : Cursor) : (scan a).1.length ≤ a.rest.length := by
  rcases a.next_cases with ⟨b, -, hscan, -⟩ | ⟨e, b, hnext, hscan⟩ | ⟨t, b, hnext, hscan⟩
  · rw [hscan]
    exact Nat.zero_le _
  · have hne : a.rest ≠ [] := fun hrest => by
      rw [Cursor.next_at_end hrest] at hnext
      cases hnext
    rw [hscan]
    exact List.length_pos_iff.2 hne
  · have hshorter := Cursor.length_next hnext
    have hrest := length_scan_le b
    rw [hscan, List.length_cons]
    omega
termination_by a.rest.length

/-- At the start of a text nothing has been looked at or taken. -/
theorem Reader.at_start (text : List Char) : Reader.At text (.start text) .start where
  placed := placed_start text
  ahead := .inl ⟨rfl, rfl⟩
  counted := Nat.zero_add _

namespace Reader.At

theorem length_le (h : r.At text a) : (scan a).1.length ≤ byteLength text := by
  obtain ⟨before, htext, -⟩ := h.placed
  have hscan := length_scan_le a
  have hrest := length_le_byteLength a.rest
  rw [htext, byteLength_append]
  omega

/-- A reader that has taken a token, or seen the end. -/
theorem moved (h : r.At text a) (hnext : a.next = (.ok t?, b)) :
    Reader.At text b ⟨b.offset, none, r.taken + t?.toList.length⟩ where
  placed := Cursor.next_placed h.placed hnext
  ahead := .inl ⟨rfl, rfl⟩
  counted := by
    have := h.counted
    have := Cursor.next_counted hnext
    dsimp only
    omega

theorem looked (h : r.At text a) (hnext : a.next = (.ok t?, b)) :
    Reader.At text a ⟨b.offset, some t?, r.taken⟩ where
  placed := h.placed
  ahead := .inr ⟨t?, b, rfl, hnext, rfl⟩
  counted := h.counted

theorem ahead_eq (hlexes : Lexes text) (h : r.At text a) : r.ahead text = ofNext a.next := by
  rcases h.ahead with ⟨hpeeked, hposition⟩ | ⟨t?, b, hpeeked, hnext, hposition⟩
  · rw [Reader.ahead, hpeeked, hposition]
    exact hlexes.lexAt_eq h.placed
  · rw [Reader.ahead, hpeeked, hposition, hnext]
    rfl

theorem peek_eq (hlexes : Lexes text) (h : r.At text a) (hnext : a.next = (.ok t?, b)) :
    Reading.peek text r = .ok (t?, ⟨b.offset, some t?, r.taken⟩) := by
  rw [Reading.peek, h.ahead_eq hlexes, hnext]
  rfl

theorem next_eq (hlexes : Lexes text) (h : r.At text a) (hnext : a.next = (.ok t?, b)) :
    Reading.next text r = .ok (t?, ⟨b.offset, none, r.taken + t?.toList.length⟩) := by
  rw [Reading.next, h.ahead_eq hlexes, hnext]
  rfl

end Reader.At

/-! ### Agreement with the tokens -/

/-- What a reading leaves, where the tokens from its place on give `expected`: the same result, with the reader
where the tokens are that are left. -/
def Agrees (text : List Char) (expected : Except ParseError (α × Tokens)) (found : Except Stop (α × Reader)) : Prop :=
  match expected with
  | .error e => found = .error (.refused e)
  | .ok (x, rest) => ∃ b r, found = .ok (x, r) ∧ r.At text b ∧ (scan b).1 = rest

namespace Agrees

variable {expected : Except ParseError (α × Tokens)} {result : Except ParseError (β × Tokens)}
  {p : Reading α} {f : α → Reading β}

theorem bind (h : Agrees text expected (p text r)) (herror : ∀ e, expected = .error e → result = .error e)
    (hf : ∀ x b r', expected = .ok (x, (scan b).1) → r'.At text b → Agrees text result (f x text r')) :
    Agrees text result ((p >>= f) text r) := by
  rw [Reading.bind_apply]
  cases expected with
  | error e =>
      have hp : p text r = .error (.refused e) := h
      rw [hp, herror e rfl]
      rfl
  | ok found =>
      obtain ⟨x, rest⟩ := found
      obtain ⟨b, r', hp, hat, rfl⟩ := h
      rw [hp]
      exact hf x b r' rfl hat

theorem pure (x : α) (h : r.At text a) : Agrees text (.ok (x, (scan a).1)) ((Pure.pure x : Reading α) text r) :=
  ⟨a, r, rfl, h, rfl⟩

theorem refuse (e : ParseError) : Agrees text (.error e) ((Reading.refuse e : Reading α) text r) := rfl

end Agrees

/-! ### Single tokens -/

theorem agrees_peek (hlexes : Lexes text) (h : r.At text a) :
    Agrees text
      (match (scan a).1 with
      | [] => .ok (none, [])
      | .error e :: _ => .error (.lexical e)
      | .ok t :: r => .ok (some t, .ok t :: r))
      (Reading.peek text r) := by
  rw [Reading.peek, h.ahead_eq hlexes]
  rcases a.next_cases with ⟨b, hnext, hscan, -⟩ | ⟨e, b, hnext, hscan⟩ | ⟨t, b, hnext, hscan⟩
  · rw [hscan, hnext]
    exact ⟨a, _, rfl, h.looked hnext, hscan⟩
  · rw [hscan, hnext]
    rfl
  · rw [hscan, hnext]
    exact ⟨a, _, rfl, h.looked hnext, hscan⟩

theorem agrees_next (hlexes : Lexes text) (h : r.At text a) :
    Agrees text
      (match (scan a).1 with
      | [] => .ok (none, [])
      | .error e :: _ => .error (.lexical e)
      | .ok t :: r => .ok (some t, r))
      (Reading.next text r) := by
  rw [Reading.next, h.ahead_eq hlexes]
  rcases a.next_cases with ⟨b, hnext, hscan, hrest⟩ | ⟨e, b, hnext, hscan⟩ | ⟨t, b, hnext, hscan⟩
  · rw [hscan, hnext]
    exact ⟨b, _, rfl, h.moved hnext, hrest⟩
  · rw [hscan, hnext]
    rfl
  · rw [hscan, hnext]
    exact ⟨b, _, rfl, h.moved hnext, rfl⟩

/-! ### Loops -/

variable {σ : Type} {s : σ}

/-- What a round has to show for a loop: if it is the last one, what the loop shall give; if another one follows, that
fewer tokens are left, and that what the loop shall give from there on is what it shall give from here on. -/
def Progress (text : List Char) (P : Cursor → σ → Except Stop (σ × Reader) → Prop) (a : Cursor) (s : σ)
    (found : Except Stop (Round σ × Reader)) : Prop :=
  match found with
  | .error e => P a s (.error e)
  | .ok (.stop s', r') => P a s (.ok (s', r'))
  | .ok (.again s', r') =>
    ∃ b, r'.At text b ∧ (scan b).1.length < (scan a).1.length ∧ ∀ result, P b s' result → P a s result

/-- Each round but the last takes a token, so a loop is done before the rounds run out. -/
theorem goRound_rule {body : σ → Reading (Round σ)} {P : Cursor → σ → Except Stop (σ × Reader) → Prop}
    (hbody : ∀ a s r, r.At text a → Progress text P a s (body s text r)) {rounds : Nat} (h : r.At text a)
    (hrounds : (scan a).1.length ≤ rounds) : P a s (Reading.goRound body rounds s text r) := by
  induction rounds using Nat.strongRecOn generalizing a s r with
  | ind rounds ih =>
  have hshown := hbody a s r h
  cases hround : body s text r with
  | error e =>
      rw [hround] at hshown
      rw [Reading.goRound_of_error hround]
      exact hshown
  | ok found =>
      obtain ⟨round, r'⟩ := found
      rw [hround] at hshown
      cases round with
      | stop s' =>
          rw [Reading.goRound_of_stop hround]
          exact hshown
      | again s' =>
          obtain ⟨b, hat, hfewer, hback⟩ := hshown
          have hcounted := h.counted
          have hcounted' := hat.counted
          obtain ⟨rounds, rfl⟩ := Nat.exists_eq_succ_of_ne_zero (by omega : rounds ≠ 0)
          rw [Reading.goRound_of_again hround (by omega)]
          exact hback _ (ih rounds (Nat.lt_succ_self _) hat (by omega))

/-- A loop looks at the next token, and takes it if a round follows. -/
theorem roundAt_apply (hlexes : Lexes text) (h : r.At text a) (round : σ → Token → Option (Reading (Round σ))) (s : σ) :
    Reading.roundAt round s text r =
      match a.next with
      | (.error e, _) => .error (.refused (.lexical e))
      | (.ok t?, b) =>
        match t?.bind (round s) with
        | none => .ok (.stop s, ⟨b.offset, some t?, r.taken⟩)
        | some body => body text ⟨b.offset, none, r.taken + t?.toList.length⟩ := by
  rw [Reading.roundAt, Reading.bind_apply, Reading.peek, h.ahead_eq hlexes]
  obtain ⟨found, b⟩ := a.next
  cases found with
  | error e => rfl
  | ok t? =>
      dsimp only [ofNext]
      split
      · rename_i hround
        rw [hround]
        rfl
      · rename_i body hround
        rw [hround]
        dsimp only
        rw [Reading.bind_apply]
        rfl

theorem balancedRound_apply (hlexes : Lexes text) (h : r.At text a) (s : Nat × List Token) :
    Reading.balancedRound s text r =
      match a.next with
      | (.error e, _) => .error (.refused (.lexical e))
      | (.ok none, _) => .error (.refused (.unexpectedEnd "')'"))
      | (.ok (some t), b) => Reading.inParentheses s t text ⟨b.offset, none, r.taken + 1⟩ := by
  rw [Reading.balancedRound, Reading.bind_apply, Reading.next, h.ahead_eq hlexes]
  obtain ⟨found, b⟩ := a.next
  cases found with
  | error e => rfl
  | ok t? => cases t? <;> rfl

/-! ### Runs of tokens -/

/-- The text of tokens one after another, with the gaps before them. -/
def spelling (ts : List Token) : List Char := ts.flatMap fun t => t.gap ++ t.text

/-- A cursor moves over some tokens. -/
inductive Cursor.Moves : Cursor → List Token → Cursor → Prop
  | refl (a : Cursor) : Moves a [] a
  | step {a b c : Cursor} {t : Token} {ts : List Token} : a.next = (.ok (some t), b) → Moves b ts c → Moves a (t :: ts) c

theorem Cursor.Moves.trans {c : Cursor} {ts us : List Token} (h : Cursor.Moves a ts b) (h' : Cursor.Moves b us c) :
    Cursor.Moves a (ts ++ us) c := by
  induction h with
  | refl a => exact h'
  | step hnext _ ih => exact .step hnext (ih h')

theorem Cursor.Moves.spelling_eq {ts : List Token} (h : Cursor.Moves a ts b) :
    a.rest = spelling ts ++ b.rest ∧ b.offset = a.offset + byteLength (spelling ts) := by
  induction h with
  | refl a => exact ⟨rfl, rfl⟩
  | @step a b c t ts hnext hmoves ih =>
      obtain ⟨hrest, hoffset⟩ := ih
      obtain ⟨hstart, hstop⟩ := Cursor.next_offset hnext
      have hspelled := Cursor.next_append hnext
      rw [hrest] at hspelled
      rw [← hspelled, hoffset, hstop, hstart]
      constructor
      · simp [spelling]
      · simp only [spelling, List.flatMap_cons, byteLength_append]
        omega

/-- The text from where a token starts to where the last one after it ends. -/
theorem Cursor.Moves.slice_eq {c : Cursor} {first : Token} {more : List Token}
    (h : Placed text a.offset a.rest) (hfirst : a.next = (.ok (some first), b)) (hmoves : b.Moves more c) :
    slice text first.offset c.offset = .ok (first.text ++ spelling more) := by
  obtain ⟨hrest, hoffset⟩ := hmoves.spelling_eq
  obtain ⟨hstart, hstop⟩ := Cursor.next_offset hfirst
  have hspelled := Cursor.next_append hfirst
  rw [hrest] at hspelled
  have hplaced : Placed text first.offset ((first.text ++ spelling more) ++ c.rest) := by
    rw [hstart]
    refine Placed.after ?_
    rwa [List.append_assoc, ← List.append_assoc, hspelled]
  rw [hoffset, hstop, Nat.add_assoc, ← byteLength_append]
  exact hplaced.slice_eq

/-- What a reading leaves that takes tokens to get a value from them and from the place after them: as in agreement,
and the reader is right behind what was taken. -/
def Takes (text : List Char) (a : Cursor) (value : List Token → Cursor → α)
    (expected : Except ParseError (List Token × Tokens)) (found : Except Stop (α × Reader)) : Prop :=
  match expected with
  | .error e => found = .error (.refused e)
  | .ok (ts, rest) => ∃ b r, found = .ok (value ts b, r) ∧ r.At text b ∧ (scan b).1 = rest ∧ r.position = b.offset ∧
      a.Moves ts b

namespace Takes

variable {value : List Token → Cursor → α} {value' : List Token → Cursor → β}
  {expected : Except ParseError (List Token × Tokens)} {result : Except ParseError (β × Tokens)}
  {p : Reading α} {f : α → Reading β}

theorem bind (h : Takes text a value expected (p text r)) (herror : ∀ e, expected = .error e → result = .error e)
    (hf : ∀ ts b r', expected = .ok (ts, (scan b).1) → r'.At text b → r'.position = b.offset → a.Moves ts b →
      Agrees text result (f (value ts b) text r')) : Agrees text result ((p >>= f) text r) := by
  rw [Reading.bind_apply]
  cases expected with
  | error e =>
      have hp : p text r = .error (.refused e) := h
      rw [hp, herror e rfl]
      rfl
  | ok found =>
      obtain ⟨ts, rest⟩ := found
      obtain ⟨b, r', hp, hat, rfl, hposition, hmoves⟩ := h
      rw [hp]
      exact hf ts b r' rfl hat hposition hmoves

theorem map (h : Takes text a value expected (p text r))
    (hf : ∀ ts b r', r'.position = b.offset → f (value ts b) text r' = .ok (value' ts b, r')) :
    Takes text a value' expected ((p >>= f) text r) := by
  rw [Reading.bind_apply]
  cases expected with
  | error e =>
      have hp : p text r = .error (.refused e) := h
      rw [hp]
      rfl
  | ok found =>
      obtain ⟨b, r', hp, hat, hrest, hposition, hmoves⟩ := h
      rw [hp]
      exact ⟨b, r', hf _ b r' hposition, hat, hrest, hposition, hmoves⟩

/-- One token more, in front. -/
theorem cons {t : Token} {found : Except Stop (α × Reader)} (hnext : a.next = (.ok (some t), b))
    (h : Takes text b (fun ts => value (t :: ts)) expected found) :
    Takes text a value (expected.map (Prod.map (t :: ·) id)) found := by
  cases expected with
  | error e => exact h
  | ok taken =>
      obtain ⟨c, r', hfound, hat, hrest, hposition, hmoves⟩ := h
      exact ⟨c, r', hfound, hat, hrest, hposition, .step hnext hmoves⟩

theorem agrees {expected : Except ParseError (List Token × Tokens)} {found : Except Stop (List Token × Reader)}
    (h : Takes text a (fun ts _ => ts) expected found) : Agrees text expected found := by
  cases expected with
  | error e => exact h
  | ok taken =>
      obtain ⟨b, r', hfound, hat, hrest, -, -⟩ := h
      exact ⟨b, r', hfound, hat, hrest⟩

end Takes

end DdlCatalog.Sql
