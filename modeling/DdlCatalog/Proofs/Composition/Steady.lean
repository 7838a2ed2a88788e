import DdlCatalog.Sql.Parser
import Mathlib.Data.List.Forall2

/-!
Parsers at the end of a script and before more of it. A steady parser that reads tokens to their end reads the
same from them where a semicolon follows, and leaves what follows alone.
-/

namespace DdlCatalog.Sql

/-- The tokens are the same but for their places in a script. -/
structure Token.Alike (t t' : Token) : Prop where
  kind : t'.kind = t.kind
  text : t'.text = t.text
  gap : t'.gap = t.gap

def Alike (ts ts' : List Token) : Prop := List.Forall₂ Token.Alike ts ts'

theorem Token.Alike.refl (t : Token) : t.Alike t := ⟨rfl, rfl, rfl⟩

theorem Alike.refl (ts : List Token) : Alike ts ts := List.forall₂_same.2 fun t _ => Token.Alike.refl t

def items (ts : List Token) : Tokens := ts.map .ok

@[simp]
theorem items_nil : items [] = [] := rfl

@[simp]
theorem items_cons (t : Token) (ts : List Token) : items (t :: ts) = .ok t :: items ts := rfl

/-- A token that ends a statement, or one with which no part of a statement starts. -/
def TokenKind.stops : TokenKind → Bool
  | .semicolon | .integer _ => true
  | _ => false

/-- A token that ends a statement, or the first word of one. -/
def TokenKind.starts (k : TokenKind) : Bool :=
  k = .semicolon || k.lowerWord? ∈ [some "create", some "alter", some "drop", some "rename"]

/-- Nothing, or tokens of which the first one stops. -/
def Stopping (tail : Tokens) : Prop := ∀ item ∈ tail.head?, ∃ t : Token, item = .ok t ∧ t.kind.stops = true

theorem stopping_nil : Stopping [] := by
  rintro item ⟨⟩

theorem stopping_cons {t : Token} (h : t.kind.stops = true) (ts : Tokens) : Stopping (.ok t :: ts) := by
  rintro item ⟨⟩
  exact ⟨t, rfl, h⟩

namespace Parser

variable {α β σ : Type}

/-- A parser in two steps reads what both steps read. -/
theorem run_bind_eq_ok {p : Parser α} {f : α → Parser β} {ts rest : Tokens} {b : β}
    (h : (p >>= f).run ts = .ok (b, rest)) : ∃ a rest', p.run ts = .ok (a, rest') ∧ (f a).run rest' = .ok (b, rest) := by
  rw [run_bind] at h
  cases hr : p.run ts with
  | error e => rw [hr] at h; cases h
  | ok r => rw [hr] at h; exact ⟨r.1, r.2, rfl, h⟩

/-- Whatever follows, the tokens give the value and leave what follows behind these. -/
def Stays (p : Parser α) (ts : List Token) (a : α) (us : List Token) : Prop :=
  ∀ tail, Stopping tail → p.run (items ts ++ tail) = .ok (a, items us ++ tail)

/-- What the first parser reads from tokens up to their end, the second one reads from tokens like them also
where more follows. -/
def SteadyOn (p p' : Parser α) (ts ts' : List Token) : Prop :=
  ∀ a rest, p.run (items ts) = .ok (a, rest) → ∃ us us', rest = items us ∧ us <:+ ts ∧ Alike us us' ∧
    p'.Stays ts' a us'

class Steady (p p' : Parser α) : Prop where
  on : ∀ {ts ts'}, Alike ts ts' → SteadyOn p p' ts ts'

variable {p p' : Parser α} {f f' : α → Parser β} {ts ts' : List Token} {t t' : Token}

instance steady_pure (a : α) : Steady (pure a : Parser α) (pure a) where
  on {ts ts'} hts := by
    rintro b rest ⟨⟩
    exact ⟨ts, ts', rfl, List.suffix_refl ts, hts, fun tail _ => rfl⟩

instance steady_fail (e : ParseError) (p' : Parser α) : Steady (fail e) p' where
  on _ := by rintro b rest ⟨⟩

theorem Steady.bind (hp : Steady p p') (hf : ∀ a, Steady (f a) (f' a)) : Steady (p >>= f) (p' >>= f') where
  on {ts ts'} hts := by
    intro b rest h
    obtain ⟨a, rest', hr, h⟩ := run_bind_eq_ok h
    obtain ⟨us, us', rfl, hsuffix, hus, hstays⟩ := hp.on hts a rest' hr
    obtain ⟨vs, vs', hrest, hsuffix', hvs, hstays'⟩ := (hf a).on hus b rest h
    refine ⟨vs, vs', hrest, hsuffix'.trans hsuffix, hvs, fun tail htail => ?_⟩
    rw [run_bind, hstays tail htail]
    exact hstays' tail htail

theorem Steady.ite {c : Prop} [Decidable c] {q q' : Parser α} (hp : Steady p p') (hq : Steady q q') :
    Steady (if c then p else q) (if c then p' else q') := by
  split
  · exact hp
  · exact hq

instance steady_bind [hp : Steady p p'] [hf : ∀ a, Steady (f a) (f' a)] : Steady (p >>= f) (p' >>= f') := hp.bind hf

instance steady_ite {c : Prop} [Decidable c] {q q' : Parser α} [hp : Steady p p'] [hq : Steady q q'] :
    Steady (if c then p else q) (if c then p' else q') := hp.ite hq

/-! ### Tokens looked at and taken -/

/-- At the end there is nothing to leave. -/
theorem steady_at_end (h : Steady p p') {a : α} {rest : Tokens} (hrun : p.run [] = .ok (a, rest)) :
    rest = [] ∧ p'.Stays [] a [] := by
  obtain ⟨us, us', rfl, hsuffix, hus, hstays⟩ := h.on .nil a rest hrun
  obtain rfl := List.suffix_nil.1 hsuffix
  cases hus
  exact ⟨rfl, hstays⟩

/-- A parser that looks ahead sees the same token, or none at the end and one that stops in a script. -/
theorem steady_peek_bind {f f' : Option Token → Parser β}
    (htoken : ∀ t t' ts ts', t.Alike t' → Alike ts ts' → SteadyOn (f (some t)) (f' (some t')) (t :: ts) (t' :: ts'))
    (hstop : ∀ t' : Token, t'.kind.stops = true → Steady (f none) (f' (some t'))) (hnone : Steady (f none) (f' none)) :
    Steady (peek >>= f) (peek >>= f') where
  on {ts ts'} hts b rest hrun := by
    cases hts with
    | nil =>
        obtain ⟨rfl, hstays⟩ := steady_at_end hnone hrun
        refine ⟨[], [], rfl, List.suffix_refl [], .nil, fun tail htail => ?_⟩
        cases tail with
        | nil => exact hstays [] htail
        | cons item tail =>
            obtain ⟨t', rfl, ht⟩ := htail item rfl
            exact (steady_at_end (hstop t' ht) hrun).2 _ htail
    | cons ht hts => exact htoken _ _ _ _ ht hts b rest hrun

theorem steadyOn_next_bind {f f' : Option Token → Parser β} (h : SteadyOn (f (some t)) (f' (some t')) ts ts') :
    SteadyOn (next >>= f) (next >>= f') (t :: ts) (t' :: ts') := by
  intro b rest hrun
  obtain ⟨us, us', hrest, hsuffix, hus, hstays⟩ := h b rest hrun
  exact ⟨us, us', hrest, hsuffix.trans (List.suffix_cons t ts), hus, hstays⟩

/-- A token that has to be there. -/
theorem steady_next_bind {f f' : Option Token → Parser β} (hend : ∀ b rest, (f none).run [] ≠ .ok (b, rest))
    (h : ∀ t t' : Token, t.Alike t' → Steady (f (some t)) (f' (some t'))) : Steady (next >>= f) (next >>= f') where
  on hts := by
    cases hts with
    | nil => exact fun b rest hrun => absurd hrun (hend b rest)
    | cons ht hts => exact steadyOn_next_bind ((h _ _ ht).on hts)

instance steady_expect (expected : String) (value? : TokenKind → Option α) :
    Steady (expect expected value?) (expect expected value?) := by
  refine steady_next_bind (fun b rest => ?_) fun t t' ht => ?_
  · rintro ⟨⟩
  · simp only [Option.bind_some, ht.kind]
    cases value? t.kind with
    | none => exact steady_fail _ _
    | some a => exact steady_pure a

/-- What stops is not taken. -/
theorem steady_eat {accept : TokenKind → Bool} (h : ∀ k : TokenKind, k.stops = true → accept k = false) :
    Steady (eat accept) (eat accept) := by
  refine steady_peek_bind (fun t t' ts ts' ht hts => ?_) (fun t' ht => ?_) (steady_pure false)
  · simp only [ht.kind]
    split
    · exact steadyOn_next_bind ((steady_pure true).on hts)
    · exact (steady_pure false).on (.cons ht hts)
  · simp only [h _ ht]
    exact steady_pure false

instance steady_eatWord (w : String) : Steady (eatWord w) (eatWord w) :=
  steady_eat fun k hk => by cases k <;> first | rfl | cases hk

theorem steady_eatSymbol {k : TokenKind} (hk : k.stops = false) : Steady (eatSymbol k) (eatSymbol k) := by
  refine steady_eat fun k' hk' => beq_eq_false_iff_ne.2 ?_
  rintro rfl
  rw [hk] at hk'
  cases hk'

instance steady_eatLeftParen : Steady (eatSymbol .leftParen) (eatSymbol .leftParen) := steady_eatSymbol rfl

instance steady_eatEquals : Steady (eatSymbol .equals) (eatSymbol .equals) := steady_eatSymbol rfl

instance steady_eatEither (w w' : String) : Steady (eatEither w w') (eatEither w w') := by
  unfold eatEither
  infer_instance

instance steady_symbol (k : TokenKind) : Steady (symbol k) (symbol k) := steady_expect _ _

instance steady_keyword (w : String) : Steady (keyword w) (keyword w) := steady_expect _ _

instance steady_identifier : Steady identifier identifier := steady_expect _ _

instance steady_name : Steady name name := steady_expect _ _

instance steady_stringLiteral : Steady stringLiteral stringLiteral := steady_expect _ _

instance steady_unsignedInteger : Steady unsignedInteger unsignedInteger := steady_expect _ _

instance steady_startLength : Steady startLength startLength := steady_expect _ _

instance steady_flag : Steady flag flag := steady_expect _ _

theorem lowerWord?_of_stops {k : TokenKind} (h : k.stops = true) : k.lowerWord? = none := by
  cases k <;> first | rfl | cases h

/-! ### Parsers that may lack a token -/

/-- The next token, if there is one, ends a statement or is the first word of one. -/
def Starting (tail : Tokens) : Prop := ∀ item ∈ tail.head?, ∃ t : Token, item = .ok t ∧ t.kind.starts = true

/-- The tokens give the value up to their end, and the same value if a token that stops comes behind them,
which is taken. -/
structure TakesOne (p : Parser α) (ts : List Token) (a : α) : Prop where
  at_end : p.run (items ts) = .ok (a, [])
  before : ∀ (t : Token) (tail : Tokens), t.kind.stops = true → Starting tail →
    p.run (items ts ++ .ok t :: tail) = .ok (a, tail)

/-- A parser reads as a steady one does, or else it came to the end where it still takes any token. -/
def LooseOn (Q : List Token → Prop) (p : Parser α) (ts ts' : List Token) : Prop :=
  ∀ a rest, p.run (items ts) = .ok (a, rest) →
    (∃ us us', rest = items us ∧ us <:+ ts ∧ Alike us us' ∧ p.Stays ts' a us') ∨ Q ts ∧ rest = [] ∧ p.TakesOne ts' a

/-- A parser that is steady but where the tokens that it reads are of a certain form. -/
structure Loose (Q : List Token → Prop) (p : Parser α) : Prop where
  on : ∀ {ts ts'}, Alike ts ts' → LooseOn Q p ts ts'

variable {Q Q' Q'' : List Token → Prop}

theorem SteadyOn.loose (h : SteadyOn p p ts ts') : LooseOn Q p ts ts' := fun a rest hrun => .inl (h a rest hrun)

theorem Steady.loose (h : Steady p p) : Loose Q p := ⟨fun hts => (h.on hts).loose⟩

theorem Loose.mono (h : Loose Q' p) (hQ : ∀ ts, Q' ts → Q ts) : Loose Q p where
  on hts a rest hrun := (h.on hts a rest hrun).imp_right fun ⟨hend, hrest⟩ => ⟨hQ _ hend, hrest⟩

theorem steady_of_loose (h : Loose (fun _ => False) p) : Steady p p where
  on hts a rest hrun := (h.on hts a rest hrun).resolve_right fun hfalse => hfalse.1

theorem Stays.at_end {a : α} {us : List Token} (h : p.Stays ts a us) : p.run (items ts) = .ok (a, items us) := by
  have hone := h [] stopping_nil
  rwa [List.append_nil, List.append_nil] at hone

/-- Where the first parser takes a token that was lacking, the second one has nothing left to read. -/
theorem LooseOn.bind (hp : LooseOn Q' p ts ts') (hQ' : Q' ts → Q ts) (hQ : ∀ us, us <:+ ts → Q'' us → Q ts)
    (hf : ∀ a us us', us <:+ ts → Alike us us' → LooseOn Q'' (f a) us us')
    (hnothing : Q' ts → ∀ a b rest, (f a).run [] = .ok (b, rest) →
      rest = [] ∧ ∀ tail, Starting tail → (f a).run tail = .ok (b, tail)) : LooseOn Q (p >>= f) ts ts' := by
  intro b rest h
  obtain ⟨a, rest', hr, h⟩ := run_bind_eq_ok h
  rcases hp a rest' hr with ⟨us, us', rfl, hsuffix, hus, hstays⟩ | ⟨hend, rfl, htakes⟩
  · rcases hf a us us' hsuffix hus b rest h with ⟨vs, vs', hrest, hsuffix', hvs, hstays'⟩ | ⟨hend, hrest, htakes⟩
    · refine .inl ⟨vs, vs', hrest, hsuffix'.trans hsuffix, hvs, fun tail htail => ?_⟩
      rw [run_bind, hstays tail htail]
      exact hstays' tail htail
    · refine .inr ⟨hQ us hsuffix hend, hrest, ?_, fun t tail ht htail => ?_⟩
      · rw [run_bind, hstays.at_end]
        exact htakes.at_end
      · rw [run_bind, hstays _ (stopping_cons ht tail)]
        exact htakes.before t tail ht htail
  · obtain ⟨rfl, hdone⟩ := hnothing hend a b rest h
    refine .inr ⟨hQ' hend, rfl, ?_, fun t tail ht htail => ?_⟩
    · rw [run_bind, htakes.at_end]
      exact h
    · rw [run_bind, htakes.before t tail ht htail]
      exact hdone tail htail

theorem Loose.map (h : Loose Q' p) (hQ : ∀ ts, Q' ts → Q ts) (g : α → β) : Loose Q (p >>= fun a => pure (g a)) where
  on {ts ts'} hts := by
    have hpure (a : α) (us us' : List Token) (hus : Alike us us') : LooseOn (fun _ => False) (pure (g a)) us us' :=
      ((steady_pure (g a)).on hus).loose
    refine (h.on hts).bind (hQ ts) (fun _ _ => False.elim) (fun a us us' _ hus => hpure a us us' hus) ?_
    rintro - a b rest ⟨⟩
    exact ⟨rfl, fun tail _ => rfl⟩

theorem Steady.bind_loose (hp : Steady p p) (hQ : ∀ us ts, us <:+ ts → Q us → Q ts) (hf : ∀ a, Loose Q (f a)) :
    Loose Q (p >>= f) where
  on {ts ts'} hts := by
    have hp' : LooseOn (fun _ => False) p ts ts' := (hp.on hts).loose
    exact hp'.bind False.elim (fun us => hQ us ts) (fun a us us' _ hus => (hf a).on hus) False.elim

/-- A parser that does as another one on tokens that start with the given one. -/
theorem LooseOn.congr (h : LooseOn Q p (t :: ts) (t' :: ts')) {p₁ : Parser α}
    (ht : ∀ r, p₁.run (.ok t :: r) = p.run (.ok t :: r)) (ht' : ∀ r, p₁.run (.ok t' :: r) = p.run (.ok t' :: r)) :
    LooseOn Q p₁ (t :: ts) (t' :: ts') := by
  intro a rest hrun
  rw [items_cons, ht] at hrun
  rcases h a rest hrun with ⟨us, us', hrest, hsuffix, hus, hstays⟩ | ⟨hend, hrest, htakes⟩
  · exact .inl ⟨us, us', hrest, hsuffix, hus, fun tail htail => (ht' _).trans (hstays tail htail)⟩
  · exact .inr ⟨hend, hrest, (ht' _).trans htakes.at_end,
      fun u tail hu htail => (ht' _).trans (htakes.before u tail hu htail)⟩

theorem peekWord_bind_stopping {g : Option String → Parser β} {tail : Tokens} (h : Stopping tail) :
    (peekWord >>= g).run tail = (g none).run tail := by
  cases tail with
  | nil => rfl
  | cons item tail =>
      obtain ⟨t, rfl, ht⟩ := h item rfl
      change (g t.kind.lowerWord?).run _ = _
      rw [lowerWord?_of_stops ht]

/-- A parser that goes by the word it stands at; it may take the word. -/
theorem loose_peekWord_bind {g : Option String → Parser β} (hnone : Loose Q (g none))
    (hword : ∀ w t t' ts ts', t.Alike t' → Alike ts ts' → LooseOn Q (g (some w)) (t :: ts) (t' :: ts')) :
    Loose Q (peekWord >>= g) where
  on hts := by
    cases hts with
    | nil =>
        intro b rest hrun
        rcases hnone.on .nil b rest hrun with ⟨us, us', hrest, hsuffix, hus, hstays⟩ | ⟨hend, hrest, htakes⟩
        · exact .inl ⟨us, us', hrest, hsuffix, hus,
            fun tail htail => (peekWord_bind_stopping htail).trans (hstays tail htail)⟩
        · refine .inr ⟨hend, hrest, htakes.at_end, fun t tail ht htail => ?_⟩
          exact (peekWord_bind_stopping (stopping_cons ht tail)).trans (htakes.before t tail ht htail)
    | @cons t t' ts ts' ht hts =>
        have hword' : LooseOn Q (g t.kind.lowerWord?) (t :: ts) (t' :: ts') := by
          cases t.kind.lowerWord? with
          | none => exact hnone.on (.cons ht hts)
          | some w => exact hword w t t' ts ts' ht hts
        exact hword'.congr (fun _ => rfl) fun _ => by rw [← ht.kind]; rfl

theorem steady_peekWord_bind {g : Option String → Parser β} (hnone : Steady (g none) (g none))
    (hword : ∀ w t t' ts ts', t.Alike t' → Alike ts ts' → SteadyOn (g (some w)) (g (some w)) (t :: ts) (t' :: ts')) :
    Steady (peekWord >>= g) (peekWord >>= g) :=
  steady_of_loose (loose_peekWord_bind hnone.loose fun w t t' ts ts' ht hts => (hword w t t' ts ts' ht hts).loose)

/-! ### Loops -/

section Loops

variable {round : σ → Token → Option (Parser (Round σ))} {s : σ} {q : Parser (Round σ)}

theorem loop_run_none {tail : Tokens} (h : ∀ item ∈ tail.head?, ∃ t : Token, item = .ok t ∧ round s t = none) :
    (loop round s).run tail = .ok (s, tail) := by
  change loopRun round s _ = _
  cases tail with
  | nil => rw [loopRun]
  | cons item tail =>
      obtain ⟨t, rfl, ht⟩ := h item rfl
      rw [loopRun]
      simp only [ht]

theorem loop_run_error (e : LexError) (r : Tokens) : (loop round s).run (.error e :: r) = .error (.lexical e) := by
  change loopRun round s _ = _
  rw [loopRun]

/-- What is left to do after a round. -/
def afterRound (round : σ → Token → Option (Parser (Round σ))) : Round σ → Parser σ
  | .stop s => pure s
  | .again s => loop round s

/-- A loop is a round and what is left to do then. -/
theorem loop_run_cons (h : round s t = some q) (r : Tokens) :
    (loop round s).run (.ok t :: r) = (q >>= afterRound round).run r := by
  change loopRun round s _ = _
  rw [loopRun, run_bind]
  simp only [h]
  split
  · rename_i he; rw [he]
  · rename_i he; rw [he]; rfl
  · rename_i he; rw [he]; rfl

/-- Rounds that go by the kind of the token before them. -/
structure ByKind (round : σ → Token → Option (Parser (Round σ))) : Prop where
  same : ∀ s (t t' : Token), t.kind = t'.kind → round s t = round s t'
  stops : ∀ s (t : Token), t.kind.stops = true → round s t = none

theorem LooseOn.cons (h : LooseOn (fun ts => Q (t :: ts)) p ts ts') {p₁ : Parser α}
    (ht : ∀ r, p₁.run (.ok t :: r) = p.run r) (ht' : ∀ r, p₁.run (.ok t' :: r) = p.run r) :
    LooseOn Q p₁ (t :: ts) (t' :: ts') := by
  intro a rest hrun
  rw [items_cons, ht] at hrun
  rcases h a rest hrun with ⟨us, us', hrest, hsuffix, hus, hstays⟩ | ⟨hend, hrest, htakes⟩
  · exact .inl ⟨us, us', hrest, hsuffix.trans (List.suffix_cons t ts), hus,
      fun tail htail => (ht' _).trans (hstays tail htail)⟩
  · exact .inr ⟨hend, hrest, (ht' _).trans htakes.at_end,
      fun u tail hu htail => (ht' _).trans (htakes.before u tail hu htail)⟩

theorem loose_loop (hkind : ByKind round) (hQ : ∀ us ts, us <:+ ts → Q us → Q ts)
    (hstarts : ∀ ts, Q ts → ∀ s (t : Token), t.kind.starts = true → round s t = none)
    (hround : ∀ s t q, round s t = some q → Loose (fun ts => Q (t :: ts)) q) (s : σ) : Loose Q (loop round s) where
  on {ts ts'} hts := by
    -- Every round takes a token, so that what is left to do is on fewer of them.
    induction hn : ts.length using Nat.strongRecOn generalizing ts ts' s with
    | _ n ih =>
        cases hts with
        | nil =>
            intro a rest hrun
            have hdone : (loop round s).run [] = .ok (s, []) := loop_run_none (by simp)
            rw [items_nil, hdone] at hrun
            cases hrun
            refine .inl ⟨[], [], rfl, List.suffix_refl [], .nil, fun tail htail => loop_run_none fun item hitem => ?_⟩
            obtain ⟨t, rfl, ht⟩ := htail item hitem
            exact ⟨t, rfl, hkind.stops s t ht⟩
        | @cons t t' ts ts' ht hts =>
            have hsame := hkind.same s t' t ht.kind
            cases hq : round s t with
            | none =>
                intro a rest hrun
                have hstay (u : Token) (hu : round s u = none) (us : Tokens) :
                    (loop round s).run (.ok u :: us) = .ok (s, .ok u :: us) :=
                  loop_run_none (by rintro item ⟨⟩; exact ⟨u, rfl, hu⟩)
                rw [items_cons, hstay t hq] at hrun
                cases hrun
                exact .inl ⟨t :: ts, t' :: ts', rfl, List.suffix_refl _, .cons ht hts,
                  fun tail _ => hstay t' (hsame.trans hq) _⟩
            | some q =>
                refine LooseOn.cons ?_ (loop_run_cons hq) (loop_run_cons (hsame.trans hq))
                refine ((hround s t q hq).on hts).bind id (fun us hus => hQ _ _ (hus.trans (List.suffix_cons t ts)))
                  (fun o us us' hsuffix hus => ?_) fun hend o b rest hrun => ?_
                · cases o with
                  | stop s' => exact ((steady_pure s').on hus).loose
                  | again s' =>
                      have hle := hsuffix.length_le
                      rw [List.length_cons] at hn
                      exact ih us.length (by omega) s' hus rfl
                · cases o with
                  | stop s' => cases hrun; exact ⟨rfl, fun tail _ => rfl⟩
                  | again s' =>
                      have hdone : (loop round s').run [] = .ok (s', []) := loop_run_none (by simp)
                      cases hdone.symm.trans hrun
                      refine ⟨rfl, fun tail htail => loop_run_none fun item hitem => ?_⟩
                      obtain ⟨u, rfl, hu⟩ := htail item hitem
                      exact ⟨u, rfl, hstarts _ hend _ u hu⟩

theorem steady_loop (hkind : ByKind round) (hround : ∀ s t q, round s t = some q → Steady q q) (s : σ) :
    Steady (loop round s) (loop round s) :=
  steady_of_loose (loose_loop hkind (fun _ _ _ => id) (fun _ => False.elim) (fun s t q h => (hround s t q h).loose) s)

end Loops

/-! ### Lists -/

/-- A round of a list: a comma and an item. -/
def commaRound (item : Parser α) (done : List α) (t : Token) : Option (Parser (Round (List α))) :=
  if t.kind = .comma then some (do return .again ((← item) :: done)) else none

theorem commaList_eq (item : Parser α) : commaList item =
    item >>= fun first => loop (commaRound item) [] >>= fun more => pure (first :: more.reverse) := rfl

theorem commaRound_other {item : Parser α} {done : List α} (h : t.kind ≠ .comma) : commaRound item done t = none :=
  if_neg h

theorem loose_commaRound {item : Parser α} (hitem : Loose Q item) (hQ : ∀ us ts, us <:+ ts → Q us → Q ts)
    (done : List α) : Loose Q (loop (commaRound item) done) := by
  refine loose_loop ⟨fun s t t' h => ?_, fun s t h => ?_⟩ hQ (fun ts _ s t h => ?_) (fun s t q h => ?_) done
  · simp only [commaRound, h]
  · exact commaRound_other fun hc => by rw [hc] at h; cases h
  · exact commaRound_other fun hc => by rw [hc] at h; cases h
  · rw [commaRound] at h
    split at h <;> cases h
    exact hitem.map (fun ts => hQ ts _ (List.suffix_cons t ts)) _

theorem loose_commaList {item : Parser α} (hitem : Loose Q item) (hQ : ∀ us ts, us <:+ ts → Q us → Q ts) :
    Loose Q (commaList item) where
  on hts := by
    rw [commaList_eq]
    refine (hitem.on hts).bind id (fun us => hQ us _)
      (fun first us us' _ hus => ((loose_commaRound hitem hQ []).map (fun _ => id) _).on hus) ?_
    intro _ first b rest hrun
    have hdone (tail : Tokens) (htail : Starting tail) :
        (loop (commaRound item) [] >>= fun more => pure (first :: more.reverse)).run tail = .ok ([first], tail) := by
      rw [run_bind, loop_run_none]
      · rfl
      · intro item hitem
        obtain ⟨t, rfl, ht⟩ := htail item hitem
        exact ⟨t, rfl, commaRound_other fun hc => by rw [hc] at ht; cases ht⟩
    cases (hdone [] (by rintro item ⟨⟩)).symm.trans hrun
    exact ⟨rfl, hdone⟩

instance steady_commaList {item : Parser α} [hitem : Steady item item] : Steady (commaList item) (commaList item) :=
  steady_of_loose (loose_commaList hitem.loose fun _ _ _ => id)

instance steady_parenthesized {item : Parser α} [Steady item item] :
    Steady (parenthesized item) (parenthesized item) := by
  unfold parenthesized
  infer_instance

instance steady_tableName : Steady tableName tableName := by
  have hmore (first : String) : Steady (loop (fun _ t =>
      if t.kind = .dot then some (do return .again (← identifier)) else none) first) (loop (fun _ t =>
      if t.kind = .dot then some (do return .again (← identifier)) else none) first) := by
    refine steady_loop ⟨fun s t t' h => ?_, fun s t h => ?_⟩ (fun s t q h => ?_) first
    · simp only [h]
    · exact if_neg fun hc => by rw [hc] at h; cases h
    · split at h <;> cases h
      infer_instance
  unfold tableName
  infer_instance

/-! ### Text in parentheses -/

theorem balancedRun_alike {depth : Nat} (hts : Alike ts ts') {inner : List Token} {rest : Tokens}
    (h : balancedRun depth (items ts) = .ok (inner, rest)) :
    ∃ inner' us us', Alike inner inner' ∧ rest = items us ∧ us <:+ ts ∧ Alike us us' ∧
      ∀ tail, balancedRun depth (items ts' ++ tail) = .ok (inner', items us' ++ tail) := by
  induction hts generalizing depth inner with
  | nil => cases h
  | @cons t t' ts ts' ht hts ih =>
      rw [items_cons] at h
      rcases balancedRun_cons depth t.kind with hclosed | ⟨depth', hmore⟩
      · rw [(hclosed t _ rfl).1] at h
        cases h
        exact ⟨[t'], ts, ts', .cons ht .nil, rfl, List.suffix_cons t ts, hts, fun tail => (hclosed t' _ ht.kind).1⟩
      · rw [(hmore t _ rfl).1] at h
        cases hr : balancedRun depth' (items ts) with
        | error e => rw [hr] at h; cases h
        | ok r =>
            rw [hr] at h
            cases h
            obtain ⟨inner', us, us', hinner, hrest, hsuffix, hus, hrun⟩ := ih hr
            refine ⟨t' :: inner', us, us', .cons ht hinner, hrest, hsuffix.trans (List.suffix_cons t ts), hus,
              fun tail => ?_⟩
            rw [items_cons, List.cons_append, (hmore t' _ ht.kind).1, hrun]
            rfl

theorem steady_balanced_bind {f f' : List Token → Parser β}
    (h : ∀ inner inner', Alike inner inner' → Steady (f inner) (f' inner')) :
    Steady (balanced >>= f) (balanced >>= f') where
  on hts := by
    intro b rest hrun
    obtain ⟨inner, rest', hr, hrun⟩ := run_bind_eq_ok hrun
    obtain ⟨inner', us, us', hinner, rfl, hsuffix, hus, hbalanced⟩ := balancedRun_alike hts hr
    obtain ⟨vs, vs', hrest, hsuffix', hvs, hstays⟩ := (h inner inner' hinner).on hus b rest hrun
    refine ⟨vs, vs', hrest, hsuffix'.trans hsuffix, hvs, fun tail htail => ?_⟩
    have hsame : balanced.run (items _ ++ tail) = .ok (inner', items us' ++ tail) := hbalanced tail
    rw [run_bind, hsame]
    exact hstays tail htail

end Parser

end DdlCatalog.Sql
