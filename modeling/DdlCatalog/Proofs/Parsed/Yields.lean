import DdlCatalog.Sql.Parser

/-!
What is true of whatever a parser reads, wherever in a script it starts. A parser in two steps may use in the
second what the first one read; a loop keeps what every round keeps.
-/

namespace DdlCatalog.Sql

variable {α β σ : Type} {script ts rest : Tokens}

theorem Leaves.suffix (h : Leaves ts rest) : rest <:+ ts := by
  obtain ⟨taken, rfl⟩ := h
  exact List.suffix_append ..

/-- The state after a round, the last one or not. -/
def Round.state : Round σ → σ
  | .stop s | .again s => s

namespace Parser

/-- What a parser reads from some tokens, if it does not fail. -/
def YieldsOn (ts : Tokens) (p : Parser α) (Q : α → Prop) : Prop := ∀ a rest, p.run ts = .ok (a, rest) → Q a

/-- What a parser reads from anywhere in a script, if it does not fail. -/
def Yields (script : Tokens) (p : Parser α) (Q : α → Prop) : Prop := ∀ ts, ts <:+ script → YieldsOn ts p Q

variable {p q : Parser α} {f : α → Parser β} {P R : α → Prop} {Q : β → Prop}

theorem YieldsOn.mono (h : YieldsOn ts p P) (hP : ∀ a, P a → R a) : YieldsOn ts p R :=
  fun a rest hrun => hP a (h a rest hrun)

theorem Yields.mono (h : Yields script p P) (hP : ∀ a, P a → R a) : Yields script p R :=
  fun ts hts => (h ts hts).mono hP

/-- A token stands behind the one before it. -/
theorem Yields.behind {t : Token} {r : Tokens} (h : Yields script p P) (hr : .ok t :: r <:+ script) :
    YieldsOn r p P :=
  h r ((List.suffix_cons ..).trans hr)

theorem yields_true (p : Parser α) : Yields script p fun _ => True := fun _ _ _ _ _ => trivial

theorem yieldsOn_pure {a : α} (h : P a) : YieldsOn ts (pure a) P := by
  rintro _ _ ⟨⟩
  exact h

theorem yields_pure {a : α} (h : P a) : Yields script (pure a) P := fun _ _ => yieldsOn_pure h

theorem yields_fail (e : ParseError) : Yields script (fail e) P := by rintro _ _ _ _ ⟨⟩

theorem YieldsOn.bind (hp : YieldsOn ts p P)
    (hf : ∀ a rest, p.run ts = .ok (a, rest) → P a → YieldsOn rest (f a) Q) : YieldsOn ts (p >>= f) Q := by
  intro b rest h
  rw [run_bind] at h
  cases hr : p.run ts with
  | error e => rw [hr] at h; cases h
  | ok r =>
      rw [hr] at h
      exact hf r.1 r.2 hr (hp r.1 r.2 hr) b rest h

theorem Yields.bind (hp : Yields script p P) (hf : ∀ a, P a → Yields script (f a) Q) : Yields script (p >>= f) Q :=
  fun ts hts => (hp ts hts).bind fun a _ hr ha => hf a ha _ ((p.leaves_run hr).suffix.trans hts)

/-- Two steps of which the first is only to be passed. -/
theorem yields_seq (hf : ∀ a, Yields script (f a) Q) : Yields script (p >>= f) Q :=
  (yields_true p).bind fun a _ => hf a

theorem YieldsOn.map {g : α → β} (hp : YieldsOn ts p P) (hg : ∀ a, P a → Q (g a)) :
    YieldsOn ts (p >>= fun a => pure (g a)) Q :=
  hp.bind fun a _ _ ha => yieldsOn_pure (hg a ha)

theorem Yields.map {g : α → β} (hp : Yields script p P) (hg : ∀ a, P a → Q (g a)) :
    Yields script (p >>= fun a => pure (g a)) Q :=
  fun ts hts => (hp ts hts).map hg

/-- Nothing is read behind a failure. -/
theorem yields_fail_bind (e : ParseError) : Yields script (fail e >>= f) Q := by rintro _ _ _ _ ⟨⟩

theorem yields_ite {c : Prop} [Decidable c] (hp : Yields script p P) (hq : Yields script q P) :
    Yields script (if c then p else q) P := by
  split
  · exact hp
  · exact hq

/-! ### Loops -/

section Loops

variable {round : σ → Token → Option (Parser (Round σ))} {I : σ → Prop} {s : σ}

/-- A round may use that the token it goes by stands right before what it reads. -/
theorem yields_loopOn (hround : ∀ s t q r, I s → round s t = some q → .ok t :: r <:+ script →
    YieldsOn r q fun step => I step.state) (hs : I s) : Yields script (loop round s) I := by
  intro ts hts a rest hrun
  change loopRun round s ts = _ at hrun
  fun_induction loopRun round s ts with
  | case1 => cases hrun; exact hs
  | case2 => cases hrun
  | case3 => cases hrun; exact hs
  | case4 => cases hrun
  | case5 s t r q hq s' rest' hr =>
      cases hrun
      exact hround s t q r hs hq hts _ _ hr
  | case6 s t r q hq s' rest' hr ih =>
      have hleft : rest' <:+ script := (q.leaves_run hr).suffix.trans ((List.suffix_cons ..).trans hts)
      exact ih (hround s t q r hs hq hts _ _ hr) hleft hrun

theorem yields_loop (hround : ∀ s t q, I s → round s t = some q → Yields script q fun step => I step.state)
    (hs : I s) : Yields script (loop round s) I :=
  yields_loopOn (fun s t q _ hI hq hts => (hround s t q hI hq).behind hts) hs

end Loops

/-! ### Words and lists -/

/-- A word that has to be there stands right before what is read behind it. -/
theorem yieldsOn_keyword_bind {w : String} {f : Unit → Parser β}
    (h : ∀ (t : Token) r, t.kind.isWord w = true → ts = .ok t :: r → YieldsOn r (f ()) Q) :
    YieldsOn ts (keyword w >>= f) Q := by
  intro b rest hrun
  rw [run_bind, keyword, expect, run_bind] at hrun
  cases ts with
  | nil => cases hrun
  | cons item r =>
      cases item with
      | error e => cases hrun
      | ok t =>
          cases hw : t.kind.isWord w with
          | true =>
              simp only [next, Option.bind_some, hw, if_true] at hrun
              exact h t r hw rfl b rest hrun
          | false =>
              simp only [next, Option.bind_some, hw, Bool.false_eq_true, if_false] at hrun
              cases hrun

theorem yields_keyword_bind {w : String} {f : Unit → Parser β}
    (h : ∀ (t : Token) r, t.kind.isWord w = true → .ok t :: r <:+ script → YieldsOn r (f ()) Q) :
    Yields script (keyword w >>= f) Q :=
  fun _ hts => yieldsOn_keyword_bind fun t r ht hr => h t r ht (hr ▸ hts)

/-- Items of which there is one at least, and all of which are such. -/
def AllOf (P : α → Prop) (as : List α) : Prop := as ≠ [] ∧ ∀ a ∈ as, P a

theorem Yields.commaList (h : Yields script p P) : Yields script (Parser.commaList p) (AllOf P) := by
  refine h.bind fun first hfirst => ?_
  have hmore : Yields script (loop (fun done t =>
      if t.kind = .comma then some (do return .again ((← p) :: done)) else none) []) fun done => ∀ a ∈ done, P a := by
    refine yields_loop (fun done t q hdone hq => ?_) (by simp)
    split at hq <;> cases hq
    exact h.map fun a ha b hb => (List.mem_cons.1 hb).elim (· ▸ ha) (hdone b)
  refine hmore.map fun more hall => ⟨List.cons_ne_nil _ _, fun a ha => ?_⟩
  rcases List.mem_cons.1 ha with rfl | ha
  · exact hfirst
  · exact hall a (List.mem_reverse.1 ha)

theorem Yields.parenthesized (h : Yields script p P) : Yields script (Parser.parenthesized p) (AllOf P) :=
  yields_seq fun _ => h.commaList.bind fun _ has => yields_seq fun _ => yields_pure has

end Parser

end DdlCatalog.Sql
