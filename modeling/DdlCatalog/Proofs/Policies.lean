import DdlCatalog.Proofs.Edit

/-!
An edit under both policies at once. As long as the lenient run ignores nothing the strict run does the
same; the first error that the lenient run ignores is the one the strict run is refused with.
-/

namespace DdlCatalog

/-- The error that is ignored. -/
def Event.ignored? : Event → Option ReferenceError
  | .ignored r => some r
  | _ => none

theorem Event.ignored?_isSome_iff (event : Event) :
    event.ignored?.isSome = true ↔ event.message = "ignoring unresolved reference" := by
  cases event <;> simp [ignored?, message]

/-- The first error that is ignored. -/
def firstIgnored (events : List Event) : Option ReferenceError := events.findSome? Event.ignored?

@[simp]
theorem firstIgnored_nil : firstIgnored [] = none := rfl

theorem firstIgnored_append (events events' : List Event) :
    firstIgnored (events ++ events') = (firstIgnored events).or (firstIgnored events') :=
  List.findSome?_append

namespace Edit

variable {σ α β : Type} {R : σ → σ → Prop}

/-! ### Edits that ignore nothing -/

/-- No error is ignored on the way: a refusal is a refusal of the whole. -/
def Heedful (e : Edit σ α) : Prop := ∀ s, firstIgnored (e.run s).events = none

theorem heedful_pure (a : α) : (pure a : Edit σ α).Heedful := fun _ => rfl

theorem heedful_refuse (r : ReferenceError) : (refuse r : Edit σ α).Heedful := fun _ => rfl

theorem heedful_step {change : σ → Except ReferenceError σ} {events : σ → List Event}
    (h : ∀ s, firstIgnored (events s) = none) : (step change events).Heedful := by
  intro s
  rw [run_step]
  cases change s with
  | error r => rfl
  | ok s' => exact h s

theorem heedful_quiet (change : σ → Except ReferenceError σ) : (quiet change).Heedful :=
  heedful_step fun _ => rfl

theorem heedful_whole {change : σ → Except ReferenceError (α × σ)} {events : σ → List Event}
    (h : ∀ s, firstIgnored (events s) = none) : (whole change events).Heedful := by
  intro s
  rw [run_whole]
  cases change s with
  | error r => rfl
  | ok p => exact h s

theorem heedful_bind {e : Edit σ α} {f : α → Edit σ β} (he : e.Heedful) (hf : ∀ a, (f a).Heedful) :
    (e >>= f).Heedful := by
  intro s
  rw [run_bind]
  cases (e.run s).result with
  | error r => exact he s
  | ok a =>
      simp only [firstIgnored_append]
      rw [he s, hf a, Option.or_none]

theorem heedful_discard {e : Edit σ α} (he : e.Heedful) : (do let _ ← e : Edit σ Unit).Heedful :=
  heedful_bind he fun _ => heedful_pure ()

theorem heedful_forEach {edit : α → Edit σ Unit} (h : ∀ a, (edit a).Heedful) (as : List α) :
    (forEach edit as).Heedful := by
  induction as with
  | nil => exact heedful_pure ()
  | cons a as ih => exact heedful_bind (h a) fun _ => ih

/-! ### Two runs of an edit -/

/-- Runs of a heedful edit from states that are alike end alike. -/
structure Alike (R : σ → σ → Prop) (e e' : Edit σ Unit) : Prop where
  heedful : e.Heedful
  result_eq : ∀ s s', R s s' → (e.run s).result = (e'.run s').result
  state_rel : ∀ s s', R s s' → R (e.run s).state (e'.run s').state

theorem Heedful.alike {e : Edit σ Unit} (h : e.Heedful) : Alike Eq e e where
  heedful := h
  result_eq := by rintro s _ rfl; rfl
  state_rel := by rintro s _ rfl; rfl

theorem alike_refuse (r : ReferenceError) : Alike R (refuse r) (refuse r) where
  heedful := heedful_refuse r
  result_eq _ _ _ := rfl
  state_rel _ _ h := h

/-- A change that is refused alike on states that are alike. -/
theorem alike_quiet {change : σ → Except ReferenceError σ}
    (h : ∀ s s', R s s' → (∃ r, change s = .error r ∧ change s' = .error r) ∨
      ∃ t t', change s = .ok t ∧ change s' = .ok t' ∧ R t t') : Alike R (quiet change) (quiet change) where
  heedful := heedful_quiet change
  result_eq s s' hs := by
    rw [run_quiet, run_quiet]
    rcases h s s' hs with ⟨r, he, he'⟩ | ⟨t, t', he, he', -⟩ <;> rw [he, he']
  state_rel s s' hs := by
    rw [run_quiet, run_quiet]
    rcases h s s' hs with ⟨r, he, he'⟩ | ⟨t, t', he, he', ht⟩
    · rw [he, he']; exact hs
    · rw [he, he']; exact ht

/-- What the strict run comes to, by what the lenient one ignores: where that is nothing it is not
refused and ends alike, and otherwise it is refused with the first error ignored. -/
structure Predicts (R : σ → σ → Prop) (lenient strict : Outcome σ Unit) : Prop where
  none_ignored : firstIgnored lenient.events = none → strict.result = .ok () ∧ R lenient.state strict.state
  first_ignored : ∀ r, firstIgnored lenient.events = some r → strict.result = .error r

/-- The lenient edit is never refused, and it tells how the strict one ends from a state that is alike. -/
structure Agree (R : σ → σ → Prop) (lenient strict : Edit σ Unit) : Prop where
  lenient_ok : ∀ s, (lenient.run s).result = .ok ()
  predicts : ∀ s s', R s s' → Predicts R (lenient.run s) (strict.run s')

theorem predicts_done {s s' : σ} {events events' : List Event} (hs : R s s')
    (hn : firstIgnored events = none) : Predicts R ⟨.ok (), s, events⟩ ⟨.ok (), s', events'⟩ where
  none_ignored _ := ⟨rfl, hs⟩
  first_ignored r hi := by rw [hn] at hi; cases hi

theorem agree_pure : Agree R (pure ()) (pure ()) where
  lenient_ok _ := rfl
  predicts _ _ h := predicts_done h rfl

theorem agree_modify {change : σ → σ} (h : ∀ s s', R s s' → R (change s) (change s')) :
    Agree R (modify change) (modify change) where
  lenient_ok _ := rfl
  predicts s s' hs := predicts_done (h s s' hs) rfl

/-- The one place where the policies part. -/
theorem agree_under {e e' : Edit σ Unit} (h : Alike R e e') : Agree R (under .lenient e) (under .strict e') where
  lenient_ok s := by
    rw [run_under]
    cases hr : (e.run s).result with
    | error r => rfl
    | ok _ => exact hr
  predicts s s' hs := by
    have hquiet := h.heedful s
    have hstate := h.state_rel s s' hs
    have hresult := h.result_eq s s' hs
    rw [under_strict, run_under]
    cases hr : (e.run s).result with
    | error r =>
        constructor
        · intro hn
          rw [firstIgnored_append, hquiet] at hn
          cases hn
        · intro r' hi
          rw [firstIgnored_append, hquiet] at hi
          cases hi
          rw [← hresult, hr]
    | ok _ =>
        constructor
        · intro _
          rw [← hresult, hr]
          exact ⟨rfl, hstate⟩
        · intro r' hi
          rw [hquiet] at hi
          cases hi

/-- Past the first error that is ignored the strict run has come to its end. -/
theorem agree_bind {e e' f f' : Edit σ Unit} (he : Agree R e e') (hf : Agree R f f') :
    Agree R (do e; f) (do e'; f') where
  lenient_ok s := by
    rw [run_bind, he.lenient_ok]
    exact hf.lenient_ok _
  predicts s s' hs := by
    have hfirst := he.predicts s s' hs
    rw [run_bind, run_bind, he.lenient_ok]
    cases hi : firstIgnored (e.run s).events with
    | some r =>
        -- Whatever the lenient run ignores from here on comes after `r`.
        rw [hfirst.first_ignored r hi]
        constructor
        · intro hn
          rw [firstIgnored_append, hi] at hn
          cases hn
        · intro r' hr
          rw [firstIgnored_append, hi] at hr
          cases hr
          rfl
    | none =>
        obtain ⟨hr, hstate⟩ := hfirst.none_ignored hi
        have hsecond := hf.predicts _ _ hstate
        rw [hr]
        constructor
        · intro hn
          rw [firstIgnored_append, hi] at hn
          exact hsecond.none_ignored hn
        · intro r' hr'
          rw [firstIgnored_append, hi] at hr'
          exact hsecond.first_ignored r' hr'

theorem agree_forEach {edit edit' : α → Edit σ Unit} (h : ∀ a, Agree R (edit a) (edit' a)) (as : List α) :
    Agree R (forEach edit as) (forEach edit' as) := by
  induction as with
  | nil => exact agree_pure
  | cons a as ih => exact agree_bind (h a) ih

end Edit

end DdlCatalog
