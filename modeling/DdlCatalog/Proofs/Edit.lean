import DdlCatalog.Schema.Edit

/-!
Laws of edits: how they run, which of them leave everything as it was where they are refused, and
what a run of many keeps.
-/

namespace DdlCatalog.Edit

variable {σ α β γ : Type}

theorem ext_run {e e' : Edit σ α} (h : ∀ s, e.run s = e'.run s) : e = e' := funext h

@[simp]
theorem ok_bind (a : α) (f : α → Except ReferenceError β) : ((.ok a : Except ReferenceError α) >>= f) = f a :=
  rfl

@[simp]
theorem error_bind (r : ReferenceError) (f : α → Except ReferenceError β) :
    ((.error r : Except ReferenceError α) >>= f) = .error r := rfl

theorem bind_eq_ok_iff {x : Except ReferenceError α} {f : α → Except ReferenceError β} {b : β} :
    (x >>= f) = .ok b ↔ ∃ a, x = .ok a ∧ f a = .ok b := by
  cases x with
  | error r => simp
  | ok a => simp

@[simp]
theorem ok_map (a : α) (f : α → β) : (.ok a : Except ReferenceError α).map f = .ok (f a) := rfl

@[simp]
theorem error_map (r : ReferenceError) (f : α → β) : (.error r : Except ReferenceError α).map f = .error r := rfl

@[simp]
theorem map_ok (f : α → β) (a : α) : f <$> (.ok a : Except ReferenceError α) = .ok (f a) := rfl

@[simp]
theorem map_error (f : α → β) (r : ReferenceError) : f <$> (.error r : Except ReferenceError α) = .error r := rfl

/-! ### Running -/

@[simp]
theorem run_pure (a : α) (s : σ) : (pure a : Edit σ α).run s = ⟨.ok a, s, []⟩ := rfl

@[simp]
theorem run_get (s : σ) : (get : Edit σ σ).run s = ⟨.ok s, s, []⟩ := rfl

@[simp]
theorem run_report (event : Event) (s : σ) : (report event).run s = ⟨.ok (), s, [event]⟩ := rfl

@[simp]
theorem run_refuse (r : ReferenceError) (s : σ) : (refuse r : Edit σ α).run s = ⟨.error r, s, []⟩ := rfl

@[simp]
theorem run_modify (change : σ → σ) (s : σ) : (modify change).run s = ⟨.ok (), change s, []⟩ := rfl

@[simp]
theorem run_emit (events : σ → List Event) (s : σ) : (emit events).run s = ⟨.ok (), s, events s⟩ := rfl

@[simp]
theorem run_check (test : σ → Except ReferenceError α) (s : σ) : (check test).run s = ⟨test s, s, []⟩ := rfl

@[simp]
theorem run_attempt (e : Edit σ α) (s : σ) :
    (attempt e).run s = ⟨.ok (e.run s).result, (e.run s).state, (e.run s).events⟩ := rfl

theorem run_step (change : σ → Except ReferenceError σ) (events : σ → List Event) (s : σ) :
    (step change events).run s =
      match change s with
      | .error r => ⟨.error r, s, []⟩
      | .ok s' => ⟨.ok (), s', events s⟩ := rfl

theorem run_quiet (change : σ → Except ReferenceError σ) (s : σ) :
    (quiet change).run s =
      match change s with
      | .error r => ⟨.error r, s, []⟩
      | .ok s' => ⟨.ok (), s', []⟩ := rfl

theorem run_bind (e : Edit σ α) (f : α → Edit σ β) (s : σ) :
    (e >>= f).run s =
      match (e.run s).result with
      | .error r => ⟨.error r, (e.run s).state, (e.run s).events⟩
      | .ok a =>
        ⟨((f a).run (e.run s).state).result, ((f a).run (e.run s).state).state,
          (e.run s).events ++ ((f a).run (e.run s).state).events⟩ := rfl

theorem run_under (policy : Policy) (e : Edit σ Unit) (s : σ) :
    (under policy e).run s =
      match policy, (e.run s).result with
      | .lenient, .error r => ⟨.ok (), (e.run s).state, (e.run s).events ++ [.ignored r]⟩
      | _, _ => e.run s := rfl

@[simp]
theorem state_under (policy : Policy) (e : Edit σ Unit) (s : σ) :
    ((under policy e).run s).state = (e.run s).state := by
  rw [run_under]
  split <;> rfl

@[simp]
theorem under_strict (e : Edit σ Unit) : under .strict e = e := rfl

theorem forEach_nil (edit : α → Edit σ Unit) : forEach edit [] = pure () := rfl

theorem forEach_cons (edit : α → Edit σ Unit) (a : α) (as : List α) :
    forEach edit (a :: as) = (do edit a; forEach edit as) := rfl

theorem forEach_one (edit : α → Edit σ Unit) (a : α) : forEach edit [a] = edit a := by
  apply ext_run
  intro s
  rw [forEach_cons, forEach_nil, run_bind]
  cases hr : ((edit a).run s).result with
  | error r => simp only [← hr]
  | ok u => simp only [run_pure, List.append_nil, ← hr]

theorem bind_assoc (e : Edit σ α) (f : α → Edit σ β) (g : β → Edit σ γ) :
    (e >>= f) >>= g = e >>= fun a => f a >>= g := by
  apply ext_run
  intro s
  simp only [run_bind]
  cases (e.run s).result with
  | error r => rfl
  | ok a =>
      simp only
      cases ((f a).run (e.run s).state).result with
      | error r => rfl
      | ok b => simp only [List.append_assoc]

theorem forEach_append (edit : α → Edit σ Unit) (as bs : List α) :
    forEach edit (as ++ bs) = (do forEach edit as; forEach edit bs) := by
  induction as with
  | nil => rfl
  | cons a as ih => rw [List.cons_append, forEach_cons, forEach_cons, ih, bind_assoc]

/-- An edit that is not refused leaves what follows it to start from its state. -/
theorem state_bind {e : Edit σ α} {f : α → Edit σ β} {s : σ} {a : α} (h : (e.run s).result = .ok a) :
    ((e >>= f).run s).state = ((f a).run (e.run s).state).state := by
  rw [run_bind, h]

theorem forEach_map (edit : β → Edit σ Unit) (f : α → β) (as : List α) :
    forEach edit (as.map f) = forEach (fun a => edit (f a)) as := by
  induction as with
  | nil => rfl
  | cons a as ih => rw [List.map_cons, forEach_cons, forEach_cons, ih]

theorem forEach_ok {edit : α → Edit σ Unit} (h : ∀ a s, ((edit a).run s).result = .ok ()) (as : List α) (s : σ) :
    ((forEach edit as).run s).result = .ok () := by
  induction as generalizing s with
  | nil => rfl
  | cons a as ih =>
      rw [forEach_cons, run_bind, h]
      exact ih _

/-- The items that an edit is done for, up to the first refused. -/
def finished (edit : α → Edit σ Unit) : List α → σ → List α
  | [], _ => []
  | a :: as, s =>
    match ((edit a).run s).result with
    | .ok _ => a :: finished edit as ((edit a).run s).state
    | .error _ => []

/-! ### Refused as a whole -/

/-- An edit that is refused as a whole or not at all, with what it gives if it is not. -/
def whole (change : σ → Except ReferenceError (α × σ)) (events : σ → List Event) : Edit σ α := fun s =>
  match change s with
  | .error r => ⟨.error r, s, []⟩
  | .ok (a, s') => ⟨.ok a, s', events s⟩

theorem run_whole (change : σ → Except ReferenceError (α × σ)) (events : σ → List Event) (s : σ) :
    (whole change events).run s =
      match change s with
      | .error r => ⟨.error r, s, []⟩
      | .ok (a, s') => ⟨.ok a, s', events s⟩ := rfl

theorem whole_discard (change : σ → Except ReferenceError (α × σ)) (events : σ → List Event) :
    (do let _ ← whole change events) = step (fun s => (change s).map (·.2)) events := by
  apply ext_run
  intro s
  cases h : change s with
  | error r => simp [run_bind, run_whole, run_step, h]
  | ok p => simp [run_bind, run_whole, run_step, h]

/-- A refusal leaves the state as it was. -/
def Atomic (e : Edit σ α) : Prop := ∀ s r, (e.run s).result = .error r → (e.run s).state = s

theorem atomic_step (change : σ → Except ReferenceError σ) (events : σ → List Event) :
    (step change events).Atomic := by
  intro s r h
  rw [run_step] at h ⊢
  cases hc : change s with
  | error r' => rfl
  | ok s' => rw [hc] at h; cases h

/-! ### What edits keep -/

/-- What holds before an edit holds after it, also where it is refused. -/
def Keeps (P : σ → Prop) (e : Edit σ α) : Prop := ∀ s, P s → P (e.run s).state

section Keeps

variable {P : σ → Prop}

theorem keeps_pure (a : α) : (pure a : Edit σ α).Keeps P := fun _ h => h

theorem keeps_refuse (r : ReferenceError) : (refuse r : Edit σ α).Keeps P := fun _ h => h

theorem keeps_whole {change : σ → Except ReferenceError (α × σ)} {events : σ → List Event}
    (h : ∀ s a s', P s → change s = .ok (a, s') → P s') : (whole change events).Keeps P := by
  intro s hs
  rw [run_whole]
  cases hc : change s with
  | error r => exact hs
  | ok p => exact h s p.1 p.2 hs hc

theorem keeps_step {change : σ → Except ReferenceError σ} {events : σ → List Event}
    (h : ∀ s s', P s → change s = .ok s' → P s') : (step change events).Keeps P := by
  intro s hs
  rw [run_step]
  cases hc : change s with
  | error r => exact hs
  | ok s' => exact h s s' hs hc

theorem keeps_modify {change : σ → σ} (h : ∀ s, P s → P (change s)) : (modify change).Keeps P :=
  fun s hs => h s hs

theorem keeps_bind {e : Edit σ α} {f : α → Edit σ β} (he : e.Keeps P) (hf : ∀ a, (f a).Keeps P) :
    (e >>= f).Keeps P := by
  intro s hs
  rw [run_bind]
  cases (e.run s).result with
  | error r => exact he s hs
  | ok a => exact hf a _ (he s hs)

theorem keeps_discard {e : Edit σ α} (he : e.Keeps P) : (do let _ ← e : Edit σ Unit).Keeps P :=
  keeps_bind he fun _ => keeps_pure ()

theorem keeps_under {e : Edit σ Unit} (policy : Policy) (he : e.Keeps P) : (under policy e).Keeps P := by
  intro s hs
  rw [state_under]
  exact he s hs

theorem keeps_forEach {edit : α → Edit σ Unit} {as : List α} (h : ∀ a ∈ as, (edit a).Keeps P) :
    (forEach edit as).Keeps P := by
  induction as with
  | nil => exact keeps_pure ()
  | cons a as ih =>
      apply keeps_bind (h a List.mem_cons_self)
      intro _
      exact ih fun b hb => h b (List.mem_cons_of_mem _ hb)

/-- The items that an edit is run for, each with the state it is run on: up to the first refused. -/
def visits (edit : α → Edit σ Unit) : List α → σ → List (α × σ)
  | [], _ => []
  | a :: as, s =>
    (a, s) ::
      match ((edit a).run s).result with
      | .ok _ => visits edit as ((edit a).run s).state
      | .error _ => []

theorem keeps_visits {edit : α → Edit σ Unit} (h : ∀ a, (edit a).Keeps P) {as : List α} {s : σ} (hs : P s) :
    ∀ v ∈ visits edit as s, P v.2 := by
  induction as generalizing s with
  | nil => simp [visits]
  | cons a as ih =>
      intro v hv
      rw [visits, List.mem_cons] at hv
      rcases hv with rfl | hv
      · exact hs
      · split at hv
        · exact ih (h a s hs) v hv
        · cases hv

/-- What every item keeps where it is run, the whole run keeps. -/
theorem forEach_of_visits {edit : α → Edit σ Unit} {as : List α} {s : σ} (hs : P s)
    (h : ∀ v ∈ visits edit as s, P v.2 → P ((edit v.1).run v.2).state) : P ((forEach edit as).run s).state := by
  induction as generalizing s with
  | nil => exact hs
  | cons a as ih =>
      have hfirst := h (a, s) List.mem_cons_self hs
      rw [forEach_cons, run_bind]
      cases hr : ((edit a).run s).result with
      | error r => exact hfirst
      | ok _ =>
          refine ih hfirst fun v hv => h v ?_
          rw [visits, hr]
          exact List.mem_cons_of_mem _ hv

end Keeps

/-! ### Where edits lead that are not refused -/

/-- What holds after an edit that is not refused, if something else held before. -/
def Leads (P : σ → Prop) (e : Edit σ α) (Q : σ → Prop) : Prop :=
  ∀ s a, P s → (e.run s).result = .ok a → Q (e.run s).state

section Leads

variable {P Q R : σ → Prop}

theorem Keeps.leads {e : Edit σ α} (h : e.Keeps P) : e.Leads P P := fun s _ hs _ => h s hs

theorem leads_modify {change : σ → σ} (h : ∀ s, P s → Q (change s)) : (modify change).Leads P Q :=
  fun s _ hs _ => h s hs

theorem leads_bind {e : Edit σ α} {f : α → Edit σ β} (he : e.Leads P Q) (hf : ∀ a, (f a).Leads Q R) :
    (e >>= f).Leads P R := by
  intro s b hs h
  rw [run_bind] at h ⊢
  cases hr : (e.run s).result with
  | error r => rw [hr] at h; cases h
  | ok a =>
      rw [hr] at h
      exact hf a _ b (he s a hs hr) h

end Leads

/-! ### The state an edit comes to -/

/-- An edit is not refused, and this is the state it leaves. -/
def Reaches (e : Edit σ Unit) (s s' : σ) : Prop := (e.run s).result = .ok () ∧ (e.run s).state = s'

section Reaches

variable {s s' : σ}

theorem reaches_pure : (pure () : Edit σ Unit).Reaches s s' ↔ s' = s := by
  simp [Reaches, eq_comm]

theorem reaches_modify {change : σ → σ} : (modify change).Reaches s s' ↔ s' = change s := by
  simp [Reaches, eq_comm]

theorem reaches_step {change : σ → Except ReferenceError σ} {events : σ → List Event} :
    (step change events).Reaches s s' ↔ change s = .ok s' := by
  rw [Reaches, run_step]
  cases change s with
  | error r => simp
  | ok t => simp

theorem reaches_seq {e f : Edit σ Unit} :
    (do e; f : Edit σ Unit).Reaches s s' ↔ ∃ t, e.Reaches s t ∧ f.Reaches t s' := by
  simp only [Reaches, run_bind]
  cases (e.run s).result with
  | error r => simp
  | ok _ => simp

/-- A lenient edit comes to the state it leaves, refused or not. -/
theorem reaches_under {policy : Policy} {e : Edit σ Unit} : (under policy e).Reaches s s' ↔
    (policy = .strict → (e.run s).result = .ok ()) ∧ s' = (e.run s).state := by
  rw [Reaches, state_under, run_under, eq_comm (b := s')]
  cases policy with
  | lenient => cases hr : (e.run s).result <;> simp [hr]
  | strict => simp

/-- A run that stops at an item refused as a whole has come to where the items before it lead. -/
theorem reaches_finished {edit : α → Edit σ Unit} (h : ∀ a, (edit a).Atomic) (as : List α) (s : σ) :
    (forEach edit (finished edit as s)).Reaches s ((forEach edit as).run s).state := by
  induction as generalizing s with
  | nil => exact reaches_pure.2 rfl
  | cons a as ih =>
      rw [finished, forEach_cons, run_bind]
      cases hr : ((edit a).run s).result with
      | error r => exact reaches_pure.2 (h a s r hr)
      | ok _ => exact reaches_seq.2 ⟨_, ⟨hr, rfl⟩, ih _⟩

end Reaches

end DdlCatalog.Edit
