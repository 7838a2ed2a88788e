import Mathlib.Data.List.Induction
import Mathlib.Data.List.Nodup

/-!
Lists in which a name is taken once. Of the elements of one name the first stays; those without a name
all stay. Leaving elements out before names are taken is the same as leaving them out afterwards
exactly where no element that goes has taken its name from one that stays.
-/

namespace DdlCatalog

variable {α : Type} {name : α → Option String} {p : α → Bool} {as kept : List α} {a : α} {n : String}

/-- No element has the name of this one. -/
def Free (name : α → Option String) (kept : List α) (a : α) : Prop := ∀ n ∈ name a, n ∉ kept.filterMap name

instance (name : α → Option String) (kept : List α) (a : α) : Decidable (Free name kept a) :=
  inferInstanceAs (Decidable (∀ n ∈ name a, _))

/-- The elements with one more, unless its name is taken. -/
def adjoin (name : α → Option String) (kept : List α) (a : α) : List α :=
  if Free name kept a then kept ++ [a] else kept

/-- The first element of each name, and those without one. -/
def firsts (name : α → Option String) (as : List α) : List α := as.foldl (adjoin name) []

theorem free_of_unnamed (h : name a = none) (kept : List α) : Free name kept a := by
  intro n hn
  rw [h] at hn
  cases hn

theorem adjoin_free (h : Free name kept a) : adjoin name kept a = kept ++ [a] := if_pos h

theorem adjoin_taken (h : ¬Free name kept a) : adjoin name kept a = kept := if_neg h

theorem foldl_adjoin_unnamed (h : ∀ a ∈ as, name a = none) (kept : List α) :
    as.foldl (adjoin name) kept = kept ++ as := by
  induction as generalizing kept with
  | nil => simp
  | cons a as ih =>
      rw [List.forall_mem_cons] at h
      rw [List.foldl_cons, adjoin_free (free_of_unnamed h.1 kept), ih h.2, List.append_assoc]
      rfl

theorem firsts_append (as bs : List α) : firsts name (as ++ bs) = bs.foldl (adjoin name) (firsts name as) :=
  List.foldl_append

theorem firsts_concat (as : List α) (a : α) : firsts name (as ++ [a]) = adjoin name (firsts name as) a :=
  firsts_append as [a]

theorem mem_of_mem_firsts (h : a ∈ firsts name as) : a ∈ as := by
  induction as using List.reverseRecOn with
  | nil => exact h
  | append_singleton as b ih =>
      rw [firsts_concat, adjoin] at h
      split at h
      · rcases List.mem_append.1 h with h | h
        · exact List.mem_append_left _ (ih h)
        · exact List.mem_append_right _ h
      · exact List.mem_append_left _ (ih h)

/-- No name is lost. -/
theorem mem_names_firsts : n ∈ (firsts name as).filterMap name ↔ n ∈ as.filterMap name := by
  induction as using List.reverseRecOn with
  | nil => rfl
  | append_singleton as b ih =>
      rw [firsts_concat, adjoin]
      split
      · rw [List.filterMap_append, List.filterMap_append, List.mem_append, List.mem_append, ih]
      · rename_i htaken
        rw [ih, List.filterMap_append, List.mem_append]
        refine ⟨.inl, fun h => h.elim id fun hb => ?_⟩
        obtain ⟨n', hn', hmem⟩ : ∃ n', name b = some n' ∧ n' ∈ (firsts name as).filterMap name := by
          simpa [Free] using htaken
        obtain ⟨c, hc, hnc⟩ := List.mem_filterMap.1 hb
        rw [List.mem_singleton.1 hc, hn'] at hnc
        cases hnc
        exact ih.1 hmem

theorem free_firsts_iff : Free name (firsts name as) a ↔ Free name as a := by
  simp only [Free, mem_names_firsts]

/-- What stays under a name is the first of that name. -/
theorem find?_of_mem_firsts (h : a ∈ firsts name as) (ha : name a = some n) :
    as.find? (name · == some n) = some a := by
  induction as using List.reverseRecOn with
  | nil => cases h
  | append_singleton as b ih =>
      rw [firsts_concat, adjoin] at h
      split at h
      · rename_i hfree
        rcases List.mem_append.1 h with h | h
        · rw [List.find?_append, ih h]
          rfl
        · obtain rfl := List.mem_singleton.1 h
          have hnone : as.find? (name · == some n) = none := by
            rw [List.find?_eq_none]
            intro c hc hn
            rw [beq_iff_eq] at hn
            exact free_firsts_iff.1 hfree n ha (List.mem_filterMap.2 ⟨c, hc, hn⟩)
          rw [List.find?_append, hnone]
          simp [ha]
      · rw [List.find?_append, ih h]
        rfl

/-! ### Elements left out -/

/-- Where an element of a name stays, the first of that name does. -/
def Undisplaced (name : α → Option String) (p : α → Bool) (as : List α) : Prop :=
  ∀ a ∈ as, p a = true → ∀ n ∈ name a, ∀ b ∈ as.find? (name · == some n), p b = true

theorem Undisplaced.of_concat (h : Undisplaced name p (as ++ [a])) : Undisplaced name p as := by
  intro b hb hp n hn c hc
  refine h b (List.mem_append_left _ hb) hp n hn c ?_
  rw [List.find?_append, Option.mem_def.1 hc]
  rfl

/-- A name that is taken is taken by an element that stays. -/
theorem Undisplaced.free_iff (h : Undisplaced name p (as ++ [a])) (ha : p a = true) :
    Free name as a ↔ Free name (as.filter p) a := by
  constructor
  · intro hfree n hn hm
    exact hfree n hn ((List.filter_sublist.filterMap name).subset hm)
  · intro hfree n hn hm
    obtain ⟨b, hb, hbn⟩ := List.mem_filterMap.1 hm
    cases hfind : as.find? (name · == some n) with
    | none => exact List.find?_eq_none.1 hfind b hb (by simp [hbn])
    | some c =>
        have hc : p c = true := by
          refine h a List.mem_concat_self ha n hn c ?_
          rw [List.find?_append, hfind]
          rfl
        have hcn : name c = some n := by simpa using List.find?_some hfind
        exact hfree n hn (List.mem_filterMap.2 ⟨c, List.mem_filter.2 ⟨List.mem_of_find?_eq_some hfind, hc⟩, hcn⟩)

theorem Undisplaced.filter_firsts (h : Undisplaced name p as) :
    (firsts name as).filter p = firsts name (as.filter p) := by
  induction as using List.reverseRecOn with
  | nil => rfl
  | append_singleton as a ih =>
      have ih := ih h.of_concat
      rw [firsts_concat, List.filter_append]
      cases ha : p a with
      | false =>
          have hnone : [a].filter p = [] := by simp [ha]
          rw [hnone, List.append_nil, ← ih, adjoin]
          split
          · rw [List.filter_append, hnone, List.append_nil]
          · rfl
      | true =>
          have hone : [a].filter p = [a] := by simp [ha]
          have hsame : Free name (firsts name as) a ↔ Free name (firsts name (as.filter p)) a := by
            rw [free_firsts_iff, free_firsts_iff, h.free_iff ha]
          rw [hone, firsts_concat]
          by_cases hfree : Free name (firsts name as) a
          · rw [adjoin_free hfree, adjoin_free (hsame.1 hfree), List.filter_append, hone, ih]
          · rw [adjoin_taken hfree, adjoin_taken fun h' => hfree (hsame.2 h'), ih]

theorem undisplaced_of_names
    (h : (firsts name (as.filter p)).filterMap name ⊆ ((firsts name as).filter p).filterMap name) :
    Undisplaced name p as := by
  intro a ha hp n hn b hb
  have hmem : n ∈ (firsts name (as.filter p)).filterMap name :=
    mem_names_firsts.2 (List.mem_filterMap.2 ⟨a, List.mem_filter.2 ⟨ha, hp⟩, hn⟩)
  obtain ⟨c, hc, hcn⟩ := List.mem_filterMap.1 (h hmem)
  obtain ⟨hc, hcp⟩ := List.mem_filter.1 hc
  rw [find?_of_mem_firsts hc hcn] at hb
  cases hb
  exact hcp

/-- Leaving elements out before names are taken or afterwards is the same exactly where none is displaced. -/
theorem undisplaced_iff : Undisplaced name p as ↔ (firsts name as).filter p = firsts name (as.filter p) :=
  ⟨fun h => h.filter_firsts, fun h => undisplaced_of_names (h ▸ List.Subset.refl _)⟩

theorem filter_firsts_filter : (firsts name (as.filter p)).filter p = firsts name (as.filter p) :=
  List.filter_eq_self.2 fun _ ha => (List.mem_filter.1 (mem_of_mem_firsts ha)).2

/-- The last element stays, or all go. -/
theorem getLast?_filter_iff : as.getLast?.filter p = (as.filter p).getLast? ↔
    ((∃ a ∈ as, p a = true) → ∀ a ∈ as.getLast?, p a = true) := by
  rcases List.eq_nil_or_concat as with rfl | ⟨as, a, rfl⟩
  · simp
  · rw [List.concat_eq_append]
    cases ha : p a with
    | true => simp [ha]
    | false =>
        have hlast : ((as ++ [a]).filter p).getLast? = none ↔ ¬∃ b ∈ as, p b = true := by
          simp [ha]
        simp only [List.getLast?_append, List.getLast?_singleton, Option.some_or, Option.filter_some, ha,
          Bool.false_eq_true, if_false, eq_comm (b := List.getLast? _)]
        rw [hlast]
        simp [ha]

theorem filter_getLast?_filter (as : List α) :
    (as.filter p).getLast?.filter p = (as.filter p).getLast? := by
  cases h : (as.filter p).getLast? with
  | none => rfl
  | some a => rw [Option.filter_some, if_pos (List.mem_filter.1 (List.mem_of_getLast? h)).2]

end DdlCatalog
