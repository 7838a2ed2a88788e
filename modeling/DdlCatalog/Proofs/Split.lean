import Mathlib.Data.List.Perm.Basic

/-!
Lists around the first element of a name. Whatever looks an element up by its name is described on the
list split there.
-/

namespace DdlCatalog

variable {α : Type} {key : α → String} {name : String} {as pre post : List α} {a : α}

/-- The first element of a name stands between those before and after it. -/
structure Split (key : α → String) (name : String) (as pre : List α) (a : α) (post : List α) : Prop where
  list_eq : as = pre ++ a :: post
  key_eq : key a = name
  fresh : ∀ b ∈ pre, key b ≠ name

theorem exists_split (h : ∃ a ∈ as, key a = name) : ∃ pre a post, Split key name as pre a post := by
  induction as with
  | nil => simp at h
  | cons b bs ih =>
      by_cases hb : key b = name
      · exact ⟨[], b, bs, rfl, hb, by simp⟩
      · have htail : ∃ a ∈ bs, key a = name := by
          obtain ⟨a, ha, hn⟩ := h
          rcases List.mem_cons.1 ha with rfl | ha
          · exact absurd hn hb
          · exact ⟨a, ha, hn⟩
        obtain ⟨pre, a, post, hs⟩ := ih htail
        refine ⟨b :: pre, a, post, by rw [hs.list_eq]; rfl, hs.key_eq, ?_⟩
        intro d hd
        rcases List.mem_cons.1 hd with rfl | hd
        · exact hb
        · exact hs.fresh d hd

theorem insertIdx_length_append (a : α) (pre post : List α) :
    (pre ++ post).insertIdx pre.length a = pre ++ a :: post := by
  induction pre with
  | nil => simp
  | cons b bs ih => simp [ih]

namespace Split

theorem findIdx?_eq (h : Split key name as pre a post) : as.findIdx? (key · == name) = some pre.length := by
  rw [h.list_eq, List.findIdx?_append, List.findIdx?_eq_none_iff.2]
  · simp [List.findIdx?_cons, h.key_eq]
  · intro b hb; simpa using h.fresh b hb

theorem find?_eq (h : Split key name as pre a post) : as.find? (key · == name) = some a := by
  rw [h.list_eq, List.find?_append, List.find?_eq_none.2]
  · simp [h.key_eq]
  · intro b hb; simpa using h.fresh b hb

theorem eraseP_eq (h : Split key name as pre a post) : as.eraseP (key · == name) = pre ++ post := by
  rw [h.list_eq, List.eraseP_append_right]
  · simp [h.key_eq]
  · intro b hb; simpa using h.fresh b hb

theorem eraseIdx_eq (h : Split key name as pre a post) : as.eraseIdx pre.length = pre ++ post := by
  rw [h.list_eq, List.eraseIdx_append_of_length_le (Nat.le_refl _)]
  simp

theorem modify_eq (h : Split key name as pre a post) (f : α → α) :
    as.modify pre.length f = pre ++ f a :: post := by
  obtain ⟨rfl, -, -⟩ := h
  induction pre with
  | nil => simp
  | cons b bs ih => simp [ih]

theorem perm (h : Split key name as pre a post) : as.Perm (a :: (pre ++ post)) :=
  h.list_eq ▸ List.perm_middle

theorem mem (h : Split key name as pre a post) : a ∈ as := by simp [h.list_eq]

/-- Where names are told apart the one split at is no other's. -/
theorem notMem_others (h : Split key name as pre a post) (hd : (as.map key).Nodup) :
    name ∉ (pre ++ post).map key := by
  have hp := h.perm.map key
  rw [List.map_cons, h.key_eq] at hp
  exact (List.nodup_cons.1 (hp.nodup_iff.1 hd)).1

end Split

end DdlCatalog
