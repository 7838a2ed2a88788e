import DdlCatalog.Catalog
import DdlCatalog.Proofs.Split
import DdlCatalog.Proofs.Table.Invariant

/-!
The register of a catalog: tables come and go, and change in their places, and no name is taken twice.
-/

namespace DdlCatalog.Catalog

variable {c : Catalog} {name new : String} {t : Table} {pre post : List (String × Table)}

def keys (c : Catalog) : List String := c.entries.map (·.1)

/-- The invariant of catalogs: names are told apart and every table is well-formed and called as it is
registered. -/
structure WellFormed (c : Catalog) : Prop where
  keys_distinct : c.keys.Nodup
  tables_wellFormed : ∀ e ∈ c.entries, e.2.WellFormedAs e.1

theorem wellFormed_iff (c : Catalog) :
    c.WellFormed ↔ c.keys.Nodup ∧ ∀ e ∈ c.entries, e.2.WellFormed ∧ e.2.name = e.1 :=
  ⟨fun ⟨hk, ht⟩ => ⟨hk, ht⟩, fun ⟨hk, ht⟩ => ⟨hk, ht⟩⟩

instance (c : Catalog) : Decidable c.WellFormed := decidable_of_iff _ (wellFormed_iff c).symm

theorem empty_wellFormed (policy : Policy) : (empty policy).WellFormed := by
  rw [wellFormed_iff]
  simp [empty, keys]

/-! ### Looking tables up -/

theorem contains_iff : c.contains name = true ↔ name ∈ c.keys := by
  simp [contains, keys]

theorem contains_eq_false_iff : c.contains name = false ↔ name ∉ c.keys := by
  rw [← contains_iff, Bool.not_eq_true]

/-- A table registered under a name, between the entries before and after it. -/
abbrev EntrySplit (name : String) (c : Catalog) (pre : List (String × Table)) (t : Table)
    (post : List (String × Table)) : Prop :=
  Split Prod.fst name c.entries pre (name, t) post

theorem table?_split (h : c.table? name = some t) : ∃ pre post, EntrySplit name c pre t post := by
  obtain ⟨pre, post, he, hpre⟩ := List.lookup_eq_some_iff.1 h
  refine ⟨pre, post, he, rfl, ?_⟩
  intro e hm hn
  exact bne_iff_ne.1 (hpre e hm) hn.symm

theorem table?_eq_none_iff : c.table? name = none ↔ c.contains name = false := by
  simp only [table?, List.lookup_eq_none_iff, contains, List.any_eq_false]
  constructor
  · intro h e he hn
    exact bne_iff_ne.1 (h e he) (beq_iff_eq.1 hn).symm
  · intro h e he
    have hne : e.1 ≠ name := by simpa using h e he
    exact bne_iff_ne.2 (Ne.symm hne)

theorem contains_split (h : c.contains name = true) : ∃ pre t post, EntrySplit name c pre t post := by
  cases ht : c.table? name with
  | none => rw [table?_eq_none_iff.1 ht] at h; cases h
  | some t =>
      obtain ⟨pre, post, hs⟩ := table?_split ht
      exact ⟨pre, t, post, hs⟩

theorem WellFormed.table? (h : c.WellFormed) (ht : c.table? name = some t) : t.WellFormedAs name := by
  obtain ⟨pre, post, hs⟩ := table?_split ht
  exact h.tables_wellFormed _ hs.mem

/-! ### The entries around a table -/

theorem EntrySplit.erase_eq (h : EntrySplit name c pre t post) : (c.erase name).entries = pre ++ post :=
  h.eraseP_eq

/-- A change of the entry of one name changes the one table. -/
theorem EntrySplit.map_eq (h : EntrySplit name c pre t post) (hd : c.keys.Nodup)
    {f : String × Table → String × Table} (hf : ∀ e, e.1 ≠ name → f e = e) :
    c.entries.map f = pre ++ f (name, t) :: post := by
  have hsame (es : List (String × Table)) (hes : ∀ e ∈ es, e ∈ pre ++ post) : es.map f = es := by
    refine (List.map_congr_left fun e he => ?_).trans (List.map_id es)
    apply hf
    intro hn
    exact h.notMem_others hd (List.mem_map.2 ⟨e, hes e he, hn⟩)
  rw [h.list_eq, List.map_append, List.map_cons, hsame pre fun e he => List.mem_append_left _ he,
    hsame post fun e he => List.mem_append_right _ he]

theorem EntrySplit.set_eq (h : EntrySplit name c pre t post) (hd : c.keys.Nodup) (t' : Table) :
    (c.set name t').entries = pre ++ (name, t') :: post := by
  rw [set, h.map_eq hd fun e he => if_neg (by simpa using he)]
  simp

theorem EntrySplit.table?_eq (h : EntrySplit name c pre t post) : c.table? name = some t := by
  refine List.lookup_eq_some_iff.2 ⟨pre, post, h.list_eq, fun e he => ?_⟩
  exact bne_iff_ne.2 (Ne.symm (h.fresh e he))

theorem EntrySplit.set_split (h : EntrySplit name c pre t post) (hd : c.keys.Nodup) (t' : Table) :
    EntrySplit name (c.set name t') pre t' post :=
  ⟨h.set_eq hd t', rfl, h.fresh⟩

theorem set_contains (c : Catalog) (name : String) (t : Table) (other : String) :
    (c.set name t).contains other = c.contains other := by
  have hkey (e : String × Table) : (if e.1 == name then (name, t) else e).1 = e.1 := by
    by_cases he : e.1 = name <;> simp [he]
  simp only [contains, set, List.any_map, Function.comp_def, hkey]

theorem set_set (c : Catalog) (name : String) (t t' : Table) : (c.set name t).set name t' = c.set name t' := by
  have hentry (e : String × Table) :
      (if (if e.1 == name then (name, t) else e).1 == name then (name, t') else if e.1 == name then (name, t) else e) =
        if e.1 == name then (name, t') else e := by
    by_cases he : e.1 = name <;> simp [he]
  simp only [set, List.map_map, Function.comp_def, hentry]

theorem EntrySplit.set_self (h : EntrySplit name c pre t post) (hd : c.keys.Nodup) : c.set name t = c := by
  have he := (h.set_eq hd t).trans h.list_eq.symm
  cases c
  simp only [set] at he ⊢
  rw [he]

theorem EntrySplit.rekeying?_eq (h : EntrySplit name c pre t post) (new : String) :
    c.rekeying? name new = some ⟨pre ++ post, pre.length, new⟩ := by
  simp [rekeying?, h.findIdx?_eq, h.eraseIdx_eq]

/-- A table is put in at a place that is there and under a name that none of the others has. -/
structure Rekeying.Fits (r : Rekeying) : Prop where
  inRange : r.position ≤ r.others.length
  absent : r.name ∉ r.others.map (·.1)

theorem EntrySplit.rekeying_fits (h : EntrySplit name c pre t post) (hnew : new ∉ c.keys) :
    (Rekeying.mk (pre ++ post) pre.length new).Fits where
  inRange := by simp
  absent hm := by
    apply hnew
    rw [keys, h.list_eq]
    simp only [List.map_append, List.map_cons, List.mem_append, List.mem_cons] at hm ⊢
    tauto

theorem rekeying_fits {r : Rekeying} (h : c.rekeying? name new = some r) (hnew : new ∉ c.keys) : r.Fits := by
  cases hc : c.contains name with
  | true =>
      obtain ⟨pre, t, post, hs⟩ := contains_split hc
      rw [hs.rekeying?_eq] at h
      cases h
      exact hs.rekeying_fits hnew
  | false =>
      have hnone : c.entries.findIdx? (·.1 == name) = none := by
        simpa [contains] using hc
      simp [rekeying?, hnone] at h

theorem Rekeying.Fits.insert_eq {r : Rekeying} (h : r.Fits) (t : Table) :
    r.insert t = r.others.insertIdx r.position (r.name, t) := by
  rw [Rekeying.insert, List.eraseP_of_forall_not]
  intro e he
  have hne : e.1 ≠ r.name := fun hn => h.absent (List.mem_map.2 ⟨e, he, hn⟩)
  simpa using hne

theorem EntrySplit.rekey_eq (h : EntrySplit name c pre t post) (hnew : new ∉ c.keys) (t' : Table) :
    (c.rekey name new t').entries = pre ++ (new, t') :: post := by
  simp only [rekey, h.rekeying?_eq, (h.rekeying_fits hnew).insert_eq, insertIdx_length_append]

/-- Of two tables put back one after the other the second one stays. -/
theorem EntrySplit.commit_set (h : EntrySplit name c pre t post) (hd : c.keys.Nodup) (t' t'' : Table) :
    (c.set name t').commit name t'' = c.commit name t'' := by
  rw [commit, commit]
  split
  · rw [set_set]
  · rw [rekey, rekey, (h.set_split hd t').rekeying?_eq, h.rekeying?_eq]
    rfl

/-! ### The invariant kept -/

theorem push_wellFormed (h : c.WellFormed) (hn : c.contains name = false) (ht : t.WellFormedAs name) :
    (c.push name t).WellFormed where
  keys_distinct := by
    have hp : (c.push name t).keys.Perm (name :: c.keys) := by
      simp [keys, push]
    exact hp.nodup_iff.2 (List.nodup_cons.2 ⟨contains_eq_false_iff.1 hn, h.keys_distinct⟩)
  tables_wellFormed e he := by
    rcases List.mem_append.1 he with he | he
    · exact h.tables_wellFormed e he
    · cases List.mem_singleton.1 he; exact ht

theorem erase_wellFormed (h : c.WellFormed) (name : String) : (c.erase name).WellFormed where
  keys_distinct := (List.eraseP_sublist.map _).nodup h.keys_distinct
  tables_wellFormed e he := h.tables_wellFormed e (List.mem_of_mem_eraseP he)

/-- Another table in the place of one, under its name or one that is free. -/
theorem EntrySplit.keys_distinct (hs : EntrySplit name c pre t post) (hd : c.keys.Nodup) {c' : Catalog}
    {t' : Table} (hc : c'.entries = pre ++ (new, t') :: post) (hn : new = name ∨ new ∉ c.keys) :
    c'.keys.Nodup := by
  have hold : c.keys.Perm (name :: (pre ++ post).map (·.1)) := hs.perm.map Prod.fst
  have hkeys : c'.keys.Perm (new :: (pre ++ post).map (·.1)) := by
    rw [keys, hc]
    exact (List.perm_middle (a := (new, t'))).map Prod.fst
  refine hkeys.nodup_iff.2 (List.nodup_cons.2 ⟨?_, ?_⟩)
  · rcases hn with rfl | hn
    · exact hs.notMem_others hd
    · exact fun hm => hn (hold.mem_iff.2 (List.mem_cons_of_mem _ hm))
  · exact (List.nodup_cons.1 (hold.nodup_iff.1 hd)).2

theorem EntrySplit.wellFormed (hs : EntrySplit name c pre t post) (h : c.WellFormed) {c' : Catalog} {t' : Table}
    (hc : c'.entries = pre ++ (new, t') :: post) (hn : new = name ∨ new ∉ c.keys) (ht : t'.WellFormedAs new) :
    c'.WellFormed := by
  refine ⟨hs.keys_distinct h.keys_distinct hc hn, ?_⟩
  intro e he
  rw [hc] at he
  rcases List.mem_cons.1 (List.perm_middle.mem_iff.1 he) with rfl | he
  · exact ht
  · exact h.tables_wellFormed e (hs.perm.mem_iff.2 (List.mem_cons_of_mem _ he))

theorem set_wellFormed {t' : Table} (h : c.WellFormed) (ht : c.table? name = some t)
    (ht' : t'.WellFormedAs name) : (c.set name t').WellFormed := by
  obtain ⟨pre, post, hs⟩ := table?_split ht
  exact hs.wellFormed h (hs.set_eq h.keys_distinct t') (.inl rfl) ht'

theorem rekey_wellFormed {t' : Table} (h : c.WellFormed) (ht : c.table? name = some t)
    (hnew : c.contains new = false) (ht' : t'.WellFormedAs new) : (c.rekey name new t').WellFormed := by
  obtain ⟨pre, post, hs⟩ := table?_split ht
  have hn := contains_eq_false_iff.1 hnew
  exact hs.wellFormed h (hs.rekey_eq hn t') (.inr hn) ht'

theorem insert_wellFormed {c' : Catalog} (h : c.WellFormed) (ht : t.WellFormed) (hc : c.insert t = .ok c') :
    c'.WellFormed := by
  rw [insert] at hc
  split at hc
  · cases hc
  · rename_i hn
    cases hc
    exact push_wellFormed h (by simpa using hn) ⟨ht, rfl⟩

theorem rename_cases {c' : Catalog} (h : c.rename name new = .ok c') :
    c.contains new = false ∧ ∃ t, c.table? name = some t ∧ c' = c.rekey name new (t.setName new) := by
  rw [rename] at h
  split at h
  · cases h
  · rename_i hn
    split at h
    · cases h
    · rename_i t ht
      cases h
      exact ⟨by simpa using hn, t, ht, rfl⟩

end DdlCatalog.Catalog
