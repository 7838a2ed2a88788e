import DdlCatalog.Proofs.Table.ColumnEdits

/-!
What a dropped column takes along: its references in every key and index, with the partners that foreign
keys pair them with, and the keys and indexes that referred to nothing else. All that is left keeps its
order.
-/

namespace DdlCatalog

/-- The parts of a key on other columns. -/
def partsOff (column : String) (parts : List KeyPart) : List KeyPart := parts.filter (·.column != column)

/-- Whether a key has a part on another column. -/
def refersElsewhere (column : String) (parts : List KeyPart) : Bool := parts.any (·.column != column)

def Index.off (column : String) (i : Index) : Index := { i with parts := partsOff column i.parts }

/-- The partners at positions where the key has a part on another column, or no part at all. -/
def partnersOff (column : String) (parts partners : List KeyPart) : List KeyPart :=
  (partners.zipIdx.filter fun a => (parts[a.2]?).all (·.column != column)).map Prod.fst

def ForeignKey.off (column : String) (k : ForeignKey) : ForeignKey :=
  { k with
    parts := partsOff column k.parts
    reference := { k.reference with parts := partnersOff column k.parts k.reference.parts } }

/-- The parts of a foreign key that have a partner, each with it. -/
def ForeignKey.pairs (k : ForeignKey) : List (KeyPart × KeyPart) := k.parts.zip k.reference.parts

namespace Table

variable {t t' : Table} {name : String} {c : Column}

/-- A table that has lost a column, and nothing else but what referred to it. -/
structure Lost (c : Column) (t t' : Table) : Prop where
  name_eq : t'.name = t.name
  options_eq : t'.options = t.options
  columns_split : ∃ pre post, t.columns = pre ++ c :: post ∧ t'.columns = pre ++ post
  primaryKey_eq : t'.primaryKey =
    (t.primaryKey.filter fun key => refersElsewhere c.name key.parts).map (Index.off c.name)
  indexes_eq : ∀ kind, t'.indexesOf kind =
    ((t.indexesOf kind).filter fun i => refersElsewhere c.name i.parts).map (Index.off c.name)
  foreignKeys_eq : t'.foreignKeys =
    (t.foreignKeys.filter fun k => refersElsewhere c.name k.parts).map (ForeignKey.off c.name)
  pairs_eq : ∀ k ∈ t.foreignKeys, (k.off c.name).pairs = k.pairs.filter (·.1.column != c.name)

/-! ### One key -/

/-- A key is left out if it had parts on the column and has none any more; where it has parts at all, that
is if all of them are on the column. -/
theorem left_out_iff {parts : List KeyPart} (h : parts ≠ []) :
    (parts.any (·.column == name) && (partsOff name parts).isEmpty) = !refersElsewhere name parts := by
  have hempty : (partsOff name parts).isEmpty = !refersElsewhere name parts := by
    rw [Bool.eq_iff_iff]
    simp [partsOff, refersElsewhere]
  rw [hempty]
  cases hr : refersElsewhere name parts with
  | true => simp
  | false =>
      obtain ⟨p, ps, rfl⟩ := List.exists_cons_of_ne_nil h
      have hp : p.column = name := by
        simp only [refersElsewhere, List.any_cons, Bool.or_eq_false_iff] at hr
        simpa using hr.1
      simp [hp]

theorem indexWithout_eq {i : Index} (h : i.parts ≠ []) :
    indexWithout name i = if refersElsewhere name i.parts then some (i.off name) else none := by
  have hout : (i.references name && (i.dropColumn name).isEmpty) = !refersElsewhere name i.parts := left_out_iff h
  rw [indexWithout, hout]
  cases refersElsewhere name i.parts <;> rfl

/-- The partners that are left, found without positions. -/
theorem partnersWithout_eq (column : String) (parts partners : List KeyPart) :
    ForeignKey.partnersWithout column parts partners = partnersOff column parts partners := by
  -- The positions of the partners that are left to look at are those from `n` on.
  suffices h : ∀ n, ForeignKey.partnersWithout column parts partners =
      ((partners.zipIdx n).filter fun a => (parts[a.2 - n]?).all (·.column != column)).map Prod.fst from
    h 0
  intro n
  induction parts generalizing partners n with
  | nil => cases partners <;> simp [ForeignKey.partnersWithout]
  | cons p ps ih =>
      cases partners with
      | nil => rfl
      | cons r rs =>
          have hrest : ((rs.zipIdx (n + 1)).filter fun a => ((p :: ps)[a.2 - n]?).all (·.column != column)) =
              (rs.zipIdx (n + 1)).filter fun a => (ps[a.2 - (n + 1)]?).all (·.column != column) := by
            apply List.filter_congr
            intro a ha
            have hi : a.2 - n = a.2 - (n + 1) + 1 := by
              have := List.le_snd_of_mem_zipIdx ha
              omega
            rw [hi, List.getElem?_cons_succ]
          rw [List.zipIdx_cons, List.filter_cons, hrest]
          by_cases hp : p.column = column <;> simp [ForeignKey.partnersWithout, hp, ih rs (n + 1)]

/-- A part that stays keeps its partner, whichever of the two lists is the longer one. -/
theorem zip_off (column : String) (parts partners : List KeyPart) :
    (partsOff column parts).zip (ForeignKey.partnersWithout column parts partners) =
      (parts.zip partners).filter (·.1.column != column) := by
  induction parts generalizing partners with
  | nil => simp [partsOff]
  | cons p ps ih =>
      cases partners with
      | nil => simp [ForeignKey.partnersWithout]
      | cons r rs =>
          have hrest := ih rs
          rw [partsOff] at hrest
          rw [partsOff, ForeignKey.partnersWithout, List.filter_cons, List.zip_cons_cons, List.filter_cons]
          by_cases hp : p.column = column <;> simp [hp, hrest]

theorem foreignKeyWithout_eq {k : ForeignKey} (h : k.parts ≠ []) :
    foreignKeyWithout name k = if refersElsewhere name k.parts then some (k.off name) else none := by
  have hout : (k.references name && (k.dropColumn name).isEmpty) = !refersElsewhere name k.parts := left_out_iff h
  have hoff : k.dropColumn name = k.off name := by
    rw [ForeignKey.dropColumn, ForeignKey.off, partnersWithout_eq]
    rfl
  rw [foreignKeyWithout, hout, hoff]
  cases refersElsewhere name k.parts <;> rfl

theorem pairs_off (name : String) (k : ForeignKey) : (k.off name).pairs = k.pairs.filter (·.1.column != name) := by
  rw [ForeignKey.pairs, ForeignKey.off, ← partnersWithout_eq]
  exact zip_off name k.parts k.reference.parts

/-! ### All keys -/

theorem filterMap_eq_map_filter {α : Type} {f : α → Option α} {p : α → Bool} {g : α → α} {as : List α}
    (h : ∀ a ∈ as, f a = if p a then some (g a) else none) : as.filterMap f = (as.filter p).map g := by
  rw [← List.filterMap_eq_map, List.filterMap_filter]
  exact List.filterMap_congr h

theorem dropColumn_lost (h : t.WellFormed) (hc : c ∈ t.columns) :
    ∃ t', t.dropColumn c.name = .ok (c, t') ∧ Lost c t t' := by
  obtain ⟨pre, post, hs⟩ := h.columnSplit hc
  have hkept (parts : List KeyPart) (hp : parts ∈ t.keyParts) : parts ≠ [] := h.keys_nonempty parts hp
  have hindex (kind : IndexKind) : (t.indexesOf kind).filterMap (indexWithout c.name) =
      ((t.indexesOf kind).filter fun i => refersElsewhere c.name i.parts).map (Index.off c.name) :=
    filterMap_eq_map_filter fun i hi => indexWithout_eq (hkept _ (index_mem_keyParts hi))
  have ht : ∃ t', t.dropColumn c.name = .ok (c, t') ∧ t'.options = t.options := by
    rw [dropColumn, hs.column?_eq]
    exact ⟨_, rfl, rfl⟩
  obtain ⟨t', ht, hoptions⟩ := ht
  obtain ⟨hcolumns, hprimary, hforeign, hindexes⟩ := dropColumn_cases ht
  refine ⟨t', ht, ?_⟩
  exact {
    name_eq := dropColumn_name ht
    options_eq := hoptions
    columns_split := ⟨pre, post, hs.list_eq, hcolumns.trans hs.eraseP_eq⟩
    primaryKey_eq := by
      rw [hprimary]
      cases hk : t.primaryKey with
      | none => rfl
      | some key =>
          rw [Option.bind_some, indexWithout_eq (hkept _ (primaryKey_mem_keyParts hk)), Option.filter_some]
          cases refersElsewhere c.name key.parts <;> rfl
    indexes_eq := fun kind => (hindexes kind).trans (hindex kind)
    foreignKeys_eq := hforeign.trans (filterMap_eq_map_filter fun k hk =>
      foreignKeyWithout_eq (hkept _ (foreignKey_mem_keyParts hk)))
    pairs_eq := fun k _ => pairs_off c.name k }

/-- Every column of a well-formed table can be dropped; what goes with it and what stays. -/
theorem dropColumn_exact (h : t.WellFormed) (hc : c ∈ t.columns) :
    ((Edits.dropColumn c.name).run t).result = .ok c ∧ Lost c t ((Edits.dropColumn c.name).run t).state := by
  obtain ⟨t', ht, hlost⟩ := dropColumn_lost h hc
  rw [Edits.dropColumn_eq, Edit.run_whole, ht]
  exact ⟨rfl, hlost⟩

/-- A column that foreign keys name twice, with fewer and with more partners than they have columns. -/
def shipment : Table :=
  { name := "shipment"
    columns := [{ name := "a", type := .int 4 }, { name := "b", type := .int 4 }]
    primaryKey := some (.onColumns ["b", "a"])
    foreignKeys :=
      [.onColumns ["a", "b", "a"] (.toColumns "u" ["x", "y"]),
        .onColumns ["a", "a", "b"] (.toColumns "v" ["x", "y", "z", "w"]),
        .onColumns ["a"] (.toColumns "w" ["x"])]
    uniqueKeys := [{ name := some "k", parts := [{ column := "a" }, { column := "b", length := some 3, order := some .descending }] }]
    indexes := [.onColumns ["a", "a"]] }

/-- What is left of the foreign keys is each partner of the column that stays, and the one too many. -/
theorem shipment_dropColumn_lost : shipment.WellFormed ∧
    ((Edits.dropColumn "a").run shipment).result = .ok { name := "a", type := .int 4 } ∧
    Lost { name := "a", type := .int 4 } shipment ((Edits.dropColumn "a").run shipment).state ∧
    ((Edits.dropColumn "a").run shipment).state.foreignKeys =
      [.onColumns ["b"] (.toColumns "u" ["y"]), .onColumns ["b"] (.toColumns "v" ["z", "w"])] := by
  have hw : shipment.WellFormed := by decide
  have hc : ({ name := "a", type := .int 4 } : Column) ∈ shipment.columns := List.mem_cons_self
  obtain ⟨hresult, hlost⟩ := dropColumn_exact hw hc
  exact ⟨hw, hresult, hlost, hlost.foreignKeys_eq.trans (by decide)⟩

end Table

end DdlCatalog
