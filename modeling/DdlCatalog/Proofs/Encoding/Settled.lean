import DdlCatalog.Proofs.Encoding.Table
import DdlCatalog.Proofs.Table.KeyEdits
import Mathlib.Data.List.Forall2

/-!
Defaults that are no number: an infinite one is written as null, so that the text of a table is that of
another one, with null in its place.
-/

namespace DdlCatalog

/-! ### Values of one text -/

namespace Json

/-- Values that are written alike. -/
def Alike (j j' : Json) : Prop := spellAll j.tokens = spellAll j'.tokens

def MemberAlike (m m' : String × Json) : Prop := m.1 = m'.1 ∧ Alike m.2 m'.2

theorem alike_rfl {j : Json} : Alike j j := rfl

theorem memberAlike_rfl (m : String × Json) : MemberAlike m m := ⟨rfl, alike_rfl⟩

theorem Alike.render_eq {j j' : Json} (h : Alike j j') : j.render = j'.render := congrArg String.ofList h

theorem spellAll_cons (t : Token) (ts : List Token) : spellAll (t :: ts) = t.spell ++ spellAll ts := by
  simp [spellAll]

theorem spellAll_append (ts us : List Token) : spellAll (ts ++ us) = spellAll ts ++ spellAll us := by
  simp [spellAll]

theorem alike_array {xs ys : List Json} (h : List.Forall₂ Alike xs ys) : Alike (.array xs) (.array ys) := by
  have hrest {xs ys : List Json} (h : List.Forall₂ Alike xs ys) :
      spellAll (elementTokens xs) = spellAll (elementTokens ys) := by
    induction h with
    | nil => rfl
    | cons hj _ ih =>
        rw [Alike] at hj
        simp only [elementTokens, spellAll_cons, spellAll_append, hj, ih]
  cases h with
  | nil => rfl
  | cons hj h =>
      rw [Alike] at hj
      simp only [Alike, tokens, spellAll_cons, spellAll_append, hj, hrest h]

theorem alike_object {ms ms' : Fields} (h : List.Forall₂ MemberAlike ms ms') : Alike (.object ms) (.object ms') := by
  have hrest {ms ms' : Fields} (h : List.Forall₂ MemberAlike ms ms') :
      spellAll (memberTokens ms) = spellAll (memberTokens ms') := by
    induction h with
    | nil => rfl
    | @cons m m' _ _ hm _ ih =>
        obtain ⟨hname, hj⟩ := hm
        rw [Alike] at hj
        simp only [memberTokens, spellAll_cons, spellAll_append, hname, hj, ih]
  cases h with
  | nil => rfl
  | @cons m m' _ _ hm h =>
      obtain ⟨hname, hj⟩ := hm
      rw [Alike] at hj
      simp only [Alike, tokens, spellAll_cons, spellAll_append, hname, hj, hrest h]

theorem membersAlike_rfl (ms : Fields) : List.Forall₂ MemberAlike ms ms :=
  List.forall₂_same.2 fun m _ => memberAlike_rfl m

end Json

open Json

/-! ### Settled tables -/

/-- The default value that a written one stands for. -/
def DefaultValue.settled : DefaultValue → DefaultValue
  | .real x => if x.isFinite then .real x else .null
  | v => v

def ColumnOptions.settled (o : ColumnOptions) : ColumnOptions :=
  { o with default := o.default.map DefaultValue.settled }

def Column.settled (c : Column) : Column := { c with options := c.options.settled }

def Table.settled (t : Table) : Table := { t with columns := t.columns.map Column.settled }

theorem DefaultValue.alike_settled (v : DefaultValue) : Alike v.settled.toJson v.toJson := by
  cases v with
  | null | bool _ | integer _ | text _ => rfl
  | real x =>
      rw [settled]
      split
      · rfl
      · rename_i hx
        have hspell : (Token.number (some (.real x))).spell = Token.null.spell := by
          simp [Token.spell, Number.render, hx]
        simp only [Alike, toJson, tokens, spellAll_cons, hspell]

theorem ColumnOptions.alike_settled (o : ColumnOptions) : Alike o.settled.toJson o.toJson := by
  have hdefault : List.Forall₂ MemberAlike (whenSome "default" DefaultValue.toJson o.settled.default)
      (whenSome "default" DefaultValue.toJson o.default) := by
    rw [settled]
    cases o.default with
    | none => exact .nil
    | some v => exact .cons ⟨rfl, v.alike_settled⟩ .nil
  apply alike_object
  simp only [List.append_assoc]
  exact List.rel_append (membersAlike_rfl _) (List.rel_append hdefault (membersAlike_rfl _))

theorem Column.alike_settled (c : Column) : Alike c.settled.toJson c.toJson :=
  alike_object (.cons (memberAlike_rfl _) (.cons (memberAlike_rfl _) (.cons ⟨rfl, c.options.alike_settled⟩ .nil)))

namespace Table

variable {t : Table}

theorem alike_settled (t : Table) : Alike t.settled.toJson t.toJson := by
  have hcolumns : Alike (ofList Column.toJson (t.columns.map Column.settled)) (ofList Column.toJson t.columns) := by
    apply alike_array
    rw [List.map_map, List.forall₂_map_left_iff, List.forall₂_map_right_iff, List.forall₂_same]
    exact fun c _ => c.alike_settled
  apply alike_object
  simp only [List.append_assoc, List.cons_append]
  exact .cons (memberAlike_rfl _) (.cons ⟨rfl, hcolumns⟩ (membersAlike_rfl _))

/-- Real defaults are finite. -/
def DefaultsFinite (t : Table) : Prop := ∀ c ∈ t.columns, ∀ v ∈ c.options.default, v.IsFinite

/-- Finite defaults are read from the texts that they are written as. -/
def DefaultsReadBack (t : Table) : Prop := ∀ c ∈ t.columns, ∀ v ∈ c.options.default, v.IsFinite → v.ReadsBack

instance (t : Table) : Decidable t.DefaultsFinite := inferInstanceAs (Decidable (∀ c ∈ t.columns, _))

instance (t : Table) : Decidable t.DefaultsReadBack := inferInstanceAs (Decidable (∀ c ∈ t.columns, _))

theorem settled_eq_iff : t.settled = t ↔ t.DefaultsFinite := by
  have hvalue (v : DefaultValue) : v.settled = v ↔ v.IsFinite := by
    cases v with
    | null | bool _ | integer _ | text _ => simp [DefaultValue.settled, DefaultValue.IsFinite]
    | real x => by_cases hx : x.isFinite <;> simp [DefaultValue.settled, DefaultValue.IsFinite, hx]
  have hcolumn (c : Column) : c.settled = c ↔ ∀ v ∈ c.options.default, v.IsFinite := by
    obtain ⟨name, type, options, inline⟩ := c
    obtain ⟨nullable, default, _⟩ := options
    cases default with
    | none => simp [Column.settled, ColumnOptions.settled]
    | some v => simp [Column.settled, ColumnOptions.settled, hvalue]
  have hmap : t.settled = t ↔ t.columns.map Column.settled = t.columns := by
    obtain ⟨name, columns, _⟩ := t
    simp [settled]
  rw [hmap, DefaultsFinite]
  constructor
  · intro h c hc
    exact (hcolumn c).1 (List.map_eq_map_iff.1 (h.trans (List.map_id _).symm) c hc)
  · intro h
    exact (List.map_congr_left fun c hc => (hcolumn c).2 (h c hc)).trans (List.map_id _)

theorem settled_readsBack (h : t.DefaultsReadBack) :
    ∀ c ∈ t.settled.columns, ∀ v ∈ c.options.default, v.ReadsBack := by
  intro c hc v hv
  obtain ⟨c, hmem, rfl⟩ := List.mem_map.1 hc
  obtain ⟨w, hw, rfl⟩ := Option.map_eq_some_iff.1 hv
  cases w with
  | null | bool _ | integer _ | text _ => trivial
  | real x =>
      rw [DefaultValue.settled]
      split
      · rename_i hx; exact h c hmem (.real x) hw hx
      · trivial

theorem columnNames_settled (t : Table) : t.settled.columnNames = t.columnNames := by
  rw [columnNames, settled, List.map_map]
  rfl

theorem settled_valid (h : t.validate = .ok ()) : t.settled.validate = .ok () := by
  simp only [validate_eq_ok_iff, Supports, columnNames_settled] at h ⊢
  exact h

/-- A settled table has nothing pending if the table it comes from has not. -/
theorem settled_pending (h : ∀ c ∈ t.columns, c.inline = {}) : ∀ c ∈ t.settled.columns, c.inline = {} := by
  intro c hc
  obtain ⟨c, hmem, rfl⟩ := List.mem_map.1 hc
  exact h c hmem

/-- The text of a table with nothing pending is that of the settled table. -/
theorem decode_compact (hpending : ∀ c ∈ t.columns, c.inline = {}) (hreads : t.DefaultsReadBack) :
    (Json.parse? t.compact).bind ofJson? = some t.settled := by
  have hparse : Json.parse? t.compact = some t.settled.toJson := by
    rw [compact, ← t.alike_settled.render_eq]
    exact parse?_render (fits_toJson (settled_readsBack hreads))
  rw [hparse, Option.bind_some, ofJson?_toJson, bare_eq (settled_pending hpending)]

/-- The text of a valid table is read back as the settled table. -/
theorem ofCompact_settled (hpending : ∀ c ∈ t.columns, c.inline = {}) (hvalid : t.validate = .ok ())
    (hreads : t.DefaultsReadBack) : ofCompact t.compact = .ok t.settled := by
  simp only [ofCompact, decode_compact hpending hreads, settled_valid hvalid]

end Table

end DdlCatalog
