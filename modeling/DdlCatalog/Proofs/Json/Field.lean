import DdlCatalog.Json.Field
import DdlCatalog.Proofs.Json.Text
import Mathlib.Data.List.Forall2
import Mathlib.Data.List.Nodup

/-!
Records written and read back: each member that is there is found under its name, and one that is left
out is read as what it was left out for.
-/

namespace DdlCatalog.Json

variable {α : Type} {value : α → Json} {value? : Json → Option α}

/-! ### Values -/

/-- A value is read from what it is written as, which is not null. -/
structure Codes (value : α → Json) (value? : Json → Option α) : Prop where
  reads : ∀ x, value? (value x) = some x
  not_null : ∀ x, value x ≠ .null

theorem codes_string : Codes Json.string string? := ⟨fun _ => rfl, fun _ => Json.noConfusion⟩

theorem codes_bool : Codes Json.bool bool? := ⟨fun _ => rfl, fun _ => Json.noConfusion⟩

theorem natBelow?_ofNat {bound n : Nat} (h : n < bound) : natBelow? bound (ofNat n) = some n := by
  simp [natBelow?, ofNat, h]

theorem codes_uint8 : Codes ofUInt8 uint8? := by
  refine ⟨fun n => ?_, fun _ => Json.noConfusion⟩
  rw [uint8?, ofUInt8, natBelow?_ofNat n.toNat_lt]
  simp

theorem codes_uint32 : Codes ofUInt32 uint32? := by
  refine ⟨fun n => ?_, fun _ => Json.noConfusion⟩
  rw [uint32?, ofUInt32, natBelow?_ofNat n.toNat_lt]
  simp

theorem codes_uint64 : Codes ofUInt64 uint64? := by
  refine ⟨fun n => ?_, fun _ => Json.noConfusion⟩
  rw [uint64?, ofUInt64, natBelow?_ofNat n.toNat_lt]
  simp

/-- The names of an enumeration tell its values apart. -/
theorem codes_oneOf {values : List α} {name : α → String} (hvalues : ∀ x, x ∈ values)
    (hname : (values.map name).Nodup) : Codes (fun x => .string (name x)) (oneOf? values name) := by
  refine ⟨fun x => ?_, fun _ => Json.noConfusion⟩
  have hinj : ∀ a ∈ values, name a = name x → a = x := fun a ha => List.inj_on_of_nodup_map hname ha (hvalues x)
  cases hfind : values.find? (name · == name x) with
  | none => exact absurd (List.find?_eq_none.1 hfind x (hvalues x)) (by simp)
  | some a =>
      have ha := List.find?_some hfind
      rw [beq_iff_eq] at ha
      rw [oneOf?, hfind, hinj a (List.mem_of_find?_eq_some hfind) ha]

theorem list?_array {xs : List α} {elements : List Json} (h : List.Forall₂ (fun x j => value? j = some x) xs elements) :
    list? value? (.array elements) = some xs := by
  rw [list?]
  induction h with
  | nil => rfl
  | cons hx _ ih => rw [List.mapM_cons, hx, ih]; rfl

theorem list?_ofList {β : Type} {read : α → β} {value? : Json → Option β} {xs : List α}
    (h : ∀ x ∈ xs, value? (value x) = some (read x)) : list? value? (ofList value xs) = some (xs.map read) := by
  apply list?_array
  rwa [List.forall₂_map_left_iff, List.forall₂_map_right_iff, List.forall₂_same]

theorem Codes.list (h : Codes value value?) : Codes (ofList value) (list? value?) := by
  refine ⟨fun xs => ?_, fun _ => Json.noConfusion⟩
  rw [list?_ofList (fun x _ => h.reads x), List.map_id']

/-! ### Members -/

/-- Members that stand in the order of some names, each at most once. -/
def Within (names : List String) (members : Fields) : Prop := (members.map (·.1)).Sublist names

section Within

variable {names : List String} {members : Fields}

/-- A record whose members stand in order is read with all its members. -/
theorem fields?_object (hnames : names.Nodup) (h : Within names members) :
    (Json.object members).fields? names = some members := by
  have hknown : members.filter (names.contains ·.1) = members := by
    rw [List.filter_eq_self]
    intro m hm
    rw [List.contains_iff_mem]
    exact h.subset (List.mem_map_of_mem hm)
  simp only [fields?, objectFields?, hknown, if_pos (hnames.sublist h)]

/-- A member that is not asked for is passed over. -/
theorem fields?_cons_other {name : String} (h : name ∉ names) (j : Json) :
    (Json.object ((name, j) :: members)).fields? names = (Json.object members).fields? names := by
  have hother : ¬names.contains name = true := by rwa [List.contains_iff_mem]
  simp only [fields?, objectFields?, List.filter_cons, if_neg hother]

/-- The one member that is asked for is found among any others. -/
theorem objectFields?_sole {name : String} {before after : Fields} (hbefore : ∀ m ∈ before, m.1 ≠ name)
    (hafter : ∀ m ∈ after, m.1 ≠ name) (j : Json) :
    (Json.object (before ++ (name, j) :: after)).objectFields? [name] = some [(name, j)] := by
  have hothers {others : Fields} (h : ∀ m ∈ others, m.1 ≠ name) : others.filter ([name].contains ·.1) = [] := by
    rw [List.filter_eq_nil_iff]
    intro m hm
    simpa using h m hm
  have hknown : (before ++ (name, j) :: after).filter ([name].contains ·.1) = [(name, j)] := by
    rw [List.filter_append, hothers hbefore, List.filter_cons_of_pos (by simp), hothers hafter, List.nil_append]
  simp only [objectFields?, hknown]
  rfl

theorem within_append {name : String} {first : Fields} (hfirst : Within [name] first) (h : Within names members) :
    Within (name :: names) (first ++ members) := by
  rw [Within, List.map_append]
  exact hfirst.append h

theorem within_nil : Within names [] := List.nil_sublist _

theorem within_cons (name : String) (j : Json) (h : Within names members) :
    Within (name :: names) ((name, j) :: members) := h.cons_cons name

theorem within_singleton (name : String) (j : Json) : Within [name] [(name, j)] := within_cons _ _ within_nil

theorem within_whenSome (name : String) (value : α → Json) (o : Option α) :
    Within [name] (whenSome name value o) := by
  cases o with
  | none => exact within_nil
  | some x => exact within_singleton _ _

theorem within_whenTrue (name : String) (b : Bool) : Within [name] (whenTrue name b) := by
  cases b with
  | false => exact within_nil
  | true => exact within_singleton _ _

theorem within_whenNonempty (name : String) (value : α → Json) (xs : List α) :
    Within [name] (whenNonempty name value xs) := by
  cases xs with
  | nil => exact within_nil
  | cons x xs => exact within_singleton _ _

theorem within_ite (name : String) (j : Json) (p : Prop) [Decidable p] :
    Within [name] (if p then [(name, j)] else []) := by
  split
  · exact within_singleton _ _
  · exact within_nil

end Within

namespace Fields

variable (name label : String)

@[simp]
theorem get?_append (f g : Fields) : get? (f ++ g) name = (f.get? name).or (g.get? name) := by
  simp [get?, List.lookup_append]

@[simp]
theorem get?_cons (j : Json) (f : Fields) :
    get? ((label, j) :: f) name = if name = label then some j else f.get? name := by
  rw [get?, List.lookup_cons]
  by_cases h : name = label
  · rw [if_pos h, beq_iff_eq.2 h]
  · rw [if_neg h, beq_eq_false_iff_ne.2 h]
    rfl

@[simp]
theorem get?_nil : get? [] name = none := rfl

@[simp]
theorem get?_whenSome (value : α → Json) (o : Option α) :
    (whenSome label value o).get? name = if name = label then o.map value else none := by
  cases o <;> simp [whenSome]

@[simp]
theorem get?_whenTrue (b : Bool) :
    (whenTrue label b).get? name = if name = label then (if b then some (.bool true) else none) else none := by
  cases b <;> simp [whenTrue]

@[simp]
theorem get?_whenNonempty (value : α → Json) (xs : List α) :
    (whenNonempty label value xs).get? name =
      if name = label then (if xs = [] then none else some (ofList value xs)) else none := by
  cases xs <;> simp [whenNonempty]

@[simp]
theorem get?_ite (p : Prop) [Decidable p] (f g : Fields) :
    get? (if p then f else g) name = if p then f.get? name else g.get? name := by
  split <;> rfl

variable (f : Fields)

/-- What an optional member is read as. -/
def optionalOf (value? : Json → Option α) : Option Json → Option (Option α)
  | none | some .null => some none
  | some j => (value? j).map some

/-- The bind of a do block is left as it stands: `simp` looks at every later member of a record twice
where the bind of options is spelled out. -/
theorem some_bind {β : Type} (x : α) (k : α → Option β) : (some x >>= k) = k x := rfl

theorem optional_eq (value? : Json → Option α) : f.optional name value? = optionalOf value? (f.get? name) := rfl

theorem withDefault_eq (value? : Json → Option α) (default : α) :
    f.withDefault name value? default = (f.get? name).elim (some default) value? := by
  rw [withDefault]
  cases f.get? name <;> rfl

theorem present_eq (value? : Json → Option α) :
    f.present name value? = (f.get? name).elim (some none) fun j => (value? j).map some := by
  rw [present]
  cases f.get? name <;> rfl

theorem optionalOf_map (h : Codes value value?) (o : Option α) : optionalOf value? (o.map value) = some o := by
  cases o with
  | none => rfl
  | some x =>
      have hx := h.not_null x
      have hread := h.reads x
      rw [Option.map_some]
      cases hj : value x with
      | null => exact absurd hj hx
      | bool _ | number _ | string _ | array _ | object _ | unreadable =>
          rw [hj] at hread
          simp [optionalOf, hread]

end Fields

/-! ### Fitting -/

section Fits

variable {room : Nat}

@[simp]
theorem fits_string (s : String) : (Json.string s).Fits room := by
  rw [Fits] <;> simp

@[simp]
theorem fits_bool (b : Bool) : (Json.bool b).Fits room := by
  rw [Fits] <;> simp

theorem fits_null : Json.null.Fits room := by
  rw [Fits] <;> simp

theorem fits_number {n : Number} (h : n.ReadsBack) : (Json.number n).Fits room := by
  rwa [Fits]

theorem fits_ofNat {n : Nat} (h : n < Nat.pow 2 64) : (ofNat n).Fits room :=
  fits_number (Number.natural_readsBack h)

@[simp]
theorem fits_ofUInt8 (n : UInt8) : (ofUInt8 n).Fits room := fits_ofNat (n.toNat_lt.trans (by decide))

@[simp]
theorem fits_ofUInt32 (n : UInt32) : (ofUInt32 n).Fits room := fits_ofNat (n.toNat_lt.trans (by decide))

@[simp]
theorem fits_ofUInt64 (n : UInt64) : (ofUInt64 n).Fits room := fits_ofNat n.toNat_lt

@[simp]
theorem fits_ofList {xs : List α} : (ofList value xs).Fits (room + 1) ↔ ∀ x ∈ xs, (value x).Fits room := by
  rw [ofList, Fits, allFit_iff]
  simp

theorem fits_array {written : α → Json → Prop} {xs : List α} {elements : List Json}
    (h : List.Forall₂ written xs elements) (hfits : ∀ x ∈ xs, ∀ j, written x j → j.Fits room) :
    (Json.array elements).Fits (room + 1) := by
  rw [Fits]
  induction h with
  | nil => trivial
  | cons hx _ ih =>
      rw [List.forall_mem_cons] at hfits
      exact ⟨hfits.1 _ hx, ih hfits.2⟩

@[simp]
theorem fits_object {members : Fields} : (Json.object members).Fits (room + 1) ↔ AllMembersFit room members := by
  rw [Fits]

variable (name : String) {members : Fields}

@[simp]
theorem allMembersFit_nil : AllMembersFit room [] := trivial

@[simp]
theorem allMembersFit_cons {j : Json} :
    AllMembersFit room ((name, j) :: members) ↔ j.Fits room ∧ AllMembersFit room members := Iff.rfl

@[simp]
theorem allMembersFit_append {f g : Fields} :
    AllMembersFit room (f ++ g) ↔ AllMembersFit room f ∧ AllMembersFit room g := by
  simp only [allMembersFit_iff, List.forall_mem_append]

@[simp]
theorem allMembersFit_whenSome {o : Option α} :
    AllMembersFit room (whenSome name value o) ↔ ∀ x ∈ o, (value x).Fits room := by
  cases o <;> simp [whenSome]

@[simp]
theorem allMembersFit_whenTrue (b : Bool) : AllMembersFit room (whenTrue name b) := by
  cases b <;> simp [whenTrue]

@[simp]
theorem allMembersFit_whenNonempty {xs : List α} :
    AllMembersFit (room + 1) (whenNonempty name value xs) ↔ ∀ x ∈ xs, (value x).Fits room := by
  cases xs with
  | nil => simp [whenNonempty]
  | cons x xs => rw [whenNonempty, if_neg (by simp), allMembersFit_cons, fits_ofList, and_iff_left allMembersFit_nil]

end Fits

end DdlCatalog.Json
