import DdlCatalog.Proofs.Spelling.Statement
import DdlCatalog.Proofs.Spelling.Text

/-!
Every token in the canonical spelling of a statement has a text: its words are keywords, and no integer in
it has a sign of its own.
-/

namespace DdlCatalog

open Sql Sql.Parser

namespace Sql

def AllWritable (ks : List TokenKind) : Prop := ∀ k ∈ ks, k.Writable

namespace TokenKind

@[simp]
theorem writable_word {w : String} : (word w).Writable ↔ isKeyword w = true := .rfl

@[simp]
theorem writable_quoted (s : String) : (quoted s).Writable := trivial

@[simp]
theorem writable_string (s : String) : (string s).Writable := trivial

@[simp]
theorem writable_integer {n : Int64} : (integer n).Writable ↔ 0 ≤ n := .rfl

@[simp]
theorem writable_equals : equals.Writable := ⟨'=', rfl⟩

@[simp]
theorem writable_minus : minus.Writable := ⟨'-', rfl⟩

end TokenKind

section Lists

variable {k : TokenKind} {ks ks' : List TokenKind}

@[simp]
theorem allWritable_nil : AllWritable [] := by simp [AllWritable]

@[simp]
theorem allWritable_cons : AllWritable (k :: ks) ↔ k.Writable ∧ AllWritable ks := List.forall_mem_cons

@[simp]
theorem allWritable_append : AllWritable (ks ++ ks') ↔ AllWritable ks ∧ AllWritable ks' := List.forall_mem_append

@[simp]
theorem allWritable_ifSome {α : Type} {o : Option α} {clause : α → List TokenKind} :
    AllWritable (ifSome o clause) ↔ ∀ x ∈ o, AllWritable (clause x) := by
  cases o <;> simp [ifSome]

@[simp]
theorem allWritable_ifTrue {on : Bool} : AllWritable (ifTrue on ks) ↔ (on = true → AllWritable ks) := by
  cases on <;> simp [ifTrue]

@[simp]
theorem allWritable_inParens : AllWritable (inParens ks) ↔ AllWritable ks := by
  have hleft : TokenKind.leftParen.Writable := ⟨'(', rfl⟩
  have hright : TokenKind.rightParen.Writable := ⟨')', rfl⟩
  simp [inParens, hleft, hright]

theorem allWritable_flatMap {α : Type} {xs : List α} {spell : α → List TokenKind}
    (h : ∀ x ∈ xs, AllWritable (spell x)) : AllWritable (xs.flatMap spell) := by
  intro k hk
  obtain ⟨x, hx, hk⟩ := List.mem_flatMap.1 hk
  exact h x hx k hk

theorem allWritable_joined {α : Type} {xs : List α} {spell : α → List TokenKind}
    (h : ∀ x ∈ xs, AllWritable (spell x)) : AllWritable (joined spell xs) := by
  have hcomma : TokenKind.comma.Writable := ⟨',', rfl⟩
  cases xs with
  | nil => exact allWritable_nil
  | cons x xs =>
      refine allWritable_append.2 ⟨h x List.mem_cons_self, allWritable_flatMap fun y hy => ?_⟩
      exact allWritable_cons.2 ⟨hcomma, h y (List.mem_cons_of_mem _ hy)⟩

end Lists

theorem writable_ofNat {n : Nat} (h : n < Nat.pow 2 63) : (TokenKind.integer (Int64.ofNat n)).Writable := by
  change 0 ≤ Int64.ofNat n
  rw [Int64.le_iff_toInt_le, Int64.toInt_ofNat_of_lt h]
  exact Int.natCast_nonneg n

end Sql

/-! ### Keys -/

theorem KeyPart.writable (p : KeyPart) : AllWritable p.kinds := by
  simp only [kinds, allWritable_cons, allWritable_append, allWritable_ifSome]
  refine ⟨trivial, fun n _ => ?_, fun o _ => ?_⟩
  · have hn : n.toNat < Nat.pow 2 63 := n.toNat_lt.trans (by decide)
    exact allWritable_inParens.2 (allWritable_cons.2 ⟨writable_ofNat hn, allWritable_nil⟩)
  · cases o <;> simp +decide [SortOrder.name]

theorem partKinds_writable (parts : List KeyPart) : AllWritable (partKinds parts) :=
  allWritable_inParens.2 (allWritable_joined fun p _ => p.writable)

theorem usingKinds_writable (method : Option IndexMethod) : AllWritable (usingKinds method) := by
  simp only [usingKinds, allWritable_ifSome]
  intro m _
  cases m <;> simp +decide [IndexMethod.name]

theorem IndexOptions.writable {o : IndexOptions} (h : o.Canonical) : AllWritable o.kinds := by
  simp only [kinds, pieces, List.flatten_cons, List.flatten_nil, allWritable_append, allWritable_ifSome]
  refine ⟨fun n hn => ?_, fun s _ => by simp +decide, fun s _ => by simp +decide, fun b _ => ?_, allWritable_nil⟩
  · have hnumber : (numberKind n).Writable := writable_ofNat (h n hn)
    simp +decide [hnumber]
  · cases b <;> simp +decide

theorem IndexKind.writable (kind : IndexKind) : AllWritable kind.kinds := by
  cases kind <;> simp +decide [kinds]

theorem Index.writable {i : Index} (h : i.Canonical) : AllWritable i.kinds := by
  simp [kinds, usingKinds_writable, partKinds_writable, IndexOptions.writable h.options]

theorem ReferentialAction.writable (a : ReferentialAction) : AllWritable a.kinds := by
  cases a <;> simp +decide [kinds]

theorem Reference.writable (r : Reference) : AllWritable r.kinds := by
  simp only [kinds, pieces, List.flatten_cons, List.flatten_nil, allWritable_append, allWritable_ifSome,
    allWritable_cons]
  refine ⟨trivial, partKinds_writable _, fun m _ => ?_, fun a _ => ?_, fun a _ => ?_, allWritable_nil⟩
  · cases m <;> simp +decide [MatchRule.name]
  · simp +decide [a.writable]
  · simp +decide [a.writable]

theorem ForeignKey.writable (k : ForeignKey) : AllWritable k.kinds := by
  have hreferences : isKeyword "references" = true := by decide
  simp [kinds, partKinds_writable, Reference.writable, hreferences]

/-! ### Columns -/

theorem TypeSpec.writable {s : TypeSpec} (h : s.Canonical) : AllWritable s.kinds := by
  have hname : isKeyword s.name.name = true := by cases s.name <;> decide
  have harguments : AllWritable s.argumentKinds := by
    rw [argumentKinds]
    split
    · exact allWritable_inParens.2 (allWritable_joined fun v _ => by simp)
    split
    · exact allWritable_inParens.2 (allWritable_joined fun n hn =>
        allWritable_cons.2 ⟨writable_ofNat (h.arguments_small n hn), allWritable_nil⟩)
    · exact allWritable_nil
  simp +decide [kinds, pieces, hname, harguments]

/-- Only the least integer has no opposite. -/
theorem DefaultValue.neg_nonneg {n : Int64} (hn : n < 0) (h : n ≠ Int64.minValue) : 0 ≤ -n := by
  by_contra hneg
  rcases (Int64.neg_nonpos_iff n).1 (Int64.le_of_lt (Int64.not_le.1 hneg)) with hmin | hpos
  · exact h hmin
  · exact Int64.not_le.2 hn hpos

theorem DefaultValue.writable {v : DefaultValue} (h : v.Canonical) : AllWritable v.kinds := by
  cases v with
  | null => simp +decide [kinds]
  | bool b => cases b <;> simp +decide [kinds]
  | text s => simp [kinds]
  | integer n =>
      rw [kinds]
      split
      · rename_i hn
        have hrest : AllWritable [.integer (-n)] := allWritable_cons.2 ⟨neg_nonneg hn h, allWritable_nil⟩
        exact allWritable_cons.2 ⟨TokenKind.writable_minus, hrest⟩
      · rename_i hn
        exact allWritable_cons.2 ⟨Int64.not_lt.1 hn, allWritable_nil⟩
  | real x =>
      obtain ⟨n, hn⟩ := h
      rw [kinds]
      split at hn
      · rename_i hx
        rw [if_pos hx]
        have hrest : AllWritable [.real (-x)] := allWritable_cons.2 ⟨⟨n, hn.1⟩, allWritable_nil⟩
        exact allWritable_cons.2 ⟨TokenKind.writable_minus, hrest⟩
      · rename_i hx
        rw [if_neg hx]
        exact allWritable_cons.2 ⟨⟨n, hn⟩, allWritable_nil⟩

theorem ColumnDefinition.writable {d : ColumnDefinition} (h : d.Canonical) : AllWritable d.kinds := by
  simp only [kinds, ColumnAttributes.pieces, List.flatten_cons, List.flatten_nil, allWritable_append,
    allWritable_ifSome, allWritable_ifTrue, allWritable_cons]
  refine ⟨trivial, TypeSpec.writable h.type, fun b _ => ?_, fun v hv => ?_, fun s _ => by simp +decide,
    fun _ => by simp +decide, fun _ => by simp +decide, fun _ => by simp +decide, fun s _ => by simp +decide,
    fun s _ => by simp +decide, fun s _ => by simp +decide, fun s _ => by simp +decide, fun s _ => by simp +decide,
    fun _ => by simp +decide, fun r _ => ?_, allWritable_nil⟩
  · cases b <;> simp +decide
  · exact ⟨TokenKind.writable_word.2 (by decide), DefaultValue.writable (h.attributes.default v hv)⟩
  · exact ⟨TokenKind.writable_word.2 (by decide), r.writable⟩

theorem TableEntry.writable {e : TableEntry} (h : e.Canonical) : AllWritable e.kinds := by
  cases e with
  | column d => exact ColumnDefinition.writable h
  | primaryKey key => simp +decide [kinds, Index.writable h]
  | foreignKey k => simp +decide [kinds, k.writable]
  | index kind i => simp [kinds, kind.writable, Index.writable h]

/-! ### Tables -/

theorem TableOption.flag_writable (on : Bool) : (flagKind on).Writable := by
  cases on <;> exact TokenKind.writable_integer.2 (by decide)

theorem TableOption.writable {o : TableOption} (h : o.Canonical) : AllWritable o.kinds := by
  cases o with
  | autoIncrement n | avgRowLength n | keyBlockSize n | maxRows n | minRows n =>
      have hnumber : (numberKind n).Writable := writable_ofNat h
      simp +decide [kinds, hnumber]
  | checksum on | delayKeyWrite on => simp +decide [kinds, flag_writable]
  | packKeys mode =>
      simp only [kinds, allWritable_cons]
      refine ⟨TokenKind.writable_word.2 (by decide), TokenKind.writable_equals, ?_, allWritable_nil⟩
      split
      · exact TokenKind.writable_integer.2 (by decide)
      split
      · exact TokenKind.writable_integer.2 (by decide)
      · exact TokenKind.writable_word.2 (by decide)
  | union tables =>
      have htables : AllWritable (joined (fun s => [.quoted s]) tables) := allWritable_joined fun s _ => by simp
      simp +decide [kinds, htables]
  | _ => simp +decide [kinds]

theorem Placement.writable (p : Placement) : AllWritable p.kinds := by
  cases p <;> simp +decide [kinds]

theorem Alteration.writable {a : Alteration} (h : a.Canonical) : AllWritable a.kinds := by
  cases a with
  | addColumn d placement | changeColumn column d placement | modifyColumn d placement =>
      simp +decide [kinds, ColumnDefinition.writable h, Placement.writable]
  | addColumns ds =>
      have hcolumns := allWritable_joined fun d hd => ColumnDefinition.writable (h.2 d hd)
      simp +decide [kinds, hcolumns]
  | addIndex kind i =>
      have hentry : AllWritable (TableEntry.index kind i).kinds := TableEntry.writable h
      simp +decide [kinds, hentry]
  | addPrimaryKey key =>
      have hentry : AllWritable (TableEntry.primaryKey key).kinds := TableEntry.writable h
      simp +decide [kinds, hentry]
  | addForeignKey k =>
      have hentry : AllWritable (TableEntry.foreignKey k).kinds := TableEntry.writable h
      simp +decide [kinds, hentry]
  | setDefault column value => simp +decide [kinds, DefaultValue.writable h]
  | setOptions options => exact allWritable_flatMap fun o ho => TableOption.writable (h.2 o ho)
  | _ => simp +decide [kinds]

theorem Statement.writable {s : Statement} (h : s.Canonical) : AllWritable s.kinds := by
  cases s with
  | createTable d =>
      have hentries := allWritable_joined fun e he => TableEntry.writable (h.2.1 e he)
      have hoptions := allWritable_flatMap fun o ho => TableOption.writable (h.2.2 o ho)
      simp +decide [kinds, temporaryTable, hentries, hoptions]
  | createTableLike d => simp +decide [kinds, temporaryTable]
  | alterTable table alterations =>
      have halterations := allWritable_joined fun a ha => Alteration.writable (h.2 a ha)
      simp +decide [kinds, halterations]
  | dropTable tables ifExists =>
      have htables : AllWritable (joined (fun s => [.quoted s]) tables) := allWritable_joined fun s _ => by simp
      simp +decide [kinds, htables]
  | renameTable renames =>
      have hrenames : AllWritable (joined (fun r => [.quoted r.1, .word "to", .quoted r.2]) renames) :=
        allWritable_joined fun r _ => by simp +decide
      simp +decide [kinds, hrenames]
  | createIndex table kind i =>
      simp +decide [kinds, kind.writable, usingKinds_writable, partKinds_writable, IndexOptions.writable h.2.options]
  | dropIndex table index => simp +decide [kinds]

end DdlCatalog
