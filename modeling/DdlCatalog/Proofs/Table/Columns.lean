import DdlCatalog.Proofs.Split
import DdlCatalog.Schema.InPlace

/-!
Columns around the first one of a name.
-/

namespace DdlCatalog.Table

variable {name : String} {columns pre post : List Column} {c : Column}

abbrev ColumnSplit (name : String) (columns pre : List Column) (c : Column) (post : List Column) : Prop :=
  Split Column.name name columns pre c post

theorem hasColumn_iff {t : Table} : t.hasColumn name = true ↔ ∃ c ∈ t.columns, c.name = name := by
  simp [hasColumn]

theorem hasColumn.split {t : Table} (h : t.hasColumn name = true) :
    ∃ pre c post, ColumnSplit name t.columns pre c post :=
  exists_split (hasColumn_iff.1 h)

namespace ColumnSplit

theorem updateColumns_eq (h : ColumnSplit name columns pre c post) (f : Column → Column) :
    updateColumns name f columns = pre ++ f c :: post := by
  obtain ⟨rfl, hc, hpre⟩ := h
  induction pre with
  | nil => simp [updateColumns, hc]
  | cons d ds ih =>
      have hd : d.name ≠ name := hpre d (by simp)
      simp [updateColumns, hd, ih (fun e he => hpre e (by simp [he]))]

theorem insertAfter?_eq (h : ColumnSplit name columns pre c post) (d : Column) :
    insertAfter? name d columns = some (pre ++ c :: d :: post) := by
  obtain ⟨rfl, hc, hpre⟩ := h
  induction pre with
  | nil => simp [insertAfter?, hc]
  | cons e es ih =>
      have he : e.name ≠ name := hpre e (by simp)
      simp [insertAfter?, he, ih (fun f hf => hpre f (by simp [hf]))]

end ColumnSplit

end DdlCatalog.Table
