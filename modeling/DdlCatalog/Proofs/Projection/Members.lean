import DdlCatalog.Projection.Members
import DdlCatalog.Proofs.Table.Invariant
import Mathlib.Data.List.Induction

/-!
Named members. Entries of distinct names are members as they stand, and a pass that changes members by their names
changes each of them on its own.
-/

namespace DdlCatalog.Projection

variable {α β : Type} {t : Table} {name : String}

/-! ### Entries -/

theorem put_new {ms : Members α} (h : name ∉ ms.map (·.1)) (value : α) :
    put name value ms = ms ++ [(name, value)] := by
  induction ms with
  | nil => rfl
  | cons m ms ih =>
      rw [List.map_cons, List.mem_cons, not_or] at h
      rw [put, if_neg (Ne.symm h.1), ih h.2, List.cons_append]

/-- Entries of distinct names are members as they stand. -/
theorem ofEntries_eq {entries : List (String × α)} (h : (entries.map (·.1)).Nodup) :
    ofEntries entries = entries := by
  have hput (es : List (String × α)) : ∀ ms : Members α, ((ms ++ es).map (·.1)).Nodup →
      es.foldl (fun ms e => put e.1 e.2 ms) ms = ms ++ es := by
    induction es with
    | nil => simp
    | cons e es ih =>
        intro ms hd
        have hnew : e.1 ∉ ms.map (·.1) := by
          rw [List.map_append, List.map_cons] at hd
          exact fun he => (List.nodup_append.1 hd).2.2 e.1 he e.1 List.mem_cons_self rfl
        rw [List.foldl_cons, put_new hnew, ih _ (by simpa using hd), List.append_assoc, List.singleton_append]
  exact hput entries [] h

/-- The entry of each column under its name. -/
theorem columns_ofEntries (h : t.columnNames.Nodup) (f : Column → α) :
    ofEntries (t.columns.map fun c => (c.name, f c)) = t.columns.map fun c => (c.name, f c) := by
  refine ofEntries_eq ?_
  rw [List.map_map]
  exact h

/-! ### Passes -/

/-- A pass that changes each member on its own, by its name and value. -/
def EachBy (pass : Members α → Members α) (change : String → α → α) : Prop :=
  ∀ ms : Members α, (ms.map (·.1)).Nodup → pass ms = ms.map fun m => (m.1, change m.1 m.2)

theorem names_map (ms : Members α) (change : String → α → α) :
    (ms.map fun m => (m.1, change m.1 m.2)).map (·.1) = ms.map (·.1) := by
  rw [List.map_map]
  rfl

theorem eachBy_update (name : String) (f : α → α) :
    EachBy (update name f) fun n v => if name = n then f v else v := by
  intro ms hd
  induction ms with
  | nil => rfl
  | cons m ms ih =>
      obtain ⟨n, v⟩ := m
      obtain ⟨hnew, hd⟩ := List.nodup_cons.1 hd
      rw [update, List.map_cons]
      dsimp only
      split
      · rename_i hname
        -- The other members have other names.
        have hothers : ∀ m ∈ ms, (m.1, if name = m.1 then f m.2 else m.2) = m := fun m hm => by
          have hother : name ≠ m.1 := fun he => hnew (List.mem_map.2 ⟨m, hm, (hname.trans he).symm⟩)
          rw [if_neg hother]
        rw [if_pos hname.symm, List.map_congr_left hothers, List.map_id']
      · rename_i hname
        rw [if_neg (Ne.symm hname), ih hd]

theorem EachBy.congr {pass : Members α → Members α} {change change' : String → α → α} (h : EachBy pass change)
    (heq : ∀ n v, change n v = change' n v) : EachBy pass change' := by
  intro ms hd
  rw [h ms hd]
  simp only [heq]

theorem EachBy.comp {pass pass' : Members α → Members α} {change change' : String → α → α} (h : EachBy pass change)
    (h' : EachBy pass' change') : EachBy (fun ms => pass' (pass ms)) fun n v => change' n (change n v) := by
  intro ms hd
  dsimp only
  rw [h ms hd, h' _ (by rwa [names_map]), List.map_map]
  rfl

theorem eachBy_foldl {pass : Members α → β → Members α} {change : String → α → β → α}
    (h : ∀ x, EachBy (pass · x) (change · · x)) (xs : List β) :
    EachBy (xs.foldl pass) fun n v => xs.foldl (change n) v := by
  induction xs with
  | nil => exact fun ms _ => (List.map_id ms).symm
  | cons x xs ih => exact (h x).comp ih

/-- Of changes that overwrite each other the last one counts. -/
theorem foldl_overwrite {change : α → β → α} (h : ∀ v x y, change (change v x) y = change v y) (xs : List β) (v : α) :
    xs.foldl change v = xs.getLast?.elim v (change v) := by
  induction xs using List.reverseRecOn with
  | nil => rfl
  | append_singleton xs x ih =>
      rw [List.foldl_concat, ih, List.getLast?_concat]
      cases xs.getLast? with
      | none => rfl
      | some y => exact h v y x

/-- A mark that is set once or more often. -/
theorem foldl_mark {f : α → α} (h : ∀ v, f (f v) = f v) (p : β → Prop) [DecidablePred p] (xs : List β) (v : α) :
    xs.foldl (fun v x => if p x then f v else v) v = if ∃ x ∈ xs, p x then f v else v := by
  have hmarked : xs.foldl (fun v x => if p x then f v else v) v = (xs.filter p).foldl (fun v _ => f v) v := by
    rw [List.foldl_filter]
    simp only [decide_eq_true_eq]
  rw [hmarked, foldl_overwrite fun v _ _ => h v]
  by_cases hex : ∃ x ∈ xs, p x
  · obtain ⟨y, hy⟩ := Option.ne_none_iff_exists'.1 (show (xs.filter p).getLast? ≠ none by simpa using hex)
    rw [if_pos hex, hy]
    rfl
  · have hnone : (xs.filter p).getLast? = none := by simpa using hex
    rw [if_neg hex, hnone]
    rfl

end DdlCatalog.Projection
