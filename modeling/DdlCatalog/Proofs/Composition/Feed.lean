import DdlCatalog.Catalog.Script
import DdlCatalog.Proofs.Composition.Script
import DdlCatalog.Proofs.Edit

/-!
A catalog fed with two scripts at once. Behind a semicolon on a new line the second script is applied after the
first one, unless the first one lacks the value of its last option.
-/

namespace DdlCatalog.Catalog

open Sql

variable {script following : String} {ss more : List Statement}

/-- What a second script leaves where the first one could be applied. -/
def Report.followedBy (r : Report) (script : String) : Report :=
  match r.result with
  | .error _ => r
  | .ok () =>
    let second := r.catalog.feed script
    ⟨second.result, second.catalog, r.events ++ second.events⟩

theorem feed_of_parse (c : Catalog) (h : parse script = .ok ss) : c.feed script = c.applied ss := by
  rw [feed, h]

theorem applied_append (c : Catalog) (h : parse following = .ok more) (ss : List Statement) :
    c.applied (ss ++ more) = (c.applied ss).followedBy following := by
  have hall : applyAll (ss ++ more) = (do applyAll ss; applyAll more) := Edit.forEach_append apply ss more
  simp only [applied, hall, Edit.run_bind, Report.followedBy]
  cases ((applyAll ss).run c).result with
  | error e => rfl
  | ok _ =>
      simp only [Except.mapError, feed_of_parse _ h]
      rfl

/-- Two scripts that can be read, with a semicolon on a new line between them: they can be read together, and then
the catalog is fed with the one and then with the other. They cannot if the first one takes the semicolon for the
value of its last option and the second one does not start with another semicolon. -/
theorem feed_joined (h : parse script = .ok ss) (hfollowing : parse following = .ok more) :
    (AwaitsValue script → EndsInOption script) ∧
    (¬ (AwaitsValue script ∧ StartsWithStatement following) →
      parse (script ++ "\n;" ++ following) = .ok (ss ++ more) ∧
      ∀ c : Catalog, c.feed (script ++ "\n;" ++ following) = (c.feed script).followedBy following) ∧
    (AwaitsValue script ∧ StartsWithStatement following →
      ∃ e, parse (script ++ "\n;" ++ following) = .error e ∧
        ∀ c : Catalog, c.feed (script ++ "\n;" ++ following) = ⟨.error (.parse e), c, []⟩) := by
  obtain ⟨hends, hjoined, hnot⟩ := parse_joined h hfollowing
  refine ⟨hends, fun hgood => ?_, fun hbad => ?_⟩
  · refine ⟨hjoined hgood, fun c => ?_⟩
    rw [c.feed_of_parse (hjoined hgood), c.feed_of_parse h, c.applied_append hfollowing]
  · obtain ⟨e, he⟩ := hnot hbad
    exact ⟨e, he, fun c => by rw [feed, he]⟩

/-- A script whose last option has no value. -/
def missingValue : String := "create table t (a int) stats_persistent"

def dropping : String := "drop table u"

theorem missingValue_joined :
    ∃ ss more e, parse missingValue = .ok ss ∧ parse dropping = .ok more ∧ parse (";" ++ dropping) = .ok more ∧
      EndsInOption missingValue ∧ parse (missingValue ++ "\n;" ++ dropping) = .error e ∧
      (empty .lenient).feed (missingValue ++ "\n;" ++ dropping) = ⟨.error (.parse e), empty .lenient, []⟩ ∧
      parse (missingValue ++ "\n;" ++ (";" ++ dropping)) = .ok (ss ++ more) ∧
      (empty .lenient).feed (missingValue ++ "\n;" ++ (";" ++ dropping)) =
        ((empty .lenient).feed missingValue).followedBy (";" ++ dropping) := by
  have hscript : parse missingValue = .ok [.createTable
      { table := "t", entries := [.column { name := "a", type := { name := .int } }] }] := by
    decide +kernel
  have hdropping : parse dropping = .ok [.dropTable ["u"] false] := by
    decide +kernel
  have hsemicolon : parse (";" ++ dropping) = .ok [.dropTable ["u"] false] := by
    decide +kernel
  have hawaits : AwaitsValue missingValue := by
    rw [AwaitsValue, hscript]
    decide +kernel
  have hstarts : StartsWithStatement dropping := by
    have hhead : (tokens dropping).head? = some (.ok ⟨.word "drop", 0, "drop".toList, []⟩) := by decide +kernel
    obtain ⟨rest, hrest⟩ := List.head?_eq_some_iff.1 hhead
    exact ⟨_, rest, hrest, fun h => nomatch h⟩
  have hnot : ¬ (AwaitsValue missingValue ∧ StartsWithStatement (";" ++ dropping)) := by
    rintro ⟨-, t, rest, htokens, ht⟩
    have hhead : (tokens (";" ++ dropping)).head? = some (.ok ⟨.semicolon, 0, [';'], []⟩) := by decide +kernel
    rw [htokens] at hhead
    cases hhead
    exact ht rfl
  obtain ⟨hends, -, hbad⟩ := feed_joined hscript hdropping
  obtain ⟨e, he, hfeed⟩ := hbad ⟨hawaits, hstarts⟩
  obtain ⟨hjoined, hboth⟩ := (feed_joined hscript hsemicolon).2.1 hnot
  exact ⟨_, _, e, hscript, hdropping, hsemicolon, hends hawaits, he, hfeed _, hjoined, hboth _⟩

/-- Both scripts can be read, but not together. -/
theorem missingValue_not_joined :
    parse missingValue = .ok [.createTable
      { table := "t", entries := [.column { name := "a", type := { name := .int } }] }] ∧
    parse dropping = .ok [.dropTable ["u"] false] ∧
    parse (missingValue ++ "\n;" ++ dropping) = .error (.unexpectedToken (.word "drop") 41 "';' or end of input") := by
  decide +kernel

end DdlCatalog.Catalog
