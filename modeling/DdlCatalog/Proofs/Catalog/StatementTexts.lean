import DdlCatalog.Catalog.Script
import DdlCatalog.Proofs.Encoding.Statement

/-!
Statements applied through their texts: the statements that a text writes are read from it, in whatever
way the entries of a table are wrapped, so that they do to a catalog what they do when applied directly.
-/

namespace DdlCatalog.Catalog

variable {ss : List Statement} {j : Json}

theorem readsBack_of_finite {s : Statement} (hfinite : s.DefaultsFinite) (hreads : s.DefaultsReadBack) :
    ∀ v ∈ s.defaults, v.ReadsBack :=
  fun v hv => hreads v hv (hfinite v hv)

theorem feedJson_render (hfits : j.Fits Json.maxDepth) (hreads : Statement.listOfJson? j = some ss) (c : Catalog) :
    c.feedJson j.render = c.applied ss := by
  simp only [feedJson, Json.parse?_render hfits, Option.bind_some, hreads]

/-- A statement is read from each text that writes it, and a text that writes statements does what they
do. Of real defaults nothing is asked but that finite ones come back from their numerals. -/
theorem feedJson_written :
    (∀ (s : Statement) (j : Json), s.WrittenAs Json.maxDepth j → s.DefaultsFinite → s.DefaultsReadBack →
      (Json.parse? j.render).bind Statement.ofJson? = some s) ∧
    ∀ (ss : List Statement) (j : Json), Statement.ListWrittenAs ss Json.maxDepth j →
      (∀ s ∈ ss, s.DefaultsFinite ∧ s.DefaultsReadBack) → ∀ c : Catalog, c.feedJson j.render = c.applied ss := by
  constructor
  · intro s j hwritten hfinite hreads
    have hdefaults := readsBack_of_finite hfinite hreads
    rw [Json.parse?_render (hwritten.fits hdefaults (by decide)), Option.bind_some,
      hwritten.reads hdefaults (by decide)]
  · intro ss j hwritten hall c
    have hdefaults : ∀ s ∈ ss, ∀ v ∈ s.defaults, v.ReadsBack :=
      fun s hs => readsBack_of_finite (hall s hs).1 (hall s hs).2
    exact feedJson_render (hwritten.fits hdefaults (by decide)) (hwritten.reads hdefaults (by decide)) c

/-- A column whose default is written with a point. -/
def weight : TableEntry :=
  .column { name := "x", type := { name := .double }, attributes := { default := some (.real 1.5) } }

def weightKey : TableEntry := .index .unique { name := some "k", parts := [{ column := "x" }] }

def weights : TableDefinition := { table := "t", entries := [weight, weightKey] }

/-- The column in a wrapper with members that say nothing, the key in none. -/
def weightsElements : List Json :=
  [.object [("id", .bool true), ("def", weight.toJson), ("index", .bool false)], weightKey.toJson]

/-- The list of entries in a wrapper without a kind. -/
def weightsJson : Json :=
  Statement.tagged .createTable (weights.toJsonWith (.object [("def", .array weightsElements)]))

theorem weightsJson_written (room : Nat) : Statement.WrittenAs (.createTable weights) (room + 5) weightsJson := by
  have hid : ∀ m ∈ [("id", Json.bool true)], m.1 ≠ "def" ∧ m.2.Fits room := by simp
  have hindex : ∀ m ∈ [("index", Json.bool false)], m.1 ≠ "def" ∧ m.2.Fits room := by simp
  have helements : List.Forall₂ (fun e => e.WrittenAs (room + 1)) weights.entries weightsElements :=
    .cons (.wrapped rfl hid hindex) (.cons (.bare rfl) .nil)
  have hentries : TableEntry.ListWrittenAs weights.entries (room + 3) (.object [("def", .array weightsElements)]) :=
    .wrapped ⟨room + 1, weightsElements, rfl, rfl, helements⟩ (List.forall_mem_nil _) (List.forall_mem_nil _)
  exact .entries weights hentries

/-- A place in front of all columns, which is not the lack of a place, and a null, which is not the lack
of a default. -/
def placed : Statement :=
  .alterTable "t"
    [.addColumn { name := "y", type := { name := .int }, attributes := { default := some .null } } (some .first),
      .dropDefault "x"]

theorem weights_placed_read :
    (Json.parse? weightsJson.render).bind Statement.ofJson? = some (.createTable weights) ∧
      (empty .strict).feedJson (Json.array [weightsJson, placed.toJson]).render =
        (empty .strict).applied [.createTable weights, placed] := by
  have hweights : (Statement.createTable weights).DefaultsFinite ∧ (Statement.createTable weights).DefaultsReadBack := by
    decide +kernel
  have hplaced : placed.DefaultsFinite ∧ placed.DefaultsReadBack := by decide +kernel
  have hall : ∀ s ∈ [.createTable weights, placed], s.DefaultsFinite ∧ s.DefaultsReadBack := by
    simp [hweights, hplaced]
  have hlist : List.Forall₂ (fun s => s.WrittenAs 126) [.createTable weights, placed] [weightsJson, placed.toJson] :=
    .cons (weightsJson_written 121) (.cons (.plain placed) .nil)
  exact ⟨feedJson_written.1 _ _ (weightsJson_written 122) hweights.1 hweights.2,
    feedJson_written.2 _ _ (.many hlist) hall _⟩

end DdlCatalog.Catalog
