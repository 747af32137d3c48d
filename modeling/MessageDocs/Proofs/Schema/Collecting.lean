import MessageDocs.Proofs.NameMap
import MessageDocs.Schema.Reader

/-! # Reading into a collection that is not empty

Remarks are put at the end of a list, units into a set, and counts into a map in which the last one
stays. All three ways of adding agree with merging, so a step of the reader leaves in any collection
what it would leave in an empty one, merged into it.

* `Diagnostics.merge_assoc`, `Diagnostics.merge_empty` and `Diagnostics.empty_merge` are the laws of
  merging.
* `Schema.Adds` is said of a step that only adds; `Schema.adds_readLine` is the step of one line,
  `Schema.adds_readLines` that of a run of lines.
* `Schema.reading_merges`: a source read into any collection, and sources read one after the other.
-/

set_option autoImplicit false

namespace MessageDocs

/-! ## Merging -/

namespace Diagnostics

theorem merge_assoc (a b c : Diagnostics) : (a.merge b).merge c = a.merge (b.merge c) := by
  simp only [merge, List.append_assoc, NameMap.union_assoc]

@[simp]
theorem merge_empty (ds : Diagnostics) : ds.merge {} = ds := by
  simp only [merge, List.append_nil, NameMap.union_empty]

@[simp]
theorem empty_merge (ds : Diagnostics) : Diagnostics.merge {} ds = ds := by
  simp only [merge, List.nil_append, NameMap.empty_union]

/-- A collection that several others are merged into need not be there from the start. -/
theorem foldl_merge (ds : Diagnostics) (others : List Diagnostics) :
    others.foldl merge ds = ds.merge (others.foldl merge {}) := by
  induction others generalizing ds with
  | nil => rw [List.foldl_nil, List.foldl_nil, merge_empty]
  | cons other others ih =>
    rw [List.foldl_cons, List.foldl_cons, empty_merge, ih, ih other, merge_assoc]

theorem push_eq_merge (ds : Diagnostics) (d : Diagnostic) :
    ds.push d = ds.merge (Diagnostics.push {} d) := rfl

theorem recordInvalidUnit_eq_merge (ds : Diagnostics) (unit : Text) :
    ds.recordInvalidUnit unit = ds.merge (Diagnostics.recordInvalidUnit {} unit) := by
  simp only [recordInvalidUnit, merge, List.append_nil, NameMap.union_empty]
  rfl

end Diagnostics

namespace Schema

variable {options : ReadOptions} {path : Path}

/-! ## Steps that add -/

/-- Whether a step gives the same with every collection, and leaves in it what it leaves in an empty
one, merged into it. -/
def Adds {α : Type} (step : Diagnostics → α × Diagnostics) : Prop :=
  ∀ ds, step ds = ((step {}).1, ds.merge (step {}).2)

/-- A step with a result of its own adds what its remarks add. -/
theorem adds_of_remarks {α : Type} {a : α} {remarks : Diagnostics → Diagnostics}
    (h : ∀ ds, remarks ds = ds.merge (remarks {})) : Adds fun ds => (a, remarks ds) :=
  fun ds => Prod.ext rfl (h ds)

theorem adds_pure {α : Type} (a : α) : Adds fun ds => (a, ds) :=
  adds_of_remarks fun ds => ds.merge_empty.symm

/-! ## One line -/

theorem checkUnit_eq_merge (f : Field) (ds : Diagnostics) :
    checkUnit options path f ds = ds.merge (checkUnit options path f {}) := by
  unfold checkUnit
  cases f.unit with
  | none => exact ds.merge_empty.symm
  | some unit =>
    dsimp only
    split
    · exact ds.merge_empty.symm
    · rw [Diagnostics.push_eq_merge, Diagnostics.recordInvalidUnit_eq_merge,
        Diagnostics.merge_assoc, ← Diagnostics.push_eq_merge]

theorem adds_readDeclaration (line : Nat) (text : Text) (d : Draft) :
    Adds (readDeclaration options path line text d) := by
  unfold readDeclaration
  cases Declaration.classify text with
  | error e => exact adds_pure _
  | ok declaration =>
    cases declaration with
    | constant typeName name value comment => exact adds_pure _
    | field typeName name comment =>
      dsimp only
      cases Metadata.read comment with
      | error e => exact adds_pure _
      | ok metadata => exact adds_of_remarks (checkUnit_eq_merge _)

theorem adds_readLine (line : NumberedLine) (d : Draft) : Adds (readLine options path line d) := by
  unfold readLine
  cases BodyLine.ofText line.text with
  | blank => exact adds_pure _
  | topics => exact adds_of_remarks fun ds => ds.push_eq_merge _
  | comment text =>
    by_cases h : text = []
    · simp only [h, if_true]
      exact adds_pure _
    · simp only [h, if_false]
      exact adds_of_remarks fun ds => ds.push_eq_merge _
  | declaration text => exact adds_readDeclaration _ _ _

/-! ## Runs of lines -/

theorem adds_readLines (lines : List NumberedLine) (d : Draft) :
    Adds (readLines options path lines d) := by
  induction lines generalizing d with
  | nil => exact adds_pure _
  | cons line lines ih =>
    intro ds
    rw [readLines, readLines, adds_readLine line d ds]
    obtain ⟨result, remarks⟩ := readLine options path line d {}
    cases result with
    | error e => rfl
    | ok d =>
      dsimp only
      rw [ih d (ds.merge remarks), ih d remarks, Diagnostics.merge_assoc]

/-! ## Sources -/

theorem adds_readInto (options : ReadOptions) (path : Path) (source : Text) :
    Adds (readInto options path source) := by
  intro ds
  unfold readInto
  dsimp only
  rw [adds_readLines _ _ ds]
  generalize readLines options path _ _ {} = alone
  obtain ⟨result, remarks⟩ := alone
  cases result with
  | error e => rfl
  | ok d =>
    dsimp only
    rw [Diagnostics.merge_assoc]

/-- A source that is to be read. -/
structure Task where
  options : ReadOptions
  path : Path
  source : Text

/-- Reads one source after the other into one collection. -/
def readAll : List Task → Diagnostics → List (Except Failure Message) × Diagnostics
  | [], ds => ([], ds)
  | t :: ts, ds =>
    let (result, ds) := readInto t.options t.path t.source ds
    let (results, ds) := readAll ts ds
    (result :: results, ds)

/-- What reading a source on its own gives. -/
def Task.alone (t : Task) : Except Failure Message × Diagnostics :=
  read t.options t.path t.source

theorem readAll_eq (ts : List Task) (ds : Diagnostics) :
    readAll ts ds =
      (ts.map fun t => t.alone.1, (ts.map fun t => t.alone.2).foldl Diagnostics.merge ds) := by
  induction ts generalizing ds with
  | nil => rfl
  | cons t ts ih =>
    have first : readInto t.options t.path t.source ds = (t.alone.1, ds.merge t.alone.2) :=
      adds_readInto t.options t.path t.source ds
    rw [readAll, first]
    dsimp only
    rw [ih, List.map_cons, List.map_cons, List.foldl_cons]

/-- **Reading only adds.** With every collection a source gives the same message or failure, and
leaves what it leaves in an empty collection, merged into the one it was given; merging is
associative with the empty collection as its unit; and sources that are read one after the other
leave the remarks of each of them alone, merged in their order. -/
theorem reading_merges :
    (∀ (options : ReadOptions) (path : Path) (source : Text) (ds : Diagnostics),
      (readInto options path source ds).1 = (read options path source).1 ∧
      (readInto options path source ds).2 = ds.merge (read options path source).2) ∧
    (∀ a b c : Diagnostics, (a.merge b).merge c = a.merge (b.merge c)) ∧
    (∀ ds : Diagnostics, ds.merge {} = ds ∧ Diagnostics.merge {} ds = ds) ∧
    ∀ (ts : List Task) (ds : Diagnostics),
      (readAll ts ds).1 = ts.map (fun t => t.alone.1) ∧
      (readAll ts ds).2 = ds.merge ((ts.map fun t => t.alone.2).foldl Diagnostics.merge {}) := by
  refine ⟨?_, Diagnostics.merge_assoc, fun ds => ⟨ds.merge_empty, ds.empty_merge⟩, ?_⟩
  · intro options path source ds
    have h := adds_readInto options path source ds
    rw [h]
    exact ⟨rfl, rfl⟩
  · intro ts ds
    rw [readAll_eq]
    exact ⟨rfl, Diagnostics.foldl_merge ds _⟩

end Schema

end MessageDocs
