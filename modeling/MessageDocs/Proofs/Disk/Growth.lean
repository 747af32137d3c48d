import MessageDocs.Proofs.Disk
import MessageDocs.Proofs.Disk.Target

/-! # A disk that has gained files

Files are written in one directory, which is made where it is missing. What was there before is
found as before, but for those files themselves, by every path that never leads up.

* `Disk.GainsFiles`: what a disk has gained.
* `Disk.GainsFiles.node_eq`: paths that lead to what was there before.
* `Disk.GainsFiles.isFile_eq`: paths with another name than the files that have been written.
-/

set_option autoImplicit false

namespace MessageDocs.Disk

open MessageDocs.Path

/-- A disk after files with some names have been written in one directory, and before them the
directories on the way to it. -/
structure GainsFiles (d d' : Disk) (output : Location) (names : List Text) : Prop where
  cwd : d'.cwd = d.cwd
  removed : d'.removed = d.removed
  nodes : ∀ loc, d'.tree.node? loc = d.tree.node? loc ∨
    (d.tree.node? loc = none ∧ d'.tree.node? loc = some .directory ∧ loc <+: output) ∨
    (d.tree.node? loc ≠ some .directory ∧ (∃ c, d'.tree.node? loc = some (.file c)) ∧
      ∃ n ∈ names, loc = output ++ [n])

namespace GainsFiles

variable {d d' : Disk} {output loc : Location} {names : List Text}

theorem directory (gains : GainsFiles d d' output names)
    (h : d.tree.node? loc = some .directory) : d'.tree.node? loc = some .directory := by
  rcases gains.nodes loc with same | ⟨missing, -⟩ | ⟨other, -⟩
  · rw [same, h]
  · rw [missing] at h
    cases h
  · exact absurd h other

/-! ## Other names -/

section OtherName

variable (gains : GainsFiles d d' output names)
  (other : ∀ n ∈ names, loc.getLast? ≠ some n)

include gains other

theorem node?_eq {n : Node} (h : d.tree.node? loc = some n) : d'.tree.node? loc = some n := by
  rcases gains.nodes loc with same | ⟨missing, -⟩ | ⟨-, -, n, hn, rfl⟩
  · rw [same, h]
  · rw [missing] at h
    cases h
  · exact absurd List.getLast?_concat (other n hn)

/-- **A file with another name** is there just if it was there before. -/
theorem file_iff {c : Contents} :
    d'.tree.node? loc = some (.file c) ↔ d.tree.node? loc = some (.file c) := by
  refine ⟨fun h => ?_, gains.node?_eq other⟩
  rcases gains.nodes loc with same | ⟨-, made, -⟩ | ⟨-, -, n, hn, rfl⟩
  · rw [← same, h]
  · rw [made] at h
    cases h
  · exact absurd List.getLast?_concat (other n hn)

end OtherName

/-! ## Paths -/

section Paths

variable (gains : GainsFiles d d' output names) (entered : d.removed = 0) {p : Path}
  (descends : p.Descends)

include gains entered descends

/-- **A path to what was there before**, or to a directory above it, leads where it led. -/
theorem node_eq {rest : Location} {n : Node} (h : d.tree.node? (p.target d.cwd ++ rest) = some n)
    (h' : d'.tree.node? (p.target d.cwd ++ rest) = some n) :
    d'.locate p = d.locate p ∧ d'.node p = d.node p := by
  apply node_eq_of_same_way entered gains.removed gains.cwd descends
  rintro l ⟨more, whole⟩
  rw [← whole, List.append_assoc] at h h'
  by_cases here : more ++ rest = []
  · rw [here, List.append_nil] at h h'
    rw [h, h']
  · have dir := FileTree.directory_of_node? here h
    rw [dir, gains.directory dir]

theorem isDirectory_of_isDirectory (h : d.isDirectory p = true) : d'.isDirectory p = true := by
  have dir := (node_at_target entered (isDirectory_iff.mp h)).2
  rw [← List.append_nil (p.target d.cwd)] at dir
  rw [isDirectory, (gains.node_eq entered descends dir (gains.directory dir)).2]
  exact h

/-- What has another name is found by its path as it was before. -/
theorem node_eq_of_other (other : ∀ n ∈ names, (p.target d.cwd).getLast? ≠ some n) {n : Node}
    (h : d.tree.node? (p.target d.cwd) = some n) : d'.node p = d.node p := by
  have h' := gains.node?_eq other h
  rw [← List.append_nil (p.target d.cwd)] at h h'
  exact (gains.node_eq entered descends h h').2

/-- **A path with another name** leads to a file just if it led to one before. -/
theorem isFile_eq (other : ∀ n ∈ names, (p.target d.cwd).getLast? ≠ some n) :
    d'.isFile p = d.isFile p := by
  cases there : d.tree.node? (p.target d.cwd) with
  | some n => rw [isFile, isFile, gains.node_eq_of_other entered descends other there]
  | none =>
    rw [Bool.eq_iff_iff, isFile_iff, isFile_iff]
    constructor
    · rintro ⟨loc, c, led, file⟩
      have target := target_of_locate led
      rw [gains.cwd] at target
      rw [← target, gains.file_iff other, there] at file
      cases file
    · rintro ⟨loc, c, led, file⟩
      rw [← target_of_locate led, there] at file
      cases file

end Paths

end GainsFiles

end MessageDocs.Disk
