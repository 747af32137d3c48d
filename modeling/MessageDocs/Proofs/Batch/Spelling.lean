import Mathlib.Data.List.Forall2
import MessageDocs.Batch

/-! # Batches of files under other spellings

A message keeps the relative path of its file, and only a file that cannot be opened is reported by
its full path. So a batch of files whose directories are spelled in another way is the same, but for
the spelling of these paths.

* `Batch.SameReport`: batches that differ in the spelling of paths in failures.
* `Batch.ofFiles_congr`: the batches of files with the same relative paths and contents.
-/

set_option autoImplicit false

namespace MessageDocs

/-- The same failure, or one that spells the path of its file in another way. -/
inductive Failure.Same : Failure → Failure → Prop
  | refl (e : Failure) : Same e e
  | access {p q : Path} (message : Text) (h : p.Same q) :
    Same (.access p message) (.access q message)

/-- A file under two spellings of its directory, which can be read under both or none. -/
structure SchemaFile.SameContents (d : Disk) (f g : SchemaFile) : Prop where
  fullPath : f.fullPath.Same g.fullPath
  relative : f.relative = g.relative
  contents : d.readText f.fullPath = d.readText g.fullPath

namespace Batch

/-- The same batch, but for the spelling of paths in failures. -/
structure SameReport (b b' : Batch) : Prop where
  messages : b.messages = b'.messages
  failures : List.Forall₂ Failure.Same b.failures b'.failures
  diagnostics : b.diagnostics = b'.diagnostics

variable {d : Disk} {options : ReadOptions}

/-- What is read of a file, or a failure that names it. -/
theorem readSchema_congr (options : ReadOptions) {f g : SchemaFile} (same : f.SameContents d g) :
    readSchema d options f = readSchema d options g ∨
      ∃ e e', e.Same e' ∧ readSchema d options f = (.error e, {}) ∧
        readSchema d options g = (.error e', {}) := by
  rw [readSchema, readSchema, same.contents, same.relative]
  cases d.readText g.fullPath with
  | ok source => exact Or.inl rfl
  | error e => exact Or.inr ⟨_, _, .access _ same.fullPath, rfl, rfl⟩

theorem add_congr {b b' : Batch} (h : b.SameReport b') {f g : SchemaFile}
    (same : f.SameContents d g) : (add d options b f).SameReport (add d options b' g) := by
  rw [add, add]
  rcases readSchema_congr options same with eq | ⟨e, e', alike, eq, eq'⟩
  · rw [eq]
    split
    · next m ds _ =>
      exact ⟨congrArg (· ++ [m]) h.messages, h.failures, congrArg (·.merge ds) h.diagnostics⟩
    · next e _ _ =>
      exact ⟨h.messages, List.rel_append h.failures (.cons (Failure.Same.refl e) .nil),
        h.diagnostics⟩
  · rw [eq, eq']
    exact ⟨h.messages, List.rel_append h.failures (.cons alike .nil), h.diagnostics⟩

/-- The loop over the files keeps the reports the same. -/
theorem foldl_congr {files files' : List SchemaFile}
    (same : List.Forall₂ (SchemaFile.SameContents d) files files') {b b' : Batch}
    (h : b.SameReport b') :
    (files.foldl (add d options) b).SameReport (files'.foldl (add d options) b') := by
  induction same generalizing b b' with
  | nil => exact h
  | cons here _ ih => exact ih (add_congr h here)

/-- **The batch of files** does not depend on how their directories are spelled. -/
theorem ofFiles_congr {files files' : List SchemaFile}
    (same : List.Forall₂ (SchemaFile.SameContents d) files files') :
    (ofFiles d options files).SameReport (ofFiles d options files') := by
  have loop : (files.foldl (add d options) {}).SameReport (files'.foldl (add d options) {}) :=
    foldl_congr same ⟨rfl, .nil, rfl⟩
  refine ⟨loop.messages, loop.failures, ?_⟩
  rw [ofFiles, ofFiles]
  dsimp only
  rw [loop.messages, loop.diagnostics]

end Batch

end MessageDocs
