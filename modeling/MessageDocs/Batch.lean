import MessageDocs.Discovery

/-! # Batches

All schemas that were found, read one after the other. A schema that cannot be read is recorded
with its failure and does not keep the others from being read; its remarks are dropped.
-/

set_option autoImplicit false

namespace MessageDocs

structure Batch where
  /-- The messages read, in the order of the files. -/
  messages : List Message := []
  /-- The failures of the other files. -/
  failures : List Failure := []
  diagnostics : Diagnostics := {}

namespace Batch

/-- Reads one file; its path in messages and remarks is the one it is recorded with. -/
def readSchema (d : Disk) (options : ReadOptions) (f : SchemaFile) :
    Except Failure Message × Diagnostics :=
  match d.readText f.fullPath with
  | .error e => (.error (.access f.fullPath ("Failed to read schema: " ++ e.message)), {})
  | .ok source => Schema.read options f.relative source

/-- The batch with one more file. -/
def add (d : Disk) (options : ReadOptions) (b : Batch) (f : SchemaFile) : Batch :=
  match readSchema d options f with
  | (.ok m, ds) =>
    { b with messages := b.messages ++ [m], diagnostics := b.diagnostics.merge ds }
  | (.error e, _) => { b with failures := b.failures ++ [e] }

/-- The batch of some files, with the remarks on their messages together. -/
def ofFiles (d : Disk) (options : ReadOptions) (files : List SchemaFile) : Batch :=
  let b := files.foldl (add d options) {}
  { b with diagnostics := b.diagnostics.merge (Checks.batch b.messages) }

def total (b : Batch) : Nat :=
  b.messages.length + b.failures.length

def hasFailures (b : Batch) : Bool :=
  !b.failures.isEmpty

def find? (b : Batch) (name : Text) : Option Message :=
  b.messages.find? (·.name = name)

end Batch

end MessageDocs
