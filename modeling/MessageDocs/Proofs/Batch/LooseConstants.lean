import MessageDocs.Proofs.Batch
import MessageDocs.Proofs.Schema.Remarks

/-! # The counts of loose constants in a batch

A collection counts loose constants by the name of their message. Messages of one name therefore
share one count, and of their counts the last one stays.

* `Batch.unassociated_ofFiles`: the counts are those of the messages, inserted in their order.
* `Batch.loose_accounted_iff`: the count of each name, and when the sum of all is that of the
  messages.
-/

set_option autoImplicit false

namespace MessageDocs.Batch

/-! ## Counts -/

def hasLoose (m : Message) : Bool :=
  decide (m.constants ≠ [])

/-- The number of loose constants of some messages, each by itself. -/
def looseTotal (messages : List Message) : Nat :=
  (messages.map fun m => m.constants.length).sum

/-- The counts that some messages enter, in their order. -/
def looseCounts (messages : List Message) : List (Text × Nat) :=
  (messages.filter hasLoose).map fun m => (m.name, m.constants.length)

theorem looseCounts_cons (m : Message) (messages : List Message) :
    looseCounts (m :: messages) =
      (if m.constants = [] then [] else [(m.name, m.constants.length)]) ++
        looseCounts messages := by
  unfold looseCounts hasLoose
  rw [List.filter_cons]
  split
  · next loose => rw [if_neg (by simpa using loose)]; rfl
  · next none => rw [if_pos (by simpa using none)]; rfl

theorem map_fst_looseCounts (messages : List Message) :
    (looseCounts messages).map Prod.fst = (messages.filter hasLoose).map Message.name := by
  rw [looseCounts, List.map_map]
  rfl

/-- A message without loose constants adds nothing to the sum. -/
theorem sum_looseCounts (messages : List Message) :
    ((looseCounts messages).map Prod.snd).sum = looseTotal messages := by
  induction messages with
  | nil => rfl
  | cons m messages ih =>
    rw [looseCounts_cons, List.map_append, List.sum_append, ih, looseTotal, looseTotal,
      List.map_cons, List.sum_cons]
    split
    · next none => simp [none]
    · simp

theorem positive_of_mem_looseCounts {messages : List Message} {e : Text × Nat}
    (h : e ∈ looseCounts messages) : 0 < e.2 := by
  obtain ⟨m, hm, rfl⟩ := List.mem_map.mp h
  have loose : m.constants ≠ [] := by simpa [hasLoose] using (List.mem_filter.mp hm).2
  exact List.length_pos_of_ne_nil loose

/-! ## Merging -/

theorem unassociated_foldl_merge (dss : List Diagnostics) (ds : Diagnostics) :
    (dss.foldl Diagnostics.merge ds).unassociated =
      ds.unassociated.insertAll (dss.flatMap fun other => other.unassociated.entries) := by
  induction dss generalizing ds with
  | nil => rfl
  | cons other dss ih =>
    rw [List.foldl_cons, ih, List.flatMap_cons]
    exact List.foldl_append.symm

section

variable (d : Disk) (options : ReadOptions) (files : List SchemaFile)

/-- The counts of one file are those of its message. -/
theorem unassociated_remarksOf? (f : SchemaFile) :
    ((remarksOf? d options f).toList.flatMap fun ds => ds.unassociated.entries) =
      looseCounts (messageOf? d options f).toList := by
  unfold remarksOf? messageOf? readSchema
  split
  · rfl
  · next source _ =>
    cases read : Schema.read options f.relative source with
    | mk result ds =>
      cases result with
      | error e => rfl
      | ok m =>
        have counts : ds.unassociated.entries = looseCounts [m] := by
          rw [Schema.unassociated_of_read read, looseCounts_cons]
          exact (List.append_nil _).symm
        simp [Except.toOption, counts]

theorem looseCounts_messages :
    ((files.filterMap (remarksOf? d options)).flatMap fun ds => ds.unassociated.entries) =
      looseCounts (files.filterMap (messageOf? d options)) := by
  induction files with
  | nil => rfl
  | cons f files ih =>
    rw [filterMap_cons_toList, filterMap_cons_toList, List.flatMap_append, ih,
      unassociated_remarksOf?, looseCounts, looseCounts, looseCounts, List.filter_append,
      List.map_append]

theorem unassociated_ofFiles :
    (ofFiles d options files).diagnostics.unassociated =
      NameMap.empty.insertAll (looseCounts (ofFiles d options files).messages) := by
  rw [diagnostics_ofFiles, batch_eq, messages_ofFiles, ← looseCounts_messages]
  exact unassociated_foldl_merge _ _

/-! ## The counts of a batch -/

/-- **Which loose constants a batch counts.** The count of a name is that of the last message of
this name that has loose constants. So the sum of all counts is never more than the number of loose
constants in the messages, and just that number if and only if no two messages with loose constants
have the same name. -/
theorem loose_accounted_iff :
    (∀ name, (ofFiles d options files).diagnostics.unassociated.find? name =
      (lastNamed ((ofFiles d options files).messages.filter hasLoose) name).map
        fun m => m.constants.length) ∧
    (ofFiles d options files).diagnostics.unassociated.total ≤
      looseTotal (ofFiles d options files).messages ∧
    ((ofFiles d options files).diagnostics.unassociated.total =
        looseTotal (ofFiles d options files).messages ↔
      (((ofFiles d options files).messages.filter hasLoose).map Message.name).Nodup) := by
  rw [unassociated_ofFiles]
  generalize (ofFiles d options files).messages = messages
  have positive : ∀ e ∈ looseCounts messages, 0 < e.2 :=
    fun _ he => positive_of_mem_looseCounts he
  have none : ∀ e ∈ (NameMap.empty : NameMap Nat).entries, 0 < e.2 := by
    simp [NameMap.empty]
  obtain ⟨le, eq_iff⟩ := NameMap.total_insertAll positive none
  have start : (NameMap.empty : NameMap Nat).total = 0 := rfl
  rw [start, Nat.zero_add, sum_looseCounts] at le eq_iff
  rw [map_fst_looseCounts] at eq_iff
  refine ⟨fun name => ?_, le, ?_⟩
  · have empty : (NameMap.empty : NameMap Nat).find? name = Option.none := rfl
    rw [NameMap.find?_insertAll, empty, Option.or_none, looseCounts, List.filter_map, lastNamed,
      List.getLast?_map, Option.map_map]
    rfl
  · rw [eq_iff]
    simp [NameMap.names, NameMap.empty]

end

/-- A disk with two schemas of one name in different directories, each with a loose constant. -/
def namesakes : Disk where
  tree := ((((FileTree.empty.putDirectory ["a"]).bind fun t =>
    t.putFile ["a", "A.msg"] (.text "u8 X = 1\n")).bind fun t => t.putDirectory ["b"]).bind fun t =>
      t.putFile ["b", "A.msg"] (.text "u8 Y = 1\n")).getD FileTree.empty
  cwd := []

/-- Of two messages of one name only the last one is counted. -/
theorem namesake_uncounted :
    (ofFiles namesakes {} (Scan.directory namesakes {} ⟨"."⟩)).messages.map
        (fun m => (m.path, m.constants.length)) = [(⟨"a/A.msg"⟩, 1), (⟨"b/A.msg"⟩, 1)] ∧
      (ofFiles namesakes {} (Scan.directory namesakes {} ⟨"."⟩)).diagnostics.unassociated.total ≠
        looseTotal (ofFiles namesakes {} (Scan.directory namesakes {} ⟨"."⟩)).messages := by
  decide +kernel

end MessageDocs.Batch
