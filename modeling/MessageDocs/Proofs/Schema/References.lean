import MessageDocs.Proofs.Schema.Collecting
import MessageDocs.Proofs.Schema.Remarks

/-! # Enumerations and the fields that refer to them

Only a field makes an enumeration known, and the association of constants keeps the names as they
are. So the enumerations of a message are what its fields refer to, each where it is mentioned
first, and an enumeration without values can be reported at a line.

* `Draft.mentioned_eq_eraseDups`: names in the order of their first mention.
* `Schema.enumNames_of_constant`: a constant leaves the enumerations as they are.
* `Schema.enums_are_references`: enumerations and references of any message that is read.
-/

set_option autoImplicit false

namespace MessageDocs

namespace Draft

theorem foldl_addNew_eq (names mentions : List Text) :
    mentions.foldl addNew names =
      names ++ (mentions.filter fun m => !names.contains m).eraseDups := by
  induction mentions generalizing names with
  | nil => simp
  | cons m ms ih =>
    rw [List.foldl_cons, ih, addNew]
    by_cases known : names.contains m = true
    · rw [if_pos known, List.filter_cons_of_neg (by rw [known]; decide)]
    · rw [if_neg known, List.filter_cons_of_pos (by simpa using known), List.eraseDups_cons,
        List.filter_filter, List.append_assoc, List.singleton_append]
      have later : (fun n => !(names ++ [m]).contains n) =
          fun n => !n == m && !names.contains n := by
        funext n
        rw [List.contains_append, List.contains_cons, List.contains_nil, Bool.or_false, Bool.not_or,
          Bool.and_comm]
      rw [later]

/-- Names in the order of their first mention are the mentions without later repetitions. -/
theorem mentioned_eq_eraseDups (mentions : List Text) :
    mentioned mentions = mentions.eraseDups := by
  have all : (mentions.filter fun m => !([] : List Text).contains m) = mentions :=
    List.filter_eq_self.mpr fun _ _ => rfl
  rw [mentioned, foldl_addNew_eq, List.nil_append, all]

end Draft

namespace Schema

variable {options : ReadOptions} {path : Path} {source : Text} {m : Message}
  {before after : Diagnostics}

/-! ## Names -/

/-- A line that declares a constant makes no enumeration known. -/
theorem enumNames_of_constant {line : Nat} {text typeName name value : Text}
    {comment : Option Text} {d d' : Draft} {ds ds' : Diagnostics}
    (constant : Declaration.classify text = .ok (.constant typeName name value comment))
    (h : readDeclaration options path line text d ds = (.ok d', ds')) :
    d'.enumNames = d.enumNames := by
  obtain ⟨e, declared, ⟨-, rfl⟩, -⟩ := readDeclaration_eq_ok_iff.mp h
  rw [declaredBy?, constant] at declared
  obtain rfl := Option.some.inj declared
  rfl

theorem map_name_enums (h : readInto options path source before = (.ok m, after)) :
    m.enums.map Enumeration.name = (m.fields.flatMap Field.enumTags).eraseDups := by
  obtain ⟨-, rfl, -⟩ := readInto_eq_ok_iff.mp h
  rw [messageOf, Association.map_name_owners, enumNamesOf, Draft.mentioned_eq_eraseDups]

theorem mem_map_name_enums_iff (h : readInto options path source before = (.ok m, after))
    {name : Text} :
    name ∈ m.enums.map Enumeration.name ↔ ∃ f ∈ m.fields, name ∈ f.enumTags := by
  rw [map_name_enums h, List.mem_eraseDups, List.mem_flatMap]

/-- What a field refers to is found among the enumerations. -/
theorem find?_enums_of_tag (h : readInto options path source before = (.ok m, after)) {f : Field}
    (hf : f ∈ m.fields) {tag : Text} (tagged : tag ∈ f.enumTags) :
    ∃ e, Roster.find? Enumeration.name m.enums tag = some e ∧ e.name = tag := by
  have listed : tag ∈ m.enums.map Enumeration.name := (mem_map_name_enums_iff h).mpr ⟨f, hf, tagged⟩
  cases found : Roster.find? Enumeration.name m.enums tag with
  | none => exact absurd listed (Draft.find?_eq_none_iff.mp found)
  | some e => exact ⟨e, rfl, by simpa using List.find?_some found⟩

/-! ## Remarks -/

/-- An enumeration that is referred to has a first field that does so. -/
theorem references_ne_nil {e : Enumeration} (referred : ∃ f ∈ m.fields, e.name ∈ f.enumTags) :
    ∃ first rest, Checks.references m e.name = first :: rest := by
  obtain ⟨f, hf, tagged⟩ := referred
  have referring : f ∈ Checks.references m e.name :=
    List.mem_filter.mpr ⟨hf, by simpa using tagged⟩
  exact List.exists_cons_of_ne_nil (List.ne_nil_of_mem referring)

/-- What a reading adds to the list of its collection. -/
theorem list_of_readInto (h : readInto options path source before = (.ok m, after)) :
    ∃ alone, read options path source = (.ok m, alone) ∧
      after.list = before.list ++ alone.list := by
  have adds := adds_readInto options path source before
  rw [h] at adds
  obtain ⟨same, merged⟩ := Prod.mk.inj adds
  exact ⟨_, Prod.ext same.symm rfl, congrArg Diagnostics.list merged⟩

/-- **Enumerations and references agree.** The enumerations of a message that is read are the
mentions of its fields without later repetitions, so that each mention is found and each enumeration
is mentioned; no line with a constant makes one known; and among the remarks that the reading adds,
each on an enumeration without values names fields that refer to it and the line of the first. -/
theorem enums_are_references (h : readInto options path source before = (.ok m, after)) :
    m.enums.map Enumeration.name = (m.fields.flatMap Field.enumTags).eraseDups ∧
    (∀ f ∈ m.fields, ∀ tag ∈ f.enumTags,
      ∃ e, Roster.find? Enumeration.name m.enums tag = some e ∧ e.name = tag) ∧
    (∀ e ∈ m.enums, ∃ f ∈ m.fields, e.name ∈ f.enumTags) ∧
    (∀ (line : Nat) (text typeName name value : Text) (comment : Option Text) (d d' : Draft)
        (ds ds' : Diagnostics),
      Declaration.classify text = .ok (.constant typeName name value comment) →
      readDeclaration options path line text d ds = (.ok d', ds') →
      d'.enumNames = d.enumNames) ∧
    ∃ raised, after.list = before.list ++ raised ∧
      ∀ r ∈ raised, r.code = Diagnostic.emptyEnum →
        ∃ e ∈ m.enums, e.values = [] ∧ ∃ first rest,
          m.fields.filter (·.enumTags.contains e.name) = first :: rest ∧
          r.place = .line path first.line ∧
          r.message = "enum '" ++ e.name ++ "' (referenced by " ++
            Text.join ", " (first.name :: rest.map Field.name) ++ ") has no constants" := by
  have mentioned : ∀ e ∈ m.enums, ∃ f ∈ m.fields, e.name ∈ f.enumTags := fun e he =>
    (mem_map_name_enums_iff h).mp (List.mem_map_of_mem he)
  obtain ⟨alone, read_eq, list_eq⟩ := list_of_readInto h
  refine ⟨map_name_enums h, fun f hf tag => find?_enums_of_tag h hf, mentioned,
    fun _ _ _ _ _ _ _ _ _ _ => enumNames_of_constant, alone.list, list_eq, ?_⟩
  intro r raised code
  have among := mem_filter_own_code raised code
  rw [empty_remarks read_eq] at among
  obtain ⟨e, he, rfl⟩ := List.mem_map.mp among
  obtain ⟨listed, empty⟩ := List.mem_filter.mp he
  obtain ⟨first, rest, references⟩ := references_ne_nil (mentioned e listed)
  have path_eq : m.path = path := by
    obtain ⟨-, rfl, -⟩ := readInto_eq_ok_iff.mp h
    rfl
  refine ⟨e, listed, by simpa using empty, first, rest, references, ?_, ?_⟩
  · rw [Checks.emptyEnumRemark, references, path_eq]
  · rw [Checks.emptyEnumRemark, references]
    rfl

/-- A schema whose constants have the name of an enumeration that comes later, and of one that no
field refers to. -/
def referring : Text :=
  "u8 MODE_A = 1\nu8 OTHER_B = 2\nu8 a # [@enum STATE]\nu8 b # [@enum MODE] [@enum MODE STATE]\n"

theorem referring_agrees :
    ∃ m ds, read {} ⟨"A.msg"⟩ referring = (.ok m, ds) ∧
      m.enums.map Enumeration.name = ["STATE".toList, "MODE".toList] ∧
      ∃ r ∈ ds.list, r.code = Diagnostic.emptyEnum ∧ r.place = .line ⟨"A.msg"⟩ 3 := by
  have wf : IsWellFormed referring := by decide +kernel
  have h := readInto_of_isWellFormed wf {} ⟨"A.msg"⟩ {}
  obtain ⟨names, -⟩ := enums_are_references h
  have mentions : ((messageOf {} ⟨"A.msg"⟩ referring).fields.flatMap Field.enumTags).eraseDups =
      ["STATE".toList, "MODE".toList] := by decide +kernel
  have remark : ∃ r ∈ (read {} ⟨"A.msg"⟩ referring).2.list,
      r.code = Diagnostic.emptyEnum ∧ r.place = .line ⟨"A.msg"⟩ 3 := by decide +kernel
  rw [read, h] at remark
  exact ⟨_, _, h, names.trans mentions, remark⟩

end Schema

end MessageDocs
