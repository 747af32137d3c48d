import Mathlib.Data.List.Perm.Basic
import Mathlib.Data.List.Sort
import MessageDocs.Proofs.Schema.Remarks
import MessageDocs.Proofs.Schema.RoundTrip

/-! # The order of declarations does not matter

A schema without comment lines is a heap of declarations. When its lines are put in another order, a
field still has the same name, the names of enumerations are still mentioned, and the owner of a
constant is found among the same names, so that the message holds the same things in other places.

* `Message.SameUpToOrder` relates two messages that differ in the order of their parts only.
* `Diagnostic.kind` is what is left of a remark without its text and its place.
* `Schema.readInto_reordered`: two orders of the same lines are both read or both refused, into such
  messages and with as many remarks of each kind.
-/

set_option autoImplicit false

namespace MessageDocs

/-! ## Messages and remarks up to order -/

/-- Whether two messages have the same parts, wherever these stand. -/
structure Message.SameUpToOrder (m m' : Message) : Prop where
  name : m.name = m'.name
  path : m.path = m'.path
  short : m.short = m'.short
  long : m.long = m'.long
  fields : (m.fields.map Field.unplaced).Perm (m'.fields.map Field.unplaced)
  enums : (m.enums.map Enumeration.name).Perm (m'.enums.map Enumeration.name)
  /-- The constants of an enumeration are those of the enumeration with the same name. -/
  values : ∀ e ∈ m.enums, ∀ e' ∈ m'.enums, e.name = e'.name →
    (e.values.map Constant.unplaced).Perm (e'.values.map Constant.unplaced)
  loose : (m.constants.map Constant.unplaced).Perm (m'.constants.map Constant.unplaced)

/-- A remark without its text and its place. -/
def Diagnostic.kind (d : Diagnostic) : Severity × Text :=
  (d.severity, d.code)

/-- Collections with the same kinds of remarks count as many of each code and severity. -/
theorem Diagnostics.counts_eq {ds ds' : Diagnostics}
    (h : (ds.list.map Diagnostic.kind).Perm (ds'.list.map Diagnostic.kind)) :
    ds.warningCount = ds'.warningCount ∧ ∀ code, ds.countCode code = ds'.countCode code := by
  have warnings := h.countP_eq (fun k => k.1 = .warning)
  rw [List.countP_map, List.countP_map] at warnings
  refine ⟨warnings, fun code => ?_⟩
  have codes := h.countP_eq (fun k => k.2 = code)
  rw [List.countP_map, List.countP_map] at codes
  exact codes

/-- A set of names is given by its members, since they stand in ascending order. -/
theorem NameSet.ext_mem {s t : NameSet}
    (h : ∀ name, name ∈ NameMap.names s ↔ name ∈ NameMap.names t) : s = t := by
  have names : NameMap.names s = NameMap.names t :=
    s.ascending_names.eq_of_mem_iff t.ascending_names h
  have apart : Function.Injective (Prod.fst : Text × Unit → Text) := by
    rintro ⟨name, ⟨⟩⟩ ⟨name', ⟨⟩⟩ same
    exact congrArg (·, ()) same
  exact NameMap.ext (List.map_injective_iff.mpr apart names)

/-! ## Shares of permuted constants -/

namespace Association

variable {rule : Matching} {names names' : List Text}

/-- The owner depends on which names there are, not on their order. -/
theorem ownerAmong_congr (same : ∀ name, name ∈ names ↔ name ∈ names') (constant : Text) :
    ownerAmong rule.claims names constant = ownerAmong rule.claims names' constant := by
  apply Option.ext
  intro owner
  simp only [ownerAmong_eq_some_iff, same]

variable {constants constants' : List Constant} (same : ∀ name, name ∈ names ↔ name ∈ names')
  (perm : (constants.map Constant.unplaced).Perm (constants'.map Constant.unplaced))

include same perm

theorem valuesOf_perm (name : Text) :
    ((valuesOf rule.claims names constants name).map Constant.unplaced).Perm
      ((valuesOf rule.claims names' constants' name).map Constant.unplaced) := by
  rw [map_unplaced_valuesOf, map_unplaced_valuesOf]
  simp only [valuesOf, ownerAmong_congr same]
  exact perm.filter _

theorem looseOf_perm :
    ((looseOf rule.claims names constants).map Constant.unplaced).Perm
      ((looseOf rule.claims names' constants').map Constant.unplaced) := by
  rw [map_unplaced_looseOf, map_unplaced_looseOf]
  simp only [looseOf, ownerAmong_congr same]
  exact perm.filter _

theorem valuesOf_eq_nil_iff (name : Text) :
    valuesOf rule.claims names constants name = [] ↔
      valuesOf rule.claims names' constants' name = [] := by
  have shares : ((valuesOf rule.claims names constants name).map Constant.unplaced).Perm
      ((valuesOf rule.claims names' constants' name).map Constant.unplaced) :=
    valuesOf_perm same perm name
  have lengths := shares.length_eq
  rw [List.length_map, List.length_map] at lengths
  rw [← List.length_eq_zero_iff, lengths, List.length_eq_zero_iff]

end Association

namespace Schema

open Association

/-! ## Declarations without their lines -/

/-- The lines of a source with words on them, each with one blank between its words. -/
def writtenLines (source : Text) : List Text :=
  (collapsedLines source).filter (· ≠ [])

/-- A declaration is the same on every line of a file, but for the number it keeps. -/
theorem map_unplaced_declaredBy? (line line' : Nat) (text : Text) :
    (declaredBy? line text).map Declared.unplaced =
      (declaredBy? line' text).map Declared.unplaced := by
  unfold declaredBy?
  cases Declaration.classify text with
  | error e => rfl
  | ok declaration =>
    cases declaration with
    | constant typeName name value comment => rfl
    | field typeName name comment =>
      dsimp only
      cases Metadata.read comment <;> rfl

theorem map_unplaced_declaredOn? (l : NumberedLine) :
    (declaredOn? l).map Declared.unplaced = (declaredOn? ⟨0, l.text⟩).map Declared.unplaced := by
  unfold declaredOn?
  cases BodyLine.ofText l.text with
  | blank => rfl
  | topics => rfl
  | comment text => rfl
  | declaration text => exact map_unplaced_declaredBy? l.number 0 text

theorem isReadable_iff (l : NumberedLine) : IsReadable l ↔ IsReadable ⟨0, l.text⟩ := by
  have isSome := congrArg Option.isSome (map_unplaced_declaredBy? l.number 0 l.text)
  rw [Option.isSome_map, Option.isSome_map] at isSome
  unfold IsReadable
  rw [isSome]

theorem map_text_linesOf (source : Text) :
    (linesOf source).map NumberedLine.text = collapsedLines source :=
  (map_numberFrom id 1 _).trans (List.map_id _)

theorem map_unplaced_declaredIn (source : Text) :
    (declaredIn (linesOf source)).map Declared.unplaced =
      (writtenLines source).filterMap fun t => (declaredOn? ⟨0, t⟩).map Declared.unplaced := by
  have blank : ∀ t : Text, (if decide (t ≠ []) = true then
      (declaredOn? ⟨0, t⟩).map Declared.unplaced else none) =
        (declaredOn? ⟨0, t⟩).map Declared.unplaced := by
    intro t
    cases t <;> rfl
  rw [writtenLines, List.filterMap_filter]
  simp only [blank]
  rw [← map_text_linesOf, List.filterMap_map, declaredIn, List.map_filterMap]
  exact List.filterMap_congr fun l _ => map_unplaced_declaredOn? l

theorem readable_linesOf (source : Text) :
    (∀ l ∈ linesOf source, IsReadable l) ↔ ∀ t ∈ writtenLines source, IsReadable ⟨0, t⟩ := by
  constructor
  · intro h t ht
    have listed := List.mem_of_mem_filter ht
    rw [← map_text_linesOf] at listed
    obtain ⟨l, hl, rfl⟩ := List.mem_map.mp listed
    exact (isReadable_iff l).mp (h l hl)
  · intro h l hl
    rw [isReadable_iff]
    have listed : l.text ∈ collapsedLines source := map_text_linesOf source ▸ List.mem_map_of_mem hl
    by_cases blank : l.text = []
    · exact isReadable_of_blank_or_comment (Or.inl (List.isEmpty_iff.mpr blank))
    · exact h l.text (List.mem_filter.mpr ⟨listed, decide_eq_true blank⟩)

/-! ## Sources without comment lines -/

/-- Whether no line of a source starts with a comment mark. -/
def IsUncommented (source : Text) : Prop :=
  ∀ line ∈ collapsedLines source, line.head? ≠ some '#'

instance (source : Text) : Decidable (IsUncommented source) :=
  inferInstanceAs (Decidable (∀ line ∈ collapsedLines source, _))

theorem IsUncommented.isComment_eq_false {source : Text} (h : IsUncommented source)
    {l : NumberedLine} (hl : l ∈ linesOf source) : l.isComment = false := by
  simpa [NumberedLine.isComment] using h l.text (text_mem_of_mem_numberFrom hl)

theorem IsUncommented.header_eq_nil {source : Text} (h : IsUncommented source) :
    (Layout.ofSource source).header = [] := by
  rw [Layout.ofSource, Layout.ofLines]
  dsimp only
  rw [takeWhile_eq_nil, List.map_nil]
  exact fun l hl => h.isComment_eq_false ((List.dropWhile_suffix _).subset hl)

theorem remarksOn_of_not_comment (options : ReadOptions) (path : Path) {l : NumberedLine}
    (h : l.isComment = false) :
    remarksOn options path l =
      (Declared.fields (declaredOn? l).toList).flatMap (unitRemarks options path) := by
  rw [← filter_unknownUnit_remarksOn, eq_comm, List.filter_eq_self]
  intro d hd
  have notTopics : l.startsTopics ≠ true := by
    intro topics
    have marked := head?_of_startsWith_topicsMark topics
    simp [NumberedLine.isComment, marked] at h
  rcases remarksOn_cases options path l with ⟨topics, -⟩ | ⟨-, stray, -⟩ | ⟨-, -, on⟩
  · exact absurd topics notTopics
  · simp [NumberedLine.isStray, h] at stray
  · exact decide_eq_true (on d hd)

theorem remarksOn_lines (options : ReadOptions) (path : Path) {lines : List NumberedLine}
    (h : ∀ l ∈ lines, l.isComment = false) :
    lines.flatMap (remarksOn options path) =
      (Declared.fields (declaredIn lines)).flatMap (unitRemarks options path) := by
  induction lines with
  | nil => rfl
  | cons l lines ih =>
    obtain ⟨here, rest⟩ := List.forall_mem_cons.mp h
    rw [List.flatMap_cons, remarksOn_of_not_comment options path here, ih rest, declaredIn_cons,
      Declared.fields_append, List.flatMap_append]

theorem IsUncommented.remarks {source : Text} (h : IsUncommented source) (options : ReadOptions)
    (path : Path) :
    (bodyOf source).flatMap (remarksOn options path) =
      (fieldsOf source).flatMap (unitRemarks options path) := by
  have body : ∀ l ∈ bodyOf source, l.isComment = false := by
    intro l hl
    exact h.isComment_eq_false
      ((List.dropWhile_suffix _).subset ((List.dropWhile_suffix _).subset hl))
  rw [remarksOn_lines options path body, declaredIn_bodyOf, fieldsOf]

/-! ## What two orders of the same lines declare -/

section Reordered

variable {source reordered : Text} (perm : (writtenLines source).Perm (writtenLines reordered))

include perm

theorem fieldsOf_perm :
    ((fieldsOf source).map Field.unplaced).Perm ((fieldsOf reordered).map Field.unplaced) := by
  rw [fieldsOf, fieldsOf, ← Declared.fields_map_unplaced, ← Declared.fields_map_unplaced,
    map_unplaced_declaredIn, map_unplaced_declaredIn]
  exact (perm.filterMap _).filterMap _

theorem constantsOf_perm :
    ((constantsOf source).map Constant.unplaced).Perm
      ((constantsOf reordered).map Constant.unplaced) := by
  rw [constantsOf, constantsOf, ← Declared.constants_map_unplaced,
    ← Declared.constants_map_unplaced, map_unplaced_declaredIn, map_unplaced_declaredIn]
  exact (perm.filterMap _).filterMap _

theorem mem_enumNamesOf_iff (name : Text) :
    name ∈ enumNamesOf source ↔ name ∈ enumNamesOf reordered := by
  have tags : ∀ fields : List Field,
      fields.flatMap Field.enumTags = (fields.map Field.unplaced).flatMap Field.enumTags := by
    intro fields
    rw [List.flatMap_map]
    rfl
  rw [enumNamesOf, enumNamesOf, mem_mentioned, mem_mentioned, tags, tags (fieldsOf reordered)]
  exact ((fieldsOf_perm perm).flatMap_right _).mem_iff

theorem enumNamesOf_perm : (enumNamesOf source).Perm (enumNamesOf reordered) :=
  (List.perm_ext_iff_of_nodup (Draft.nodup_mentioned _) (Draft.nodup_mentioned _)).mpr
    (mem_enumNamesOf_iff perm)

theorem isWellFormed_reordered : IsWellFormed source ↔ IsWellFormed reordered := by
  have readable : (∀ l ∈ linesOf source, IsReadable l) ↔ ∀ l ∈ linesOf reordered, IsReadable l := by
    rw [readable_linesOf, readable_linesOf]
    exact forall_congr' fun t => by rw [perm.mem_iff]
  have fields := ((fieldsOf_perm perm).map Field.name).nodup_iff
  have constants := ((constantsOf_perm perm).map Constant.name).nodup_iff
  rw [List.map_map, List.map_map] at fields constants
  exact ⟨fun h => ⟨readable.mp h.readable, fields.mp h.fields, constants.mp h.constants⟩,
    fun h => ⟨readable.mpr h.readable, fields.mpr h.fields, constants.mpr h.constants⟩⟩

theorem isUncommented_reordered (h : IsUncommented source) : IsUncommented reordered := by
  intro line hl marked
  have words : line ∈ writtenLines reordered := by
    refine List.mem_filter.mpr ⟨hl, decide_eq_true ?_⟩
    rintro rfl
    cases marked
  exact h line (List.mem_of_mem_filter (perm.mem_iff.mpr words)) marked

/-! ## Their messages -/

variable (options : ReadOptions) (path : Path)

theorem sameUpToOrder_messageOf (uncommented : IsUncommented source) :
    (messageOf options path source).SameUpToOrder (messageOf options path reordered) where
  name := rfl
  path := rfl
  short := by
    have uncommented' := isUncommented_reordered perm uncommented
    rw [messageOf, messageOf, uncommented.header_eq_nil, uncommented'.header_eq_nil]
  long := by
    have uncommented' := isUncommented_reordered perm uncommented
    rw [messageOf, messageOf, uncommented.header_eq_nil, uncommented'.header_eq_nil]
  fields := fieldsOf_perm perm
  enums := by
    rw [messageOf, messageOf, map_name_owners, map_name_owners]
    exact enumNamesOf_perm perm
  values := by
    intro e he e' he' same
    rw [(mem_owners_iff.mp he).2, (mem_owners_iff.mp he').2, same]
    exact valuesOf_perm (mem_enumNamesOf_iff perm) (constantsOf_perm perm) e'.name
  loose := looseOf_perm (mem_enumNamesOf_iff perm) (constantsOf_perm perm)

/-! ## Their remarks -/

theorem unitRemarks_perm :
    (((fieldsOf source).flatMap (unitRemarks options path)).map Diagnostic.kind).Perm
      (((fieldsOf reordered).flatMap (unitRemarks options path)).map Diagnostic.kind) := by
  have unplaced : ∀ f : Field, (unitRemarks options path f).map Diagnostic.kind =
      (unitRemarks options path f.unplaced).map Diagnostic.kind := by
    intro f
    unfold unitRemarks Field.unplaced
    cases f.unit with
    | none => rfl
    | some unit =>
      dsimp only
      split <;> rfl
  have kinds : ∀ fields : List Field,
      (fields.flatMap (unitRemarks options path)).map Diagnostic.kind =
        (fields.map Field.unplaced).flatMap fun f =>
          (unitRemarks options path f).map Diagnostic.kind := by
    intro fields
    rw [List.map_flatMap, List.flatMap_map]
    exact List.flatMap_congr fun f _ => unplaced f
  rw [kinds, kinds]
  exact (fieldsOf_perm perm).flatMap_right _

theorem unknownUnitsOn_perm :
    (unknownUnitsOn options (bodyOf source)).Perm (unknownUnitsOn options (bodyOf reordered)) := by
  have unplaced : ∀ source, unknownUnitsOn options (bodyOf source) =
      ((fieldsOf source).map Field.unplaced).flatMap (unknownUnits options) := by
    intro source
    rw [unknownUnitsOn, declaredIn_bodyOf, List.flatMap_map]
    rfl
  rw [unplaced, unplaced]
  exact (fieldsOf_perm perm).flatMap_right _

theorem emptyRemarks_perm :
    ((emptyRemarks (messageOf options path source)).map Diagnostic.kind).Perm
      ((emptyRemarks (messageOf options path reordered)).map Diagnostic.kind) := by
  have kinds : ∀ source, (emptyRemarks (messageOf options path source)).map Diagnostic.kind =
      ((enumNamesOf source).filter fun name =>
        valuesOf options.matching.claims (enumNamesOf source) (constantsOf source) name = []).map
        fun _ => (Severity.warning, Diagnostic.emptyEnum) := by
    intro source
    rw [emptyRemarks, messageOf, owners, List.filter_map, List.map_map, List.map_map]
    rfl
  have empty : ∀ name,
      valuesOf options.matching.claims (enumNamesOf source) (constantsOf source) name = [] ↔
        valuesOf options.matching.claims (enumNamesOf reordered) (constantsOf reordered) name =
          [] :=
    valuesOf_eq_nil_iff (mem_enumNamesOf_iff perm) (constantsOf_perm perm)
  rw [kinds, kinds]
  simp only [empty]
  exact ((enumNamesOf_perm perm).filter _).map _

end Reordered

section Messages

variable {m m' : Message} (same : m.SameUpToOrder m')

include same

theorem constants_length_eq : m.constants.length = m'.constants.length := by
  have lengths := same.loose.length_eq
  rwa [List.length_map, List.length_map] at lengths

theorem looseRemarks_kind :
    (looseRemarks m).map Diagnostic.kind = (looseRemarks m').map Diagnostic.kind := by
  have kinds : ∀ m : Message, (looseRemarks m).map Diagnostic.kind =
      if m.constants.length = 0 then [] else
        [(if m.enums.length = 0 then .note else .warning, Diagnostic.unassociated)] := by
    intro m
    rw [looseRemarks, Checks.looseRemark]
    simp only [List.length_eq_zero_iff]
    split
    · rfl
    · split <;> rfl
  have enums := same.enums.length_eq
  rw [List.length_map, List.length_map] at enums
  rw [kinds, kinds, constants_length_eq same, enums]

theorem looseConstants_unassociated :
    (Checks.looseConstants m).unassociated = (Checks.looseConstants m').unassociated := by
  rw [looseConstants_eq, looseConstants_eq]
  simp only [← List.length_eq_zero_iff]
  rw [constants_length_eq same, same.name]

end Messages

/-! ## Reading both -/

/-- The remarks on a source without comment lines, after those that were there before. -/
theorem IsUncommented.list_of_readInto {options : ReadOptions} {path : Path} {source : Text}
    {m : Message} {ds after : Diagnostics} (uncommented : IsUncommented source)
    (h : readInto options path source ds = (.ok m, after)) :
    after.list = ds.list ++ (fieldsOf source).flatMap (unitRemarks options path) ++
      (looseRemarks m ++ emptyRemarks m) := by
  obtain ⟨-, -, rfl⟩ := readInto_eq_ok_iff.mp h
  rw [Checks.message, looseConstants_eq, ← uncommented.remarks]
  rfl

/-- **The order of declarations does not matter.** Of two sources without comment lines that have
the same lines in another order, either both are read or none; then both messages have the same
fields, enumerations and constants with the same owners, and both readings record the same units and
loose constants and make as many remarks of each code. -/
theorem readInto_reordered {source reordered : Text} (uncommented : IsUncommented source)
    (perm : (writtenLines source).Perm (writtenLines reordered)) (options : ReadOptions)
    (path : Path) (ds : Diagnostics) :
    ((∃ m after, readInto options path source ds = (.ok m, after)) ↔
      ∃ m after, readInto options path reordered ds = (.ok m, after)) ∧
    ∀ m after m' after', readInto options path source ds = (.ok m, after) →
      readInto options path reordered ds = (.ok m', after') →
      m.SameUpToOrder m' ∧ after.invalidUnits = after'.invalidUnits ∧
        after.unassociated = after'.unassociated ∧ after.warningCount = after'.warningCount ∧
        ∀ code, after.countCode code = after'.countCode code := by
  constructor
  · constructor
    · rintro ⟨m, after, h⟩
      have wf := (isWellFormed_reordered perm).mp (readInto_eq_ok_iff.mp h).1
      exact ⟨_, _, readInto_of_isWellFormed wf options path ds⟩
    · rintro ⟨m, after, h⟩
      have wf := (isWellFormed_reordered perm).mpr (readInto_eq_ok_iff.mp h).1
      exact ⟨_, _, readInto_of_isWellFormed wf options path ds⟩
  · intro m after m' after' h h'
    have list := uncommented.list_of_readInto h
    have list' := (isUncommented_reordered perm uncommented).list_of_readInto h'
    obtain ⟨-, rfl, afterEq⟩ := readInto_eq_ok_iff.mp h
    obtain ⟨-, rfl, afterEq'⟩ := readInto_eq_ok_iff.mp h'
    have same := sameUpToOrder_messageOf perm options path uncommented
    -- Remarks tell the lines they are about, so they agree in their kinds and not in their texts.
    refine ⟨same, ?_, ?_, Diagnostics.counts_eq ?_⟩
    · apply NameSet.ext_mem
      intro unit
      rw [afterEq, afterEq', Checks.message, Checks.message, looseConstants_eq, looseConstants_eq]
      simp only [Diagnostics.merge, noteLines, Checks.emptyEnums, NameMap.union_empty,
        NameSet.mem_names_foldl_add]
      rw [(unknownUnitsOn_perm perm options).mem_iff]
    · rw [afterEq, afterEq', Checks.message, Checks.message]
      simp only [Diagnostics.merge, noteLines, Checks.emptyEnums, NameMap.union_empty]
      rw [looseConstants_unassociated same]
    · rw [list, list']
      simp only [List.map_append]
      rw [looseRemarks_kind same]
      exact ((unitRemarks_perm perm options path).append_left _).append
        ((emptyRemarks_perm perm options path).append_left _)

/-- An enumeration is mentioned before and after its constants. -/
def scattered : Text :=
  "u8 mode # [N] [@enum MODE]\nu8 MODE_A = 1\n\nu8 X = 2\nu8 state # [@enum MODE_X]\n"

/-- The same lines from the last to the first, and other blank lines. -/
def gathered : Text :=
  "u8 state  # [@enum MODE_X]\nu8 X = 2\nu8 MODE_A = 1\n\n\nu8 mode # [N] [@enum MODE]"

theorem scattered_reordered :
    ∃ m after m' after', readInto {} ⟨"A.msg"⟩ scattered {} = (.ok m, after) ∧
      readInto {} ⟨"A.msg"⟩ gathered {} = (.ok m', after') ∧ m.fields ≠ m'.fields ∧
      m.SameUpToOrder m' ∧ after.invalidUnits.names = ["N".toList] ∧
      after'.invalidUnits = after.invalidUnits ∧
      ∀ code, after'.countCode code = after.countCode code := by
  have uncommented : IsUncommented scattered := by decide +kernel
  have perm : (writtenLines scattered).Perm (writtenLines gathered) := by decide +kernel
  have wf : IsWellFormed scattered := by decide +kernel
  have h := readInto_of_isWellFormed wf {} ⟨"A.msg"⟩ {}
  obtain ⟨both, agree⟩ := readInto_reordered uncommented perm {} ⟨"A.msg"⟩ {}
  obtain ⟨m', after', h'⟩ := both.mp ⟨_, _, h⟩
  obtain ⟨same, units, -, -, codes⟩ := agree _ _ _ _ h h'
  obtain ⟨-, message, -⟩ := readInto_eq_ok_iff.mp h'
  refine ⟨_, _, m', after', h, h', ?_, same, ?_, units.symm, fun code => (codes code).symm⟩
  · rw [message]
    decide +kernel
  · decide +kernel

end Schema

end MessageDocs
