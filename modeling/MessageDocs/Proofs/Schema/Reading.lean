import MessageDocs.Proofs.Association
import MessageDocs.Proofs.Draft
import MessageDocs.Schema.Reader

/-! # What reading a schema computes

The reader is a loop that stops at the first line it refuses. Here its result is written without
the loop.

* `Schema.declaredOn?` is what one body line declares, `Schema.remarksOn` what is remarked on it.
* `Schema.readLines_eq_ok_iff`: a run of lines is read exactly when every declaration on it can be
  read and the names are new; the draft then holds the declarations, the collection the remarks.
* `Schema.readInto_eq_ok_iff` says the same of a whole source and gives the message.
-/

set_option autoImplicit false

namespace MessageDocs.Schema

/-! ## Kinds of lines -/

theorem topicsMark_eq : topicsMark = ['#', ' ', 'T', 'O', 'P', 'I', 'C', 'S'] := rfl

theorem ofText_eq_topics_iff {line : Text} :
    BodyLine.ofText line = .topics ↔ Text.startsWith topicsMark line = true := by
  unfold BodyLine.ofText
  by_cases h : Text.startsWith topicsMark line = true
  · simp [h]
  · rw [if_neg h]
    refine ⟨fun e => ?_, fun t => absurd t h⟩
    split at e <;> cases e

theorem head?_of_startsWith_topicsMark {line : Text} (h : Text.startsWith topicsMark line = true) :
    line.head? = some '#' := by
  rw [Text.startsWith, List.isPrefixOf_iff_prefix, topicsMark_eq] at h
  obtain ⟨rest, rfl⟩ := h
  rfl

theorem ofText_eq_declaration_iff {line text : Text} :
    BodyLine.ofText line = .declaration text ↔
      text = line ∧ line ≠ [] ∧ line.head? ≠ some '#' := by
  unfold BodyLine.ofText
  by_cases h : Text.startsWith topicsMark line = true
  · simp [h, head?_of_startsWith_topicsMark h]
  · rw [if_neg h]
    split
    · simp
    · simp
    · next notEmpty notComment =>
      rw [BodyLine.declaration.injEq, eq_comm]
      refine ⟨fun same => ⟨same, notEmpty, ?_⟩, fun h => h.1⟩
      intro head
      obtain ⟨rest, same⟩ := List.head?_eq_some_iff.mp head
      exact notComment rest same

/-! ## Declarations -/

/-- What the text of a declaration declares, if it can be read. -/
def declaredBy? (line : Nat) (text : Text) : Option Declared :=
  match Declaration.classify text with
  | .ok (.constant typeName name value comment) =>
    some (.constant ⟨name, typeName, value, comment, line⟩)
  | .ok (.field typeName name comment) =>
    match Metadata.read comment with
    | .ok metadata => some (.field (fieldOf line typeName name metadata))
    | .error _ => none
  | .error _ => none

/-- What a body line declares. -/
def declaredOn? (l : NumberedLine) : Option Declared :=
  match BodyLine.ofText l.text with
  | .declaration text => declaredBy? l.number text
  | _ => none

/-- What some body lines declare, in their order. -/
def declaredIn (lines : List NumberedLine) : List Declared :=
  lines.filterMap declaredOn?

theorem declaredIn_cons (l : NumberedLine) (lines : List NumberedLine) :
    declaredIn (l :: lines) = (declaredOn? l).toList ++ declaredIn lines := by
  rw [declaredIn, List.filterMap_cons]
  cases declaredOn? l <;> rfl

theorem declaredIn_append (a b : List NumberedLine) :
    declaredIn (a ++ b) = declaredIn a ++ declaredIn b :=
  List.filterMap_append

/-- Whether a line, if it is a declaration, can be read as one. -/
def IsReadable (l : NumberedLine) : Prop :=
  BodyLine.ofText l.text = .declaration l.text → (declaredBy? l.number l.text).isSome

instance (l : NumberedLine) : Decidable (IsReadable l) :=
  inferInstanceAs (Decidable (_ → _))

/-- The remark on a unit that is not among the allowed ones. -/
def unitRemarks (options : ReadOptions) (path : Path) (f : Field) : List Diagnostic :=
  match f.unit with
  | none => []
  | some unit =>
    if options.units.contains unit then [] else [unitRemark path f.line unit f.name]

/-- The unit of a field that is not among the allowed ones. -/
def unknownUnits (options : ReadOptions) (f : Field) : List Text :=
  f.unit.toList.filter fun unit => !options.units.contains unit

/-- What is remarked on a body line. -/
def remarksOn (options : ReadOptions) (path : Path) (l : NumberedLine) : List Diagnostic :=
  match BodyLine.ofText l.text with
  | .blank => []
  | .topics => [topicsRemark path l.number]
  | .comment text => if text = [] then [] else [commentRemark path l.number text]
  | .declaration text =>
    match declaredBy? l.number text with
    | some (.field f) => unitRemarks options path f
    | _ => []

/-- The units outside the allow-list that body lines use. -/
def unknownUnitsOn (options : ReadOptions) (lines : List NumberedLine) : List Text :=
  (Declared.fields (declaredIn lines)).flatMap (unknownUnits options)

/-- A collection after the remarks on some lines. -/
def noteLines (options : ReadOptions) (path : Path) (lines : List NumberedLine)
    (ds : Diagnostics) : Diagnostics where
  list := ds.list ++ lines.flatMap (remarksOn options path)
  invalidUnits := (unknownUnitsOn options lines).foldl NameSet.add ds.invalidUnits
  unassociated := ds.unassociated

theorem checkUnit_eq (options : ReadOptions) (path : Path) (f : Field) (ds : Diagnostics) :
    checkUnit options path f ds =
      { list := ds.list ++ unitRemarks options path f
        invalidUnits := (unknownUnits options f).foldl NameSet.add ds.invalidUnits
        unassociated := ds.unassociated } := by
  unfold checkUnit unitRemarks unknownUnits
  cases f.unit with
  | none => simp
  | some unit =>
    dsimp only
    split
    · next allowed => simp [allowed]
    · next refused => simp [refused, Diagnostics.push, Diagnostics.recordInvalidUnit]

/-! ## One line -/

theorem addField_eq_ok_iff {path : Path} {d d' : Draft} {f : Field} :
    addField path d f = .ok d' ↔ d.Admits (.field f) ∧ d' = d.accept (.field f) := by
  rw [← Draft.addField_declareEnums_eq_ok_iff, addField]
  cases (d.declareEnums f.enumTags).addField f <;> simp

theorem addConstant_eq_ok_iff {path : Path} {d d' : Draft} {c : Constant} :
    addConstant path d c = .ok d' ↔ d.Admits (.constant c) ∧ d' = d.accept (.constant c) := by
  rw [← Draft.addConstant_eq_ok_iff, addConstant]
  cases d.addConstant c <;> simp

theorem ok_pair_eq_iff {d d' : Draft} {ds ds' : Diagnostics} :
    ((.ok d, ds) : Except Failure Draft × Diagnostics) = (.ok d', ds') ↔ d' = d ∧ ds' = ds := by
  constructor
  · intro h
    cases h
    exact ⟨rfl, rfl⟩
  · rintro ⟨rfl, rfl⟩
    rfl

theorem readDeclaration_eq_ok_iff {options : ReadOptions} {path : Path} {line : Nat} {text : Text}
    {d d' : Draft} {ds ds' : Diagnostics} :
    readDeclaration options path line text d ds = (.ok d', ds') ↔
      ∃ e, declaredBy? line text = some e ∧ (d.Admits e ∧ d' = d.accept e) ∧
        ds' = match e with
          | .field f => checkUnit options path f ds
          | .constant _ => ds := by
  unfold readDeclaration declaredBy?
  cases Declaration.classify text with
  | error e => simp
  | ok declaration =>
    cases declaration with
    | constant typeName name value comment =>
      simp only [Prod.mk.injEq, addConstant_eq_ok_iff, Option.some.injEq, exists_eq_left']
      rw [eq_comm (a := ds)]
    | field typeName name comment =>
      dsimp only
      cases Metadata.read comment with
      | error e => simp
      | ok metadata =>
        simp only [Prod.mk.injEq, addField_eq_ok_iff, Option.some.injEq, exists_eq_left']
        rw [eq_comm (a := checkUnit _ _ _ _)]

/-- **One line is read** exactly when what it declares can be read and has a new name. -/
theorem readLine_eq_ok_iff {options : ReadOptions} {path : Path} {l : NumberedLine}
    {d d' : Draft} {ds ds' : Diagnostics} :
    readLine options path l d ds = (.ok d', ds') ↔
      IsReadable l ∧ d.AdmitsAll (declaredOn? l).toList ∧
        d' = d.acceptAll (declaredOn? l).toList ∧ ds' = noteLines options path [l] ds := by
  have note : noteLines options path [l] ds =
      { list := ds.list ++ remarksOn options path l
        invalidUnits := ((Declared.fields (declaredOn? l).toList).flatMap
          (unknownUnits options)).foldl NameSet.add ds.invalidUnits
        unassociated := ds.unassociated } := by
    rw [noteLines, unknownUnitsOn, List.flatMap_singleton, declaredIn_cons]
    simp [declaredIn]
  rw [note]
  unfold readLine IsReadable declaredOn? remarksOn
  cases hl : BodyLine.ofText l.text with
  | blank =>
    dsimp only
    rw [ok_pair_eq_iff]
    simp [Draft.AdmitsAll]
  | topics =>
    dsimp only
    rw [ok_pair_eq_iff]
    simp [Draft.AdmitsAll, Diagnostics.push]
  | comment text =>
    dsimp only
    rw [ok_pair_eq_iff]
    by_cases h : text = [] <;> simp [Draft.AdmitsAll, h, Diagnostics.push]
  | declaration text =>
    obtain ⟨rfl, -⟩ := ofText_eq_declaration_iff.mp hl
    dsimp only
    rw [readDeclaration_eq_ok_iff]
    cases he : declaredBy? l.number l.text with
    | none => simp
    | some e =>
      cases e with
      | field f => simp [Draft.AdmitsAll, checkUnit_eq, and_assoc]
      | constant c => simp [Draft.AdmitsAll, and_assoc]

/-! ## Runs of lines -/

theorem noteLines_cons (options : ReadOptions) (path : Path) (l : NumberedLine)
    (lines : List NumberedLine) (ds : Diagnostics) :
    noteLines options path (l :: lines) ds =
      noteLines options path lines (noteLines options path [l] ds) := by
  simp only [noteLines, unknownUnitsOn, declaredIn_cons l lines, declaredIn_cons l [],
    Declared.fields, List.filterMap_append, List.flatMap_append, List.foldl_append,
    List.flatMap_cons, List.flatMap_nil, List.append_assoc, List.append_nil]
  rfl

/-- **A run of lines is read** exactly when every declaration on it can be read and has a new name
when its turn comes. -/
theorem readLines_eq_ok_iff {options : ReadOptions} {path : Path} {lines : List NumberedLine}
    {d d' : Draft} {ds ds' : Diagnostics} :
    readLines options path lines d ds = (.ok d', ds') ↔
      (∀ l ∈ lines, IsReadable l) ∧ d.AdmitsAll (declaredIn lines) ∧
        d' = d.acceptAll (declaredIn lines) ∧ ds' = noteLines options path lines ds := by
  induction lines generalizing d ds with
  | nil =>
    rw [readLines, ok_pair_eq_iff]
    simp [declaredIn, Draft.AdmitsAll, noteLines, unknownUnitsOn]
  | cons l lines ih =>
    rw [noteLines_cons, declaredIn_cons, Draft.admitsAll_append, Draft.acceptAll_append,
      List.forall_mem_cons, readLines]
    constructor
    · intro h
      split at h
      · next d₁ ds₁ hl =>
        obtain ⟨readable, admitted, rfl, rfl⟩ := readLine_eq_ok_iff.mp hl
        obtain ⟨rest, restAdmitted, hd, hds⟩ := ih.mp h
        exact ⟨⟨readable, rest⟩, ⟨admitted, restAdmitted⟩, hd, hds⟩
      · cases h
    · rintro ⟨⟨readable, rest⟩, ⟨admitted, restAdmitted⟩, hd, hds⟩
      rw [readLine_eq_ok_iff.mpr ⟨readable, admitted, rfl, rfl⟩]
      exact ih.mpr ⟨rest, restAdmitted, hd, hds⟩

/-! ## Whole sources -/

/-- The lines of a source with their numbers. -/
def linesOf (source : Text) : List NumberedLine :=
  NumberedLine.numberFrom 1 (collapsedLines source)

/-- The lines of a source after its header. -/
def bodyOf (source : Text) : List NumberedLine :=
  (Layout.ofSource source).body

/-- The fields that a source declares, in the order of their lines. -/
def fieldsOf (source : Text) : List Field :=
  Declared.fields (declaredIn (linesOf source))

/-- The constants that a source declares, in the order of their lines. -/
def constantsOf (source : Text) : List Constant :=
  Declared.constants (declaredIn (linesOf source))

/-- The enumerations that the fields of a source refer to, in the order of their first mention. -/
def enumNamesOf (source : Text) : List Text :=
  Draft.mentioned ((fieldsOf source).flatMap Field.enumTags)

/-- The message that a source describes. -/
def messageOf (options : ReadOptions) (path : Path) (source : Text) : Message where
  name := Message.nameOfPath path
  path := path
  short := (Header.ofLines (Layout.ofSource source).header).short
  long := (Header.ofLines (Layout.ofSource source).header).long
  fields := fieldsOf source
  enums := Association.owners options.matching.claims (enumNamesOf source) (constantsOf source)
  constants := Association.looseOf options.matching.claims (enumNamesOf source)
    (constantsOf source)
  source := source

/-- Whether a source has only declarations that can be read, and none twice. -/
structure IsWellFormed (source : Text) : Prop where
  readable : ∀ l ∈ linesOf source, IsReadable l
  fields : ((fieldsOf source).map Field.name).Nodup
  constants : ((constantsOf source).map Constant.name).Nodup

instance (source : Text) : Decidable (IsWellFormed source) :=
  decidable_of_iff
    ((∀ l ∈ linesOf source, IsReadable l) ∧ ((fieldsOf source).map Field.name).Nodup ∧
      ((constantsOf source).map Constant.name).Nodup)
    ⟨fun h => ⟨h.1, h.2.1, h.2.2⟩, fun h => ⟨h.readable, h.fields, h.constants⟩⟩

/-- Blank lines and comments declare nothing. -/
theorem not_declaration_of_blank_or_comment {l : NumberedLine}
    (h : l.isBlank = true ∨ l.isComment = true) (text : Text) :
    BodyLine.ofText l.text ≠ .declaration text := by
  intro e
  obtain ⟨-, notEmpty, notComment⟩ := ofText_eq_declaration_iff.mp e
  rcases h with h | h
  · exact notEmpty (List.isEmpty_iff.mp h)
  · exact notComment (by simpa [NumberedLine.isComment] using h)

theorem declaredOn?_of_blank_or_comment {l : NumberedLine}
    (h : l.isBlank = true ∨ l.isComment = true) : declaredOn? l = none := by
  have := not_declaration_of_blank_or_comment h
  unfold declaredOn?
  split
  · next text e => exact absurd e (this text)
  · rfl

theorem isReadable_of_blank_or_comment {l : NumberedLine}
    (h : l.isBlank = true ∨ l.isComment = true) : IsReadable l :=
  fun e => absurd e (not_declaration_of_blank_or_comment h _)

theorem declaredIn_dropWhile {skip : NumberedLine → Bool}
    (h : ∀ l, skip l = true → declaredOn? l = none) (lines : List NumberedLine) :
    declaredIn (lines.dropWhile skip) = declaredIn lines := by
  induction lines with
  | nil => rfl
  | cons l lines ih =>
    rw [List.dropWhile_cons]
    split
    · next skipped => rw [ih, declaredIn_cons, h l skipped, Option.toList_none, List.nil_append]
    · rfl

theorem readable_dropWhile {skip : NumberedLine → Bool} (h : ∀ l, skip l = true → IsReadable l)
    (lines : List NumberedLine) :
    (∀ l ∈ lines.dropWhile skip, IsReadable l) ↔ ∀ l ∈ lines, IsReadable l := by
  induction lines with
  | nil => simp
  | cons l lines ih =>
    rw [List.dropWhile_cons]
    split
    · next skipped => rw [ih, List.forall_mem_cons, and_iff_right (h l skipped)]
    · rfl

/-- The header declares nothing, so the body declares all that the source does. -/
theorem declaredIn_bodyOf (source : Text) :
    declaredIn (bodyOf source) = declaredIn (linesOf source) := by
  rw [bodyOf, Layout.ofSource, Layout.ofLines, ← linesOf]
  dsimp only
  rw [declaredIn_dropWhile fun l h => declaredOn?_of_blank_or_comment (Or.inr h),
    declaredIn_dropWhile fun l h => declaredOn?_of_blank_or_comment (Or.inl h)]

theorem readable_bodyOf (source : Text) :
    (∀ l ∈ bodyOf source, IsReadable l) ↔ ∀ l ∈ linesOf source, IsReadable l := by
  rw [bodyOf, Layout.ofSource, Layout.ofLines, ← linesOf]
  dsimp only
  rw [readable_dropWhile fun l h => isReadable_of_blank_or_comment (Or.inr h),
    readable_dropWhile fun l h => isReadable_of_blank_or_comment (Or.inl h)]

/-- The draft of a source before its first line. -/
def draftOf (path : Path) (source : Text) : Draft :=
  { path := path, source := source }

theorem readLines_bodyOf_eq_ok_iff {options : ReadOptions} {path : Path} {source : Text}
    {d : Draft} {ds ds' : Diagnostics} :
    readLines options path (bodyOf source) (draftOf path source) ds = (.ok d, ds') ↔
      IsWellFormed source ∧ d = (draftOf path source).acceptAll (declaredIn (linesOf source)) ∧
        ds' = noteLines options path (bodyOf source) ds := by
  have admitted : (draftOf path source).AdmitsAll (declaredIn (linesOf source)) ↔
      ((fieldsOf source).map Field.name).Nodup ∧ ((constantsOf source).map Constant.name).Nodup :=
    Draft.admitsAll_iff List.nodup_nil List.nodup_nil
  rw [readLines_eq_ok_iff, readable_bodyOf, declaredIn_bodyOf, admitted]
  constructor
  · rintro ⟨readable, ⟨fields, constants⟩, hd, hds⟩
    exact ⟨⟨readable, fields, constants⟩, hd, hds⟩
  · rintro ⟨wf, hd, hds⟩
    exact ⟨wf.readable, ⟨wf.fields, wf.constants⟩, hd, hds⟩

/-- The draft after the last line, with its header, is finished as the message of the source. -/
theorem finish_eq_messageOf {source : Text} (wf : IsWellFormed source) (options : ReadOptions)
    (path : Path) :
    Draft.finish { (draftOf path source).acceptAll (declaredIn (linesOf source)) with
      header := Header.ofLines (Layout.ofSource source).header } options.matching.claims =
      messageOf options path source := by
  have constants_eq : ((draftOf path source).acceptAll (declaredIn (linesOf source))).constants =
      constantsOf source := Draft.acceptAll_constants _ _
  rw [Draft.finish_eq _ (by rw [constants_eq]; exact wf.constants), constants_eq]
  simp only [Draft.acceptAll_fields, Draft.acceptAll_enumNames, Draft.acceptAll_path,
    Draft.acceptAll_source]
  rfl

/-- **A source is read** exactly when it is well formed. -/
theorem readInto_eq_ok_iff {options : ReadOptions} {path : Path} {source : Text}
    {m : Message} {ds ds' : Diagnostics} :
    readInto options path source ds = (.ok m, ds') ↔
      IsWellFormed source ∧ m = messageOf options path source ∧
        ds' = (noteLines options path (bodyOf source) ds).merge (Checks.message m) := by
  unfold readInto
  dsimp only
  rw [← bodyOf, ← draftOf]
  constructor
  · intro h
    split at h
    · cases h
    · next d ds₁ hr =>
      obtain ⟨wf, rfl, rfl⟩ := readLines_bodyOf_eq_ok_iff.mp hr
      rw [finish_eq_messageOf wf] at h
      cases h
      exact ⟨wf, rfl, rfl⟩
  · rintro ⟨wf, rfl, rfl⟩
    rw [readLines_bodyOf_eq_ok_iff.mpr ⟨wf, rfl, rfl⟩]
    dsimp only
    rw [finish_eq_messageOf wf]

/-- What reading a well-formed source gives. -/
theorem readInto_of_isWellFormed {source : Text} (wf : IsWellFormed source)
    (options : ReadOptions) (path : Path) (ds : Diagnostics) :
    readInto options path source ds =
      (.ok (messageOf options path source),
        (noteLines options path (bodyOf source) ds).merge
          (Checks.message (messageOf options path source))) :=
  readInto_eq_ok_iff.mpr ⟨wf, rfl, rfl⟩

end MessageDocs.Schema
