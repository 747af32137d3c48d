import MessageDocs.Proofs.Declaration
import MessageDocs.Proofs.Header
import MessageDocs.Proofs.Metadata
import MessageDocs.Proofs.Schema.Conservation
import MessageDocs.Proofs.Schema.Layout

/-! # A message is read back from the schema it is written as

A message that was read has plain parts, and the schema that is written for it has one line for each
of them. The constants stand in another order than before, which does not matter, since those that
belong together are still in order.

* `Message.content` is a message without its source and the numbers of its lines.
* `Schema.readInto_schema`: the written schema is read, and the message has the same content.
-/

set_option autoImplicit false

namespace MessageDocs

open Text

/-! ## Messages without their lines -/

def Field.unplaced (f : Field) : Field :=
  { f with line := 0 }

def Constant.unplaced (c : Constant) : Constant :=
  { c with line := 0 }

def Enumeration.unplaced (e : Enumeration) : Enumeration :=
  { e with values := e.values.map Constant.unplaced }

/-- A message without its source and the numbers of its lines. -/
def Message.content (m : Message) : Message :=
  { m with
    fields := m.fields.map Field.unplaced
    enums := m.enums.map Enumeration.unplaced
    constants := m.constants.map Constant.unplaced
    source := [] }

namespace Association

variable {claims : Text → Text → Bool} {names : List Text} {constants : List Constant}

theorem map_unplaced_valuesOf (name : Text) :
    (valuesOf claims names constants name).map Constant.unplaced =
      valuesOf claims names (constants.map Constant.unplaced) name := by
  rw [valuesOf, valuesOf, List.filter_map]
  rfl

theorem map_unplaced_owners :
    (owners claims names constants).map Enumeration.unplaced =
      owners claims names (constants.map Constant.unplaced) := by
  rw [owners, owners, List.map_map]
  apply List.map_congr_left
  intro name _
  rw [← map_unplaced_valuesOf]
  rfl

theorem map_unplaced_looseOf :
    (looseOf claims names constants).map Constant.unplaced =
      looseOf claims names (constants.map Constant.unplaced) := by
  rw [looseOf, looseOf, List.filter_map]
  rfl

end Association

namespace Declared

def declaration : Declared → Declaration
  | field f => f.declaration
  | constant c => c.declaration

def unplaced : Declared → Declared
  | field f => field f.unplaced
  | constant c => constant c.unplaced

/-- Whether what a line declares can be read back from a line. -/
def IsPlain : Declared → Prop
  | field f => (Declaration.IsName f.typeName ∧ Declaration.IsName f.name) ∧ f.metadata.IsPlain
  | constant c => c.declaration.IsPlain

theorem isPlain_declaration {e : Declared} (h : e.IsPlain) : e.declaration.IsPlain := by
  cases e with
  | field f =>
    refine ⟨h.1.1, h.1.2, ?_⟩
    intro c hc
    obtain ⟨⟨collapsed, ne⟩, noComment⟩ := Metadata.comment?_collapsed h.2 c hc
    exact ⟨collapsed, ne, noComment⟩
  | constant c => exact h

theorem fields_map_unplaced (es : List Declared) :
    fields (es.map unplaced) = (fields es).map Field.unplaced := by
  induction es with
  | nil => rfl
  | cons e es ih => cases e <;> simp [unplaced, ih]

theorem constants_map_unplaced (es : List Declared) :
    constants (es.map unplaced) = (constants es).map Constant.unplaced := by
  induction es with
  | nil => rfl
  | cons e es ih => cases e <;> simp [unplaced, ih]

end Declared

namespace Schema

open Association

/-! ## Declarations -/

theorem isPlain_of_declaredBy? {line : Nat} {text : Text} {e : Declared} (h : Collapsed text)
    (declared : declaredBy? line text = some e) : e.IsPlain := by
  unfold declaredBy? at declared
  split at declared
  · next classified =>
    cases declared
    exact Declaration.isPlain_of_classify h classified
  · next typeName name comment classified =>
    obtain ⟨ht, hn, hc⟩ := Declaration.isPlain_of_classify h classified
    split at declared
    · next metadata said =>
      cases declared
      refine ⟨⟨ht, hn⟩, ?_⟩
      exact Metadata.isPlain_of_read (fun c hm => ⟨(hc c hm).toCollapsed, (hc c hm).noComment⟩) said
    · cases declared
  · cases declared

/-- **What a line declares is declared again** by the line it is written as, wherever that is. -/
theorem exists_declaredBy?_print {e : Declared} (h : e.IsPlain) (line : Nat) :
    ∃ e', declaredBy? line e.declaration.print = some e' ∧ e'.unplaced = e.unplaced := by
  have classified := Declaration.classify_print (Declared.isPlain_declaration h).isWellFormed
  unfold declaredBy?
  rw [classified]
  cases e with
  | field f =>
    rw [Declared.declaration, Field.declaration]
    dsimp only
    rw [Metadata.read_comment? h.2]
    exact ⟨_, rfl, rfl⟩
  | constant c => exact ⟨_, rfl, rfl⟩

theorem declaredOn?_print {e : Declared} (h : e.IsPlain) (line : Nat) :
    (∃ e', declaredOn? ⟨line, e.declaration.print⟩ = some e' ∧ e'.unplaced = e.unplaced) ∧
      IsReadable ⟨line, e.declaration.print⟩ := by
  obtain ⟨e', declared, same⟩ := exists_declaredBy?_print h line
  have start := Declaration.print_start (Declared.isPlain_declaration h)
  have kind := ofText_eq_declaration_iff.mpr ⟨rfl, start⟩
  refine ⟨⟨e', ?_, same⟩, fun _ => Option.isSome_iff_exists.mpr ⟨e', declared⟩⟩
  unfold declaredOn?
  rw [kind]
  exact declared

/-! ## Lines -/

/-- Lines of the declarations that a list was written as. -/
theorem declaredIn_print {es : List Declared} (h : ∀ e ∈ es, e.IsPlain) (n : Nat) :
    (declaredIn (NumberedLine.numberFrom n (es.map fun e => e.declaration.print))).map
        Declared.unplaced = es.map Declared.unplaced ∧
      ∀ l ∈ NumberedLine.numberFrom n (es.map fun e => e.declaration.print), IsReadable l := by
  induction es generalizing n with
  | nil => exact ⟨rfl, by simp [NumberedLine.numberFrom]⟩
  | cons e es ih =>
    obtain ⟨here, rest⟩ := List.forall_mem_cons.mp h
    obtain ⟨⟨e', declared, same⟩, readable⟩ := declaredOn?_print here n
    obtain ⟨declaredRest, readableRest⟩ := ih rest (n + 1)
    rw [List.map_cons, NumberedLine.numberFrom, declaredIn_cons, declared, List.map_append,
      declaredRest]
    refine ⟨?_, List.forall_mem_cons.mpr ⟨readable, readableRest⟩⟩
    rw [List.map_cons, ← same]
    rfl

/-- Comment lines before an empty line are the header, when no other line is a comment. -/
theorem header_written {comments rest : List Text} (hc : ∀ t ∈ comments, t.head? = some '#')
    (hr : ∀ t ∈ rest, t.head? ≠ some '#') (n : Nat) :
    (Layout.ofLines (NumberedLine.numberFrom n (comments ++ [] :: rest))).header =
      comments.map fun t => trim t.tail := by
  have isComment : ∀ l ∈ NumberedLine.numberFrom n comments, l.isComment = true := by
    intro l hl
    simpa [NumberedLine.isComment] using hc l.text (text_mem_of_mem_numberFrom hl)
  have noComment : ∀ l ∈ NumberedLine.numberFrom (n + comments.length) ([] :: rest),
      l.isComment = false := by
    intro l hl
    rcases List.mem_cons.mp (text_mem_of_mem_numberFrom hl) with empty | listed
    · simp [NumberedLine.isComment, empty]
    · simpa [NumberedLine.isComment] using hr l.text listed
  rw [numberFrom_append, Layout.ofLines, ← map_numberFrom (fun t => trim t.tail) n comments]
  dsimp only
  congr 1
  cases comments with
  | nil => exact takeWhile_eq_nil fun l hl => noComment l ((List.dropWhile_suffix _).subset hl)
  | cons first comments =>
    have notBlank : ¬(⟨n, first⟩ : NumberedLine).isBlank = true := by
      intro blank
      have empty : first = [] := List.isEmpty_iff.mp blank
      have start := hc first List.mem_cons_self
      rw [empty] at start
      cases start
    rw [NumberedLine.numberFrom, List.cons_append, List.dropWhile_cons_of_neg notBlank,
      ← List.cons_append, ← NumberedLine.numberFrom, List.takeWhile_append_of_pos isComment,
      takeWhile_eq_nil noComment, List.append_nil]

/-! ## The written schema -/

/-- What a message declares, in the order in which it is written. -/
def entriesOf (m : Message) : List Declared :=
  m.fields.map Declared.field ++ m.allConstants.map Declared.constant

theorem declarations_eq (m : Message) :
    m.declarations = (entriesOf m).map Declared.declaration := by
  rw [entriesOf, List.map_append, List.map_map, List.map_map]
  rfl

theorem fields_entriesOf (m : Message) : Declared.fields (entriesOf m) = m.fields := by
  rw [entriesOf, Declared.fields_append, Declared.fields_map_field, Declared.fields_map_constant,
    List.append_nil]

theorem constants_entriesOf (m : Message) : Declared.constants (entriesOf m) = m.allConstants := by
  rw [entriesOf, Declared.constants_append, Declared.constants_map_field,
    Declared.constants_map_constant, List.nil_append]

/-- Whether all that a message is made of can be read back. -/
structure IsPlain (m : Message) : Prop where
  header : Header.IsPlain ⟨m.short, m.long⟩
  entries : ∀ e ∈ entriesOf m, e.IsPlain

/-- The lines of a written schema: comments, an empty line, and the declarations. -/
theorem exists_collapsedLines_schema {m : Message} (h : IsPlain m) :
    ∃ comments, collapsedLines m.schema =
        comments ++ [] :: (entriesOf m).map (fun e => e.declaration.print) ∧
      (∀ t ∈ comments, t.head? = some '#') ∧
      Header.ofLines (comments.map fun t => trim t.tail) = ⟨m.short, m.long⟩ := by
  obtain ⟨texts, written, collapsed, header⟩ := Header.exists_print h.header
  have plain : ∀ e ∈ entriesOf m, Collapsed e.declaration.print := fun e he =>
    Declaration.collapsed_print (Declared.isPlain_declaration (h.entries e he))
  have lines_eq : m.schemaLines = Header.print ⟨m.short, m.long⟩ ++
      [] :: (entriesOf m).map (fun e => e.declaration.print) := by
    rw [Message.schemaLines, declarations_eq, List.map_map, List.append_assoc]
    rfl
  have spaced : ∀ line ∈ m.schemaLines, IsSpaced line := by
    intro line hl
    rw [lines_eq] at hl
    rcases List.mem_append.mp hl with hl | hl
    · exact Header.isSpaced_print h.header line hl
    · rcases List.mem_cons.mp hl with rfl | hl
      · exact collapsed_nil.toIsSpaced
      · obtain ⟨e, he, rfl⟩ := List.mem_map.mp hl
        exact (plain e he).toIsSpaced
  have feed : ∀ line ∈ m.schemaLines, '\n' ∉ line := fun line hl =>
    (spaced line hl).not_mem (by decide) (by decide)
  have ret : ∀ line ∈ m.schemaLines, '\r' ∉ line := fun line hl =>
    (spaced line hl).not_mem (by decide) (by decide)
  refine ⟨texts.map fun t => collapse ("# " ++ t), ?_, ?_, ?_⟩
  · rw [collapsedLines, Message.schema, lines_endLines feed ret, lines_eq, List.map_append, written,
      List.map_cons, List.map_map]
    congr 2
    apply List.map_congr_left
    intro e he
    exact collapse_eq_self (plain e he)
  · intro t ht
    obtain ⟨text, hx, rfl⟩ := List.mem_map.mp ht
    exact (Header.collapse_comment (collapsed text hx)).1
  · have texts_eq :
        (texts.map fun t => collapse ("# " ++ t)).map (fun t => trim t.tail) = texts := by
      rw [List.map_map]
      refine (List.map_congr_left ?_).trans (List.map_id texts)
      exact fun t ht => (Header.collapse_comment (collapsed t ht)).2
    rw [texts_eq, header]

/-- What a written schema holds: the header, and the declarations on new lines. -/
theorem written_schema {m : Message} (h : IsPlain m) :
    Header.ofLines (Layout.ofSource m.schema).header = ⟨m.short, m.long⟩ ∧
      (declaredIn (linesOf m.schema)).map Declared.unplaced =
        (entriesOf m).map Declared.unplaced ∧
      ∀ l ∈ linesOf m.schema, IsReadable l := by
  obtain ⟨comments, lines_eq, marked, header⟩ := exists_collapsedLines_schema h
  have unmarked : ∀ t ∈ (entriesOf m).map (fun e => e.declaration.print), t.head? ≠ some '#' := by
    intro t ht
    obtain ⟨e, he, rfl⟩ := List.mem_map.mp ht
    exact (Declaration.print_start (Declared.isPlain_declaration (h.entries e he))).2
  -- the comments and the empty line after them declare nothing
  have silent : ∀ l ∈ NumberedLine.numberFrom 1 comments ++ [⟨1 + comments.length, []⟩],
      l.isBlank = true ∨ l.isComment = true := by
    intro l hl
    rcases List.mem_append.mp hl with hl | hl
    · refine Or.inr ?_
      simpa [NumberedLine.isComment] using marked l.text (text_mem_of_mem_numberFrom hl)
    · rw [List.mem_singleton.mp hl]
      exact Or.inl rfl
  have split : linesOf m.schema =
      (NumberedLine.numberFrom 1 comments ++ [⟨1 + comments.length, []⟩]) ++
        NumberedLine.numberFrom (1 + comments.length + 1)
          ((entriesOf m).map fun e => e.declaration.print) := by
    rw [linesOf, lines_eq, numberFrom_append, List.append_assoc]
    rfl
  have nothing : declaredIn (NumberedLine.numberFrom 1 comments ++ [⟨1 + comments.length, []⟩]) =
      [] := by
    rw [declaredIn, List.filterMap_eq_nil_iff]
    exact fun l hl => declaredOn?_of_blank_or_comment (silent l hl)
  obtain ⟨declared, readable⟩ := declaredIn_print h.entries (1 + comments.length + 1)
  refine ⟨?_, ?_, ?_⟩
  · rw [Layout.ofSource, lines_eq, header_written marked unmarked, header]
  · rw [split, declaredIn_append, nothing, List.nil_append, declared]
  · rw [split, List.forall_mem_append]
    exact ⟨fun l hl => isReadable_of_blank_or_comment (silent l hl), readable⟩

theorem fieldsOf_schema {m : Message} (h : IsPlain m) :
    (fieldsOf m.schema).map Field.unplaced = m.fields.map Field.unplaced := by
  rw [fieldsOf, ← Declared.fields_map_unplaced, (written_schema h).2.1,
    Declared.fields_map_unplaced, fields_entriesOf]

theorem constantsOf_schema {m : Message} (h : IsPlain m) :
    (constantsOf m.schema).map Constant.unplaced = m.allConstants.map Constant.unplaced := by
  rw [constantsOf, ← Declared.constants_map_unplaced, (written_schema h).2.1,
    Declared.constants_map_unplaced, constants_entriesOf]

/-! ## Messages that were read -/

theorem collapsed_of_mem_linesOf {source : Text} {l : NumberedLine} (h : l ∈ linesOf source) :
    Collapsed l.text := by
  obtain ⟨line, -, text_eq⟩ := List.mem_map.mp (text_mem_of_mem_numberFrom h)
  rw [← text_eq]
  exact collapsed_collapse line

theorem isPlain_of_mem_declaredIn {source : Text} {e : Declared}
    (h : e ∈ declaredIn (linesOf source)) : e.IsPlain := by
  obtain ⟨l, hl, declared⟩ := List.mem_filterMap.mp h
  unfold declaredOn? at declared
  split at declared
  · next text kind =>
    rw [(ofText_eq_declaration_iff.mp kind).1] at declared
    exact isPlain_of_declaredBy? (collapsed_of_mem_linesOf hl) declared
  · cases declared

theorem collapsed_of_mem_header {source line : Text}
    (h : line ∈ (Layout.ofSource source).header) : Collapsed line := by
  obtain ⟨l, hl, rfl⟩ := List.mem_map.mp h
  have listed : l ∈ linesOf source :=
    (List.dropWhile_suffix _).subset ((List.takeWhile_prefix _).subset hl)
  have tail : l.text.tail <:+: l.text := (List.tail_suffix _).isInfix
  exact ((collapsed_of_mem_linesOf listed).toIsSpaced.part tail).collapsed_trim

theorem isPlain_messageOf (options : ReadOptions) (path : Path) (source : Text) :
    IsPlain (messageOf options path source) := by
  refine ⟨Header.isPlain_ofLines fun line hl => collapsed_of_mem_header hl, ?_⟩
  intro e he
  rcases List.mem_append.mp he with he | he
  · obtain ⟨f, hf, rfl⟩ := List.mem_map.mp he
    obtain ⟨e, listed, field⟩ := List.mem_filterMap.mp hf
    cases e with
    | field g =>
      cases field
      exact isPlain_of_mem_declaredIn listed
    | constant c => cases field
  · obtain ⟨c, hc, rfl⟩ := List.mem_map.mp he
    have declared := (allConstants_messageOf_perm options path source).mem_iff.mp hc
    obtain ⟨e, listed, constant⟩ := List.mem_filterMap.mp declared
    cases e with
    | field g => cases constant
    | constant d =>
      cases constant
      exact isPlain_of_mem_declaredIn listed

theorem enumNamesOf_schema {m : Message} (h : IsPlain m) :
    enumNamesOf m.schema = Draft.mentioned (m.fields.flatMap Field.enumTags) := by
  have tags : ∀ fields : List Field,
      fields.flatMap Field.enumTags = (fields.map Field.unplaced).flatMap Field.enumTags := by
    intro fields
    rw [List.flatMap_map]
    rfl
  rw [enumNamesOf, tags, fieldsOf_schema h, ← tags]

theorem isWellFormed_schema {m : Message} (h : IsPlain m)
    (fields : (m.fields.map Field.name).Nodup)
    (constants : (m.allConstants.map Constant.name).Nodup) : IsWellFormed m.schema := by
  have fieldNames : (fieldsOf m.schema).map Field.name = m.fields.map Field.name := by
    have := congrArg (List.map Field.name) (fieldsOf_schema h)
    rwa [List.map_map, List.map_map] at this
  have constantNames :
      (constantsOf m.schema).map Constant.name = m.allConstants.map Constant.name := by
    have := congrArg (List.map Constant.name) (constantsOf_schema h)
    rwa [List.map_map, List.map_map] at this
  exact ⟨(written_schema h).2.2, by rwa [fieldNames], by rwa [constantNames]⟩

/-- Sources with the same descriptions and fields have messages of the same content if the constants
of one are those of the other with their owners first. -/
theorem content_messageOf_eq {options : ReadOptions} {path : Path} {source schema : Text}
    (header : Header.ofLines (Layout.ofSource schema).header =
      Header.ofLines (Layout.ofSource source).header)
    (fields : (fieldsOf schema).map Field.unplaced = (fieldsOf source).map Field.unplaced)
    (names : enumNamesOf schema = enumNamesOf source)
    (constants : (constantsOf schema).map Constant.unplaced =
      (messageOf options path source).allConstants.map Constant.unplaced) :
    (messageOf options path schema).content = (messageOf options path source).content := by
  have nodup : (enumNamesOf source).Nodup := Draft.nodup_mentioned _
  have listed : (messageOf options path source).allConstants =
      ((owners options.matching.claims (enumNamesOf source) (constantsOf source)).map
        Enumeration.values).flatten ++
      looseOf options.matching.claims (enumNamesOf source) (constantsOf source) := rfl
  rw [listed] at constants
  have enums : (owners options.matching.claims (enumNamesOf schema) (constantsOf schema)).map
      Enumeration.unplaced =
      (owners options.matching.claims (enumNamesOf source) (constantsOf source)).map
        Enumeration.unplaced := by
    rw [names, map_unplaced_owners, constants, ← map_unplaced_owners, owners_listed nodup]
  have loose : (looseOf options.matching.claims (enumNamesOf schema) (constantsOf schema)).map
      Constant.unplaced =
      (looseOf options.matching.claims (enumNamesOf source) (constantsOf source)).map
        Constant.unplaced := by
    rw [names, map_unplaced_looseOf, constants, ← map_unplaced_looseOf, looseOf_listed nodup]
  simp only [Message.content, messageOf, header, fields, enums, loose]

/-- **The schema that a message is written as is read**, and gives the same message but for the
source and the numbers of the lines. -/
theorem readInto_schema {options : ReadOptions} {path : Path} {source : Text} {m : Message}
    {ds ds' : Diagnostics} (h : readInto options path source ds = (.ok m, ds'))
    (into : Diagnostics) :
    ∃ m' after, readInto options path m.schema into = (.ok m', after) ∧ m'.content = m.content := by
  obtain ⟨wf, rfl, -⟩ := readInto_eq_ok_iff.mp h
  have constants :=
    ((allConstants_messageOf_perm options path source).map Constant.name).nodup_iff.mpr wf.constants
  have plain := isPlain_messageOf options path source
  have wf' := isWellFormed_schema plain wf.fields constants
  exact ⟨_, _, readInto_of_isWellFormed wf' options path into,
    content_messageOf_eq (written_schema plain).1 (fieldsOf_schema plain) (enumNamesOf_schema plain)
      (constantsOf_schema plain)⟩

/-- A schema whose parts are not written the way they were found. -/
def untidy : Text :=
  "#a\n# \n#b\nu8 E_X=1#x\nu8  f y#[ @enum E][][@invalid]z\n"

theorem untidy_readInto_schema :
    ∃ m ds, readInto {} ⟨"A.msg"⟩ untidy {} = (.ok m, ds) ∧
      m.schema = ("# a\n#\n# b\n\nu8 f # [] [@enum E] [@invalid ] z\nu8 E_X = 1 # x\n" : Text) ∧
      ∃ m' after, readInto {} ⟨"A.msg"⟩ m.schema {} = (.ok m', after) ∧ m'.content = m.content := by
  have wf : IsWellFormed untidy := by decide +kernel
  have h := readInto_of_isWellFormed wf {} ⟨"A.msg"⟩ {}
  have text : (messageOf {} ⟨"A.msg"⟩ untidy).schema =
      ("# a\n#\n# b\n\nu8 f # [] [@enum E] [@invalid ] z\nu8 E_X = 1 # x\n" : Text) := by
    decide +kernel
  exact ⟨_, _, h, text, readInto_schema h {}⟩

end Schema

end MessageDocs
