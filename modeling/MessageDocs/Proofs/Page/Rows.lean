import MessageDocs.Proofs.Page.Links
import MessageDocs.Proofs.Page.Table
import MessageDocs.Proofs.Schema.RoundTrip

/-! # The rows of a message page

All cells of a row are escaped but its type, so a row has as many cells as the header exactly when
its type has no separator.

* `Page.bars_fieldRow` and `Page.bars_constantRow` count the separators of a row.
* `Page.split_render`: the lines of the tables are lines of the page.
* `Page.rows_of_tables`: the rows on the page of a message that was read.
-/

set_option autoImplicit false

namespace MessageDocs.Page

open Text Association Schema

/-! ## Cells -/

theorem bars_code (t : Text) : Table.bars (code t) = Table.bars t := by
  have form : code t = '\x60' :: (t ++ '\x60' :: []) := by simp [code]
  rw [form, Table.bars_cons (by decide) (by decide), Table.bars_append_cons (by decide) (by decide)]
  rfl

theorem bars_link (label page : Text) :
    Table.bars (link label (page ++ ".md")) = Table.bars label + Table.bars page := by
  have form : link label (page ++ ".md") =
      '[' :: (label ++ ']' :: '(' :: (page ++ '.' :: ['m', 'd', ')'])) := by
    simp [link]
  rw [form, Table.bars_cons (by decide) (by decide), Table.bars_append_cons (by decide) (by decide),
    Table.bars_cons (by decide) (by decide), Table.bars_append_cons (by decide) (by decide)]
  rfl

theorem bars_typeCell (context : Context) (f : Field) :
    Table.bars (typeCell context f) = Table.bars f.typeName +
      if context.known.contains f.baseType then Table.bars f.baseType else 0 := by
  unfold typeCell
  split
  · rw [bars_link, bars_code]
  · rw [bars_code, Nat.add_zero]

/-- The name in a link's target is the beginning of the type, and adds nothing to none. -/
theorem bars_typeCell_eq_zero_iff (context : Context) (f : Field) :
    Table.bars (typeCell context f) = 0 ↔ Table.bars f.typeName = 0 := by
  have base : Table.bars f.baseType ≤ Table.bars f.typeName := by
    have parts : f.baseType ++ f.typeName.dropWhile (· != '[') = f.typeName :=
      List.takeWhile_append_dropWhile
    have := Table.barsAfter_le_append ' ' f.baseType (f.typeName.dropWhile (· != '['))
    rwa [parts] at this
  rw [bars_typeCell]
  split <;> omega

theorem bars_fieldRow (context : Context) (f : Field) :
    Table.bars (Table.line (fieldRow context f)) = 4 + Table.bars (typeCell context f) := by
  have row := @Table.bars_line (fieldRow context f) (by simp [fieldRow])
  have cells : ((fieldRow context f).map Table.bars).sum = Table.bars (typeCell context f) := by
    simp [fieldRow, rangeCell, Table.bars_escape]
  have count : (fieldRow context f).length = 5 := rfl
  omega

theorem bars_constantRow (c : Constant) :
    Table.bars (Table.line (constantRow c)) = 3 + Table.bars c.typeName := by
  have row := @Table.bars_line (constantRow c) (by simp [constantRow])
  have cells : ((constantRow c).map Table.bars).sum = Table.bars c.typeName := by
    simp [constantRow, bars_code, Table.bars_escape]
  have count : (constantRow c).length = 4 := rfl
  omega

theorem isLine_code {t : Text} (h : IsLine t) : IsLine (code t) :=
  (IsLine.append (by decide) h).append (by decide)

theorem isLine_link {label target : Text} (hl : IsLine label) (ht : IsLine target) :
    IsLine (link label target) :=
  ((((IsLine.append (by decide) hl).append (by decide)).append ht).append (by decide))

theorem isLine_typeCell (context : Context) {f : Field} (h : IsWord f.typeName) :
    IsLine (typeCell context f) := by
  have type : IsLine f.typeName := isLine_of_solid h.solid
  have base : IsLine f.baseType := fun c hc => type c ((List.takeWhile_prefix _).subset hc)
  unfold typeCell
  split
  · exact isLine_link (isLine_code type) (base.append (by decide))
  · exact isLine_code type

theorem isLine_enumLink {tag : Text} (h : IsWord tag) : IsLine (enumLink tag) :=
  isLine_link (isLine_of_solid h.solid) (IsLine.append (by decide) (isLine_lower h))

theorem isLine_bounds {f : Field} (h : f.metadata.IsPlain) :
    IsLine (f.minimum.getD []) ∧ IsLine (f.maximum.getD []) := by
  rcases h.range with ⟨noLo, noHi⟩ | ⟨lo, hi, ⟨someLo, someHi⟩, lower, upper⟩
  · rw [show f.minimum = none from noLo, show f.maximum = none from noHi]
    exact ⟨isLine_nil, isLine_nil⟩
  · rw [show f.minimum = some lo from someLo, show f.maximum = some hi from someHi]
    exact ⟨lower.toIsSpaced.isLine, upper.toIsSpaced.isLine⟩

theorem isLine_rangeCell {f : Field} (h : f.metadata.IsPlain) : IsLine (rangeCell f) := by
  obtain ⟨lower, upper⟩ := isLine_bounds h
  refine Table.isLine_escape (isLine_join (by decide) ?_)
  intro part hp
  rcases List.mem_append.mp hp with hp | hp
  · rcases List.mem_append.mp hp with hp | hp
    · split at hp
      · cases hp
      · rw [List.mem_singleton.mp hp]
        refine isLine_join (by decide) fun piece listed => ?_
        obtain ⟨tag, ht, rfl⟩ := List.mem_map.mp listed
        exact isLine_enumLink (h.enumTags tag ht).1
    · split at hp
      · rw [List.mem_singleton.mp hp]
        exact (((IsLine.append (by decide) lower).append (by decide)).append upper).append
          (by decide)
      · cases hp
  · split at hp
    · next value invalid =>
      rw [List.mem_singleton.mp hp]
      exact IsLine.append (by decide) (h.invalid value invalid).toIsSpaced.isLine
    · cases hp

theorem isLine_fieldRow (context : Context) {f : Field} (h : (Declared.field f).IsPlain) :
    IsLine (Table.line (fieldRow context f)) := by
  obtain ⟨⟨type, name⟩, metadata⟩ := h
  have unit : ∀ u ∈ f.unit, IsLine u := fun u hu => (metadata.unit u hu).1.toIsSpaced.isLine
  have description : IsLine f.description := metadata.description.1.toIsSpaced.isLine
  refine Table.isLine_line ?_
  simp only [fieldRow, List.forall_mem_cons]
  exact ⟨Table.isLine_escape (isLine_of_solid name.solid), isLine_typeCell context type.toIsWord,
    Table.isLine_escape (IsLine.getD unit), isLine_rangeCell metadata,
    Table.isLine_escape description, by simp⟩

theorem isLine_constantRow {c : Constant} (h : (Declared.constant c).IsPlain) :
    IsLine (Table.line (constantRow c)) := by
  obtain ⟨⟨type, name⟩, value, comment⟩ := h
  have remark : ∀ t ∈ c.comment, IsLine t := fun t ht => (comment t ht).toIsSpaced.isLine
  refine Table.isLine_line ?_
  simp only [constantRow, List.forall_mem_cons]
  exact ⟨Table.isLine_escape (isLine_of_solid name.solid), isLine_code (isLine_of_solid type.solid),
    Table.isLine_escape value.toIsSpaced.isLine, Table.isLine_escape (IsLine.getD remark), by simp⟩

/-! ## The lines of a page -/

/-- Lines with a heading and an empty line before them. -/
def headed (heading : Text) (lines : List Text) : List Text :=
  heading :: [] :: lines

def constantLines (heading : Text) (constants : List Constant) : List Text :=
  headed heading (Table.lines constantColumns (constants.map constantRow))

def fieldTable (context : Context) (m : Message) : List Text :=
  if m.fields = [] then []
  else headed "## Fields" (Table.lines fieldColumns (m.fields.map (fieldRow context)))

def enumTables (m : Message) : List Text :=
  if sectioned m = [] then []
  else headed "## Enums" ((sectioned m).flatMap fun e => constantLines ("### " ++ e.name) e.values)

def looseTable (m : Message) : List Text :=
  if m.constants = [] then [] else constantLines "## Constants" m.constants

/-- The lines of all tables of a message, with their headings. -/
def tableLines (context : Context) (m : Message) : List Text :=
  fieldTable context m ++ enumTables m ++ looseTable m

theorem endLines_headed (heading : Text) (lines : List Text) :
    Header.endLines (headed heading lines) = heading ++ "\n\n" ++ Header.endLines lines := by
  rw [headed, endLines_cons, endLines_cons]
  simp

theorem endLines_constantLines (heading : Text) (constants : List Constant) :
    Header.endLines (constantLines heading constants) =
      heading ++ "\n\n" ++ constantTable constants := by
  rw [constantLines, endLines_headed, constantTable, Table.render_eq_endLines]

theorem endLines_flatMap {α : Type} (f : α → List Text) (xs : List α) :
    Header.endLines (xs.flatMap f) = (xs.map fun x => Header.endLines (f x)).flatten := by
  induction xs with
  | nil => rfl
  | cons x xs ih => rw [List.flatMap_cons, endLines_append, ih, List.map_cons, List.flatten_cons]

theorem endLines_fieldTable (context : Context) (m : Message) :
    Header.endLines (fieldTable context m) = fieldSection context m := by
  unfold fieldTable fieldSection
  split
  · rfl
  · rw [endLines_headed, ← Table.render_eq_endLines]
    rfl

theorem endLines_enumTables (m : Message) :
    Header.endLines (enumTables m) = enumSections m := by
  rw [enumSections_eq, enumTables]
  split
  · rfl
  · rw [endLines_headed, endLines_flatMap]
    simp only [endLines_constantLines]
    rfl

theorem endLines_looseTable (m : Message) :
    Header.endLines (looseTable m) = constantSection m := by
  unfold looseTable constantSection
  split
  · rfl
  · rw [endLines_constantLines]
    rfl

theorem isLine_of_mem_headed {heading : Text} {lines : List Text} (hh : IsLine heading)
    (hl : ∀ l ∈ lines, IsLine l) : ∀ l ∈ headed heading lines, IsLine l :=
  List.forall_mem_cons.mpr ⟨hh, List.forall_mem_cons.mpr ⟨isLine_nil, hl⟩⟩

theorem isLine_of_mem_constantLines {heading : Text} {constants : List Constant}
    (hh : IsLine heading) (hc : ∀ c ∈ constants, (Declared.constant c).IsPlain) :
    ∀ l ∈ constantLines heading constants, IsLine l := by
  refine isLine_of_mem_headed hh (Table.isLine_of_mem_lines (by decide) ?_)
  intro row hr
  obtain ⟨c, listed, rfl⟩ := List.mem_map.mp hr
  exact isLine_constantRow (hc c listed)

theorem isPlain_of_mem_fields {m : Message} (h : IsPlain m) {f : Field} (hf : f ∈ m.fields) :
    (Declared.field f).IsPlain :=
  h.entries _ (List.mem_append_left _ (List.mem_map_of_mem hf))

theorem isPlain_of_mem_allConstants {m : Message} (h : IsPlain m) {c : Constant}
    (hc : c ∈ m.allConstants) : (Declared.constant c).IsPlain :=
  h.entries _ (List.mem_append_right _ (List.mem_map_of_mem hc))

theorem isLine_of_mem_tableLines (context : Context) {m : Message} (h : IsPlain m)
    (names : ∀ e ∈ m.enums, IsWord e.name) : ∀ l ∈ tableLines context m, IsLine l := by
  intro l hl
  rcases List.mem_append.mp hl with hl | hl
  · rcases List.mem_append.mp hl with hl | hl
    · unfold fieldTable at hl
      split at hl
      · cases hl
      · refine isLine_of_mem_headed (by decide) (Table.isLine_of_mem_lines (by decide) ?_) l hl
        intro row hr
        obtain ⟨f, listed, rfl⟩ := List.mem_map.mp hr
        exact isLine_fieldRow context (isPlain_of_mem_fields h listed)
    · unfold enumTables at hl
      split at hl
      · cases hl
      · refine isLine_of_mem_headed (by decide) ?_ l hl
        intro l hl
        obtain ⟨e, he, inside⟩ := List.mem_flatMap.mp hl
        have listed : e ∈ m.enums := (List.mem_filter.mp he).1
        have heading : IsLine ("### " ++ e.name) :=
          IsLine.append (by decide) (isLine_of_solid (names e listed).solid)
        refine isLine_of_mem_constantLines heading (fun c hc => ?_) l inside
        have value : c ∈ (m.enums.map Enumeration.values).flatten :=
          List.mem_flatten_of_mem (List.mem_map_of_mem listed) hc
        exact isPlain_of_mem_allConstants h (List.mem_append_left _ value)
  · unfold looseTable at hl
    split at hl
    · cases hl
    · refine isLine_of_mem_constantLines (by decide) (fun c hc => ?_) l hl
      exact isPlain_of_mem_allConstants h (List.mem_append_right _ hc)

theorem ends_append {a b : Text} (ha : a.getLast? = some '\n')
    (hb : b = [] ∨ b.getLast? = some '\n') : (a ++ b).getLast? = some '\n' := by
  rcases hb with rfl | hb
  · rwa [List.append_nil]
  · rw [List.getLast?_append, hb]
    rfl

/-- The parts of a page before its tables end with a line feed. -/
theorem exists_before_tables (context : Context) (m : Message) :
    ∃ before, titleLine m ++ paragraph m.short ++ longParagraph m ++ sourceLink context m =
      before ++ ['\n'] := by
  have title : (titleLine m).getLast? = some '\n' := by
    rw [titleLine, List.getLast?_append]
    rfl
  have short : paragraph m.short = [] ∨ (paragraph m.short).getLast? = some '\n' := by
    unfold paragraph
    split <;> simp
  have long : longParagraph m = [] ∨ (longParagraph m).getLast? = some '\n' := by
    unfold longParagraph
    split <;> simp
  have source : sourceLink context m = [] ∨ (sourceLink context m).getLast? = some '\n' := by
    unfold sourceLink
    split <;> simp
  have ends := ends_append (ends_append (ends_append title short) long) source
  exact List.getLast?_eq_some_iff.mp ends

/-- **The lines of the tables** are lines of the page, one after the other. -/
theorem split_render (context : Context) {m : Message} (h : IsPlain m)
    (names : ∀ e ∈ m.enums, IsWord e.name) :
    ∃ before after, split (· == '\n') (render context m) =
      before ++ tableLines context m ++ after := by
  obtain ⟨before, ends⟩ := exists_before_tables context m
  have page : render context m =
      before ++ '\n' :: (Header.endLines (tableLines context m) ++ sourceSection m) := by
    rw [render, ends, tableLines, endLines_append, endLines_append, endLines_fieldTable,
      endLines_enumTables, endLines_looseTable]
    simp
  have lines : ∀ l ∈ tableLines context m, '\n' ∉ l := fun l hl =>
    (isLine_of_mem_tableLines context h names l hl).not_mem
  rw [page, split_append_cons (by rfl), split_endLines_append lines]
  exact ⟨_, _, (List.append_assoc _ _ _).symm⟩

/-! ## Messages that were read -/

section Read

variable {options : ReadOptions} {path : Path} {source : Text} {m : Message} {ds ds' : Diagnostics}

theorem isWord_of_mem_enums {e : Enumeration} (he : e ∈ (messageOf options path source).enums) :
    IsWord e.name := by
  have mention : e.name ∈ enumNamesOf source := (mem_owners_iff.mp he).1
  obtain ⟨f, hf, ht⟩ := List.mem_flatMap.mp (mem_mentioned.mp mention)
  have plain := isPlain_of_mem_fields (isPlain_messageOf options path source) hf
  exact (plain.2.enumTags e.name ht).1

/-- **How many separators a row has.** The rows of the tables of a message that was read stand on
lines of their own. A row has as many separators as the header, and those of its type besides, in
the table of the fields twice those of the name that a link repeats. -/
theorem rows_of_tables (h : readInto options path source ds = (.ok m, ds')) (context : Context) :
    (∃ before after, split (· == '\n') (render context m) =
      before ++ tableLines context m ++ after) ∧
    (Table.bars (Table.line fieldColumns) = 4 ∧ Table.bars (Table.line constantColumns) = 3) ∧
    (∀ f ∈ m.fields, IsLine (Table.line (fieldRow context f)) ∧
      (Table.bars (Table.line (fieldRow context f)) = 4 + (Table.bars f.typeName +
        if context.known.contains f.baseType then Table.bars f.baseType else 0)) ∧
      (Table.bars (Table.line (fieldRow context f)) = 4 ↔ Table.bars f.typeName = 0)) ∧
    ∀ c ∈ m.allConstants, IsLine (Table.line (constantRow c)) ∧
      Table.bars (Table.line (constantRow c)) = 3 + Table.bars c.typeName := by
  obtain ⟨-, rfl, -⟩ := readInto_eq_ok_iff.mp h
  have plain := isPlain_messageOf options path source
  refine ⟨split_render context plain fun e he => isWord_of_mem_enums he,
    ⟨by decide, by decide⟩, fun f hf => ⟨?_, ?_, ?_⟩, fun c hc => ⟨?_, bars_constantRow c⟩⟩
  · exact isLine_fieldRow context (isPlain_of_mem_fields plain hf)
  · rw [bars_fieldRow, bars_typeCell]
  · rw [bars_fieldRow, ← bars_typeCell_eq_zero_iff context f]
    omega
  · exact isLine_constantRow (isPlain_of_mem_allConstants plain hc)

end Read

/-- A schema with a `|` in every text but the types. -/
def barredSource : Text := "uint8 a|b # [V|A] [@invalid |] x|y\nuint8 X|Y = 1|2 # one|two\n"

def barred : Message := messageOf {} ⟨"A.msg"⟩ barredSource

def plainContext : Context :=
  Context.ofMessages [barred] none "Pages"

theorem barred_rows_aligned :
    (∃ ds, readInto {} ⟨"A.msg"⟩ barredSource {} = (.ok barred, ds)) ∧
      (∃ f ∈ barred.fields, Table.bars (Table.line (fieldRow plainContext f)) = 4) ∧
      ∃ c ∈ barred.allConstants, Table.bars (Table.line (constantRow c)) = 3 := by
  have wf : IsWellFormed barredSource := by decide +kernel
  have read := readInto_of_isWellFormed wf {} ⟨"A.msg"⟩ {}
  obtain ⟨-, -, fields, constants⟩ := rows_of_tables read plainContext
  obtain ⟨f, hf, plain⟩ : ∃ f ∈ barred.fields, Table.bars f.typeName = 0 := by decide +kernel
  obtain ⟨c, hc, plain'⟩ : ∃ c ∈ barred.allConstants, Table.bars c.typeName = 0 := by
    decide +kernel
  refine ⟨⟨_, read⟩, ⟨f, hf, (fields f hf).2.2.mpr plain⟩, c, hc, ?_⟩
  exact (constants c hc).2.trans (congrArg (3 + ·) plain')

/-- A `|` in a type separates cells. -/
theorem type_not_escaped :
    ∃ m ds, readInto {} ⟨"A.msg"⟩ "uint8|x y\nuint8|z Y = 1\n" {} = (.ok m, ds) ∧
      (∃ f ∈ m.fields, Table.line (fieldRow plainContext f) = "y | \x60uint8|x\x60 |  |  | " ∧
        Table.bars (Table.line (fieldRow plainContext f)) = 5) ∧
      ∃ c ∈ m.constants, Table.line (constantRow c) = "Y | \x60uint8|z\x60 | 1 | " ∧
        Table.bars (Table.line (constantRow c)) = 4 := by
  have wf : IsWellFormed "uint8|x y\nuint8|z Y = 1\n" := by decide +kernel
  refine ⟨_, _, readInto_of_isWellFormed wf {} ⟨"A.msg"⟩ {}, ?_⟩
  decide +kernel

end MessageDocs.Page
