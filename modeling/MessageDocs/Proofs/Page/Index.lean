import MessageDocs.Page.Index
import MessageDocs.Proofs.Sorting
import MessageDocs.Proofs.Text.Bytes
import MessageDocs.Proofs.Text.Split

/-! # What the index lists

The index is put together from lines: its title, and for each of the two groups that has messages a
heading and one bullet per message. A group has the messages of its kind by the bytes of their
names, and those of one name as they were given.

* `Page.Index.IsGroup`: the messages of a kind, in the order of the index.
* `Page.Index.pageLines`: the lines of an index of two groups.
* `Page.Index.exists_groups`: the two groups of an index.
* `Page.Index.lists_once`: the index of any messages.
-/

set_option autoImplicit false

namespace MessageDocs.Page.Index

/-! ## Groups -/

/-- The messages of a kind, ascending by name, and those of one name in the order they had. -/
structure IsGroup (messages : List Message) (kind : Message → Bool) (group : List Message) :
    Prop where
  perm : group.Perm (messages.filter kind)
  ascending : group.Pairwise fun a b => a.name.bytes ≤ b.name.bytes
  stable : ∀ name, group.filter (·.name = name) = (messages.filter kind).filter (·.name = name)

variable (messages : List Message)

theorem isGroup_sorted (kind : Message → Bool) :
    IsGroup messages kind ((sorted messages).filter kind) where
  perm := (sortedBy_perm Message.name messages).filter kind
  ascending := by
    apply List.Pairwise.filter
    apply (sortedBy_ascending Message.name messages).imp
    intro a b le
    rw [← Std.not_lt] at le ⊢
    rwa [Text.bytes_lt_iff]
  stable := by
    intro name
    have same := filter_sortedBy Message.name messages name
    rw [List.filter_comm, List.filter_comm (l := messages)]
    exact congrArg (List.filter kind) same

theorem IsGroup.ne_nil_iff {messages group : List Message} {kind : Message → Bool}
    (h : IsGroup messages kind group) : group ≠ [] ↔ ∃ m ∈ messages, kind m = true := by
  rw [← List.length_pos_iff, h.perm.length_eq, List.length_pos_iff, ne_eq, List.filter_eq_nil_iff]
  simp

theorem IsGroup.append_perm {messages group others : List Message} {kind : Message → Bool}
    (h : IsGroup messages kind group) (h' : IsGroup messages (!kind ·) others) :
    (group ++ others).Perm messages :=
  (h.perm.append h'.perm).trans (List.filter_append_perm kind messages)

/-- Messages of different names are sorted alike in whatever order they are given. -/
theorem sorted_perm {messages others : List Message} (perm : others.Perm messages)
    (nodup : (messages.map Message.name).Nodup) : sorted others = sorted messages := by
  have perm_sorted : (sorted others).Perm (sorted messages) :=
    ((sortedBy_perm Message.name others).trans perm).trans
      (sortedBy_perm Message.name messages).symm
  refine List.Perm.eq_of_pairwise ?_ (sortedBy_ascending Message.name others)
    (sortedBy_ascending Message.name messages) perm_sorted
  intro a b ha hb le ge
  have listed : ∀ m, m ∈ sorted messages → m ∈ messages :=
    fun m => (sortedBy_perm Message.name messages).mem_iff.mp
  exact List.inj_on_of_nodup_map nodup (listed a (perm_sorted.mem_iff.mp ha)) (listed b hb)
    (Std.le_antisymm le ge)

/-! ## Lines -/

/-- The line of a message. -/
def bullet (m : Message) : Text :=
  "- " ++ link m.name (m.name ++ ".md") ++ remark m

def groupLines (title : Text) (group : List Message) : List Text :=
  if group = [] then [] else ("## " ++ title) :: [] :: group.map bullet ++ [[]]

def pageLines (title : Text) (groups : List (Text × List Message)) : List Text :=
  ("# " ++ title) :: [] :: groups.flatMap fun g => groupLines g.1 g.2

def versionedTitle : Text := "Versioned Messages"

def unversionedTitle : Text := "Unversioned Messages"

theorem endLines_groupLines (title : Text) (messages : List Message) :
    Header.endLines (groupLines title messages) = group title messages := by
  rw [groupLines, group]
  split
  · rfl
  · have bullets : Header.endLines (messages.map bullet) = (messages.map entry).flatten := by
      rw [Header.endLines, List.map_map]
      rfl
    rw [Text.endLines_append, Text.endLines_cons, Text.endLines_cons, bullets]
    simp [Header.endLines]

theorem render_eq (context : Context) :
    render context messages = Header.endLines (pageLines context.title
      [(versionedTitle, (sorted messages).filter (·.isVersioned)),
        (unversionedTitle, (sorted messages).filter (!·.isVersioned))]) := by
  rw [pageLines, Text.endLines_cons, Text.endLines_cons, List.flatMap_cons, List.flatMap_cons,
    List.flatMap_nil, List.append_nil, Text.endLines_append, endLines_groupLines,
    endLines_groupLines]
  show "# " ++ context.title ++ "\n\n" ++ group versionedTitle _ ++ group unversionedTitle _ = _
  simp

/-- **The two groups** of an index, which consists of their lines. -/
theorem exists_groups (context : Context) :
    ∃ versioned unversioned, IsGroup messages (·.isVersioned) versioned ∧
      IsGroup messages (!·.isVersioned) unversioned ∧
      render context messages = Header.endLines (pageLines context.title
        [(versionedTitle, versioned), (unversionedTitle, unversioned)]) :=
  ⟨_, _, isGroup_sorted messages _, isGroup_sorted messages _, render_eq messages context⟩

section

variable {title other : Text} {group : List Message} {groups : List (Text × List Message)}

/-- A title is no bullet, and neither is an empty line. -/
theorem filter_groupLines :
    (groupLines title group).filter (Text.startsWith "- ") = group.map bullet := by
  have bullets : (group.map bullet).filter (Text.startsWith "- ") = group.map bullet := by
    rw [List.filter_eq_self]
    rintro _ hm
    obtain ⟨m, -, rfl⟩ := List.mem_map.mp hm
    rfl
  have noBullet : Text.startsWith "- " ("## " ++ title) = false := rfl
  rw [groupLines]
  split
  · next none => rw [none]; rfl
  · rw [List.cons_append, List.cons_append,
      List.filter_cons_of_neg (Bool.eq_false_iff.mp noBullet),
      List.filter_cons_of_neg (by decide), List.filter_append, bullets]
    exact List.append_nil _

theorem filter_pageLines :
    (pageLines title groups).filter (Text.startsWith "- ") =
      (groups.flatMap Prod.snd).map bullet := by
  have noBullet : Text.startsWith "- " ("# " ++ title) = false := rfl
  rw [pageLines, List.filter_cons_of_neg (Bool.eq_false_iff.mp noBullet),
    List.filter_cons_of_neg (by decide), List.filter_flatMap, List.map_flatMap]
  congr 1
  funext g
  exact filter_groupLines

theorem title_mem_groupLines_iff :
    "## " ++ other ∈ groupLines title group ↔ other = title ∧ group ≠ [] := by
  have notEmpty : ("## " ++ other : Text) ≠ [] := List.cons_ne_nil _ _
  have noBullet : ("## " ++ other : Text) ∉ group.map bullet := by
    intro hm
    obtain ⟨m, -, eq⟩ := List.mem_map.mp hm
    cases eq
  have same : ("## " ++ other : Text) = "## " ++ title ↔ other = title := List.append_right_inj _
  rw [groupLines]
  split
  · next none => simp only [none, List.not_mem_nil, ne_eq, not_true_eq_false, and_false]
  · next some_messages =>
    rw [List.cons_append, List.mem_cons, List.cons_append, List.mem_cons, List.mem_append,
      List.mem_singleton, same]
    simp only [notEmpty, noBullet, some_messages, or_false, ne_eq, not_false_eq_true, and_true]

theorem title_mem_pageLines_iff :
    "## " ++ other ∈ pageLines title groups ↔ ∃ g ∈ groups, other = g.1 ∧ g.2 ≠ [] := by
  have notTitle : ("## " ++ other : Text) ≠ "# " ++ title := by
    intro eq
    cases eq
  have notEmpty : ("## " ++ other : Text) ≠ [] := List.cons_ne_nil _ _
  rw [pageLines, List.mem_cons, List.mem_cons, or_iff_right notTitle, or_iff_right notEmpty,
    List.mem_flatMap]
  simp only [title_mem_groupLines_iff]

theorem feed_not_mem_bullet {m : Message} (name : '\n' ∉ m.name) (short : '\n' ∉ m.short) :
    '\n' ∉ bullet m := by
  have remark : '\n' ∉ remark m := by
    rw [remark]
    by_cases none : m.short = []
    · simp [none]
    · simp [none, short]
  simp [bullet, link, name, remark]

theorem feed_not_mem_groupLines (plain : '\n' ∉ title)
    (oneLine : ∀ m ∈ group, '\n' ∉ m.name ∧ '\n' ∉ m.short) :
    ∀ line ∈ groupLines title group, '\n' ∉ line := by
  have bullets : ∀ line ∈ group.map bullet, '\n' ∉ line := by
    intro line hl
    obtain ⟨m, hm, rfl⟩ := List.mem_map.mp hl
    exact feed_not_mem_bullet (oneLine m hm).1 (oneLine m hm).2
  rw [groupLines]
  split
  · simp
  · rw [List.forall_mem_append, List.forall_mem_cons, List.forall_mem_cons]
    exact ⟨⟨by simp [plain], by simp, bullets⟩, by simp⟩

/-- Lines stay lines where the titles, the names and the short descriptions are on one line. -/
theorem feed_not_mem_pageLines (plain : '\n' ∉ title) (plains : ∀ g ∈ groups, '\n' ∉ g.1)
    (oneLine : ∀ g ∈ groups, ∀ m ∈ g.2, '\n' ∉ m.name ∧ '\n' ∉ m.short) :
    ∀ line ∈ pageLines title groups, '\n' ∉ line := by
  rw [pageLines, List.forall_mem_cons, List.forall_mem_cons]
  refine ⟨by simp [plain], by simp, ?_⟩
  intro line hl
  obtain ⟨g, hg, hl⟩ := List.mem_flatMap.mp hl
  exact feed_not_mem_groupLines (plains g hg) (oneLine g hg) line hl

end

/-! ## The index -/

/-- **The index** of any messages has one bullet for each of them, under the heading of its kind and
in the order of names, and it does not depend on the order of messages with different names. -/
theorem lists_once (context : Context) (messages : List Message) :
    (∃ versioned unversioned lines,
      IsGroup messages (·.isVersioned) versioned ∧
      IsGroup messages (!·.isVersioned) unversioned ∧
      lines = pageLines context.title
        [(versionedTitle, versioned), (unversionedTitle, unversioned)] ∧
      render context messages = Header.endLines lines ∧
      (lines.filter (Text.startsWith "- ")).Perm (messages.map bullet) ∧
      ("## " ++ versionedTitle ∈ lines ↔ ∃ m ∈ messages, m.isVersioned = true) ∧
      ("## " ++ unversionedTitle ∈ lines ↔ ∃ m ∈ messages, m.isVersioned = false) ∧
      ('\n' ∉ context.title → (∀ m ∈ messages, '\n' ∉ m.name ∧ '\n' ∉ m.short) →
        Text.split (· == '\n') (render context messages) = lines ++ [[]])) ∧
    ∀ others : List Message, others.Perm messages → (messages.map Message.name).Nodup →
      render context others = render context messages := by
  refine ⟨?_, fun others perm nodup => by rw [render, render, sorted_perm perm nodup]⟩
  obtain ⟨versioned, unversioned, inFirst, inSecond, rendered⟩ := exists_groups messages context
  have whole : (versioned ++ unversioned).Perm messages := inFirst.append_perm inSecond
  have apart : versionedTitle ≠ unversionedTitle := by decide
  refine ⟨versioned, unversioned, _, inFirst, inSecond, rfl, rendered, ?_, ?_, ?_, ?_⟩
  · rw [filter_pageLines]
    simpa using whole.map bullet
  · rw [title_mem_pageLines_iff, ← inFirst.ne_nil_iff]
    simp [apart]
  · rw [title_mem_pageLines_iff]
    simpa [apart.symm] using inSecond.ne_nil_iff
  · intro plain oneLine
    rw [rendered]
    have titles : '\n' ∉ versionedTitle ∧ '\n' ∉ unversionedTitle := by decide
    refine Text.split_endLines (feed_not_mem_pageLines plain (by simp [titles]) ?_)
    have listed : ∀ m ∈ versioned ++ unversioned, '\n' ∉ m.name ∧ '\n' ∉ m.short :=
      fun m hm => oneLine m (whole.mem_iff.mp hm)
    simpa [or_imp, forall_and] using listed

/-- A message without contents, of which the index shows no more than this. -/
def blankMessage (path : Path) (short : Text) : Message where
  name := Message.nameOfPath path
  path := path
  short := short
  long := []
  fields := []
  enums := []
  constants := []
  source := []

def shuffled : List Message :=
  [blankMessage ⟨"é.msg"⟩ [], blankMessage ⟨"versioned/b.msg"⟩ "Beta.", blankMessage ⟨"z.msg"⟩ [],
    blankMessage ⟨"versioned/B.msg"⟩ []]

def shuffledContext : Context :=
  Context.ofMessages shuffled none "Pages"

theorem shuffled_listed_once :
    ∃ lines : List Text, lines.filter (Text.startsWith "- ") =
        ["- [B](B.md)", "- [b](b.md) — Beta.", "- [z](z.md)", "- [é](é.md)"] ∧
      (lines.filter (Text.startsWith "- ")).Perm (shuffled.map bullet) ∧
      Text.split (· == '\n') (render shuffledContext shuffled) = lines ++ [[]] ∧
      shuffled.reverse.Perm shuffled ∧ (shuffled.map Message.name).Nodup ∧
      render shuffledContext shuffled.reverse = render shuffledContext shuffled := by
  obtain ⟨⟨versioned, unversioned, lines, -, -, -, rendered, bullets, -, -, cut⟩, same⟩ :=
    lists_once shuffledContext shuffled
  have perm : shuffled.reverse.Perm shuffled := List.reverse_perm shuffled
  have nodup : (shuffled.map Message.name).Nodup := by decide +kernel
  have split := cut (by decide) (by decide +kernel)
  refine ⟨lines, ?_, bullets, split, perm, nodup, same _ perm nodup⟩
  have lines_eq : lines = (lines ++ [[]]).dropLast := List.dropLast_concat.symm
  rw [lines_eq, ← split]
  decide +kernel

end MessageDocs.Page.Index
