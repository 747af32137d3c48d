import MessageDocs.Proofs.Schema.Conservation
import MessageDocs.Proofs.Schema.Layout

/-! # Every body line is accounted for once

A line after the header starts with the topics mark, is another comment, is blank, or declares
something; what a reading yields is listed here by these four kinds, in the order of the lines.
-/

set_option autoImplicit false

namespace MessageDocs.Schema

/-! ## Kinds of body lines -/

def NumberedLine.startsTopics (l : NumberedLine) : Bool :=
  Text.startsWith topicsMark l.text

/-- What follows the first mark of a comment line. -/
def NumberedLine.commentText (l : NumberedLine) : Text :=
  Text.trim l.text.tail

/-- Whether a line is a comment with text that starts no topics section. -/
def NumberedLine.isStray (l : NumberedLine) : Bool :=
  l.isComment && !l.startsTopics && !l.commentText.isEmpty

/-- Whether a line is neither blank nor a comment. -/
def NumberedLine.isDeclaration (l : NumberedLine) : Bool :=
  !l.isBlank && !l.isComment

theorem isDeclaration_iff {l : NumberedLine} :
    l.isDeclaration = true ↔ BodyLine.ofText l.text = .declaration l.text := by
  rw [ofText_eq_declaration_iff]
  simp [NumberedLine.isDeclaration, NumberedLine.isBlank, NumberedLine.isComment]

theorem ofText_eq_comment {l : NumberedLine} (comment : l.isComment = true)
    (other : l.startsTopics = false) : BodyLine.ofText l.text = .comment l.commentText := by
  have head : l.text.head? = some '#' := by simpa [NumberedLine.isComment] using comment
  obtain ⟨rest, text_eq⟩ := List.head?_eq_some_iff.mp head
  rw [NumberedLine.startsTopics] at other
  unfold BodyLine.ofText
  rw [if_neg (by simp [other]), NumberedLine.commentText, text_eq]
  rfl

/-! ## Remarks by their code -/

theorem unitRemarks_code {options : ReadOptions} {path : Path} {f : Field} {d : Diagnostic}
    (h : d ∈ unitRemarks options path f) : d.code = Diagnostic.unknownUnit := by
  unfold unitRemarks at h
  split at h
  · cases h
  · split at h
    · cases h
    · rw [List.mem_singleton.mp h]
      rfl

/-- The codes of the three kinds of remarks that lines can raise, and those of finished messages. -/
theorem codes_apart :
    Diagnostic.topics ≠ Diagnostic.internalComment ∧ Diagnostic.unknownUnit ≠ Diagnostic.topics ∧
      Diagnostic.unknownUnit ≠ Diagnostic.internalComment ∧
      Diagnostic.unassociated ≠ Diagnostic.topics ∧
      Diagnostic.unassociated ≠ Diagnostic.internalComment ∧
      Diagnostic.emptyEnum ≠ Diagnostic.topics ∧
      Diagnostic.emptyEnum ≠ Diagnostic.internalComment := by
  decide +kernel

/-- A declaration raises no remark but on its unit. -/
theorem remarksOn_declaration_code {options : ReadOptions} {path : Path} {l : NumberedLine}
    (h : BodyLine.ofText l.text = .declaration l.text) {d : Diagnostic}
    (hd : d ∈ remarksOn options path l) : d.code = Diagnostic.unknownUnit := by
  unfold remarksOn at hd
  rw [h] at hd
  dsimp only at hd
  split at hd
  · exact unitRemarks_code hd
  · cases hd

/-- The four kinds of lines, each with what is remarked on it. -/
theorem remarksOn_cases (options : ReadOptions) (path : Path) (l : NumberedLine) :
    (l.startsTopics = true ∧ l.isStray = false ∧
      remarksOn options path l = [topicsRemark path l.number]) ∨
    (l.startsTopics = false ∧ l.isStray = true ∧
      remarksOn options path l = [commentRemark path l.number l.commentText]) ∨
    (l.startsTopics = false ∧ l.isStray = false ∧
      ∀ d ∈ remarksOn options path l, d.code = Diagnostic.unknownUnit) := by
  by_cases topics : l.startsTopics = true
  · refine Or.inl ⟨topics, by simp [NumberedLine.isStray, topics], ?_⟩
    rw [remarksOn, ofText_eq_topics_iff.mpr topics]
  · rw [Bool.not_eq_true] at topics
    refine Or.inr ?_
    by_cases comment : l.isComment = true
    · by_cases silent : l.commentText = []
      · refine Or.inr ⟨topics, by simp [NumberedLine.isStray, silent], ?_⟩
        rw [remarksOn, ofText_eq_comment comment topics]
        simp [silent]
      · refine Or.inl ⟨topics, by simp [NumberedLine.isStray, topics, comment, silent], ?_⟩
        rw [remarksOn, ofText_eq_comment comment topics]
        exact if_neg silent
    · rw [Bool.not_eq_true] at comment
      refine Or.inr ⟨topics, by simp [NumberedLine.isStray, comment], ?_⟩
      by_cases blank : l.isBlank = true
      · have text_eq : l.text = [] := List.isEmpty_iff.mp blank
        intro d hd
        rw [remarksOn, text_eq] at hd
        cases hd
      · have declares : l.isDeclaration = true := by
          simp [NumberedLine.isDeclaration, blank, comment]
        exact fun d hd => remarksOn_declaration_code (isDeclaration_iff.mp declares) hd

theorem filter_code_eq_nil {ds : List Diagnostic} {code other : Text}
    (h : ∀ d ∈ ds, d.code = other) (apart : other ≠ code) : ds.filter (·.code = code) = [] := by
  rw [List.filter_eq_nil_iff]
  intro d hd
  simpa [h d hd] using apart

/-- The line that a declaration stands on. -/
def lineOf : Declared → Nat
  | .field f => f.line
  | .constant c => c.line

end MessageDocs.Schema
