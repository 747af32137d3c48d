import MessageDocs.Message.Schema
import MessageDocs.Proofs.Text.Words

/-! # Headers are read back as they are written

The descriptions that were read from header lines have one blank between their words, and there is
no long one without a short one. Such descriptions are written as comment lines, and the text behind
the marks of these lines stands for them again.
-/

set_option autoImplicit false

namespace MessageDocs

open Text

namespace Header

/-- Descriptions that are read back from their comment lines. -/
structure IsPlain (h : Header) : Prop where
  short : Collapsed h.short
  long : ∃ lines, h.long = endLines lines ∧ ∀ line ∈ lines, Collapsed line
  empty : h.short = [] → h.long = []

theorem map_trim_eq_self {lines : List Text} (h : ∀ line ∈ lines, Collapsed line) :
    lines.map trim = lines :=
  (List.map_congr_left fun line hl => trim_eq_self (h line hl).toIsTrimmed).trans (List.map_id _)

theorem isPlain_ofLines {lines : List Text} (h : ∀ line ∈ lines, Collapsed line) :
    (ofLines lines).IsPlain := by
  rw [ofLines, map_trim_eq_self h]
  have text : ∀ line ∈ lines.dropWhile (· = []), Collapsed line := fun line hl =>
    h line ((List.dropWhile_suffix _).subset hl)
  have words : ∀ line ∈ (lines.dropWhile (· = [])).takeWhile (· ≠ []), Collapsed line ∧ line ≠ [] :=
    fun line hl => ⟨text line ((List.takeWhile_prefix _).subset hl), by
      simpa using List.mem_takeWhile_imp hl⟩
  refine ⟨collapsed_join words, ⟨_, rfl, ?_⟩, ?_⟩
  · intro line hl
    exact text line ((List.dropWhile_suffix _).subset (List.mem_of_mem_tail hl))
  · intro short
    have none : (lines.dropWhile (· = [])).takeWhile (· ≠ []) = [] := by
      by_contra ne
      exact join_ne_nil (fun line hl => (words line hl).2) ne short
    -- the first line left is not blank, so there is none
    have left : lines.dropWhile (· = []) = [] := by
      by_contra ne
      obtain ⟨first, rest, eq⟩ := List.exists_cons_of_ne_nil ne
      have filled := List.head?_dropWhile_not (· = []) lines
      rw [eq] at filled none
      rw [List.takeWhile_cons_of_pos (by simpa using filled)] at none
      cases none
    dsimp only
    rw [left]
    rfl

/-! ## Comment lines -/

/-- What a comment line is for, once the white space of its line is collapsed. -/
theorem collapse_comment {line : Text} (h : Collapsed line) :
    (collapse ("# " ++ line)).head? = some '#' ∧ trim (collapse ("# " ++ line)).tail = line := by
  by_cases empty : line = []
  · rw [empty]
    decide
  · have mark : IsWord ['#'] := isWord_singleton (by decide)
    have whole : Collapsed ("# " ++ line) :=
      mark.collapsed.append_blank h mark.ne_nil empty
    rw [collapse_eq_self whole]
    exact ⟨rfl, trim_cons_blank h.toIsTrimmed⟩

theorem longLines_eq {short : Text} {lines : List Text} (h : ∀ line ∈ lines, Collapsed line) :
    longLines ⟨short, endLines lines⟩ = lines := by
  have feed : ∀ line ∈ lines, '\n' ∉ line := fun line hl =>
    (h line hl).toIsSpaced.not_mem (by decide) (by decide)
  rw [longLines, split_endLines feed, List.dropLast_concat]

theorem ofLines_short {short : Text} (h : Collapsed short) (ne : short ≠ []) :
    ofLines [short] = ⟨short, []⟩ := by
  rw [ofLines, List.map_singleton, trim_eq_self h.toIsTrimmed]
  simp [ne, join, endLines]

theorem ofLines_long {short : Text} {lines : List Text} (h : Collapsed short) (ne : short ≠ [])
    (rest : ∀ line ∈ lines, Collapsed line) :
    ofLines (short :: [] :: lines) = ⟨short, endLines lines⟩ := by
  have all : ∀ line ∈ short :: [] :: lines, Collapsed line := by
    simpa [h, collapsed_nil] using rest
  rw [ofLines, map_trim_eq_self all]
  simp [ne, join]

theorem isSpaced_print {h : Header} (plain : h.IsPlain) : ∀ line ∈ h.print, IsSpaced line := by
  have comment : ∀ text : Text, Collapsed text → IsSpaced ("# " ++ text) := fun text h =>
    (h.toIsSpaced.cons_blank h.start).cons (by decide)
  obtain ⟨short, long⟩ := h
  obtain ⟨lines, rfl, collapsed⟩ := plain.long
  have first := comment short plain.short
  intro line hl
  rw [print] at hl
  split at hl
  · cases hl
  · split at hl
    · rwa [List.mem_singleton.mp hl]
    · rw [longLines_eq collapsed] at hl
      rcases List.mem_cons.mp hl with rfl | hl
      · exact first
      · rcases List.mem_cons.mp hl with rfl | hl
        · exact isSpaced_mark (by decide)
        · obtain ⟨rest, hr, rfl⟩ := List.mem_map.mp hl
          exact comment rest (collapsed rest hr)

/-- The lines that descriptions are written as are comments, with these texts. -/
theorem exists_print {h : Header} (plain : h.IsPlain) :
    ∃ texts, h.print.map collapse = texts.map (fun t => collapse ("# " ++ t)) ∧
      (∀ t ∈ texts, Collapsed t) ∧ ofLines texts = h := by
  obtain ⟨short, long⟩ := h
  obtain ⟨lines, rfl, collapsed⟩ := plain.long
  by_cases noShort : short = []
  · refine ⟨[], by rw [print, if_pos noShort]; rfl, by simp, ?_⟩
    have noLong : endLines lines = [] := plain.empty noShort
    rw [noShort, noLong]
    rfl
  · by_cases noLong : endLines lines = []
    · refine ⟨[short], by rw [print, if_neg noShort, if_pos noLong]; rfl, ?_, ?_⟩
      · simpa using plain.short
      · rw [noLong]
        exact ofLines_short plain.short noShort
    · refine ⟨short :: [] :: lines, ?_, ?_, ofLines_long plain.short noShort collapsed⟩
      · rw [print, if_neg noShort, if_neg noLong, longLines_eq collapsed]
        simp only [List.map_cons, List.map_map]
        rfl
      · simpa [plain.short, collapsed_nil] using collapsed

end Header

end MessageDocs
