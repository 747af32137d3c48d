import MessageDocs.Proofs.Manifest.Pattern
import MessageDocs.Proofs.Path.Ancestors

/-! # Patterns for directories

A pattern for a directory is matched against the text of a path, but with a slash on either side of
the directory. So it excludes a path that goes through the directory, and no path that only goes
through another one whose name begins or ends in the same way.

* `Manifest.Pattern.isUnder_iff_segments`: where a directory stands among the segments of a path.
* `Manifest.excludes_directory_iff`: the paths that a pattern for a directory excludes.
-/

set_option autoImplicit false

namespace MessageDocs

open MessageDocs.Path

theorem Text.before?_eq_some_iff {tail t start : Text} :
    before? tail t = some start ↔ t = start ++ tail := by
  rw [before?, Option.map_eq_some_iff]
  constructor
  · rintro ⟨rest, found, rfl⟩
    rw [← List.reverse_inj, ← List.isPrefixOf?_eq_some_iff_append_eq.mp found]
    simp
  · rintro rfl
    refine ⟨start.reverse, List.isPrefixOf?_eq_some_iff_append_eq.mpr ?_, List.reverse_reverse _⟩
    exact List.reverse_append.symm

namespace Manifest

namespace Pattern

variable {dir path : Text}

/-! ## Where a directory stands in a path -/

/-- A slash in front of the whole path spares the case of a directory at its start. -/
theorem isUnder_iff_slashed :
    isUnder dir path = true ↔ '/' :: (dir ++ ['/']) <:+: '/' :: path := by
  rw [isUnder_iff, List.infix_cons_iff, List.prefix_cons_inj]

theorem segmentsOf_append_slash (a b : Text) :
    segmentsOf (a ++ '/' :: b) = segmentsOf a ++ segmentsOf b :=
  Text.split_append_cons (by rfl) a b

theorem slashed_infix_iff {t : Text} :
    '/' :: (dir ++ ['/']) <:+: t ↔ ∃ before after : List Text, before ≠ [] ∧ after ≠ [] ∧
      before ++ (segmentsOf dir ++ after) = segmentsOf t := by
  constructor
  · rintro ⟨pre, post, rfl⟩
    refine ⟨segmentsOf pre, segmentsOf post, Text.split_ne_nil _ pre, Text.split_ne_nil _ post, ?_⟩
    rw [List.append_assoc, List.cons_append, List.append_assoc, List.singleton_append,
      segmentsOf_append_slash, segmentsOf_append_slash]
  · rintro ⟨before, after, some_before, some_after, segments⟩
    have some_dir : segmentsOf dir ≠ [] := Text.split_ne_nil _ dir
    have dir_eq : Text.join "/" (segmentsOf dir) = dir := Text.join_split '/' dir
    refine ⟨Text.join "/" before, Text.join "/" after, ?_⟩
    calc Text.join "/" before ++ '/' :: (dir ++ ['/']) ++ Text.join "/" after
      _ = Text.join "/" (before ++ (segmentsOf dir ++ after)) := by
          rw [Text.join_append some_before (by simp [some_after]),
            Text.join_append some_dir some_after, dir_eq]
          simp
      _ = t := by
          rw [segments]
          exact Text.join_split '/' t

/-- **A path lies in a directory** if the segments of the directory follow each other among its
own, before the last one. -/
theorem isUnder_iff_segments :
    isUnder dir path = true ↔ segmentsOf dir <:+: (segmentsOf path).dropLast := by
  rw [isUnder_iff_slashed, slashed_infix_iff, segmentsOf_cons_slash]
  constructor
  · rintro ⟨before, after, some_before, some_after, segments⟩
    obtain ⟨first, before, rfl⟩ := List.exists_cons_of_ne_nil some_before
    obtain ⟨after, last, rfl⟩ := (List.eq_nil_or_concat' after).resolve_left some_after
    rw [List.cons_append, List.cons.injEq] at segments
    rw [← segments.2, ← List.append_assoc, ← List.append_assoc, List.dropLast_concat]
    exact ⟨before, after, rfl⟩
  · rintro ⟨before, after, among⟩
    obtain ⟨others, last, path_eq⟩ :=
      (List.eq_nil_or_concat' (segmentsOf path)).resolve_left (Text.split_ne_nil _ path)
    rw [path_eq, List.dropLast_concat] at among
    refine ⟨[] :: before, after ++ [last], List.cons_ne_nil _ _, by simp, ?_⟩
    rw [path_eq, ← among]
    simp

/-! ## Patterns with a directory in them -/

theorem ruleOf_anywhere (dir : Text) : ruleOf ("**/" ++ dir ++ "/*") = .under dir := by
  have start : Text.after? "**/" ("**/" ++ dir ++ "/*") = some (dir ++ "/*") :=
    Text.after?_eq_some_iff.mpr (List.append_assoc _ _ _)
  have ending : Text.before? "/*" (dir ++ "/*") = some dir := Text.before?_eq_some_iff.mpr rfl
  unfold ruleOf
  rw [start]
  dsimp only
  rw [ending]

/-- Only where the first segment is `**` is it taken for the start of another form. -/
theorem ruleOf_directory (h : (segmentsOf dir).head? ≠ some "**") :
    ruleOf (dir ++ "/*") = .under dir := by
  have start : Text.after? "**/" (dir ++ "/*") = none := by
    rw [Option.eq_none_iff_forall_ne_some]
    intro rest found
    have cut := congrArg segmentsOf (Text.after?_eq_some_iff.mp found)
    have own : segmentsOf (dir ++ "/*") = segmentsOf dir ++ [['*']] :=
      segmentsOf_append_slash dir ['*']
    have other : segmentsOf ("**/" ++ rest) = ['*', '*'] :: segmentsOf rest :=
      segmentsOf_append_slash ['*', '*'] rest
    obtain ⟨first, more, dir_eq⟩ := List.exists_cons_of_ne_nil (Text.split_ne_nil (· == '/') dir)
    rw [own, other, segmentsOf, dir_eq, List.cons_append, List.cons.injEq] at cut
    rw [segmentsOf, dir_eq, cut.1] at h
    exact h rfl
  have ending : Text.before? "/*" (dir ++ "/*") = some dir := Text.before?_eq_some_iff.mpr rfl
  have slash : (dir ++ "/*").contains '/' = true := by simp
  unfold ruleOf
  rw [start, ending, slash]
  dsimp only [if_true]
  split <;> rfl

/-- The pattern for a directory by the names on the way to it. -/
def directory (dirs : List Text) : Text :=
  Text.join "/" dirs ++ "/*"

/-- The same directory, said to be anywhere. -/
def anywhere (dirs : List Text) : Text :=
  "**/" ++ Text.join "/" dirs ++ "/*"

section

variable {dirs names : List Text} (some_dirs : dirs ≠ []) (plain : ∀ d ∈ dirs, '/' ∉ d)

include some_dirs plain

theorem isUnder_join_iff (plain_names : ∀ n ∈ names, '/' ∉ n) :
    isUnder (Text.join "/" dirs) (ofNames names).text = true ↔ dirs <:+: names.dropLast := by
  have own : segmentsOf (Text.join "/" dirs) = dirs := Text.split_join plain some_dirs
  have before_last : (segmentsOf (Text.join "/" names)).dropLast = names.dropLast := by
    by_cases none : names = []
    · rw [none]
      rfl
    · exact congrArg List.dropLast (Text.split_join plain_names none)
  rw [isUnder_iff_segments, own, ofNames, before_last]

theorem ruleOf_directory_eq_anywhere (h : dirs.head? ≠ some "**") :
    ruleOf (directory dirs) = ruleOf (anywhere dirs) := by
  have own : segmentsOf (Text.join "/" dirs) = dirs := Text.split_join plain some_dirs
  rw [directory, anywhere, ruleOf_anywhere]
  exact ruleOf_directory (by rwa [own])

end

end Pattern

open Pattern

theorem isExcluded_singleton (m : Manifest) (pattern : Text) (path : Path) :
    { m with excludes := [pattern] }.isExcluded path = Pattern.excludes pattern path.text :=
  Bool.or_false _

/-- **A pattern for a directory** excludes the paths that go through it, wherever its names follow
each other. It means the same with and without `**/` in front of it, and a directory with one name
is not taken for one whose name begins or ends with that name, nor for a file. -/
theorem excludes_directory_iff (m : Manifest) {dirs : List Text} (some_dirs : dirs ≠ [])
    (plain : ∀ d ∈ dirs, '/' ∉ d) :
    (∀ names : List Text, (∀ n ∈ names, '/' ∉ n) →
      ({ m with excludes := [anywhere dirs] }.isExcluded (ofNames names) = true ↔
        dirs <:+: names.dropLast)) ∧
    (dirs.head? ≠ some "**" → ∀ path,
      { m with excludes := [directory dirs] }.isExcluded path =
        { m with excludes := [anywhere dirs] }.isExcluded path) ∧
    ∀ name, dirs = [name] → ∀ names : List Text, (∀ n ∈ names, '/' ∉ n) → name ∉ names.dropLast →
      { m with excludes := [anywhere dirs] }.isExcluded (ofNames names) = false := by
  have through : ∀ names : List Text, (∀ n ∈ names, '/' ∉ n) →
      ({ m with excludes := [anywhere dirs] }.isExcluded (ofNames names) = true ↔
        dirs <:+: names.dropLast) := by
    intro names plain_names
    rw [isExcluded_singleton, Pattern.excludes, anywhere, ruleOf_anywhere]
    exact isUnder_join_iff some_dirs plain plain_names
  refine ⟨through, ?_, ?_⟩
  · intro plain_start path
    rw [isExcluded_singleton, isExcluded_singleton, Pattern.excludes, Pattern.excludes,
      ruleOf_directory_eq_anywhere some_dirs plain plain_start]
  · rintro name rfl names plain_names elsewhere
    rw [← Bool.not_eq_true, through names plain_names, List.singleton_infix_iff]
    exact elsewhere

theorem tmp_excluded :
    let anywhere : Manifest := { excludes := ["**/tmp/*"] }
    let directory : Manifest := { excludes := ["tmp/*"] }
    (anywhere.isExcluded (ofNames ["a", "tmp", "X.msg"]) = true ∧
      anywhere.isExcluded (ofNames ["mytmp", "X.msg"]) = false ∧
      anywhere.isExcluded (ofNames ["tmp2", "X.msg"]) = false ∧
      anywhere.isExcluded (ofNames ["a", "tmp"]) = false) ∧
    ∀ path, directory.isExcluded path = anywhere.isExcluded path := by
  obtain ⟨through, same, apart⟩ := @excludes_directory_iff {} ["tmp"] (by decide) (by decide)
  refine ⟨⟨?_, ?_, ?_, ?_⟩, ?_⟩
  · exact (through _ (by decide)).mpr (by decide)
  · exact apart _ rfl _ (by decide) (by decide)
  · exact apart _ rfl _ (by decide) (by decide)
  · exact apart _ rfl _ (by decide) (by decide)
  · exact same (by decide)

end Manifest

end MessageDocs
