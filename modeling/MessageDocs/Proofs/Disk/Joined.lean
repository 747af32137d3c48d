import MessageDocs.Proofs.Disk
import MessageDocs.Proofs.Disk.Target
import MessageDocs.Proofs.Path.Names

/-! # Following a path that goes on from a directory

A path that is joined to the path of a directory is followed from where that directory is.

* `Disk.locate_join_eq`: where such a path leads.
* `Disk.exists_location`: a directory in which something can be found has a location.
* `Disk.walk_names`: the names of a directory below lead to it.
-/

set_option autoImplicit false

namespace MessageDocs

open MessageDocs.Path

namespace Disk

/-! ## Segments one after the other -/

theorem walk_append (t : FileTree) (loc : Location) (a b : List Text) :
    walk t loc (a ++ b) = (walk t loc a).bind (walk t · b) := by
  induction a generalizing loc with
  | nil => rfl
  | cons segment a ih =>
    rw [List.cons_append, walk, walk]
    split
    · rfl
    · rfl
    · split
      · exact ih _
      · split
        · rfl
        · exact ih _
      · exact ih _

theorem walk_nil_segment {t : FileTree} {loc l : Location} (h : walk t loc [[]] = .ok l) :
    l = loc := by
  rw [walk] at h
  split at h
  · cases h
  · cases h
  · cases h
    rfl

/-- Segments that may be followed by an empty one lead where they lead without it. -/
theorem walk_of_concat_nil {t : FileTree} {loc l : Location} {a b : List Text}
    (same : b = a ∨ b = a ++ [[]]) (h : walk t loc b = .ok l) : walk t loc a = .ok l := by
  rcases same with rfl | rfl
  · exact h
  · rw [walk_append] at h
    cases led : walk t loc a with
    | error e =>
      rw [led] at h
      cases h
    | ok l' =>
      rw [led] at h
      rw [walk_nil_segment h]

theorem leave_append {k : Nat} {a rest : List Text} (h : leave k a = .ok (some rest))
    (b : List Text) : leave k (a ++ b) = .ok (some (rest ++ b)) := by
  induction a generalizing k with
  | nil =>
    cases k with
    | zero =>
      cases h
      rw [leave]
    | succ k => cases h
  | cons segment a ih =>
    cases k with
    | zero =>
      rw [leave] at h
      cases h
      rw [leave]
    | succ k =>
      rw [leave] at h
      rw [List.cons_append, leave]
      split at h
      · exact ih h
      · cases h
      · exact ih h

/-- An empty segment at the end leaves no directory. -/
theorem leave_concat_nil (k : Nat) (a : List Text) :
    leave k (a ++ [[]]) = (leave k a).map (Option.map (· ++ [[]])) := by
  induction a generalizing k with
  | nil => cases k <;> rfl
  | cons segment a ih =>
    cases k with
    | zero =>
      rw [leave, leave]
      rfl
    | succ k =>
      rw [List.cons_append, leave, leave]
      split
      · exact ih k
      · rfl
      · exact ih (k + 1)

theorem leave_of_concat_nil {k : Nat} {a b : List Text} (same : b = a ∨ b = a ++ [[]])
    {left : Option (List Text)} (h : leave k b = .ok left) :
    ∃ rest, leave k a = .ok rest ∧ (left = rest ∨ left = rest.map (· ++ [[]])) := by
  rcases same with rfl | rfl
  · exact ⟨left, h, Or.inl rfl⟩
  · rw [leave_concat_nil] at h
    cases led : leave k a with
    | error e =>
      rw [led] at h
      cases h
    | ok rest =>
      rw [led] at h
      cases h
      exact ⟨rest, rfl, Or.inr rfl⟩

/-- In a removed directory nothing has a name. -/
theorem leave_concat_name {n : Text} (named : Component.ofSegment? n = some (.name n)) {k : Nat}
    {a : List Text} (h : leave k a = .ok none) : leave k (a ++ [n]) = .error .notFound := by
  induction a generalizing k with
  | nil =>
    cases k with
    | zero => cases h
    | succ k =>
      rw [List.nil_append, leave, named]
  | cons segment a ih =>
    cases k with
    | zero =>
      rw [leave] at h
      cases h
    | succ k =>
      rw [leave] at h
      rw [List.cons_append, leave]
      split at h
      · exact ih h
      · cases h
      · exact ih h

/-! ## Going on from a directory -/

/-- Segments of a joined path lead on from where those of the first one do. -/
theorem walk_join {t : FileTree} {loc base : Location} {p q : Path}
    (relative : q.isAbsolute = false) (led : walk t loc (segmentsOf p.text) = .ok base) :
    walk t loc (segmentsOf (p.join q).text) = walk t base (segmentsOf q.text) := by
  obtain ⟨before, joined, same⟩ := exists_segmentsOf_join p relative
  rw [joined, walk_append, walk_of_concat_nil same led]
  rfl

theorem text_ne_nil_of_locate {d : Disk} {p : Path} {dest : Destination}
    (led : d.locate p = .ok dest) : p.text ≠ [] := by
  intro empty
  rw [locate, follow, if_pos empty] at led
  cases led

section

variable {d : Disk} {root q : Path} {base : Location}

/-- **A path that is joined** to the path of a directory leads on from it. -/
theorem locate_join_eq (led : d.locate root = .ok (.location base))
    (relative : q.isAbsolute = false) (plain : '\x00' ∉ q.text)
    (usable : isUsable (root.join q) = true) :
    d.locate (root.join q) = (walk d.tree base (segmentsOf q.text)).map .location := by
  obtain ⟨before, joined, same⟩ := exists_segmentsOf_join root relative
  have onward : ∀ {start : Location} {segments : List Text}, walk d.tree start segments = .ok base →
      walk d.tree start (segments ++ segmentsOf q.text) = walk d.tree base (segmentsOf q.text) := by
    intro start segments reached
    rw [walk_append, reached]
    rfl
  rw [locate, follow] at led
  split at led
  · cases led
  next some_text =>
  split at led
  · cases led
  next noNul =>
  split at led
  · cases led
  have joined_text : (root.join q).text ≠ [] := by
    rcases join_of_not_isAbsolute (p := root) relative with ⟨eq, -⟩ | ⟨eq, -⟩ <;> rw [eq] <;>
      simp [some_text]
  have joined_noNul : ¬(root.join q).text.contains '\x00' = true := by
    rcases join_of_not_isAbsolute (p := root) relative with ⟨eq, -⟩ | ⟨eq, -⟩ <;> rw [eq] <;>
      simpa [plain] using noNul
  rw [locate, follow, if_neg joined_text, if_neg joined_noNul, if_neg (by simp [usable]),
    isAbsolute_join relative, joined]
  split at led
  · next absolute =>
    rw [if_pos absolute]
    cases reached : walk d.tree [] (segmentsOf root.text) with
    | error e =>
      rw [reached] at led
      cases led
    | ok l =>
      rw [reached] at led
      cases led
      rw [onward (walk_of_concat_nil same reached)]
  · next notAbsolute =>
    rw [if_neg notAbsolute]
    rw [walkFromCwd] at led ⊢
    split at led
    · cases led
    · cases led
    · next rest left =>
      obtain ⟨out, left_before, same_rest⟩ := leave_of_concat_nil same left
      cases reached : walk d.tree d.kept rest with
      | error e =>
        rw [reached] at led
        cases led
      | ok l =>
        rw [reached] at led
        cases led
        cases out with
        | none => rcases same_rest with h | h <;> cases h
        | some out =>
          have trailing : rest = out ∨ rest = out ++ [[]] := by simpa using same_rest
          rw [leave_append left_before]
          dsimp only
          rw [onward (walk_of_concat_nil trailing reached)]

theorem leave_of_removedDirectory (led : d.locate root = .ok .removedDirectory) :
    root.isAbsolute = false ∧ leave d.removed (segmentsOf root.text) = .ok none := by
  have walked : ∀ {e : Except AccessError Location}, e.map Destination.location ≠
      .ok .removedDirectory := by
    intro e
    cases e <;> simp [Except.map]
  rw [locate, follow] at led
  split at led
  · cases led
  · split at led
    · cases led
    · split at led
      · cases led
      · split at led
        · exact absurd led walked
        · next relative =>
          rw [walkFromCwd] at led
          split at led
          · cases led
          · next left => exact ⟨Bool.eq_false_iff.mpr relative, left⟩
          · exact absurd led walked

/-- A directory in which something has a place has a location itself. -/
theorem exists_location {n : Text} (name : IsName n) (dir : d.isDirectory root = true)
    {loc : Location} (led : d.locate (root.join ⟨n⟩) = .ok (.location loc)) :
    ∃ base, d.locate root = .ok (.location base) ∧ d.tree.node? base = some .directory := by
  have relative := isAbsolute_name name
  obtain ⟨before, joined, same⟩ := exists_segmentsOf_join root relative
  have single : segmentsOf n = [n] := Text.split_eq_singleton_of_not_mem (not_mem_of_isName name)
  rcases node_eq_ok_iff.mp (isDirectory_iff.mp dir) with ⟨root_led, -⟩ | there
  · obtain ⟨root_relative, left⟩ := leave_of_removedDirectory root_led
    obtain ⟨out, left_before, same_rest⟩ := leave_of_concat_nil same left
    have gone : out = none := by
      cases out with
      | none => rfl
      | some out => rcases same_rest with h | h <;> cases h
    rw [gone] at left_before
    have lost : leave d.removed (segmentsOf (root.join ⟨n⟩).text) = .error .notFound := by
      rw [joined, single]
      exact leave_concat_name name.1 left_before
    have joined_relative : (root.join ⟨n⟩).isAbsolute = false :=
      (isAbsolute_join relative).trans root_relative
    rw [locate, follow, walkFromCwd, lost, joined_relative] at led
    split at led
    · cases led
    · split at led
      · cases led
      · split at led <;> cases led
  · exact there

/-! ## The way down to a directory -/

/-- Names lead down to the directory they are the names of. -/
theorem walk_names {t : FileTree} {loc names : Location}
    (h : t.node? (loc ++ names) = some .directory)
    (are_names : ∀ n ∈ names, IsName n) (short : ∀ n ∈ names, n.byteLength ≤ longestName) :
    walk t loc names = .ok (loc ++ names) := by
  induction names generalizing loc with
  | nil => rw [walk, List.append_nil]
  | cons n names ih =>
    obtain ⟨name, are_names⟩ := List.forall_mem_cons.mp are_names
    obtain ⟨short_n, short⟩ := List.forall_mem_cons.mp short
    have here := FileTree.directory_of_node? (List.cons_ne_nil n names) h
    have next : loc ++ n :: names = (loc ++ [n]) ++ names := by
      rw [List.append_assoc, List.singleton_append]
    rw [next] at h ⊢
    rw [walk, here, name.1]
    dsimp only
    rw [if_neg (Nat.not_lt.mpr short_n)]
    exact ih h are_names short

/-- A segment that leads nowhere stays in a directory. -/
theorem walk_stay {t : FileTree} {loc : Location} (h : t.node? loc = some .directory) {s : Text}
    (nowhere : Component.ofSegment? s = none) : walk t loc [s] = .ok loc := by
  rw [walk, h, nowhere]
  rfl

end

end Disk

end MessageDocs
