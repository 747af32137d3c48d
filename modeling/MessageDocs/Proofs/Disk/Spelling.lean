import MessageDocs.Proofs.Disk.Joined
import MessageDocs.Proofs.Path.Ancestors

/-! # Two spellings of a path

A path that ends with a name is followed by its components: a segment that leads nowhere asks for a
directory where the next name asks for it too. So two spellings of one path lead to one place, as
far as both are short enough.

* `Disk.walk_eq_walkComponents`: segments are followed as their components are.
* `Disk.locate_congr`: two spellings of an absolute path.
* `Disk.locate_of_components`: an absolute path through names.
* `Disk.exists_of_locate_join`: the directory in which a path goes on through names.
-/

set_option autoImplicit false

namespace MessageDocs

open MessageDocs.Path

namespace Path

theorem isPrefix_join (p : Path) {q : Path} (relative : q.isAbsolute = false) :
    p.text <+: (p.join q).text := by
  rw [text_join p relative, slashed]
  split
  · exact List.prefix_append _ _
  · rw [List.append_assoc]
    exact List.prefix_append _ _

/-- The NUL character of a path is in one of its names. -/
theorem nul_mem_iff (t : Text) :
    '\x00' ∈ t ↔ ∃ n, .name n ∈ componentsOf (segmentsOf t) ∧ '\x00' ∈ n := by
  constructor
  · intro nul
    have whole : Text.join "/" (segmentsOf t) = t := Text.join_split '/' t
    rw [← whole] at nul
    rcases Text.mem_join nul with slash | ⟨s, hs, nul⟩
    · cases slash with
      | tail _ h => cases h
    · refine ⟨s, List.mem_filterMap.mpr ⟨s, hs, ?_⟩, nul⟩
      unfold Component.ofSegment?
      rw [if_neg, if_neg]
      · rintro rfl
        simp at nul
      · rintro (rfl | rfl) <;> simp at nul
  · rintro ⟨n, named, nul⟩
    obtain ⟨s, hs, stands⟩ := List.mem_filterMap.mp named
    rw [name_of_ofSegment? stands] at nul
    exact ((Text.infix_of_mem_split t).2 s hs).subset nul

theorem nul_not_mem_of_same {p q : Path} (p_absolute : p.isAbsolute = true)
    (q_absolute : q.isAbsolute = true) (same : p.Same q) (plain : '\x00' ∉ p.text) :
    '\x00' ∉ q.text := by
  rw [Same, components_of_isAbsolute p_absolute, components_of_isAbsolute q_absolute,
    List.cons_inj_right] at same
  rwa [nul_mem_iff, ← same, ← nul_mem_iff]

theorem nul_not_mem_of_names {names : List Text} (h : ∀ n ∈ names, IsName n) :
    ¬∃ n, Component.name n ∈ names.map .name ∧ '\x00' ∈ n := by
  rintro ⟨n, named, nul⟩
  obtain ⟨n, hn, ⟨⟩⟩ := List.mem_map.mp named
  have noNul := (h n hn).2.2
  rw [List.contains_eq_mem, decide_eq_false_iff_not] at noNul
  exact noNul nul

theorem nul_not_mem_join {p : Path} {names : List Text} (plain : '\x00' ∉ p.text)
    (h : ∀ n ∈ names, IsName n) : '\x00' ∉ (p.join (ofNames names)).text := by
  rw [nul_mem_iff] at plain ⊢
  rw [componentsOf_join p (isAbsolute_ofNames h), componentsOf_ofNames h]
  rintro ⟨n, named, nul⟩
  rcases List.mem_append.mp named with before | inside
  · exact plain ⟨n, before, nul⟩
  · exact nul_not_mem_of_names h ⟨n, inside, nul⟩

end Path

namespace Disk

/-- Where a component leads from a directory. -/
def enter (loc : Location) : Component → Except AccessError Location
  | .up => .ok loc.dropLast
  | .name n => if longestName < n.byteLength then .error .nameTooLong else .ok (loc ++ [n])
  | _ => .ok loc

/-- The location that components lead to from another one. -/
def walkComponents (t : FileTree) (loc : Location) :
    List Component → Except AccessError Location
  | [] => .ok loc
  | c :: rest =>
    match t.node? loc with
    | none => .error .notFound
    | some (.file _) => .error .notDirectory
    | some .directory =>
      match enter loc c with
      | .error e => .error e
      | .ok next => walkComponents t next rest

/-- **Segments that end with a name** are followed as their components are. -/
theorem walk_eq_walkComponents (t : FileTree) (loc : Location) {segments : List Text}
    (last : ∀ s ∈ segments.getLast?, isSignificant s = true) :
    walk t loc segments = walkComponents t loc (componentsOf segments) := by
  induction segments generalizing loc with
  | nil => rfl
  | cons s segments ih =>
    have rest : ∀ s ∈ segments.getLast?, isSignificant s = true := by
      intro s' hs
      exact last s' (by rw [List.getLast?_cons, Option.mem_def.mp hs]; rfl)
    cases stands : Component.ofSegment? s with
    | none =>
      -- The segment is not the last one, and the next component asks for the same directory.
      have some_segments : segments ≠ [] := by
        rintro rfl
        have significant := last s rfl
        rw [isSignificant, stands] at significant
        cases significant
      obtain ⟨c, more, eq⟩ :=
        List.exists_cons_of_ne_nil (componentsOf_ne_nil some_segments rest)
      have skipped : componentsOf (s :: segments) = componentsOf segments :=
        List.filterMap_cons_none stands
      rw [walk, stands, skipped]
      dsimp only
      rw [ih loc rest, eq, walkComponents]
      cases t.node? loc with
      | none => rfl
      | some n => cases n <;> rfl
    | some c =>
      have first : componentsOf (s :: segments) = c :: componentsOf segments :=
        List.filterMap_cons_some stands
      rw [walk, stands, first, walkComponents]
      cases t.node? loc with
      | none => rfl
      | some n =>
        cases n with
        | file c => rfl
        | directory =>
          rcases up_or_name_of_ofSegment? stands with rfl | ⟨n, rfl⟩
          · exact ih loc.dropLast rest
          · dsimp only [enter]
            split
            · rfl
            · exact ih (loc ++ [n]) rest

theorem directory_of_walk {t : FileTree} {loc l : Location} {segments : List Text}
    (some_segments : segments ≠ []) (h : walk t loc segments = .ok l) :
    t.node? loc = some .directory := by
  obtain ⟨s, rest, rfl⟩ := List.exists_cons_of_ne_nil some_segments
  rw [walk] at h
  split at h
  · cases h
  · cases h
  · assumption

theorem locate_of_isAbsolute (d : Disk) {p : Path} (absolute : p.isAbsolute = true)
    (usable : isUsable p = true) (plain : '\x00' ∉ p.text) :
    d.locate p = (walk d.tree [] (segmentsOf p.text)).map .location := by
  rw [locate, follow, if_neg (text_ne_nil_of_isAbsolute absolute), if_neg (by simpa using plain),
    if_neg (by simp [usable]), if_pos absolute]

/-- No file is found at a path with a NUL character. -/
theorem nul_not_mem_of_locate {d : Disk} {p : Path} {dest : Destination}
    (h : d.locate p = .ok dest) : '\x00' ∉ p.text := by
  intro nul
  rw [locate, follow] at h
  split at h
  · cases h
  · rw [if_pos (by simpa using nul)] at h
    cases h

/-- An absolute path leads to a location, or nowhere. -/
theorem exists_walk_of_locate {d : Disk} {p : Path} (absolute : p.isAbsolute = true)
    {dest : Destination} (h : d.locate p = .ok dest) :
    ∃ loc, dest = .location loc ∧ walk d.tree [] (segmentsOf p.text) = .ok loc := by
  rw [locate_of_isAbsolute d absolute (isUsable_of_locate h) (nul_not_mem_of_locate h)] at h
  cases walked : walk d.tree [] (segmentsOf p.text) with
  | error e =>
    rw [walked] at h
    cases h
  | ok loc =>
    rw [walked] at h
    cases h
    exact ⟨loc, rfl, rfl⟩

theorem walk_of_locate {d : Disk} {p : Path} (absolute : p.isAbsolute = true) {loc : Location}
    (h : d.locate p = .ok (.location loc)) : walk d.tree [] (segmentsOf p.text) = .ok loc := by
  obtain ⟨loc, ⟨⟩, walked⟩ := exists_walk_of_locate absolute h
  exact walked

theorem directory_at_target {d : Disk} {p : Path} (absolute : p.isAbsolute = true)
    (h : d.isDirectory p = true) : d.tree.node? (p.target d.cwd) = some .directory := by
  rcases node_eq_ok_iff.mp (isDirectory_iff.mp h) with ⟨gone, -⟩ | ⟨loc, led, dir⟩
  · obtain ⟨loc, ⟨⟩, -⟩ := exists_walk_of_locate absolute gone
  · rw [target_of_locate led, dir]

/-- Segments of two spellings that end with a name lead to one place. -/
theorem walk_congr (t : FileTree) {p q : Path} (p_absolute : p.isAbsolute = true)
    (q_absolute : q.isAbsolute = true) (same : p.Same q) (p_ends : p.EndsInName)
    (q_ends : q.EndsInName) : walk t [] (segmentsOf p.text) = walk t [] (segmentsOf q.text) := by
  rw [walk_eq_walkComponents t [] p_ends, walk_eq_walkComponents t [] q_ends]
  rw [Same, components_of_isAbsolute p_absolute, components_of_isAbsolute q_absolute,
    List.cons_inj_right] at same
  rw [same]

/-- **Two spellings** of an absolute path that end with a name lead to one place. -/
theorem locate_congr {d : Disk} {p q : Path} (p_absolute : p.isAbsolute = true)
    (q_absolute : q.isAbsolute = true) (same : p.Same q) (p_ends : p.EndsInName)
    (q_ends : q.EndsInName) (p_usable : isUsable p = true) (q_usable : isUsable q = true)
    (plain : '\x00' ∉ p.text) : d.locate p = d.locate q := by
  rw [locate_of_isAbsolute d p_absolute p_usable plain, locate_of_isAbsolute d q_absolute q_usable
    (nul_not_mem_of_same p_absolute q_absolute same plain),
    walk_congr d.tree p_absolute q_absolute same p_ends q_ends]

/-- A segment that leads nowhere, at the end, asks for a directory. -/
theorem directory_of_walk_concat {t : FileTree} {loc l : Location} {segments : List Text} {s : Text}
    (nowhere : isSignificant s = false) (h : walk t loc (segments ++ [s]) = .ok l) :
    t.node? l = some .directory := by
  have stands : Component.ofSegment? s = none := by
    rwa [isSignificant, Option.isSome_eq_false_iff, Option.isNone_iff_eq_none] at nowhere
  rw [walk_append] at h
  cases led : walk t loc segments with
  | error e =>
    rw [led] at h
    cases h
  | ok l' =>
    rw [led] at h
    have dir := directory_of_walk (List.cons_ne_nil s []) h
    change walk t l' [s] = .ok l at h
    rw [walk_stay dir stands] at h
    cases h
    exact dir

/-- The path of a file ends with its name. -/
theorem endsInName_of_isFile {d : Disk} {p : Path} (absolute : p.isAbsolute = true)
    (h : d.isFile p = true) : p.EndsInName := by
  obtain ⟨loc, c, led, file⟩ := isFile_iff.mp h
  intro s hs
  obtain ⟨before, segments⟩ := List.getLast?_eq_some_iff.mp hs
  have walked := walk_of_locate absolute led
  rw [segments] at walked
  by_contra nowhere
  have dir := directory_of_walk_concat (Bool.eq_false_iff.mpr nowhere) walked
  rw [file] at dir
  cases dir

theorem readText_congr {d : Disk} {p q : Path} (h : d.locate p = d.locate q) :
    d.readText p = d.readText q := by
  rw [readText, readText, node, node, h]

/-! ## Paths through names -/

theorem locate_of_components (d : Disk) {p : Path} (absolute : p.isAbsolute = true)
    (ends : p.EndsInName) (usable : isUsable p = true) {names : List Text}
    (h : ∀ n ∈ names, IsName n) (components : p.components = .root :: names.map .name) :
    d.locate p = (walk d.tree [] names).map .location := by
  rw [components_of_isAbsolute absolute, List.cons_inj_right] at components
  have plain : '\x00' ∉ p.text := by
    rw [nul_mem_iff, components]
    exact nul_not_mem_of_names h
  rw [locate_of_isAbsolute d absolute usable plain, walk_eq_walkComponents d.tree [] ends,
    walk_eq_walkComponents d.tree [] (isWritten_names h).last, components, componentsOf_names h]

theorem walk_names_of_node {t : FileTree} {loc names : Location} {n : Node}
    (h : t.node? (loc ++ names) = some n) (are_names : ∀ n ∈ names, IsName n)
    (short : ∀ n ∈ names, n.byteLength ≤ longestName) :
    walk t loc names = .ok (loc ++ names) := by
  rcases List.eq_nil_or_concat' names with rfl | ⟨before, name, rfl⟩
  · rw [walk, List.append_nil]
  · obtain ⟨before_names, is_name⟩ := List.forall_mem_append.mp are_names
    obtain ⟨before_short, fits⟩ := List.forall_mem_append.mp short
    rw [← List.append_assoc] at h ⊢
    have dir := FileTree.directory_of_node? (List.cons_ne_nil name []) h
    rw [walk_append, walk_names dir before_names before_short]
    change walk t (loc ++ before) [name] = _
    rw [walk, dir, (is_name name (List.mem_singleton_self _)).1]
    dsimp only
    rw [if_neg (Nat.not_lt.mpr (fits name (List.mem_singleton_self _)))]
    rfl

/-- Only names that are short enough are followed. -/
theorem short_of_walk {t : FileTree} {loc l : Location} {segments : List Text}
    (short : ∀ n ∈ loc, n.byteLength ≤ longestName) (h : walk t loc segments = .ok l) :
    ∀ n ∈ l, n.byteLength ≤ longestName := by
  induction segments generalizing loc with
  | nil =>
    cases h
    exact short
  | cons s segments ih =>
    rw [walk] at h
    split at h
    · cases h
    · cases h
    · split at h
      · exact ih (fun n hn => short n (List.mem_of_mem_dropLast hn)) h
      · next n _ =>
        split at h
        · cases h
        · next fits =>
          refine ih (fun n hn => ?_) h
          rcases List.mem_append.mp hn with hn | hn
          · exact short n hn
          · rw [List.mem_singleton.mp hn]
            exact Nat.le_of_not_lt fits
      · exact ih short h

/-- Segments of a path that goes on through names go on in a directory. -/
theorem exists_of_walk_join {t : FileTree} {start loc : Location} {p : Path} {names : List Text}
    (h : ∀ n ∈ names, IsName n)
    (led : walk t start (segmentsOf (p.join (ofNames names)).text) = .ok loc) :
    ∃ base, walk t start (segmentsOf p.text) = .ok base ∧ t.node? base = some .directory ∧
      loc = base ++ names := by
  obtain ⟨before, joined, same⟩ := exists_segmentsOf_join p (isAbsolute_ofNames h)
  rw [joined, walk_append] at led
  cases reached : walk t start before with
  | error e =>
    rw [reached] at led
    cases led
  | ok base =>
    rw [reached] at led
    have onward : walk t base (segmentsOf (ofNames names).text) = .ok loc := led
    have some_segments : segmentsOf (ofNames names).text ≠ [] := Text.split_ne_nil _ _
    have dir := directory_of_walk some_segments onward
    refine ⟨base, ?_, dir, ?_⟩
    · rcases same with eq | eq
      · rw [eq, reached]
      · rw [eq, walk_append, reached]
        change walk t base [[]] = .ok base
        exact walk_stay dir rfl
    · rw [← steps_of_walk onward, componentsOf_ofNames h, steps_names]

theorem isUsable_of_join {p q : Path} (relative : q.isAbsolute = false)
    (usable : isUsable (p.join q) = true) : isUsable p = true := by
  rw [isUsable, decide_eq_true_eq] at usable ⊢
  exact (byteLength_le_of_isPrefix (isPrefix_join p relative)).trans usable

/-- **A path that goes on through names** goes on in a directory. -/
theorem exists_of_locate_join {d : Disk} {p : Path} (absolute : p.isAbsolute = true)
    {names : List Text} (h : ∀ n ∈ names, IsName n) {loc : Location}
    (led : d.locate (p.join (ofNames names)) = .ok (.location loc)) :
    ∃ base, d.locate p = .ok (.location base) ∧ d.tree.node? base = some .directory ∧
      loc = base ++ names := by
  have relative := isAbsolute_ofNames h
  have walked := walk_of_locate (isAbsolute_join_of_isAbsolute absolute _) led
  obtain ⟨base, reached, dir, eq⟩ := exists_of_walk_join h walked
  have plain : '\x00' ∉ p.text :=
    fun nul => nul_not_mem_of_locate led ((isPrefix_join p relative).subset nul)
  have shorter := isUsable_of_join relative (isUsable_of_locate led)
  refine ⟨base, ?_, dir, eq⟩
  rw [locate_of_isAbsolute d absolute shorter plain, reached]
  rfl

end Disk

end MessageDocs
