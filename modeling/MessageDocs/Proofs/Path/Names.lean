import MessageDocs.Proofs.Path.Remainder

/-! # Paths through names

A path may go on through the names of directories and files. Its text, its components and its file
name are then those of the names, after what it begins with.

* `Path.text_join`, `Path.text_joinNames`: the texts of such paths.
* `Path.components_join_of_ne_nil`: the components of a path that goes on from another one.
* `Path.parent?_ofNames`: the parent of a relative path through names.
-/

set_option autoImplicit false

namespace MessageDocs.Path

/-! ## Texts -/

theorem ofNames_singleton (n : Text) : ofNames [n] = ⟨n⟩ :=
  congrArg Path.mk (List.intercalate_singleton)

theorem isAbsolute_name {n : Text} (h : IsName n) : (⟨n⟩ : Path).isAbsolute = false := by
  rw [← ofNames_singleton]
  exact isAbsolute_ofNames (by simpa using h)

/-- The text of a path with a slash at its end, as others are joined to it. -/
def slashed (p : Path) : Text :=
  if p.text = [] ∨ p.text.getLast? = some '/' then p.text else p.text ++ ['/']

theorem text_join (p : Path) {q : Path} (h : q.isAbsolute = false) :
    (p.join q).text = p.slashed ++ q.text := by
  rw [join, if_neg (by simp [h]), slashed]
  split
  · rfl
  · rw [List.append_assoc]
    rfl

theorem slashed_of_getLast {p : Path} {t : Text} (h : p.text = t ++ ['/']) :
    p.slashed = p.text := by
  rw [slashed, if_pos (Or.inr (by rw [h, List.getLast?_concat]))]

theorem slashed_of_name {p : Path} {t n : Text} (h : p.text = t ++ n) (some_name : n ≠ [])
    (plain : '/' ∉ n) : p.slashed = p.text ++ ['/'] := by
  have some_text : p.text ≠ [] := by
    rw [h]
    simp [some_name]
  have notEnded : p.text.getLast? ≠ some '/' := by
    rw [h, List.getLast?_append_of_ne_nil _ some_name]
    exact fun last => plain (List.mem_of_getLast? last)
  rw [slashed, if_neg (not_or.mpr ⟨some_text, notEnded⟩)]

theorem ne_nil_of_isName {n : Text} (h : IsName n) : n ≠ [] := by
  rintro rfl
  cases h.1

theorem text_ofNames_ne_nil {names : List Text} (h : ∀ n ∈ names, IsName n)
    (some_names : names ≠ []) : (ofNames names).text ≠ [] := by
  intro none
  have cut := (isWritten_names h).segmentsOf_eq some_names
  rw [none] at cut
  exact ne_nil_of_isName (h [] (cut ▸ List.mem_singleton_self [])) rfl

theorem text_joinNames (p : Path) {names : List Text} (h : ∀ n ∈ names, IsName n)
    (some_names : names ≠ []) : (p.joinNames names).text = p.slashed ++ (ofNames names).text := by
  induction names generalizing p with
  | nil => exact absurd rfl some_names
  | cons n names ih =>
    obtain ⟨name, rest⟩ := List.forall_mem_cons.mp h
    have joined : (p.join ⟨n⟩).text = p.slashed ++ n := text_join p (isAbsolute_name name)
    change ((p.join ⟨n⟩).joinNames names).text = _
    cases names with
    | nil =>
      rw [ofNames_singleton]
      exact joined
    | cons next names =>
      rw [ih (p.join ⟨n⟩) rest (List.cons_ne_nil next names),
        slashed_of_name joined (ne_nil_of_isName name) (not_mem_of_isName name), joined, ofNames,
        ofNames, Text.join_cons_cons]
      simp

theorem nul_not_mem_ofNames {names : List Text} (h : ∀ n ∈ names, IsName n) :
    '\x00' ∉ (ofNames names).text := by
  intro nul
  rcases Text.mem_join nul with slash | ⟨n, hn, nul⟩
  · simp at slash
  · have noNul := (h n hn).2.2
    rw [List.contains_eq_mem, decide_eq_false_iff_not] at noNul
    exact noNul nul

theorem joinNames_append (p : Path) (a b : List Text) :
    p.joinNames (a ++ b) = (p.joinNames a).joinNames b :=
  List.foldl_append ..

theorem joinNames_eq_join (p : Path) {names : List Text} (h : ∀ n ∈ names, IsName n)
    (some_names : names ≠ []) : p.joinNames names = p.join (ofNames names) := by
  have same := (text_joinNames p h some_names).trans (text_join p (isAbsolute_ofNames h)).symm
  rwa [← Path.mk.injEq] at same

/-! ## Components -/

/-- Segments of a joined path: those of the second path, after those of the first one without the
empty segment behind a final slash. -/
theorem exists_segmentsOf_join (p : Path) {q : Path} (h : q.isAbsolute = false) :
    ∃ before, segmentsOf (p.join q).text = before ++ segmentsOf q.text ∧
      (segmentsOf p.text = before ∨ segmentsOf p.text = before ++ [[]]) := by
  rcases join_of_not_isAbsolute (p := p) h with ⟨eq, empty | slash⟩ | ⟨eq, -⟩
  · refine ⟨[], ?_, Or.inr ?_⟩
    · rw [eq, empty]
      rfl
    · rw [empty]
      rfl
  · obtain ⟨stem, text⟩ := List.getLast?_eq_some_iff.mp slash
    refine ⟨segmentsOf stem, ?_, Or.inr ?_⟩
    · rw [eq, text]
      dsimp only
      rw [List.append_assoc, List.singleton_append, segmentsOf, Text.split_append_cons (by simp)]
      rfl
    · rw [text, segmentsOf, Text.split_append_cons (by simp)]
      rfl
  · refine ⟨segmentsOf p.text, ?_, Or.inl rfl⟩
    rw [eq, segmentsOf, Text.split_append_cons (by simp)]
    rfl

theorem lead_eq_none {p : Path} {c : Char} {rest : Text} (text : p.text = c :: rest)
    (slash : c ≠ '/')
    (dot : c = '.' → ∃ d more, rest = d :: more ∧ d ≠ '/') : p.parts.lead = none := by
  unfold parts
  split
  · next text' =>
    rw [text] at text'
    exact absurd (List.cons.inj text').1 slash
  · next text' =>
    rw [text] at text'
    obtain ⟨here, none⟩ := List.cons.inj text'
    obtain ⟨d, more, some_rest, -⟩ := dot here
    rw [none] at some_rest
    cases some_rest
  · next text' =>
    rw [text] at text'
    obtain ⟨here, next⟩ := List.cons.inj text'
    obtain ⟨d, more, some_rest, apart⟩ := dot here
    rw [next] at some_rest
    exact absurd (List.cons.inj some_rest).1.symm apart
  · rfl

/-- What a path begins with stays when more is written behind a slash at its end. -/
theorem lead_append {t more : Text} (some_text : t ≠ [])
    (ended : t.getLast? = some '/' ∨ ∃ rest, more = '/' :: rest) :
    (⟨t ++ more⟩ : Path).parts.lead = (⟨t⟩ : Path).parts.lead := by
  obtain ⟨c, rest, rfl⟩ := List.exists_cons_of_ne_nil some_text
  by_cases slash : c = '/'
  · rw [parts, parts, slash]
    rfl
  · by_cases dot : c = '.'
    · subst dot
      cases rest with
      | nil =>
        obtain ⟨after, rfl⟩ := ended.resolve_left (by decide)
        rfl
      | cons d rest =>
        by_cases next : d = '/'
        · rw [parts, parts, next]
          rfl
        · rw [lead_eq_none rfl (by decide) fun _ => ⟨d, rest, rfl, next⟩,
            lead_eq_none (List.cons_append ..) (by decide) fun _ => ⟨d, rest ++ more, rfl, next⟩]
    · rw [lead_eq_none rfl slash fun here => absurd here dot,
        lead_eq_none (List.cons_append ..) slash fun here => absurd here dot]

/-- What a path begins with stays when others are joined to it. -/
theorem lead_join {p q : Path} (some_text : p.text ≠ []) (h : q.isAbsolute = false) :
    (p.join q).parts.lead = p.parts.lead := by
  rcases join_of_not_isAbsolute (p := p) h with ⟨eq, empty | slash⟩ | ⟨eq, -⟩
  · exact absurd empty some_text
  · rw [eq]
    exact lead_append some_text (Or.inl slash)
  · rw [eq]
    exact lead_append some_text (Or.inr ⟨q.text, rfl⟩)

/-- Joining appends components, to any path that is written at all. -/
theorem components_join_of_ne_nil {p q : Path} (some_text : p.text ≠ [])
    (h : q.isAbsolute = false) :
    (p.join q).components = p.components ++ componentsOf (segmentsOf q.text) := by
  rw [components_eq, components_eq p, lead_join some_text h, componentsOf_join p h,
    List.append_assoc]

/-- A slash at the end of a path adds no component. -/
theorem components_append_slash {t : Text} (some_text : t ≠ []) :
    (⟨t ++ ['/']⟩ : Path).components = (⟨t⟩ : Path).components := by
  rw [components_eq, components_eq, lead_append some_text (Or.inr ⟨[], rfl⟩),
    componentsOf_segmentsOf_append_slash]
  exact congrArg _ (List.append_nil _)

/-- Only the empty path has no components. -/
theorem components_ne_nil {p : Path} (some_text : p.text ≠ []) : p.components ≠ [] := by
  intro none
  rw [components_eq, List.append_eq_nil_iff, componentsOf, List.filterMap_eq_nil_iff] at none
  obtain ⟨noLead, insignificant⟩ := none
  obtain ⟨c, rest, text⟩ := List.exists_cons_of_ne_nil some_text
  have cuts : ∀ {d : Char}, d ≠ '/' → ∀ t, ∃ first others,
      segmentsOf t = first :: others ∧ segmentsOf (d :: t) = (d :: first) :: others :=
    fun other t => Text.split_cons_of_neg (by simpa using other) t
  have notSlash : c ≠ '/' := by
    rintro rfl
    rw [parts, text] at noLead
    cases noLead
  -- The first segment is no component only if it is a dot, and then it is the lead.
  obtain ⟨first, others, rest_eq, text_eq⟩ := cuts notSlash rest
  have dot : c = '.' ∧ first = [] := by
    have here := insignificant (c :: first) (by rw [text, text_eq]; exact List.mem_cons_self)
    rw [Component.ofSegment?] at here
    split at here
    · next h => simpa using h
    · split at here <;> cases here
  obtain ⟨rfl, rfl⟩ := dot
  cases rest with
  | nil =>
    rw [parts, text] at noLead
    cases noLead
  | cons d more =>
    by_cases slash : d = '/'
    · rw [parts, text, slash] at noLead
      cases noLead
    · obtain ⟨next, others', -, cut⟩ := cuts slash more
      rw [cut] at rest_eq
      cases rest_eq

theorem components_join_names {p : Path} (some_text : p.text ≠ []) {names : List Text}
    (h : ∀ n ∈ names, IsName n) :
    (p.join (ofNames names)).components = p.components ++ names.map .name := by
  rw [components_join_of_ne_nil some_text (isAbsolute_ofNames h), componentsOf_ofNames h]

/-! ## File names -/

theorem fileName?_joinNames (p : Path) {before : List Text} {n : Text} (h : IsName n) :
    (p.joinNames (before ++ [n])).fileName? = some n := by
  have last : p.joinNames (before ++ [n]) = (p.joinNames before).join ⟨n⟩ := List.foldl_concat ..
  have single : componentsOf (segmentsOf n) = [.name n] := by
    have := @componentsOf_ofNames [n] (by simpa using h)
    rwa [ofNames_singleton] at this
  rw [fileName?, components_eq, last, componentsOf_join _ (isAbsolute_name h), single,
    ← List.append_assoc, List.getLast?_concat]

/-! ## Parents -/

theorem trimSegmentsEnd_of_significant {segments : List Text}
    (h : ∀ s ∈ segments.getLast?, isSignificant s = true) :
    trimSegmentsEnd segments = segments := by
  rw [trimSegmentsEnd]
  rcases List.eq_nil_or_concat' segments with rfl | ⟨before, s, rfl⟩
  · rfl
  · have last : isSignificant s = true := h s (by simp)
    simp [last]

theorem parent?_ofNames {names : List Text} (h : ∀ n ∈ names, IsName n) (some_names : names ≠ []) :
    (ofNames names).parent? = some (ofNames names.dropLast) := by
  have written := isWritten_names h
  have significant : names.any isSignificant = true := by
    obtain ⟨n, rest, rfl⟩ := List.exists_cons_of_ne_nil some_names
    rw [List.any_cons, isSignificant_of_isName (h n List.mem_cons_self), Bool.true_or]
  have parent_names : ∀ n ∈ names.dropLast, IsName n :=
    fun n hn => h n (List.mem_of_mem_dropLast hn)
  rw [parent?, written.parts_eq, written.segmentsOf_eq some_names]
  dsimp only
  rw [if_pos significant, dropLastSegment, trimSegmentsEnd_of_significant written.last,
    trimSegmentsEnd_of_significant (isWritten_names parent_names).last]
  rfl

end MessageDocs.Path
