import MessageDocs.Proofs.Yaml.Quoted
import MessageDocs.Yaml.Token

/-! # Tokens of a block mapping

A mapping of words, one entry a line, that may hold a sequence of quoted texts is cut into the
tokens it is written with. One lemma says what the scanner makes of a line of each kind, whatever
comes before and after it.

* `Scan.Leads`: some steps that lead from one scan to another.
* `Scan.leads_wordEntry`: an entry of two words.
* `Scan.leads_quotedEntry`: an entry of a sequence of quoted texts.
-/

set_option autoImplicit false

namespace MessageDocs.Yaml

/-! ## Words -/

/-- A word of lower case letters, underscores and slashes that begins with a letter. -/
def isWord (w : Text) : Bool :=
  w.head?.any Char.isLower && w.all fun c => c.isLower || c = '_' || c = '/'

theorem exists_cons_of_isWord {w : Text} (h : isWord w = true) :
    ∃ c rest, w = c :: rest ∧ c.isLower = true := by
  cases w with
  | nil => cases h
  | cons c rest =>
    have first := (Bool.and_eq_true_iff.mp h).1
    exact ⟨c, rest, rfl, first⟩

theorem ne_of_isLower {c d : Char} (h : c.isLower = true) (hd : d.isLower = false) : c ≠ d := by
  rintro rfl
  rw [h] at hd
  cases hd

theorem plain_of_mem_word {w : Text} (h : isWord w = true) {c : Char} (hc : c ∈ w) :
    isBlank c = false ∧ isBreak c = false ∧ c ≠ ':' := by
  have ok := List.all_eq_true.mp (Bool.and_eq_true_iff.mp h).2 c hc
  simp only [Bool.or_eq_true, decide_eq_true_eq] at ok
  rcases ok with (lower | rfl) | rfl
  · have differs : ∀ d : Char, d.isLower = false → c ≠ d := fun d => ne_of_isLower lower
    simp [isBlank, isBreak, differs]
  · decide
  · decide

/-! ## Plain scalars of one word -/

/-- Whether a plain scalar ends here, outside flow collections. -/
def EndsPlain : Text → Prop
  | [] => True
  | c :: rest => (isBlank c || isBreak c) = true ∨ (c = ':' ∧ blankOrEnd rest = true)

theorem plainPiece_nil {tail : Text} (ends : EndsPlain tail) :
    plainPiece false tail = some [] := by
  cases tail with
  | nil => rfl
  | cons c tail =>
    rw [plainPiece]
    rcases ends with space | ⟨rfl, blank⟩
    · rw [if_pos space]
    · simp [blank]

theorem plainPiece_word {w tail : Text}
    (plain : ∀ c ∈ w, isBlank c = false ∧ isBreak c = false ∧ c ≠ ':')
    (ends : EndsPlain tail) : plainPiece false (w ++ tail) = some w := by
  induction w with
  | nil => exact plainPiece_nil ends
  | cons c w ih =>
    obtain ⟨⟨notBlank, notBreak, notColon⟩, plain⟩ := List.forall_mem_cons.mp plain
    rw [List.cons_append, plainPiece]
    simp [notBlank, notBreak, notColon, ih plain]

theorem atDocumentEdge_of_isLower {c : Cursor} {first : Char} {others : Text}
    (rest : c.rest = first :: others) (lower : first.isLower = true) :
    c.atDocumentEdge = false := by
  have differs : ∀ d : Char, d.isLower = false → ¬d = first := fun d hd same =>
    ne_of_isLower lower hd same.symm
  simp [Cursor.atDocumentEdge, Cursor.atDocumentMark, Text.after?, rest, List.isPrefixOf?, differs]

/-- A plain scalar of one word, as far as the gap behind it. -/
theorem plainScalar_word {w tail : Text} (word : isWord w = true) (ends : EndsPlain tail)
    {column n : Nat} {c : Cursor} (fuel : c.bound = n + 1) (rest : c.rest = w ++ tail) :
    plainScalar false column c =
      match Gap.take column n {} (c.advance w.length) with
      | none => none
      | some (g, c) =>
        if g.broken && decide (c.column < column) then some ⟨w, c, true⟩
        else plainPieces false column n w.reverse g c := by
  obtain ⟨first, others, rfl, lower⟩ := exists_cons_of_isWord word
  have noComment : first ≠ '#' := ne_of_isLower lower rfl
  have piece := plainPiece_word (fun c hc => plain_of_mem_word word hc) ends
  have text : (first :: others).reverse ++ (Gap.text {}).reverse = (first :: others).reverse :=
    List.append_nil _
  rw [plainScalar, fuel, plainPieces, atDocumentEdge_of_isLower rest lower, rest, piece]
  cases taken : Gap.take column n {} (c.advance (first :: others).length) <;>
    simp only [List.cons_append, List.head?_cons, Option.some.injEq, noComment, decide_false,
      Bool.or_self, Bool.false_eq_true, if_false, Bool.not_false, Bool.true_and, List.append_nil,
      text, List.reverse_reverse, taken]

theorem plainScalar_key {w tail : Text} (word : isWord w = true) (blank : blankOrEnd tail = true)
    (column : Nat) {c : Cursor} (fuel : 0 < c.bound) (rest : c.rest = w ++ ':' :: tail) :
    plainScalar false column c = some ⟨w, c.advance w.length, false⟩ := by
  obtain ⟨n, bound⟩ : ∃ n, c.bound = n + 1 := ⟨c.bound - 1, by omega⟩
  have after : (c.advance w.length).rest = ':' :: tail := Cursor.rest_advance_of_append rest
  have noGap : ∀ n, Gap.take column n {} (c.advance w.length) = some ({}, c.advance w.length) := by
    intro n
    cases n with
    | zero => rfl
    | succ n =>
      rw [Gap.take, after]
      rfl
  have ends : EndsPlain (':' :: tail) := Or.inr ⟨rfl, blank⟩
  rw [plainScalar_word word ends bound rest, noGap]
  cases n with
  | zero => simp [plainPieces]
  | succ n => simp [plainPieces, after, plainPiece_nil ends]

def BeginsLine (t : Text) : Prop :=
  ∀ c ∈ t.head?, isBlank c = false ∧ isBreak c = false

/-- A word at the end of a line in a block: the next line does not continue it. -/
theorem plainScalar_line {w tail : Text} (word : isWord w = true) (begins : BeginsLine tail)
    {column : Nat} (inside : 0 < column) {c : Cursor} (fuel : 1 < c.bound)
    (rest : c.rest = w ++ '\n' :: tail) :
    plainScalar false column c = some ⟨w, (c.advance w.length).nextLine, true⟩ := by
  obtain ⟨n, bound⟩ : ∃ n, c.bound = n + 1 + 1 := ⟨c.bound - 2, by omega⟩
  have after : (c.advance w.length).rest = '\n' :: tail := Cursor.rest_advance_of_append rest
  have next := Cursor.rest_nextLine after
  have stays : ∀ n g, Gap.take column n g (c.advance w.length).nextLine =
      some (g, (c.advance w.length).nextLine) := by
    intro n g
    cases n with
    | zero => rfl
    | succ n =>
      rw [Gap.take, next]
      cases tail with
      | nil => rfl
      | cons d tail =>
        obtain ⟨notBlank, notBreak⟩ := begins d rfl
        simp [notBlank, notBreak]
  have gap : Gap.take column (n + 1) {} (c.advance w.length) =
      some ({ broken := true, first := (c.advance w.length).lineBreak },
        (c.advance w.length).nextLine) := by
    rw [Gap.take, after]
    exact stays n _
  have ends : EndsPlain ('\n' :: tail) := Or.inl rfl
  rw [plainScalar_word word ends bound rest, gap]
  simp [Cursor.column_nextLine after, inside]

namespace Scan

/-! ## Steps -/

/-- Some steps that lead from one scan to another, none of them the last one. -/
def Leads : Nat → Scan → Scan → Prop
  | 0, s, s' => s = s'
  | n + 1, s, s' => ∃ next, step s = some next ∧ next.isDone = false ∧ Leads n next s'

theorem Leads.single {s s' : Scan} (h : step s = some s') (going : s'.isDone = false) :
    Leads 1 s s' :=
  ⟨s', h, going, rfl⟩

theorem Leads.trans {m n : Nat} {s s' s'' : Scan} (h : Leads m s s') (h' : Leads n s' s'') :
    Leads (m + n) s s'' := by
  induction m generalizing s with
  | zero =>
    cases h
    rwa [Nat.zero_add]
  | succ m ih =>
    obtain ⟨next, stepped, going, h⟩ := h
    rw [Nat.add_right_comm]
    exact ⟨next, stepped, going, ih h⟩

theorem Leads.run_eq {n : Nat} {s s' : Scan} (h : Leads n s s') (m : Nat) :
    run (n + m) s = run m s' := by
  induction n generalizing s with
  | zero =>
    cases h
    rw [Nat.zero_add]
  | succ n ih =>
    obtain ⟨next, stepped, going, h⟩ := h
    rw [Nat.add_right_comm, run, stepped]
    simp only [going, Bool.false_eq_true, if_false]
    exact ih h

theorem step_eq {s s' : Scan} {c : Char} {rest : Text}
    (reached : dropStaleKeys (toToken s.cursor.bound s) = some s')
    (here : s'.cursor.rest = c :: rest) :
    step s = tokenAt c rest (closeBlocksTo (s'.cursor.column + 1) s') := by
  rw [step, reached]
  dsimp only
  rw [here]

theorem step_eq_streamEnd {s s' : Scan}
    (reached : dropStaleKeys (toToken s.cursor.bound s) = some s') (ended : s'.cursor.rest = []) :
    step s = streamEnd s' := by
  rw [step, reached]
  dsimp only
  rw [ended]

theorem step_congr {s t : Scan}
    (h : dropStaleKeys (toToken s.cursor.bound s) = dropStaleKeys (toToken t.cursor.bound t)) :
    step s = step t := by
  rw [step, step, h]

def BeginsToken (t : Text) : Prop :=
  ∀ c ∈ t.head?, isBlank c = false ∧ isBreak c = false ∧ c ≠ '#' ∧ c ≠ '\ufeff'

theorem skipWhile_eq {p : Char → Bool} {skipped tail : Text} (taken : ∀ c ∈ skipped, p c = true)
    (stops : ∀ c ∈ tail.head?, p c = false) {c : Cursor} (rest : c.rest = skipped ++ tail) :
    c.skipWhile p = c.advance skipped.length := by
  have all : c.rest.takeWhile p = skipped := by
    rw [rest, List.takeWhile_append_of_pos taken]
    cases tail with
    | nil => exact List.append_nil skipped
    | cons d tail => rw [List.takeWhile_cons_of_neg (by simp [stops d rfl]), List.append_nil]
  rw [Cursor.skipWhile, all]

theorem toToken_blanks {s : Scan} {k : Nat} {tail : Text} (begins : BeginsToken tail)
    (rest : s.cursor.rest = List.replicate k ' ' ++ tail) (n : Nat) :
    toToken (n + 1) s = { s with cursor := s.cursor.advance k } := by
  have noMark : s.cursor.rest.head? ≠ some '\ufeff' := by
    rw [rest]
    cases k with
    | zero => exact fun first => (begins _ first).2.2.2 rfl
    | succ k => simp [List.replicate_succ]
  have stops : ∀ tabs, ∀ c ∈ tail.head?,
      (decide (c = ' ') || (tabs && decide (c = '\t'))) = false := by
    intro tabs c hc
    have notBlank := (begins c hc).1
    simp only [isBlank, Bool.or_eq_false_iff] at notBlank
    simp [notBlank]
  have blanks : ∀ tabs,
      s.cursor.skipWhile (fun c => decide (c = ' ') || (tabs && decide (c = '\t'))) =
      s.cursor.advance k := by
    intro tabs
    rw [skipWhile_eq (by simp) (stops tabs) rest, List.length_replicate]
  have after : (s.cursor.advance k).rest = tail := by
    have := Cursor.rest_advance_of_append rest
    rwa [List.length_replicate] at this
  have noComment : (s.cursor.advance k).rest.head? ≠ some '#' := by
    rw [after]
    exact fun first => (begins _ first).2.2.1 rfl
  have noBreak : (s.cursor.advance k).atBreak = false := by
    rw [Cursor.atBreak, after]
    cases tail with
    | nil => rfl
    | cons d tail => exact (begins d rfl).2.1
  rw [toToken]
  simp [noMark, blanks, noComment, noBreak]

theorem toToken_self {s : Scan} (begins : BeginsToken s.cursor.rest) (n : Nat) :
    toToken n s = s := by
  cases n with
  | zero => rfl
  | succ n => exact @toToken_blanks s 0 _ begins rfl n

theorem toToken_line {s : Scan} (block : s.flow = 0) {tail : Text}
    (rest : s.cursor.rest = '\n' :: tail) (n : Nat) :
    toToken (n + 1) s =
      toToken n { s with cursor := s.cursor.nextLine, keyAllowed := true } := by
  have stays : ∀ tabs,
      s.cursor.skipWhile (fun c => decide (c = ' ') || (tabs && decide (c = '\t'))) =
      s.cursor := by
    intro tabs
    have stops : ∀ c ∈ ('\n' :: tail).head?,
        (decide (c = ' ') || (tabs && decide (c = '\t'))) = false := by simp
    exact @skipWhile_eq _ [] _ (by simp) stops s.cursor rest
  rw [toToken]
  simp [rest, stays, Cursor.atBreak, isBreak, block]

/-! ## Scans in a block -/

/-- A scan in a block collection. -/
def inBlock (column : Nat) (outer : List Nat) (keyAllowed : Bool) (keyStart : Option KeyStart)
    (tokens : List Token) (c : Cursor) : Scan where
  cursor := c
  tokens := tokens
  count := tokens.length
  column := column
  outer := outer
  keyAllowed := keyAllowed
  keyStart := keyStart

section

variable {column : Nat} {outer : List Nat} {tokens : List Token} {c : Cursor} {w tail : Text}

theorem closeBlocksTo_self {allowed : Bool} {k : Option KeyStart} {n : Nat} (inside : column ≤ n) :
    closeBlocksTo n (inBlock column outer allowed k tokens c) =
      inBlock column outer allowed k tokens c := by
  have notBelow : ¬n < column := Nat.not_lt.mpr inside
  cases outer with
  | nil => rfl
  | cons o outer => simp [closeBlocksTo, closeBlocks, inBlock, notBelow]

theorem dropStaleKeys_inBlock {allowed : Bool} {k k' : Option KeyStart}
    (h : freshKey? c k = some k') :
    dropStaleKeys (inBlock column outer allowed k tokens c) =
      some (inBlock column outer allowed k' tokens c) := by
  simp [dropStaleKeys, inBlock, h]

/-! ### Coming to a token -/

/-- A token further on in a line, no block ending before it. -/
theorem step_blanks {allowed : Bool} {k : Option KeyStart} {j : Nat} {ch : Char}
    (fuel : 0 < c.bound) (begins : BeginsToken (ch :: tail))
    (rest : c.rest = List.replicate j ' ' ++ ch :: tail)
    (fresh : freshKey? (c.advance j) k = some k) (inside : column ≤ c.column + j + 1) :
    step (inBlock column outer allowed k tokens c) =
      tokenAt ch tail (inBlock column outer allowed k tokens (c.advance j)) := by
  obtain ⟨n, bound⟩ : ∃ n, c.bound = n + 1 := ⟨c.bound - 1, by omega⟩
  have reached : toToken c.bound (inBlock column outer allowed k tokens c) =
      inBlock column outer allowed k tokens (c.advance j) := by
    rw [bound]
    exact toToken_blanks begins rest n
  have here : (c.advance j).rest = ch :: tail := by
    have := Cursor.rest_advance_of_append rest
    rwa [List.length_replicate] at this
  have kept : dropStaleKeys (toToken c.bound (inBlock column outer allowed k tokens c)) =
      some (inBlock column outer allowed k tokens (c.advance j)) := by
    rw [reached]
    exact dropStaleKeys_inBlock fresh
  rw [step_eq kept here]
  exact congrArg _ (closeBlocksTo_self inside)

/-- Whether a key start is one that no key needs and that no colon on a later line can use. -/
def IsPast (k : Option KeyStart) (c : Cursor) : Prop :=
  ∀ k' ∈ k, k'.required = false ∧ k'.cursor.line ≤ c.line

/-- On a new line a pending key start is given up. -/
theorem step_line {allowed : Bool} {k : Option KeyStart} {j : Nat}
    (fuel : 1 < c.bound) (past : IsPast k c) (begins : BeginsToken tail)
    (rest : c.rest = '\n' :: (List.replicate j ' ' ++ tail)) :
    step (inBlock column outer allowed k tokens c) =
      step (inBlock column outer true none tokens c.nextLine) := by
  obtain ⟨n, bound⟩ : ∃ n, c.bound = n + 1 + 1 := ⟨c.bound - 2, by omega⟩
  have next := Cursor.rest_nextLine rest
  have reached : toToken c.bound (inBlock column outer allowed k tokens c) =
      inBlock column outer true k tokens (c.nextLine.advance j) := by
    rw [bound, toToken_line rfl rest]
    exact toToken_blanks begins next n
  have reached' : toToken c.nextLine.bound (inBlock column outer true none tokens c.nextLine) =
      inBlock column outer true none tokens (c.nextLine.advance j) := by
    rw [Cursor.bound_nextLine rest, bound]
    exact toToken_blanks begins next (n + 1)
  have given_up : freshKey? (c.nextLine.advance j) k = some none := by
    cases k with
    | none => rfl
    | some k =>
      obtain ⟨free, line⟩ := past k rfl
      have below : k.cursor.line < (c.nextLine.advance j).line := by
        change _ < c.nextLine.line
        rw [Cursor.line_nextLine rest]
        omega
      simp [freshKey?, below, free]
  apply step_congr
  change dropStaleKeys (toToken c.bound _) = dropStaleKeys (toToken c.nextLine.bound _)
  rw [reached, reached', dropStaleKeys_inBlock given_up, dropStaleKeys_inBlock rfl]

/-- A token at the start of a line ends the blocks inside the outermost one. -/
theorem step_dedent {o : Nat} {ch : Char} (begins : BeginsToken (ch :: tail))
    (at_line : c.column = 0) (rest : c.rest = ch :: tail) :
    step (inBlock (o + 2) (1 :: outer) true none tokens c) =
      step (inBlock 1 outer true none (.blockEnd :: tokens) c) := by
  have stays : ∀ column outer tokens,
      dropStaleKeys (toToken c.bound (inBlock column outer true none tokens c)) =
        some (inBlock column outer true none tokens c) := by
    intro column outer tokens
    rw [toToken_self (rest ▸ begins)]
    exact dropStaleKeys_inBlock rfl
  rw [step_eq (stays (o + 2) (1 :: outer) tokens) rest, step_eq (stays 1 outer _) rest]
  congr 1
  change closeBlocksTo (c.column + 1) _ = closeBlocksTo (c.column + 1) _
  rw [at_line]
  cases outer with
  | nil => simp [closeBlocksTo, closeBlocks, inBlock, emit]
  | cons o' outer => simp [closeBlocksTo, closeBlocks, inBlock, emit]

/-! ### Entries of two words -/

theorem beginsToken_of_isLower {first : Char} (lower : first.isLower = true) (others : Text) :
    BeginsToken (first :: others) := by
  have differs : ∀ d : Char, d.isLower = false → first ≠ d := fun d => ne_of_isLower lower
  rintro d ⟨⟩
  exact ⟨by simp [isBlank, differs], by simp [isBreak, differs], differs _ rfl, differs _ rfl⟩

theorem tokenAt_word {s : Scan} (block : s.flow = 0) {first : Char} {others : Text}
    (rest : s.cursor.rest = first :: others) (lower : first.isLower = true) :
    tokenAt first others s = plain s := by
  have differs : ∀ d : Char, d.isLower = false → first ≠ d := fun d => ne_of_isLower lower
  have noEdge := atDocumentEdge_of_isLower rest lower
  rw [Cursor.atDocumentEdge, Bool.or_eq_false_iff] at noEdge
  have noStart : s.cursor.atDocumentMark ['-', '-', '-'] = false := noEdge.1
  have noEnd : s.cursor.atDocumentMark ['.', '.', '.'] = false := noEdge.2
  have starts : startsPlain false first others = true := by
    simp [startsPlain, isBlank, isBreak, differs]
  simp [tokenAt, block, differs, noStart, noEnd, starts]

/-- The first token of a key. In a block that is open already it can only be a key. -/
theorem leads_keyWord (word : isWord w = true) (blank : blankOrEnd tail = true)
    (inside : column ≤ 1) (at_line : c.column = 0) (fuel : 0 < c.bound)
    (rest : c.rest = w ++ ':' :: tail) :
    Leads 1 (inBlock column outer true none tokens c)
      (inBlock column outer false (some ⟨decide (column = 1), tokens.length, c⟩)
        (.scalar true w :: tokens) (c.advance w.length)) := by
  refine .single ?_ rfl
  have scalar := plainScalar_key word blank column fuel rest
  obtain ⟨first, others, rfl, lower⟩ := exists_cons_of_isWord word
  have stands := @step_blanks column outer tokens c _ true none 0 first fuel
    (beginsToken_of_isLower lower _) rest rfl (by omega)
  rw [stands, Cursor.advance_zero, tokenAt_word rfl rest lower, plain]
  simp [inBlock, saveKey, removeKey, scalar, at_line, emit]

theorem step_colon {required : Bool} {n : Nat} (short : Text.byteLength w ≤ keySpan)
    (blank : blankOrEnd tail = true) (inside : column ≤ 1) (fuel : 0 < c.bound)
    (rest : c.rest = w ++ ':' :: tail) :
    step (inBlock column outer false (some ⟨required, n, c⟩) tokens (c.advance w.length)) =
      value (inBlock column outer false (some ⟨required, n, c⟩) tokens (c.advance w.length)) := by
  have after : (c.advance w.length).rest = ':' :: tail := Cursor.rest_advance_of_append rest
  have begins : BeginsToken (':' :: tail) := by
    rintro d ⟨⟩
    decide
  have near : ¬c.offset + keySpan < (c.advance w.length).offset := by
    rw [Cursor.offset_advance_of_append rest]
    omega
  have fresh : freshKey? (c.advance w.length) (some ⟨required, n, c⟩) =
      some (some ⟨required, n, c⟩) := by
    have sameLine : ¬c.line < (c.advance w.length).line := Nat.lt_irrefl _
    simp [freshKey?, sameLine, near]
  have noStart : (c.advance w.length).atDocumentMark ['-', '-', '-'] = false := by
    simp [Cursor.atDocumentMark, after, Text.after?, List.isPrefixOf?]
  have noEnd : (c.advance w.length).atDocumentMark ['.', '.', '.'] = false := by
    simp [Cursor.atDocumentMark, after, Text.after?, List.isPrefixOf?]
  have stands := @step_blanks column outer tokens (c.advance w.length) tail false _ 0 ':' fuel
    begins after fresh (by omega)
  rw [stands, Cursor.advance_zero]
  simp [tokenAt, inBlock, noStart, noEnd, blank]

theorem isPast_none (c : Cursor) : IsPast none c := by
  simp [IsPast]

theorem leads_key (word : isWord w = true) (short : Text.byteLength w ≤ keySpan)
    (blank : blankOrEnd tail = true) (at_line : c.column = 0) (fuel : 0 < c.bound)
    (rest : c.rest = w ++ ':' :: tail) :
    Leads 2 (inBlock 1 outer true none tokens c)
      (inBlock 1 outer false none (.value :: .scalar true w :: .key :: tokens)
        (c.advance (w.length + 1))) := by
  refine (leads_keyWord word blank (Nat.le_refl 1) at_line fuel rest).trans (.single ?_ rfl)
  rw [step_colon short blank (Nat.le_refl 1) fuel rest, ← Cursor.advance_advance]
  simp [value, inBlock, insertAt, openBlock, emit, skip, at_line]

/-- The first key of a block mapping, which opens it. -/
theorem leads_firstKey (word : isWord w = true) (short : Text.byteLength w ≤ keySpan)
    (blank : blankOrEnd tail = true) (at_line : c.column = 0) (fuel : 0 < c.bound)
    (rest : c.rest = w ++ ':' :: tail) :
    Leads 2 (inBlock 0 outer true none tokens c)
      (inBlock 1 (0 :: outer) false none
        (.value :: .scalar true w :: .key :: .blockMappingStart :: tokens)
        (c.advance (w.length + 1))) := by
  refine (leads_keyWord word blank (Nat.zero_le 1) at_line fuel rest).trans (.single ?_ rfl)
  rw [step_colon short blank (Nat.zero_le 1) fuel rest, ← Cursor.advance_advance]
  have before : tokens.length + 1 + 1 - tokens.length = 2 := by omega
  simp only [value, inBlock, insertAt, openBlock, emit, skip, at_line, List.length_cons, before,
    Nat.add_sub_cancel_left, Nat.le_refl, and_self, if_true]
  rfl

theorem leads_wordValue (word : isWord w = true) (begins : BeginsLine tail) (fuel : 1 < c.bound)
    (rest : c.rest = ' ' :: (w ++ '\n' :: tail)) :
    Leads 1 (inBlock 1 outer false none tokens c)
      (inBlock 1 outer true none (.scalar true w :: tokens)
        ((c.advance 1).advance w.length).nextLine) := by
  have after : (c.advance 1).rest = w ++ '\n' :: tail :=
    Cursor.rest_advance_of_append (a := [' ']) rest
  have scalar := plainScalar_line word begins Nat.one_pos (c := c.advance 1) fuel after
  obtain ⟨first, others, rfl, lower⟩ := exists_cons_of_isWord word
  have stands := @step_blanks 1 outer tokens c _ false none 1 first (by omega)
    (beginsToken_of_isLower lower _) rest rfl (by omega)
  refine .single ?_ rfl
  rw [stands, tokenAt_word rfl after lower, plain]
  simp [inBlock, saveKey, scalar, emit]

/-- **An entry of two words** with the end of its line. -/
theorem leads_wordEntry {v : Text} (key_word : isWord w = true)
    (short : Text.byteLength w ≤ keySpan) (value_word : isWord v = true) (begins : BeginsLine tail)
    (at_line : c.column = 0) (fuel : 1 < c.bound)
    (rest : c.rest = w ++ ':' :: ' ' :: (v ++ '\n' :: tail)) :
    ∃ c', c'.rest = tail ∧ c'.column = 0 ∧ c'.bound = c.bound ∧
      Leads 3 (inBlock 1 outer true none tokens c)
        (inBlock 1 outer true none
          (.scalar true v :: .value :: .scalar true w :: .key :: tokens) c') := by
  have after : (c.advance (w.length + 1)).rest = ' ' :: (v ++ '\n' :: tail) :=
    Cursor.rest_advance_of_append_cons rest
  have line_end : (((c.advance (w.length + 1)).advance 1).advance v.length).rest = '\n' :: tail :=
    Cursor.rest_advance_of_append
      (Cursor.rest_advance_of_append (a := [' ']) after)
  exact ⟨_, Cursor.rest_nextLine line_end, Cursor.column_nextLine line_end,
    Cursor.bound_nextLine line_end, (leads_key key_word short rfl at_line (by omega) rest).trans
      (leads_wordValue value_word begins fuel after)⟩

/-! ### Sequences of quoted texts -/

/-- The dash of an entry on a new line, two columns inside the mapping. -/
theorem step_dash {allowed : Bool} {k : Option KeyStart} (inside : column ≤ 3) (past : IsPast k c)
    (fuel : 1 < c.bound) (rest : c.rest = '\n' :: ' ' :: ' ' :: '-' :: ' ' :: tail) :
    step (inBlock column outer allowed k tokens c) =
      blockEntry (inBlock column outer true none tokens (c.nextLine.advance 2)) := by
  have begins : BeginsToken ('-' :: ' ' :: tail) := by
    rintro d ⟨⟩
    decide
  have next_bound := Cursor.bound_nextLine rest
  have next_column := Cursor.column_nextLine rest
  have stands := @step_blanks column outer tokens c.nextLine _ true none 2 '-' (by omega) begins
    (Cursor.rest_nextLine rest) rfl (by omega)
  have column_two : (c.nextLine.advance 2).column = 2 := congrArg (· + 2) next_column
  rw [@step_line column outer tokens c _ allowed k 2 fuel past begins rest, stands]
  simp [tokenAt, inBlock, column_two, Cursor.atDocumentMark, blankOrEnd, isBlank]

theorem leads_quoted {d : Text} (quotable : Quotable d) (fuel : d.length < c.bound)
    (at_dash : c.column = 3) (rest : c.rest = ' ' :: '"' :: (d ++ '"' :: tail)) :
    Leads 1 (inBlock 3 outer true none tokens c)
      (inBlock 3 outer false (some ⟨false, tokens.length, c.advance 1⟩) (.scalar false d :: tokens)
        ((c.advance 1).advance (d.length + 2))) := by
  have begins : BeginsToken ('"' :: (d ++ '"' :: tail)) := by
    rintro d ⟨⟩
    decide
  have after : (c.advance 1).rest = '"' :: (d ++ '"' :: tail) :=
    Cursor.rest_advance_of_append (a := [' ']) rest
  have scalar := quotedScalar_eq quotable (c := c.advance 1) fuel after
  have stands := @step_blanks 3 outer tokens c _ true none 1 '"' (by omega) begins rest rfl
    (by omega)
  have column_four : (c.advance 1).column = 4 := by
    change c.column + 1 = 4
    omega
  refine .single ?_ rfl
  rw [stands]
  simp [tokenAt, inBlock, column_four, Cursor.atDocumentMark, keyed, saveKey, removeKey, quoted?,
    scalar, emit]

theorem leads_afterDash {d : Text} (quotable : Quotable d) (fuel : d.length < c.bound)
    (rest : c.rest = '\n' :: ' ' :: ' ' :: '-' :: ' ' :: '"' :: (d ++ '"' :: tail)) :
    ∃ c' k', c'.rest = tail ∧ c'.bound = c.bound ∧ IsPast k' c' ∧
      Leads 1 (inBlock 3 outer true none tokens ((c.nextLine.advance 2).advance 1))
        (inBlock 3 outer false k' (.scalar false d :: tokens) c') := by
  have next_bound := Cursor.bound_nextLine rest
  have after : ((c.nextLine.advance 2).advance 1).rest = ' ' :: '"' :: (d ++ '"' :: tail) := by
    rw [Cursor.advance_advance]
    exact Cursor.rest_advance_of_append (a := [' ', ' ', '-']) (Cursor.rest_nextLine rest)
  have column_three : ((c.nextLine.advance 2).advance 1).column = 3 :=
    congrArg (· + 3) (Cursor.column_nextLine rest)
  have behind := Cursor.rest_advance_of_append_cons (a := ' ' :: '"' :: d) after
  refine ⟨_, _, ?_, ?_, ?_, leads_quoted quotable (next_bound ▸ fuel) column_three after⟩
  · rw [← behind, Cursor.advance_advance]
    simp [Nat.add_comm 1]
  · exact next_bound
  · rintro k ⟨⟩
    exact ⟨rfl, Nat.le_refl _⟩

/-- **An entry of a sequence**, a quoted text, after the end of a line. -/
theorem leads_quotedEntry {k : Option KeyStart} {d : Text} (quotable : Quotable d)
    (fuel : d.length + 1 < c.bound) (past : IsPast k c)
    (rest : c.rest = '\n' :: ' ' :: ' ' :: '-' :: ' ' :: '"' :: (d ++ '"' :: tail)) :
    ∃ c' k', c'.rest = tail ∧ c'.bound = c.bound ∧ IsPast k' c' ∧
      Leads 2 (inBlock 3 outer false k tokens c)
        (inBlock 3 outer false k' (.scalar false d :: .blockEntry :: tokens) c') := by
  obtain ⟨c', k', rest', bound, past', leads⟩ :=
    @leads_afterDash outer (.blockEntry :: tokens) c tail d quotable (by omega) rest
  have column_two : (c.nextLine.advance 2).column = 2 :=
    congrArg (· + 2) (Cursor.column_nextLine rest)
  refine ⟨c', k', rest', bound, past', Leads.trans (.single ?_ rfl) leads⟩
  rw [step_dash (Nat.le_refl 3) past (by omega) rest]
  simp [blockEntry, inBlock, openBlock, column_two, removeKey, emit, skip]

/-- The first entry of a sequence, which opens it. -/
theorem leads_firstEntry {k : Option KeyStart} {d : Text} (quotable : Quotable d)
    (fuel : d.length + 1 < c.bound) (past : IsPast k c)
    (rest : c.rest = '\n' :: ' ' :: ' ' :: '-' :: ' ' :: '"' :: (d ++ '"' :: tail)) :
    ∃ c' k', c'.rest = tail ∧ c'.bound = c.bound ∧ IsPast k' c' ∧
      Leads 2 (inBlock 1 outer false k tokens c)
        (inBlock 3 (1 :: outer) false k'
          (.scalar false d :: .blockEntry :: .blockSequenceStart :: tokens) c') := by
  obtain ⟨c', k', rest', bound, past', leads⟩ :=
    @leads_afterDash (1 :: outer) (.blockEntry :: .blockSequenceStart :: tokens) c tail d quotable
      (by omega) rest
  have column_two : (c.nextLine.advance 2).column = 2 :=
    congrArg (· + 2) (Cursor.column_nextLine rest)
  refine ⟨c', k', rest', bound, past', Leads.trans (.single ?_ rfl) leads⟩
  rw [step_dash (by omega) past (by omega) rest]
  simp [blockEntry, inBlock, openBlock, column_two, removeKey, emit, skip, insertAt]

/-! ### The end -/

theorem run_end (rest : c.rest = []) (n : Nat) :
    (run (n + 1) (inBlock 1 [0] true none tokens c)).map Scan.tokens =
      some (.streamEnd :: .blockEnd :: tokens) := by
  have begins : BeginsToken c.rest := by
    rw [rest]
    simp [BeginsToken]
  have reached : dropStaleKeys (toToken c.bound (inBlock 1 [0] true none tokens c)) =
      some (inBlock 1 [0] true none tokens c) := by
    rw [toToken_self begins]
    exact dropStaleKeys_inBlock rfl
  have ended : step (inBlock 1 [0] true none tokens c) =
      streamEnd (inBlock 1 [0] true none tokens c) := step_eq_streamEnd reached rest
  rw [run, ended]
  rfl

end

end Scan

end MessageDocs.Yaml
