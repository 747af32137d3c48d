import Mathlib.Data.List.Forall2
import MessageDocs.Proofs.Metadata

/-! # What comments say

Each leading token of a comment says one thing by its key, or is refused; of several tokens that say
the same kind of thing the last one counts.

* `Metadata.Outcome`: what follows from the tags, for a reading of the names after the enum key.
* `Metadata.read_grammar`: every comment is read in this way. The names after the enum key are not
  all the words after it: `Metadata.namesBehind` drops the first one when it touches the key.
-/

set_option autoImplicit false

namespace MessageDocs.Metadata

open Text

/-- The tags of the tokens: what stands in their brackets. -/
def tagsOf (tokens : List Token) : List Text :=
  tokens.map fun token => trim token.inside

/-! ## Tags -/

inductive Key where
  | enum
  | range
  | invalid

def Key.text : Key → Text
  | enum => "@enum"
  | range => "@range"
  | invalid => "@invalid"

/-- What a tag says. The names after the enum key are not read yet. -/
inductive Saying where
  | unit (name : Text)
  | enum (names : Text)
  | range (lo hi : Text)
  | invalid (value : Text)

/-- What a key says of the text after it. -/
def Key.Says (rest : Text) : Key → Saying → Prop
  | enum, saying => saying = .enum rest
  | range, saying => ∃ lo hi, AreBounds rest lo hi ∧ saying = .range lo hi
  | invalid, saying => saying = .invalid (trim rest)

inductive Says (tag : Text) : Saying → Prop
  | unit (plain : tag.head? ≠ some '@') : Says tag (.unit tag)
  | key {key : Key} {rest : Text} {saying : Saying} (parts : tag = key.text ++ rest)
      (said : key.Says rest saying) : Says tag saying

inductive Fails (tag : Text) : MetadataError → Prop
  | range {rest : Text} (parts : tag = Key.range.text ++ rest)
      (malformed : ¬∃ lo hi, AreBounds rest lo hi) : Fails tag (.malformedRange tag)
  | unknown (marked : tag.head? = some '@')
      (keyless : ∀ (key : Key) (rest : Text), tag ≠ key.text ++ rest) : Fails tag (.unknownTag tag)

theorem Key.head?_text_append (key : Key) (rest : Text) :
    (key.text ++ rest).head? = some '@' := by
  cases key <;> rfl

/-- What tells the keys apart. -/
def Key.initial : Key → Char
  | enum => 'e'
  | range => 'r'
  | invalid => 'i'

theorem Key.initial_inj {key key' : Key} (same : key.initial = key'.initial) : key = key' := by
  cases key <;> cases key' <;> simp [Key.initial] at same ⊢

theorem Key.second?_text_append (key : Key) (rest : Text) :
    (key.text ++ rest)[1]? = some key.initial := by
  cases key <;> rfl

/-- No key begins another one. -/
theorem Key.text_append_inj {key key' : Key} {rest rest' : Text}
    (same : key.text ++ rest = key'.text ++ rest') : key = key' ∧ rest = rest' := by
  have second : some key.initial = some key'.initial := by
    rw [← key.second?_text_append rest, ← key'.second?_text_append rest', same]
  obtain rfl := Key.initial_inj (Option.some.inj second)
  exact ⟨rfl, List.append_cancel_left same⟩

theorem Key.Says.unique {key : Key} {rest : Text} {s s' : Saying} (h : key.Says rest s)
    (h' : key.Says rest s') : s = s' := by
  cases key with
  | enum => exact h.trans h'.symm
  | invalid => exact h.trans h'.symm
  | range =>
    obtain ⟨lo, hi, bounds, rfl⟩ := h
    obtain ⟨lo', hi', bounds', rfl⟩ := h'
    have same := (bounds?_eq_some_iff.mpr bounds).symm.trans (bounds?_eq_some_iff.mpr bounds')
    cases same
    rfl

theorem Says.unique {tag : Text} {s s' : Saying} (h : Says tag s) (h' : Says tag s') : s = s' := by
  cases h with
  | unit plain =>
    cases h' with
    | unit _ => rfl
    | @key key rest _ parts _ => exact absurd (parts ▸ key.head?_text_append rest) plain
  | @key key rest _ parts said =>
    cases h' with
    | unit plain => exact absurd (parts ▸ key.head?_text_append rest) plain
    | key parts' said' =>
      obtain ⟨rfl, rfl⟩ := Key.text_append_inj (parts.symm.trans parts')
      exact said.unique said'

/-- Every tag says something or fails. -/
theorem said_or_failed (tag : Text) : (∃ saying, Says tag saying) ∨ ∃ e, Fails tag e := by
  by_cases marked : tag.head? = some '@'
  · by_cases keyed : ∃ (key : Key) (rest : Text), tag = key.text ++ rest
    · obtain ⟨key, rest, parts⟩ := keyed
      cases key with
      | enum => exact Or.inl ⟨_, .key parts rfl⟩
      | invalid => exact Or.inl ⟨_, .key parts rfl⟩
      | range =>
        by_cases bounds : ∃ lo hi, AreBounds rest lo hi
        · obtain ⟨lo, hi, bounds⟩ := bounds
          exact Or.inl ⟨_, .key parts ⟨lo, hi, bounds, rfl⟩⟩
        · exact Or.inr ⟨_, .range parts bounds⟩
    · exact Or.inr ⟨_, .unknown marked fun key rest parts => keyed ⟨key, rest, parts⟩⟩
  · exact Or.inl ⟨_, .unit marked⟩

/-! ## The names after the enum key -/

/-- Whether a text begins with white space, or is empty. -/
def IsDetached (t : Text) : Prop :=
  ∀ c ∈ t.head?, isSpace c = true

instance (t : Text) : Decidable (IsDetached t) :=
  match t with
  | [] => isTrue (by simp [IsDetached])
  | c :: _ => decidable_of_iff (isSpace c = true) (by simp [IsDetached])

/-- The words after a key, without one that touches it. -/
def namesBehind (rest : Text) : List Text :=
  if IsDetached rest then words rest else (words rest).tail

/-- What touches a key is a word. -/
theorem exists_isWord_of_attached {rest : Text} (h : ¬IsDetached rest) :
    ∃ w u, rest = w ++ u ∧ IsWord w ∧ IsDetached u := by
  cases rest with
  | nil => exact absurd (by simp [IsDetached]) h
  | cons c rest =>
    refine exists_isWord_append (by simp) ?_
    rintro d ⟨⟩
    simpa [IsDetached] using h

theorem tail_words_append {key : Text} (hk : IsWord key) (rest : Text) :
    (words (key ++ rest)).tail = namesBehind rest := by
  unfold namesBehind
  split
  · next detached => rw [words_append_of_isWord hk detached, List.tail_cons]
  · next attached =>
    obtain ⟨w, u, rfl, word, stop⟩ := exists_isWord_of_attached attached
    rw [← List.append_assoc, words_append_of_isWord (hk.append word) stop,
      words_append_of_isWord word stop, List.tail_cons, List.tail_cons]

theorem namesBehind_eq_words_iff {rest : Text} :
    namesBehind rest = words rest ↔ IsDetached rest := by
  unfold namesBehind
  split
  · next detached => exact iff_of_true rfl detached
  · next attached =>
    refine iff_of_false ?_ attached
    obtain ⟨w, u, rfl, word, stop⟩ := exists_isWord_of_attached attached
    rw [words_append_of_isWord word stop, List.tail_cons]
    exact (List.cons_ne_self w (words u)).symm

/-! ## What all tags say -/

namespace Saying

def unit? : Saying → Option Text
  | unit name => some name
  | _ => none

def enum? : Saying → Option Text
  | enum names => some names
  | _ => none

def range? : Saying → Option (Text × Text)
  | range lo hi => some (lo, hi)
  | _ => none

def invalid? : Saying → Option Text
  | invalid value => some value
  | _ => none

/-- The metadata with one more thing said. -/
def addTo (names : Text → List Text) (m : Metadata) : Saying → Metadata
  | unit name => { m with unit := some name }
  | enum rest => { m with enumTags := names rest }
  | range lo hi => { m with minimum := some lo, maximum := some hi }
  | invalid value => { m with invalid := some value }

end Saying

/-- What was said last of one kind. -/
def last? {α : Type} (kind : Saying → Option α) (sayings : List Saying) : Option α :=
  (sayings.filterMap kind).getLast?

/-- The metadata that has the last saying of each kind. -/
def saidBy (names : Text → List Text) (description : Text) (sayings : List Saying) : Metadata where
  description := description
  unit := last? Saying.unit? sayings
  enumTags := ((last? Saying.enum? sayings).map names).getD []
  minimum := (last? Saying.range? sayings).map Prod.fst
  maximum := (last? Saying.range? sayings).map Prod.snd
  invalid := last? Saying.invalid? sayings

/-- What the tags of a comment lead to: all that they say, or the first failure. -/
inductive Outcome (names : Text → List Text) (tags : List Text) (description : Text) :
    Except MetadataError Metadata → Prop
  | said {sayings : List Saying} (each : List.Forall₂ Says tags sayings) :
      Outcome names tags description (.ok (saidBy names description sayings))
  | failed {before after : List Text} {tag : Text} {e : MetadataError}
      (parts : tags = before ++ tag :: after) (said : ∀ t ∈ before, ∃ saying, Says t saying)
      (fails : Fails tag e) : Outcome names tags description (.error e)

theorem last?_concat {α : Type} (kind : Saying → Option α) (sayings : List Saying) (s : Saying) :
    last? kind (sayings ++ [s]) = (kind s).or (last? kind sayings) := by
  rw [last?, List.filterMap_append, List.getLast?_append]
  cases h : kind s <;> simp [last?, h]

theorem saidBy_concat (names : Text → List Text) (description : Text) (sayings : List Saying)
    (s : Saying) :
    saidBy names description (sayings ++ [s]) =
      s.addTo names (saidBy names description sayings) := by
  cases s <;> simp [saidBy, last?_concat, Saying.addTo, Saying.unit?, Saying.enum?, Saying.range?,
    Saying.invalid?]

theorem foldl_addTo (names : Text → List Text) (description : Text) (sayings : List Saying) :
    sayings.foldl (Saying.addTo names) { description := description } =
      saidBy names description sayings := by
  induction sayings using List.reverseRecOn with
  | nil => rfl
  | append_singleton sayings s ih => rw [List.foldl_concat, ih, saidBy_concat]

theorem Says.addTag {tag : Text} {s : Saying} (h : Says tag s) (m : Metadata) :
    addTag m tag = .ok (s.addTo namesBehind m) := by
  cases h with
  | unit plain => exact addTag_unit plain
  | @key key rest _ parts said =>
    subst parts
    cases key with
    | enum =>
      have word : IsWord Key.enum.text := isWord_of_all (by decide) (by decide)
      cases said
      rw [Saying.addTo, ← tail_words_append word]
      exact addTag_enum m rest
    | range =>
      obtain ⟨lo, hi, bounds, rfl⟩ := said
      have added := addTag_range m rest
      rw [bounds?_eq_some_iff.mpr bounds] at added
      exact added
    | invalid =>
      cases said
      exact addTag_invalid m rest

theorem Fails.addTag {tag : Text} {e : MetadataError} (h : Fails tag e) (m : Metadata) :
    addTag m tag = .error e := by
  cases h with
  | @range rest parts malformed =>
    have none : bounds? rest = none := by
      by_contra some_bounds
      obtain ⟨⟨lo, hi⟩, bounds⟩ := Option.ne_none_iff_exists'.mp some_bounds
      exact malformed ⟨lo, hi, bounds?_eq_some_iff.mp bounds⟩
    have added := addTag_range m rest
    rw [none] at added
    subst parts
    exact added
  | unknown marked keyless =>
    have absent : ∀ key : Key, after? key.text tag = none := by
      intro key
      by_contra present
      obtain ⟨rest, parts⟩ := Option.ne_none_iff_exists'.mp present
      exact keyless key rest (after?_eq_some_iff.mp parts)
    have enum : after? "@enum" tag = none := absent .enum
    have range : after? "@range" tag = none := absent .range
    have invalid : after? "@invalid" tag = none := absent .invalid
    rw [Metadata.addTag, if_neg (by simp [marked]), enum, range, invalid]
    rfl

theorem addTags_of_said {tags : List Text} {sayings : List Saying}
    (h : List.Forall₂ Says (tags.map trim) sayings) (m : Metadata) :
    addTags m tags = .ok (sayings.foldl (Saying.addTo namesBehind) m) := by
  induction tags generalizing m sayings with
  | nil =>
    cases h
    rfl
  | cons tag tags ih =>
    cases h with
    | cons here rest =>
      rw [addTags, here.addTag]
      exact ih rest _

theorem exists_sayings_iff {tags : List Text} :
    (∃ sayings, List.Forall₂ Says tags sayings) ↔ ∀ tag ∈ tags, ∃ saying, Says tag saying := by
  induction tags with
  | nil => exact iff_of_true ⟨[], .nil⟩ (by simp)
  | cons tag tags ih =>
    rw [List.forall_mem_cons, ← ih]
    constructor
    · rintro ⟨sayings, each⟩
      cases each with
      | cons here rest => exact ⟨⟨_, here⟩, _, rest⟩
    · rintro ⟨⟨saying, here⟩, sayings, rest⟩
      exact ⟨saying :: sayings, .cons here rest⟩

/-- All tags say something, or there is a first one that fails. -/
theorem all_said_or_first_failed (tags : List Text) :
    (∀ tag ∈ tags, ∃ saying, Says tag saying) ∨
      ∃ before tag after e, tags = before ++ tag :: after ∧
        (∀ t ∈ before, ∃ saying, Says t saying) ∧ Fails tag e := by
  induction tags with
  | nil => exact Or.inl (by simp)
  | cons tag tags ih =>
    rcases said_or_failed tag with here | ⟨e, fails⟩
    · rcases ih with all | ⟨before, bad, after, e, rfl, said, fails⟩
      · exact Or.inl (List.forall_mem_cons.mpr ⟨here, all⟩)
      · exact Or.inr ⟨tag :: before, bad, after, e, rfl,
          List.forall_mem_cons.mpr ⟨here, said⟩, fails⟩
    · exact Or.inr ⟨[], tag, tags, e, rfl, by simp, fails⟩

theorem exists_outcome (names : Text → List Text) (tags : List Text) (description : Text) :
    ∃ result, Outcome names tags description result := by
  rcases all_said_or_first_failed tags with all | ⟨before, tag, after, e, parts, said, fails⟩
  · obtain ⟨sayings, each⟩ := exists_sayings_iff.mpr all
    exact ⟨_, .said each⟩
  · exact ⟨_, .failed parts said fails⟩

theorem Outcome.addTags {tags : List Text} {description : Text}
    {result : Except MetadataError Metadata}
    (h : Outcome namesBehind (tags.map trim) description result) :
    addTags { description := description } tags = result := by
  cases h with
  | said each => rw [addTags_of_said each, foldl_addTo]
  | failed parts said fails =>
    obtain ⟨before, rest, rfl, rfl, rest_eq⟩ := List.map_eq_append_iff.mp parts
    obtain ⟨tag, after, rfl, rfl, -⟩ := List.map_eq_cons_iff.mp rest_eq
    obtain ⟨sayings, each⟩ := exists_sayings_iff.mpr said
    rw [addTags_append (addTags_of_said each _), Metadata.addTags, fails.addTag]

theorem addTags_eq_iff {tags : List Text} {description : Text}
    {result : Except MetadataError Metadata} :
    addTags { description := description } tags = result ↔
      Outcome namesBehind (tags.map trim) description result := by
  constructor
  · rintro rfl
    obtain ⟨result, outcome⟩ := exists_outcome namesBehind (tags.map trim) description
    rwa [outcome.addTags]
  · exact Outcome.addTags

/-! ## All words after the enum key -/

theorem Says.not_fails {tag : Text} {s : Saying} {e : MetadataError} (h : Says tag s) :
    ¬Fails tag e := by
  intro fails
  have added := (h.addTag {}).symm.trans (fails.addTag {})
  cases added

theorem sayings_unique {tags : List Text} {sayings sayings' : List Saying}
    (h : List.Forall₂ Says tags sayings) (h' : List.Forall₂ Says tags sayings') :
    sayings = sayings' := by
  have unique : Relator.RightUnique Says := fun _ _ _ => Says.unique
  exact unique.forall₂ h h'

theorem saidBy_namesBehind_eq_iff {description : Text} {sayings : List Saying} :
    saidBy namesBehind description sayings = saidBy words description sayings ↔
      ∀ rest ∈ last? Saying.enum? sayings, IsDetached rest := by
  rw [saidBy, saidBy, Metadata.mk.injEq]
  cases last? Saying.enum? sayings with
  | none => simp
  | some rest => simp [namesBehind_eq_words_iff]

theorem Outcome.exists_sayings {names : Text → List Text} {tags : List Text} {description : Text}
    {m : Metadata} (h : Outcome names tags description (.ok m)) :
    ∃ sayings, List.Forall₂ Says tags sayings ∧ m = saidBy names description sayings := by
  cases h with
  | said each => exact ⟨_, each, rfl⟩

/-- The names are all words after the last enum key exactly when white space follows that key. -/
theorem Outcome.words_iff {tags : List Text} {description : Text}
    {result : Except MetadataError Metadata} (h : Outcome namesBehind tags description result) :
    Outcome words tags description result ↔ ∀ sayings, List.Forall₂ Says tags sayings →
      ∀ rest ∈ last? Saying.enum? sayings, IsDetached rest := by
  cases h with
  | said each =>
    constructor
    · intro outcome sayings each'
      obtain ⟨sayings'', each'', same⟩ := outcome.exists_sayings
      obtain rfl := sayings_unique each each'
      obtain rfl := sayings_unique each each''
      exact saidBy_namesBehind_eq_iff.mp same
    · intro detached
      rw [saidBy_namesBehind_eq_iff.mpr (detached _ each)]
      exact .said each
  | failed parts said fails =>
    refine iff_of_true (.failed parts said fails) ?_
    intro sayings each
    rw [parts] at each
    obtain ⟨saying, here⟩ := exists_sayings_iff.mp ⟨sayings, each⟩ _ List.mem_append_cons_self
    exact absurd fails here.not_fails

/-! ## All comments -/

theorem read_eq_iff_of_isCut {c rest : Text} {tokens : List Token}
    (cut : IsCut (trim c) tokens rest) (result : Except MetadataError Metadata) :
    read (some c) = result ↔ Outcome namesBehind (tagsOf tokens) (trim rest) result := by
  rw [read, Option.getD_some, cut.splitTags_eq]
  dsimp only
  rw [addTags_eq_iff, List.map_map]
  rfl

theorem read_of_not_isTagged {c : Text} (h : ¬IsTagged (trim c)) :
    read (some c) = .ok { description := trim c } := by
  obtain ⟨tokens, cut, -⟩ := exists_isCut_splitTags (isTrimmed_trim c).start
  have none : tokens = [] := not_not.mp fun some_tokens => h (cut.isTagged_iff.mpr some_tokens)
  subst none
  rw [read, Option.getD_some, cut.splitTags_eq, ← (isCut_nil_iff.mp cut).1]
  dsimp only
  rw [trim_eq_self (isTrimmed_trim c)]
  rfl

/-- **The grammar of comments.** A comment that begins with no closed bracket is a description.
Every other one is cut in one way into tokens and a rest, and it is read as what follows from the
tags in order; all words after the last enum key are names exactly when white space follows it. -/
theorem read_grammar (c : Text) :
    (¬IsTagged (trim c) → read (some c) = .ok { description := trim c }) ∧
    (IsTagged (trim c) → ∃ tokens rest, (tokens ≠ [] ∧ IsCut (trim c) tokens rest ∧
        ∀ tokens' rest', IsCut (trim c) tokens' rest' → tokens' = tokens ∧ rest' = rest) ∧
      (∀ result, read (some c) = result ↔
        Outcome namesBehind (tagsOf tokens) (trim rest) result) ∧
      (Outcome words (tagsOf tokens) (trim rest) (read (some c)) ↔
        ∀ sayings, List.Forall₂ Says (tagsOf tokens) sayings →
          ∀ names ∈ last? Saying.enum? sayings, IsDetached names)) := by
  refine ⟨read_of_not_isTagged, fun tagged => ?_⟩
  obtain ⟨tokens, cut, -⟩ := exists_isCut_splitTags (isTrimmed_trim c).start
  have outcome := (read_eq_iff_of_isCut cut _).mp rfl
  exact ⟨tokens, _, ⟨cut.isTagged_iff.mp tagged, cut, fun _ _ other => other.unique cut⟩,
    read_eq_iff_of_isCut cut, outcome.words_iff⟩

/-- A tag whose name touches the enum key, and the blank after it. -/
def touching : Token :=
  ⟨"@enumMODE", " ", by decide, by simp [isSpace_blank]⟩

/-- The name that touches the enum key is a word after it, and it is lost. -/
theorem touching_name_lost :
    IsCut (trim "[@enumMODE] mode") [touching] "mode" ∧
    Outcome words (tagsOf [touching]) (trim "mode")
      (.ok { description := "mode", enumTags := ["MODE"] }) ∧
    read (some "[@enumMODE] mode") = .ok { description := "mode" } ∧
    ¬Outcome words (tagsOf [touching]) (trim "mode") (read (some "[@enumMODE] mode")) := by
  have cut : IsCut (trim "[@enumMODE] mode") [touching] "mode" := by
    refine ⟨by decide, fun token after parts => ?_, ?_⟩
    · have first := congrArg List.head? parts
      rw [head?_text] at first
      cases first
    · rintro c ⟨⟩
      decide
  have parts : ("@enumMODE" : Text) = Key.enum.text ++ "MODE" := rfl
  have name : Says "@enumMODE" (.enum "MODE") := .key parts rfl
  have each : List.Forall₂ Says (tagsOf [touching]) [.enum "MODE"] := .cons name .nil
  have outcome := (read_eq_iff_of_isCut cut _).mp rfl
  refine ⟨cut, .said each, rfl, fun all => ?_⟩
  have detached := outcome.words_iff.mp all _ each "MODE" rfl
  exact absurd detached (by decide)

end MessageDocs.Metadata
