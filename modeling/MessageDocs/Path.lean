import MessageDocs.Text

/-! # Paths

A path keeps the form in which it was written, and all questions about it are answered on its
components. Empty segments and inner `.` segments are no components, so `a//b/.` and `a/b` have
the same components although they are different texts.

* `Path.components` lists the components; a leading `/` and a leading `.` are components.
* `Path.join` works on the written form, `Path.parent?`, `Path.stripPrefix?` and
  `Path.startsWith` on components, keeping the written form of what remains.
* `Path.fileName?` divides into `Path.fileStem?` and `Path.extension?` at its last dot.
-/

set_option autoImplicit false

namespace MessageDocs

/-- A path as it was written, with `/` between its segments. -/
structure Path where
  text : Text
  deriving DecidableEq, Inhabited, Repr

namespace Path

/-! ## Components -/

inductive Component where
  /-- The leading `/` of an absolute path. -/
  | root
  /-- The leading `.` of a relative path. -/
  | here
  /-- A `..` segment. -/
  | up
  | name (n : Text)
  deriving DecidableEq, Repr

/-- Components are ordered by kind, and names among each other as texts. -/
def Component.rank : Component → Nat
  | root => 0
  | here => 1
  | up => 2
  | name _ => 3

def Component.label : Component → Text
  | name n => n
  | _ => []

instance : LT Component :=
  ⟨fun a b => a.rank < b.rank ∨ a.rank = b.rank ∧ a.label < b.label⟩

/-- The component that a segment after the first one stands for. -/
def Component.ofSegment? (segment : Text) : Option Component :=
  if segment = [] ∨ segment = ['.'] then none
  else if segment = ['.', '.'] then some up
  else some (name segment)

def isSignificant (segment : Text) : Bool :=
  (Component.ofSegment? segment).isSome

/-- A path as its leading component, if it is `/` or `.`, and the segments after it. -/
structure Parts where
  lead : Option Component
  segments : List Text

def segmentsOf (t : Text) : List Text :=
  Text.split (· == '/') t

def parts (p : Path) : Parts :=
  match p.text with
  | '/' :: rest => ⟨some .root, segmentsOf rest⟩
  | ['.'] => ⟨some .here, [[]]⟩
  | '.' :: '/' :: rest => ⟨some .here, segmentsOf ('/' :: rest)⟩
  | text => ⟨none, segmentsOf text⟩

def components (p : Path) : List Component :=
  p.parts.lead.toList ++ p.parts.segments.filterMap Component.ofSegment?

/-- Two written forms of the same path. -/
def Same (p q : Path) : Prop :=
  p.components = q.components

instance (p q : Path) : Decidable (Same p q) :=
  inferInstanceAs (Decidable (p.components = q.components))

/-! ## Written forms of parts -/

def leadText : Option Component → Text
  | some .root => ['/']
  | some .here => ['.']
  | _ => []

def ofParts (parts : Parts) : Path :=
  ⟨leadText parts.lead ++ Text.join "/" parts.segments⟩

/-- Segments without the insignificant ones at their end. -/
def trimSegmentsEnd (segments : List Text) : List Text :=
  (segments.reverse.dropWhile (!isSignificant ·)).reverse

/-- Segments without their last significant one and all that follows it. -/
def dropLastSegment (segments : List Text) : List Text :=
  trimSegmentsEnd (trimSegmentsEnd segments).dropLast

/-- Segments without the first `n` significant ones and what precedes them. -/
def dropSegments : Nat → List Text → List Text
  | 0, segments => segments
  | n + 1, segments => dropSegments n (segments.dropWhile (!isSignificant ·)).tail

/-! ## Building paths -/

def isAbsolute (p : Path) : Bool :=
  p.text.head? = some '/'

/-- `q` seen from `p`: an absolute path replaces, any other is appended after a `/`. -/
def join (p q : Path) : Path :=
  if q.isAbsolute then
    q
  else if p.text = [] ∨ p.text.getLast? = some '/' then
    ⟨p.text ++ q.text⟩
  else
    ⟨p.text ++ '/' :: q.text⟩

/-- The relative path through the given names. -/
def ofNames (names : List Text) : Path :=
  ⟨Text.join "/" names⟩

/-- The absolute path through the given names. -/
def absolute (names : List Text) : Path :=
  ⟨'/' :: Text.join "/" names⟩

def joinNames (p : Path) (names : List Text) : Path :=
  names.foldl (fun p n => p.join ⟨n⟩) p

/-! ## Ancestors -/

/-- The path without its last component; none for the root and for the empty path. -/
def parent? (p : Path) : Option Path :=
  let parts := p.parts
  if parts.segments.any isSignificant then
    some (ofParts { parts with segments := dropLastSegment parts.segments })
  else if parts.lead = some .here then
    some ⟨[]⟩
  else
    none

/-- A path and its ancestors, innermost first, as many as the first argument allows. -/
def ancestorsUpTo : Nat → Path → List Path
  | 0, p => [p]
  | n + 1, p =>
    match p.parent? with
    | none => [p]
    | some q => p :: ancestorsUpTo n q

/-- A path and its ancestors, innermost first: one more than there are components to remove. -/
def ancestors (p : Path) : List Path :=
  ancestorsUpTo p.components.length p

/-! ## Comparing by components -/

def startsWith (p base : Path) : Bool :=
  base.components.isPrefixOf p.components

/-- What remains of a path after the components of `base`, as it was written. -/
def stripPrefix? (p base : Path) : Option Path :=
  if base.components.isPrefixOf p.components then
    let parts := p.parts
    match base.components.length with
    | 0 => some (ofParts { parts with segments := trimSegmentsEnd parts.segments })
    | n + 1 =>
      let taken := if parts.lead.isSome then n else n + 1
      let rest := (dropSegments taken parts.segments).dropWhile (!isSignificant ·)
      some ⟨Text.join "/" (trimSegmentsEnd rest)⟩
  else
    none

/-! ## File names -/

def fileName? (p : Path) : Option Text :=
  match p.components.getLast? with
  | some (.name n) => some n
  | _ => none

/-- A file name cut at its last dot. A name whose only dot is its first character is not cut. -/
def cutExtension (name : Text) : Text × Option Text :=
  match Text.cutAt '.' name.reverse with
  | some (tail, c :: stem) => ((c :: stem).reverse, some tail.reverse)
  | _ => (name, none)

def fileStem? (p : Path) : Option Text :=
  p.fileName?.map fun n => (cutExtension n).1

def extension? (p : Path) : Option Text :=
  p.fileName?.bind fun n => (cutExtension n).2

end Path

end MessageDocs
