import MessageDocs.Roster
import MessageDocs.Yaml.Token

/-! # YAML events

The content of a YAML text as a sequence of events: scalars and aliases, and the starts and ends
of sequences and mappings, in the order of the text. A text holds at most one document.

* `Goal` names what the grammar still expects; `Events.step` meets the first goal.
* `Event.ofText?` gives the events of a text, none for an ill-formed text or several documents.
-/

set_option autoImplicit false

namespace MessageDocs.Yaml

inductive Event where
  | scalar (anchor : Option Text) (tag : Option Tag) (plain : Bool) (text : Text)
  | alias (name : Text)
  | sequenceStart (anchor : Option Text) (tag : Option Tag)
  | sequenceEnd
  | mappingStart (anchor : Option Text) (tag : Option Tag)
  | mappingEnd
  deriving DecidableEq, Repr

/-- What the grammar expects next. -/
inductive Goal where
  /-- A value; block collections, and block sequences without indentation, if allowed. -/
  | node (block indentless : Bool)
  | blockEntries
  | indentlessEntries
  | blockKey
  | blockValue
  | flowEntries (first : Bool)
  /-- The key, the value and the end of a single pair among the entries of a flow sequence. -/
  | pairKey
  | pairValue
  | pairEnd
  | flowKey (first : Bool)
  | flowValue
  | noFlowValue
  deriving DecidableEq, Repr

/-- A token sequence in the course of being read. -/
structure Events where
  tokens : List Token
  goals : List Goal
  /-- The events so far, the last one first. -/
  events : List Event := []
  /-- What the handles of tags stand for. -/
  handles : List (Text × Tag)

/-- The handles that need no declaration. -/
def standardHandles : List (Text × Tag) :=
  [("!", Tag.nonSpecific), ("!!", Tag.ofText "tag:yaml.org,2002:")]

namespace Events

def emptyScalar : Event :=
  .scalar none none true []

/-- The state with an event emitted, tokens consumed and goals to meet before the others. -/
def go (s : Events) (emitted : List Event) (tokens : List Token) (goals : List Goal) : Events :=
  { s with tokens := tokens, goals := goals ++ s.goals, events := emitted.reverse ++ s.events }

/-- The state after a value that is left out if one of some tokens comes next. -/
def orEmpty (s : Events) (tokens : List Token) (absent : Token → Bool) (node next : Goal) :
    Events :=
  if tokens.head?.any absent then
    s.go [emptyScalar] tokens [next]
  else
    s.go [] tokens [node, next]

/-! ## Values -/

/-- The properties written before a value. -/
structure Properties where
  anchor : Option Text := none
  tag : Option (Text × Tag) := none

/-- At most one anchor and one tag, in either order, and the tokens after them. -/
def properties : List Token → Properties × List Token
  | .anchor a :: .tag h s :: rest => ({ anchor := some a, tag := some (h, s) }, rest)
  | .anchor a :: rest => ({ anchor := some a }, rest)
  | .tag h s :: .anchor a :: rest => ({ anchor := some a, tag := some (h, s) }, rest)
  | .tag h s :: rest => ({ tag := some (h, s) }, rest)
  | rest => ({}, rest)

/-- The full form of a tag; none for a handle that stands for nothing. -/
def fullTag? (handles : List (Text × Tag)) : Option (Text × Tag) → Option (Option Tag)
  | none => some none
  | some (handle, suffix) =>
    if handle = [] then
      some (some suffix)
    else
      (handles.find? (·.1 = handle)).map fun h => some (h.2 ++ suffix)

def content (block indentless : Bool) (anchor : Option Text) (tag : Option Tag) (bare : Bool)
    (s : Events) (tokens : List Token) : Option Events :=
  match tokens with
  | .scalar plain text :: rest =>
    some (s.go [.scalar anchor tag plain text] rest [])
  | .flowSequenceStart :: rest =>
    some (s.go [.sequenceStart anchor tag] rest [.flowEntries true])
  | .flowMappingStart :: rest => some (s.go [.mappingStart anchor tag] rest [.flowKey true])
  | token :: rest =>
    if token = .blockEntry ∧ indentless then
      some (s.go [.sequenceStart anchor tag] tokens [.indentlessEntries])
    else if token = .blockSequenceStart ∧ block then
      some (s.go [.sequenceStart anchor tag] rest [.blockEntries])
    else if token = .blockMappingStart ∧ block then
      some (s.go [.mappingStart anchor tag] rest [.blockKey])
    else if bare then
      none
    else
      some (s.go [.scalar anchor tag true []] tokens [])
  | [] => none

def node (block indentless : Bool) (s : Events) : Option Events :=
  match s.tokens with
  | .alias name :: rest => some (s.go [.alias name] rest [])
  | tokens =>
    let (given, rest) := properties tokens
    match fullTag? s.handles given.tag with
    | none => none
    | some tag =>
      content block indentless given.anchor tag (given.anchor.isNone && given.tag.isNone) s rest

/-! ## Collections -/

def blockEntries (s : Events) : Option Events :=
  match s.tokens with
  | .blockEntry :: rest =>
    some (s.orEmpty rest (fun t => t = .blockEntry || t = .blockEnd) (.node true false)
      .blockEntries)
  | .blockEnd :: rest => some (s.go [.sequenceEnd] rest [])
  | _ => none

def indentlessEntries (s : Events) : Option Events :=
  match s.tokens with
  | .blockEntry :: rest =>
    some (s.orEmpty rest
      (fun t => t = .blockEntry || t = .key || t = .value || t = .blockEnd) (.node true false)
      .indentlessEntries)
  | tokens => some (s.go [.sequenceEnd] tokens [])

def endsBlockPart (t : Token) : Bool :=
  t = .key || t = .value || t = .blockEnd

def blockKey (s : Events) : Option Events :=
  match s.tokens with
  | .key :: rest => some (s.orEmpty rest endsBlockPart (.node true true) .blockValue)
  | .blockEnd :: rest => some (s.go [.mappingEnd] rest [])
  | _ => none

def blockValue (s : Events) : Option Events :=
  match s.tokens with
  | .value :: rest => some (s.orEmpty rest endsBlockPart (.node true true) .blockKey)
  | tokens => some (s.go [emptyScalar] tokens [.blockKey])

/-- The tokens of the next entry of a flow collection: entries but the first follow a comma. -/
def afterComma? (first : Bool) (tokens : List Token) : Option (List Token) :=
  if first then
    some tokens
  else
    match tokens with
    | .flowEntry :: rest => some rest
    | _ => none

def flowEntries (first : Bool) (s : Events) : Option Events :=
  match s.tokens with
  | .flowSequenceEnd :: rest => some (s.go [.sequenceEnd] rest [])
  | tokens =>
    match afterComma? first tokens with
    | none => none
    | some (.key :: rest) =>
      some (s.go [.mappingStart none none] rest [.pairKey, .flowEntries false])
    | some (.flowSequenceEnd :: rest) => some (s.go [.sequenceEnd] rest [])
    | some rest => some (s.go [] rest [.node false false, .flowEntries false])

/-- The key of a single pair. A key that is left out takes the next token with it. -/
def pairKey (s : Events) : Option Events :=
  match s.tokens with
  | t :: rest =>
    if t = .value ∨ t = .flowEntry ∨ t = .flowSequenceEnd then
      some (s.go [emptyScalar] rest [.pairValue])
    else
      some (s.go [] s.tokens [.node false false, .pairValue])
  | [] => none

def pairValue (s : Events) : Option Events :=
  match s.tokens with
  | .value :: rest =>
    some (s.orEmpty rest (fun t => t = .flowEntry || t = .flowSequenceEnd) (.node false false)
      .pairEnd)
  | tokens => some (s.go [emptyScalar] tokens [.pairEnd])

def flowKey (first : Bool) (s : Events) : Option Events :=
  match s.tokens with
  | .flowMappingEnd :: rest => some (s.go [.mappingEnd] rest [])
  | tokens =>
    match afterComma? first tokens with
    | none => none
    | some (.key :: rest) =>
      some (s.orEmpty rest (fun t => t = .value || t = .flowEntry || t = .flowMappingEnd)
        (.node false false) .flowValue)
    | some (.flowMappingEnd :: rest) => some (s.go [.mappingEnd] rest [])
    | some rest => some (s.go [] rest [.node false false, .noFlowValue])

def flowValue (s : Events) : Option Events :=
  match s.tokens with
  | .value :: rest =>
    some (s.orEmpty rest (fun t => t = .flowEntry || t = .flowMappingEnd) (.node false false)
      (.flowKey false))
  | tokens => some (s.go [emptyScalar] tokens [.flowKey false])

/-- The state after the given goal, which is no longer among the goals to meet. -/
def meet (s : Events) : Goal → Option Events
  | .node block indentless => node block indentless s
  | .blockEntries => blockEntries s
  | .indentlessEntries => indentlessEntries s
  | .blockKey => blockKey s
  | .blockValue => blockValue s
  | .flowEntries first => flowEntries first s
  | .pairKey => pairKey s
  | .pairValue => pairValue s
  | .pairEnd => some (s.go [.mappingEnd] s.tokens [])
  | .flowKey first => flowKey first s
  | .flowValue => flowValue s
  | .noFlowValue => some (s.go [emptyScalar] s.tokens [.flowKey false])

/-- The state when all goals are met, for at most `n` steps. -/
def run : Nat → Events → Option Events
  | 0, _ => none
  | n + 1, s =>
    match s.goals with
    | [] => some s
    | goal :: goals =>
      match meet { s with goals := goals } goal with
      | none => none
      | some s => run n s

/-! ## Documents -/

/-- What the directives before a document say. -/
structure Directives where
  versioned : Bool := false
  handles : List (Text × Tag) := []

/-- The directives and the tokens after them. A version or handle is declared at most once, and
the version is 1.1 or 1.2. -/
def directives (d : Directives) : List Token → Option (Directives × List Token)
  | .versionDirective major minor :: rest =>
    if d.versioned ∨ major ≠ 1 ∨ (minor ≠ 1 ∧ minor ≠ 2) then none
    else directives { d with versioned := true } rest
  | .tagDirective handle lead :: rest =>
    if (d.handles.map Prod.fst).contains handle then none
    else directives { d with handles := d.handles ++ [(handle, lead)] } rest
  | tokens => some (d, tokens)

/-- Whether a token ends a document that has no content. -/
def endsDocument : Token → Bool
  | .versionDirective .. => true
  | .tagDirective .. => true
  | .documentStart => true
  | .documentEnd => true
  | .streamEnd => true
  | _ => false

/-- Whether nothing but ends of documents is left. -/
def isFinished (tokens : List Token) : Bool :=
  tokens.dropWhile (· = .documentEnd) = [.streamEnd]

/-- The events of a document's content. A step that takes no token opens or closes a collection or
leaves out a value, so that eight steps a token are more than are needed. -/
def ofContent? (handles : List (Text × Tag)) (tokens : List Token) : Option (List Event) :=
  match run (8 * tokens.length + 8) ⟨tokens, [.node true false], [], handles⟩ with
  | none => none
  | some s => if isFinished s.tokens then some s.events.reverse else none

/-- Whether the first token begins a document that is marked as such. -/
def isMarked : Token → Bool
  | .versionDirective .. => true
  | .tagDirective .. => true
  | .documentStart => true
  | _ => false

def ofTokens? (tokens : List Token) : Option (List Event) :=
  if tokens = [.streamEnd] then
    some []
  else if tokens.head?.any isMarked then
    match directives {} tokens with
    | some (d, .documentStart :: rest) =>
      if rest.head?.any endsDocument then
        if isFinished rest then some [emptyScalar] else none
      else
        ofContent? (d.handles ++ standardHandles) rest
    | _ => none
  else
    ofContent? standardHandles tokens

end Events

/-- The events of a text; a text without a document has none of them. -/
def Event.ofText? (t : Text) : Option (List Event) :=
  (Token.ofText? t).bind Events.ofTokens?

end MessageDocs.Yaml
