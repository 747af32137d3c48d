import MessageDocs.Yaml.Scalar
import MessageDocs.Yaml.Tag

/-! # YAML tokens

A text is cut into tokens from left to right. Indentation becomes tokens of its own that open and
close block collections, and a key that is written without a question mark is recognised only by
the colon after it, so the place where a key may have begun is remembered until it is ruled out.

* `Token.tagHead?`, `Token.uri?` and the other readers scan one token each.
* `Scan.step` reads the next token, `Token.ofText?` all of them. A text that is not well formed
  has no tokens.
-/

set_option autoImplicit false

namespace MessageDocs.Yaml

inductive Token where
  | versionDirective (major minor : Nat)
  | tagDirective (handle : Text) (lead : Tag)
  | documentStart
  | documentEnd
  | streamEnd
  | blockSequenceStart
  | blockMappingStart
  | blockEnd
  | flowSequenceStart
  | flowSequenceEnd
  | flowMappingStart
  | flowMappingEnd
  | blockEntry
  | flowEntry
  | key
  | value
  | alias (name : Text)
  | anchor (name : Text)
  | tag (handle : Text) (suffix : Tag)
  | scalar (plain : Bool) (text : Text)
  deriving DecidableEq, Repr

namespace Token

/-! ## Names, tags and directives -/

/-- A text that has been read, and the cursor after it. -/
structure Piece where
  text : Text
  cursor : Cursor

/-- Whether a character may follow the name of an anchor or alias. -/
def endsAnchor : Text → Bool
  | [] => true
  | c :: _ =>
    isBlank c || isBreak c || c = '?' || c = ':' || c = ',' || c = ']' || c = '\x7d' ||
      c = '%' || c = '@' || c = '\x60'

/-- The name after the sign of an anchor or alias. -/
def anchorName? (c : Cursor) : Option Piece :=
  let c := c.advance 1
  let name := c.rest.takeWhile isWordChar
  let c := c.advance name.length
  if name = [] ∨ endsAnchor c.rest = false then none else some ⟨name, c⟩

/-- Characters of a tag's address; commas and brackets belong to it only in a verbatim one. -/
def isUriChar (verbatim : Bool) (c : Char) : Bool :=
  isWordChar c || ";/?:@&=+$.%!~*'()".toList.contains c || (verbatim && ",[]".toList.contains c)

/-- The number of bytes that a first byte announces. -/
def announced? (byte : Nat) : Option Nat :=
  if byte < 0x80 then some 1
  else if 0xC0 ≤ byte ∧ byte < 0xE0 then some 2
  else if 0xE0 ≤ byte ∧ byte < 0xF0 then some 3
  else if 0xF0 ≤ byte ∧ byte < 0xF8 then some 4
  else none

/-- The byte written as `%XX`. -/
def percentByte? (t : Text) : Option Nat :=
  match t with
  | '%' :: a :: b :: _ => hexNumber? [a, b]
  | _ => none

/-- The continuation bytes written from here on, as many as are missing. -/
def continuation? : Nat → Text → Option Tag
  | 0, _ => some []
  | k + 1, t =>
    match percentByte? t with
    | some byte =>
      if 0x80 ≤ byte ∧ byte < 0xC0 then
        (continuation? k (t.drop 3)).map (UInt8.ofNat byte :: ·)
      else
        none
    | none => none

/-- The bytes written with percent signs from here on, as many as the first one announces. They
need not be the form of a character. -/
def percentBytes? (t : Text) : Option Tag :=
  match percentByte? t with
  | none => none
  | some byte =>
    match announced? byte with
    | none => none
    | some n => (continuation? (n - 1) (t.drop 3)).map (UInt8.ofNat byte :: ·)

/-- A part of a tag that has been read, and the cursor after it. -/
structure TagPiece where
  bytes : Tag
  cursor : Cursor

/-- The bytes of a tag's address from here on; `read` precedes them, last byte first. -/
def uriBytes (verbatim : Bool) : Nat → Tag → Cursor → Option TagPiece
  | 0, read, c => some ⟨read.reverse, c⟩
  | n + 1, read, c =>
    match c.rest with
    | [] => some ⟨read.reverse, c⟩
    | '%' :: _ =>
      match percentBytes? c.rest with
      | none => none
      | some bytes => uriBytes verbatim n (bytes.reverse ++ read) (c.advance (3 * bytes.length))
    | ch :: _ =>
      if isUriChar verbatim ch then uriBytes verbatim n (Tag.ofText [ch] ++ read) (c.advance 1)
      else some ⟨read.reverse, c⟩

/-- A tag's address of which the start has been read already. -/
def uriAfter? (verbatim : Bool) (start : Text) (c : Cursor) : Option TagPiece :=
  (uriBytes verbatim c.bound (Tag.ofText start).reverse c).map fun piece =>
    ⟨piece.bytes.beforeNul, piece.cursor⟩

/-- A tag's address for which at least one character is written. -/
def uri? (verbatim : Bool) (c : Cursor) : Option TagPiece :=
  match uriAfter? verbatim [] c with
  | none => none
  | some piece => if piece.cursor.offset = c.offset then none else some piece

/-- A `!`, a word, and the `!` that may close it. -/
def tagHandle (c : Cursor) : Piece :=
  let name := (c.rest.drop 1).takeWhile isWordChar
  let c := c.advance (name.length + 1)
  if c.rest.head? = some '!' then ⟨'!' :: name ++ ['!'], c.advance 1⟩ else ⟨'!' :: name, c⟩

/-- Whether a handle is closed, as `!!` and `!e!` are. -/
def isClosedHandle (handle : Text) : Bool :=
  handle.length ≥ 2 && handle.getLast? = some '!'

/-- A tag without the check of what follows it. -/
def tagHead? (c : Cursor) : Option (Token × Cursor) :=
  if c.rest.tail.head? = some '<' then
    match uri? true (c.advance 2) with
    | none => none
    | some suffix =>
      if suffix.cursor.rest.head? = some '>' then
        some (.tag [] suffix.bytes, suffix.cursor.advance 1)
      else
        none
  else
    let handle := tagHandle c
    if isClosedHandle handle.text then
      (uri? false handle.cursor).map fun suffix => (.tag handle.text suffix.bytes, suffix.cursor)
    else
      match uriAfter? false handle.text.tail handle.cursor with
      | none => none
      | some suffix =>
        if suffix.bytes = [] then
          some (.tag [] Tag.nonSpecific, suffix.cursor)
        else
          some (.tag ['!'] suffix.bytes, suffix.cursor)

/-- A tag; after it comes white space, or a comma inside a flow collection. -/
def tag? (flow : Bool) (c : Cursor) : Option (Token × Cursor) :=
  match tagHead? c with
  | none => none
  | some (token, c) =>
    if c.atBlankOrEnd || (flow && c.rest.head? = some ',') then some (token, c) else none

/-- A number of at most nine digits. -/
def versionNumber? (c : Cursor) : Option (Nat × Cursor) :=
  let digits := c.rest.takeWhile Char.isDigit
  if digits = [] ∨ 9 < digits.length then
    none
  else
    some (digits.foldl (fun n d => 10 * n + (d.toNat - '0'.toNat)) 0, c.advance digits.length)

def version? (c : Cursor) : Option (Token × Cursor) :=
  match versionNumber? (c.skipWhile isBlank) with
  | none => none
  | some (major, c) =>
    if c.rest.head? = some '.' then
      (versionNumber? (c.advance 1)).map fun minor => (.versionDirective major minor.1, minor.2)
    else
      none

def tagDirective? (c : Cursor) : Option (Token × Cursor) :=
  let c := c.skipWhile isBlank
  if c.rest.head? ≠ some '!' then
    none
  else
    let handle := tagHandle c
    if handle.text ≠ ['!'] ∧ isClosedHandle handle.text = false then
      none
    else if handle.cursor.rest.head?.any isBlank then
      match uri? true (handle.cursor.skipWhile isBlank) with
      | none => none
      | some lead =>
        if lead.cursor.atBlankOrEnd then
          some (.tagDirective handle.text lead.bytes, lead.cursor)
        else
          none
    else
      none

/-- A directive with the rest of its line. -/
def directive? (c : Cursor) : Option (Token × Cursor) :=
  let c := c.advance 1
  let name := c.rest.takeWhile isWordChar
  let c := c.advance name.length
  if !c.atBlankOrEnd then
    none
  else
    let read :=
      if name = "YAML".toList then version? c
      else if name = "TAG".toList then tagDirective? c
      else none
    match read with
    | none => none
    | some (token, c) => c.lineEnd?.map fun c => (token, c)

end Token

/-! ## The scanner -/

/-- A place where a key without a question mark may have begun. -/
structure KeyStart where
  /-- Whether only a key can stand there. -/
  required : Bool
  /-- The number of tokens before it. -/
  tokens : Nat
  cursor : Cursor

/-- A text in the course of being cut into tokens. -/
structure Scan where
  cursor : Cursor
  /-- The tokens so far, the last one first. -/
  tokens : List Token := []
  /-- How many tokens there are. -/
  count : Nat := 0
  /-- The number of open flow collections. -/
  flow : Nat := 0
  /-- The least column that lies inside the innermost block. -/
  column : Nat := 0
  /-- The same for the blocks around it. -/
  outer : List Nat := []
  /-- Whether a key may begin here. -/
  keyAllowed : Bool := true
  /-- The pending key start of the innermost collection. -/
  keyStart : Option KeyStart := none
  /-- The same for the flow collections around it. -/
  outerKeys : List (Option KeyStart) := []

namespace Scan

def emit (t : Token) (s : Scan) : Scan :=
  { s with tokens := t :: s.tokens, count := s.count + 1 }

/-- A token put in after the first `n` tokens. -/
def insertAt (n : Nat) (t : Token) (s : Scan) : Scan :=
  { s with tokens := s.tokens.insertIdx (s.count - n) t, count := s.count + 1 }

def skip (n : Nat) (s : Scan) : Scan :=
  { s with cursor := s.cursor.advance n }

/-! ### Key starts -/

/-- The greatest number of bytes from the start of a key to its colon. -/
def keySpan : Nat := 1024

/-- A key start that is too far back to have its colon here; none if it was required. -/
def freshKey? (c : Cursor) : Option KeyStart → Option (Option KeyStart)
  | none => some none
  | some k =>
    if k.cursor.line < c.line ∨ k.cursor.offset + keySpan < c.offset then
      if k.required then none else some none
    else
      some (some k)

/-- The scan without the key starts that are too far back. -/
def dropStaleKeys (s : Scan) : Option Scan :=
  match freshKey? s.cursor s.keyStart, s.outerKeys.mapM (freshKey? s.cursor) with
  | some keyStart, some outerKeys => some { s with keyStart := keyStart, outerKeys := outerKeys }
  | _, _ => none

/-- The scan without the pending key start, which must not have been required. -/
def removeKey (s : Scan) : Option Scan :=
  if s.keyStart.any (·.required) then none else some { s with keyStart := none }

/-- The scan with a key start here, where a key is allowed. -/
def saveKey (s : Scan) : Option Scan :=
  if s.keyAllowed then
    let required := s.flow = 0 && s.column = s.cursor.column + 1
    (removeKey s).map fun s => { s with keyStart := some ⟨required, s.count, s.cursor⟩ }
  else
    some s

/-! ### Indentation -/

/-- The scan inside a block collection at a column, opened by a token unless the innermost block
already is there. The token goes after the first `place` tokens. -/
def openBlock (column place : Nat) (t : Token) (s : Scan) : Scan :=
  if s.flow = 0 ∧ s.column ≤ column then
    { s.insertAt place t with column := column + 1, outer := s.column :: s.outer }
  else
    s

/-- The scan with the block collections closed that lie deeper than a column. -/
def closeBlocks (column : Nat) : List Nat → Scan → Scan
  | [], s => s
  | outer :: outers, s =>
    if column < s.column then
      closeBlocks column outers { s.emit .blockEnd with column := outer, outer := outers }
    else
      s

/-- The same for the column of the next token, given as the least column inside its block. -/
def closeBlocksTo (column : Nat) (s : Scan) : Scan :=
  if s.flow = 0 then closeBlocks column s.outer s else s

/-! ### Blanks and comments -/

/-- The scan at its next token. Tabs do not separate where a key may begin. -/
def toToken : Nat → Scan → Scan
  | 0, s => s
  | n + 1, s =>
    let c := s.cursor
    let c := if c.column = 0 && c.rest.head? = some '\ufeff' then c.advance 1 else c
    let tabs := s.flow ≠ 0 || !s.keyAllowed
    let c := c.skipWhile fun ch => ch = ' ' || (tabs && ch = '\t')
    let c := if c.rest.head? = some '#' then c.skipWhile (!isBreak ·) else c
    if c.atBreak then
      toToken n { s with cursor := c.nextLine, keyAllowed := s.keyAllowed || s.flow = 0 }
    else
      { s with cursor := c }

/-! ### Tokens -/

def streamEnd (s : Scan) : Option Scan :=
  (removeKey (closeBlocksTo 0 s)).map fun s => { s.emit .streamEnd with keyAllowed := false }

def directive (s : Scan) : Option Scan :=
  match removeKey (closeBlocksTo 0 s) with
  | none => none
  | some s =>
    (Token.directive? s.cursor).map fun read =>
      { s.emit read.1 with cursor := read.2, keyAllowed := false }

def documentMark (t : Token) (s : Scan) : Option Scan :=
  (removeKey (closeBlocksTo 0 s)).map fun s => { (s.emit t).skip 3 with keyAllowed := false }

def flowStart (t : Token) (s : Scan) : Option Scan :=
  (saveKey s).map fun s =>
    { (s.emit t).skip 1 with
      flow := s.flow + 1
      keyAllowed := true
      keyStart := none
      outerKeys := s.keyStart :: s.outerKeys }

def flowEnd (t : Token) (s : Scan) : Option Scan :=
  (removeKey s).map fun s =>
    let s := { (s.emit t).skip 1 with keyAllowed := false }
    match s.outerKeys with
    | [] => s
    | keyStart :: outerKeys =>
      { s with flow := s.flow - 1, keyStart := keyStart, outerKeys := outerKeys }

def flowEntry (s : Scan) : Option Scan :=
  (removeKey s).map fun s => { (s.emit .flowEntry).skip 1 with keyAllowed := true }

def blockEntry (s : Scan) : Option Scan :=
  if s.flow = 0 && !s.keyAllowed then
    none
  else
    (removeKey (s.openBlock s.cursor.column s.count .blockSequenceStart)).map fun s =>
      { (s.emit .blockEntry).skip 1 with keyAllowed := true }

def key (s : Scan) : Option Scan :=
  if s.flow = 0 && !s.keyAllowed then
    none
  else
    (removeKey (s.openBlock s.cursor.column s.count .blockMappingStart)).map fun s =>
      { (s.emit .key).skip 1 with keyAllowed := s.flow = 0 }

def value (s : Scan) : Option Scan :=
  match s.keyStart with
  | some k =>
    let s := (s.insertAt k.tokens .key).openBlock k.cursor.column k.tokens .blockMappingStart
    some { (s.emit .value).skip 1 with keyStart := none, keyAllowed := false }
  | none =>
    if s.flow = 0 && !s.keyAllowed then
      none
    else
      let s := s.openBlock s.cursor.column s.count .blockMappingStart
      some { (s.emit .value).skip 1 with keyAllowed := s.flow = 0 }

/-- A token that may begin a key, from its reader. -/
def keyed (read : Cursor → Option (Token × Cursor)) (s : Scan) : Option Scan :=
  match saveKey s with
  | none => none
  | some s =>
    (read s.cursor).map fun r => { s.emit r.1 with cursor := r.2, keyAllowed := false }

def alias? (c : Cursor) : Option (Token × Cursor) :=
  (Token.anchorName? c).map fun name => (.alias name.text, name.cursor)

def anchor? (c : Cursor) : Option (Token × Cursor) :=
  (Token.anchorName? c).map fun name => (.anchor name.text, name.cursor)

def quoted? (q : Quote) (c : Cursor) : Option (Token × Cursor) :=
  (quotedScalar q c).map fun r => (.scalar false r.text, r.cursor)

def blockScalar (folded : Bool) (s : Scan) : Option Scan :=
  match removeKey s with
  | none => none
  | some s =>
    (Yaml.blockScalar folded s.column s.cursor).map fun r =>
      { s.emit (.scalar false r.text) with cursor := r.cursor, keyAllowed := true }

def plain (s : Scan) : Option Scan :=
  match saveKey s with
  | none => none
  | some s =>
    (plainScalar (s.flow ≠ 0) s.column s.cursor).map fun r =>
      { s.emit (.scalar true r.text) with cursor := r.cursor, keyAllowed := r.onNewLine }

/-- Whether a plain scalar may begin with a character that is followed by a text. -/
def startsPlain (flow : Bool) (c : Char) (rest : Text) : Bool :=
  !(isBlank c || isBreak c || "-?:,[]\x7b\x7d#&*!|>'\"%@\x60".toList.contains c) ||
    (c = '-' && !(rest.head?.any isBlank)) ||
    (!flow && (c = '?' || c = ':') && !blankOrEnd rest)

/-- The scan after the token that begins with a character. -/
def tokenAt (c : Char) (rest : Text) (s : Scan) : Option Scan :=
  let flow := s.flow ≠ 0
  if s.cursor.column = 0 && c = '%' then directive s
  else if s.cursor.atDocumentMark "---" then documentMark .documentStart s
  else if s.cursor.atDocumentMark "..." then documentMark .documentEnd s
  else if c = '[' then flowStart .flowSequenceStart s
  else if c = '\x7b' then flowStart .flowMappingStart s
  else if c = ']' then flowEnd .flowSequenceEnd s
  else if c = '\x7d' then flowEnd .flowMappingEnd s
  else if c = ',' then flowEntry s
  else if c = '-' && blankOrEnd rest then blockEntry s
  else if c = '?' && (flow || blankOrEnd rest) then key s
  else if c = ':' && (flow || blankOrEnd rest) then value s
  else if c = '*' then keyed alias? s
  else if c = '&' then keyed anchor? s
  else if c = '!' then keyed (Token.tag? flow) s
  else if c = '|' && !flow then blockScalar false s
  else if c = '>' && !flow then blockScalar true s
  else if c = '\'' then keyed (quoted? .single) s
  else if c = '"' then keyed (quoted? .double) s
  else if startsPlain flow c rest then plain s
  else none

/-- The scan after its next token. -/
def step (s : Scan) : Option Scan :=
  match dropStaleKeys (toToken s.cursor.bound s) with
  | none => none
  | some s =>
    match s.cursor.rest with
    | [] => streamEnd s
    | c :: rest => tokenAt c rest (closeBlocksTo (s.cursor.column + 1) s)

def isDone (s : Scan) : Bool :=
  s.tokens.head? = some .streamEnd

/-- The scan after its last token, for at most `n` steps. -/
def run : Nat → Scan → Option Scan
  | 0, _ => none
  | n + 1, s =>
    match step s with
    | none => none
    | some s => if s.isDone then some s else run n s

end Scan

/-- The tokens of a text. Each step but the last reads at least one character. -/
def Token.ofText? (t : Text) : Option (List Token) :=
  if t.all isAllowed then
    (Scan.run (t.length + 1) { cursor := .ofText t }).map (·.tokens.reverse)
  else
    none

end MessageDocs.Yaml
