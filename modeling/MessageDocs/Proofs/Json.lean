import Mathlib.Data.List.TakeWhile
import Mathlib.Logic.Function.Basic
import MessageDocs.Json

/-! # JSON texts are unambiguous

A value can be told from its text, and from where in a longer text it begins: a string ends at the
first quote that is not escaped, a number before what is no digit, and the entries of an array or of
an object at the line feed that no comma precedes.

* `Json.Determines`: texts from which an entry can be told.
* `Json.unescape?_escape`: how a character is read back.
* `Json.enclose`: arrays and objects as entries between brackets.
* `Json.pretty_determines`, `Json.print_injective`: values and their texts.
-/

set_option autoImplicit false

namespace MessageDocs.Json

/-- A text that does not go on with a digit. -/
def Stops (t : Text) : Prop :=
  ∀ c ∈ t.head?, c.isDigit = false

/-- The text of an entry is no other's, nor the beginning of another's, where no digit follows. -/
def Determines {α : Type} (text : α → Text) (entry : α) : Prop :=
  ∀ {other : α} {a b : Text}, Stops a → Stops b → text entry ++ a = text other ++ b →
    entry = other ∧ a = b

theorem stops_cons {c : Char} (h : c.isDigit = false) (t : Text) : Stops (c :: t) := by
  rintro d ⟨⟩
  exact h

/-! ## Strings -/

/-- The value of a hexadecimal digit. -/
def digitValue (c : Char) : Nat :=
  if c.isDigit then c.toNat - '0'.toNat else 10 + (c.toNat - 'a'.toNat)

/-- The character that is written behind a backslash, and what follows. -/
def escaped? : Text → Option (Char × Text)
  | 'n' :: t => some ('\n', t)
  | 'r' :: t => some ('\r', t)
  | 't' :: t => some ('\t', t)
  | 'b' :: t => some ('\x08', t)
  | 'f' :: t => some ('\x0c', t)
  | 'u' :: _ :: _ :: high :: low :: t =>
    some (Char.ofNat (16 * digitValue high + digitValue low), t)
  | c :: t => some (c, t)
  | [] => none

/-- The first character of a string, and what follows. -/
def unescape? : Text → Option (Char × Text)
  | [] => none
  | c :: t => if c = '\\' then escaped? t else some (c, t)

theorem digitValue_hexDigit {n : Nat} (h : n < 16) : digitValue (hexDigit n) = n := by
  have all : ∀ n : Fin 16, digitValue (hexDigit n) = n := by decide
  exact all ⟨n, h⟩

theorem unescape?_escape (c : Char) (t : Text) : unescape? (escape c ++ t) = some (c, t) := by
  unfold escape
  split_ifs with mark backslash feed ret tab back page control
  · rw [mark]
    rfl
  · rw [backslash]
    rfl
  · rw [feed]
    rfl
  · rw [ret]
    rfl
  · rw [tab]
    rfl
  · rw [back]
    rfl
  · rw [page]
    rfl
  · have high : digitValue (hexDigit (c.toNat / 16)) = c.toNat / 16 :=
      digitValue_hexDigit (by omega)
    have low : digitValue (hexDigit (c.toNat % 16)) = c.toNat % 16 :=
      digitValue_hexDigit (Nat.mod_lt _ (by decide))
    change some (Char.ofNat (16 * digitValue (hexDigit (c.toNat / 16)) +
      digitValue (hexDigit (c.toNat % 16))), t) = some (c, t)
    rw [high, low, Nat.div_add_mod, Char.ofNat_toNat]
  · exact if_neg backslash

theorem escape_append_inj {c d : Char} {a b : Text} (h : escape c ++ a = escape d ++ b) :
    c = d ∧ a = b := by
  have read := congrArg unescape? h
  rw [unescape?_escape, unescape?_escape, Option.some.injEq, Prod.mk.injEq] at read
  exact read

/-- A quote inside a string is no quote at its end. -/
theorem escape_append_ne (c : Char) (a b : Text) : escape c ++ a ≠ '"' :: b := by
  intro h
  have read := congrArg unescape? h
  rw [unescape?_escape] at read
  obtain ⟨rfl, rfl⟩ : c = '"' ∧ a = b := by simpa [unescape?] using read
  cases h

theorem escapes_append_inj {s t a b : Text}
    (h : s.flatMap escape ++ '"' :: a = t.flatMap escape ++ '"' :: b) : s = t ∧ a = b := by
  induction s generalizing t with
  | nil =>
    cases t with
    | nil => exact ⟨rfl, (List.cons.inj h).2⟩
    | cons d t =>
      rw [List.flatMap_cons, List.append_assoc] at h
      exact absurd h.symm (escape_append_ne d _ a)
  | cons c s ih =>
    rw [List.flatMap_cons, List.append_assoc] at h
    cases t with
    | nil => exact absurd h (escape_append_ne c _ b)
    | cons d t =>
      rw [List.flatMap_cons, List.append_assoc] at h
      obtain ⟨rfl, rest⟩ := escape_append_inj h
      obtain ⟨rfl, rfl⟩ := ih rest
      exact ⟨rfl, rfl⟩

theorem quote_append (t a : Text) : quote t ++ a = '"' :: (t.flatMap escape ++ '"' :: a) := by
  simp [quote]

theorem quote_determines (t : Text) : Determines quote t := by
  intro other a b _ _ h
  rw [quote_append, quote_append, List.cons.injEq] at h
  exact escapes_append_inj h.2

/-! ## Numbers -/

theorem isDigit_of_mem_ofNat {n : Nat} {c : Char} (h : c ∈ Text.ofNat n) : c.isDigit = true :=
  Nat.isDigit_of_mem_toDigits (by decide) (by decide) h

theorem takeWhile_ofNat_append (n : Nat) {a : Text} (h : Stops a) :
    (Text.ofNat n ++ a).takeWhile Char.isDigit = Text.ofNat n := by
  rw [List.takeWhile_append_of_pos fun _ => isDigit_of_mem_ofNat]
  cases a with
  | nil => exact List.append_nil _
  | cons c a =>
    have other : ¬c.isDigit = true := by simp [h c rfl]
    rw [List.takeWhile_cons_of_neg other, List.append_nil]

theorem ofNat_determines (n : Nat) : Determines Text.ofNat n := by
  intro m a b ha hb h
  have digits : Text.ofNat n = Text.ofNat m := by
    rw [← takeWhile_ofNat_append n ha, h, takeWhile_ofNat_append m hb]
  have number := congrArg (fun digits => Nat.ofDigitChars 10 digits 0) digits
  simp only [Text.ofNat, Nat.ofDigitChars_ten_toDigits] at number
  rw [digits] at h
  exact ⟨number, List.append_cancel_left h⟩

/-! ## Entries between brackets -/

/-- Entries after the first one, each on a line of its own behind a comma. -/
def further (depth : Nat) (texts : List Text) : Text :=
  texts.flatMap fun text => ',' :: newLine depth ++ text

/-- Entries between brackets, one a line, or the brackets alone. -/
def enclose (opening closing : Char) (depth : Nat) : List Text → Text
  | [] => [opening, closing]
  | text :: texts =>
    opening :: newLine (depth + 1) ++ text ++ further (depth + 1) texts ++ newLine depth ++ [closing]

theorem prettyItems_eq (depth : Nat) (items : List Json) :
    prettyItems depth items = further depth (items.map (pretty depth)) := by
  induction items with
  | nil => rfl
  | cons item items ih =>
    rw [prettyItems, ih]
    rfl

theorem prettyMembers_eq (depth : Nat) (members : List (Text × Json)) :
    prettyMembers depth members = further depth (members.map (prettyMember depth)) := by
  induction members with
  | nil => rfl
  | cons member members ih =>
    rw [prettyMembers, ih]
    rfl

theorem pretty_array (depth : Nat) (items : List Json) :
    pretty depth (.array items) = enclose '[' ']' depth (items.map (pretty (depth + 1))) := by
  cases items with
  | nil => rfl
  | cons item items =>
    rw [pretty, prettyItems_eq]
    rfl

theorem pretty_object (depth : Nat) (members : List (Text × Json)) :
    pretty depth (.object members) =
      enclose '\x7b' '\x7d' depth (members.map (prettyMember (depth + 1))) := by
  cases members with
  | nil => rfl
  | cons member members =>
    rw [pretty, prettyMembers_eq]
    rfl

section

variable {α : Type} {text : α → Text} {opening closing : Char} {depth : Nat}

theorem further_cons (entry : α) (entries : List α) (a : Text) :
    further depth ((entry :: entries).map text) ++ a =
      ',' :: (newLine depth ++ (text entry ++ (further depth (entries.map text) ++ a))) := by
  simp [further]

theorem enclose_cons (entry : α) (entries : List α) (a : Text) :
    enclose opening closing depth ((entry :: entries).map text) ++ a =
      opening :: (newLine (depth + 1) ++ (text entry ++
        (further (depth + 1) (entries.map text) ++ (newLine depth ++ closing :: a)))) := by
  simp [enclose]

theorem stops_further (entries : List α) (lower : Nat) (a : Text) :
    Stops (further depth (entries.map text) ++ (newLine lower ++ a)) := by
  cases entries with
  | nil => exact stops_cons rfl _
  | cons entry entries =>
    rw [further_cons]
    exact stops_cons rfl _

/-- Entries go on with a comma, and end at the line feed of the closing bracket. -/
theorem further_append_inj {lower : Nat} {a b : Text} {entries : List α}
    (determined : ∀ entry ∈ entries, Determines text entry) {others : List α}
    (h : further depth (entries.map text) ++ (newLine lower ++ a) =
      further depth (others.map text) ++ (newLine lower ++ b)) : entries = others ∧ a = b := by
  induction entries generalizing others with
  | nil =>
    cases others with
    | nil => exact ⟨rfl, List.append_cancel_left h⟩
    | cons other others =>
      rw [further_cons] at h
      cases h
  | cons entry entries ih =>
    rw [further_cons] at h
    cases others with
    | nil => cases h
    | cons other others =>
      obtain ⟨first, rest⟩ := List.forall_mem_cons.mp determined
      rw [further_cons, List.cons.injEq] at h
      obtain ⟨rfl, behind⟩ := first (stops_further entries lower a) (stops_further others lower b)
        (List.append_cancel_left h.2)
      obtain ⟨rfl, rfl⟩ := ih rest behind
      exact ⟨rfl, rfl⟩

theorem enclose_append_inj {a b : Text} (bracket : closing ≠ '\n') {entries : List α}
    (determined : ∀ entry ∈ entries, Determines text entry) {others : List α}
    (h : enclose opening closing depth (entries.map text) ++ a =
      enclose opening closing depth (others.map text) ++ b) : entries = others ∧ a = b := by
  cases entries with
  | nil =>
    cases others with
    | nil => exact ⟨rfl, List.append_cancel_left h⟩
    | cons other others =>
      rw [enclose_cons] at h
      exact absurd (List.cons.inj (List.cons.inj h).2).1 bracket
  | cons entry entries =>
    rw [enclose_cons] at h
    cases others with
    | nil => exact absurd (List.cons.inj (List.cons.inj h).2).1 (Ne.symm bracket)
    | cons other others =>
      obtain ⟨first, rest⟩ := List.forall_mem_cons.mp determined
      rw [enclose_cons, List.cons.injEq] at h
      obtain ⟨rfl, behind⟩ := first (stops_further entries depth _) (stops_further others depth _)
        (List.append_cancel_left h.2)
      obtain ⟨rfl, closed⟩ := further_append_inj rest behind
      exact ⟨rfl, (List.cons.inj closed).2⟩

end

theorem prettyMember_determines {depth : Nat} {member : Text × Json}
    (value : Determines (pretty depth) member.2) : Determines (prettyMember depth) member := by
  intro other a b ha hb h
  have parts : ∀ (member : Text × Json) (a : Text), prettyMember depth member ++ a =
      quote member.1 ++ (": " ++ (pretty depth member.2 ++ a)) := by
    intro member a
    rw [prettyMember, List.append_assoc, List.append_assoc]
  have separator : ∀ a : Text, Stops (": " ++ a) := fun a => stops_cons rfl _
  rw [parts, parts] at h
  obtain ⟨name, behind⟩ := quote_determines member.1 (separator _) (separator _) h
  obtain ⟨content, rfl⟩ := value ha hb (List.append_cancel_left behind)
  exact ⟨Prod.ext name content, rfl⟩

/-! ## Values -/

inductive Kind where
  | null
  | number
  | string
  | array
  | object

def kind : Json → Kind
  | null => .null
  | number _ => .number
  | string _ => .string
  | array _ => .array
  | object _ => .object

/-- The kind of the value whose text begins with a character. -/
def Kind.ofFirst (c : Char) : Kind :=
  if c = 'n' then .null
  else if c = '"' then .string
  else if c = '[' then .array
  else if c = '\x7b' then .object
  else .number

theorem kind_of_pretty {depth : Nat} {v : Json} {a : Text} :
    (pretty depth v ++ a).head?.map Kind.ofFirst = some v.kind := by
  cases v with
  | null => rfl
  | number n =>
    obtain ⟨c, digits, text⟩ := List.exists_cons_of_ne_nil (Nat.toDigits_ne_nil (n := n) (b := 10))
    have digit : c.isDigit = true :=
      isDigit_of_mem_ofNat (n := n) (by rw [Text.ofNat, text]; exact List.mem_cons_self)
    rw [pretty, Text.ofNat, text]
    change some (Kind.ofFirst c) = some Kind.number
    unfold Kind.ofFirst
    split_ifs with other other other other
    any_goals
      rw [other] at digit
      cases digit
    rfl
  | string t => rfl
  | array items =>
    rw [pretty_array]
    cases items <;> rfl
  | object members =>
    rw [pretty_object]
    cases members <;> rfl

theorem kind_eq {depth : Nat} {v w : Json} {a b : Text}
    (h : pretty depth v ++ a = pretty depth w ++ b) : v.kind = w.kind := by
  rw [← Option.some.injEq, ← kind_of_pretty, h, kind_of_pretty]

/-- Induction over a value, its items and the values of its members. -/
@[elab_as_elim]
theorem induct {motive : Json → Prop} (null : motive .null) (number : ∀ n, motive (.number n))
    (string : ∀ t, motive (.string t))
    (array : ∀ items, (∀ item ∈ items, motive item) → motive (.array items))
    (object : ∀ members, (∀ member ∈ members, motive member.2) → motive (.object members))
    (v : Json) : motive v :=
  @Json.rec motive (fun items => ∀ item ∈ items, motive item)
    (fun members => ∀ member ∈ members, motive member.2) (fun member => motive member.2)
    null number string array object (fun _ h => nomatch h)
    (fun _ _ first rest => List.forall_mem_cons.mpr ⟨first, rest⟩) (fun _ h => nomatch h)
    (fun _ _ first rest => List.forall_mem_cons.mpr ⟨first, rest⟩) (fun _ _ value => value) v

/-- **A value** can be told from its text, with whatever follows that begins with no digit. -/
theorem pretty_determines (depth : Nat) (v : Json) : Determines (pretty depth) v := by
  induction v using induct generalizing depth with
  | null =>
    intro w a b _ _ h
    cases w with
    | null => exact ⟨rfl, List.append_cancel_left h⟩
    | _ => cases kind_eq h
  | number n =>
    intro w a b ha hb h
    cases w with
    | number m =>
      obtain ⟨rfl, rfl⟩ := ofNat_determines n ha hb h
      exact ⟨rfl, rfl⟩
    | _ => cases kind_eq h
  | string t =>
    intro w a b ha hb h
    cases w with
    | string t' =>
      obtain ⟨rfl, rfl⟩ := quote_determines t ha hb h
      exact ⟨rfl, rfl⟩
    | _ => cases kind_eq h
  | array items ih =>
    intro w a b _ _ h
    cases w with
    | array items' =>
      rw [pretty_array, pretty_array] at h
      obtain ⟨rfl, rfl⟩ := enclose_append_inj (by decide) (fun item hi => ih item hi (depth + 1)) h
      exact ⟨rfl, rfl⟩
    | _ => cases kind_eq h
  | object members ih =>
    intro w a b _ _ h
    cases w with
    | object members' =>
      rw [pretty_object, pretty_object] at h
      obtain ⟨rfl, rfl⟩ := enclose_append_inj (by decide)
        (fun member hm => prettyMember_determines (ih member hm (depth + 1))) h
      exact ⟨rfl, rfl⟩
    | _ => cases kind_eq h

/-- **The text of a value** is no other value's. -/
theorem print_injective : Function.Injective print := by
  intro v w h
  have stops : Stops [] := nofun
  exact (pretty_determines 0 v stops stops (congrArg (· ++ []) h)).1

end MessageDocs.Json
