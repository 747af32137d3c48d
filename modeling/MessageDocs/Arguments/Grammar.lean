import MessageDocs.Text

/-! # Argument lists

A command has options and at most one kind of positional argument. An option is written `--name`
or `-n`; its value follows as the next argument, after a `=`, or directly after the letter.
Letters of options without a value may stand together, and after `--` every argument is
positional. A value is looked at when the next option, or the end, shows that it is complete.

* `Grammar.read` reads the arguments of a command.
-/

set_option autoImplicit false

namespace MessageDocs.Arguments

/-- Why arguments do not name something to do. -/
inductive ArgumentError where
  | unknownArgument
  | invalidValue
  | invalidSubcommand
  | missingRequiredArgument
  | missingSubcommand
  | argumentConflict
  | tooManyValues
  | displayHelp
  | displayVersion
  | displayHelpOnMissingArgument
  deriving DecidableEq, Repr

/-- What an option asks for. -/
inductive OptionKind where
  | flag
  | value (accepts : Text → Bool)
  | help
  | version

structure OptionRule where
  name : Text
  letter : Option Char := none
  kind : OptionKind := .flag

structure PositionalRule where
  /-- Whether it may be given more than once. -/
  many : Bool := false
  required : Bool := false
  accepts : Text → Bool

structure Grammar where
  options : List OptionRule
  positional : Option PositionalRule := none

/-- An argument whose value may still be incomplete. -/
inductive Pending where
  | option (rule : OptionRule) (accepts : Text → Bool) (value : Option Text)
  | positional (values : List Text)

/-- An argument list in the course of being read. -/
structure Given where
  /-- The options given, a flag with an empty value. -/
  options : List (Text × Text) := []
  positionals : List Text := []
  pending : Option Pending := none
  /-- Whether the next argument that is no option is the value of the pending option. -/
  awaiting : Bool := false
  /-- Whether every further argument is positional. -/
  trailing : Bool := false

namespace Given

def option? (g : Given) (name : Text) : Option Text :=
  (g.options.find? (·.1 = name)).map Prod.snd

def has (g : Given) (name : Text) : Bool :=
  (g.option? name).isSome

/-- How many positional arguments there are, complete or not. -/
def count (g : Given) : Nat :=
  g.positionals.length +
    match g.pending with
    | some (.positional values) => values.length
    | _ => 0

end Given

namespace Grammar

/-! ## Values -/

/-- An option with its value; an option is given at most once. -/
def setOption (g : Given) (name value : Text) : Except ArgumentError Given :=
  if g.has name then .error .argumentConflict
  else .ok { g with options := g.options ++ [(name, value)] }

/-- The pending argument made final. -/
def settle (rules : Grammar) (g : Given) : Except ArgumentError Given :=
  match g.pending with
  | none => .ok g
  | some (.positional values) =>
    if values.all fun v => rules.positional.any (·.accepts v) then
      .ok { g with positionals := g.positionals ++ values, pending := none }
    else
      .error .invalidValue
  | some (.option _ _ none) => .error .invalidValue
  | some (.option rule accepts (some value)) =>
    match setOption { g with pending := none } rule.name value with
    | .error e => .error e
    | .ok g => if accepts value then .ok g else .error .invalidValue

/-! ## Options -/

/-- An option without a value. -/
def useFlag (rules : Grammar) (g : Given) (rule : OptionRule) : Except ArgumentError Given :=
  match settle rules g with
  | .error e => .error e
  | .ok g =>
    match rule.kind with
    | .help => .error .displayHelp
    | .version => .error .displayVersion
    | _ => setOption g rule.name []

/-- An option with a value that is attached to it or follows. -/
def useValue (rules : Grammar) (g : Given) (rule : OptionRule) (accepts : Text → Bool)
    (value : Option Text) : Except ArgumentError Given :=
  match settle rules g with
  | .error e => .error e
  | .ok g =>
    let g := { g with pending := some (.option rule accepts value) }
    match value with
    | some _ => settle rules g
    | none => .ok { g with awaiting := true }

def readLong (rules : Grammar) (g : Given) (body : Text) : Except ArgumentError Given :=
  let (name, value) :=
    match Text.cutAt '=' body with
    | some (name, value) => (name, some value)
    | none => (body, none)
  match rules.options.find? (·.name = name) with
  | none => .error .unknownArgument
  | some rule =>
    match rule.kind, value with
    | .value accepts, _ => useValue rules g rule accepts value
    | _, some _ => .error .tooManyValues
    | _, none => useFlag rules g rule

/-- Letters of options, the last of which may take the rest as its value. -/
def readLetters (rules : Grammar) (g : Given) : Text → Except ArgumentError Given
  | [] => .ok g
  | c :: rest =>
    match rules.options.find? (·.letter = some c) with
    | none => .error .unknownArgument
    | some rule =>
      match rule.kind with
      | .value accepts =>
        let attached :=
          match rest with
          | [] => none
          | '=' :: value => some value
          | value => some value
        useValue rules g rule accepts attached
      | _ =>
        match useFlag rules g rule with
        | .error e => .error e
        | .ok g => readLetters rules g rest

/-! ## Arguments -/

def readPositional (rules : Grammar) (g : Given) (arg : Text) : Except ArgumentError Given :=
  match rules.positional with
  | none => .error .unknownArgument
  | some rule =>
    match rule.many, g.pending with
    | true, some (.positional values) =>
      .ok { g with pending := some (.positional (values ++ [arg])) }
    | many, _ =>
      if !many && 0 < g.count then
        .error .unknownArgument
      else
        match settle rules g with
        | .error e => .error e
        | .ok g => .ok { g with pending := some (.positional [arg]) }

/-- The value of the pending option. -/
def readValue (g : Given) (arg : Text) : Given :=
  match g.pending with
  | some (.option rule accepts _) =>
    { g with pending := some (.option rule accepts (some arg)), awaiting := false }
  | _ => { g with awaiting := false }

def readArgument (rules : Grammar) (g : Given) (arg : Text) : Except ArgumentError Given :=
  if g.trailing then
    readPositional rules g arg
  else
    match arg with
    | ['-', '-'] => .ok { g with trailing := true }
    | '-' :: '-' :: body => readLong rules { g with awaiting := false } body
    | '-' :: c :: letters => readLetters rules { g with awaiting := false } (c :: letters)
    | _ => if g.awaiting then .ok (readValue g arg) else readPositional rules g arg

def readAll (rules : Grammar) : Given → List Text → Except ArgumentError Given
  | g, [] => settle rules g
  | g, arg :: args =>
    match readArgument rules g arg with
    | .error e => .error e
    | .ok g => readAll rules g args

/-- The arguments of a command. -/
def read (rules : Grammar) (args : List Text) : Except ArgumentError Given :=
  match readAll rules {} args with
  | .error e => .error e
  | .ok g =>
    if rules.positional.any (·.required) && g.positionals.isEmpty then
      .error .missingRequiredArgument
    else
      .ok g

end Grammar

end MessageDocs.Arguments
