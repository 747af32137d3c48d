import MessageDocs.Arguments.Grammar
import MessageDocs.Command.Build
import MessageDocs.Command.Init
import MessageDocs.Command.Inspect
import MessageDocs.Command.Listing
import MessageDocs.Command.Validate

/-! # Invocations

The commands of the program with their options, and the reading of a whole argument list: options
that every command has, the name of a command, and the arguments of that command.
-/

set_option autoImplicit false

namespace MessageDocs

/-- What the program is asked to do. -/
inductive Command where
  | build (a : Command.Build)
  | validate (a : Command.Validate)
  | list (a : Command.Listing)
  | inspect (a : Command.Inspect)
  | init (a : Command.Init)
  | completions (shell : Text)
  deriving DecidableEq, Repr

structure Invocation where
  quiet : Bool := false
  command : Command
  deriving DecidableEq, Repr

namespace Arguments

/-! ## Grammars -/

/-- A path may be any text but the empty one. -/
def isPathText (t : Text) : Bool :=
  !t.isEmpty

def isMatchingWord (t : Text) : Bool :=
  (Matching.ofWord? t).isSome

def shells : List Text :=
  ["bash", "elvish", "fish", "powershell", "zsh"]

def quietRule : OptionRule := { name := "quiet", letter := some 'q' }
def helpRule : OptionRule := { name := "help", letter := some 'h', kind := .help }
def versionRule : OptionRule := { name := "version", letter := some 'V', kind := .version }
def matchingRule : OptionRule := { name := "enum-matching", kind := .value isMatchingWord }

/-- A grammar with the options that every command has. -/
def grammar (options : List OptionRule) (positional : Option PositionalRule) : Grammar :=
  { options := options ++ [quietRule, helpRule], positional := positional }

def manyPaths : PositionalRule :=
  { many := true, accepts := isPathText }

def buildGrammar : Grammar :=
  grammar
    [{ name := "output", letter := some 'o', kind := .value isPathText }, matchingRule,
     { name := "source-url", kind := .value fun _ => true }]
    (some manyPaths)

def validateGrammar : Grammar :=
  grammar [matchingRule, { name := "strict" }] (some manyPaths)

def listGrammar : Grammar :=
  grammar [{ name := "with-path" }] (some manyPaths)

def inspectGrammar : Grammar :=
  grammar [{ name := "json" }, matchingRule] (some { required := true, accepts := isPathText })

def initGrammar : Grammar :=
  grammar [{ name := "force" }] (some { accepts := isPathText })

def completionsGrammar : Grammar :=
  grammar [] (some { required := true, accepts := fun t => shells.contains t })

/-! ## Commands -/

def paths (g : Given) : List Path :=
  g.positionals.map Path.mk

def matching? (g : Given) : Option Matching :=
  (g.option? "enum-matching").bind Matching.ofWord?

def buildOf (g : Given) : Command :=
  .build
    { paths := paths g
      output := (g.option? "output").map Path.mk
      matching := matching? g
      sourceUrl := g.option? "source-url" }

def validateOf (g : Given) : Command :=
  .validate { paths := paths g, matching := matching? g, strict := g.has "strict" }

def listOf (g : Given) : Command :=
  .list { paths := paths g, withPath := g.has "with-path" }

def inspectOf (g : Given) : Command :=
  .inspect
    { file := (paths g).headD ⟨[]⟩, json := g.has "json", matching := matching? g }

def initOf (g : Given) : Command :=
  .init { path := (paths g).headD ⟨"."⟩, force := g.has "force" }

def completionsOf (g : Given) : Command :=
  .completions (g.positionals.headD [])

/-- The commands by name: their grammar and the meaning of their arguments. -/
def commands : List (Text × Grammar × (Given → Command)) :=
  [("build", buildGrammar, buildOf), ("validate", validateGrammar, validateOf),
   ("list", listGrammar, listOf), ("inspect", inspectGrammar, inspectOf),
   ("init", initGrammar, initOf), ("completions", completionsGrammar, completionsOf)]

def helpCommand : Text := "help"

def isCommandName (t : Text) : Bool :=
  t = helpCommand || (commands.map Prod.fst).contains t

/-! ## Reading -/

def rootGrammar : Grammar :=
  grammar [versionRule] none

/-- What a request for help asks about: nothing, or one command that exists. -/
def readHelp (args : List Text) : ArgumentError :=
  match args with
  | [] => .displayHelp
  | [name] => if isCommandName name then .displayHelp else .invalidSubcommand
  | _ => .invalidSubcommand

/-- The error of an argument that should have been a command. After `--` none is expected. -/
def notACommand (trailing : Bool) (arg : Text) : ArgumentError :=
  if trailing && isCommandName arg then .unknownArgument else .invalidSubcommand

def readCommand (quiet : Bool) (name : Text) (args : List Text) :
    Except ArgumentError Invocation :=
  match commands.find? (·.1 = name) with
  | none => .error .invalidSubcommand
  | some (_, rules, meaning) =>
    match rules.read args with
    | .error e => .error e
    | .ok g => .ok { quiet := quiet || g.has "quiet", command := meaning g }

/-- An argument list from before the name of the command. -/
def readFrom (g : Given) : List Text → Except ArgumentError Invocation
  | [] =>
    if g.options.isEmpty then .error .displayHelpOnMissingArgument else .error .missingSubcommand
  | arg :: args =>
    if g.trailing then .error (notACommand true arg)
    else if arg = helpCommand then .error (readHelp args)
    else if isCommandName arg then readCommand (g.has "quiet") arg args
    else
      match Grammar.readArgument rootGrammar g arg with
      | .ok g => readFrom g args
      | .error .unknownArgument =>
        if arg.head? = some '-' ∧ arg ≠ ['-'] then .error .unknownArgument
        else .error (notACommand false arg)
      | .error e => .error e

end Arguments

/-- What an argument list, without the name of the program, asks for. -/
def Invocation.ofArguments (args : List Text) : Except Arguments.ArgumentError Invocation :=
  Arguments.readFrom {} args

/-- The run of a command. There are no completion scripts. -/
def Command.run (t : Terminal) (d : Disk) : Command → Ended
  | build a => a.run t d
  | validate a => a.run t d
  | list a => a.run t d
  | inspect a => a.run t d
  | init a => a.run t d
  | completions shell => .failed (.build ("no completion script for " ++ shell) none) { disk := d }

end MessageDocs
