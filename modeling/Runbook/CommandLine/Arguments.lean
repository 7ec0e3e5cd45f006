/-!
The words of a command line. The first names a command, and the others are the path of a graph
and options in any order. The value of an option follows it as the next word, which may not look
like an option, or is joined to it. After two dashes every word is a path.
-/
namespace Runbook.CommandLine

inductive Verb where
  | validate
  | inspect
  | compile
deriving DecidableEq, Repr

namespace Verb

def all : List Verb := [validate, inspect, compile]

def name : Verb → String
  | validate => "validate"
  | inspect => "inspect"
  | compile => "compile"

def ofName? (word : String) : Option Verb := all.find? fun verb => verb.name = word

end Verb

inductive Flag where
  | json
  | manifest
  | resolved
  | config
  | output
deriving DecidableEq, Repr

namespace Flag

def long : Flag → String
  | json => "json"
  | manifest => "manifest"
  | resolved => "resolved"
  | config => "config"
  | output => "output"

def short : Flag → Option Char
  | output => some 'o'
  | _ => none

def takesValue : Flag → Bool
  | json => false
  | manifest => false
  | _ => true

end Flag

def Verb.flags : Verb → List Flag
  | .validate => [.json]
  | .inspect => []
  | .compile => [.resolved, .config, .output, .manifest]

inductive Command where
  | validate (graph : String) (json : Bool)
  | inspect (graph : String)
  | compile (graph : String) (resolved config output : Option String) (manifest : Bool)
deriving DecidableEq, Repr

def Command.sources : Command → List String
  | validate graph _ => [graph]
  | inspect graph => [graph]
  | compile graph resolved config _ _ => graph :: (resolved.toList ++ config.toList)

inductive Request where
  | version
  | help
  | run (command : Command)
deriving DecidableEq, Repr

def Request.sources : Request → List String
  | run command => command.sources
  | _ => []

inductive UsageError where
  | noCommand
  | noGraph
  | unexpected (word : String)
  | repeated (flag : Flag)
  | noValue (flag : Flag)
  | valueNotTaken (flag : Flag)
  | emptyPath
deriving DecidableEq, Repr

def UsageError.message : UsageError → String
  | noCommand => "a command is required: validate, inspect or compile"
  | noGraph => "the path of a graph is required"
  | unexpected word => "unexpected argument '" ++ word ++ "'"
  | repeated flag => "--" ++ flag.long ++ " is given twice"
  | noValue flag => "--" ++ flag.long ++ " needs a value"
  | valueNotTaken flag => "--" ++ flag.long ++ " takes no value"
  | emptyPath => "a path is empty"

/-- A word by its form. A dash alone is a path. -/
inductive Word where
  | separator
  | long (name : String) (value : Option String)
  | short (letter : Char) (rest : List Char)
  | path (text : String)
deriving DecidableEq, Repr

def splitAtEquals (cs : List Char) : String × Option String :=
  match cs.dropWhile (· ≠ '=') with
  | [] => (String.ofList cs, none)
  | _ :: value => (String.ofList (cs.takeWhile (· ≠ '=')), some (String.ofList value))

def Word.ofText (text : String) : Word :=
  match text.toList with
  | ['-', '-'] => separator
  | '-' :: '-' :: cs =>
    let (name, value) := splitAtEquals cs
    long name value
  | '-' :: c :: rest => short c rest
  | _ => path text

structure Given where
  graph : Option String := none
  flags : List (Flag × String) := []
deriving DecidableEq, Repr

namespace Given

def has (g : Given) (flag : Flag) : Bool := g.flags.any fun f => f.1 = flag

def value? (g : Given) (flag : Flag) : Option String := g.flags.lookup flag

def addGraph (g : Given) (path : String) : Except UsageError Given :=
  if g.graph.isSome then .error (.unexpected path)
  else if path = "" then .error .emptyPath
  else .ok { g with graph := some path }

def addSwitch (g : Given) (flag : Flag) : Except UsageError Given :=
  if g.has flag then .error (.repeated flag) else .ok { g with flags := g.flags ++ [(flag, "")] }

def addValue (g : Given) (flag : Flag) (value : String) : Except UsageError Given :=
  if g.has flag then .error (.repeated flag)
  else if value = "" then .error .emptyPath
  else .ok { g with flags := g.flags ++ [(flag, value)] }

def command (g : Given) (verb : Verb) : Except UsageError Command :=
  match g.graph with
  | none => .error .noGraph
  | some graph =>
    match verb with
    | .validate => .ok (.validate graph (g.has .json))
    | .inspect => .ok (.inspect graph)
    | .compile =>
      .ok (.compile graph (g.value? .resolved) (g.value? .config) (g.value? .output)
        (g.has .manifest))

end Given

/-- The value joined to a letter. An equals sign may stand between them. -/
def joinedValue : List Char → String
  | '=' :: value => String.ofList value
  | value => String.ofList value

/-- Reads the words after a verb, where `pending` is the option that waits for its value. An empty
answer asks for help. -/
def readWords (verb : Verb) (pending : Option Flag) (g : Given) :
    List String → Except UsageError (Option Given)
  | [] =>
    match pending with
    | some flag => .error (.noValue flag)
    | none => .ok (some g)
  | text :: rest =>
    match pending, Word.ofText text with
    | some flag, .path value => do readWords verb none (← g.addValue flag value) rest
    | some flag, _ => .error (.noValue flag)
    | none, .path path => do readWords verb none (← g.addGraph path) rest
    | none, .separator => some <$> rest.foldlM Given.addGraph g
    | none, .long name value =>
      match verb.flags.find? (fun flag => flag.long = name), value with
      | some flag, value =>
        match flag.takesValue, value with
        | true, some value => do readWords verb none (← g.addValue flag value) rest
        | true, none => readWords verb (some flag) g rest
        | false, some _ => .error (.valueNotTaken flag)
        | false, none => do readWords verb none (← g.addSwitch flag) rest
      | none, none => if name = "help" then .ok none else .error (.unexpected text)
      | none, some _ => .error (.unexpected text)
    | none, .short letter joined =>
      match verb.flags.find? fun flag => flag.short = some letter with
      | some flag =>
        if joined.isEmpty then readWords verb (some flag) g rest
        else do readWords verb none (← g.addValue flag (joinedValue joined)) rest
      | none => if letter = 'h' then .ok none else .error (.unexpected text)

def readHelp : List String → Except UsageError Request
  | [] => .ok .help
  | [word] =>
    if (Verb.ofName? word).isSome || word = "help" then .ok .help else .error (.unexpected word)
  | _ :: word :: _ => .error (.unexpected word)

def Request.ofWords : List String → Except UsageError Request
  | [] => .error .noCommand
  | text :: rest =>
    match Word.ofText text with
    | .path word =>
      match Verb.ofName? word with
      | some verb => do
        match ← readWords verb none {} rest with
        | none => return .help
        | some g => return .run (← g.command verb)
      | none => if word = "help" then readHelp rest else .error (.unexpected word)
    | .long name none =>
      if name = "version" then .ok .version
      else if name = "help" then .ok .help
      else .error (.unexpected text)
    | .short letter _ =>
      if letter = 'V' then .ok .version
      else if letter = 'h' then .ok .help
      else .error (.unexpected text)
    | .separator | .long _ (some _) => .error (.unexpected text)

end Runbook.CommandLine
