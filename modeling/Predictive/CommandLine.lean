import Predictive.Command

/-! The command line: which options a command takes, how their values are attached, and what
a well-formed request does. Options may be long or short; a value follows as the next
argument or is attached, and then may be empty or start with a dash. An option stands at
most once, names are never shortened, and no command takes further arguments. Files are
read only once the whole line is accepted. -/

namespace Predictive.CommandLine

inductive Setting where
  | table
  | tokens
  | input
  | start
  | format
  | maxSteps
  | noTree
deriving DecidableEq

namespace Setting

def ofLong? : String → Option Setting
  | "table" => some table
  | "tokens" => some tokens
  | "input" => some input
  | "start" => some start
  | "format" => some format
  | "max-steps" => some maxSteps
  | "no-tree" => some noTree
  | _ => none

def ofShort? : Char → Option Setting
  | 't' => some table
  | 'i' => some input
  | 's' => some start
  | 'f' => some format
  | _ => none

def takesValue : Setting → Bool
  | noTree => false
  | _ => true

end Setting

inductive Argument where
  | escape
  | long (name : String) (attached : Option String)
  | short (letter : Char) (attached : Option String)
  | word

namespace Argument

def ofLong (cs : List Char) : Argument :=
  match cs.span (· ≠ '=') with
  | (name, []) => long (.ofList name) none
  | (name, _ :: value) => long (.ofList name) (some (.ofList value))

/-- An equals sign behind a short option is not part of its value. -/
def ofShort (letter : Char) : List Char → Argument
  | [] => short letter none
  | '=' :: value => short letter (some (.ofList value))
  | value => short letter (some (.ofList value))

def ofText (text : String) : Argument :=
  match text.toList with
  | ['-', '-'] => escape
  | '-' :: '-' :: cs => ofLong cs
  | '-' :: c :: cs => ofShort c cs
  | _ => word

end Argument

def isValue (text : String) : Bool :=
  match Argument.ofText text with
  | .word => true
  | _ => false

inductive Reading where
  /-- No option may follow. -/
  | last
  | refused
  | given (s : Setting) (value : String)
  /-- The value is the next argument. -/
  | awaiting (s : Setting)

namespace Reading

def ofSetting (s : Setting) (attached : Option String) : Reading :=
  match s.takesValue, attached with
  | true, some v => given s v
  | true, none => awaiting s
  | false, none => given s ""
  | false, some _ => refused

def ofName (allowed : List Setting) (s : Option Setting) (attached : Option String) :
    Reading :=
  match s.filter allowed.contains with
  | some s => ofSetting s attached
  | none => refused

def ofArgument (allowed : List Setting) : Argument → Reading
  | .escape => last
  | .word => refused
  | .long name attached => ofName allowed (Setting.ofLong? name) attached
  | .short letter attached => ofName allowed (Setting.ofShort? letter) attached

end Reading

def settings? (allowed : List Setting) : List String → Option (List (Setting × String))
  | [] => some []
  | argument :: rest =>
    match Reading.ofArgument allowed (.ofText argument) with
    | .last => if rest.isEmpty then some [] else none
    | .refused => none
    | .given s v => (settings? allowed rest).map ((s, v) :: ·)
    | .awaiting s =>
      match rest with
      | [] => none
      | v :: rest => if isValue v then (settings? allowed rest).map ((s, v) :: ·) else none

def stepCount? (text : String) : Option Nat :=
  let digits := match text.toList with
    | '+' :: cs => cs
    | cs => cs
  if digits.isEmpty || !digits.all Char.isDigit then none
  else
    let n := Json.Numeral.value digits
    if n < Nat.pow 2 64 then some n else none

def value? (s : Setting) (given : List (Setting × String)) : Option String :=
  (given.find? fun p => p.1 == s).map Prod.snd

def path? (s : Setting) (given : List (Setting × String)) : Option (Option String) :=
  match value? s given with
  | some "" => none
  | v => some v

inductive TokenSource where
  | line (text : String)
  | file (path : String)
  | standardInput
deriving DecidableEq

inductive Request where
  | version
  | parse (table : String) (tokens : TokenSource) (options : ParseOptions)
  | list (table : String)

namespace Request

def tokenSource? (tokens input : Option String) : Option TokenSource :=
  match tokens, input with
  | some _, some _ => none
  | some text, none => some (.line text)
  | none, some path => some (.file path)
  | none, none => some .standardInput

def ofParseSettings? (given : List (Setting × String)) : Option Request := do
  let table ← (← path? .table given)
  let input ← path? .input given
  let source ← tokenSource? (value? .tokens given) input
  let format ← (OutputFormat.ofName ((value? .format given).getD "text")).toOption
  let limit ← match value? .maxSteps given with
    | none => some none
    | some text => (stepCount? text).map some
  return .parse table source ⟨value? .start given, format, limit,
    (value? .noTree given).isNone⟩

def ofListSettings? (given : List (Setting × String)) : Option Request := do
  let table ← (← path? .table given)
  return .list table

def parseSettings : List Setting :=
  [.table, .tokens, .input, .start, .format, .maxSteps, .noTree]

def once? (allowed : List Setting) (rest : List String) : Option (List (Setting × String)) :=
  (settings? allowed rest).filter fun given => (given.map Prod.fst).Nodup

def ofArguments? : List String → Option Request
  | "parse" :: rest => (once? parseSettings rest).bind ofParseSettings?
  | "table" :: rest => (once? [.table] rest).bind ofListSettings?
  | "--version" :: _ => some .version
  | first :: _ =>
    match Argument.ofText first with
    | .short 'V' _ => some .version
    | _ => none
  | [] => none

end Request

inductive Outcome where
  | refused
  | done (output : String)
  | failed (e : CommandError)

namespace Outcome

def ofResult : Except CommandError String → Outcome
  | .ok output => done output
  | .error e => failed e

def exitCode : Outcome → Nat
  | refused => 2
  | done _ => 0
  | failed _ => 1

def standardOutput : Outcome → String
  | done output => output
  | _ => ""

/-- Where the report of a failure would go on with text that is not this program's own, it
stops there. -/
def standardError : Outcome → String
  | failed (.unreadable path) => "Error: " ++ Inspection.commandError (.unreadable path)
  | failed (.document f) => "Error: " ++ Inspection.commandError (.document f)
  | failed e => "Error: " ++ Inspection.commandError e ++ "\n"
  | _ => ""

end Outcome

inductive Source where
  | file (path : String)
  | standardInput
deriving DecidableEq

def Source.name : Source → String
  | file path => path
  | standardInput => "<stdin>"

section

variable {m : Type → Type} [Monad m] (read : Source → m (Option String))

def readText (s : Source) : m (Except CommandError String) := do
  return match ← read s with
    | some text => .ok text
    | none => .error (.unreadable s.name)

def readDocument (path : String) : m (Except CommandError Document) := do
  return (← readText read (.file path)).bind fun text =>
    (Document.ofText text).mapError .document

def readTokens : TokenSource → m (Except CommandError String)
  | .line text => return .ok text
  | .file path => readText read (.file path)
  | .standardInput => readText read .standardInput

/-- Carries out a request with a way to read files, which tells only whether there was a
text. The document is read and understood before the tokens are read. There is no outcome
when the run that was asked for never ends. -/
def perform : Request → m (Option Outcome)
  | .version => return some (.done "lltrace 0.3.0\n")
  | .list path => do
    return some (.ofResult ((← readDocument read path).bind Document.listing))
  | .parse path source options => do
    match ← readDocument read path with
    | .error e => return some (.failed e)
    | .ok document =>
      match ← readTokens read source with
      | .error e => return some (.failed e)
      | .ok tokens => return (document.parseTokens tokens options).map .ofResult

def execute (arguments : List String) : m (Option Outcome) :=
  match Request.ofArguments? arguments with
  | none => return some .refused
  | some r => perform read r

end

end Predictive.CommandLine
