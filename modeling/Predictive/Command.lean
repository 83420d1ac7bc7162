import Predictive.Document
import Predictive.Journal
import Predictive.Json.Sorted
import Predictive.Layout
import Predictive.Record.Json
import Predictive.Text.Words
import Predictive.Tree.Json

/-! What the command line does with a table document: parse a line of tokens, or list the
table. Nothing here touches a file. -/

namespace Predictive

def Terminal.ofWords (text : String) : Except GrammarError (List Terminal) :=
  (Text.words text).mapM Terminal.ofText

inductive OutputFormat where
  | text
  | json
deriving DecidableEq

namespace OutputFormat

/-- The name is taken without regard to the case of its letters, which are all ASCII. -/
def ofName (name : String) : Except String OutputFormat :=
  match name.map Char.toLower with
  | "text" => .ok text
  | "txt" => .ok text
  | "json" => .ok json
  | _ => .error ("Unknown format: " ++ name ++ ". Supported: text, json")

def name : OutputFormat → String
  | text => "Text"
  | json => "Json"

end OutputFormat

inductive CommandError where
  /-- The file of this name, or the standard input, gave no text. -/
  | unreadable (path : String)
  | document (f : Json.Fault)
  | grammar (e : GrammarError)
  | missingStart
  | parse (e : ParseError)

namespace CommandError

/-- The message, where it is this program's own and not that of the system or of a reader of
JSON. -/
def message? : CommandError → Option String
  | unreadable _ => none
  | document _ => none
  | grammar e => some ("invalid table: " ++ e.message)
  | missingStart => some "no start symbol given and the table document names none"
  | parse e => some e.message

end CommandError

structure ParseOptions where
  /-- Stands in for the document's own start symbol. -/
  start : Option String
  format : OutputFormat
  limit : Option Nat
  withTree : Bool

structure Job where
  table : Table
  start : NonTerminal
  tokens : List Terminal

namespace Job

def run (j : Job) (limit : Option Nat) : Option Run := j.table.run j.start j.tokens limit

def drive (j : Job) (limit : Option Nat) : Option (Except Rejection Trace) :=
  j.table.drive j.start j.tokens limit

end Job

namespace Document

def job (d : Document) (tokens : String) (o : ParseOptions) : Except CommandError Job := do
  let table ← d.toTable.mapError .grammar
  match o.start.or d.start with
  | none => .error .missingStart
  | some name =>
    let start ← (NonTerminal.ofText name).mapError .grammar
    let terminals ← (Terminal.ofWords tokens).mapError .grammar
    return ⟨table, start, terminals⟩

def outputText (trace : Trace) (tree : Option Tree) : String :=
  Layout.standard.trace trace ++ tree.elim "" fun t => "\n" ++ Layout.standard.tree t ++ "\n"

def outputJson (trace : Trace) (tree : Option Tree) : String :=
  (Json.object (("trace", trace.toJson) ::
    (tree.map fun t => ("tree", t.toJson)).toList)).sorted.spread ++ "\n"

def output (format : OutputFormat) (trace : Trace) (tree : Option Tree) : String :=
  match format with
  | .text => outputText trace tree
  | .json => outputJson trace tree

def report (o : ParseOptions) : Except Rejection Trace → Except CommandError String
  | .error r => .error (.parse (.rejected r))
  | .ok trace =>
    if o.withTree then
      match Tree.ofTrace trace with
      | .ok tree => .ok (output o.format trace (some tree))
      | .error e => .error (.parse (.untreed e))
    else .ok (output o.format trace none)

def parseTokens (d : Document) (tokens : String) (o : ParseOptions) :
    Option (Except CommandError String) :=
  match d.job tokens o with
  | .error e => some (.error e)
  | .ok j => (j.drive o.limit).map (report o)

def parseJournal (d : Document) (tokens : String) (o : ParseOptions) :
    Option (List JournalLine) :=
  match d.job tokens o with
  | .error _ => some []
  | .ok j => (j.run o.limit).map fun r =>
    .announcing j.start j.tokens.length :: r.journal j.tokens.length

def listing (d : Document) : Except CommandError String :=
  (d.toTable.mapError .grammar).map Table.listing

end Document

namespace Inspection

/-- Of an unreadable file only its name is told, and of a fault in a document nothing; what
would follow is not this program's own text. -/
def commandError : CommandError → String
  | .unreadable path => "Io \x7b path: " ++ Text.quoted path
  | .document _ => "Document"
  | .grammar e => tagged "Grammar" (grammarError e)
  | .missingStart => "MissingStart"
  | .parse e => tagged "Parse" (parseError e)

end Inspection

end Predictive
