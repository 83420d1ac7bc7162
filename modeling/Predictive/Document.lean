import Predictive.Json
import Predictive.Json.Reader
import Predictive.Table

/-! Table documents: a table as it is kept in a file, with every symbol still a text. A
document is read without regard to the naming convention, which is checked only when the
table is built from it. Rows and cells are kept in the order of their keys' texts, and that
is the order in which the table is built, so the first symbol at fault does not depend on
how the file was written. -/

namespace Predictive

open Json (Reader Outline Fault Tear)

inductive CellText where
  | production (right : List String)
  | error
deriving DecidableEq

namespace CellText

def ofCell : Cell → CellText
  | .production p => production (p.right.map Symbol.text)
  | .error => error

def edit (left lookahead : String) : CellText → TableEdit
  | production right => .entry left lookahead right
  | error => .error left lookahead

def toJson : CellText → Json
  | production right => .list (right.map .text)
  | error => .text "error"

def text? : Outline → Option String
  | .text s => s
  | _ => none

def ofOutline? : Outline → Option CellText
  | .list items _ => (items.mapM text?).map production
  | .text s => if s = some "error" then some error else none
  | .object [(some key, .null)] _ => if key = "error" then some error else none
  | _ => none

/-- A cell is read as JSON first, whatever it is. -/
def reader : Reader CellText := fun b o => do
  Json.intact b o
  match ofOutline? o with
  | some c => .ok c
  | none => .error .misshapen

end CellText

abbrev RowText := SortedMap String CellText

structure Document where
  start : Option String
  table : SortedMap String RowText
deriving DecidableEq

namespace Document

def rowEdits (left : String) (row : RowText) : List TableEdit :=
  .row left :: row.entries.map fun (lookahead, c) => c.edit left lookahead

def edits (d : Document) : List TableEdit :=
  d.table.entries.flatMap fun (left, row) => rowEdits left row

def toTable (d : Document) : Except GrammarError Table := Table.ofEdits d.edits

def rowOfTable (row : Row) : RowText :=
  .ofList (row.entries.map fun (l, c) => (l.text, .ofCell c))

def ofTable (start : Option String) (t : Table) : Document :=
  ⟨start, .ofList (t.rows.entries.map fun (n, row) => (n.text, rowOfTable row))⟩

def rowToJson (row : RowText) : Json := .object (row.entries.map fun (k, c) => (k, c.toJson))

def toJson (d : Document) : Json :=
  .object ((d.start.map fun s => ("start", Json.text s)).toList ++
    [("table", .object (d.table.entries.map fun (k, row) => (k, rowToJson row)))])

def toText (d : Document) : String := d.toJson.spread

structure Draft where
  start : Option (Option String)
  table : Option (SortedMap String RowText)

namespace Draft

def known (b : Nat) : Reader.Fields Draft := fun d key =>
  match key with
  | "start" =>
    some (Reader.once d.start (Reader.optional .text b) fun s => { d with start := some s })
  | "table" =>
    some (Reader.once d.table (Reader.map (Reader.map CellText.reader) b)
      fun t => { d with table := t })
  | _ => none

def finish (d : Draft) : Except Fault Document := do
  return ⟨d.start.join, ← Reader.required d.table⟩

end Draft

def reader : Reader Document :=
  .product
    (fun b fields tear => do (← Reader.fields (Draft.known b) ⟨none, none⟩ fields tear).finish)
    (fun b items tear => do
      let (start, rest) ← Reader.next? (Reader.optional .text b) items tear
      let (table, rest) ← Reader.next (Reader.map (Reader.map CellText.reader) b) rest tear
      Reader.finish rest tear
      return ⟨start.join, table⟩)

def ofText (text : String) : Except Fault Document := Reader.run reader text

end Document

end Predictive
