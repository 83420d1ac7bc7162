import Predictive.Production
import Predictive.SortedMap

/-! Predictive parsing tables: rows keyed by nonterminals, cells keyed by lookaheads. The
table is taken as given; a hole in it or a cell whose production belongs elsewhere shows
only when the table is driven. A row may be empty, which is not the same as a missing row,
and a cell may hold an error marker, which is not the same as a missing cell. -/

namespace Predictive

inductive Cell where
  | production (p : Production)
  | error
deriving DecidableEq

namespace Cell

def production? : Cell → Option Production
  | production p => some p
  | error => none

def toText : Cell → String
  | production p => p.toText
  | error => "error"

end Cell

abbrev Row := SortedMap Lookahead Cell

structure Table where
  rows : SortedMap NonTerminal Row
deriving DecidableEq

namespace Table

def empty : Table := ⟨.empty⟩

def row? (t : Table) (n : NonTerminal) : Option Row := t.rows.get? n

def hasRow (t : Table) (n : NonTerminal) : Bool := (t.row? n).isSome

def cell? (t : Table) (n : NonTerminal) (l : Lookahead) : Option Cell :=
  (t.row? n).bind (·.get? l)

def production? (t : Table) (n : NonTerminal) (l : Lookahead) : Option Production :=
  (t.cell? n l).bind Cell.production?

def rowOrEmpty (t : Table) (n : NonTerminal) : Row := (t.row? n).getD .empty

/-- The row exists afterwards, even if it stays empty. -/
def openRow (t : Table) (n : NonTerminal) : Table := ⟨t.rows.insert n (t.rowOrEmpty n)⟩

def insert (t : Table) (n : NonTerminal) (l : Lookahead) (c : Cell) : Table :=
  ⟨t.rows.insert n ((t.rowOrEmpty n).insert l c)⟩

def cells (t : Table) : List (NonTerminal × Lookahead × Cell) :=
  t.rows.entries.flatMap fun (n, row) => row.entries.map fun (l, c) => (n, l, c)

def listing (t : Table) : String :=
  .join (t.cells.map fun (n, l, c) =>
    "M[" ++ n.text ++ ", " ++ l.text ++ "] = " ++ c.toText ++ "\n")

theorem row?_openRow_self (t : Table) (n : NonTerminal) :
    (t.openRow n).row? n = some (t.rowOrEmpty n) :=
  SortedMap.get?_insert_self ..

theorem row?_openRow_of_ne (t : Table) {n m : NonTerminal} (h : m ≠ n) :
    (t.openRow n).row? m = t.row? m :=
  SortedMap.get?_insert_of_ne _ h _

theorem row?_insert_self (t : Table) (n : NonTerminal) (l : Lookahead) (c : Cell) :
    (t.insert n l c).row? n = some ((t.rowOrEmpty n).insert l c) :=
  SortedMap.get?_insert_self ..

theorem row?_insert_of_ne (t : Table) {n m : NonTerminal} (h : m ≠ n) (l : Lookahead)
    (c : Cell) : (t.insert n l c).row? m = t.row? m :=
  SortedMap.get?_insert_of_ne _ h _

theorem cell?_insert_self (t : Table) (n : NonTerminal) (l : Lookahead) (c : Cell) :
    (t.insert n l c).cell? n l = some c := by
  simp [cell?, row?_insert_self, SortedMap.get?_insert_self]

end Table

inductive TableEdit where
  | entry (left lookahead : String) (right : List String)
  | error (left lookahead : String)
  | row (left : String)

namespace TableEdit

/-- The row's name is read before the lookahead, and both before the right side. -/
def apply (t : Table) : TableEdit → Except GrammarError Table
  | entry left lookahead right => do
    let n ← NonTerminal.ofText left
    let l ← Lookahead.ofText lookahead
    let p ← Production.ofTexts n right
    return t.insert n l (.production p)
  | error left lookahead => do
    let n ← NonTerminal.ofText left
    let l ← Lookahead.ofText lookahead
    return t.insert n l .error
  | row left => do
    let n ← NonTerminal.ofText left
    return t.openRow n

end TableEdit

def Table.ofEdits (edits : List TableEdit) : Except GrammarError Table :=
  edits.foldlM TableEdit.apply .empty

end Predictive
