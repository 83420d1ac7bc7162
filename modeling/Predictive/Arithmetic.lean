import Predictive.Table

/-! The table for arithmetic expressions over two names for operands, four operators and
parentheses, with a layer for sums and one for products:

    E  → T E'
    E' → + T E' | - T E' | ε
    T  → F T'
    T' → * F T' | / F T' | ε
    F  → ( E ) | id | num
-/

namespace Predictive.Arithmetic

def start : NonTerminal := ⟨"E", by decide⟩

def operandEdits : List TableEdit :=
  ["id", "num", "("].flatMap fun first =>
    [.entry "E" first ["T", "E'"], .entry "T" first ["F", "T'"]]

def sumEdits : List TableEdit :=
  ["+", "-"].flatMap fun op => [.entry "E'" op [op, "T", "E'"], .entry "T'" op ["ε"]]

def productEdits : List TableEdit :=
  ["*", "/"].map fun op => .entry "T'" op [op, "F", "T'"]

def closingEdits : List TableEdit :=
  [")", "$"].flatMap fun follow => [.entry "E'" follow ["ε"], .entry "T'" follow ["ε"]]

def factorEdits : List TableEdit :=
  [.entry "F" "id" ["id"], .entry "F" "num" ["num"], .entry "F" "(" ["(", "E", ")"]]

def edits : List TableEdit :=
  operandEdits ++ sumEdits ++ productEdits ++ closingEdits ++ factorEdits

/-- The edits are all accepted, so the fallback is never taken. -/
def table : Table := (Table.ofEdits edits).toOption.getD .empty

end Predictive.Arithmetic
