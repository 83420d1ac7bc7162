import Predictive.Derivation

/-! Plain text for traces and trees. A trace is a table with one line for each configuration
and columns that are as wide as the layout asks or as their text needs; a tree has one line
for each node, indented by its level. -/

namespace Predictive

structure Layout where
  indent : String
  stepWidth : Nat
  stackWidth : Nat
  inputWidth : Nat

namespace Layout

def standard : Layout := ⟨"  ", 4, 15, 15⟩

def pad (width : Nat) (text : String) : String :=
  text ++ .ofList (List.replicate (width - text.length) ' ')

def rule (width : Nat) : String := .ofList (List.replicate width '-')

def spaced (texts : List String) : String := " ".intercalate texts

def action (previous : Option Configuration) (c : Configuration) : String :=
  match c.applied with
  | some p => "apply " ++ p.toText
  | none =>
    match previous with
    | some before =>
      if 0 < c.step then
        match before.input.front? with
        | some token => "match " ++ token.text
        | none => "match"
      else "start"
    | none => "start"

def traceHeader (l : Layout) : String :=
  pad l.stepWidth "step" ++ " | " ++ pad l.stackWidth "stack" ++ " | " ++
    pad l.inputWidth "input" ++ " | action"

def traceRule (l : Layout) : String :=
  rule l.stepWidth ++ "-|-" ++ rule l.stackWidth ++ "-|-" ++ rule l.inputWidth ++ "-|-------"

def traceLine (l : Layout) (previous : Option Configuration) (c : Configuration) : String :=
  pad l.stepWidth (toString c.step) ++ " | " ++
    pad l.stackWidth (spaced (c.stack.toList.map Symbol.text)) ++ " | " ++
    pad l.inputWidth (spaced (c.input.unread.map Lookahead.text)) ++ " | " ++
    action previous c

def traceLines (l : Layout) : Option Configuration → Trace → List String
  | _, [] => []
  | previous, c :: rest => traceLine l previous c :: traceLines l (some c) rest

def trace (l : Layout) (t : Trace) : String :=
  .join ((traceHeader l :: traceRule l :: traceLines l none t).map (· ++ "\n"))

def treeLine (l : Layout) (level : Nat) (t : Tree) : String :=
  .join (List.replicate level l.indent) ++ t.symbol.text ++
    t.value.elim "" (fun v => " (" ++ v ++ ")") ++
    (if t.isLeaf then ""
     else " → [" ++ spaced (t.children.map fun c => c.symbol.text) ++ "]")

def treeLines (l : Layout) : List (Tree × Nat) → List String
  | [] => []
  | (.node s cs v, level) :: rest =>
    treeLine l level (.node s cs v) :: treeLines l (Tree.atLevel (level + 1) cs ++ rest)
termination_by pending => Tree.sizes (pending.map Prod.fst)
decreasing_by simp [Tree.atLevel_fst, Tree.sizes_append, Tree.sizes, Tree.size]

def tree (l : Layout) (t : Tree) : String := "\n".intercalate (treeLines l [(t, 0)])

end Layout

end Predictive
