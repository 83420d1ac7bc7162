import Predictive.Automaton
import Predictive.Tree.Growth

/-! A derivation is the trace of an accepted input together with the tree grown from it. -/

namespace Predictive

inductive ParseError where
  | rejected (r : Rejection)
  | untreed (e : TreeError)
deriving DecidableEq

def ParseError.message : ParseError → String
  | rejected r => r.message
  | untreed e => e.message

structure Derivation where
  trace : Trace
  tree : Tree

def Derivation.ofTrace (trace : Trace) : Except ParseError Derivation :=
  match Tree.ofTrace trace with
  | .ok tree => .ok ⟨trace, tree⟩
  | .error e => .error (.untreed e)

/-- Undefined, like the run itself, when the run never ends. -/
def Table.parse (t : Table) (start : NonTerminal) (tokens : List Terminal)
    (limit : Option Nat) : Option (Except ParseError Derivation) :=
  (t.drive start tokens limit).map fun outcome =>
    match outcome with
    | .ok trace => Derivation.ofTrace trace
    | .error r => .error (.rejected r)

end Predictive
