import Predictive.Symbol

/-! Reasons for which driving a table stops without acceptance. Positions count the tokens
that were consumed before the automaton stopped. -/

namespace Predictive

inductive Hole where
  | absent
  | marked
deriving DecidableEq

inductive Rejection where
  /-- The symbol on top is no nonterminal and differs from what is read. -/
  | mismatch (position : Nat) (expected : Symbol) (found : Lookahead)
  | missingRow (nonterminal : NonTerminal)
  | noEntry (position : Nat) (nonterminal : NonTerminal) (lookahead : Lookahead) (hole : Hole)
  /-- One more move would have been possible but is not allowed. -/
  | stepLimit (limit : Nat)
deriving DecidableEq

namespace Rejection

def message : Rejection → String
  | mismatch position expected found =>
    "syntax error at position " ++ toString position ++ ": expected `" ++ expected.text ++
      "`, found `" ++ found.text ++ "`"
  | missingRow nonterminal => "parsing table has no row for `" ++ nonterminal.text ++ "`"
  | noEntry position nonterminal lookahead _ =>
    "syntax error at position " ++ toString position ++ ": no production for `" ++
      nonterminal.text ++ "` on `" ++ lookahead.text ++ "`"
  | stepLimit limit => "derivation exceeded the limit of " ++ toString limit ++ " steps"

def code : Rejection → String
  | mismatch .. => "lltrace::driver::mismatch"
  | missingRow _ => "lltrace::driver::missing_row"
  | noEntry .. => "lltrace::driver::no_entry"
  | stepLimit _ => "lltrace::driver::step_limit"

def help : Rejection → Option String
  | missingRow _ => some "every nonterminal reachable from the start symbol needs a table row"
  | _ => none

def position? : Rejection → Option Nat
  | mismatch position _ _ => some position
  | noEntry position _ _ _ => some position
  | _ => none

def isSyntaxError (r : Rejection) : Bool := r.position?.isSome

end Rejection

end Predictive
