import Predictive.Stack
import Predictive.Symbol.Reader
import Predictive.Text.Quoted
import Predictive.Derivation

/-! Values written out by their structure, for journals and failure reports: the name of
the case, and its parts with every text quoted. -/

namespace Predictive.Inspection

open Text (quoted)

def tagged (name part : String) : String := name ++ "(" ++ part ++ ")"

def fields (name : String) (parts : List (String × String)) : String :=
  name ++ " \x7b " ++ ", ".intercalate (parts.map fun (k, v) => k ++ ": " ++ v) ++ " \x7d"

def terminal (t : Terminal) : String := tagged "Terminal" (quoted t.text)

def nonterminal (n : NonTerminal) : String := tagged "NonTerminal" (quoted n.text)

def symbol : Symbol → String
  | .terminal t => tagged "Terminal" (terminal t)
  | .nonterminal n => tagged "NonTerminal" (nonterminal n)
  | .endMarker => "EndMarker"
  | .epsilon => "Epsilon"

def lookahead : Lookahead → String
  | .terminal t => tagged "Terminal" (terminal t)
  | .endMarker => "End"

def stack (s : Stack) : String := "[" ++ ", ".intercalate (s.toList.map symbol) ++ "]"

def grammarError : GrammarError → String
  | .emptySymbol => "EmptySymbol"
  | .notATerminal text => tagged "NotATerminal" (quoted text)
  | .notANonterminal text => tagged "NotANonTerminal" (quoted text)
  | .reservedSymbol text => tagged "ReservedSymbol" (quoted text)
  | .mixedEpsilon left => fields "MixedEpsilon" [("left", nonterminal left)]
  | .endMarkerInProduction left =>
    fields "EndMarkerInProduction" [("left", nonterminal left)]

def hole : Hole → String
  | .absent => "Absent"
  | .marked => "Error"

def rejection : Rejection → String
  | .mismatch position expected found =>
    fields "Mismatch" [("position", toString position), ("expected", symbol expected),
      ("found", lookahead found)]
  | .missingRow n => fields "MissingRow" [("nonterminal", nonterminal n)]
  | .noEntry position n l h =>
    fields "NoEntry" [("position", toString position), ("nonterminal", nonterminal n),
      ("lookahead", lookahead l), ("cell", hole h)]
  | .stepLimit limit => fields "StepLimitExceeded" [("limit", toString limit)]

def treeError : TreeError → String
  | .emptyTrace => "EmptyTrace"
  | .missingStart height => fields "MissingStartSymbol" [("stack_len", toString height)]
  | .stepGap index expected found =>
    fields "NonConsecutiveStep" [("index", toString index), ("expected", toString expected),
      ("found", toString found)]
  | .underflow step => fields "NodeStackUnderflow" [("step", toString step)]
  | .expansionMismatch step expected found =>
    fields "ExpansionMismatch" [("step", toString step), ("expected", nonterminal expected),
      ("found", symbol found)]
  | .matchMismatch step consumed found =>
    fields "MatchMismatch" [("step", toString step), ("consumed", lookahead consumed),
      ("found", symbol found)]
  | .noToken step => fields "NoConsumedToken" [("step", toString step)]
  | .unfinished pending => fields "UnfinishedNodes" [("pending", toString pending)]

def parseError : ParseError → String
  | .rejected r => tagged "Drive" (rejection r)
  | .untreed e => tagged "Tree" (treeError e)

end Predictive.Inspection
