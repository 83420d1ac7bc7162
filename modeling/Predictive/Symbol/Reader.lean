import Predictive.Symbol

/-! Reading terminals, nonterminals and lookaheads from text, and the reasons for refusing
one. Each reader tests for the empty text first. `Terminal.ofText_text` and its kin say
that a symbol's own text is read back as that symbol. -/

namespace Predictive

inductive GrammarError where
  | emptySymbol
  | notATerminal (text : String)
  | notANonterminal (text : String)
  | reservedSymbol (text : String)
  | mixedEpsilon (left : NonTerminal)
  | endMarkerInProduction (left : NonTerminal)
deriving DecidableEq

namespace GrammarError

def message : GrammarError → String
  | emptySymbol => "symbol text is empty"
  | notATerminal text => "`" ++ text ++ "` is not a terminal"
  | notANonterminal text => "`" ++ text ++ "` is not a nonterminal"
  | reservedSymbol text => "`" ++ text ++ "` is a reserved marker and cannot be used here"
  | mixedEpsilon left => "production for `" ++ left.text ++ "` mixes ε with other symbols"
  | endMarkerInProduction left =>
    "production for `" ++ left.text ++ "` contains the end marker `$`"

def code : GrammarError → String
  | emptySymbol => "lltrace::grammar::empty_symbol"
  | notATerminal _ => "lltrace::grammar::not_a_terminal"
  | notANonterminal _ => "lltrace::grammar::not_a_nonterminal"
  | reservedSymbol _ => "lltrace::grammar::reserved_symbol"
  | mixedEpsilon _ => "lltrace::grammar::mixed_epsilon"
  | endMarkerInProduction _ => "lltrace::grammar::end_marker"

def help : GrammarError → Option String
  | notATerminal _ => some "terminals must not start with an uppercase ASCII letter"
  | notANonterminal _ => some "nonterminals must start with an uppercase ASCII letter"
  | _ => none

end GrammarError

def Terminal.ofText (text : String) : Except GrammarError Terminal :=
  if text = "" then .error .emptySymbol
  else if hd : text = endMarkerText then .error (.reservedSymbol text)
  else if he : text = emptyMarkerText then .error (.reservedSymbol text)
  else if ht : isTerminalText text = true then .ok ⟨text, ht, hd, he⟩
  else .error (.notATerminal text)

def NonTerminal.ofText (text : String) : Except GrammarError NonTerminal :=
  if text = "" then .error .emptySymbol
  else if ht : isTerminalText text = true then .error (.notANonterminal text)
  else .ok ⟨text, named_nonterminal ht⟩

def Lookahead.ofText (text : String) : Except GrammarError Lookahead :=
  if text = endMarkerText then .ok .endMarker
  else (Terminal.ofText text).map .terminal

theorem Terminal.ofText_text (t : Terminal) : ofText t.text = .ok t := by
  have h : t.text ≠ "" := fun h => by
    have := t.named; rw [h] at this; revert this; decide
  simp [ofText, h, t.named, t.ne_end, t.ne_empty]

theorem NonTerminal.ofText_text (n : NonTerminal) (h : n.text ≠ "") :
    ofText n.text = .ok n := by
  simp [ofText, h, n.named]

theorem Lookahead.ofText_text (l : Lookahead) : ofText l.text = .ok l := by
  cases l with
  | terminal t => simp [ofText, text, t.ne_end, Terminal.ofText_text, Except.map]
  | endMarker => rfl

end Predictive
