import Predictive.Symbol.Reader

/-! Productions of a grammar. `Production.ofSymbols` is the checked way to make one: it
refuses empty symbol texts, the end marker and a mixed empty marker, in that order, and
writes an empty right side as the empty marker alone. A production read from a saved
record is taken as it stands, so `Production` itself holds no such promise and
`Production.Proper` states it. -/

namespace Predictive

structure Production where
  left : NonTerminal
  right : List Symbol
deriving DecidableEq

namespace Production

def empty (left : NonTerminal) : Production := ⟨left, [.epsilon]⟩

def ofSymbols (left : NonTerminal) (right : List Symbol) : Except GrammarError Production :=
  if right.any (·.text == "") then .error .emptySymbol
  else if right.any Symbol.isEndMarker then .error (.endMarkerInProduction left)
  else if 1 < right.length && right.any Symbol.isEpsilon then .error (.mixedEpsilon left)
  else if right.isEmpty then .ok (empty left)
  else .ok ⟨left, right⟩

/-- Every text is classified first; the checks then see symbols only. -/
def ofTexts (left : NonTerminal) (right : List String) : Except GrammarError Production :=
  ofSymbols left (right.map Symbol.ofText)

def isEmpty (p : Production) : Bool :=
  match p.right with
  | [.epsilon] => true
  | _ => false

/-- The symbols that go onto the stack, the first one uppermost, and that become the
children of a tree node. -/
def expansion (p : Production) : List Symbol :=
  if p.isEmpty then [] else p.right

def toText (p : Production) : String :=
  " ".intercalate (p.left.text :: "→" :: p.right.map Symbol.text)

theorem expansion_empty (left : NonTerminal) : (empty left).expansion = [] := rfl

theorem isEmpty_eq_true {p : Production} : p.isEmpty = true ↔ p.right = [.epsilon] := by
  unfold isEmpty
  split
  · next h => simp [h]
  · next h => simpa using h

structure Proper (p : Production) : Prop where
  right_ne_nil : p.right ≠ []
  no_empty_text : ∀ s ∈ p.right, s.text ≠ ""
  no_end_marker : Symbol.endMarker ∉ p.right
  epsilon_alone : Symbol.epsilon ∈ p.right → p.right = [.epsilon]

end Production

end Predictive
