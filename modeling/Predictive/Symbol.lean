/-! Grammar symbols and the naming convention that sorts them. A text is a nonterminal
when it is empty or starts with an ASCII capital, and a terminal otherwise; the end
marker and the empty marker are set apart. `Symbol.ofText` classifies every text and
`Symbol.text_ofText` says that it keeps it. Each kind of symbol is ordered by its text,
with the end marker after all terminals. -/

namespace Predictive

def endMarkerText : String := "$"

def emptyMarkerText : String := "ε"

/-- Holds for every text that starts with something other than an ASCII capital. -/
def isTerminalText (text : String) : Bool :=
  match text.toList with
  | [] => false
  | c :: _ => !c.isUpper

theorem named_nonterminal {text : String} (h : ¬ isTerminalText text = true) :
    isTerminalText text = false :=
  Bool.eq_false_iff.mpr h

structure Terminal where
  text : String
  named : isTerminalText text = true
  ne_end : text ≠ endMarkerText
  ne_empty : text ≠ emptyMarkerText
deriving DecidableEq

/-- A nonterminal may have the empty text: classification makes it so, although no reader
of nonterminals accepts it. -/
structure NonTerminal where
  text : String
  named : isTerminalText text = false
deriving DecidableEq

inductive Symbol where
  | terminal (t : Terminal)
  | nonterminal (n : NonTerminal)
  | endMarker
  | epsilon
deriving DecidableEq

inductive Lookahead where
  | terminal (t : Terminal)
  | endMarker
deriving DecidableEq

theorem Terminal.ext {a b : Terminal} (h : a.text = b.text) : a = b := by
  cases a; cases b; cases h; rfl

theorem NonTerminal.ext {a b : NonTerminal} (h : a.text = b.text) : a = b := by
  cases a; cases b; cases h; rfl

namespace Symbol

def ofText (text : String) : Symbol :=
  if hd : text = endMarkerText then .endMarker
  else if he : text = emptyMarkerText then .epsilon
  else if ht : isTerminalText text = true then .terminal ⟨text, ht, hd, he⟩
  else .nonterminal ⟨text, named_nonterminal ht⟩

def text : Symbol → String
  | .terminal t => t.text
  | .nonterminal n => n.text
  | .endMarker => endMarkerText
  | .epsilon => emptyMarkerText

theorem text_ofText (text : String) : (ofText text).text = text := by
  unfold ofText
  split
  · next h => exact h.symm
  · split
    · next h => exact h.symm
    · split <;> rfl

theorem ofText_text (s : Symbol) : ofText s.text = s := by
  cases s with
  | terminal t => simp [ofText, text, t.named, t.ne_end, t.ne_empty]
  | nonterminal n =>
    have hd : n.text ≠ endMarkerText := fun h => by
      have := n.named; rw [h] at this; revert this; decide
    have he : n.text ≠ emptyMarkerText := fun h => by
      have := n.named; rw [h] at this; revert this; decide
    simp [ofText, text, n.named, hd, he]
  | endMarker => decide
  | epsilon => decide

theorem text_injective {a b : Symbol} (h : a.text = b.text) : a = b := by
  rw [← ofText_text a, h, ofText_text b]

/-- The markers count as terminals: their texts start with no capital. -/
def isTerminal : Symbol → Bool
  | .nonterminal _ => false
  | _ => true

def isNonterminal : Symbol → Bool
  | .nonterminal _ => true
  | _ => false

def isEndMarker : Symbol → Bool
  | .endMarker => true
  | _ => false

def isEpsilon : Symbol → Bool
  | .epsilon => true
  | _ => false

def nonterminal? : Symbol → Option NonTerminal
  | .nonterminal n => some n
  | _ => none

def lookahead? : Symbol → Option Lookahead
  | .terminal t => some (.terminal t)
  | .endMarker => some .endMarker
  | .nonterminal _ => none
  | .epsilon => none

def accepts : Symbol → Lookahead → Bool
  | .terminal t, .terminal u => t = u
  | .endMarker, .endMarker => true
  | _, _ => false

end Symbol

namespace Lookahead

def isEndMarker : Lookahead → Bool
  | .terminal _ => false
  | .endMarker => true

def terminal? : Lookahead → Option Terminal
  | .terminal t => some t
  | .endMarker => none

def toSymbol : Lookahead → Symbol
  | .terminal t => .terminal t
  | .endMarker => .endMarker

def text : Lookahead → String
  | .terminal t => t.text
  | .endMarker => endMarkerText

theorem text_toSymbol (l : Lookahead) : l.toSymbol.text = l.text := by
  cases l <;> rfl

theorem text_injective {a b : Lookahead} (h : a.text = b.text) : a = b := by
  cases a with
  | terminal t =>
    cases b with
    | terminal u => rw [Terminal.ext h]
    | endMarker => exact absurd h t.ne_end
  | endMarker =>
    cases b with
    | terminal u => exact absurd h.symm u.ne_end
    | endMarker => rfl

end Lookahead

theorem Symbol.lookahead?_eq_some {s : Symbol} {l : Lookahead} :
    s.lookahead? = some l ↔ s = l.toSymbol := by
  cases s <;> cases l <;> simp [Symbol.lookahead?, Lookahead.toSymbol]

theorem Symbol.accepts_eq_true {s : Symbol} {l : Lookahead} :
    s.accepts l = true ↔ s = l.toSymbol := by
  cases s <;> cases l <;> simp [Symbol.accepts, Lookahead.toSymbol]

instance : Ord Terminal where
  compare := compareOn Terminal.text

instance : Ord NonTerminal where
  compare := compareOn NonTerminal.text

instance : Ord Lookahead where
  compare := compareLex (compareOn Lookahead.isEndMarker) (compareOn Lookahead.text)

def Symbol.rank : Symbol → Nat
  | .terminal _ => 0
  | .nonterminal _ => 1
  | .endMarker => 2
  | .epsilon => 3

instance : Ord Symbol where
  compare := compareLex (compareOn Symbol.rank) (compareOn Symbol.text)

instance : Std.TransOrd Terminal :=
  inferInstanceAs (Std.TransCmp (compareOn Terminal.text))

instance : Std.TransOrd NonTerminal :=
  inferInstanceAs (Std.TransCmp (compareOn NonTerminal.text))

instance : Std.TransOrd Lookahead :=
  inferInstanceAs
    (Std.TransCmp (compareLex (compareOn Lookahead.isEndMarker) (compareOn Lookahead.text)))

instance : Std.TransOrd Symbol :=
  inferInstanceAs (Std.TransCmp (compareLex (compareOn Symbol.rank) (compareOn Symbol.text)))

instance : Std.LawfulEqOrd Terminal where
  compare_self := Std.ReflOrd.compare_self
  eq_of_compare h := Terminal.ext (Std.LawfulEqOrd.eq_of_compare h)

instance : Std.LawfulEqOrd NonTerminal where
  compare_self := Std.ReflOrd.compare_self
  eq_of_compare h := NonTerminal.ext (Std.LawfulEqOrd.eq_of_compare h)

instance : Std.LawfulEqOrd Lookahead where
  compare_self := Std.ReflOrd.compare_self
  eq_of_compare h := Lookahead.text_injective
    (Std.LawfulEqOrd.eq_of_compare (compareLex_eq_eq.mp h).2)

instance : Std.LawfulEqOrd Symbol where
  compare_self := Std.ReflOrd.compare_self
  eq_of_compare h := Symbol.text_injective
    (Std.LawfulEqOrd.eq_of_compare (compareLex_eq_eq.mp h).2)

end Predictive
