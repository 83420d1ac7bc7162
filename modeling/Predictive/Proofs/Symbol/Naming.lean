import Predictive.Proofs.Table.Documents

/-! How the readers share the texts among themselves. Every text is taken in exactly one way: it
is empty, one of the two markers, a terminal or a nonterminal; and the symbol that it is
classified as is the one that this way says. The readers of lookaheads and the conversions to
them draw the line at the same place, so comparing a symbol with a lookahead comes to comparing
their texts. -/

namespace Predictive

inductive TextKind where
  | empty
  | endMarker
  | emptyMarker
  | terminal (t : Terminal)
  | nonterminal (n : NonTerminal)

namespace TextKind

def Describes (text : String) : TextKind → Prop
  | empty => text = ""
  | endMarker => text = endMarkerText
  | emptyMarker => text = emptyMarkerText
  | terminal t => Terminal.ofText text = .ok t
  | nonterminal n => NonTerminal.ofText text = .ok n

/-- Only as a symbol may a nonterminal have the empty text. -/
def symbol : TextKind → Symbol
  | empty => .nonterminal ⟨"", by decide⟩
  | endMarker => .endMarker
  | emptyMarker => .epsilon
  | terminal t => .terminal t
  | nonterminal n => .nonterminal n

def ofSymbol : Symbol → TextKind
  | .terminal t => terminal t
  | .nonterminal n => if n.text = "" then empty else nonterminal n
  | .endMarker => endMarker
  | .epsilon => emptyMarker

theorem symbol_ofSymbol (s : Symbol) : (ofSymbol s).symbol = s := by
  cases s with
  | nonterminal n =>
    rw [ofSymbol]
    split
    · next hn => exact congrArg Symbol.nonterminal (NonTerminal.ext hn.symm)
    · rfl
  | terminal | endMarker | epsilon => rfl

theorem describes_ofSymbol (s : Symbol) : (ofSymbol s).Describes s.text := by
  cases s with
  | terminal t => exact t.ofText_text
  | nonterminal n =>
    rw [ofSymbol]
    split
    · next hn => exact hn
    · next hn => exact n.ofText_text hn
  | endMarker | epsilon => rfl

theorem describes_iff {text : String} {k : TextKind} :
    k.Describes text ↔ k = ofSymbol (Symbol.ofText text) := by
  constructor
  · intro h
    cases k with
    | empty =>
      cases h
      rfl
    | endMarker =>
      cases h
      rfl
    | emptyMarker =>
      cases h
      rfl
    | terminal t =>
      have hsymbol : Symbol.ofText text = .terminal t := by
        rw [← Terminal.text_of_ofText h]
        exact Symbol.ofText_text (.terminal t)
      rw [hsymbol, ofSymbol]
    | nonterminal n =>
      have hsymbol : Symbol.ofText text = .nonterminal n := by
        rw [← NonTerminal.text_of_ofText h]
        exact Symbol.ofText_text (.nonterminal n)
      have hne : n.text ≠ "" := by
        intro hempty
        rw [← NonTerminal.text_of_ofText h, hempty] at h
        cases h
      rw [hsymbol, ofSymbol, if_neg hne]
  · rintro rfl
    have h := describes_ofSymbol (Symbol.ofText text)
    rwa [Symbol.text_ofText] at h

end TextKind

theorem Lookahead.ofText_eq_ok_iff {text : String} {l : Lookahead} :
    ofText text = .ok l ↔ Symbol.ofText text = l.toSymbol := by
  constructor
  · intro h
    rw [← text_of_ofText h, ← text_toSymbol, Symbol.ofText_text]
  · intro h
    rw [← Symbol.text_ofText text, h, text_toSymbol, ofText_text]

theorem Symbol.text_eq_text_iff {s : Symbol} {l : Lookahead} :
    s.text = l.text ↔ s = l.toSymbol := by
  rw [← Lookahead.text_toSymbol]
  exact ⟨text_injective, congrArg text⟩

theorem NonTerminal.ofText_text_iff (n : NonTerminal) : ofText n.text = .ok n ↔ n.text ≠ "" := by
  refine ⟨fun h hempty => ?_, n.ofText_text⟩
  rw [hempty] at h
  cases h

/-- The readers, the classification and the comparison with lookaheads all follow one naming
convention. -/
theorem Symbol.readers_agree (text : String) :
    (∃ k : TextKind, (∀ k' : TextKind, k'.Describes text ↔ k' = k) ∧ ofText text = k.symbol) ∧
    (ofText text).text = text ∧
    (∀ l, Lookahead.ofText text = .ok l ↔ (ofText text).lookahead? = some l) ∧
    (∀ t : Terminal, Terminal.ofText t.text = .ok t) ∧
    (∀ n : NonTerminal, NonTerminal.ofText n.text = .ok n ↔ n.text ≠ "") ∧
    (∀ l : Lookahead, Lookahead.ofText l.text = .ok l) ∧
    (∀ s : Symbol, ofText s.text = s) ∧
    ∀ (s : Symbol) (l : Lookahead), (s.accepts l = true ↔ s.lookahead? = some l) ∧
      (s.lookahead? = some l ↔ s.text = l.text) := by
  refine ⟨⟨.ofSymbol (ofText text), fun _ => TextKind.describes_iff, ?_⟩, text_ofText text, ?_,
    Terminal.ofText_text, NonTerminal.ofText_text_iff, Lookahead.ofText_text, ofText_text, ?_⟩
  · exact (TextKind.symbol_ofSymbol _).symm
  · intro l
    rw [Lookahead.ofText_eq_ok_iff, lookahead?_eq_some]
  · intro s l
    rw [accepts_eq_true, lookahead?_eq_some, text_eq_text_iff]
    exact ⟨Iff.rfl, Iff.rfl⟩

end Predictive
