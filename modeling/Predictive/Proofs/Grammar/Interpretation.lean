import Predictive.Proofs.Grammar.Derivability

/-! Languages closed under the rules of a grammar. Give each nonterminal a language; a form then
spells the words that its symbols make up in order. When each rule only spells words of its
left side's language, the words that the grammar derives belong to it: the derived
languages are the least closed ones. -/

namespace Predictive

namespace Grammar

def Spells (L : NonTerminal → List Terminal → Prop) : List Symbol → List Terminal → Prop
  | [], word => word = []
  | .terminal a :: rest, word => ∃ last, word = a :: last ∧ Spells L rest last
  | .nonterminal n :: rest, word =>
    ∃ first last, word = first ++ last ∧ L n first ∧ Spells L rest last
  | _ :: _, _ => False

variable {L : NonTerminal → List Terminal → Prop} {g : Grammar} {u v : List Symbol}
  {word : List Terminal}

theorem Spells.append_split (h : Spells L (u ++ v) word) :
    ∃ first last, word = first ++ last ∧ Spells L u first ∧ Spells L v last := by
  induction u generalizing word with
  | nil => exact ⟨[], word, rfl, rfl, h⟩
  | cons s u ih =>
    cases s with
    | terminal a =>
      obtain ⟨rest, rfl, hrest⟩ := h
      obtain ⟨first, last, rfl, hu, hv⟩ := ih hrest
      exact ⟨a :: first, last, rfl, ⟨first, rfl, hu⟩, hv⟩
    | nonterminal n =>
      obtain ⟨own, rest, rfl, hown, hrest⟩ := h
      obtain ⟨first, last, rfl, hu, hv⟩ := ih hrest
      exact ⟨own ++ first, last, by simp, ⟨own, first, rfl, hown, hu⟩, hv⟩
    | endMarker | epsilon => cases h

theorem Reads.spells (hL : ∀ p ∈ g.rules, ∀ word, Spells L p.expansion word → L p.left word)
    (h : g.Reads u word) : Spells L u word := by
  induction h with
  | nil => rfl
  | terminal a _ ih => exact ⟨_, rfl, ih⟩
  | @rule p hp below word _ ih =>
    obtain ⟨first, last, rfl, hfirst, hlast⟩ := ih.append_split
    exact ⟨first, last, rfl, hL p hp first hfirst, hlast⟩

theorem Reads.mem_closed {n : NonTerminal}
    (hL : ∀ p ∈ g.rules, ∀ word, Spells L p.expansion word → L p.left word)
    (h : g.Reads [.nonterminal n] word) : L n word := by
  obtain ⟨first, last, rfl, hfirst, hlast⟩ := h.spells hL
  rw [show last = [] from hlast, List.append_nil]
  exact hfirst

end Grammar

end Predictive
