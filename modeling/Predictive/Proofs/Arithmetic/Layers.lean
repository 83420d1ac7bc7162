import Predictive.Proofs.Grammar.Analysis
import Predictive.Proofs.Grammar.ViablePrefix

/-! The layered grammar of arithmetic expressions and its table. Sums and products each have a
nonterminal for the rest of an operator sequence, which can vanish. The lists of
`Arithmetic.analysis` are closed under the rules and the table has every cell that they ask
for, so it is complete; and each layer derives a word, so its errors are placed exactly. -/

namespace Predictive

instance (p : Production) : Decidable p.Proper :=
  decidable_of_iff (p.right ≠ [] ∧ (∀ s ∈ p.right, s.text ≠ "") ∧ .endMarker ∉ p.right ∧
      (.epsilon ∈ p.right → p.right = [.epsilon]))
    ⟨fun ⟨hne, htext, hend, heps⟩ => ⟨hne, htext, hend, heps⟩,
      fun h => ⟨h.right_ne_nil, h.no_empty_text, h.no_end_marker, h.epsilon_alone⟩⟩

namespace Arithmetic

def token (text : String) (h : isTerminalText text = true ∧ text ≠ endMarkerText ∧
    text ≠ emptyMarkerText := by decide) : Terminal :=
  ⟨text, h.1, h.2.1, h.2.2⟩

def layer (text : String) (h : ¬ isTerminalText text = true := by decide) : NonTerminal :=
  ⟨text, named_nonterminal h⟩

def operands : List Terminal := [token "id", token "num"]

def sumOperators : List Terminal := [token "+", token "-"]

def productOperators : List Terminal := [token "*", token "/"]

def opening : Terminal := token "("

def closing : Terminal := token ")"

def sumRest : NonTerminal := layer "E'"

def product : NonTerminal := layer "T"

def productRest : NonTerminal := layer "T'"

def factor : NonTerminal := layer "F"

namespace Rule

def sum : Production := ⟨start, [.nonterminal product, .nonterminal sumRest]⟩

def moreSum (operator : Terminal) : Production :=
  ⟨sumRest, [.terminal operator, .nonterminal product, .nonterminal sumRest]⟩

def product : Production := ⟨Arithmetic.product, [.nonterminal factor, .nonterminal productRest]⟩

def moreProduct (operator : Terminal) : Production :=
  ⟨productRest, [.terminal operator, .nonterminal factor, .nonterminal productRest]⟩

def operand (a : Terminal) : Production := ⟨factor, [.terminal a]⟩

def group : Production := ⟨factor, [.terminal opening, .nonterminal start, .terminal closing]⟩

end Rule

def grammar : Grammar where
  rules := [Rule.sum] ++ sumOperators.map Rule.moreSum ++ [.empty sumRest] ++ [Rule.product] ++
    productOperators.map Rule.moreProduct ++ [.empty productRest] ++ [Rule.group] ++
    operands.map Rule.operand
  proper := by decide

example : grammar.rules.map Production.toText =
    ["E → T E'", "E' → + T E'", "E' → - T E'", "E' → ε", "T → F T'", "T' → * F T'",
      "T' → / F T'", "T' → ε", "F → ( E )", "F → id", "F → num"] := by decide

def analysis : Analysis where
  vanishing := [sumRest, productRest]
  first n :=
    if n = sumRest then sumOperators.map .terminal
    else if n = productRest then productOperators.map .terminal
    else .terminal opening :: operands.map .terminal
  follow n :=
    let afterSum := [.terminal closing, .endMarker]
    let afterProduct := sumOperators.map .terminal ++ afterSum
    if n = start ∨ n = sumRest then afterSum
    else if n = product ∨ n = productRest then afterProduct
    else productOperators.map .terminal ++ afterProduct

theorem analysis_covers : analysis.Covers grammar start where
  vanishing := by decide
  first := by decide
  follow := by decide
  start := by decide

theorem table_completeFor : table.CompleteFor grammar start :=
  analysis_covers.completeFor (by decide) (by decide) (by decide)

theorem grammar_allProductive : grammar.AllProductive start := by
  let ps : List Production := [Rule.sum, .empty sumRest, Rule.product, .empty productRest,
    Rule.operand (token "id")]
  have hrules : ∀ p ∈ ps, p ∈ grammar.rules := by decide
  exact Grammar.allProductive_of_grounded hrules (by decide) (by decide) (by decide)

/-- The table rejects an input by a mismatch or an empty cell, at the place up to which it can
be continued to an accepted one. -/
theorem rejection_at_boundary {tokens : List Terminal} {e : Rejection}
    (h : table.drive start tokens none = some (.error e)) :
    ∃ p l, ((∃ s, e = .mismatch p s l) ∨ ∃ n hole, e = .noEntry p n l hole) ∧
      p ≤ tokens.length ∧
      (∃ word, tokens.take p <+: word ∧ table.Recognizes start word) ∧
      (p < tokens.length ∧
          (∀ word, tokens.take (p + 1) <+: word → ¬ table.Recognizes start word) ∨
        p = tokens.length ∧ l = .endMarker ∧ ¬ table.Recognizes start tokens) :=
  table_completeFor.error_at_boundary grammar_allProductive h

/-- The two rests vanish under the stray parenthesis before the end marker meets it. -/
theorem rejection_of_stray_closing :
    table.drive start [token "id", closing] none =
      some (.error (.mismatch 1 .endMarker (.terminal closing))) ∧
    (∃ word, [token "id"] <+: word ∧ table.Recognizes start word) ∧
    ∀ word, [token "id", closing] <+: word → ¬ table.Recognizes start word := by
  have h : table.drive start [token "id", closing] none =
      some (.error (.mismatch 1 .endMarker (.terminal closing))) := by rfl
  obtain ⟨p, l, he, -, hviable, hend⟩ := rejection_at_boundary h
  have hp : p = 1 := by
    obtain ⟨s, he⟩ | ⟨n, hole, he⟩ := he
    · cases he
      rfl
    · cases he
  subst hp
  obtain ⟨-, hnone⟩ | ⟨hlen, -⟩ := hend
  · exact ⟨h, hviable, hnone⟩
  · cases hlen

end Arithmetic

end Predictive
