import Predictive.Proofs.Arithmetic.Layers
import Predictive.Proofs.Grammar.Interpretation
import Predictive.Proofs.Tree.Licensed

/-! The arithmetic table accepts the expressions of the plain grammar that knows no precedence:
operands, any two expressions with an operator between them, and parentheses. Each layer of
the table's grammar derives expressions only, and the two rests derive what may be written
behind one. Conversely an expression is a factor followed by operators and factors, and a
product's rest on top of a sum's rest reads every such sequence. -/

namespace Predictive

namespace Arithmetic

open Predictive.Grammar (Reads Spells)

def expression : NonTerminal := layer "X"

def operators : List Terminal := sumOperators ++ productOperators

namespace Rule

def single (a : Terminal) : Production := ⟨expression, [.terminal a]⟩

def binary (operator : Terminal) : Production :=
  ⟨expression, [.nonterminal expression, .terminal operator, .nonterminal expression]⟩

def enclosed : Production :=
  ⟨expression, [.terminal opening, .nonterminal expression, .terminal closing]⟩

end Rule

/-- Ambiguous and left-recursive, unlike the grammar of the table. -/
def expressions : Grammar where
  rules := operands.map Rule.single ++ operators.map Rule.binary ++ [Rule.enclosed]
  proper := by decide

example : expressions.rules.map Production.toText =
    ["X → id", "X → num", "X → X + X", "X → X - X", "X → X * X", "X → X / X", "X → ( X )"] := by
  decide

section Layered

inductive Sequel : List Terminal → Prop
  | nil : Sequel []
  | cons {operator : Terminal} {word rest : List Terminal} (mem : operator ∈ operators)
      (factor : grammar.Reads [.nonterminal factor] word) (more : Sequel rest) :
      Sequel (operator :: (word ++ rest))

variable {word rest rest' : List Terminal}

theorem Sequel.append (h : Sequel rest) (h' : Sequel rest') : Sequel (rest ++ rest') := by
  induction h with
  | nil => exact h'
  | cons mem factor _ ih =>
    rw [List.cons_append, List.append_assoc]
    exact .cons mem factor ih

theorem reads_product (h : grammar.Reads [.nonterminal factor] word)
    (h' : grammar.Reads [.nonterminal productRest, .nonterminal sumRest] rest) :
    grammar.Reads [.nonterminal product, .nonterminal sumRest] (word ++ rest) := by
  have hrule : Rule.product ∈ grammar.rules := by decide
  exact .rule hrule (h.append h')

theorem Sequel.reads (h : Sequel rest) :
    grammar.Reads [.nonterminal productRest, .nonterminal sumRest] rest := by
  have hproduct : .empty productRest ∈ grammar.rules := by decide
  have hsum : .empty sumRest ∈ grammar.rules := by decide
  induction h with
  | nil => exact .rule hproduct (.rule hsum .nil)
  | @cons operator word rest mem hfactor _ ih =>
    rcases List.mem_append.mp mem with mem | mem
    · -- The product ends before a sum operator, and the next one begins.
      have hmore : ∀ o ∈ sumOperators, Rule.moreSum o ∈ grammar.rules := by decide
      have hnext := reads_product hfactor ih
      exact .rule hproduct (.rule (hmore operator mem) (.terminal operator hnext))
    · have hmore : ∀ o ∈ productOperators, Rule.moreProduct o ∈ grammar.rules := by decide
      exact .rule (hmore operator mem) (.terminal operator (hfactor.append ih))

theorem reads_start (h : grammar.Reads [.nonterminal factor] word) (h' : Sequel rest) :
    grammar.Reads [.nonterminal start] (word ++ rest) := by
  have hrule : Rule.sum ∈ grammar.rules := by decide
  exact .rule hrule (reads_product h h'.reads)

theorem reads_group (h : grammar.Reads [.nonterminal start] word) :
    grammar.Reads [.nonterminal factor] (opening :: (word ++ [closing])) := by
  have hrule : Rule.group ∈ grammar.rules := by decide
  exact .rule hrule (.terminal opening (h.append (.terminal closing .nil)))

def Sequence (_ : NonTerminal) (word : List Terminal) : Prop :=
  ∃ first rest, word = first ++ rest ∧ grammar.Reads [.nonterminal factor] first ∧ Sequel rest

theorem sequence_closed :
    ∀ p ∈ expressions.rules, ∀ word, Spells Sequence p.expansion word → Sequence p.left word := by
  simp only [expressions, List.forall_mem_append, List.forall_mem_map,
    List.forall_mem_singleton, and_assoc]
  refine ⟨?single, ?binary, ?enclosed⟩
  case single =>
    intro a ha word h
    obtain ⟨_, rfl, rfl⟩ := h
    have hrule : ∀ b ∈ operands, Rule.operand b ∈ grammar.rules := by decide
    exact ⟨[a], [], rfl, .rule (hrule a ha) (.terminal a .nil), .nil⟩
  case binary =>
    intro operator ho word h
    obtain ⟨_, _, rfl, hx, _, rfl, _, _, rfl, hy, rfl⟩ := h
    obtain ⟨first, rest, rfl, hfirst, hrest⟩ := hx
    obtain ⟨first', rest', rfl, hfirst', hrest'⟩ := hy
    refine ⟨first, rest ++ operator :: (first' ++ rest'), by simp, hfirst, ?_⟩
    exact hrest.append (.cons ho hfirst' hrest')
  case enclosed =>
    intro word h
    obtain ⟨_, rfl, _, _, rfl, ⟨first, rest, rfl, hfirst, hrest⟩, _, rfl, rfl⟩ := h
    exact ⟨_, [], (List.append_nil _).symm, reads_group (reads_start hfirst hrest), .nil⟩

theorem reads_of_isExpression (h : expressions.Reads [.nonterminal expression] word) :
    grammar.Reads [.nonterminal start] word := by
  obtain ⟨first, rest, rfl, hfirst, hrest⟩ := h.mem_closed sequence_closed
  exact reads_start hfirst hrest

end Layered

section Ambiguous

abbrev IsExpression (word : List Terminal) : Prop :=
  expressions.Reads [.nonterminal expression] word

def Continues (word : List Terminal) : Prop := ∀ x, IsExpression x → IsExpression (x ++ word)

variable {word x y : List Terminal} {n : NonTerminal}

theorem isExpression_operand {a : Terminal} (h : a ∈ operands) : IsExpression [a] := by
  have hrule : ∀ b ∈ operands, Rule.single b ∈ expressions.rules := by decide
  exact .rule (hrule a h) (.terminal a .nil)

theorem IsExpression.binary {operator : Terminal} (hx : IsExpression x)
    (ho : operator ∈ operators) (hy : IsExpression y) : IsExpression (x ++ operator :: y) := by
  have hrule : ∀ o ∈ operators, Rule.binary o ∈ expressions.rules := by decide
  exact .rule (hrule operator ho) (hx.append (.terminal operator hy))

theorem IsExpression.enclosed (hx : IsExpression x) :
    IsExpression (opening :: (x ++ [closing])) := by
  have hrule : Rule.enclosed ∈ expressions.rules := by decide
  exact .rule hrule (.terminal opening (hx.append (.terminal closing .nil)))

theorem continues_nil : Continues [] := by
  intro x hx
  rwa [List.append_nil]

theorem Continues.cons {operator : Terminal} (ho : operator ∈ operators) (hy : IsExpression y)
    (h : Continues word) : Continues (operator :: (y ++ word)) := by
  intro x hx
  have hboth := h (x ++ operator :: y) (hx.binary ho hy)
  rwa [List.append_assoc, List.cons_append] at hboth

def rests : List NonTerminal := [sumRest, productRest]

def Layer (n : NonTerminal) (word : List Terminal) : Prop :=
  if n ∈ rests then Continues word else IsExpression word

theorem layer_rest (h : n ∈ rests) : Layer n word ↔ Continues word := by
  rw [Layer, if_pos h]

theorem layer_whole (h : n ∉ rests) : Layer n word ↔ IsExpression word := by
  rw [Layer, if_neg h]

theorem layer_of_spells_whole {upper lower rest : NonTerminal} (hu : upper ∉ rests)
    (hl : lower ∉ rests) (hr : rest ∈ rests)
    (h : Spells Layer [.nonterminal lower, .nonterminal rest] word) : Layer upper word := by
  obtain ⟨first, _, rfl, hfirst, last, _, rfl, hlast, rfl⟩ := h
  rw [List.append_nil]
  exact (layer_whole hu).mpr ((layer_rest hr).mp hlast first ((layer_whole hl).mp hfirst))

theorem layer_of_spells_more {lower rest : NonTerminal} {operator : Terminal}
    (ho : operator ∈ operators) (hl : lower ∉ rests) (hr : rest ∈ rests)
    (h : Spells Layer [.terminal operator, .nonterminal lower, .nonterminal rest] word) :
    Layer rest word := by
  obtain ⟨_, rfl, first, _, rfl, hfirst, last, _, rfl, hlast, rfl⟩ := h
  rw [List.append_nil]
  exact (layer_rest hr).mpr
    (.cons ho ((layer_whole hl).mp hfirst) ((layer_rest hr).mp hlast))

theorem layer_closed :
    ∀ p ∈ grammar.rules, ∀ word, Spells Layer p.expansion word → Layer p.left word := by
  simp only [grammar, List.forall_mem_append, List.forall_mem_map, List.forall_mem_singleton,
    and_assoc]
  refine ⟨?sum, ?moreSum, ?sumEnds, ?product, ?moreProduct, ?productEnds, ?group, ?operand⟩
  case sum | product =>
    exact fun word => layer_of_spells_whole (by decide) (by decide) (by decide)
  case moreSum =>
    intro operator ho word
    exact layer_of_spells_more (List.mem_append_left _ ho) (by decide) (by decide)
  case moreProduct =>
    intro operator ho word
    exact layer_of_spells_more (List.mem_append_right _ ho) (by decide) (by decide)
  case sumEnds | productEnds =>
    intro word h
    cases show word = [] from h
    exact (layer_rest (by decide)).mpr continues_nil
  case group =>
    intro word h
    obtain ⟨_, rfl, inner, _, rfl, hinner, _, rfl, rfl⟩ := h
    have hexpression := (layer_whole (by decide)).mp hinner
    exact (layer_whole (by decide)).mpr hexpression.enclosed
  case operand =>
    intro a ha word h
    obtain ⟨_, rfl, rfl⟩ := h
    have hfactor : factor ∉ rests := by decide
    exact (layer_whole hfactor).mpr (isExpression_operand ha)

theorem isExpression_of_reads (h : grammar.Reads [.nonterminal start] word) :
    IsExpression word :=
  (layer_whole (by decide)).mp (h.mem_closed layer_closed)

end Ambiguous

/-- Parsing with the arithmetic table succeeds on the expressions and on nothing else, whatever
the tokens are. -/
theorem parse_ok_iff_expression (tokens : List Terminal) :
    (∃ d, table.parse start tokens none = some (.ok d)) ↔
      expressions.Derives [.nonterminal expression] (tokens.map .terminal) := by
  rw [← Grammar.reads_iff_derives]
  constructor
  · intro ⟨d, hd⟩
    have hdrive := (Table.parse_eq_ok_iff.mp hd).1
    have hreads := Table.reads_of_accepts table_completeFor (Table.accepts_of_drive hdrive)
      (Configuration.initial_at start tokens) (by simp)
    exact isExpression_of_reads hreads
  · intro h
    have hreads := reads_of_isExpression h
    obtain ⟨cs, hcs⟩ := table_completeFor.recognizes_of_derives hreads.derives
    obtain ⟨tree, htree, -⟩ :=
      Tree.ofTrace_ok_of_placed table_proper.placed (Table.accepts_of_drive hcs)
    exact ⟨⟨cs, tree⟩, Table.parse_eq_ok_iff.mpr ⟨hcs, htree⟩⟩

end Arithmetic

end Predictive
