import Mathlib.Algebra.GroupWithZero.Nat
import Predictive.Proofs.Tree.Levels
import Predictive.Proofs.Tree.Preorder

/-! The traversals by recursion on the tree. Each of them keeps a list of trees still to visit;
what it finds on the whole list is put together from what it finds on each tree of the list, in
their order. So what it finds at a node is known from what it finds at the children, and the
lists are gone from the equations. -/

namespace Predictive

theorem Symbol.isTerminal_eq (s : Symbol) : s.isTerminal = !s.isNonterminal := by
  cases s <;> rfl

namespace Tree

theorem visit_eq_flatMap (ts : List Tree) : visit ts = ts.flatMap preorder := by
  induction ts with
  | nil => rw [visit, List.flatMap_nil]
  | cons t ts ih => rw [visit_cons, ih, List.flatMap_cons]

theorem length_visit (ts : List Tree) : (visit ts).length = (ts.map nodeCount).sum := by
  rw [visit_eq_flatMap, List.length_flatMap]
  rfl

theorem heights_eq_max (ts : List Tree) : heights ts = (ts.map depth).max?.getD 0 := by
  induction ts with
  | nil => rfl
  | cons t ts ih =>
    rw [heights, ih, ← depth_eq_height, List.map_cons, List.max?_cons]
    cases (ts.map depth).max? with
    | none => exact Nat.max_zero _
    | some deepest => rfl

def metValues (nodes : List Tree) : List String :=
  (nodes.filter fun n => n.isLeaf && n.symbol.isTerminal).filterMap value

theorem metValues_cons (n : Tree) (nodes : List Tree) :
    metValues (n :: nodes) =
      (if n.isLeaf && n.symbol.isTerminal then n.value.toList else []) ++ metValues nodes := by
  rw [metValues, List.filter_cons]
  split
  · rw [List.filterMap_cons]
    cases n.value <;> rfl
  · rfl

theorem metValues_visit (ts : List Tree) : metValues (visit ts) = ts.flatMap leafValues := by
  rw [visit_eq_flatMap, metValues, List.filter_flatMap, List.filterMap_flatMap]
  rfl

theorem nodeCount_node (s : Symbol) (cs : List Tree) (v : Option String) :
    (node s cs v).nodeCount = 1 + (cs.map nodeCount).sum := by
  rw [nodeCount, preorder_node, List.length_cons, length_visit, Nat.add_comm]

theorem depth_node (s : Symbol) (cs : List Tree) (v : Option String) :
    (node s cs v).depth = 1 + (cs.map depth).max?.getD 0 := by
  rw [depth_eq_height, height, heights_eq_max, Nat.add_comm]

theorem leafValues_node (s : Symbol) (cs : List Tree) (v : Option String) :
    (node s cs v).leafValues =
      (if cs.isEmpty && s.isTerminal then v.toList else []) ++ cs.flatMap leafValues := by
  rw [← metValues_visit]
  change metValues (node s cs v).preorder = _
  rw [preorder_node, metValues_cons]
  rfl

/-- Every traversal of a node is told by the same traversal of its children. -/
theorem traversals_recursive (s : Symbol) (cs : List Tree) (v : Option String) :
    (node s cs v).preorder = node s cs v :: cs.flatMap preorder ∧
    (node s cs v).nodeCount = 1 + (cs.map nodeCount).sum ∧
    (node s cs v).depth = 1 + (cs.map depth).max?.getD 0 ∧
    (node s cs v).leafValues =
      if cs.isEmpty then (if s.isNonterminal then [] else v.toList)
      else cs.flatMap leafValues := by
  refine ⟨?_, nodeCount_node s cs v, depth_node s cs v, ?_⟩
  · rw [preorder_node, visit_eq_flatMap]
  · rw [leafValues_node, Symbol.isTerminal_eq]
    cases cs with
    | nil => cases s.isNonterminal <;> simp
    | cons c cs => rfl

end Tree

end Predictive
