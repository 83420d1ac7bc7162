import Predictive.Tree

/-! The nodes of a tree in pre-order. The traversal that lists them puts the children of a node in
front of what is still to visit; by recursion on the tree the node comes first and the lists of
its children follow one after the other. `Tree.leveled` notes for every node how far below the
root it stands. -/

namespace Predictive.Tree

theorem visit_append (ts us : List Tree) : visit (ts ++ us) = visit ts ++ visit us := by
  induction ts using visit.induct with
  | case1 => rw [visit, List.nil_append, List.nil_append]
  | case2 s cs v rest ih =>
    rw [List.cons_append, visit, visit, ← List.append_assoc, ih, List.cons_append]

theorem visit_cons (t : Tree) (ts : List Tree) : visit (t :: ts) = t.preorder ++ visit ts :=
  visit_append [t] ts

theorem preorder_node (s : Symbol) (cs : List Tree) (v : Option String) :
    (node s cs v).preorder = node s cs v :: visit cs := by
  rw [preorder, visit, List.append_nil]

theorem mem_visit_of_mem {t : Tree} {ts : List Tree} (h : t ∈ ts) : t ∈ visit ts := by
  obtain ⟨before, after, rfl⟩ := List.append_of_mem h
  obtain ⟨s, cs, v⟩ := t
  rw [visit_append, visit]
  exact List.mem_append_right _ List.mem_cons_self

theorem mem_visit_of_child {n c : Tree} {ts : List Tree} (hn : n ∈ visit ts)
    (hc : c ∈ n.children) : c ∈ visit ts := by
  induction ts using visit.induct with
  | case1 =>
    rw [visit] at hn
    cases hn
  | case2 s cs v rest ih =>
    rw [visit] at hn ⊢
    obtain rfl | hlater := List.mem_cons.mp hn
    · exact List.mem_cons_of_mem _ (mem_visit_of_mem (List.mem_append_left rest hc))
    · exact List.mem_cons_of_mem _ (ih hlater)

mutual

def leveled (level : Nat) : Tree → List (Tree × Nat)
  | node s cs v => (node s cs v, level) :: leveledAll (level + 1) cs

def leveledAll (level : Nat) : List Tree → List (Tree × Nat)
  | [] => []
  | t :: ts => leveled level t ++ leveledAll level ts

end

mutual

theorem leveled_fst (level : Nat) : (t : Tree) → (leveled level t).map Prod.fst = t.preorder
  | node s cs v => by
    rw [leveled, List.map_cons, leveledAll_fst (level + 1) cs, preorder_node]

theorem leveledAll_fst (level : Nat) :
    (ts : List Tree) → (leveledAll level ts).map Prod.fst = visit ts
  | [] => by rw [leveledAll, visit, List.map_nil]
  | t :: ts => by
    rw [leveledAll, List.map_append, leveled_fst level t, leveledAll_fst level ts, visit_cons]

end

theorem atLevel_snd (level : Nat) (ts : List Tree) :
    (atLevel level ts).map Prod.snd = List.replicate ts.length level := by
  simp [atLevel, Function.comp_def, List.map_const']

theorem flatMap_atLevel (level : Nat) (ts : List Tree) :
    (atLevel level ts).flatMap (fun p => leveled p.2 p.1) = leveledAll level ts := by
  induction ts with
  | nil => rfl
  | cons t ts ih =>
    rw [leveledAll, ← ih]
    rfl

end Predictive.Tree
