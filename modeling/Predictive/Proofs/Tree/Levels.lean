import Predictive.Tree

/-! The depth of a tree. The traversal that measures it keeps a list of trees still to visit,
each with its own level; the height is the same number by recursion on the tree. Each tree on
the list reaches down from its level by its height, and a visit keeps the lowest level that
the whole list reaches. -/

namespace Predictive.Tree

mutual

def height : Tree → Nat
  | node _ cs _ => heights cs + 1

def heights : List Tree → Nat
  | [] => 0
  | t :: ts => max (height t) (heights ts)

end

theorem height_pos (t : Tree) : 0 < t.height := by
  cases t
  exact Nat.succ_pos _

theorem heights_pos {ts : List Tree} (h : ts ≠ []) : 0 < heights ts := by
  cases ts with
  | nil => exact absurd rfl h
  | cons t ts => exact Nat.lt_of_lt_of_le t.height_pos (Nat.le_max_left _ _)

theorem heights_append (ts us : List Tree) :
    heights (ts ++ us) = max (heights ts) (heights us) := by
  induction ts with
  | nil => simp [heights]
  | cons t ts ih => rw [List.cons_append, heights, heights, ih, Nat.max_assoc]

theorem heights_reverse (ts : List Tree) : heights ts.reverse = heights ts := by
  induction ts with
  | nil => rfl
  | cons t ts ih =>
    rw [List.reverse_cons, heights_append, ih, heights, heights, heights, Nat.max_zero,
      Nat.max_comm]

def lowest : List (Tree × Nat) → Nat
  | [] => 0
  | (t, level) :: rest => max (level + t.height - 1) (lowest rest)

theorem lowest_append (xs ys : List (Tree × Nat)) :
    lowest (xs ++ ys) = max (lowest xs) (lowest ys) := by
  induction xs with
  | nil => simp [lowest]
  | cons x xs ih => rw [List.cons_append, lowest, lowest, ih, Nat.max_assoc]

theorem lowest_atLevel (level : Nat) (ts : List Tree) :
    max level (lowest (atLevel (level + 1) ts)) = level + heights ts := by
  induction ts with
  | nil => simp [atLevel, lowest, heights]
  | cons t ts ih =>
    rw [atLevel, List.map_cons, lowest, heights, ← atLevel]
    have ht := height_pos t
    omega

/-- A visit puts the children in the place of their parent, whose level it has noted. -/
theorem deepest_eq (found : Nat) (pending : List (Tree × Nat)) :
    deepest found pending = max found (lowest pending) := by
  fun_induction deepest found pending with
  | case1 found => simp [lowest]
  | case2 found s cs v level rest ih =>
    have hchildren := lowest_atLevel level cs.reverse
    rw [heights_reverse] at hchildren
    simp only [List.unattach_reverse, List.unattach_attach] at ih
    rw [ih, lowest_append, lowest, height]
    omega

theorem depth_eq_height (t : Tree) : t.depth = t.height := by
  rw [depth, deepest_eq, lowest, lowest]
  omega

end Predictive.Tree
