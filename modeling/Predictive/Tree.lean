import Predictive.Symbol

/-! Concrete parse trees. A node owns its children in order, and a leaf that met a token
carries the token's text as its value. A derivation of a long input is deep, so the
traversals keep the nodes still to visit in a list of their own, with the next one first. -/

namespace Predictive

inductive Tree where
  | node (symbol : Symbol) (children : List Tree) (value : Option String)

namespace Tree

def symbol : Tree → Symbol | node s _ _ => s

def children : Tree → List Tree | node _ cs _ => cs

def value : Tree → Option String | node _ _ v => v

def bare (s : Symbol) : Tree := node s [] none

def leaf (s : Symbol) (v : String) : Tree := node s [] (some v)

def branch (s : Symbol) (cs : List Tree) : Tree := node s cs none

def isLeaf (t : Tree) : Bool := t.children.isEmpty

mutual

def size : Tree → Nat
  | node _ cs _ => 1 + sizes cs

def sizes : List Tree → Nat
  | [] => 0
  | t :: ts => size t + sizes ts

end

theorem sizes_append (ts us : List Tree) : sizes (ts ++ us) = sizes ts + sizes us := by
  induction ts with
  | nil => simp [sizes]
  | cons t ts ih => simp [sizes, ih, Nat.add_assoc]

theorem sizes_reverse (ts : List Tree) : sizes ts.reverse = sizes ts := by
  induction ts with
  | nil => rfl
  | cons t ts ih => simp [sizes_append, sizes, ih, Nat.add_comm]

def visit : List Tree → List Tree
  | [] => []
  | node s cs v :: rest => node s cs v :: visit (cs ++ rest)
termination_by pending => sizes pending
decreasing_by simp [sizes_append, sizes, size]

def preorder (t : Tree) : List Tree := visit [t]

def nodeCount (t : Tree) : Nat := t.preorder.length

def leafValues (t : Tree) : List String :=
  (t.preorder.filter fun n => n.isLeaf && n.symbol.isTerminal).filterMap value

def atLevel (level : Nat) (ts : List Tree) : List (Tree × Nat) := ts.map (·, level)

theorem atLevel_fst (level : Nat) (ts : List Tree) :
    (atLevel level ts).map Prod.fst = ts := by
  simp [atLevel, Function.comp_def]

/-- The greatest level among those found so far and those of the pending trees, each of
which comes with its own level. The last child is visited first. -/
def deepest : Nat → List (Tree × Nat) → Nat
  | found, [] => found
  | found, (node _ cs _, level) :: rest =>
    deepest (max found level) (atLevel (level + 1) cs.reverse ++ rest)
termination_by _ pending => sizes (pending.map Prod.fst)
decreasing_by
  simp [atLevel_fst, sizes_append, sizes_reverse, sizes, size]

def depth (t : Tree) : Nat := deepest 0 [(t, 1)]

mutual

def decEq : (a b : Tree) → Decidable (a = b)
  | node s cs v, node s' cs' v' =>
    if h : s = s' ∧ v = v' then
      match decEqs cs cs' with
      | isTrue e => isTrue (by rw [h.1, h.2, e])
      | isFalse e => isFalse fun he => e (by injection he)
    else isFalse fun he => h (by injection he with hs _ hv; exact ⟨hs, hv⟩)

def decEqs : (as bs : List Tree) → Decidable (as = bs)
  | [], [] => isTrue rfl
  | [], _ :: _ => isFalse (by simp)
  | _ :: _, [] => isFalse (by simp)
  | a :: as, b :: bs =>
    match decEq a b with
    | isTrue e =>
      match decEqs as bs with
      | isTrue e' => isTrue (by rw [e, e'])
      | isFalse e' => isFalse fun h => e' (by injection h)
    | isFalse e => isFalse fun h => e (by injection h)

end

instance : DecidableEq Tree := decEq

end Tree

end Predictive
