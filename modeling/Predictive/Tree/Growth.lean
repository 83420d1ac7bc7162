import Predictive.Configuration
import Predictive.Tree

/-! Growing a parse tree from a trace. The nodes under construction live in one array and
name their children by place; a list of places says which node is to be finished next. An
expansion gives the next node its children and puts them in its stead, the first one first,
and a match closes the next node with the token that was read. When no node is left the
array is assembled from its end, where every child stands before its parent is reached. -/

namespace Predictive

inductive TreeError where
  | emptyTrace
  | missingStart (height : Nat)
  | stepGap (index expected found : Nat)
  | underflow (step : Nat)
  | expansionMismatch (step : Nat) (expected : NonTerminal) (found : Symbol)
  | matchMismatch (step : Nat) (consumed : Lookahead) (found : Symbol)
  | noToken (step : Nat)
  | unfinished (pending : Nat)
deriving DecidableEq

namespace TreeError

def message : TreeError → String
  | emptyTrace => "trace is empty"
  | missingStart height =>
    "initial configuration holds " ++ toString height ++
      " stack symbols, expected `$` and a start symbol"
  | stepGap index expected found =>
    "configuration " ++ toString index ++ " has step " ++ toString found ++ ", expected " ++
      toString expected
  | underflow step => "step " ++ toString step ++ " needs a pending node but none is left"
  | expansionMismatch step expected found =>
    "step " ++ toString step ++ " expands `" ++ expected.text ++
      "` but the pending node is `" ++ found.text ++ "`"
  | matchMismatch step consumed found =>
    "step " ++ toString step ++ " matches `" ++ consumed.text ++
      "` but the pending node is `" ++ found.text ++ "`"
  | noToken step =>
    "step " ++ toString step ++
      " matches a terminal but the previous configuration has no input left"
  | unfinished pending => "trace ended with " ++ toString pending ++ " unfinished nodes"

def code : TreeError → String
  | emptyTrace => "lltrace::tree::empty_trace"
  | missingStart _ => "lltrace::tree::missing_start"
  | stepGap .. => "lltrace::tree::step_gap"
  | underflow _ => "lltrace::tree::underflow"
  | expansionMismatch .. => "lltrace::tree::expansion_mismatch"
  | matchMismatch .. => "lltrace::tree::match_mismatch"
  | noToken _ => "lltrace::tree::no_token"
  | unfinished _ => "lltrace::tree::unfinished"

end TreeError

structure Bud where
  symbol : Symbol
  children : List Nat
  value : Option String

namespace Bud

def fresh (s : Symbol) : Bud := ⟨s, [], none⟩

def bear (children : List Nat) (b : Bud) : Bud := { b with children := children }

def close (value : String) (b : Bud) : Bud := { b with value := some value }

end Bud

structure Growth where
  nodes : Array Bud
  /-- The places of the nodes still to be finished, the next one first. -/
  pending : List Nat
  pending_lt : ∀ i ∈ pending, i < nodes.size

namespace Growth

def ofRoot (s : Symbol) : Growth := ⟨#[.fresh s], [0], by simp⟩

def expand (nodes : Array Bud) (front : Nat) (rest : List Nat)
    (h : ∀ i ∈ rest, i < nodes.size) (symbols : List Symbol) : Growth :=
  let children := List.range' nodes.size symbols.length
  ⟨nodes.modify front (Bud.bear children) ++ (symbols.map Bud.fresh).toArray,
    children ++ rest, by
      intro i hi
      simp only [Array.size_append, Array.size_modify, List.size_toArray, List.length_map]
      rcases List.mem_append.mp hi with hi | hi
      · exact (List.mem_range'_1.mp hi).2
      · exact Nat.lt_add_right _ (h i hi)⟩

def consume (nodes : Array Bud) (front : Nat) (rest : List Nat)
    (h : ∀ i ∈ rest, i < nodes.size) (token : Lookahead) : Growth :=
  ⟨nodes.modify front (Bud.close token.text), rest, by simpa using h⟩

def step (index : Nat) (previous c : Configuration) (g : Growth) :
    Except TreeError Growth :=
  if c.step ≠ previous.step + 1 then .error (.stepGap index (previous.step + 1) c.step)
  else
    match g with
    | ⟨_, [], _⟩ => .error (.underflow c.step)
    | ⟨nodes, front :: rest, h⟩ =>
      have hfront : front < nodes.size := h front List.mem_cons_self
      have hrest : ∀ i ∈ rest, i < nodes.size := fun i hi => h i (List.mem_cons_of_mem _ hi)
      let symbol := nodes[front].symbol
      match c.applied with
      | some p =>
        if symbol = .nonterminal p.left then .ok (expand nodes front rest hrest p.expansion)
        else .error (.expansionMismatch c.step p.left symbol)
      | none =>
        match previous.input.front? with
        | none => .error (.noToken c.step)
        | some token =>
          if symbol.accepts token then .ok (consume nodes front rest hrest token)
          else .error (.matchMismatch c.step token symbol)

def steps : Nat → Configuration → Trace → Growth → Except TreeError Growth
  | _, _, [], g => .ok g
  | index, previous, c :: rest, g =>
    match step index previous c g with
    | .error e => .error e
    | .ok g' => steps (index + 1) c rest g'

def takeAll : List Nat → Array (Option Tree) → List Tree × Array (Option Tree)
  | [], finished => ([], finished)
  | i :: rest, finished =>
    let found := finished[i]?.join
    let taken := takeAll rest (finished.setIfInBounds i none)
    (found.toList ++ taken.1, taken.2)

def settle (node : Bud × Nat) (finished : Array (Option Tree)) : Array (Option Tree) :=
  let taken := takeAll node.1.children finished
  taken.2.setIfInBounds node.2 (some (.node node.1.symbol taken.1 node.1.value))

def assemble (nodes : Array Bud) : Option Tree :=
  (nodes.toList.zipIdx.foldr settle (Array.replicate nodes.size none))[0]?.join

end Growth

def Tree.ofTrace : Trace → Except TreeError Tree
  | [] => .error .emptyTrace
  | first :: rest =>
    match first.stack.get? 1 with
    | none => .error (.missingStart first.stack.height)
    | some root =>
      if first.step ≠ 0 then .error (.stepGap 0 0 first.step)
      else
        match Growth.steps 1 first rest (.ofRoot root) with
        | .error e => .error e
        | .ok g =>
          if g.pending.isEmpty then (Growth.assemble g.nodes).elim (.error .emptyTrace) .ok
          else .error (.unfinished g.pending.length)

end Predictive
