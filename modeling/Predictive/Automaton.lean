import Predictive.Configuration
import Predictive.Rejection
import Predictive.Table

/-! The automaton that a table describes. `Table.next` looks at one configuration: it moves,
stops in acceptance or is stuck. `Table.run` repeats it from the initial configuration and
keeps every configuration on the way, and `Table.drive` is its outcome alone. A run without
a ceiling may have no end; `Table.moveBound` is more than any run makes that has one, so
looking further than that decides nothing new. -/

namespace Predictive

inductive Turn where
  | accepted
  | stuck (r : Rejection)
  | moved (c : Configuration)

namespace Table

def select (t : Table) (n : NonTerminal) (l : Lookahead) (position : Nat) :
    Except Rejection Production :=
  match t.row? n with
  | none => .error (.missingRow n)
  | some row =>
    match row.get? l with
    | some (.production p) => .ok p
    | some .error => .error (.noEntry position n l .marked)
    | none => .error (.noEntry position n l .absent)

def next (t : Table) (c : Configuration) : Turn :=
  let seen := c.input.front?.getD .endMarker
  match c.stack.top? with
  | none => .accepted
  | some (.nonterminal n) =>
    match t.select n seen c.input.position with
    | .error r => .stuck r
    | .ok p => .moved ⟨c.step + 1, c.stack.pop.2.pushAll p.expansion, c.input, some p⟩
  | some top =>
    if top.isEndMarker && seen.isEndMarker then .accepted
    else if top.accepts seen then .moved ⟨c.step + 1, c.stack.pop.2, c.input.advance, none⟩
    else .stuck (.mismatch c.input.position top seen)

def widest (t : Table) : Nat :=
  t.cells.foldl (fun w (_, _, c) => max w (c.production?.elim 0 (·.expansion.length))) 0

/-- A run on `height` symbols between two tokens makes at most `height * w` moves unless a
nonterminal comes back on top of its own unfinished expansion, and leaves no more symbols
than that; each of the phases that follow starts from what is left. -/
def movesWithin (w : Nat) : (phases height : Nat) → Nat
  | 0, _ => 0
  | phases + 1, height => height * w + 1 + movesWithin w phases (height * w)

def moveBound (t : Table) (tokens : List Terminal) : Nat :=
  movesWithin (Nat.pow (t.widest + 1) t.rows.size) (tokens.length + 1) 2

end Table

structure Run where
  trace : Trace
  rejection : Option Rejection

def Run.outcome (r : Run) : Except Rejection Trace :=
  match r.rejection with
  | none => .ok r.trace
  | some e => .error e

namespace Table

/-- Moves until the fuel is spent; `passed` holds the configurations left behind, the
latest first. Only a move that would succeed is held against the ceiling. -/
def runFrom (t : Table) (limit : Option Nat) : Nat → Trace → Configuration → Option Run
  | 0, _, _ => none
  | fuel + 1, passed, c =>
    match t.next c with
    | .accepted => some ⟨(c :: passed).reverse, none⟩
    | .stuck r => some ⟨(c :: passed).reverse, some r⟩
    | .moved c' =>
      match limit.filter (· < c'.step) with
      | some n => some ⟨(c :: passed).reverse, some (.stepLimit n)⟩
      | none => runFrom t limit fuel (c :: passed) c'

def run (t : Table) (start : NonTerminal) (tokens : List Terminal) (limit : Option Nat) :
    Option Run :=
  runFrom t limit (limit.getD (t.moveBound tokens) + 1) [] (.initial start tokens)

def drive (t : Table) (start : NonTerminal) (tokens : List Terminal) (limit : Option Nat) :
    Option (Except Rejection Trace) :=
  (t.run start tokens limit).map Run.outcome

end Table

end Predictive
