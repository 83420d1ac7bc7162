import Predictive.Inspection

/-! The journal of a run: one line for every configuration and a last one for the outcome.
A rejected run is journalled up to the configuration that it stopped in. -/

namespace Predictive

inductive Level where
  | info
  | debug
  | trace
deriving DecidableEq

def Level.name : Level → String
  | info => "INFO"
  | debug => "DEBUG"
  | trace => "TRACE"

structure JournalLine where
  level : Level
  text : String
deriving DecidableEq

namespace JournalLine

def ofConfiguration (c : Configuration) : JournalLine :=
  let what := match c.applied with
    | some p => "apply " ++ p.toText
    | none => "input@" ++ toString c.input.position
  ⟨.trace, "step " ++ toString c.step ++ ": " ++ what ++ ", stack=" ++
    Inspection.stack c.stack⟩

def ofOutcome (tokens : Nat) : Except Rejection Trace → JournalLine
  | .ok trace => ⟨.debug, "accepted " ++ toString tokens ++ " tokens in " ++
      toString (trace.length - 1) ++ " steps"⟩
  | .error r => ⟨.debug, "rejected: " ++ r.message⟩

def announcing (start : NonTerminal) (tokens : Nat) : JournalLine :=
  ⟨.info, "driving " ++ toString tokens ++ " tokens from `" ++ start.text ++ "`"⟩

end JournalLine

def Run.journal (r : Run) (tokens : Nat) : List JournalLine :=
  r.trace.map .ofConfiguration ++ [.ofOutcome tokens r.outcome]

end Predictive
