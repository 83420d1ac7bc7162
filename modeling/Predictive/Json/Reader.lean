import Predictive.Json.Outline
import Predictive.SortedMap

/-! Readers of JSON text. A reader takes how many lists and objects it may still enter and
an outline, and gives a value or the first fault in the order of the text. Structures are
read from objects, where unknown fields are passed over and repeated ones refused, or from
lists of their fields in order. -/

namespace Predictive.Json

def nestingLimit : Nat := 127

abbrev Reader (α : Type) := Nat → Outline → Except Fault α

def Fault.misshapen : Fault := .shape none

namespace Outline

/-- The fault in a value of the wrong shape. Texts and numbers are read before their shape
is judged; lists and objects are not entered. -/
def refusal : Outline → Fault
  | .torn t => t.read
  | .text none => .malformed
  | .number .excessive => .malformed
  | _ => .misshapen

mutual

def passedFault? : Outline → Option Fault
  | .torn t => some t.passed
  | .list items tear => (passedItems? items).or (tear.map Tear.passed)
  | .object fields tear => (passedFields? fields).or (tear.map Tear.passed)
  | _ => none

def passedItems? : List Outline → Option Fault
  | [] => none
  | o :: rest => (passedFault? o).or (passedItems? rest)

def passedFields? : List (Option String × Outline) → Option Fault
  | [] => none
  | (_, o) :: rest => (passedFault? o).or (passedFields? rest)

end

end Outline

def close : Option Tear → Except Fault Unit
  | none => .ok ()
  | some t => .error t.read

def enter {α : Type} (budget : Nat) (f : Nat → Except Fault α) : Except Fault α :=
  match budget with
  | 0 => .error .malformed
  | budget + 1 => f budget

mutual

def intact : Nat → Outline → Except Fault Unit
  | budget, .list items tear => enter budget fun b => intactItems b items tear
  | budget, .object fields tear => enter budget fun b => intactFields b fields tear
  | _, .torn t => .error t.read
  | _, .text none => .error .malformed
  | _, .number .excessive => .error .malformed
  | _, _ => .ok ()

def intactItems : Nat → List Outline → Option Tear → Except Fault Unit
  | _, [], tear => close tear
  | b, o :: rest, tear => do
    intact b o
    intactItems b rest tear

def intactFields : Nat → List (Option String × Outline) → Option Tear → Except Fault Unit
  | _, [], tear => close tear
  | _, (none, _) :: _, _ => .error .malformed
  | b, (some _, o) :: rest, tear => do
    intact b o
    intactFields b rest tear

end

namespace Reader

def text : Reader String
  | _, .text (some s) => .ok s
  | _, o => .error o.refusal

def natural : Reader Nat
  | _, .number (.natural n) => .ok n
  | _, o => .error o.refusal

def named {α : Type} (f : String → Except GrammarError α) : Reader α := fun b o => do
  match f (← text b o) with
  | .ok a => .ok a
  | .error e => .error (.shape (some e))

def optional {α : Type} (r : Reader α) : Reader (Option α)
  | _, .null => .ok none
  | b, o => (r b o).map some

def items {α : Type} (read : Outline → Except Fault α) :
    List Outline → Option Tear → Except Fault (List α)
  | [], tear => (close tear).map fun _ => []
  | o :: rest, tear => do
    let a ← read o
    return a :: (← items read rest tear)

def list {α : Type} (r : Reader α) : Reader (List α)
  | budget, .list os tear => enter budget fun b => items (r b) os tear
  | _, o => .error o.refusal

def entries {α : Type} (read : Outline → Except Fault α) (m : SortedMap String α) :
    List (Option String × Outline) → Option Tear → Except Fault (SortedMap String α)
  | [], tear => (close tear).map fun _ => m
  | (none, _) :: _, _ => .error .malformed
  | (some k, o) :: rest, tear => do
    let a ← read o
    entries read (m.insert k a) rest tear

/-- The last value of a repeated key counts, but every value must read. -/
def map {α : Type} (r : Reader α) : Reader (SortedMap String α)
  | budget, .object fields tear => enter budget fun b => entries (r b) .empty fields tear
  | _, o => .error o.refusal

abbrev Fields (σ : Type) := σ → String → Option (Outline → Except Fault σ)

def fields {σ : Type} (known : Fields σ) (s : σ) :
    List (Option String × Outline) → Option Tear → Except Fault σ
  | [], tear => (close tear).map fun _ => s
  | (none, _) :: _, _ => .error .malformed
  | (some key, o) :: rest, tear =>
    match known s key with
    | some read => do
      let s' ← read o
      fields known s' rest tear
    | none =>
      match o.passedFault? with
      | some f => .error f
      | none => fields known s rest tear

/-- A field that may stand once; a second one is refused before its value is looked at. -/
def once {α σ : Type} (slot : Option α) (read : Outline → Except Fault α) (put : α → σ) :
    Outline → Except Fault σ := fun o =>
  if slot.isSome then .error .misshapen else (read o).map put

def required {α : Type} : Option α → Except Fault α
  | some a => .ok a
  | none => .error .misshapen

def next? {α : Type} (read : Outline → Except Fault α) :
    List Outline → Option Tear → Except Fault (Option α × List Outline)
  | [], tear => (close tear).map fun _ => (none, [])
  | o :: rest, _ => (read o).map fun a => (some a, rest)

def next {α : Type} (read : Outline → Except Fault α) (os : List Outline)
    (tear : Option Tear) : Except Fault (α × List Outline) := do
  let (a, rest) ← next? read os tear
  return (← required a, rest)

/-- Items beyond the last field make a list no JSON for a structure. -/
def finish : List Outline → Option Tear → Except Fault Unit
  | [], tear => close tear
  | _ :: _, _ => .error .malformed

def product {α : Type}
    (ofObject : Nat → List (Option String × Outline) → Option Tear → Except Fault α)
    (ofList : Nat → List Outline → Option Tear → Except Fault α) : Reader α
  | budget, .object fs tear => enter budget fun b => ofObject b fs tear
  | budget, .list os tear => enter budget fun b => ofList b os tear
  | _, o => .error o.refusal

def run {α : Type} (r : Reader α) (text : String) : Except Fault α := do
  let (o, after) := Outline.ofText text
  let a ← r nestingLimit o
  match after.map skipBlanks with
  | some [] => return a
  | _ => .error .malformed

end Reader

end Predictive.Json
