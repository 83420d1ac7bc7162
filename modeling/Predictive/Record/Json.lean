import Predictive.Configuration
import Predictive.Production.Json

/-! Records of configurations in JSON. The production is left out when there is none. -/

namespace Predictive

open Json (Reader Outline Fault Tear)

namespace Record

def toJson (r : Record) : Json :=
  .object ([("step", .number r.step), ("stack", .list (r.stack.map (.text ·.text))),
    ("input", .list (r.input.map (.text ·.text)))] ++
    (r.production.map fun p => ("production", p.toJson)).toList)

structure Draft where
  step : Option Nat
  stack : Option (List Symbol)
  input : Option (List Lookahead)
  production : Option (Option Production)

namespace Draft

def known (b : Nat) : Reader.Fields Draft := fun d key =>
  match key with
  | "step" => some (Reader.once d.step (Reader.natural b) fun n => { d with step := n })
  | "stack" =>
    some (Reader.once d.stack (Reader.list .symbol b) fun ss => { d with stack := ss })
  | "input" =>
    some (Reader.once d.input (Reader.list .lookahead b) fun ls => { d with input := ls })
  | "production" =>
    some (Reader.once d.production (Reader.optional Production.reader b)
      fun p => { d with production := some p })
  | _ => none

def finish (d : Draft) : Except Fault Record := do
  return ⟨← Reader.required d.step, ← Reader.required d.stack, ← Reader.required d.input,
    d.production.join⟩

end Draft

def reader : Reader Record :=
  .product
    (fun b fields tear => do
      (← Reader.fields (Draft.known b) ⟨none, none, none, none⟩ fields tear).finish)
    (fun b items tear => do
      let (step, rest) ← Reader.next (Reader.natural b) items tear
      let (stack, rest) ← Reader.next (Reader.list .symbol b) rest tear
      let (input, rest) ← Reader.next (Reader.list .lookahead b) rest tear
      let (production, rest) ← Reader.next? (Reader.optional Production.reader b) rest tear
      Reader.finish rest tear
      return ⟨step, stack, input, production.join⟩)

end Record

def Trace.toJson (t : Trace) : Json := .list (t.toRecords.map Record.toJson)

end Predictive
