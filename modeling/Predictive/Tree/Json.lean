import Predictive.Production.Json
import Predictive.Tree

/-! Trees in JSON. Children are left out when there are none, and so is a missing value. Each
level of a tree takes two levels of nesting, one for the node and one for its children. -/

namespace Predictive

open Json (Reader Outline Fault Tear)

namespace Tree

mutual

def toJson : Tree → Json
  | node s cs v =>
    .object (("symbol", .text s.text) ::
      ((if cs.isEmpty then [] else [("children", .list (toJsons cs))]) ++
        (v.map fun text => ("value", Json.text text)).toList))

def toJsons : List Tree → List Json
  | [] => []
  | t :: ts => toJson t :: toJsons ts

end

structure Draft where
  symbol : Option Symbol
  children : Option (List Tree)
  value : Option (Option String)

namespace Draft

def known (children : Outline → Except Fault (List Tree)) (b : Nat) : Reader.Fields Draft :=
  fun d key =>
    match key with
    | "symbol" => some (Reader.once d.symbol (Reader.symbol b) fun s => { d with symbol := s })
    | "children" => some (Reader.once d.children children fun ts => { d with children := ts })
    | "value" =>
      some (Reader.once d.value (Reader.optional .text b) fun v => { d with value := some v })
    | _ => none

def finish (d : Draft) : Except Fault Tree := do
  return .node (← Reader.required d.symbol) (d.children.getD []) d.value.join

end Draft

mutual

def reader : Reader Tree
  | b + 1, .object fields tear => do
    (← Reader.fields (Draft.known (childrenReader b) b) ⟨none, none, none⟩ fields tear).finish
  | b + 1, .list items tear => do
    let (symbol, rest) ← Reader.next (Reader.symbol b) items tear
    let (children, rest) ← Reader.next? (childrenReader b) rest tear
    let (value, rest) ← Reader.next? (Reader.optional .text b) rest tear
    Reader.finish rest tear
    return .node symbol (children.getD []) value.join
  | 0, .object _ _ => .error .malformed
  | 0, .list _ _ => .error .malformed
  | _, o => .error o.refusal

def childrenReader : Reader (List Tree)
  | b + 1, .list items tear => Reader.items (reader b) items tear
  | 0, .list _ _ => .error .malformed
  | _, o => .error o.refusal

end

end Tree

end Predictive
