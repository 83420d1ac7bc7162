import Predictive.Json
import Predictive.Json.Reader
import Predictive.Production

/-! Symbols and productions in JSON. A symbol is its text. A production is read as it stands:
its right side may be empty or mix the empty marker with other symbols, which the checked
constructor would have refused. -/

namespace Predictive

open Json (Reader Outline Fault Tear)

namespace Json.Reader

def symbol : Reader Symbol := fun b o => (text b o).map Symbol.ofText

def terminal : Reader Terminal := named Terminal.ofText

def nonterminal : Reader NonTerminal := named NonTerminal.ofText

def lookahead : Reader Lookahead := named Lookahead.ofText

end Json.Reader

namespace Production

def toJson (p : Production) : Json :=
  .object [("left", .text p.left.text), ("right", .list (p.right.map (.text ·.text)))]

structure Draft where
  left : Option NonTerminal
  right : Option (List Symbol)

namespace Draft

def known (b : Nat) : Reader.Fields Draft := fun d key =>
  match key with
  | "left" => some (Reader.once d.left (Reader.nonterminal b) fun n => { d with left := n })
  | "right" =>
    some (Reader.once d.right (Reader.list .symbol b) fun ss => { d with right := ss })
  | _ => none

def finish (d : Draft) : Except Fault Production := do
  return ⟨← Reader.required d.left, ← Reader.required d.right⟩

end Draft

def reader : Reader Production :=
  .product
    (fun b fields tear => do (← Reader.fields (Draft.known b) ⟨none, none⟩ fields tear).finish)
    (fun b items tear => do
      let (left, rest) ← Reader.next (Reader.nonterminal b) items tear
      let (right, rest) ← Reader.next (Reader.list .symbol b) rest tear
      Reader.finish rest tear
      return ⟨left, right⟩)

end Production

end Predictive
