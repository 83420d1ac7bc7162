import Predictive.Symbol

/-! The parse stack. It holds its symbols from the top down and keeps its height beside
them, so that a place counted from the bottom is found without measuring the stack first.
A stack is a value: a copy kept from before is not touched by later moves. Written out,
a stack is listed from the bottom up, and `Stack.ofList_toList` reads that list back. -/

namespace Predictive

structure Stack where
  symbols : List Symbol
  height : Nat
  height_eq : height = symbols.length
deriving DecidableEq

namespace Stack

theorem ext {a b : Stack} (h : a.symbols = b.symbols) : a = b := by
  obtain ⟨s, m, hm⟩ := a
  obtain ⟨t, n, hn⟩ := b
  cases h
  cases hm.trans hn.symm
  rfl

def empty : Stack := ⟨[], 0, rfl⟩

def push (s : Stack) (x : Symbol) : Stack :=
  ⟨x :: s.symbols, s.height + 1, by simp [s.height_eq]⟩

/-- The symbol on top and the stack without it. An empty stack stays as it is. -/
def pop : Stack → Option Symbol × Stack
  | ⟨[], h, e⟩ => (none, ⟨[], h, e⟩)
  | ⟨x :: rest, h, e⟩ => (some x, ⟨rest, h - 1, by simp [e]⟩)

def top? (s : Stack) : Option Symbol := s.symbols.head?

def isEmpty (s : Stack) : Bool := s.height == 0

def get? (s : Stack) (i : Nat) : Option Symbol :=
  if i < s.height then s.symbols[s.height - 1 - i]? else none

def toList (s : Stack) : List Symbol := s.symbols.reverse

def ofList (xs : List Symbol) : Stack := xs.foldl push empty

def pushAll (s : Stack) (xs : List Symbol) : Stack := xs.foldr (fun x s => s.push x) s

theorem symbols_foldl_push (xs : List Symbol) (s : Stack) :
    (xs.foldl push s).symbols = xs.reverse ++ s.symbols := by
  induction xs generalizing s with
  | nil => rfl
  | cons x xs ih => simp [ih, push]

theorem symbols_pop (s : Stack) : s.pop.2.symbols = s.symbols.tail := by
  obtain ⟨_ | ⟨x, xs⟩, h, e⟩ := s <;> rfl

theorem pop_fst (s : Stack) : s.pop.1 = s.top? := by
  obtain ⟨_ | ⟨x, xs⟩, h, e⟩ := s <;> rfl

theorem symbols_pushAll (s : Stack) (xs : List Symbol) :
    (s.pushAll xs).symbols = xs ++ s.symbols := by
  induction xs with
  | nil => rfl
  | cons x xs ih => simpa [pushAll, push] using ih

theorem toList_push (s : Stack) (x : Symbol) : (s.push x).toList = s.toList ++ [x] := by
  simp [toList, push]

theorem toList_ofList (xs : List Symbol) : (ofList xs).toList = xs := by
  simp [toList, ofList, symbols_foldl_push, empty]

theorem ofList_toList (s : Stack) : ofList s.toList = s :=
  ext (by rw [ofList, symbols_foldl_push, toList, List.reverse_reverse]; exact List.append_nil _)

theorem length_toList (s : Stack) : s.toList.length = s.height := by
  simp [toList, s.height_eq]

theorem get?_eq_toList (s : Stack) (i : Nat) : s.get? i = s.toList[i]? := by
  by_cases h : i < s.symbols.length
  · simp [get?, toList, s.height_eq, h]
  · simp [get?, toList, s.height_eq, h]

theorem toList_injective {a b : Stack} (h : a.toList = b.toList) : a = b := by
  rw [← ofList_toList a, h, ofList_toList b]

end Stack

end Predictive
