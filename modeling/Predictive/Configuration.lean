import Predictive.Production
import Predictive.Stack

/-! Snapshots of the automaton. A configuration holds the stack, the unread input and the
production that led to it, if one did. Two configurations count as equal when they agree
on all that is written into a record: where the input pointer stands in its buffer is not
compared, only what is left to read. -/

namespace Predictive

structure Input where
  position : Nat
  unread : List Lookahead

namespace Input

instance : BEq Input := ⟨fun a b => a.unread == b.unread⟩

def ofBuffer (buffer : List Lookahead) (offset : Nat) : Input :=
  ⟨min offset buffer.length, buffer.drop offset⟩

def ofTokens (tokens : List Terminal) : Input :=
  ofBuffer (tokens.map .terminal ++ [.endMarker]) 0

def front? (i : Input) : Option Lookahead := i.unread.head?

def length (i : Input) : Nat := i.unread.length

def isEmpty (i : Input) : Bool := i.length == 0

/-- The pointer stays where it is once everything is read. -/
def advance (i : Input) : Input :=
  match i.unread with
  | [] => i
  | _ :: rest => ⟨i.position + 1, rest⟩

theorem beq_iff {a b : Input} : (a == b) = true ↔ a.unread = b.unread := by
  change (a.unread == b.unread) = true ↔ _
  exact beq_iff_eq

end Input

structure Configuration where
  step : Nat
  stack : Stack
  input : Input
  applied : Option Production
deriving BEq

abbrev Trace := List Configuration

structure Record where
  step : Nat
  stack : List Symbol
  input : List Lookahead
  production : Option Production
deriving DecidableEq

namespace Configuration

def initial (start : NonTerminal) (tokens : List Terminal) : Configuration :=
  ⟨0, .ofList [.endMarker, .nonterminal start], .ofTokens tokens, none⟩

def isMatch (c : Configuration) : Bool := 0 < c.step && c.applied.isNone

def isAccepting (c : Configuration) : Bool :=
  c.stack.height == 1 && c.stack.top? == some .endMarker && c.input.unread == [.endMarker]

def toRecord (c : Configuration) : Record :=
  ⟨c.step, c.stack.toList, c.input.unread, c.applied⟩

def ofRecord (r : Record) : Configuration :=
  ⟨r.step, .ofList r.stack, .ofBuffer r.input 0, r.production⟩

theorem toRecord_ofRecord (r : Record) : (ofRecord r).toRecord = r := by
  simp [toRecord, ofRecord, Stack.toList_ofList, Input.ofBuffer]

theorem beq_iff {a b : Configuration} : (a == b) = true ↔ a.toRecord = b.toRecord := by
  obtain ⟨n, s, i, p⟩ := a
  obtain ⟨m, t, j, q⟩ := b
  change (n == m && (s == t && (i == j && p == q))) = true ↔ _
  simp only [Bool.and_eq_true, beq_iff_eq, Input.beq_iff, toRecord, Record.mk.injEq]
  exact and_congr_right fun _ => and_congr_left fun _ =>
    ⟨congrArg Stack.toList, Stack.toList_injective⟩

end Configuration

namespace Trace

def productions (t : Trace) : List Production := t.filterMap Configuration.applied

def isAccepted (t : Trace) : Bool := t.getLast?.any Configuration.isAccepting

def toRecords (t : Trace) : List Record := t.map Configuration.toRecord

def ofRecords (rs : List Record) : Trace := rs.map Configuration.ofRecord

end Trace

end Predictive
