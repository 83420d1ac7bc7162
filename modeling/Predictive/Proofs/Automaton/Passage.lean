import Predictive.Proofs.Automaton.Outcome

/-! The configurations that the loop passes, whether it comes to an end or not, and whatever
the table puts onto the stack: end markers, empty markers, or nothing at all. The marker at
the bottom is never taken off, because a turn that meets the end marker on top either stops,
if the input is at its end marker too, or is stuck. The pointer counts the tokens that were
matched, so it stays within the tokens and its front is there. -/

namespace Predictive

open Predictive.Configuration

namespace Configuration

/-- The stack stands on the end marker, and the pointer is at a token or right behind the last
one, where the end marker is in front. -/
structure InBounds (tokens : List Terminal) (c : Configuration) : Prop where
  bottom : c.stack.get? 0 = some .endMarker
  pointer_le : c.input.position ≤ tokens.length
  front : ∃ l, c.input.front? = some l ∧
    (tokens.map .terminal ++ [.endMarker])[c.input.position]? = some l

variable {c : Configuration} {upper : List Symbol} {read unread : List Terminal}

theorem At.position_eq_length (h : c.At upper read unread) : c.input.position = read.length := by
  rw [h.input, Input.after]

theorem At.inBounds (h : c.At upper read unread) : c.InBounds (read ++ unread) where
  bottom := by simp [Stack.get?_eq_toList, Stack.toList, h.stack]
  pointer_le := by simp [h.position_eq_length]
  front := by
    refine ⟨.first unread, h.front, ?_⟩
    rw [h.position_eq_length]
    exact Lookahead.getElem?_first read unread

end Configuration

namespace Table

structure Passes (t : Table) (start : NonTerminal) (tokens : List Terminal) (cs : Trace) :
    Prop where
  first : cs.head? = some (.initial start tokens)
  turns : cs.IsChain fun c c' => t.next c = .moved c'

variable {t : Table} {start : NonTerminal} {tokens : List Terminal} {c c' : Configuration}
  {upper : List Symbol} {read unread : List Terminal}

theorem turn_cases (h : t.next c = .moved c') (hc : c.At upper read unread) :
    (c'.isMatch = false ∧ ∃ upper', c'.At upper' read unread) ∨
      ∃ a rest upper', unread = a :: rest ∧ c'.isMatch = true ∧
        c.stack.top? = some (.terminal a) ∧ c'.stack = c.stack.pop.2 ∧
        c'.At upper' (read ++ [a]) rest := by
  have hmove := move_of_next hc h
  have hstep : 0 < c'.step := by rw [hmove.step_eq]; exact Nat.succ_pos _
  obtain ⟨n, below, p, rfl, -, happ, hat⟩ | ⟨a, below, rest, rfl, rfl, happ, hat⟩ :=
    hmove.cases_at hc
  · left
    exact ⟨by simp [isMatch, happ], _, hat⟩
  · right
    have hpop : c'.stack = c.stack.pop.2 :=
      Stack.ext (by rw [hat.stack, Stack.symbols_pop, hc.stack]; rfl)
    exact ⟨a, rest, below, rfl, by simp [isMatch, happ, hstep], hc.top_cons, hpop, hat⟩

section Passes

variable {cs : Trace} {i : Nat}

theorem Passes.turn (h : t.Passes start tokens cs) (hi : cs[i]? = some c)
    (hi' : cs[i + 1]? = some c') : t.next c = .moved c' :=
  rel_of_isChain h.turns hi hi'

theorem Passes.exists_at (h : t.Passes start tokens cs) (hi : cs[i]? = some c) :
    ∃ upper read unread, c.At upper read unread ∧ tokens = read ++ unread ∧
      read.length = (cs.take (i + 1)).countP isMatch := by
  induction i generalizing c with
  | zero =>
    obtain ⟨rest, rfl⟩ := List.head?_eq_some_iff.mp h.first
    cases hi
    exact ⟨_, _, _, initial_at start tokens, rfl, rfl⟩
  | succ i ih =>
    obtain ⟨before, hbefore⟩ := exists_getElem?_pred hi
    obtain ⟨upper, read, unread, hat, rfl, hcount⟩ := ih hbefore
    rw [List.take_add_one, hi, List.countP_append, ← hcount]
    obtain ⟨hmatch, upper', hat'⟩ | ⟨a, rest, upper', rfl, hmatch, -, -, hat'⟩ :=
      turn_cases (h.turn hbefore hi) hat
    · exact ⟨upper', read, unread, hat', rfl, by simp [hmatch]⟩
    · exact ⟨upper', read ++ [a], rest, hat', by simp, by simp [hmatch]⟩

theorem Passes.match_of_turn (h : t.Passes start tokens cs) (hi : cs[i]? = some c)
    (hi' : cs[i + 1]? = some c') (hmatch : c'.isMatch = true) :
    ∃ a, c.stack.top? = some (.terminal a) ∧ tokens[c.input.position]? = some a ∧
      c'.stack = c.stack.pop.2 := by
  obtain ⟨upper, read, unread, hat, rfl, -⟩ := h.exists_at hi
  obtain ⟨hno, -⟩ | ⟨a, rest, upper', rfl, -, htop, hpop, -⟩ :=
    turn_cases (h.turn hi hi') hat
  · rw [hno] at hmatch
    cases hmatch
  · exact ⟨a, htop, by simp [hat.position_eq_length], hpop⟩

end Passes

variable {limit : Option Nat}

theorem Executes.turns {trace : Trace} {rejection : Option Rejection}
    (h : t.Executes limit c trace rejection) :
    trace.IsChain fun c c' => t.next c = .moved c' := by
  induction h with
  | accepted | stuck | halted => exact .singleton _
  | moved hnext _ rest ih =>
    obtain ⟨more, rfl⟩ := rest.head
    exact List.isChain_cons_cons.mpr ⟨hnext, ih⟩

theorem passes_of_run {r : Run} (h : t.run start tokens limit = some r) :
    t.Passes start tokens r.trace := by
  have hexec := run_eq_some_iff.mp h
  obtain ⟨rest, hrest⟩ := hexec.head
  exact ⟨by rw [hrest]; rfl, hexec.turns⟩

theorem finished_of_run {r : Run} (h : t.run start tokens limit = some r)
    (hr : r.rejection = none) : ∃ c, r.trace.getLast? = some c ∧ c.Finished :=
  ((run_eq_some_iff.mp h).accepts hr (initial_at start tokens)).exists_last

/-- The bounds of the loop. They hold of every configuration on the way, not only of those in
a run that ends, and an end without rejection is always the end marker meeting itself. -/
theorem passed_in_bounds (t : Table) (start : NonTerminal) (tokens : List Terminal) :
    (∀ cs, t.Passes start tokens cs →
      (∀ i c, cs[i]? = some c → c.InBounds tokens ∧
        c.input.position = (cs.take (i + 1)).countP isMatch ∧
        (t.next c = .accepted → c.Finished)) ∧
      (∀ i c c', cs[i]? = some c → cs[i + 1]? = some c' → c'.isMatch = true →
        ∃ a, c.stack.top? = some (.terminal a) ∧ tokens[c.input.position]? = some a ∧
          c'.stack = c.stack.pop.2)) ∧
    (∀ limit r, t.run start tokens limit = some r → t.Passes start tokens r.trace ∧
      (r.rejection = none → ∃ c, r.trace.getLast? = some c ∧ c.Finished)) := by
  refine ⟨fun cs h => ⟨fun i c hi => ?_, fun i c c' hi hi' => h.match_of_turn hi hi'⟩,
    fun limit r h => ⟨passes_of_run h, finished_of_run h⟩⟩
  obtain ⟨upper, read, unread, hat, rfl, hcount⟩ := h.exists_at hi
  refine ⟨hat.inBounds, ?_, finished_of_next hat⟩
  rw [hat.position_eq_length, hcount]

end Table

end Predictive
