import Predictive.Proofs.Arithmetic.Layers
import Predictive.Proofs.Automaton.Pace

/-! The arithmetic table works in linear time: four moves for each token and two at the end. A
token takes at most a descent through the three layers, and the two rests never pile up: what
stands below them is a closing parenthesis or the bottom. -/

namespace Predictive.Arithmetic

def pace : Pace where
  rate := 4
  below
    | .nonterminal n =>
      if n = start ∨ n = sumRest then [.terminal closing, .endMarker]
      else if n = product ∨ n = productRest then [.nonterminal sumRest]
      else [.nonterminal productRest]
    | .terminal a =>
      if a = opening then [.nonterminal start]
      else if a ∈ sumOperators then [.nonterminal product]
      else if a ∈ productOperators then [.nonterminal factor]
      else [.nonterminal productRest]
    | _ => []
  credit
    | .nonterminal n =>
      if n = start ∨ n = productRest then 3 else if n = product ∨ n = sumRest then 2 else 1
    | .terminal a => if a = closing then 1 else 0
    | _ => 1
  credit_lt s := by
    split
    · split
      · decide
      · split <;> decide
    · split <;> decide
    · decide
  one_lt_rate := by decide

theorem pace_holds : pace.Holds table start where
  start := by decide
  stacked := by decide
  cheaper := by decide
  ending := by decide

theorem granted_start (tokens : List Terminal) :
    pace.granted (.nonterminal start) tokens = 4 * tokens.length + 2 := by
  rfl

/-- Accepted or rejected, an input of `n` tokens takes at most `4 * n + 2` moves, and a ceiling of
that many moves is never reached. -/
theorem drive_in_linear_time (tokens : List Terminal) :
    (∃ m r, table.run start tokens none = some r ∧ r.trace.length = m + 1 ∧
      m ≤ 4 * tokens.length + 2 ∧ table.drive start tokens none = some r.outcome) ∧
    table.drive start tokens (some (4 * tokens.length + 2)) = table.drive start tokens none ∧
    ∀ n, table.drive start tokens (some (4 * tokens.length + 2)) ≠
      some (.error (.stepLimit n)) := by
  obtain ⟨r, hrun, hlength⟩ := pace_holds.run_in_time tokens
  rw [granted_start] at hlength
  have hexec := Table.run_eq_some_iff.mp hrun
  obtain ⟨m, hm⟩ := Nat.exists_eq_add_of_le' hexec.length_pos
  have hdrive := Table.drive_eq_outcome hrun
  have hceiling := Table.drive_within_ceiling hrun hlength
  refine ⟨⟨m, r, hrun, hm, by omega, hdrive⟩, hceiling.trans hdrive.symm, fun n hn => ?_⟩
  rw [hceiling, ← hdrive] at hn
  obtain ⟨trace, hstopped⟩ := Table.drive_eq_error_iff.mp hn
  exact hstopped.ne_stepLimit n rfl

/-- A single operand takes all the moves that it may. -/
example : (table.run start [token "id"] none).map (·.trace.length) = some 7 := by rfl

end Predictive.Arithmetic
