import Predictive.Automaton

/-! Finished runs, without the fuel. `Table.Executes` derives the configurations that a run
passes and what stops it, one rule for each way a turn can go on. The run with fuel finds
exactly the executions that are no longer than its fuel, and a configuration has at most
one execution, so fuel never changes an answer that is there. -/

namespace Predictive

namespace Table

inductive Executes (t : Table) (limit : Option Nat) :
    Configuration → Trace → Option Rejection → Prop
  | accepted {c : Configuration} (h : t.next c = .accepted) : Executes t limit c [c] none
  | stuck {c : Configuration} {r : Rejection} (h : t.next c = .stuck r) :
      Executes t limit c [c] (some r)
  | halted {c c' : Configuration} {n : Nat} (h : t.next c = .moved c')
      (hn : limit.filter (· < c'.step) = some n) : Executes t limit c [c] (some (.stepLimit n))
  | moved {c c' : Configuration} {trace : Trace} {rejection : Option Rejection}
      (h : t.next c = .moved c') (hn : limit.filter (· < c'.step) = none)
      (rest : Executes t limit c' trace rejection) : Executes t limit c (c :: trace) rejection

variable {t : Table} {limit : Option Nat}

theorem Executes.head {c : Configuration} {trace : Trace} {rejection : Option Rejection}
    (h : t.Executes limit c trace rejection) : ∃ rest, trace = c :: rest := by
  cases h <;> exact ⟨_, rfl⟩

theorem Executes.length_pos {c : Configuration} {trace : Trace} {rejection : Option Rejection}
    (h : t.Executes limit c trace rejection) : 0 < trace.length := by
  obtain ⟨rest, rfl⟩ := h.head
  exact Nat.succ_pos _

theorem Executes.rest_of_moved {c c' : Configuration} {trace : Trace}
    {rejection : Option Rejection} (h : t.Executes none c trace rejection)
    (hnext : t.next c = .moved c') :
    ∃ trace', trace = c :: trace' ∧ t.Executes none c' trace' rejection := by
  cases h with
  | accepted hnext' => cases hnext.symm.trans hnext'
  | stuck hnext' => cases hnext.symm.trans hnext'
  | halted _ hn => simp at hn
  | moved hnext' _ rest =>
    cases hnext.symm.trans hnext'
    exact ⟨_, rfl, rest⟩

theorem runFrom_of_executes {c : Configuration} {trace : Trace} {rejection : Option Rejection}
    (h : t.Executes limit c trace rejection) {fuel : Nat} (hf : trace.length ≤ fuel)
    (passed : Trace) :
    t.runFrom limit fuel passed c = some ⟨passed.reverse ++ trace, rejection⟩ := by
  induction h generalizing fuel passed with
  | accepted hc =>
    obtain ⟨fuel, rfl⟩ := Nat.exists_eq_add_of_le' hf
    simp [runFrom, hc]
  | stuck hc =>
    obtain ⟨fuel, rfl⟩ := Nat.exists_eq_add_of_le' hf
    simp [runFrom, hc]
  | halted hc hn =>
    obtain ⟨fuel, rfl⟩ := Nat.exists_eq_add_of_le' hf
    simp [runFrom, hc, hn]
  | @moved c c' trace rejection hc hn rest ih =>
    obtain ⟨fuel, rfl⟩ := Nat.exists_eq_add_of_le' (Nat.one_le_of_lt hf)
    have hr := ih (Nat.succ_le_succ_iff.mp hf) (c :: passed)
    simp only [runFrom, hc, hn]
    simpa using hr

theorem executes_of_runFrom {fuel : Nat} {passed : Trace} {c : Configuration} {r : Run}
    (h : t.runFrom limit fuel passed c = some r) :
    ∃ trace, r.trace = passed.reverse ++ trace ∧ t.Executes limit c trace r.rejection := by
  induction fuel generalizing passed c with
  | zero => simp [runFrom] at h
  | succ fuel ih =>
    rw [runFrom] at h
    split at h
    · next hc =>
      cases h
      exact ⟨[c], by simp, .accepted hc⟩
    · next e hc =>
      cases h
      exact ⟨[c], by simp, .stuck hc⟩
    · next c' hc =>
      split at h
      · next n hn =>
        cases h
        exact ⟨[c], by simp, .halted hc hn⟩
      · next hn =>
        obtain ⟨trace, htrace, hrest⟩ := ih h
        exact ⟨c :: trace, by simpa using htrace, .moved hc hn hrest⟩

end Table

end Predictive
