import Predictive.Tree.Growth

/-! Growing a tree looks at no more of a trace than its records keep. Two traces with the same
records grow the same tree, or fail for the same reason, wherever their input pointers stand. -/

namespace Predictive

namespace Configuration

theorem toRecord_inj {c d : Configuration} : c.toRecord = d.toRecord ↔
    c.step = d.step ∧ c.stack = d.stack ∧ c.input.unread = d.input.unread ∧
      c.applied = d.applied := by
  rw [toRecord, toRecord, Record.mk.injEq]
  exact and_congr_right fun _ => and_congr_left fun _ =>
    ⟨Stack.toList_injective, congrArg Stack.toList⟩

end Configuration

namespace Growth

variable {previous previous' c c' : Configuration}

theorem step_congr (hprevious : previous.toRecord = previous'.toRecord)
    (hc : c.toRecord = c'.toRecord) (index : Nat) (g : Growth) :
    step index previous c g = step index previous' c' g := by
  obtain ⟨hstep, -, hunread, -⟩ := Configuration.toRecord_inj.mp hprevious
  obtain ⟨hstep', -, -, happlied⟩ := Configuration.toRecord_inj.mp hc
  have hfront : previous.input.front? = previous'.input.front? := congrArg List.head? hunread
  simp only [step, hstep, hstep', happlied, hfront]

theorem steps_congr {rest rest' : Trace} (hrest : rest.toRecords = rest'.toRecords)
    (hprevious : previous.toRecord = previous'.toRecord) (index : Nat) (g : Growth) :
    steps index previous rest g = steps index previous' rest' g := by
  induction rest generalizing rest' previous previous' index g with
  | nil =>
    obtain rfl : rest' = [] := List.map_eq_nil_iff.mp hrest.symm
    rfl
  | cons c rest ih =>
    obtain ⟨c', rest', rfl, hc, hmore⟩ := List.map_eq_cons_iff.mp hrest.symm
    rw [steps, steps, step_congr hprevious hc.symm]
    cases step index previous' c' g with
    | error e => rfl
    | ok g' => exact ih hmore.symm hc.symm _ _

end Growth

theorem Tree.ofTrace_congr {a b : Trace} (h : a.toRecords = b.toRecords) :
    ofTrace a = ofTrace b := by
  cases a with
  | nil =>
    obtain rfl : b = [] := List.map_eq_nil_iff.mp h.symm
    rfl
  | cons first rest =>
    obtain ⟨first', rest', rfl, hfirst, hrest⟩ := List.map_eq_cons_iff.mp h.symm
    obtain ⟨hstep, hstack, -, -⟩ := Configuration.toRecord_inj.mp hfirst
    rw [ofTrace, ofTrace, hstep, hstack]
    simp only [Growth.steps_congr hrest.symm hfirst.symm]

end Predictive
