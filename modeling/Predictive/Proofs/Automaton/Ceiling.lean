import Predictive.Proofs.Automaton.Passage
import Predictive.Proofs.Table.Proper

/-! Runs under a ceiling. A ceiling is looked at only when a move would succeed, so a run with
no more moves than the ceiling allows is the run without it, its last failing turn included,
and a longer one is cut off at the ceiling. Under a ceiling every run ends, and one that would
have no end without it can only end there. -/

namespace Predictive

namespace Table

variable {t : Table} {start : NonTerminal} {tokens : List Terminal} {limit : Option Nat}
  {c : Configuration} {trace : Trace} {rejection : Option Rejection} {n : Nat}

theorem Executes.within_ceiling (h : t.Executes none c trace rejection)
    (hn : c.step + trace.length ≤ n + 1) : t.Executes (some n) c trace rejection := by
  induction h with
  | accepted hnext => exact .accepted hnext
  | stuck hnext => exact .stuck hnext
  | halted _ hhalt => simp at hhalt
  | @moved c c' trace rejection hnext _ rest ih =>
    have hstep := step_of_next hnext
    have hpos := rest.length_pos
    rw [List.length_cons] at hn
    have hbelow : c'.step ≤ n := by omega
    exact .moved hnext (by simpa using hbelow) (ih (by omega))

theorem Executes.cut_at_ceiling (h : t.Executes none c trace rejection) (hc : c.step ≤ n)
    (hn : n + 1 < c.step + trace.length) :
    ∃ before, t.Executes (some n) c before (some (.stepLimit n)) := by
  induction h with
  | accepted | stuck =>
    rw [List.length_singleton] at hn
    omega
  | halted _ hhalt => simp at hhalt
  | @moved c c' trace rejection hnext _ rest ih =>
    have hstep := step_of_next hnext
    rw [List.length_cons] at hn
    by_cases hc' : c'.step ≤ n
    · obtain ⟨before, hcut⟩ := ih hc' (by omega)
      exact ⟨c :: before, .moved hnext (by simpa using hc') hcut⟩
    · exact ⟨[c], .halted hnext (by simpa using hc')⟩

theorem Executes.of_ceiling (h : t.Executes (some n) c trace rejection) :
    rejection = some (.stepLimit n) ∨ t.Executes none c trace rejection := by
  generalize hlimit : some n = limit at h
  induction h with
  | accepted hnext => exact .inr (.accepted hnext)
  | stuck hnext => exact .inr (.stuck hnext)
  | halted _ hhalt =>
    rw [← hlimit, Option.filter_eq_some_iff] at hhalt
    cases hhalt.1
    exact .inl rfl
  | moved hnext _ _ ih => exact ih.imp id (.moved hnext rfl)

theorem exists_executes_of_ceiling (t : Table) (hc : c.step ≤ n) :
    ∃ trace rejection, t.Executes (some n) c trace rejection := by
  induction hk : n - c.step using Nat.strongRecOn generalizing c with
  | ind k ih =>
    cases hnext : t.next c with
    | accepted => exact ⟨[c], none, .accepted hnext⟩
    | stuck r => exact ⟨[c], some r, .stuck hnext⟩
    | moved c' =>
      have hstep := step_of_next hnext
      by_cases hc' : c'.step ≤ n
      · obtain ⟨trace, rejection, rest⟩ := ih (n - c'.step) (by omega) hc' rfl
        exact ⟨c :: trace, rejection, .moved hnext (by simpa using hc') rest⟩
      · exact ⟨[c], some (.stepLimit n), .halted hnext (by simpa using hc')⟩

theorem next_ne_stepLimit (t : Table) (c : Configuration) (n : Nat) :
    t.next c ≠ .stuck (.stepLimit n) := by
  intro h
  simp only [next] at h
  split at h
  · cases h
  · split at h
    · next hselect =>
      cases h
      cases fromLookup_of_select hselect
    · cases h
  · split at h
    · cases h
    · split at h <;> cases h

theorem Executes.ne_stepLimit (h : t.Executes none c trace rejection) (n : Nat) :
    rejection ≠ some (.stepLimit n) := by
  induction h with
  | accepted => simp
  | @stuck c r hnext =>
    intro hr
    cases hr
    exact next_ne_stepLimit t c n hnext
  | halted _ hhalt => simp at hhalt
  | moved _ _ _ ih => exact ih

section Run

variable {r : Run}

theorem drive_eq_outcome (h : t.run start tokens limit = some r) :
    t.drive start tokens limit = some r.outcome := by
  rw [drive, h, Option.map_some]

theorem drive_within_ceiling (h : t.run start tokens none = some r)
    (hn : r.trace.length ≤ n + 1) : t.drive start tokens (some n) = some r.outcome := by
  have hexec := run_eq_some_iff.mp h
  have hwithin := hexec.within_ceiling (n := n) (by simpa [Configuration.initial] using hn)
  exact drive_eq_outcome (run_eq_some_iff.mpr hwithin)

theorem drive_past_ceiling (h : t.run start tokens none = some r)
    (hn : n + 1 < r.trace.length) :
    t.drive start tokens (some n) = some (.error (.stepLimit n)) := by
  have hexec := run_eq_some_iff.mp h
  have hcut := hexec.cut_at_ceiling (Nat.zero_le n) (by simpa [Configuration.initial] using hn)
  exact drive_eq_error_iff.mpr hcut

end Run

theorem drive_ceiling_ne_none (t : Table) (start : NonTerminal) (tokens : List Terminal)
    (n : Nat) : t.drive start tokens (some n) ≠ none :=
  drive_ne_none_iff.mpr (t.exists_executes_of_ceiling (Nat.zero_le n))

theorem drive_endless_ceiling (h : t.drive start tokens none = none) (n : Nat) :
    t.drive start tokens (some n) = some (.error (.stepLimit n)) := by
  obtain ⟨trace, rejection, hexec⟩ :=
    t.exists_executes_of_ceiling (c := .initial start tokens) (Nat.zero_le n)
  obtain rfl | hfree := hexec.of_ceiling
  · exact drive_eq_error_iff.mpr ⟨trace, hexec⟩
  · exact absurd h (drive_ne_none_iff.mpr ⟨trace, rejection, hfree⟩)

theorem drive_eq_none_iff_ceilings : t.drive start tokens none = none ↔
    ∀ n, t.drive start tokens (some n) = some (.error (.stepLimit n)) := by
  refine ⟨drive_endless_ceiling, fun h => ?_⟩
  cases hrun : t.run start tokens none with
  | none => rw [drive, hrun, Option.map_none]
  | some r =>
    -- The ceiling that the whole run just fits under does not end it.
    have hends := drive_within_ceiling hrun (n := r.trace.length) (Nat.le_succ _)
    rw [h] at hends
    obtain ⟨trace, hexec⟩ := drive_eq_error_iff.mp ((drive_eq_outcome hrun).trans hends.symm)
    exact absurd rfl (hexec.ne_stepLimit r.trace.length)

/-- What a ceiling does to a run, for every table and input. A run of `m` moves is left as it is
by a ceiling of at least `m`, also if its next turn fails, and any other ceiling is the
reason for which the run stops. -/
theorem drive_under_ceiling (t : Table) (start : NonTerminal) (tokens : List Terminal) (n : Nat) :
    (∀ r, t.run start tokens none = some r → ∃ m, r.trace.length = m + 1 ∧
      t.Passes start tokens r.trace ∧ t.drive start tokens none = some r.outcome ∧
      (m ≤ n → t.drive start tokens (some n) = some r.outcome) ∧
      (n < m → t.drive start tokens (some n) = some (.error (.stepLimit n)))) ∧
    (t.drive start tokens none = none →
      t.drive start tokens (some n) = some (.error (.stepLimit n))) ∧
    t.drive start tokens (some n) ≠ none := by
  refine ⟨fun r h => ?_, fun h => drive_endless_ceiling h n, t.drive_ceiling_ne_none start tokens n⟩
  obtain ⟨m, hm⟩ := Nat.exists_eq_add_of_le' (run_eq_some_iff.mp h).length_pos
  refine ⟨m, hm, passes_of_run h, drive_eq_outcome h, fun hle => ?_, fun hlt => ?_⟩
  · exact drive_within_ceiling h (by omega)
  · exact drive_past_ceiling h (by omega)

end Table

namespace Letters

theorem failing_turn_at_ceiling :
    (table (.empty word)).drive word [letter, stray] (some 2) =
      some (.error (.noEntry 1 word (.terminal stray) .absent)) ∧
    (table (.empty word)).drive word [letter, stray] (some 1) = some (.error (.stepLimit 1)) := by
  have hrun : ∃ r, (table (.empty word)).run word [letter, stray] none = some r ∧
      r.trace.length = 3 ∧ r.outcome = .error (.noEntry 1 word (.terminal stray) .absent) :=
    ⟨_, rfl, rfl, rfl⟩
  obtain ⟨r, hrun, hlength, houtcome⟩ := hrun
  obtain ⟨m, hm, -, -, hkept, -⟩ := (Table.drive_under_ceiling _ word [letter, stray] 2).1 r hrun
  obtain ⟨m', hm', -, -, -, hcut⟩ := (Table.drive_under_ceiling _ word [letter, stray] 1).1 r hrun
  exact ⟨houtcome ▸ hkept (by omega), hcut (by omega)⟩

end Letters

end Predictive
