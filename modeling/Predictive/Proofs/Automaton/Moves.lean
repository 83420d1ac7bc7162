import Mathlib.Logic.Relation
import Predictive.Proofs.Automaton.Execution

/-! One move of the automaton, read off the table and the two fronts alone. A turn moves by
such a move, stops when the end marker meets itself, or is stuck for the one reason that
the configuration gives. -/

namespace Predictive

def Configuration.Finished (c : Configuration) : Prop :=
  c.stack.top? = some .endMarker ∧ c.input.front? = some .endMarker

def Rejection.fromLookup : Rejection → Bool
  | missingRow _ => true
  | noEntry .. => true
  | mismatch .. => false
  | stepLimit _ => false

namespace Table

inductive Move (t : Table) : Configuration → Configuration → Prop
  | expand {c : Configuration} {s : Stack} {n : NonTerminal} {below : List Symbol}
      {l : Lookahead} {p : Production} (top : c.stack.symbols = .nonterminal n :: below)
      (front : c.input.front? = some l) (cell : t.cell? n l = some (.production p))
      (pushed : s.symbols = p.expansion ++ below) :
      Move t c ⟨c.step + 1, s, c.input, some p⟩
  | consume {c : Configuration} {s : Stack} {a : Terminal} {below : List Symbol}
      {more : List Lookahead} (top : c.stack.symbols = .terminal a :: below)
      (front : c.input.unread = .terminal a :: more) (popped : s.symbols = below) :
      Move t c ⟨c.step + 1, s, ⟨c.input.position + 1, more⟩, none⟩

def Stuck (t : Table) (c : Configuration) : Prop := ¬ c.Finished ∧ ∀ c', ¬ t.Move c c'

inductive Rejects (t : Table) (position : Nat) (c : Configuration) : Rejection → Prop
  | missingRow {n : NonTerminal} (top : c.stack.top? = some (.nonterminal n))
      (row : t.row? n = none) : Rejects t position c (.missingRow n)
  | absent {n : NonTerminal} {l : Lookahead} (top : c.stack.top? = some (.nonterminal n))
      (row : t.hasRow n = true) (front : c.input.front? = some l)
      (cell : t.cell? n l = none) : Rejects t position c (.noEntry position n l .absent)
  | marked {n : NonTerminal} {l : Lookahead} (top : c.stack.top? = some (.nonterminal n))
      (front : c.input.front? = some l) (cell : t.cell? n l = some .error) :
      Rejects t position c (.noEntry position n l .marked)
  | mismatch {s : Symbol} {l : Lookahead} (top : c.stack.top? = some s)
      (other : s.isNonterminal = false) (front : c.input.front? = some l) :
      Rejects t position c (.mismatch position s l)

variable {t : Table} {c c' : Configuration}

theorem Move.step_eq (h : t.Move c c') : c'.step = c.step + 1 := by
  cases h <;> rfl

theorem Move.not_finished (h : t.Move c c') : ¬ c.Finished := by
  intro hf
  have ht := hf.1
  cases h with
  | expand top => simp [Stack.top?, top] at ht
  | consume top => simp [Stack.top?, top] at ht

theorem select_eq_ok {n : NonTerminal} {l : Lookahead} {position : Nat} {p : Production} :
    t.select n l position = .ok p ↔ t.cell? n l = some (.production p) := by
  cases hrow : t.row? n with
  | none => simp [select, cell?, hrow]
  | some row =>
    cases hcell : row.get? l with
    | none => simp [select, cell?, hrow, hcell]
    | some cell => cases cell <;> simp [select, cell?, hrow, hcell]

theorem select_eq_error {n : NonTerminal} {position : Nat} {l : Lookahead} {r : Rejection}
    (top : c.stack.top? = some (.nonterminal n)) (front : c.input.front? = some l)
    (h : t.select n l position = .error r) : t.Rejects position c r := by
  unfold select at h
  split at h
  · next hrow =>
    cases h
    exact .missingRow top hrow
  · next row hrow =>
    have hhas : t.hasRow n = true := by simp [hasRow, hrow]
    split at h
    · cases h
    · next hcell =>
      cases h
      exact .marked top front (by simp [cell?, hrow, hcell])
    · next hcell =>
      cases h
      exact .absent top hhas front (by simp [cell?, hrow, hcell])

theorem fromLookup_of_select {n : NonTerminal} {l : Lookahead} {position : Nat}
    {r : Rejection} (h : t.select n l position = .error r) : r.fromLookup = true := by
  unfold select at h
  split at h
  · cases h; rfl
  · split at h
    · cases h
    · cases h; rfl
    · cases h; rfl

theorem next_of_finished (h : c.Finished) : t.next c = .accepted := by
  simp [next, h.1, h.2, Symbol.isEndMarker, Lookahead.isEndMarker]

theorem next_of_move (h : t.Move c c') : t.next c = .moved c' := by
  cases h with
  | @expand s n below l p top front cell pushed =>
    have hs : c.stack.pop.2.pushAll p.expansion = s :=
      Stack.ext (by simp [Stack.symbols_pushAll, Stack.symbols_pop, top, pushed])
    simp [next, Stack.top?, top, front, select_eq_ok.mpr cell, hs]
  | @consume s a below more top front popped =>
    have hs : c.stack.pop.2 = s := Stack.ext (by simp [Stack.symbols_pop, top, popped])
    simp [next, Stack.top?, top, Input.front?, front, Symbol.isEndMarker, Symbol.accepts, hs,
      Input.advance]

theorem move_of_select {n : NonTerminal} {l : Lookahead} {p : Production}
    (top : c.stack.top? = some (.nonterminal n)) (front : c.input.front? = some l)
    (h : t.select n l c.input.position = .ok p) :
    t.Move c ⟨c.step + 1, c.stack.pop.2.pushAll p.expansion, c.input, some p⟩ := by
  obtain ⟨below, hs⟩ := List.head?_eq_some_iff.mp top
  have hpushed : (c.stack.pop.2.pushAll p.expansion).symbols = p.expansion ++ below := by
    simp [Stack.symbols_pushAll, Stack.symbols_pop, hs]
  exact .expand hs front (select_eq_ok.mp h) hpushed

theorem move_of_accepts {s : Symbol} {l : Lookahead} (top : c.stack.top? = some s)
    (front : c.input.front? = some l) (hs : s.isEndMarker = false) (h : s.accepts l = true) :
    t.Move c ⟨c.step + 1, c.stack.pop.2, c.input.advance, none⟩ := by
  cases Symbol.accepts_eq_true.mp h
  cases l with
  | endMarker => cases hs
  | terminal a =>
    obtain ⟨below, hb⟩ := List.head?_eq_some_iff.mp top
    obtain ⟨more, hm⟩ := List.head?_eq_some_iff.mp front
    have ha : c.input.advance = ⟨c.input.position + 1, more⟩ := by simp [Input.advance, hm]
    rw [ha]
    exact .consume hb hm (by simp [Stack.symbols_pop, hb])

theorem next_cases {s : Symbol} {l : Lookahead} (top : c.stack.top? = some s)
    (front : c.input.front? = some l) :
    c.Finished ∨ (∃ c', t.Move c c') ∨
      ∃ r, t.next c = .stuck r ∧ t.Rejects c.input.position c r := by
  cases hs : s.isNonterminal with
  | true =>
    obtain ⟨n, rfl⟩ : ∃ n, s = .nonterminal n := by
      cases s <;> simp_all [Symbol.isNonterminal]
    cases hsel : t.select n l c.input.position with
    | ok p => exact .inr (.inl ⟨_, move_of_select top front hsel⟩)
    | error r =>
      refine .inr (.inr ⟨r, ?_, select_eq_error top front hsel⟩)
      simp [next, top, front, hsel]
  | false =>
    have hn : t.next c =
        if s.isEndMarker && l.isEndMarker then .accepted
        else if s.accepts l then .moved ⟨c.step + 1, c.stack.pop.2, c.input.advance, none⟩
        else .stuck (.mismatch c.input.position s l) := by
      cases s with
      | nonterminal n => cases hs
      | terminal a => simp [next, top, front]
      | endMarker => simp [next, top, front]
      | epsilon => simp [next, top, front]
    by_cases hacc : s.accepts l = true
    · cases he : s.isEndMarker with
      | false => exact .inr (.inl ⟨_, move_of_accepts top front he hacc⟩)
      | true =>
        left
        cases s <;> simp [Symbol.isEndMarker] at he
        cases l <;> simp [Symbol.accepts] at hacc
        exact ⟨top, front⟩
    · refine .inr (.inr ⟨_, ?_, .mismatch top hs front⟩)
      have hboth : (s.isEndMarker && l.isEndMarker) = false := by
        cases s <;> cases l <;> simp_all [Symbol.isEndMarker, Lookahead.isEndMarker,
          Symbol.accepts]
      rw [hn, hboth]
      simp [hacc]

theorem next_of_rejects {r : Rejection} (hs : t.Stuck c)
    (h : t.Rejects c.input.position c r) : t.next c = .stuck r := by
  cases h with
  | missingRow top row => simp [next, top, select, row]
  | @absent n l top row front cell =>
    obtain ⟨row, hrow⟩ := Option.isSome_iff_exists.mp row
    have hcell : row.get? l = none := by simpa [cell?, hrow] using cell
    simp [next, top, front, select, hrow, hcell]
  | @marked n l top front cell =>
    obtain ⟨row, hrow, hcell⟩ := Option.bind_eq_some_iff.mp cell
    simp [next, top, front, select, hrow, hcell]
  | @mismatch s l top other front =>
    obtain hfin | ⟨c', hc'⟩ | ⟨r, hr, hrej⟩ := t.next_cases top front
    · exact absurd hfin hs.1
    · exact absurd hc' (hs.2 c')
    · cases hrej with
      | missingRow top' => cases top.symm.trans top'; cases other
      | absent top' => cases top.symm.trans top'; cases other
      | marked top' => cases top.symm.trans top'; cases other
      | mismatch top' other' front' =>
        cases top.symm.trans top'
        cases front.symm.trans front'
        exact hr

end Table

end Predictive
