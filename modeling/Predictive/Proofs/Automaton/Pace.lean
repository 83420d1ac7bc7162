import Mathlib.Data.List.Chain
import Predictive.Proofs.Automaton.Ceiling

/-! Runs that keep pace with their input. A pace says what may stand right below each symbol on
the stack, and gives each symbol a credit that stays under the moves granted for one token. A
table keeps the pace when every expansion puts up only what may stand there and leaves a symbol of
less credit on top, whatever lay below. The tokens still to be read and the credit of the top
then bound the moves still to come, so every run ends, a rejected one as well. -/

namespace Predictive

structure Pace where
  rate : Nat
  below : Symbol → List Symbol
  credit : Symbol → Nat
  credit_lt : ∀ s, credit s < rate
  one_lt_rate : 1 < rate

namespace Pace

def Stacked (a : Pace) (symbols : List Symbol) : Prop :=
  symbols.IsChain fun s s' => s' ∈ a.below s

instance (a : Pace) (symbols : List Symbol) : Decidable (a.Stacked symbols) :=
  inferInstanceAs (Decidable (symbols.IsChain _))

/-- Conditions on finitely many cells and symbols. Under the end marker the credit may not be
used up: no token is left to make good for it. -/
structure Holds (a : Pace) (t : Table) (start : NonTerminal) : Prop where
  start : .endMarker ∈ a.below (.nonterminal start)
  stacked : ∀ e ∈ t.cells, ∀ p ∈ e.2.2.production?, ∀ s ∈ a.below (.nonterminal e.1),
    a.Stacked (p.expansion ++ [s])
  cheaper : ∀ e ∈ t.cells, ∀ p ∈ e.2.2.production?, ∀ s ∈ a.below (.nonterminal e.1),
    a.credit (p.expansion.headD s) < a.credit (.nonterminal e.1)
  ending : ∀ e ∈ t.cells, ∀ p ∈ e.2.2.production?, ∀ s ∈ a.below (.nonterminal e.1),
    e.2.1 = .endMarker → 0 < a.credit (p.expansion.headD s)

def granted (a : Pace) (top : Symbol) (unread : List Terminal) : Nat :=
  a.rate * unread.length + a.credit top - 1

inductive Allows (a : Pace) : Configuration → Nat → Prop
  | intro {c : Configuration} {upper lower : List Symbol} {read unread : List Terminal}
      {top : Symbol} (hc : c.At upper read unread) (symbols : upper ++ [.endMarker] = top :: lower)
      (stacked : a.Stacked (top :: lower)) : Allows a c (a.granted top unread)

variable {a : Pace} {t : Table} {start : NonTerminal} {tokens : List Terminal}
  {c c' : Configuration} {k : Nat}

theorem granted_lt_of_cheaper {s s' : Symbol} {unread : List Terminal}
    (hcredit : a.credit s' < a.credit s) (hending : unread = [] → 0 < a.credit s') :
    a.granted s' unread < a.granted s unread := by
  have hpos : 0 < a.rate * unread.length + a.credit s' := by
    cases unread with
    | nil => exact Nat.add_pos_right _ (hending rfl)
    | cons b rest =>
      have hrate := a.one_lt_rate
      rw [List.length_cons, Nat.mul_succ]
      omega
  unfold granted
  omega

theorem granted_lt_of_read (a : Pace) (s s' : Symbol) (b : Terminal) (rest : List Terminal) :
    a.granted s' rest < a.granted s (b :: rest) := by
  have hcredit := a.credit_lt s'
  have hrate := a.one_lt_rate
  unfold granted
  rw [List.length_cons, Nat.mul_succ]
  omega

theorem Holds.stacked_expansion (h : a.Holds t start) {n : NonTerminal} {l : Lookahead}
    {p : Production} (hcell : t.cell? n l = some (.production p)) {s : Symbol}
    {lower : List Symbol} (hstacked : a.Stacked (.nonterminal n :: s :: lower)) :
    s ∈ a.below (.nonterminal n) ∧ a.Stacked (p.expansion ++ s :: lower) := by
  obtain ⟨hs, hlower⟩ := List.isChain_cons_cons.mp hstacked
  have hexpansion := h.stacked _ (Table.mem_cells.mpr hcell) p rfl s hs
  have happend := List.IsChain.append_overlap hexpansion hlower (List.cons_ne_nil s [])
  rw [List.append_assoc] at happend
  exact ⟨hs, happend⟩

theorem append_cons_eq_headD (symbols lower : List Symbol) (s : Symbol) :
    ∃ lower', symbols ++ s :: lower = symbols.headD s :: lower' := by
  cases symbols with
  | nil => exact ⟨lower, rfl⟩
  | cons x rest => exact ⟨rest ++ s :: lower, rfl⟩

theorem Holds.allows_of_move (h : a.Holds t start) (hc : a.Allows c k) (hmove : t.Move c c') :
    ∃ k' < k, a.Allows c' k' := by
  cases hc with
  | @intro upper lower read unread top hat symbols stacked =>
    obtain ⟨n, below, p, rfl, hcell, -, hat'⟩ | ⟨b, below, rest, rfl, rfl, -, hat'⟩ :=
      hmove.cases_at hat
    -- After an expansion of nothing the symbol below is on top, and it has to be cheaper too.
    · obtain ⟨more, hbelow⟩ := append_cons_eq_headD below [] .endMarker
      rw [List.cons_append, hbelow] at symbols
      obtain ⟨rfl, rfl⟩ := List.cons.inj symbols
      obtain ⟨hs, hstacked⟩ := h.stacked_expansion hcell stacked
      obtain ⟨lower, hlower⟩ := append_cons_eq_headD p.expansion more (below.headD .endMarker)
      have hcheaper := h.cheaper _ (Table.mem_cells.mpr hcell) p rfl _ hs
      have hending : unread = [] → 0 < a.credit (p.expansion.headD (below.headD .endMarker)) := by
        rintro rfl
        exact h.ending _ (Table.mem_cells.mpr hcell) p rfl _ hs rfl
      have hsymbols : (p.expansion ++ below) ++ [.endMarker] =
          p.expansion.headD (below.headD .endMarker) :: lower := by
        rw [List.append_assoc, hbelow, hlower]
      exact ⟨_, granted_lt_of_cheaper hcheaper hending, .intro hat' hsymbols (hlower ▸ hstacked)⟩
    · obtain ⟨more, hbelow⟩ := append_cons_eq_headD below [] .endMarker
      rw [List.cons_append, hbelow] at symbols
      obtain ⟨rfl, rfl⟩ := List.cons.inj symbols
      exact ⟨_, a.granted_lt_of_read _ _ b rest, .intro hat' hbelow stacked.tail⟩

theorem Holds.initial (h : a.Holds t start) (tokens : List Terminal) :
    a.Allows (.initial start tokens) (a.granted (.nonterminal start) tokens) := by
  have hstacked : a.Stacked [.nonterminal start, .endMarker] := List.isChain_pair.mpr h.start
  exact .intro (Configuration.initial_at start tokens) rfl hstacked

theorem Holds.exists_executes (h : a.Holds t start) (hc : a.Allows c k) :
    ∃ trace rejection, t.Executes none c trace rejection ∧ trace.length ≤ k + 1 := by
  induction k using Nat.strongRecOn generalizing c with
  | ind k ih =>
    cases hnext : t.next c with
    | accepted => exact ⟨[c], none, .accepted hnext, Nat.le_add_left 1 k⟩
    | stuck r => exact ⟨[c], some r, .stuck hnext, Nat.le_add_left 1 k⟩
    | moved c' =>
      have hmove : t.Move c c' := by
        cases hc with
        | intro hat => exact Table.move_of_next hat hnext
      obtain ⟨k', hlt, hc'⟩ := h.allows_of_move hc hmove
      obtain ⟨trace, rejection, hexec, hlength⟩ := ih k' hlt hc'
      refine ⟨c :: trace, rejection, .moved hnext rfl hexec, ?_⟩
      rw [List.length_cons]
      omega

theorem Holds.run_in_time (h : a.Holds t start) (tokens : List Terminal) :
    ∃ r, t.run start tokens none = some r ∧
      r.trace.length ≤ a.granted (.nonterminal start) tokens + 1 := by
  obtain ⟨trace, rejection, hexec, hlength⟩ := h.exists_executes (h.initial tokens)
  exact ⟨⟨trace, rejection⟩, Table.run_eq_some_iff.mpr hexec, hlength⟩

end Pace

end Predictive
