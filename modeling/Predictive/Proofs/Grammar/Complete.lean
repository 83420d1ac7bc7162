import Predictive.Proofs.Automaton.Outcome
import Predictive.Proofs.Grammar.FirstFollow

/-! Tables that are complete for a grammar: each rule stands under every lookahead that can
begin what it expands to, and under every lookahead that can come after it when it can
vanish. Such a table accepts the words of the grammar and no others. What was read and the
stack together are a form that the start symbol derives, so the lookahead always selects
the rule of the word's leftmost derivation. -/

namespace Predictive

open Predictive.Configuration

/-- Every production of the table is a rule in its own row, and every rule stands under the
lookaheads that can begin it or, where it can vanish, follow it. -/
structure Table.CompleteFor (t : Table) (g : Grammar) (start : NonTerminal) : Prop where
  cells : ∀ n l p, t.cell? n l = some (.production p) → p ∈ g.rules ∧ p.left = n
  first : ∀ p ∈ g.rules, ∀ l, g.First p.expansion l → t.cell? p.left l = some (.production p)
  follow : ∀ p ∈ g.rules, ∀ l, g.Nullable p.expansion → g.Follow start p.left l →
    t.cell? p.left l = some (.production p)

namespace Table

variable {t : Table} {g : Grammar} {start : NonTerminal} {c : Configuration}
  {upper : List Symbol} {read unread tokens : List Terminal}

theorem CompleteFor.proper (ht : t.CompleteFor g start) : t.Proper :=
  .of_cells fun n l p hcell =>
    ⟨(ht.cells n l p hcell).2, g.proper p (ht.cells n l p hcell).1⟩

theorem CompleteFor.cell?_first (ht : t.CompleteFor g start) {p : Production}
    (hp : p ∈ g.rules) {before below : List Symbol} (h : g.Reads (p.expansion ++ below) unread)
    (hform : g.Derives [.nonterminal start, .endMarker]
      (before ++ (.nonterminal p.left :: below ++ [.endMarker]))) :
    t.cell? p.left (.first unread) = some (.production p) := by
  have hfirst := h.first
  rw [List.append_assoc] at hfirst
  obtain hfirst | ⟨hnull, after, hafter⟩ := Grammar.first_append hfirst
  · exact ht.first p hp _ hfirst
  · refine ht.follow p hp _ hnull ⟨before, after, hform.trans ?_⟩
    exact (Grammar.Derives.cons hafter (.nonterminal p.left)).prepend before

theorem reads_of_accepts (ht : t.CompleteFor g start) {cs : Trace} (h : t.Accepts c cs)
    (hc : c.At upper read unread) (hend : .endMarker ∉ upper) : g.Reads upper unread := by
  induction h generalizing upper read unread with
  | stop hf =>
    cases hc.unread_of_finished hf
    obtain rfl | ⟨below, rfl⟩ := hc.upper_of_finished hf
    · exact .nil
    · simp at hend
  | move hmove _ ih =>
    obtain ⟨n, below, p, rfl, hcell, -, hat⟩ | ⟨a, below, rest, rfl, rfl, -, hat⟩ :=
      hmove.cases_at hc
    · obtain ⟨hp, rfl⟩ := ht.cells n _ p hcell
      exact .rule hp (ih hat (ht.proper.placed.end_not_mem hcell hend))
    · exact .terminal a (ih hat fun hmem => hend (List.mem_cons_of_mem _ hmem))

theorem accepts_of_reads (ht : t.CompleteFor g start) (h : g.Reads upper unread)
    (hc : c.At upper read unread)
    (hform : g.Derives [.nonterminal start, .endMarker]
      (read.map .terminal ++ (upper ++ [.endMarker]))) : ∃ cs, t.Accepts c cs := by
  induction h generalizing c read with
  | nil => exact ⟨[c], .stop hc.finished_nil⟩
  | @terminal a below word rest ih =>
    obtain ⟨c', hmove, hat⟩ := move_consume hc
    obtain ⟨cs, haccepts⟩ := ih hat (by simpa using hform)
    exact ⟨c :: cs, .move hmove haccepts⟩
  | @rule p hp below word rest ih =>
    obtain ⟨c', hmove, hat⟩ := move_expand hc (ht.cell?_first hp rest hform)
    have hstep := (Grammar.derives_rule hp (below ++ [.endMarker])).prepend (read.map .terminal)
    obtain ⟨cs, haccepts⟩ := ih hat (hform.trans (by simpa using hstep))
    exact ⟨c :: cs, .move hmove haccepts⟩

theorem drive_ok_iff_derives (ht : t.CompleteFor g start) (tokens : List Terminal) :
    (∃ cs, t.drive start tokens none = some (.ok cs)) ↔
      g.Derives [.nonterminal start] (tokens.map .terminal) := by
  rw [← Grammar.reads_iff_derives]
  constructor
  · intro h
    obtain ⟨cs, hcs⟩ := h
    exact reads_of_accepts ht (accepts_of_drive hcs) (initial_at start tokens) (by simp)
  · intro h
    obtain ⟨cs, hcs⟩ := accepts_of_reads ht h (initial_at start tokens) .refl
    exact ⟨cs, drive_of_accepts hcs⟩

end Table

namespace Letters

theorem proper_more : more.Proper where
  right_ne_nil := List.cons_ne_nil _ _
  no_empty_text := by decide
  no_end_marker := by decide
  epsilon_alone := by simp [more]

def grammar : Grammar where
  rules := [more, .empty word]
  proper := by
    intro p hp
    rcases List.mem_pair.mp hp with rfl | rfl
    · exact proper_more
    · exact Production.proper_empty word

theorem not_nullable_more : ¬ grammar.Nullable more.expansion :=
  Grammar.not_nullable_cons (by simp)

theorem first_more {l : Lookahead} (h : grammar.First more.expansion l) :
    l = .terminal letter := by
  have hl : l.toSymbol = .terminal letter := Grammar.first_cons (by simp) h
  cases l with
  | endMarker => cases hl
  | terminal a =>
    cases hl
    rfl

theorem after_more {before after : List Symbol} {m : NonTerminal}
    (h : more.expansion = before ++ .nonterminal m :: after) : after = [] := by
  rw [show more.expansion = [.terminal letter, .nonterminal word] from rfl] at h
  cases before with
  | nil => cases h
  | cons s before =>
    cases before with
    | nil =>
      cases h
      rfl
    | cons s' before => simp at h

theorem closed_endMarker : grammar.Closed fun _ l => l = .endMarker := by
  intro p hp before m after he l hl
  rcases List.mem_pair.mp hp with rfl | rfl
  · have hafter : after = [] := after_more he
    rw [hafter] at hl
    obtain hfirst | ⟨-, hend⟩ := hl
    · exact absurd hfirst Grammar.not_first_nil
    · exact hend
  · simp [Production.expansion_empty] at he

theorem table_completeFor : (table (.empty word)).CompleteFor grammar word where
  cells n l p hcell := by
    obtain ⟨rfl, ⟨-, rfl⟩ | ⟨-, rfl⟩⟩ := cell?_table hcell
    · exact ⟨by simp [grammar], rfl⟩
    · exact ⟨by simp [grammar], rfl⟩
  first p hp l h := by
    rcases List.mem_pair.mp hp with rfl | rfl
    · rw [first_more h]
      rfl
    · exact absurd h Grammar.not_first_nil
  follow p hp l hnull h := by
    rcases List.mem_pair.mp hp with rfl | rfl
    · exact absurd hnull not_nullable_more
    · rw [Grammar.follow_of_closed rfl closed_endMarker h]
      rfl

theorem derives_two_letters :
    grammar.Derives [.nonterminal word] ([letter, letter].map .terminal) := by
  have hmore : more ∈ grammar.rules := by simp [grammar]
  have hlast : .empty word ∈ grammar.rules := by simp [grammar]
  apply Grammar.Reads.derives
  exact .rule hmore (.terminal letter (.rule hmore (.terminal letter (.rule hlast .nil))))

theorem drive_two_letters : (table (.empty word)).CompleteFor grammar word ∧
    ∃ cs, (table (.empty word)).drive word [letter, letter] none = some (.ok cs) :=
  ⟨table_completeFor,
    (Table.drive_ok_iff_derives table_completeFor [letter, letter]).mpr derives_two_letters⟩

end Letters

end Predictive
