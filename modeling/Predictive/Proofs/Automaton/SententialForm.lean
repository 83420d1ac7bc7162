import Predictive.Proofs.Automaton.Outcome
import Predictive.Proofs.Table.Proper

/-! The form that a configuration stands for: what was read and, behind it, the stack from its
top down. A match moves a token from one part to the other and leaves the form alone; an
expansion rewrites the nonterminal on top, which is the leftmost one of the form because
only terminals were read. The productions of an accepted run are therefore the leftmost
derivation of its input, and those recorded so far derive the form at hand. -/

namespace Predictive

open Predictive.Configuration

namespace Production

def rewrite (p : Production) : List Symbol → Option (List Symbol)
  | [] => none
  | .nonterminal n :: below => if n = p.left then some (p.expansion ++ below) else none
  | s :: rest => (p.rewrite rest).map (s :: ·)

def rewrites : List Production → List Symbol → Option (List Symbol)
  | [], form => some form
  | p :: ps, form => (p.rewrite form).bind (rewrites ps)

theorem rewrites_append (ps qs : List Production) (form : List Symbol) :
    rewrites (ps ++ qs) form = (rewrites ps form).bind (rewrites qs) := by
  induction ps generalizing form with
  | nil => rfl
  | cons p ps ih =>
    cases h : p.rewrite form with
    | none => simp [rewrites, h]
    | some form' => simp [rewrites, h, ih]

theorem rewrite_eq_some {p : Production} {form form' : List Symbol} :
    p.rewrite form = some form' ↔ ∃ before after, (∀ s ∈ before, s.isNonterminal = false) ∧
      form = before ++ .nonterminal p.left :: after ∧
      form' = before ++ (p.expansion ++ after) := by
  constructor
  · intro h
    fun_induction rewrite p form generalizing form' with
    | case1 => cases h
    | case2 below =>
      cases h
      exact ⟨[], below, by simp, rfl, rfl⟩
    | case3 => cases h
    | case4 s rest hs ih =>
      obtain ⟨rest', hrest, rfl⟩ := Option.map_eq_some_iff.mp h
      obtain ⟨before, after, hbefore, rfl, rfl⟩ := ih hrest
      have hs' : s.isNonterminal = false := by
        cases s with
        | nonterminal n => exact absurd rfl (hs n)
        | terminal | endMarker | epsilon => rfl
      refine ⟨s :: before, after, ?_, rfl, rfl⟩
      intro x hx
      rcases List.mem_cons.mp hx with rfl | hx
      · exact hs'
      · exact hbefore x hx
  · intro ⟨before, after, hbefore, hform, hform'⟩
    subst hform hform'
    induction before with
    | nil => simp [rewrite]
    | cons s before ih =>
      have hs := hbefore s List.mem_cons_self
      have hrest := ih fun x hx => hbefore x (List.mem_cons_of_mem s hx)
      cases s with
      | nonterminal n => cases hs
      | terminal | endMarker | epsilon => simp [rewrite, hrest]

theorem rewrite_read (p : Production) (read : List Terminal) (below : List Symbol) :
    p.rewrite (read.map .terminal ++ .nonterminal p.left :: below) =
      some (read.map .terminal ++ (p.expansion ++ below)) := by
  have hread : ∀ s ∈ read.map Symbol.terminal, s.isNonterminal = false := by
    intro s hs
    obtain ⟨a, -, rfl⟩ := List.mem_map.mp hs
    rfl
  exact rewrite_eq_some.mpr ⟨read.map .terminal, below, hread, rfl, rfl⟩

end Production

namespace Configuration

/-- The end marker at the bottom of the stack is left out. -/
def form (tokens : List Terminal) (c : Configuration) : List Symbol :=
  (tokens.take c.input.position).map .terminal ++ c.stack.symbols.dropLast

variable {c : Configuration} {upper : List Symbol} {read unread : List Terminal}

theorem At.form_eq (h : c.At upper read unread) :
    c.form (read ++ unread) = read.map .terminal ++ upper := by
  simp [form, h.input, h.stack, Input.after]

theorem At.stack_eq (h : c.At upper read unread) :
    c.stack.symbols = c.stack.symbols.dropLast ++ [.endMarker] := by
  simp [h.stack]

theorem At.unread_eq (h : c.At upper read unread) : c.input.unread =
    ((read ++ unread).drop c.input.position).map .terminal ++ [.endMarker] := by
  simp [h.input, Input.after]

end Configuration

namespace Table

variable {t : Table} {start : NonTerminal} {tokens : List Terminal} {c c' : Configuration}
  {upper : List Symbol} {read unread : List Terminal}

theorem Placed.form_of_move (ht : t.Placed) (h : t.Move c c') (hc : c.At upper read unread)
    (htokens : tokens = read ++ unread) :
    (∃ p, c'.applied = some p ∧ p.rewrite (c.form tokens) = some (c'.form tokens)) ∨
      c'.applied = none ∧ c'.form tokens = c.form tokens := by
  subst htokens
  obtain ⟨n, below, p, rfl, hcell, happ, hat⟩ | ⟨a, below, rest, rfl, rfl, happ, hat⟩ :=
    h.cases_at hc
  · left
    refine ⟨p, happ, ?_⟩
    have hleft : p.left = n := ht.left_eq n _ p hcell
    rw [hc.form_eq, hat.form_eq, ← hleft]
    exact p.rewrite_read read below
  · right
    have hform := hat.form_eq
    rw [List.append_assoc, List.singleton_append] at hform
    refine ⟨happ, ?_⟩
    rw [hform, hc.form_eq]
    simp

theorem Placed.last_at_nil (ht : t.Placed) {cs : Trace} (h : t.Accepts c cs)
    (hc : c.At upper read unread) (hend : .endMarker ∉ upper) {last : Configuration}
    (hlast : cs.getLast? = some last) : last.At [] (read ++ unread) [] := by
  induction h generalizing upper read unread with
  | stop hf =>
    cases hlast
    cases hc.unread_of_finished hf
    obtain rfl | ⟨below, rfl⟩ := hc.upper_of_finished hf
    · rwa [List.append_nil]
    · simp at hend
  | move hmove hrest ih =>
    obtain ⟨more, rfl⟩ := hrest.head
    rw [List.getLast?_cons_cons] at hlast
    obtain ⟨n, below, p, rfl, cell, -, hat⟩ | ⟨a, below, rest, rfl, rfl, -, hat⟩ :=
      hmove.cases_at hc
    · exact ih hat (ht.end_not_mem cell hend) hlast
    · have hlater := ih hat (fun hmem => hend (List.mem_cons_of_mem _ hmem)) hlast
      rwa [List.append_assoc] at hlater

section Traces

variable {cs : Trace} {i : Nat}

theorem Traces.move (h : t.Traces start tokens cs) (hi : cs[i]? = some c)
    (hi' : cs[i + 1]? = some c') : t.Move c c' :=
  rel_of_isChain h.moves hi hi'

theorem Traces.exists_before (h : t.Traces start tokens cs) (hi : cs[i + 1]? = some c') :
    ∃ c, cs[i]? = some c ∧ t.Move c c' := by
  obtain ⟨before, hbefore⟩ := exists_getElem?_pred hi
  exact ⟨before, hbefore, h.move hbefore hi⟩

theorem Traces.reaches (h : t.Traces start tokens cs) (hi : cs[i]? = some c) :
    t.Reaches start tokens c := by
  induction i generalizing c with
  | zero =>
    have hfirst := h.first
    rw [List.head?_eq_getElem?, hi] at hfirst
    cases hfirst
    exact .refl
  | succ i ih =>
    obtain ⟨before, hbefore, hmove⟩ := h.exists_before hi
    exact (ih hbefore).tail hmove

theorem Placed.form_of_adjacent (ht : t.Placed) (h : t.Traces start tokens cs)
    (hi : cs[i]? = some c) (hi' : cs[i + 1]? = some c') :
    (∃ p, c'.applied = some p ∧ p.rewrite (c.form tokens) = some (c'.form tokens)) ∨
      c'.applied = none ∧ c'.form tokens = c.form tokens := by
  obtain ⟨upper, read, unread, hat, htokens⟩ := (h.reaches hi).exists_at
  exact ht.form_of_move (h.move hi hi') hat htokens

theorem Placed.rewrites_form (ht : t.Placed) (h : t.Traces start tokens cs)
    (hi : cs[i]? = some c) :
    Production.rewrites (Trace.productions (cs.take (i + 1))) [.nonterminal start] =
      some (c.form tokens) := by
  induction i generalizing c with
  | zero =>
    obtain ⟨rest, rfl⟩ := List.head?_eq_some_iff.mp h.first
    cases hi
    have hform := (initial_at start tokens).form_eq
    rw [List.nil_append, List.map_nil, List.nil_append] at hform
    rw [hform]
    rfl
  | succ i ih =>
    obtain ⟨before, hbefore, -⟩ := h.exists_before hi
    have hform := ih hbefore
    rw [List.take_add_one, hi, Option.toList_some, Trace.productions, List.filterMap_append,
      Production.rewrites_append]
    rw [Trace.productions] at hform
    rw [hform, Option.bind_some]
    obtain ⟨p, happ, hrewrite⟩ | ⟨happ, hsame⟩ := ht.form_of_adjacent h hbefore hi
    · simp [happ, Production.rewrites, hrewrite]
    · simp [happ, Production.rewrites, hsame]

end Traces

/-- The run of an accepted input carries out its leftmost derivation, configuration by
configuration. -/
theorem Placed.leftmost_derivation (ht : t.Placed) {limit : Option Nat} {cs : Trace}
    (h : t.drive start tokens limit = some (.ok cs)) :
    (∀ i c, cs[i]? = some c →
      c.stack.symbols = c.stack.symbols.dropLast ++ [.endMarker] ∧
      c.input.unread = (tokens.drop c.input.position).map .terminal ++ [.endMarker] ∧
      Production.rewrites (Trace.productions (cs.take (i + 1))) [.nonterminal start] =
        some (c.form tokens)) ∧
    (∀ i c c', cs[i]? = some c → cs[i + 1]? = some c' →
      (∃ p, c'.applied = some p ∧ p.rewrite (c.form tokens) = some (c'.form tokens)) ∨
        c'.applied = none ∧ c'.form tokens = c.form tokens) ∧
    (∃ c, cs.getLast? = some c ∧ c.form tokens = tokens.map .terminal) ∧
    Production.rewrites cs.productions [.nonterminal start] = some (tokens.map .terminal) := by
  have haccepts := accepts_of_drive h
  have htraces := traces_iff_accepts.mpr haccepts
  obtain ⟨last, hlast, -⟩ := htraces.last
  have hform : last.form tokens = tokens.map .terminal := by
    have hat := ht.last_at_nil haccepts (initial_at start tokens) (by simp) hlast
    have hread := hat.form_eq
    rwa [List.append_nil, List.nil_append, List.append_nil] at hread
  refine ⟨?_, fun i c c' hi hi' => ht.form_of_adjacent htraces hi hi', ⟨last, hlast, hform⟩, ?_⟩
  · intro i c hi
    obtain ⟨upper, read, unread, hat, htokens⟩ := (htraces.reaches hi).exists_at
    subst htokens
    exact ⟨hat.stack_eq, hat.unread_eq, ht.rewrites_form htraces hi⟩
  · rw [List.getLast?_eq_getElem?] at hlast
    have hderives := ht.rewrites_form htraces hlast
    rwa [hform, List.take_of_length_le (by omega)] at hderives

end Table

namespace Arithmetic

def grouped : List Terminal :=
  [⟨"(", by decide, by decide, by decide⟩, ⟨"id", by decide, by decide, by decide⟩,
    ⟨")", by decide, by decide, by decide⟩]

theorem grouped_leftmost : table.Placed ∧ ∃ cs, table.drive start grouped none = some (.ok cs) ∧
    Production.rewrites cs.productions [.nonterminal start] = some (grouped.map .terminal) := by
  have hdrive : ∃ cs, table.drive start grouped none = some (.ok cs) := ⟨_, rfl⟩
  obtain ⟨cs, hcs⟩ := hdrive
  have hplaced : table.Placed := table_proper.placed
  exact ⟨hplaced, cs, hcs, (Table.Placed.leftmost_derivation hplaced hcs).2.2.2⟩

end Arithmetic

end Predictive
