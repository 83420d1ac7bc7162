import Predictive.Proofs.Automaton.ErrorPosition
import Predictive.Proofs.Grammar.Complete

/-! Where a complete table notices an error. As long as every symbol that a rule can put onto
the stack derives some word, each stack that the automaton reaches can still be used up, so
that what was read is the beginning of an accepted input. A run that fails has therefore
read as much of its input as can be continued, and nothing beyond: an expansion made under a
wrong lookahead does not move the position. -/

namespace Predictive

open Predictive.Configuration

def Table.Recognizes (t : Table) (start : NonTerminal) (tokens : List Terminal) : Prop :=
  ∃ cs, t.drive start tokens none = some (.ok cs)

namespace Grammar

def Productive (g : Grammar) (s : Symbol) : Prop := ∃ word, g.Reads [s] word

structure AllProductive (g : Grammar) (start : NonTerminal) : Prop where
  start : g.Productive (.nonterminal start)
  rules : ∀ p ∈ g.rules, ∀ s ∈ p.expansion, g.Productive s

variable {g : Grammar} {form : List Symbol}

theorem exists_reads (h : ∀ s ∈ form, g.Productive s) : ∃ word, g.Reads form word := by
  induction form with
  | nil => exact ⟨[], .nil⟩
  | cons s form ih =>
    obtain ⟨first, hfirst⟩ := h s List.mem_cons_self
    obtain ⟨word, hword⟩ := ih fun x hx => h x (List.mem_cons_of_mem s hx)
    exact ⟨first ++ word, hfirst.append hword⟩

def settles (ps : List Production) : Symbol → Bool
  | .terminal _ => true
  | .nonterminal n => ps.any fun p => p.left = n
  | _ => false

/-- Each production expands to symbols that the ones behind it settle. -/
def grounded : List Production → Bool
  | [] => true
  | p :: ps => p.expansion.all (settles ps) && grounded ps

theorem productive_of_settles {ps : List Production} (hrules : ∀ p ∈ ps, p ∈ g.rules)
    (hps : grounded ps = true) {s : Symbol} (hs : settles ps s = true) : g.Productive s := by
  induction ps generalizing s with
  | nil =>
    cases s with
    | terminal a => exact ⟨[a], .terminal a .nil⟩
    | nonterminal | endMarker | epsilon => simp [settles] at hs
  | cons p ps ih =>
    rw [grounded, Bool.and_eq_true, List.all_eq_true] at hps
    have hbehind : ∀ x, settles ps x = true → g.Productive x := fun x hx =>
      ih (fun q hq => hrules q (List.mem_cons_of_mem p hq)) hps.2 hx
    cases s with
    | terminal a => exact ⟨[a], .terminal a .nil⟩
    | nonterminal n =>
      by_cases hn : p.left = n
      · obtain ⟨word, hword⟩ := exists_reads fun x hx => hbehind x (hps.1 x hx)
        subst hn
        exact ⟨word, .rule (hrules p List.mem_cons_self) (by simpa using hword)⟩
      · apply hbehind
        simpa [settles, hn] using hs
    | endMarker | epsilon => cases hs

theorem allProductive_of_grounded {start : NonTerminal} {ps : List Production}
    (hrules : ∀ p ∈ ps, p ∈ g.rules) (hps : grounded ps = true)
    (hstart : settles ps (.nonterminal start) = true)
    (huse : ∀ p ∈ g.rules, ∀ s ∈ p.expansion, settles ps s = true) : g.AllProductive start where
  start := productive_of_settles hrules hps hstart
  rules p hp s hs := productive_of_settles hrules hps (huse p hp s hs)

end Grammar

theorem Rejection.eq_of_position {e : Rejection} {p : Nat} {l : Lookahead}
    (hp : e.position? = some p) (hl : e.lookahead? = some l) :
    (∃ s, e = .mismatch p s l) ∨ ∃ n hole, e = .noEntry p n l hole := by
  cases e with
  | mismatch position s found =>
    cases hp
    cases hl
    exact .inl ⟨s, rfl⟩
  | noEntry position n found hole =>
    cases hp
    cases hl
    exact .inr ⟨n, hole, rfl⟩
  | missingRow | stepLimit => cases hp

namespace Table

variable {t : Table} {g : Grammar} {start : NonTerminal} {tokens : List Terminal}
  {c : Configuration} {upper below : List Symbol} {read unread : List Terminal} {e : Rejection}

theorem CompleteFor.exists_form (ht : t.CompleteFor g start) (hg : g.AllProductive start)
    (h : t.Reaches start tokens c) :
    ∃ upper read unread, c.At upper read unread ∧ tokens = read ++ unread ∧
      g.Derives [.nonterminal start] (read.map .terminal ++ upper) ∧
      ∀ s ∈ upper, g.Productive s := by
  induction h with
  | refl =>
    refine ⟨_, [], tokens, initial_at start tokens, rfl, .refl, fun s hs => ?_⟩
    rw [List.mem_singleton.mp hs]
    exact hg.start
  | tail _ hmove ih =>
    obtain ⟨upper, read, unread, hat, htokens, hderives, hproductive⟩ := ih
    obtain ⟨n, below, p, rfl, hcell, -, hat'⟩ | ⟨a, below, rest, rfl, rfl, -, hat'⟩ :=
      hmove.cases_at hat
    · obtain ⟨hp, rfl⟩ := ht.cells n _ p hcell
      have hstep := (Grammar.derives_rule hp below).prepend (read.map .terminal)
      refine ⟨_, read, unread, hat', htokens, hderives.trans hstep, fun s hs => ?_⟩
      rcases List.mem_append.mp hs with hs | hs
      · exact hg.rules p hp s hs
      · exact hproductive s (List.mem_cons_of_mem _ hs)
    · refine ⟨below, read ++ [a], rest, hat', by simp [htokens], by simpa using hderives, ?_⟩
      exact fun s hs => hproductive s (List.mem_cons_of_mem _ hs)

theorem CompleteFor.recognizes_of_derives (ht : t.CompleteFor g start)
    (h : g.Derives [.nonterminal start] (tokens.map .terminal)) : t.Recognizes start tokens := by
  have hreads := Grammar.reads_of_derives h
  obtain ⟨cs, hcs⟩ := accepts_of_reads ht hreads (initial_at start tokens) .refl
  exact ⟨cs, drive_of_accepts hcs⟩

/-- What was read together with a stack of productive symbols can be completed. -/
theorem CompleteFor.recognizes_append (ht : t.CompleteFor g start)
    (hderives : g.Derives [.nonterminal start] (read.map .terminal ++ upper))
    (hproductive : ∀ s ∈ upper, g.Productive s) : ∃ more, t.Recognizes start (read ++ more) := by
  obtain ⟨more, hmore⟩ := Grammar.exists_reads hproductive
  have hword := hderives.trans (hmore.derives.prepend (read.map .terminal))
  rw [← List.map_append] at hword
  exact ⟨more, ht.recognizes_of_derives hword⟩

theorem CompleteFor.row_of_productive (ht : t.CompleteFor g start) {n : NonTerminal}
    (hderives : g.Derives [.nonterminal start] (read.map .terminal ++ .nonterminal n :: below))
    (hproductive : ∀ s ∈ .nonterminal n :: below, g.Productive s) : t.row? n ≠ none := by
  obtain ⟨word, hword⟩ := Grammar.exists_reads hproductive
  have hform := hderives.append [] [.endMarker]
  cases hword with
  | @rule p hp below word rest =>
    have hcell := ht.cell?_first hp rest (by simpa using hform)
    obtain ⟨row, hrow, -⟩ := Option.bind_eq_some_iff.mp hcell
    simp [hrow]

theorem CompleteFor.position_of_error (ht : t.CompleteFor g start) (hg : g.AllProductive start)
    (h : t.drive start tokens none = some (.error e)) :
    ∃ read unread, tokens = read ++ unread ∧ e.position? = some read.length ∧
      ∃ more, t.Recognizes start (read ++ more) := by
  obtain ⟨trace, hexec⟩ := drive_eq_error_iff.mp h
  obtain ⟨c, hreach, -, hend⟩ := hexec.reaches_end (initial_at start tokens)
  obtain ⟨upper, read, unread, hat, htokens, hderives, hproductive⟩ := ht.exists_form hg hreach
  obtain ⟨-, hrejects⟩ := rejects_of_next hat (hend e rfl)
  refine ⟨read, unread, htokens, ?_, ht.recognizes_append hderives hproductive⟩
  cases hrejects with
  | missingRow top hrow =>
    cases upper with
    | nil => simp [Stack.top?, hat.stack] at top
    | cons s below =>
      cases hat.top_cons.symm.trans top
      exact absurd hrow (ht.row_of_productive hderives hproductive)
  | absent | marked | mismatch => rfl

theorem not_recognizes_of_error (h : t.drive start tokens none = some (.error e)) :
    ¬ t.Recognizes start tokens := by
  intro ⟨cs, hcs⟩
  rw [h] at hcs
  cases hcs

theorem not_recognizes_of_prefix (h : t.drive start tokens none = some (.error e)) {p : Nat}
    (hp : e.position? = some p) (hlt : p < tokens.length) {word : List Terminal}
    (hword : tokens.take (p + 1) <+: word) : ¬ t.Recognizes start word := by
  obtain ⟨mid, rest, rfl, rfl, -, hsame⟩ := drive_error_split h hp
  cases rest with
  | nil => simp at hlt
  | cons a rest =>
    rw [List.take_length_add_append, List.take_succ_cons, List.take_zero] at hword
    obtain ⟨more, rfl⟩ := hword
    rw [List.append_assoc]
    exact not_recognizes_of_error (hsame ([a] ++ more) rfl)

theorem lookahead_of_error_at_end (h : t.drive start tokens none = some (.error e))
    (hp : e.position? = some tokens.length) : e.lookahead? = some .endMarker := by
  obtain ⟨mid, rest, htokens, hlen, hlook, -⟩ := drive_error_split h hp
  rw [htokens, List.length_append] at hlen
  have hrest : rest = [] := List.length_eq_zero_iff.mp (by omega)
  rw [hlook, hrest, Lookahead.first]

/-- A complete table over productive symbols reports an error where its input stops being the
beginning of an accepted one. -/
theorem CompleteFor.error_at_boundary (ht : t.CompleteFor g start) (hg : g.AllProductive start)
    (h : t.drive start tokens none = some (.error e)) :
    ∃ p l, ((∃ s, e = .mismatch p s l) ∨ ∃ n hole, e = .noEntry p n l hole) ∧
      p ≤ tokens.length ∧
      (∃ word, tokens.take p <+: word ∧ t.Recognizes start word) ∧
      (p < tokens.length ∧
          (∀ word, tokens.take (p + 1) <+: word → ¬ t.Recognizes start word) ∨
        p = tokens.length ∧ l = .endMarker ∧ ¬ t.Recognizes start tokens) := by
  obtain ⟨read, unread, htokens, hp, more, hmore⟩ := ht.position_of_error hg h
  obtain ⟨_, _, -, -, hlook, -⟩ := drive_error_split h hp
  have hlen : tokens.length = read.length + unread.length := by simp [htokens]
  have htake : tokens.take read.length = read := by simp [htokens]
  refine ⟨read.length, _, Rejection.eq_of_position hp hlook, by omega, ?_, ?_⟩
  · rw [htake]
    exact ⟨read ++ more, List.prefix_append read more, hmore⟩
  · by_cases hlt : read.length < tokens.length
    · exact .inl ⟨hlt, fun word => not_recognizes_of_prefix h hp hlt⟩
    · have hend : read.length = tokens.length := by omega
      have hlast := lookahead_of_error_at_end h (hend ▸ hp)
      exact .inr ⟨hend, Option.some.inj (hlook.symm.trans hlast), not_recognizes_of_error h⟩

end Table

end Predictive
