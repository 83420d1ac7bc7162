import Predictive.Proofs.Automaton.MoveBound
import Predictive.Proofs.Grammar.Complete

/-! Checking a table against its grammar. An analysis lists the nonterminals that can vanish
and what each nonterminal can begin with and be followed by. When no rule leads out of these
lists, they bound the derivations of the grammar, so that a table is complete as soon as
each rule stands under the finitely many lookaheads that the lists name for it. -/

namespace Predictive

structure Analysis where
  vanishing : List NonTerminal
  first : NonTerminal → List Lookahead
  follow : NonTerminal → List Lookahead

namespace Analysis

def vanishes (a : Analysis) : List Symbol → Bool
  | [] => true
  | .nonterminal n :: rest => decide (n ∈ a.vanishing) && a.vanishes rest
  | _ :: _ => false

def begins (a : Analysis) : List Symbol → List Lookahead
  | .nonterminal n :: rest => a.first n ++ if n ∈ a.vanishing then a.begins rest else []
  | .terminal b :: _ => [.terminal b]
  | .endMarker :: _ => [.endMarker]
  | _ => []

def after (a : Analysis) (left : NonTerminal) : List Symbol → List (NonTerminal × Lookahead)
  | [] => []
  | .nonterminal n :: rest =>
    (a.begins rest ++ if a.vanishes rest then a.follow left else []).map (n, ·) ++
      a.after left rest
  | _ :: rest => a.after left rest

structure Covers (a : Analysis) (g : Grammar) (start : NonTerminal) : Prop where
  vanishing : ∀ p ∈ g.rules, a.vanishes p.expansion = true → p.left ∈ a.vanishing
  first : ∀ p ∈ g.rules, ∀ l ∈ a.begins p.expansion, l ∈ a.first p.left
  follow : ∀ p ∈ g.rules, ∀ e ∈ a.after p.left p.expansion, e.2 ∈ a.follow e.1
  start : .endMarker ∈ a.follow start

variable {a : Analysis} {g : Grammar} {start n : NonTerminal} {l : Lookahead}
  {u v : List Symbol}

theorem vanishes_append : a.vanishes (u ++ v) = (a.vanishes u && a.vanishes v) := by
  induction u with
  | nil => simp [vanishes]
  | cons s u ih => cases s <;> simp [vanishes, ih, Bool.and_assoc]

theorem mem_begins_append :
    l ∈ a.begins (u ++ v) ↔ l ∈ a.begins u ∨ a.vanishes u = true ∧ l ∈ a.begins v := by
  induction u with
  | nil => simp [begins, vanishes]
  | cons s u ih =>
    cases s with
    | nonterminal n =>
      by_cases hn : n ∈ a.vanishing
      · simp [begins, vanishes, hn, ih, or_assoc]
      · simp [begins, vanishes, hn]
    | terminal | endMarker | epsilon => simp [begins, vanishes]

theorem mem_begins_cons (l : Lookahead) (rest : List Symbol) :
    l ∈ a.begins (l.toSymbol :: rest) := by
  cases l <;> simp [begins, Lookahead.toSymbol]

theorem mem_after {left : NonTerminal} {form before rest : List Symbol}
    (he : form = before ++ .nonterminal n :: rest)
    (hl : l ∈ a.begins rest ∨ a.vanishes rest = true ∧ l ∈ a.follow left) :
    (n, l) ∈ a.after left form := by
  subst he
  induction before with
  | nil =>
    refine List.mem_append_left _ (List.mem_map.mpr ⟨l, List.mem_append.mpr ?_, rfl⟩)
    refine hl.imp_right fun h => ?_
    rw [if_pos h.1]
    exact h.2
  | cons s before ih =>
    cases s with
    | nonterminal m => exact List.mem_append_right _ ih
    | terminal | endMarker | epsilon => exact ih

namespace Covers

variable (ha : a.Covers g start)
include ha

theorem vanishes_of_produces (h : g.Produces u v) (hv : a.vanishes v = true) :
    a.vanishes u = true := by
  cases h with
  | @intro p rule before after =>
    rw [vanishes_append, vanishes_append, Bool.and_eq_true, Bool.and_eq_true] at hv
    obtain ⟨⟨hbefore, hp⟩, hafter⟩ := hv
    have hleft : p.left ∈ a.vanishing := ha.vanishing p rule hp
    simp [vanishes_append, vanishes, hbefore, hafter, hleft]

theorem vanishes_of_nullable (h : g.Nullable u) : a.vanishes u = true := by
  induction h using Relation.ReflTransGen.head_induction_on with
  | refl => rfl
  | head hstep _ ih => exact ha.vanishes_of_produces hstep ih

theorem mem_begins_of_produces (h : g.Produces u v) (hv : l ∈ a.begins v) :
    l ∈ a.begins u := by
  cases h with
  | @intro p rule before after =>
    rw [List.append_assoc, mem_begins_append] at hv
    refine mem_begins_append.mpr (hv.imp_right fun h => ⟨h.1, ?_⟩)
    rw [begins, List.mem_append]
    obtain hp | ⟨hp, hafter⟩ := mem_begins_append.mp h.2
    · exact .inl (ha.first p rule l hp)
    · rw [if_pos (ha.vanishing p rule hp)]
      exact .inr hafter

theorem mem_begins_of_first (h : g.First u l) : l ∈ a.begins u := by
  obtain ⟨rest, h⟩ := h
  induction h using Relation.ReflTransGen.head_induction_on with
  | refl => exact mem_begins_cons l rest
  | head hstep _ ih => exact ha.mem_begins_of_produces hstep ih

theorem mem_follow_of_follow (h : g.Follow start n l) : l ∈ a.follow n := by
  have hclosed : g.Closed fun m k => k ∈ a.follow m := by
    intro p hp before m rest he k hk
    refine ha.follow p hp (m, k) (mem_after he ?_)
    obtain hfirst | ⟨hnull, hleft⟩ := hk
    · exact .inl (ha.mem_begins_of_first hfirst)
    · exact .inr ⟨ha.vanishes_of_nullable hnull, hleft⟩
  exact Grammar.follow_of_closed ha.start hclosed h

theorem completeFor {t : Table}
    (hcells : ∀ e ∈ t.cells, ∀ p ∈ e.2.2.production?, p ∈ g.rules ∧ p.left = e.1)
    (hfirst : ∀ p ∈ g.rules, ∀ l ∈ a.begins p.expansion,
      t.cell? p.left l = some (.production p))
    (hfollow : ∀ p ∈ g.rules, a.vanishes p.expansion = true → ∀ l ∈ a.follow p.left,
      t.cell? p.left l = some (.production p)) : t.CompleteFor g start where
  cells n l p hcell := hcells (n, l, .production p) (Table.mem_cells.mpr hcell) p rfl
  first p hp l h := hfirst p hp l (ha.mem_begins_of_first h)
  follow p hp l hnull h :=
    hfollow p hp (ha.vanishes_of_nullable hnull) l (ha.mem_follow_of_follow h)

end Covers

end Analysis

end Predictive
