import Predictive.Proofs.Automaton.Acceptance
import Predictive.Proofs.Grammar.Derivability

/-! What a form can begin with and what can come after a nonterminal. Both are defined by the
forms that are derived; `Grammar.follow_of_closed` bounds the second by any relation that
the rules of the grammar do not lead out of. -/

namespace Predictive

open Relation

namespace Grammar

def Nullable (g : Grammar) (form : List Symbol) : Prop := g.Derives form []

def First (g : Grammar) (form : List Symbol) (l : Lookahead) : Prop :=
  ∃ rest, g.Derives form (l.toSymbol :: rest)

/-- The lookahead comes right after the nonterminal in a form derived from the start symbol and
the end marker. -/
def Follow (g : Grammar) (start n : NonTerminal) (l : Lookahead) : Prop :=
  ∃ before after, g.Derives [.nonterminal start, .endMarker]
    (before ++ .nonterminal n :: l.toSymbol :: after)

variable {g : Grammar} {start n : NonTerminal} {l : Lookahead} {u v : List Symbol}
  {word : List Terminal}

theorem first_of_derives (h : g.Derives u v) (hv : g.First v l) : g.First u l := by
  obtain ⟨rest, hrest⟩ := hv
  exact ⟨rest, h.trans hrest⟩

theorem not_first_nil : ¬ g.First [] l := by
  intro h
  obtain ⟨rest, h⟩ := h
  cases derives_nil h

theorem first_append (h : g.First (u ++ v) l) :
    g.First u l ∨ g.Nullable u ∧ g.First v l := by
  obtain ⟨rest, h⟩ := h
  obtain ⟨u', v', he, hu, hv⟩ := Derives.append_split h
  cases u' with
  | nil =>
    rw [List.nil_append] at he
    exact .inr ⟨hu, rest, he ▸ hv⟩
  | cons s u' =>
    cases he
    exact .inl ⟨u', hu⟩

theorem first_cons {s : Symbol} (hs : ∀ n, s ≠ .nonterminal n) (h : g.First (s :: u) l) :
    l.toSymbol = s := by
  obtain ⟨rest, h⟩ | ⟨hnull, -⟩ := first_append (u := [s]) h
  · cases derives_singleton hs h
    rfl
  · cases derives_singleton hs hnull

theorem not_nullable_cons {s : Symbol} (hs : ∀ n, s ≠ .nonterminal n) :
    ¬ g.Nullable (s :: u) := by
  intro h
  obtain ⟨u', v', he, hu, -⟩ := Derives.append_split (u := [s]) h
  cases derives_singleton hs hu
  cases he

theorem Reads.first (h : g.Reads u word) : g.First (u ++ [.endMarker]) (.first word) := by
  have hd := Derives.append h.derives [] [.endMarker]
  cases word with
  | nil => exact ⟨[], hd⟩
  | cons a word => exact ⟨_, hd⟩

section Closed

variable {F : NonTerminal → Lookahead → Prop}

def Bounded (g : Grammar) (F : NonTerminal → Lookahead → Prop) (form : List Symbol) : Prop :=
  ∀ before m after, form = before ++ .nonterminal m :: after → ∀ l, g.First after l → F m l

def Closed (g : Grammar) (F : NonTerminal → Lookahead → Prop) : Prop :=
  ∀ p ∈ g.rules, ∀ before m after, p.expansion = before ++ .nonterminal m :: after →
    ∀ l, g.First after l ∨ g.Nullable after ∧ F p.left l → F m l

theorem Bounded.step (hF : g.Closed F) (hu : g.Bounded F u) (h : g.Produces u v) :
    g.Bounded F v := by
  cases h with
  | @intro p rule x y =>
    intro before m after he l hl
    rw [List.append_assoc] at he
    obtain ⟨mid, rfl, rfl⟩ | ⟨mid, rfl, hmid⟩ := append_eq_append_cons he
    · refine hu before m (mid ++ .nonterminal p.left :: y) (by simp) l ?_
      exact first_of_derives (Derives.prepend (derives_rule rule y) mid) hl
    · obtain ⟨own, hp, rfl⟩ | ⟨later, rfl, rfl⟩ := append_eq_append_cons hmid
      · refine hF p rule mid m own hp l ?_
        obtain hown | ⟨hnull, hy⟩ := first_append hl
        · exact .inl hown
        · exact .inr ⟨hnull, hu x p.left y rfl l hy⟩
      · exact hu (x ++ .nonterminal p.left :: later) m after (by simp) l hl

theorem bounded_start (hstart : F start .endMarker) :
    g.Bounded F [.nonterminal start, .endMarker] := by
  intro before m after he l hl
  cases before with
  | nil =>
    cases he
    have hend : l.toSymbol = .endMarker := first_cons (by simp) hl
    cases l with
    | endMarker => exact hstart
    | terminal a => cases hend
  | cons s before =>
    have hmem : .nonterminal m ∈ [Symbol.endMarker] := by
      rw [List.cons_append] at he
      rw [(List.cons.inj he).2]
      simp
    cases List.mem_singleton.mp hmem

theorem bounded_of_derives (hstart : F start .endMarker) (hF : g.Closed F)
    (h : g.Derives [.nonterminal start, .endMarker] u) : g.Bounded F u := by
  induction h with
  | refl => exact bounded_start hstart
  | tail _ hstep ih => exact ih.step hF hstep

theorem follow_of_closed (hstart : F start .endMarker) (hF : g.Closed F)
    (h : g.Follow start n l) : F n l := by
  obtain ⟨before, after, h⟩ := h
  exact bounded_of_derives hstart hF h before n (l.toSymbol :: after) rfl l ⟨after, .refl⟩

end Closed

end Grammar

end Predictive
