import Mathlib.Logic.Relation
import Predictive.Proofs.Lists
import Predictive.Proofs.Table.Proper

/-! Context-free derivations. A step replaces one nonterminal anywhere in a form by what a
rule of the grammar expands it to. `Grammar.Reads` takes the form apart from the left
instead, the way the automaton does, and derives the same words. -/

namespace Predictive

open Relation

structure Grammar where
  rules : List Production
  proper : ∀ p ∈ rules, p.Proper

namespace Grammar

inductive Produces (g : Grammar) : List Symbol → List Symbol → Prop
  | intro {p : Production} (rule : p ∈ g.rules) (before after : List Symbol) :
      Produces g (before ++ .nonterminal p.left :: after) (before ++ p.expansion ++ after)

abbrev Derives (g : Grammar) : List Symbol → List Symbol → Prop := ReflTransGen g.Produces

inductive Reads (g : Grammar) : List Symbol → List Terminal → Prop
  | nil : Reads g [] []
  | terminal (a : Terminal) {below : List Symbol} {word : List Terminal}
      (rest : Reads g below word) : Reads g (.terminal a :: below) (a :: word)
  | rule {p : Production} (mem : p ∈ g.rules) {below : List Symbol} {word : List Terminal}
      (rest : Reads g (p.expansion ++ below) word) :
      Reads g (.nonterminal p.left :: below) word

variable {g : Grammar} {u v w x y : List Symbol} {word : List Terminal}

theorem Produces.append (h : g.Produces u v) (x y : List Symbol) :
    g.Produces (x ++ u ++ y) (x ++ v ++ y) := by
  cases h with
  | @intro p rule before after =>
    have h := Produces.intro rule (x ++ before) (after ++ y)
    simpa only [List.append_assoc, List.cons_append] using h

theorem Derives.append (h : g.Derives u v) (x y : List Symbol) :
    g.Derives (x ++ u ++ y) (x ++ v ++ y) :=
  h.lift (fun s => x ++ s ++ y) fun _ _ hstep => hstep.append x y

theorem Derives.prepend (h : g.Derives u v) (x : List Symbol) :
    g.Derives (x ++ u) (x ++ v) := by
  have h := Derives.append h x []
  rwa [List.append_nil, List.append_nil] at h

theorem Derives.cons (h : g.Derives u v) (s : Symbol) : g.Derives (s :: u) (s :: v) :=
  Derives.prepend h [s]

theorem derives_rule {p : Production} (mem : p ∈ g.rules) (below : List Symbol) :
    g.Derives (.nonterminal p.left :: below) (p.expansion ++ below) := by
  have h := Produces.intro mem [] below
  rw [List.nil_append, List.nil_append] at h
  exact .single h

theorem Produces.append_cases (h : g.Produces (u ++ v) w) :
    (∃ u', w = u' ++ v ∧ g.Produces u u') ∨ ∃ v', w = u ++ v' ∧ g.Produces v v' := by
  generalize he : u ++ v = form at h
  cases h with
  | @intro p rule before after =>
    obtain ⟨mid, rfl, rfl⟩ | ⟨mid, rfl, rfl⟩ := append_eq_append_cons he
    · exact .inl ⟨before ++ p.expansion ++ mid, by simp, .intro rule before mid⟩
    · exact .inr ⟨mid ++ p.expansion ++ after, by simp, .intro rule mid after⟩

theorem Derives.append_split (h : g.Derives (u ++ v) w) :
    ∃ u' v', w = u' ++ v' ∧ g.Derives u u' ∧ g.Derives v v' := by
  induction h with
  | refl => exact ⟨u, v, rfl, .refl, .refl⟩
  | tail _ hstep ih =>
    obtain ⟨u₁, v₁, rfl, hu, hv⟩ := ih
    obtain ⟨u₂, rfl, hu₂⟩ | ⟨v₂, rfl, hv₂⟩ := hstep.append_cases
    · exact ⟨u₂, v₁, rfl, hu.tail hu₂, hv⟩
    · exact ⟨u₁, v₂, rfl, hu, hv.tail hv₂⟩

theorem derives_nil (h : g.Derives [] v) : v = [] := by
  obtain rfl | ⟨w, hstep, -⟩ := ReflTransGen.cases_head h
  · rfl
  · generalize he : ([] : List Symbol) = form at hstep
    cases hstep with
    | intro rule before after => simp at he

theorem derives_singleton {s : Symbol} (hs : ∀ n, s ≠ .nonterminal n) (h : g.Derives [s] v) :
    v = [s] := by
  obtain rfl | ⟨w, hstep, -⟩ := ReflTransGen.cases_head h
  · rfl
  · generalize he : [s] = form at hstep
    cases hstep with
    | @intro p rule before after =>
      have hmem : .nonterminal p.left ∈ [s] := by simp [he]
      exact absurd (List.mem_singleton.mp hmem).symm (hs p.left)

theorem Reads.derives (h : g.Reads u word) : g.Derives u (word.map .terminal) := by
  induction h with
  | nil => exact .refl
  | terminal a _ ih => exact ih.cons (.terminal a)
  | rule mem _ ih => exact (derives_rule mem _).trans ih

theorem reads_terminals (word : List Terminal) : g.Reads (word.map .terminal) word := by
  induction word with
  | nil => exact .nil
  | cons a word ih => exact .terminal a ih

theorem Reads.append {word' : List Terminal} (hu : g.Reads u word) (hv : g.Reads v word') :
    g.Reads (u ++ v) (word ++ word') := by
  induction hu with
  | nil => exact hv
  | terminal a _ ih => exact .terminal a ih
  | rule mem _ ih => exact .rule mem (by simpa using ih)

/-- A step that is made anywhere in the form can be made when its place is reached. -/
theorem Reads.unreplace {p : Production} (mem : p ∈ g.rules) {x y : List Symbol}
    (h : g.Reads (x ++ p.expansion ++ y) word) : g.Reads (x ++ .nonterminal p.left :: y) word := by
  generalize he : x ++ p.expansion ++ y = form at h
  -- The reading goes on inside `x` until `x` is used up, and an expansion may lengthen it.
  induction h generalizing x with
  | nil =>
    obtain ⟨hx, rfl⟩ := List.append_eq_nil_iff.mp he
    obtain ⟨rfl, hp⟩ := List.append_eq_nil_iff.mp hx
    exact .rule mem (by rw [hp]; exact .nil)
  | @terminal a below word rest ih =>
    cases x with
    | nil => exact .rule mem (he ▸ .terminal a rest)
    | cons s x =>
      cases he
      exact .terminal a (ih rfl)
  | @rule q hq below word rest ih =>
    cases x with
    | nil => exact .rule mem (he ▸ .rule hq rest)
    | cons s x =>
      cases he
      refine .rule hq ?_
      have h := ih (x := q.expansion ++ x) (by simp)
      simpa using h

theorem reads_of_derives (h : g.Derives u (word.map .terminal)) : g.Reads u word := by
  induction h using ReflTransGen.head_induction_on with
  | refl => exact reads_terminals word
  | head hstep _ ih =>
    cases hstep with
    | intro rule before after => exact ih.unreplace rule

theorem reads_iff_derives : g.Reads u word ↔ g.Derives u (word.map .terminal) :=
  ⟨Reads.derives, reads_of_derives⟩

end Grammar

end Predictive
