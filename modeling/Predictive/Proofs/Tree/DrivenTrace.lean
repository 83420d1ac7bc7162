import Mathlib.Data.Nat.Find
import Predictive.Proofs.Automaton.SententialForm
import Predictive.Proofs.Tree.Alignment

/-! Growing a tree from the trace of an accepted input, for any table and ceiling. As long as
every production belongs to the nonterminal that it replaced, the awaited symbols are the
stack without its bottom. The growth then fails in two ways only: a production with
another left side, or a stack that is not used up when the end markers meet. -/

namespace Predictive

open Predictive.Configuration Relation

/-- The production recorded after configuration `k` has another left side than the symbol
that was on top. -/
def Trace.MisplacedAt (cs : Trace) (k : Nat) (left : NonTerminal) (top : Symbol) : Prop :=
  ∃ c c' p, cs[k]? = some c ∧ cs[k + 1]? = some c' ∧ c'.applied = some p ∧ p.left = left ∧
    c.stack.top? = some top ∧ top ≠ .nonterminal left

theorem Trace.MisplacedAt.unique {cs : Trace} {k : Nat} {left left' : NonTerminal}
    {top top' : Symbol} (h : cs.MisplacedAt k left top) (h' : cs.MisplacedAt k left' top') :
    left = left' ∧ top = top' := by
  obtain ⟨c, c₁, p, hc, hc₁, hp, rfl, htop, -⟩ := h
  obtain ⟨c', c₁', p', hc', hc₁', hp', rfl, htop', -⟩ := h'
  cases hc.symm.trans hc'
  cases hc₁.symm.trans hc₁'
  cases hp.symm.trans hp'
  exact ⟨rfl, Option.some.inj (htop.symm.trans htop')⟩

variable {t : Table} {c c' : Configuration} {upper : List Symbol} {read unread : List Terminal}

theorem Configuration.initial_root (start : NonTerminal) (tokens : List Terminal) :
    (initial start tokens).stack.get? 1 = some (.nonterminal start) := by
  simp [initial, Stack.ofList, Stack.get?, Stack.push, Stack.empty]

namespace Growth

theorem meet_of_move (h : t.Move c c') (hc : c.At upper read unread) (index : Nat)
    (rest : Trace) :
    (∃ upper' read' unread', meet index c c' upper = .ok upper' ∧ c'.At upper' read' unread' ∧
      ∀ left top, ¬ Trace.MisplacedAt (c :: c' :: rest) 0 left top) ∨
    ∃ left top, meet index c c' upper = .error (.expansionMismatch (c.step + 1) left top) ∧
      Trace.MisplacedAt (c :: c' :: rest) 0 left top := by
  have hstep := h.step_eq
  obtain ⟨n, below, p, rfl, -, happ, hat⟩ | ⟨a, below, more, rfl, rfl, happ, hat⟩ :=
    h.cases_at hc
  · by_cases hleft : p.left = n
    · left
      refine ⟨p.expansion ++ below, read, unread, by simp [meet, hstep, happ, hleft], hat, ?_⟩
      intro left top hm
      obtain ⟨_, _, q, hc₀, hc₁, hq, rfl, htop, hne⟩ := hm
      cases hc₀
      cases hc₁
      cases happ.symm.trans hq
      rw [hc.top_cons] at htop
      cases htop
      exact hne (by rw [hleft])
    · right
      have hne : Symbol.nonterminal n ≠ .nonterminal p.left := by
        intro he
        cases he
        exact hleft rfl
      exact ⟨p.left, .nonterminal n, by simp [meet, hstep, happ, hne],
        c, c', p, rfl, rfl, happ, rfl, hc.top_cons, hne⟩
  · left
    have hfront : c.input.front? = some (.terminal a) := hc.front
    refine ⟨below, read ++ [a], more, ?_, hat, ?_⟩
    · simp [meet, hstep, happ, hfront, Symbol.accepts]
    · intro left top hm
      obtain ⟨_, _, q, -, hc₁, hq, -⟩ := hm
      cases hc₁
      cases happ.symm.trans hq

theorem meets_of_placed {rest : Trace} (h : t.Accepts c (c :: rest))
    (hc : c.At upper read unread) (index : Nat)
    (hplaced : ∀ k left top, ¬ Trace.MisplacedAt (c :: rest) k left top) :
    ∃ last upper' read', meets index c rest upper = .ok upper' ∧
      (c :: rest).getLast? = some last ∧ last.At upper' read' [] := by
  induction rest generalizing c upper read unread index with
  | nil =>
    have hunread := hc.unread_of_finished h.finished_of_singleton
    rw [hunread] at hc
    exact ⟨c, upper, read, rfl, rfl, hc⟩
  | cons c₁ more ih =>
    obtain ⟨hmove, hrest⟩ := h.move_cons
    obtain ⟨upper', read', unread', hmeet, hat, -⟩ | ⟨left, top, -, hm⟩ :=
      meet_of_move hmove hc index more
    · obtain ⟨last, upper₁, read₁, hmeets, hlast, hat₁⟩ := ih hrest hat (index + 1)
        fun k left top hk => hplaced (k + 1) left top hk
      refine ⟨last, upper₁, read₁, ?_, by simpa using hlast, hat₁⟩
      rw [meets, hmeet]
      exact hmeets
    · exact absurd hm (hplaced 0 left top)

theorem meets_of_misplaced {rest : Trace} (h : t.Accepts c (c :: rest))
    (hc : c.At upper read unread) (index k : Nat) {left : NonTerminal} {top : Symbol}
    (hk : Trace.MisplacedAt (c :: rest) k left top)
    (hfirst : ∀ j < k, ∀ left' top', ¬ Trace.MisplacedAt (c :: rest) j left' top') :
    meets index c rest upper = .error (.expansionMismatch (c.step + k + 1) left top) := by
  induction rest generalizing c upper read unread index k with
  | nil =>
    obtain ⟨_, _, _, -, hnone, -⟩ := hk
    cases hnone
  | cons c₁ more ih =>
    obtain ⟨hmove, hrest⟩ := h.move_cons
    obtain ⟨upper', read', unread', hmeet, hat, hplaced⟩ | ⟨left', top', hmeet, hm⟩ :=
      meet_of_move hmove hc index more
    · cases k with
      | zero => exact absurd hk (hplaced left top)
      | succ k =>
        have hmeets := ih hrest hat (index + 1) k hk fun j hj left' top' hm =>
          hfirst (j + 1) (by omega) left' top' hm
        have hnumber : c.step + (k + 1) + 1 = c₁.step + k + 1 := by
          have hstep := hmove.step_eq
          omega
        rw [meets, hmeet, hnumber]
        exact hmeets
    · cases k with
      | zero =>
        obtain ⟨rfl, rfl⟩ := hk.unique hm
        rw [meets, hmeet, Nat.add_zero]
      | succ k => exact absurd hm (hfirst 0 (Nat.succ_pos k) left' top')

end Growth

theorem leaf_values_of_aligned {rest : Trace} {ns : List Tree} (ha : Aligned c rest ns)
    (h : t.Accepts c (c :: rest)) (hc : c.At upper read unread) :
    (ns.filter fun n => n.isLeaf && n.symbol.isTerminal).filterMap Tree.value =
      unread.map Terminal.text := by
  induction ha generalizing upper read unread with
  | nil =>
    have hunread := hc.unread_of_finished h.finished_of_singleton
    rw [hunread]
    rfl
  | @cons c c₁ more n ns here later ih =>
    obtain ⟨hmove, hrest⟩ := h.move_cons
    obtain ⟨m, below, p, rfl, -, happ, hat⟩ | ⟨a, below, rest, rfl, rfl, happ, hat⟩ :=
      hmove.cases_at hc
    · cases here with
      | expansion =>
        rw [List.filter_cons_of_neg (by simp [Tree.symbol, Symbol.isTerminal])]
        exact ih hrest hat
      | token hnone => cases happ.symm.trans hnone
    · cases here with
      | expansion hsome => cases happ.symm.trans hsome
      | @token s token _ front met =>
        cases hc.front.symm.trans front
        cases Symbol.accepts_eq_true.mp met
        rw [List.filter_cons_of_pos (by rfl), List.filterMap_cons_some (by rfl), ih hrest hat]
        rfl

namespace Table

theorem Placed.not_misplaced (ht : t.Placed) {cs : Trace} (h : t.Accepts c cs) (k : Nat)
    (left : NonTerminal) (top : Symbol) : ¬ cs.MisplacedAt k left top := by
  intro hm
  obtain ⟨c₀, c₁, p, hk, hk', happ, rfl, htop, hne⟩ := hm
  cases rel_of_isChain h.isChain hk hk' with
  | @expand _ n below l _ htop' _ cell _ =>
    cases happ
    rw [Stack.top?, htop', List.head?_cons] at htop
    cases htop
    exact hne (by rw [ht.left_eq n l p cell])
  | consume => cases happ

end Table

namespace Tree

variable {start : NonTerminal} {tokens : List Terminal} {cs : Trace}

theorem ofTrace_of_misplaced (h : t.Accepts (.initial start tokens) cs) {k : Nat}
    {left : NonTerminal} {top : Symbol} (hk : cs.MisplacedAt k left top)
    (hfirst : ∀ j < k, ∀ left' top', ¬ cs.MisplacedAt j left' top') :
    ofTrace cs = .error (.expansionMismatch (k + 1) left top) := by
  obtain ⟨rest, rfl⟩ := h.head
  have hmeets := Growth.meets_of_misplaced h (initial_at start tokens) 1 k hk hfirst
  rw [ofTrace_of_meets_error (initial_root start tokens) rfl hmeets, initial, Nat.zero_add]

theorem ofTrace_of_placed (h : t.Accepts (.initial start tokens) cs)
    (hplaced : ∀ k left top, ¬ cs.MisplacedAt k left top) :
    ∃ last, cs.getLast? = some last ∧
      (1 < last.stack.height → ofTrace cs = .error (.unfinished (last.stack.height - 1))) ∧
      (last.stack.height ≤ 1 → ∃ tree, ofTrace cs = .ok tree ∧
        tree.symbol = .nonterminal start ∧
        Aligned (.initial start tokens) cs.tail tree.preorder) := by
  obtain ⟨rest, rfl⟩ := h.head
  have hroot := initial_root start tokens
  obtain ⟨last, upper, read, hmeets, hlast, hat⟩ :=
    Growth.meets_of_placed h (initial_at start tokens) 1 hplaced
  refine ⟨last, hlast, ?_, ?_⟩
  · intro hheight
    rw [hat.height] at hheight ⊢
    cases upper with
    | nil => simp at hheight
    | cons s more => exact ofTrace_of_meets_pending hroot rfl hmeets
  · intro hheight
    rw [hat.height] at hheight
    cases upper with
    | nil => exact ofTrace_of_meets_nil hroot rfl hmeets
    | cons s more => simp at hheight

theorem leafValues_of_aligned (h : t.Accepts (.initial start tokens) cs) {tree : Tree}
    (ha : Aligned (.initial start tokens) cs.tail tree.preorder) :
    tree.leafValues = tokens.map Terminal.text := by
  obtain ⟨rest, rfl⟩ := h.head
  exact leaf_values_of_aligned ha h (initial_at start tokens)

theorem ofTrace_ok_of_placed (ht : t.Placed) (h : t.Accepts (.initial start tokens) cs) :
    ∃ tree, ofTrace cs = .ok tree ∧ tree.symbol = .nonterminal start ∧
      Aligned (.initial start tokens) cs.tail tree.preorder := by
  obtain ⟨last, hlast, -, hok⟩ := ofTrace_of_placed h (ht.not_misplaced h)
  have hat := ht.last_at_nil h (initial_at start tokens) (by simp) hlast
  exact hok (by rw [hat.height]; exact Nat.le_refl _)

/-- What growing a tree from the trace of an accepted input comes to, for every table, start
symbol, input and ceiling. -/
theorem ofTrace_of_drive {limit : Option Nat}
    (h : t.drive start tokens limit = some (.ok cs)) :
    (∀ k left top, cs.MisplacedAt k left top →
      (∀ j < k, ∀ left' top', ¬ cs.MisplacedAt j left' top') →
      ofTrace cs = .error (.expansionMismatch (k + 1) left top)) ∧
    ((∀ k left top, ¬ cs.MisplacedAt k left top) → ∃ last, cs.getLast? = some last ∧
      (1 < last.stack.height → ofTrace cs = .error (.unfinished (last.stack.height - 1))) ∧
      (last.stack.height ≤ 1 →
        ∃ tree, ofTrace cs = .ok tree ∧ tree.leafValues = tokens.map Terminal.text)) ∧
    (∀ e, ofTrace cs = .error e →
      (∃ step left top, e = .expansionMismatch step left top) ∨
        ∃ pending, e = .unfinished pending) ∧
    (t.Placed → ∃ tree, ofTrace cs = .ok tree) := by
  have hrun := Table.accepts_of_drive h
  refine ⟨fun k left top => ofTrace_of_misplaced hrun, ?_, ?_, ?_⟩
  · intro hplaced
    obtain ⟨last, hlast, herr, hok⟩ := ofTrace_of_placed hrun hplaced
    refine ⟨last, hlast, herr, fun hheight => ?_⟩
    obtain ⟨tree, htree, -, ha⟩ := hok hheight
    exact ⟨tree, htree, leafValues_of_aligned hrun ha⟩
  · intro e he
    by_cases hplaced : ∃ k left top, cs.MisplacedAt k left top
    · classical
      obtain ⟨left, top, hk⟩ := Nat.find_spec hplaced
      have hfirst : ∀ j < Nat.find hplaced, ∀ left' top', ¬ cs.MisplacedAt j left' top' :=
        fun j hj left' top' hm => Nat.find_min hplaced hj ⟨left', top', hm⟩
      cases (ofTrace_of_misplaced hrun hk hfirst).symm.trans he
      exact .inl ⟨_, _, _, rfl⟩
    · obtain ⟨last, -, herr, hok⟩ := ofTrace_of_placed hrun fun k left top hk =>
        hplaced ⟨k, left, top, hk⟩
      by_cases hheight : 1 < last.stack.height
      · cases (herr hheight).symm.trans he
        exact .inr ⟨_, rfl⟩
      · obtain ⟨tree, htree, -, -⟩ := hok (Nat.le_of_not_lt hheight)
        simp [htree] at he
  · intro ht
    obtain ⟨tree, htree, -, -⟩ := ofTrace_ok_of_placed ht hrun
    exact ⟨tree, htree⟩

end Tree

namespace Letters

def misfitTrace : Trace :=
  [.initial word [letter],
    ⟨1, .ofList [.endMarker, .nonterminal word, .terminal letter], .ofTokens [letter],
      some more⟩,
    ⟨2, .ofList [.endMarker, .nonterminal word], ⟨1, [.endMarker]⟩, none⟩,
    ⟨3, .ofList [.endMarker], ⟨1, [.endMarker]⟩, some (.empty other)⟩]

theorem misplacedAt_last : misfitTrace.MisplacedAt 2 other (.nonterminal word) :=
  ⟨_, _, _, rfl, rfl, rfl, rfl, rfl, by decide⟩

theorem not_misplacedAt_before (j : Nat) (hj : j < 2) (left : NonTerminal) (top : Symbol) :
    ¬ misfitTrace.MisplacedAt j left top := by
  intro hm
  obtain ⟨c, c', p, hc, hc', happ, rfl, htop, hne⟩ := hm
  obtain rfl | rfl : j = 0 ∨ j = 1 := by omega
  · cases hc
    cases hc'
    cases happ
    cases htop
    exact hne rfl
  · cases hc'
    cases happ

theorem ofTrace_misfit :
    (table (.empty other)).drive word [letter] none = some (.ok misfitTrace) ∧
    Tree.ofTrace misfitTrace = .error (.expansionMismatch 3 other (.nonterminal word)) := by
  have hdrive : (table (.empty other)).drive word [letter] none = some (.ok misfitTrace) := by
    rfl
  exact ⟨hdrive,
    (Tree.ofTrace_of_drive hdrive).1 2 other _ misplacedAt_last not_misplacedAt_before⟩

end Letters

end Predictive
