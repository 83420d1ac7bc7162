import Mathlib.Data.List.Range
import Mathlib.Order.Minimal
import Mathlib.Order.Preorder.Finite
import Predictive.Proofs.Automaton.Ceiling
import Predictive.Proofs.Automaton.Passage

/-! When a run has no end. A nonterminal that comes back on top while nothing was read and
nothing below it was touched has been expanded into itself, and the turns in between can be
made again on whatever the stack holds by then. Conversely, an endless run reads no more
tokens from some place on, and infinitely often its stack is as low as it will ever be again.
What is on top at those places is a row of the table, and the rows are finitely many. -/

namespace Predictive

open Predictive.Configuration

theorem exists_least_from (g : Nat → Nat) (m : Nat) :
    ∃ k, m ≤ k ∧ ∀ k', m ≤ k' → g k ≤ g k' := by
  obtain ⟨k, hk, hmin⟩ := exists_minimalFor_of_wellFoundedLT (m ≤ ·) g ⟨m, Nat.le_refl m⟩
  exact ⟨k, hk, fun k' hk' => (Nat.le_total _ _).elim id (hmin hk')⟩

/-- The nonterminal is on top at two places with as many tokens to read, and the stack is never
lower between them than at the first one. -/
structure Trace.RecursAt (cs : Trace) (i j : Nat) (n : NonTerminal) (c d : Configuration) :
    Prop where
  before : i < j
  first : cs[i]? = some c
  second : cs[j]? = some d
  unread : d.input.unread.length = c.input.unread.length
  top_first : c.stack.top? = some (.nonterminal n)
  top_second : d.stack.top? = some (.nonterminal n)
  height : ∀ k x, i ≤ k → k ≤ j → cs[k]? = some x → c.stack.height ≤ x.stack.height

namespace Configuration

/-- The configuration holds `upper` in the place of what is on top of `c`, and has read as far. -/
structure Over (x c : Configuration) (upper : List Symbol) : Prop where
  input : x.input = c.input
  stack : x.stack.symbols = upper ++ c.stack.symbols.tail

def lowestFrom (f : Nat → Configuration) (m : Nat) : Set Nat :=
  {k | m ≤ k ∧ ∀ k', k ≤ k' → (f k).stack.height ≤ (f k').stack.height}

theorem infinite_lowestFrom (f : Nat → Configuration) (m : Nat) : (lowestFrom f m).Infinite := by
  refine Set.infinite_of_forall_exists_gt fun a => ?_
  obtain ⟨k, hk, hmin⟩ := exists_least_from (fun k => (f k).stack.height) (max m (a + 1))
  refine ⟨k, ⟨?_, fun k' hk' => hmin k' (hk.trans hk')⟩, ?_⟩
  · exact (Nat.le_max_left _ _).trans hk
  · exact (Nat.le_max_right _ _).trans hk

end Configuration

namespace Trace.RecursAt

variable {cs : Trace} {i j k : Nat} {n : NonTerminal} {c d x : Configuration}
  {upper : List Symbol}

theorem stack_eq (hr : cs.RecursAt i j n c d) :
    c.stack.symbols = .nonterminal n :: c.stack.symbols.tail := by
  obtain ⟨below, hstack⟩ := List.head?_eq_some_iff.mp hr.top_first
  rw [hstack, List.tail_cons]

theorem over_first (hr : cs.RecursAt i j n c d) : c.Over c [.nonterminal n] :=
  ⟨rfl, hr.stack_eq⟩

theorem upper_ne_nil (hr : cs.RecursAt i j n c d) (hik : i ≤ k) (hkj : k ≤ j)
    (hx : cs[k]? = some x) (hover : x.Over c upper) : upper ≠ [] := by
  rintro rfl
  have hheight := hr.height k x hik hkj hx
  have hc := congrArg List.length hr.stack_eq
  rw [c.stack.height_eq, x.stack.height_eq, hover.stack, List.nil_append] at hheight
  rw [List.length_cons] at hc
  omega

end Trace.RecursAt

namespace Table

/-- The nonterminal comes back on top of its own unfinished expansion, and no token is read on
the way. -/
def Reenters (t : Table) (l : Lookahead) (n : NonTerminal) : Prop :=
  ∃ more, Relation.TransGen (t.Expands l) [.nonterminal n] (.nonterminal n :: more)

variable {t : Table} {start n : NonTerminal} {tokens : List Terminal} {c c' d : Configuration}
  {l : Lookahead} {cs : Trace} {i j : Nat}

theorem Expands.above {upper below v : List Symbol} (h : t.Expands l (upper ++ below) v)
    (hupper : upper ≠ []) : ∃ upper', v = upper' ++ below ∧ t.Expands l upper upper' := by
  obtain ⟨n, rest, p, hstack, cell, rfl⟩ := h
  cases upper with
  | nil => exact absurd rfl hupper
  | cons s upper =>
    rw [List.cons_append] at hstack
    cases hstack
    exact ⟨p.expansion ++ upper, by rw [List.append_assoc], n, upper, p, rfl, cell, rfl⟩

theorem Move.expands_or_reads (h : t.Move c c') :
    (∃ l, c.input.front? = some l ∧ t.Expands l c.stack.symbols c'.stack.symbols ∧
      c'.input = c.input) ∨ c'.input.unread.length < c.input.unread.length := by
  cases h with
  | @expand s n below l p top front cell pushed =>
    exact .inl ⟨l, front, ⟨n, below, p, top, cell, pushed⟩, rfl⟩
  | consume _ front =>
    right
    simp [front]

theorem Move.unread_le (h : t.Move c c') :
    c'.input.unread.length ≤ c.input.unread.length := by
  obtain ⟨_, _, _, hinput⟩ | hlt := h.expands_or_reads
  · rw [hinput]
  · exact hlt.le

section Passes

theorem Passes.move (h : t.Passes start tokens cs) (hi : cs[i]? = some c)
    (hi' : cs[i + 1]? = some c') : t.Move c c' := by
  obtain ⟨upper, read, unread, hat, -, -⟩ := h.exists_at hi
  exact move_of_next hat (h.turn hi hi')

theorem Passes.unread_le (h : t.Passes start tokens cs) (hij : i ≤ j) (hi : cs[i]? = some c)
    (hj : cs[j]? = some d) : d.input.unread.length ≤ c.input.unread.length := by
  induction j, hij using Nat.le_induction generalizing d with
  | base =>
    cases hi.symm.trans hj
    exact Nat.le_refl _
  | succ k _ ih =>
    obtain ⟨x, hk⟩ := exists_getElem?_pred hj
    exact (h.move hk hj).unread_le.trans (ih hk)

theorem Passes.executes_at (h : t.Passes start tokens cs) {trace : Trace}
    {rejection : Option Rejection}
    (hexec : t.Executes none (.initial start tokens) trace rejection) (hi : cs[i]? = some c) :
    ∃ trace', t.Executes none c trace' rejection := by
  induction i generalizing c with
  | zero =>
    obtain ⟨rest, rfl⟩ := List.head?_eq_some_iff.mp h.first
    cases hi
    exact ⟨trace, hexec⟩
  | succ i ih =>
    obtain ⟨before, hbefore⟩ := exists_getElem?_pred hi
    obtain ⟨trace', hearlier⟩ := ih hbefore
    obtain ⟨rest, -, hlater⟩ := hearlier.rest_of_moved (h.turn hbefore hi)
    exact ⟨rest, hlater⟩

theorem Passes.over_succ (h : t.Passes start tokens cs) (hr : cs.RecursAt i j n c d)
    (front : c.input.front? = some l) {k : Nat} {x y : Configuration} {upper : List Symbol}
    (hik : i ≤ k) (hkj : k < j) (hx : cs[k]? = some x) (hy : cs[k + 1]? = some y)
    (hover : x.Over c upper) : ∃ upper', y.Over c upper' ∧ t.Expands l upper upper' := by
  have hmost := h.unread_le hkj hy hr.second
  rw [hr.unread, ← hover.input] at hmost
  obtain ⟨l', front', hexpands, hsame⟩ | hread := (h.move hx hy).expands_or_reads
  · rw [hover.input] at front'
    cases front.symm.trans front'
    rw [hover.stack] at hexpands
    obtain ⟨upper', hstack, hstep⟩ :=
      hexpands.above (hr.upper_ne_nil hik hkj.le hx hover)
    exact ⟨upper', ⟨hsame.trans hover.input, hstack⟩, hstep⟩
  · omega

theorem Passes.over (h : t.Passes start tokens cs) (hr : cs.RecursAt i j n c d)
    (front : c.input.front? = some l) {k : Nat} {x : Configuration} (hik : i ≤ k) (hkj : k ≤ j)
    (hx : cs[k]? = some x) : ∃ upper, x.Over c upper ∧
      Relation.ReflTransGen (t.Expands l) [.nonterminal n] upper := by
  induction k, hik using Nat.le_induction generalizing x with
  | base =>
    cases hr.first.symm.trans hx
    exact ⟨_, hr.over_first, .refl⟩
  | succ k hik ih =>
    obtain ⟨before, hbefore⟩ := exists_getElem?_pred hx
    obtain ⟨upper, hover, hreach⟩ := ih (Nat.le_of_succ_le hkj) hbefore
    obtain ⟨upper', hover', hstep⟩ := h.over_succ hr front hik hkj hbefore hx hover
    exact ⟨upper', hover', hreach.tail hstep⟩

theorem Passes.reenters (h : t.Passes start tokens cs) (hr : cs.RecursAt i j n c d) :
    ∃ l, c.input.front? = some l ∧ t.Reenters l n := by
  obtain ⟨_, _, unread, hat, -, -⟩ := h.exists_at hr.first
  obtain ⟨k, rfl⟩ := Nat.exists_eq_add_of_lt hr.before
  obtain ⟨x, hx⟩ := exists_getElem?_pred hr.second
  obtain ⟨upper, hover, hreach⟩ := h.over hr hat.front (by omega) (Nat.le_succ _) hx
  obtain ⟨last, hlast, hstep⟩ :=
    h.over_succ hr hat.front (by omega) (Nat.lt_succ_self _) hx hr.second hover
  have hne : last ≠ [] := hr.upper_ne_nil (by omega) (Nat.le_refl _) hr.second hlast
  obtain ⟨s, more, rfl⟩ := List.exists_cons_of_ne_nil hne
  have htop := hr.top_second
  rw [Stack.top?, hlast.stack] at htop
  cases htop
  exact ⟨.first unread, hat.front, more, .tail' hreach hstep⟩

end Passes

/-- The configuration `k` moves later. A run that has stopped stays where it is. -/
def later (t : Table) (c : Configuration) : Nat → Configuration
  | 0 => c
  | k + 1 =>
    match t.next (t.later c k) with
    | .moved c' => c'
    | _ => t.later c k

theorem move_later (hmove : ∀ c', Relation.ReflTransGen t.Move c c' → ∃ c'', t.Move c' c'')
    (k : Nat) : Relation.ReflTransGen t.Move c (t.later c k) ∧
      t.Move (t.later c k) (t.later c (k + 1)) := by
  have hstep : ∀ m, Relation.ReflTransGen t.Move c (t.later c m) →
      t.Move (t.later c m) (t.later c (m + 1)) := by
    intro m hreach
    obtain ⟨c', hc'⟩ := hmove _ hreach
    rwa [later, next_of_move hc']
  induction k with
  | zero => exact ⟨.refl, hstep 0 .refl⟩
  | succ k ih =>
    have hreach := ih.1.tail ih.2
    exact ⟨hreach, hstep (k + 1) hreach⟩

section Endless

variable {f : Nat → Configuration} (hf : ∀ k, t.Move (f k) (f (k + 1)))

include hf

theorem exists_last_read : ∃ m, ∀ k, m ≤ k →
    (f k).input.unread.length = (f m).input.unread.length := by
  have hanti : Antitone fun k => (f k).input.unread.length :=
    antitone_nat_of_succ_le fun k => (hf k).unread_le
  obtain ⟨m, -, hmin⟩ := exists_least_from (fun k => (f k).input.unread.length) 0
  exact ⟨m, fun k hk => (hanti hk).antisymm (hmin k (Nat.zero_le k))⟩

theorem top_mem_rows {m k : Nat}
    (hm : ∀ k, m ≤ k → (f k).input.unread.length = (f m).input.unread.length) (hk : m ≤ k) :
    (f k).stack.top? ∈ t.rows.keys.map (some ∘ Symbol.nonterminal) := by
  obtain ⟨l, -, ⟨n, below, p, hstack, cell, -⟩, -⟩ | hread := (hf k).expands_or_reads
  · have hn : n ∈ t.rows.keys := SortedMap.mem_keys.mpr (hasRow_of_cell cell)
    exact List.mem_map.mpr ⟨n, hn, by simp [Stack.top?, hstack]⟩
  · have hsame := hm (k + 1) (hk.trans (Nat.le_succ k))
    rw [← hm k hk] at hsame
    omega

/-- Two of the lowest places have the same nonterminal on top. -/
theorem exists_recursAt : ∃ i j n,
    Trace.RecursAt ((List.range (j + 1)).map f) i j n (f i) (f j) := by
  obtain ⟨m, hm⟩ := exists_last_read hf
  have hrows : Set.MapsTo (fun k => (f k).stack.top?) (lowestFrom f m)
      {s | s ∈ t.rows.keys.map (some ∘ Symbol.nonterminal)} :=
    fun k hk => top_mem_rows hf hm hk.1
  obtain ⟨i, ⟨hi, hlow⟩, j, ⟨hj, -⟩, hij, htop⟩ :=
    (infinite_lowestFrom f m).exists_lt_map_eq_of_mapsTo hrows (List.finite_toSet _)
  obtain ⟨n, -, hn⟩ := List.mem_map.mp (top_mem_rows hf hm hi)
  refine ⟨i, j, n, hij, ?_, ?_, (hm j hj).trans (hm i hi).symm, hn.symm, htop ▸ hn.symm, ?_⟩
  · simp [Nat.lt_succ_of_lt hij]
  · simp
  · intro k x hik hkj hx
    have hk : ((List.range (j + 1)).map f)[k]? = some (f k) := by
      simp [Nat.lt_succ_of_le hkj]
    cases hk.symm.trans hx
    exact hlow k hik

theorem passes_map_range (hstart : f 0 = .initial start tokens) (j : Nat) :
    t.Passes start tokens ((List.range (j + 1)).map f) where
  first := by simp [List.range_succ_eq_map, hstart]
  turns := by
    rw [List.isChain_map, List.isChain_range_succ]
    exact fun k _ => next_of_move (hf k)

end Endless

theorem exists_recurrence (h : t.drive start tokens none = none) :
    ∃ cs i j n c d, t.Passes start tokens cs ∧ cs.RecursAt i j n c d := by
  have hmove := drive_eq_none_iff.mp h
  have hlater := fun k => (t.move_later (c := .initial start tokens) hmove k).2
  obtain ⟨i, j, n, hrecurs⟩ := exists_recursAt hlater
  exact ⟨_, i, j, n, _, _, passes_map_range hlater rfl j, hrecurs⟩

theorem drive_eq_none_of_recursAt {i j : Nat} (h : t.Passes start tokens cs)
    (hr : cs.RecursAt i j n c d) : t.drive start tokens none = none := by
  by_contra hends
  obtain ⟨trace, rejection, hexec⟩ := drive_ne_none_iff.mp hends
  obtain ⟨trace', hlater⟩ := h.executes_at hexec hr.first
  obtain ⟨l, front, more, hrec⟩ := h.reenters hr
  obtain ⟨below, hstack⟩ := List.head?_eq_some_iff.mp hr.top_first
  exact not_executes_of_recurrence hrec hstack front trace' rejection hlater

theorem exists_endless_of_reenters (h : t.Reenters l n) :
    ∃ tokens, t.drive n tokens none = none := by
  obtain ⟨more, hrec⟩ := h
  obtain ⟨tokens, rfl⟩ : ∃ tokens, Lookahead.first tokens = l := by
    cases l with
    | terminal a => exact ⟨[a], rfl⟩
    | endMarker => exact ⟨[], rfl⟩
  refine ⟨tokens, Classical.byContradiction fun hends => ?_⟩
  obtain ⟨trace, rejection, hexec⟩ := drive_ne_none_iff.mp hends
  exact not_executes_of_recurrence hrec rfl (initial_at n tokens).front trace rejection hexec

theorem drive_ne_none_iff_reenters :
    (∀ start tokens, t.drive start tokens none ≠ none) ↔ ∀ l n, ¬ t.Reenters l n := by
  constructor
  · intro hends l n h
    obtain ⟨tokens, hnone⟩ := exists_endless_of_reenters h
    exact hends n tokens hnone
  · intro hno start tokens hnone
    obtain ⟨cs, i, j, n, c, d, hpasses, hr⟩ := exists_recurrence hnone
    obtain ⟨l, -, hreenters⟩ := hpasses.reenters hr
    exact hno l n hreenters

/-- Which runs have no end, and which tables have none of them. A run is endless, so that every
ceiling is what stops it, exactly when a nonterminal recurs in it above an untouched stack and
an unread input; and a table ends on every input exactly when none of its nonterminals comes
back on top of its own expansion without reading. -/
theorem endless_iff_recurrence (t : Table) :
    (∀ start tokens,
      (t.drive start tokens none = none ↔
        ∀ limit, t.drive start tokens (some limit) = some (.error (.stepLimit limit))) ∧
      ((∀ limit, t.drive start tokens (some limit) = some (.error (.stepLimit limit))) ↔
        ∃ cs i j n c d, t.Passes start tokens cs ∧ cs.RecursAt i j n c d)) ∧
    ((∀ start tokens, t.drive start tokens none ≠ none) ↔ ∀ l n, ¬ t.Reenters l n) := by
  refine ⟨fun start tokens => ⟨drive_eq_none_iff_ceilings, ?_⟩, drive_ne_none_iff_reenters⟩
  rw [← drive_eq_none_iff_ceilings]
  refine ⟨exists_recurrence, fun h => ?_⟩
  obtain ⟨cs, i, j, n, c, d, hpasses, hr⟩ := h
  exact drive_eq_none_of_recursAt hpasses hr

end Table

namespace Letters

def again : Production := ⟨word, [.nonterminal word]⟩

def againTrace : Trace :=
  [.initial word [letter],
    ⟨1, .ofList [.endMarker, .nonterminal word, .terminal letter], .ofTokens [letter],
      some more⟩,
    ⟨2, .ofList [.endMarker, .nonterminal word], ⟨1, [.endMarker]⟩, none⟩,
    ⟨3, .ofList [.endMarker, .nonterminal word], ⟨1, [.endMarker]⟩, some again⟩]

theorem passes_again : (table again).Passes word [letter] againTrace where
  first := rfl
  turns := .cons_cons rfl (.cons_cons rfl (.cons_cons rfl (.singleton _)))

theorem recursAt_again : againTrace.RecursAt 2 3 word
    ⟨2, .ofList [.endMarker, .nonterminal word], ⟨1, [.endMarker]⟩, none⟩
    ⟨3, .ofList [.endMarker, .nonterminal word], ⟨1, [.endMarker]⟩, some again⟩ where
  before := by decide
  first := rfl
  second := rfl
  unread := rfl
  top_first := rfl
  top_second := rfl
  height := by
    intro k x hik hkj hx
    obtain rfl | rfl : k = 2 ∨ k = 3 := by omega
    · cases hx
      exact Nat.le_refl _
    · cases hx
      exact Nat.le_refl _

theorem not_reenters (l : Lookahead) (n : NonTerminal) :
    ¬ (table (.empty word)).Reenters l n := by
  rintro ⟨rest, hrec⟩
  obtain ⟨stack, ⟨m, below, p, hstack, cell, rfl⟩, hrest⟩ := Relation.TransGen.head'_iff.mp hrec
  cases hstack
  -- What the first expansion leaves on top is no nonterminal, so there is no second one.
  obtain ⟨rfl, ⟨rfl, rfl⟩ | ⟨rfl, rfl⟩⟩ := cell?_table cell
  · obtain heq | ⟨_, ⟨_, _, _, hnext, -⟩, -⟩ := hrest.cases_head
    · cases heq
    · cases hnext
  · obtain heq | ⟨_, ⟨_, _, _, hnext, -⟩, -⟩ := hrest.cases_head
    · cases heq
    · cases hnext

theorem endless_and_terminating :
    (∀ n, (table again).drive word [letter] (some n) = some (.error (.stepLimit n))) ∧
    ∀ start tokens, (table (.empty word)).drive start tokens none ≠ none := by
  have hagain := ((Table.endless_iff_recurrence (table again)).1 word [letter]).2
  refine ⟨hagain.mpr ⟨_, _, _, _, _, _, passes_again, recursAt_again⟩, ?_⟩
  exact (Table.endless_iff_recurrence (table (.empty word))).2.mpr not_reenters

end Letters

end Predictive
