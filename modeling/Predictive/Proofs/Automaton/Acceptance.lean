import Predictive.Proofs.Automaton.Moves

/-! The configurations that a run can reach, and the runs that end in acceptance. Every move
keeps the end marker at the bottom of the stack and behind the unread tokens, so both
fronts are always there and a token is read only when it is on top. `Table.Accepts` is an
accepted run as a chain of moves, with no ceiling and no fuel in it. -/

namespace Predictive

def Lookahead.first : List Terminal → Lookahead
  | [] => .endMarker
  | a :: _ => .terminal a

theorem Lookahead.getElem?_first (read unread : List Terminal) :
    ((read ++ unread).map Lookahead.terminal ++ [.endMarker])[read.length]? =
      some (.first unread) := by
  cases unread <;> simp [Lookahead.first]

def Input.after (read unread : List Terminal) : Input :=
  ⟨read.length, unread.map .terminal ++ [.endMarker]⟩

theorem Input.front?_after (read unread : List Terminal) :
    (Input.after read unread).front? = some (.first unread) := by
  cases unread <;> rfl

theorem Input.ofTokens_eq (tokens : List Terminal) : Input.ofTokens tokens = .after [] tokens := by
  simp [ofTokens, ofBuffer, after]

namespace Configuration

structure At (c : Configuration) (upper : List Symbol) (read unread : List Terminal) : Prop where
  stack : c.stack.symbols = upper ++ [.endMarker]
  input : c.input = .after read unread

variable {c c' : Configuration} {upper below : List Symbol} {read unread rest : List Terminal}

theorem initial_at (start : NonTerminal) (tokens : List Terminal) :
    (initial start tokens).At [.nonterminal start] [] tokens :=
  ⟨rfl, Input.ofTokens_eq tokens⟩

theorem At.front (h : c.At upper read unread) : c.input.front? = some (.first unread) := by
  rw [h.input, Input.front?_after]

theorem At.top_exists (h : c.At upper read unread) : ∃ s, c.stack.top? = some s := by
  cases upper with
  | nil => exact ⟨.endMarker, by simp [Stack.top?, h.stack]⟩
  | cons s below => exact ⟨s, by simp [Stack.top?, h.stack]⟩

theorem At.top_cons {s : Symbol} (h : c.At (s :: below) read unread) :
    c.stack.top? = some s := by
  simp [Stack.top?, h.stack]

theorem At.position_eq {read' unread' : List Terminal} (h : c.At upper read unread)
    (htokens : read ++ unread = read' ++ unread')
    (hunread : c.input.unread = unread'.map .terminal ++ [.endMarker]) :
    c.input.position = read'.length := by
  have hlen := congrArg List.length htokens
  rw [h.input, Input.after] at hunread
  have hrest := congrArg List.length hunread
  have hposition : c.input.position = read.length := by rw [h.input, Input.after]
  simp only [List.length_append, List.length_map] at hlen hrest
  omega

theorem At.height (h : c.At upper read unread) : c.stack.height = upper.length + 1 := by
  simp [c.stack.height_eq, h.stack]

theorem At.finished_nil (h : c.At [] read []) : c.Finished :=
  ⟨by simp [Stack.top?, h.stack], h.front⟩

theorem At.unread_of_finished (h : c.At upper read unread) (hf : c.Finished) : unread = [] := by
  cases unread with
  | nil => rfl
  | cons a rest => simp [Finished, h.front, Lookahead.first] at hf

theorem At.upper_of_finished (h : c.At upper read unread) (hf : c.Finished) :
    upper = [] ∨ ∃ below, upper = .endMarker :: below := by
  cases upper with
  | nil => exact .inl rfl
  | cons s below =>
    cases h.top_cons.symm.trans hf.1
    exact .inr ⟨below, rfl⟩

end Configuration

open Predictive.Configuration

namespace Table

variable {t : Table} {c c' : Configuration} {upper below : List Symbol}
  {read unread rest : List Terminal}

theorem Move.cases_at (h : t.Move c c') (hc : c.At upper read unread) :
    (∃ n below p, upper = .nonterminal n :: below ∧
      t.cell? n (.first unread) = some (.production p) ∧ c'.applied = some p ∧
      c'.At (p.expansion ++ below) read unread) ∨
    (∃ a below rest, upper = .terminal a :: below ∧ unread = a :: rest ∧ c'.applied = none ∧
      c'.At below (read ++ [a]) rest) := by
  cases h with
  | @expand s n below l p top front cell pushed =>
    left
    cases front.symm.trans hc.front
    cases upper with
    | nil => simp [hc.stack] at top
    | cons x upper =>
      rw [hc.stack, List.cons_append] at top
      cases top
      exact ⟨n, upper, p, rfl, cell, rfl, ⟨by rw [pushed, List.append_assoc], hc.input⟩⟩
  | @consume s a below more top front popped =>
    right
    cases upper with
    | nil => simp [hc.stack] at top
    | cons x upper =>
      rw [hc.stack, List.cons_append] at top
      cases top
      cases unread with
      | nil => simp [hc.input, Input.after] at front
      | cons b rest =>
        simp only [hc.input, Input.after, List.map_cons, List.cons_append, List.cons.injEq,
          Lookahead.terminal.injEq] at front
        obtain ⟨rfl, rfl⟩ := front
        exact ⟨b, upper, rest, rfl, rfl, rfl, ⟨popped, by simp [hc.input, Input.after]⟩⟩

theorem move_of_next (hc : c.At upper read unread) (h : t.next c = .moved c') :
    t.Move c c' := by
  obtain ⟨s, top⟩ := hc.top_exists
  obtain hf | ⟨c₁, h₁⟩ | ⟨r, hr, -⟩ := t.next_cases top hc.front
  · simp [next_of_finished hf] at h
  · cases (next_of_move h₁).symm.trans h
    exact h₁
  · simp [hr] at h

theorem finished_of_next (hc : c.At upper read unread) (h : t.next c = .accepted) :
    c.Finished := by
  obtain ⟨s, top⟩ := hc.top_exists
  obtain hf | ⟨c₁, h₁⟩ | ⟨r, hr, -⟩ := t.next_cases top hc.front
  · exact hf
  · simp [next_of_move h₁] at h
  · simp [hr] at h

theorem rejects_of_next {r : Rejection} (hc : c.At upper read unread)
    (h : t.next c = .stuck r) : t.Stuck c ∧ t.Rejects read.length c r := by
  have hposition : c.input.position = read.length := by rw [hc.input]; rfl
  have hf : ¬ c.Finished := fun hf => by simp [next_of_finished hf] at h
  have hm : ∀ c', ¬ t.Move c c' := fun c' hm => by simp [next_of_move hm] at h
  obtain ⟨s, top⟩ := hc.top_exists
  obtain hf' | ⟨c₁, h₁⟩ | ⟨r', hr', hrej⟩ := t.next_cases top hc.front
  · exact absurd hf' hf
  · exact absurd h₁ (hm c₁)
  · cases hr'.symm.trans h
    exact ⟨⟨hf, hm⟩, hposition ▸ hrej⟩

theorem step_of_next (h : t.next c = .moved c') : c'.step = c.step + 1 := by
  simp only [next] at h
  split at h
  · cases h
  · split at h
    · cases h
    · cases h; rfl
  · split at h
    · cases h
    · split at h
      · cases h; rfl
      · cases h

theorem move_expand {n : NonTerminal} {p : Production}
    (hc : c.At (.nonterminal n :: below) read unread)
    (cell : t.cell? n (.first unread) = some (.production p)) :
    ∃ c', t.Move c c' ∧ c'.At (p.expansion ++ below) read unread := by
  let s := c.stack.pop.2.pushAll p.expansion
  have hs : s.symbols = p.expansion ++ (below ++ [.endMarker]) := by
    simp [s, Stack.symbols_pushAll, Stack.symbols_pop, hc.stack]
  exact ⟨⟨c.step + 1, s, c.input, some p⟩, .expand hc.stack hc.front cell hs,
    ⟨by simp [hs], hc.input⟩⟩

theorem move_consume {a : Terminal} (hc : c.At (.terminal a :: below) read (a :: rest)) :
    ∃ c', t.Move c c' ∧ c'.At below (read ++ [a]) rest := by
  have hs : c.stack.pop.2.symbols = below ++ [.endMarker] := by
    simp [Stack.symbols_pop, hc.stack]
  exact ⟨_, .consume hc.stack (by simp [hc.input, Input.after]; rfl) hs,
    ⟨hs, by simp [hc.input, Input.after]⟩⟩

def Reaches (t : Table) (start : NonTerminal) (tokens : List Terminal) (c : Configuration) :
    Prop :=
  Relation.ReflTransGen t.Move (.initial start tokens) c

theorem Reaches.exists_at {start : NonTerminal} {tokens : List Terminal}
    (h : t.Reaches start tokens c) :
    ∃ upper read unread, c.At upper read unread ∧ tokens = read ++ unread := by
  induction h with
  | refl => exact ⟨_, _, _, initial_at start tokens, rfl⟩
  | tail _ hmove ih =>
    obtain ⟨upper, read, unread, hat, rfl⟩ := ih
    obtain ⟨n, below, p, -, -, -, hat'⟩ | ⟨a, below, rest, -, rfl, -, hat'⟩ :=
      hmove.cases_at hat
    · exact ⟨_, _, _, hat', rfl⟩
    · exact ⟨_, _, _, hat', by simp⟩

inductive Accepts (t : Table) : Configuration → Trace → Prop
  | stop {c : Configuration} (h : c.Finished) : Accepts t c [c]
  | move {c c' : Configuration} {trace : Trace} (h : t.Move c c') (rest : Accepts t c' trace) :
      Accepts t c (c :: trace)

theorem Accepts.head {trace : Trace} (h : t.Accepts c trace) : ∃ rest, trace = c :: rest := by
  cases h <;> exact ⟨_, rfl⟩

theorem Accepts.finished_of_singleton (h : t.Accepts c [c]) : c.Finished := by
  cases h with
  | stop hf => exact hf
  | move _ rest => cases rest

theorem Accepts.move_cons {rest : Trace} (h : t.Accepts c (c :: c' :: rest)) :
    t.Move c c' ∧ t.Accepts c' (c' :: rest) := by
  cases h with
  | move hmove hrest =>
    obtain ⟨_, he⟩ := hrest.head
    cases he
    exact ⟨hmove, hrest⟩

theorem Move.applied_cell (h : t.Move c c') {p : Production} (hp : c'.applied = some p) :
    ∃ n l, t.cell? n l = some (.production p) := by
  cases h with
  | @expand _ n _ l _ _ _ cell _ =>
    cases hp
    exact ⟨n, l, cell⟩
  | consume => cases hp

theorem Accepts.applied_cell {trace : Trace} (h : t.Accepts c trace)
    (hc : ∀ p, c.applied = some p → ∃ n l, t.cell? n l = some (.production p)) :
    ∀ c' ∈ trace, ∀ p, c'.applied = some p → ∃ n l, t.cell? n l = some (.production p) := by
  induction h with
  | stop => exact List.forall_mem_singleton.mpr hc
  | move hmove _ ih => exact List.forall_mem_cons.mpr ⟨hc, ih fun p hp => hmove.applied_cell hp⟩

theorem Accepts.executes {trace : Trace} (h : t.Accepts c trace) :
    t.Executes none c trace none := by
  induction h with
  | stop h => exact .accepted (next_of_finished h)
  | move h _ ih => exact .moved (next_of_move h) rfl ih

end Table

end Predictive
