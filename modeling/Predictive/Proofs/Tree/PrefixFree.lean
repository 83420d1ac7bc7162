import Predictive.Proofs.Automaton.Outcome
import Predictive.Proofs.Command.Stages
import Predictive.Proofs.Tree.Correspondence

/-! Traces that grow a tree are prefix-free. Every configuration after the first closes one
awaited symbol, and an expansion puts its own in the place of it, so the number of symbols
awaited is known from the productions alone. It is zero at the end of the trace and nowhere
before: a step that finds nothing awaited fails. What is cut off therefore leaves unfinished
nodes, and what is added finds no node to work on. -/

namespace Predictive

namespace Trace

def born (cs : Trace) : Nat := (cs.productions.map fun p => p.expansion.length).sum

theorem born_cons (c : Configuration) (rest : Trace) :
    born (c :: rest) = (c.applied.elim 0 fun p => p.expansion.length) + born rest := by
  cases h : c.applied <;> simp [born, productions, h]

end Trace

namespace Growth

variable {index : Nat} {previous c : Configuration} {rest : Trace} {symbols left : List Symbol}

theorem meet_nil (index : Nat) (previous c : Configuration) : meet index previous c [] =
    .error (if c.step = previous.step + 1 then .underflow c.step
      else .stepGap index (previous.step + 1) c.step) := by
  by_cases h : c.step = previous.step + 1 <;> simp [meet, h]

theorem length_of_meet (h : meet index previous c symbols = .ok left) :
    left.length + 1 = symbols.length + c.applied.elim 0 fun p => p.expansion.length := by
  obtain ⟨-, s, below, rfl, ⟨p, happ, -, rfl⟩ | ⟨token, happ, -, -, rfl⟩⟩ := meet_cases h
  · rw [happ, Option.elim_some, List.length_append, List.length_cons]
    omega
  · rw [happ, Option.elim_none, List.length_cons]

theorem length_of_meets (h : meets index previous rest symbols = .ok left) :
    left.length + rest.length = symbols.length + rest.born := by
  induction rest generalizing index previous symbols with
  | nil =>
    cases h
    rfl
  | cons c rest ih =>
    rw [meets] at h
    cases hmeet : meet index previous c symbols with
    | error e => simp [hmeet] at h
    | ok symbols' =>
      simp only [hmeet] at h
      have hhere := length_of_meet hmeet
      have hlater := ih h
      rw [Trace.born_cons, List.length_cons]
      omega

theorem meets_append (index : Nat) (previous : Configuration) (before after : Trace)
    (symbols : List Symbol) : meets index previous (before ++ after) symbols =
      (meets index previous before symbols).bind
        (meets (index + before.length) (before.getLast?.getD previous) after) := by
  induction before generalizing index previous symbols with
  | nil => rfl
  | cons c before ih =>
    rw [List.cons_append, meets, meets]
    cases meet index previous c symbols with
    | error e => rfl
    | ok symbols' =>
      simp only [ih, List.length_cons, List.getLast?_cons, Option.getD_some]
      rw [Nat.add_right_comm, Nat.add_assoc]

theorem awaited_of_meets_append {before after : Trace} (hafter : after ≠ [])
    (h : meets index previous (before ++ after) symbols = .ok left) :
    ∃ s below, meets index previous before symbols = .ok (s :: below) := by
  rw [meets_append] at h
  cases hbefore : meets index previous before symbols with
  | error e => simp [hbefore, Except.bind] at h
  | ok mid =>
    cases mid with
    | cons s below => exact ⟨s, below, rfl⟩
    | nil =>
      obtain ⟨c, more, rfl⟩ := List.exists_cons_of_ne_nil hafter
      simp [hbefore, Except.bind, meets, meet_nil] at h

end Growth

namespace Table

variable {t : Table} {c c' : Configuration} {rest : Trace}

theorem Move.height_eq (h : t.Move c c') : c'.stack.height + 1 =
    c.stack.height + c'.applied.elim 0 fun p => p.expansion.length := by
  cases h with
  | expand top _ _ pushed =>
    simp only [Stack.height_eq, top, pushed, List.length_append, List.length_cons,
      Option.elim_some]
    omega
  | consume top _ popped =>
    simp [Stack.height_eq, top, popped]

theorem height_of_isChain {i : Nat} (h : (c :: rest).IsChain t.Move)
    (hi : (c :: rest)[i]? = some c') :
    c'.stack.height + i = c.stack.height + Trace.born (rest.take i) := by
  induction rest generalizing c i with
  | nil =>
    obtain ⟨rfl, rfl⟩ : i = 0 ∧ c = c' := by
      cases i with
      | zero => exact ⟨rfl, by simpa using hi⟩
      | succ i => simp at hi
    rfl
  | cons c₁ rest ih =>
    obtain ⟨hmove, hrest⟩ := List.isChain_cons_cons.mp h
    cases i with
    | zero =>
      cases hi
      rfl
    | succ i =>
      have hhere := hmove.height_eq
      have hlater := ih hrest hi
      rw [List.take_succ_cons, Trace.born_cons]
      omega

end Table

namespace Tree

variable {first : Configuration} {rest : Trace} {tree : Tree}

theorem meets_of_ofTrace (h : ofTrace (first :: rest) = .ok tree) :
    Growth.meets 1 first rest [tree.symbol] = .ok [] := by
  obtain ⟨-, -, hn, ha⟩ := aligned_of_ofTrace h
  have hvisit : Aligned first rest (visit [tree]) := ha
  exact Growth.meets_of_aligned 1 hn hvisit

theorem ofTrace_truncated {before after : Trace} (hafter : after ≠ [])
    (h : ofTrace (first :: (before ++ after)) = .ok tree) :
    ∃ pending, ofTrace (first :: before) = .error (.unfinished pending) ∧ 1 ≤ pending ∧
      pending + before.length = 1 + before.born := by
  obtain ⟨hroot, hstep, -, -⟩ := aligned_of_ofTrace h
  obtain ⟨s, below, hmeets⟩ := Growth.awaited_of_meets_append hafter (meets_of_ofTrace h)
  refine ⟨below.length + 1, ofTrace_of_meets_pending hroot hstep hmeets, Nat.succ_pos _, ?_⟩
  exact Growth.length_of_meets hmeets

theorem ofTrace_extended (h : ofTrace (first :: rest) = .ok tree) (c : Configuration)
    (more : Trace) : ofTrace (first :: (rest ++ c :: more)) =
      .error (if c.step = rest.length + 1 then .underflow c.step
        else .stepGap (rest.length + 1) (rest.length + 1) c.step) := by
  obtain ⟨hroot, hstep, hn, -⟩ := aligned_of_ofTrace h
  have hlast : (rest.getLast?.getD first).step = rest.length := by
    cases hrest : rest.getLast? with
    | none => simp [List.getLast?_eq_none_iff.mp hrest, hstep]
    | some last =>
      rw [List.getLast?_eq_getElem?] at hrest
      have hcount := hn _ last hrest
      have hpos : 0 < rest.length := by
        obtain ⟨hlt, -⟩ := List.getElem?_eq_some_iff.mp hrest
        omega
      rw [Option.getD_some]
      omega
  apply ofTrace_of_meets_error hroot hstep
  rw [Growth.meets_append, meets_of_ofTrace h, Except.bind, Growth.meets, Growth.meet_nil, hlast,
    Nat.add_comm 1]

/-- No trace that grows a tree is the beginning of another one. Cut off anywhere it leaves as
many unfinished nodes as the productions so far account for, which for the trace of a run is
the height of the stack above its bottom, and whatever is put behind it fails at its first
configuration. -/
theorem ofTrace_prefix_free {cs : Trace} (h : ofTrace cs = .ok tree) :
    (∀ k, 1 ≤ k → k < cs.length →
      ∃ pending, ofTrace (cs.take k) = .error (.unfinished pending) ∧ 1 ≤ pending ∧
        pending + (k - 1) = 1 + Trace.born (cs.take k).tail ∧
        ∀ (t : Table) start tokens limit, t.drive start tokens limit = some (.ok cs) →
          ∃ c, cs[k - 1]? = some c ∧ c.stack.height = pending + 1) ∧
    ∀ c more, ofTrace (cs ++ c :: more) =
      .error (if c.step = cs.length then .underflow cs.length
        else .stepGap cs.length cs.length c.step) := by
  cases cs with
  | nil => cases h
  | cons first rest =>
    constructor
    · intro k hpos hlt
      obtain ⟨j, rfl⟩ : ∃ j, k = j + 1 := ⟨k - 1, by omega⟩
      have hj : j < rest.length := by simpa using hlt
      have hafter : rest.drop j ≠ [] := fun hnil => by
        have hle := List.drop_eq_nil_iff.mp hnil
        omega
      have hlength : (rest.take j).length = j := List.length_take_of_le hj.le
      rw [← List.take_append_drop j rest] at h
      obtain ⟨pending, herror, hone, hcount⟩ := ofTrace_truncated hafter h
      rw [hlength] at hcount
      refine ⟨pending, herror, hone, hcount, ?_⟩
      intro t start tokens limit hdrive
      have haccepts := Table.accepts_of_drive hdrive
      have hi : (first :: rest)[j]? = some (first :: rest)[j] :=
        List.getElem?_eq_getElem (Nat.lt_succ_of_lt hj)
      have hheight := Table.height_of_isChain haccepts.isChain hi
      obtain ⟨_, hfirst⟩ := haccepts.head
      cases hfirst
      have hstart : (Configuration.initial start tokens).stack.height = 2 := rfl
      exact ⟨_, hi, by omega⟩
    · intro c more
      rw [List.cons_append, ofTrace_extended h, List.length_cons]
      split
      · next hstep => rw [hstep]
      · rfl

end Tree

namespace Letters

theorem letterTrace_cut_and_extended : Tree.ofTrace letterTrace = .ok letterTree ∧
    Tree.ofTrace (letterTrace.take 3) = .error (.unfinished 1) ∧
    Tree.ofTrace (letterTrace ++ [⟨4, .empty, .ofTokens [], none⟩]) = .error (.underflow 4) ∧
    Tree.ofTrace (letterTrace ++ [.initial word []]) = .error (.stepGap 4 4 0) := by
  obtain ⟨hcut, hextended⟩ := Tree.ofTrace_prefix_free ofTrace_letterTrace
  obtain ⟨pending, herror, -, hcount, -⟩ := hcut 3 (by decide) (by decide)
  obtain rfl : pending = 1 := by
    have hborn : Trace.born (letterTrace.take 3).tail = 2 := rfl
    omega
  exact ⟨ofTrace_letterTrace, herror, hextended _ [], hextended _ []⟩

end Letters

end Predictive
