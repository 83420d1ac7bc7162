import Predictive.Proofs.Tree.Buds

/-! The growth of a tree, seen through the symbols that are still awaited. What a step does
to them, and whether it fails, does not depend on the array at all: `Growth.meets` tells
the outcome of all steps. When nothing is awaited in the end, the trees of the first
pending places show in pre-order what the trace expands and matches. -/

namespace Predictive

open Predictive.Tree (visit)

/-- The node is what this configuration made of the awaited node, given the one before. -/
inductive Shows (previous c : Configuration) : Tree → Prop
  | expansion {p : Production} {ts : List Tree} (applied : c.applied = some p)
      (children : ts.map Tree.symbol = p.expansion) :
      Shows previous c (.node (.nonterminal p.left) ts none)
  | token {s : Symbol} {token : Lookahead} (applied : c.applied = none)
      (front : previous.input.front? = some token) (met : s.accepts token = true) :
      Shows previous c (.node s [] (some token.text))

inductive Aligned : Configuration → Trace → List Tree → Prop
  | nil {c : Configuration} : Aligned c [] []
  | cons {previous c : Configuration} {rest : Trace} {n : Tree} {ns : List Tree}
      (here : Shows previous c n) (later : Aligned c rest ns) :
      Aligned previous (c :: rest) (n :: ns)

namespace Growth

def meet (index : Nat) (previous c : Configuration) (symbols : List Symbol) :
    Except TreeError (List Symbol) :=
  if c.step ≠ previous.step + 1 then .error (.stepGap index (previous.step + 1) c.step)
  else
    match symbols with
    | [] => .error (.underflow c.step)
    | s :: below =>
      match c.applied with
      | some p =>
        if s = .nonterminal p.left then .ok (p.expansion ++ below)
        else .error (.expansionMismatch c.step p.left s)
      | none =>
        match previous.input.front? with
        | none => .error (.noToken c.step)
        | some token =>
          if s.accepts token then .ok below else .error (.matchMismatch c.step token s)

theorem meet_cases {index : Nat} {previous c : Configuration} {symbols left : List Symbol}
    (h : meet index previous c symbols = .ok left) : c.step = previous.step + 1 ∧
      ∃ s below, symbols = s :: below ∧
        ((∃ p, c.applied = some p ∧ s = .nonterminal p.left ∧ left = p.expansion ++ below) ∨
          ∃ token, c.applied = none ∧ previous.input.front? = some token ∧
            s.accepts token = true ∧ left = below) := by
  by_cases hstep : c.step = previous.step + 1
  · cases symbols with
    | nil => simp [meet, hstep] at h
    | cons s below =>
      rw [meet, if_neg (not_not.mpr hstep)] at h
      refine ⟨hstep, s, below, rfl, ?_⟩
      cases happ : c.applied with
      | some p =>
        by_cases hs : s = .nonterminal p.left
        · simp only [happ, if_pos hs, Except.ok.injEq] at h
          exact .inl ⟨p, rfl, hs, h.symm⟩
        · simp [happ, hs] at h
      | none =>
        cases hfront : previous.input.front? with
        | none => simp [happ, hfront] at h
        | some token =>
          by_cases hs : s.accepts token = true
          · simp only [happ, hfront, if_pos hs, Except.ok.injEq] at h
            exact .inr ⟨token, rfl, rfl, hs, h.symm⟩
          · simp [happ, hfront, hs] at h
  · simp [meet, hstep] at h

def meets : Nat → Configuration → Trace → List Symbol → Except TreeError (List Symbol)
  | _, _, [], symbols => .ok symbols
  | index, previous, c :: rest, symbols =>
    match meet index previous c symbols with
    | .error e => .error e
    | .ok symbols' => meets (index + 1) c rest symbols'

/-- A step closes the first pending place: its bud is final, with the places of its children
awaited in its stead. -/
inductive Closes (previous c : Configuration) (g g' : Growth) :
    List Symbol → List Symbol → Prop
  | intro {front : Nat} {rest children : List Nat} {s : Symbol} {below born : List Symbol}
      {v : Option String} (old : g.pending = front :: rest)
      (new : g'.pending = children ++ rest) (length_eq : children.length = born.length)
      (bud : g'.nodes[front]? = some ⟨s, children, v⟩) (done : front ∉ g'.pending)
      (shows_node : ∀ ts, ts.map Tree.symbol = born → Shows previous c (.node s ts v)) :
      Closes previous c g g' (s :: below) (born ++ below)

variable {previous c : Configuration} {index : Nat} {g : Growth} {symbols left : List Symbol}

section Front

variable {nodes : Array Bud} {front : Nat} {rest : List Nat}
  {hlt : ∀ i ∈ front :: rest, i < nodes.size} {hrest : ∀ i ∈ rest, i < nodes.size}
  {s : Symbol} {below : List Symbol}

theorem step_of_front (hrest : ∀ i ∈ rest, i < nodes.size)
    (h : Awaits ⟨nodes, front :: rest, hlt⟩ (s :: below)) (hstep : c.step = previous.step + 1) :
    step index previous c ⟨nodes, front :: rest, hlt⟩ =
      match c.applied with
      | some p =>
        if s = .nonterminal p.left then .ok (expand nodes front rest hrest p.expansion)
        else .error (.expansionMismatch c.step p.left s)
      | none =>
        match previous.input.front? with
        | none => .error (.noToken c.step)
        | some token =>
          if s.accepts token then .ok (consume nodes front rest hrest token)
          else .error (.matchMismatch c.step token s) := by
  obtain ⟨hfront, hbud⟩ := Array.getElem?_eq_some_iff.mp h.front_eq.1
  have hsymbol : nodes[front].symbol = s := by rw [hbud, Bud.fresh]
  subst hsymbol
  exact if_neg (not_not.mpr hstep)

theorem closes_expand {p : Production}
    (h : Awaits ⟨nodes, front :: rest, hlt⟩ (.nonterminal p.left :: below))
    (happ : c.applied = some p) :
    Closes previous c ⟨nodes, front :: rest, hlt⟩ (expand nodes front rest hrest p.expansion)
      (.nonterminal p.left :: below) (p.expansion ++ below) := by
  refine .intro rfl rfl List.length_range' h.front_expand.1 h.front_expand.2 ?_
  exact fun ts hts => .expansion happ hts

theorem closes_consume {token : Lookahead}
    (h : Awaits ⟨nodes, front :: rest, hlt⟩ (s :: below)) (happ : c.applied = none)
    (hfront : previous.input.front? = some token) (hs : s.accepts token = true) :
    Closes previous c ⟨nodes, front :: rest, hlt⟩ (consume nodes front rest hrest token)
      (s :: below) below := by
  have hshows : ∀ ts, ts.map Tree.symbol = [] →
      Shows previous c (.node s ts (some token.text)) := by
    intro ts hts
    rw [List.map_eq_nil_iff.mp hts]
    exact .token happ hfront hs
  exact .intro rfl (List.nil_append rest).symm rfl h.front_consume.1 h.front_consume.2 hshows

end Front

theorem step_of_awaits (h : Awaits g symbols) (index : Nat) (previous c : Configuration) :
    (∃ e, meet index previous c symbols = .error e ∧ step index previous c g = .error e) ∨
    ∃ left g', meet index previous c symbols = .ok left ∧ step index previous c g = .ok g' ∧
      Awaits g' left ∧ Keeps g g' ∧ Closes previous c g g' symbols left := by
  by_cases hstep : c.step = previous.step + 1
  · obtain ⟨nodes, pending, hlt⟩ := g
    cases symbols with
    | nil =>
      cases h.buds
      exact .inl ⟨.underflow c.step, by simp [meet, hstep], by simp [step, hstep]⟩
    | cons s below =>
      cases pending with
      | nil => cases h.buds
      | cons front rest =>
        have hrest : ∀ i ∈ rest, i < nodes.size := fun i hi =>
          hlt i (List.mem_cons_of_mem _ hi)
        rw [step_of_front hrest h hstep, meet, if_neg (not_not.mpr hstep)]
        cases happ : c.applied with
        | some p =>
          by_cases hs : s = .nonterminal p.left
          · subst hs
            exact .inr ⟨_, _, if_pos rfl, if_pos rfl, h.expand p.expansion, keeps_expand,
              closes_expand h happ⟩
          · exact .inl ⟨_, if_neg hs, if_neg hs⟩
        | none =>
          cases hfront : previous.input.front? with
          | none => exact .inl ⟨_, rfl, rfl⟩
          | some token =>
            by_cases hs : s.accepts token = true
            · exact .inr ⟨_, _, if_pos hs, if_pos hs, h.consume token, keeps_consume,
                closes_consume h happ hfront hs⟩
            · exact .inl ⟨_, if_neg hs, if_neg hs⟩
  · left
    exact ⟨.stepGap index (previous.step + 1) c.step, by simp [meet, hstep],
      by simp [step, hstep]⟩

theorem steps_of_meets_error {rest : Trace} {e : TreeError} (h : Awaits g symbols)
    (he : meets index previous rest symbols = .error e) :
    steps index previous rest g = .error e := by
  induction rest generalizing index previous g symbols with
  | nil => cases he
  | cons c rest ih =>
    obtain ⟨e', hm, hs⟩ | ⟨left, g', hm, hs, hg', -, -⟩ := step_of_awaits h index previous c
    · simp only [meets, hm] at he
      cases he
      simp [steps, hs]
    · simp only [meets, hm] at he
      simp only [steps, hs]
      exact ih hg' he

/-- The trees that will stand at the pending places, one step earlier. -/
theorem Closes.grown {g' final : Growth} (h : Closes previous c g g' symbols left)
    (hkeeps : Keeps g' final) {ts : List Tree}
    (hts : List.Forall₂ (Grown final.nodes) g'.pending ts) (hroots : ts.map Tree.symbol = left) :
    ∃ n us, List.Forall₂ (Grown final.nodes) g.pending us ∧ us.map Tree.symbol = symbols ∧
      visit us = n :: visit ts ∧ Shows previous c n := by
  obtain ⟨old, new, hlen, bud, done, hshows⟩ := h
  rename_i front rest children s below born v
  obtain ⟨own, others, rfl, hown, hothers⟩ := List.map_eq_append_iff.mp hroots
  have hlength : own.length = children.length := by
    rw [hlen, ← hown, List.length_map]
  rw [new] at hts
  have htake := List.forall₂_take_append _ _ _ hts
  have hdrop := List.forall₂_drop_append _ _ _ hts
  rw [hlength, List.take_left' rfl] at htake
  rw [hlength, List.drop_left' rfl] at hdrop
  obtain ⟨hsize, -⟩ := Array.getElem?_eq_some_iff.mp bud
  have hfinal : final.nodes[front]? = some ⟨s, children, v⟩ := by
    rw [(hkeeps front hsize done).2.2, bud]
  have hnode : Grown final.nodes front (.node s own v) := .node hfinal htake
  refine ⟨.node s own v, .node s own v :: others, old ▸ .cons hnode hdrop, ?_, ?_, hshows own hown⟩
  · rw [List.map_cons, hothers, Tree.symbol]
  · rw [visit]

theorem steps_of_meets_ok {rest : Trace} (h : Awaits g symbols)
    (ho : meets index previous rest symbols = .ok left) :
    ∃ g', steps index previous rest g = .ok g' ∧ Awaits g' left ∧ Keeps g g' ∧
      (left = [] → ∃ ts, List.Forall₂ (Grown g'.nodes) g.pending ts ∧
        ts.map Tree.symbol = symbols ∧ Aligned previous rest (visit ts)) := by
  induction rest generalizing index previous g symbols with
  | nil =>
    cases ho
    refine ⟨g, rfl, h, .refl g, ?_⟩
    intro hnil
    subst hnil
    have hp : g.pending = [] := List.forall₂_nil_right_iff.mp h.buds
    exact ⟨[], by rw [hp]; exact .nil, rfl, by rw [visit]; exact .nil⟩
  | cons c rest ih =>
    obtain ⟨e', hm, hs⟩ | ⟨symbols', g₁, hm, hs, hg₁, hkeeps₁, hcloses⟩ :=
      step_of_awaits h index previous c
    · simp [meets, hm] at ho
    · simp only [meets, hm] at ho
      -- The later steps give the trees below; this one only puts its node on top of them.
      obtain ⟨g', hsteps, hg', hkeeps, htrees⟩ := ih hg₁ ho
      refine ⟨g', by simp only [steps, hs]; exact hsteps, hg', hkeeps₁.trans hkeeps, ?_⟩
      intro hleft
      obtain ⟨ts, hts, hroots, haligned⟩ := htrees hleft
      obtain ⟨n, us, hus, hsymbols, hvisit, hshows⟩ := hcloses.grown hkeeps hts hroots
      exact ⟨us, hus, hsymbols, hvisit ▸ .cons hshows haligned⟩

end Growth

namespace Tree

variable {first : Configuration} {rest : Trace} {root : Symbol}

theorem ofTrace_of_meets_error {e : TreeError} (hroot : first.stack.get? 1 = some root)
    (hstep : first.step = 0) (h : Growth.meets 1 first rest [root] = .error e) :
    ofTrace (first :: rest) = .error e := by
  have hsteps := Growth.steps_of_meets_error (Growth.awaits_ofRoot root) h
  simp [ofTrace, hroot, hstep, hsteps]

theorem ofTrace_of_meets_pending {s : Symbol} {more : List Symbol}
    (hroot : first.stack.get? 1 = some root) (hstep : first.step = 0)
    (h : Growth.meets 1 first rest [root] = .ok (s :: more)) :
    ofTrace (first :: rest) = .error (.unfinished (more.length + 1)) := by
  obtain ⟨g, hsteps, hg, -, -⟩ := Growth.steps_of_meets_ok (Growth.awaits_ofRoot root) h
  have hlen := hg.buds.length_eq
  have hpending : g.pending.isEmpty = false := by
    cases hp : g.pending with
    | nil => simp [hp] at hlen
    | cons => rfl
  simp [ofTrace, hroot, hstep, hsteps, hpending, hlen]

theorem ofTrace_of_meets_nil (hroot : first.stack.get? 1 = some root)
    (hstep : first.step = 0) (h : Growth.meets 1 first rest [root] = .ok []) :
    ∃ tree, ofTrace (first :: rest) = .ok tree ∧ tree.symbol = root ∧
      Aligned first rest tree.preorder := by
  obtain ⟨g, hsteps, hg, hkeeps, htrees⟩ :=
    Growth.steps_of_meets_ok (Growth.awaits_ofRoot root) h
  obtain ⟨ts, hgrown, hroots, haligned⟩ := htrees rfl
  obtain ⟨t, _, ht, hnil, rfl⟩ := List.forall₂_cons_left_iff.mp hgrown
  cases hnil
  have hpending : g.pending = [] := List.forall₂_nil_right_iff.mp hg.buds
  have hsize : 0 < g.nodes.size := by
    cases ht with
    | node found => exact (Array.getElem?_eq_some_iff.mp found).1
  obtain ⟨tree, hassemble, htree⟩ := Growth.assemble_grown hg.owned hsize
  cases htree.unique hg.owned ht
  refine ⟨t, ?_, by simpa using hroots, haligned⟩
  simp [ofTrace, hroot, hstep, hsteps, hpending, hassemble]

end Tree

end Predictive
