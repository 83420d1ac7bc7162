import Predictive.Proofs.Tree.Alignment

/-! Which traces grow which trees. A trace grows a tree exactly when it is numbered from zero,
its first stack names the root, and the nodes of the tree in pre-order are what its
configurations expand and match, one node for each configuration after the first. Nothing
else of a configuration is looked at, so the trace may be made by hand. Conversely the
pre-order determines the tree: each node comes with the number of its children. -/

namespace Predictive

open Predictive.Tree (visit)

def Numbered (previous : Configuration) (rest : Trace) : Prop :=
  ∀ k (c : Configuration), rest[k]? = some c → c.step = previous.step + k + 1

variable {previous c : Configuration} {rest : Trace} {index : Nat}

theorem numbered_nil : Numbered previous [] := by
  intro k c hk
  simp at hk

theorem numbered_cons :
    Numbered previous (c :: rest) ↔ c.step = previous.step + 1 ∧ Numbered c rest := by
  constructor
  · intro h
    have hc : c.step = previous.step + 1 := h 0 c rfl
    refine ⟨hc, fun k c' hk => ?_⟩
    have hstep := h (k + 1) c' hk
    omega
  · intro ⟨hc, hrest⟩ k c' hk
    cases k with
    | zero =>
      cases hk
      exact hc
    | succ k =>
      have hstep := hrest k c' hk
      omega

theorem shows_iff {n : Tree} : Shows previous c n ↔
    (∀ p, c.applied = some p →
      n.symbol = .nonterminal p.left ∧ n.children.map Tree.symbol = p.expansion ∧
        n.value = none) ∧
    (c.applied = none →
      n.children = [] ∧ ∃ token, previous.input.front? = some token ∧
        n.symbol.accepts token = true ∧ n.value = some token.text) := by
  constructor
  · intro h
    cases h with
    | @expansion p ts happ hts =>
      refine ⟨fun q hq => ?_, fun hnone => by simp [happ] at hnone⟩
      cases happ.symm.trans hq
      exact ⟨rfl, hts, rfl⟩
    | @token s token happ hfront hmet =>
      exact ⟨fun q hq => by simp [happ] at hq, fun _ => ⟨rfl, token, hfront, hmet, rfl⟩⟩
  · intro ⟨hexpansion, htoken⟩
    obtain ⟨s, ts, v⟩ := n
    cases happ : c.applied with
    | some p =>
      obtain ⟨rfl, hts, rfl⟩ := hexpansion p happ
      exact .expansion happ hts
    | none =>
      obtain ⟨rfl, token, hfront, hmet, rfl⟩ := htoken happ
      exact .token happ hfront hmet

theorem aligned_iff {ns : List Tree} : Aligned previous rest ns ↔
    ns.length = rest.length ∧
      ∀ (i : Nat) b c n, (previous :: rest)[i]? = some b → rest[i]? = some c →
        ns[i]? = some n → Shows b c n := by
  constructor
  · intro h
    induction h with
    | nil => simp
    | cons here later ih =>
      refine ⟨by simp [ih.1], fun i b c n hb hc hn => ?_⟩
      cases i with
      | zero =>
        cases hb
        cases hc
        cases hn
        exact here
      | succ i => exact ih.2 i b c n hb hc hn
  · intro ⟨hlen, hshows⟩
    induction rest generalizing previous ns with
    | nil =>
      cases List.length_eq_zero_iff.mp hlen
      exact .nil
    | cons c rest ih =>
      cases ns with
      | nil => simp at hlen
      | cons n ns =>
        have here : Shows previous c n := hshows 0 previous c n rfl rfl rfl
        have hlater : Aligned c rest ns :=
          ih (by simpa using hlen) fun i b c' n' hb hc' hn' => hshows (i + 1) b c' n' hb hc' hn'
        exact .cons here hlater

theorem Shows.unique {s : Symbol} {ts us : List Tree} {v w : Option String}
    (h : Shows previous c (.node s ts v)) (h' : Shows previous c (.node s us w)) :
    v = w ∧ ts.map Tree.symbol = us.map Tree.symbol := by
  have hs := shows_iff.mp h
  have hs' := shows_iff.mp h'
  cases happ : c.applied with
  | some p =>
    have ⟨_, hts, hv⟩ := hs.1 p happ
    have ⟨_, hus, hw⟩ := hs'.1 p happ
    exact ⟨hv.trans hw.symm, hts.trans hus.symm⟩
  | none =>
    have ⟨hts, l, hfront, _, hv⟩ := hs.2 happ
    have ⟨hus, l', hfront', _, hw⟩ := hs'.2 happ
    cases hfront.symm.trans hfront'
    exact ⟨hv.trans hw.symm, congrArg (List.map Tree.symbol) (hts.trans hus.symm)⟩

theorem Aligned.unique {ts us : List Tree} (ht : Aligned previous rest (visit ts))
    (hu : Aligned previous rest (visit us)) (hroots : ts.map Tree.symbol = us.map Tree.symbol) :
    ts = us := by
  induction ts using Tree.visit.induct generalizing previous rest us with
  | case1 => exact (List.map_eq_nil_iff.mp hroots.symm).symm
  | case2 s cs v more ih =>
    obtain ⟨⟨s', cs', v'⟩, more', rfl, hs, hmore⟩ := List.map_eq_cons_iff.mp hroots.symm
    cases (show s' = s from hs)
    rw [visit] at ht hu
    cases ht with
    | cons here later =>
      cases hu with
      | cons here' later' =>
        obtain ⟨rfl, hchildren⟩ := here.unique here'
        have hforest : cs ++ more = cs' ++ more' :=
          ih later later' (by rw [List.map_append, List.map_append, hchildren, hmore])
        obtain ⟨rfl, rfl⟩ := append_inj_of_map hchildren hforest
        rfl

namespace Growth

theorem numbered_of_meets {symbols left : List Symbol}
    (h : meets index previous rest symbols = .ok left) : Numbered previous rest := by
  induction rest generalizing index previous symbols with
  | nil => exact numbered_nil
  | cons c rest ih =>
    rw [meets] at h
    split at h
    · cases h
    · next symbols' hmeet => exact numbered_cons.mpr ⟨(meet_cases hmeet).1, ih h⟩

theorem meet_of_shows (index : Nat) (below : List Symbol) {s : Symbol} {cs : List Tree}
    {v : Option String} (hstep : c.step = previous.step + 1)
    (h : Shows previous c (.node s cs v)) :
    meet index previous c (s :: below) = .ok (cs.map Tree.symbol ++ below) := by
  cases h with
  | expansion happ hcs => simp [meet, hstep, happ, hcs]
  | token happ hfront hmet => simp [meet, hstep, happ, hfront, hmet]

theorem meets_of_aligned (index : Nat) {ts : List Tree} (hn : Numbered previous rest)
    (ha : Aligned previous rest (visit ts)) :
    meets index previous rest (ts.map Tree.symbol) = .ok [] := by
  induction ts using Tree.visit.induct generalizing index previous rest with
  | case1 =>
    rw [visit] at ha
    cases ha
    rfl
  | case2 s cs v more ih =>
    rw [visit] at ha
    cases ha with
    | @cons _ c later _ _ here hlater =>
      obtain ⟨hstep, hn'⟩ := numbered_cons.mp hn
      have hmeet := meet_of_shows index (more.map Tree.symbol) hstep here
      rw [List.map_cons, Tree.symbol, meets, hmeet]
      have hmeets := ih (index + 1) hn' hlater
      rwa [List.map_append] at hmeets

end Growth

namespace Tree

variable {first : Configuration} {tree : Tree}

theorem ofTrace_of_aligned (hroot : first.stack.get? 1 = some tree.symbol)
    (hstep : first.step = 0) (hn : Numbered first rest)
    (ha : Aligned first rest tree.preorder) : ofTrace (first :: rest) = .ok tree := by
  have hvisit : Aligned first rest (visit [tree]) := ha
  have hmeets : Growth.meets 1 first rest [tree.symbol] = .ok [] :=
    Growth.meets_of_aligned 1 hn hvisit
  obtain ⟨grown, hgrown, hsymbol, haligned⟩ := ofTrace_of_meets_nil hroot hstep hmeets
  have hsame : [grown] = [tree] := Aligned.unique haligned hvisit (by simp [hsymbol])
  rw [hgrown, List.singleton_inj.mp hsame]

theorem aligned_of_ofTrace (h : ofTrace (first :: rest) = .ok tree) :
    first.stack.get? 1 = some tree.symbol ∧ first.step = 0 ∧ Numbered first rest ∧
      Aligned first rest tree.preorder := by
  cases hroot : first.stack.get? 1 with
  | none => simp [ofTrace, hroot] at h
  | some root =>
    by_cases hstep : first.step = 0
    · cases hmeets : Growth.meets 1 first rest [root] with
      | error e =>
        have hfail := ofTrace_of_meets_error hroot hstep hmeets
        simp [hfail] at h
      | ok left =>
        cases left with
        | cons s more =>
          have hfail := ofTrace_of_meets_pending hroot hstep hmeets
          simp [hfail] at h
        | nil =>
          obtain ⟨grown, hgrown, rfl, ha⟩ := ofTrace_of_meets_nil hroot hstep hmeets
          cases hgrown.symm.trans h
          exact ⟨rfl, hstep, Growth.numbered_of_meets hmeets, ha⟩
    · simp [ofTrace, hroot, hstep] at h

/-- Which trees grow from a list of configurations, whoever made it. -/
theorem ofTrace_eq_ok_iff (cs : Trace) (tree : Tree) : ofTrace cs = .ok tree ↔
    cs ≠ [] ∧
    (∀ i (c : Configuration), cs[i]? = some c → c.step = i) ∧
    (∃ first, cs[0]? = some first ∧ 2 ≤ first.stack.toList.length ∧
      first.stack.toList[1]? = some tree.symbol) ∧
    tree.nodeCount = cs.length - 1 ∧
    ∀ i (previous c : Configuration) (n : Tree), cs[i]? = some previous →
      cs[i + 1]? = some c → tree.preorder[i]? = some n →
      (∀ p, c.applied = some p →
        n.symbol = .nonterminal p.left ∧ n.children.map symbol = p.expansion ∧
          n.value = none) ∧
      (c.applied = none →
        n.children = [] ∧ ∃ token, previous.input.front? = some token ∧
          n.symbol.accepts token = true ∧ n.value = some token.text) := by
  cases cs with
  | nil => simp [ofTrace]
  | cons first rest =>
    constructor
    · intro h
      obtain ⟨hroot, hstep, hn, ha⟩ := aligned_of_ofTrace h
      obtain ⟨hlen, hshows⟩ := aligned_iff.mp ha
      rw [Stack.get?_eq_toList] at hroot
      obtain ⟨hheight, -⟩ := List.getElem?_eq_some_iff.mp hroot
      refine ⟨List.cons_ne_nil first rest, ?_, ⟨first, rfl, hheight, hroot⟩, ?_, ?_⟩
      · intro i c hi
        cases i with
        | zero =>
          cases hi
          exact hstep
        | succ i =>
          have hc := hn i c hi
          omega
      · simpa [nodeCount] using hlen
      · intro i previous c n hi hi' hn'
        exact shows_iff.mp (hshows i previous c n hi hi' hn')
    · intro h
      obtain ⟨-, hsteps, ⟨first', hfirst, -, hroot⟩, hcount, hlines⟩ := h
      cases hfirst
      rw [← Stack.get?_eq_toList] at hroot
      have hstep : first.step = 0 := hsteps 0 first rfl
      have hn : Numbered first rest := by
        intro k c hk
        have hc : c.step = k + 1 := hsteps (k + 1) c hk
        omega
      have ha : Aligned first rest tree.preorder := by
        refine aligned_iff.mpr ⟨by simpa [nodeCount] using hcount, ?_⟩
        intro i b c n hb hc hn'
        exact shows_iff.mpr (hlines i b c n hb hc hn')
      exact ofTrace_of_aligned hroot hstep hn ha

end Tree

end Predictive
