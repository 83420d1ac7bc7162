import Mathlib.Data.List.Nodup
import Predictive.Proofs.Table.Proper
import Predictive.Proofs.Tree.Alignment

/-! Who owns whom in the array of a growth. An expansion puts its children behind all other nodes,
and the node that gets them had none before, so every node but the root has one parent, which
stands before it and names it once. From this alone the walk from the end of the array loses
nothing: each child is still in its slot when its parent asks for it, and the nodes of the tree in
pre-order are those of the array, each of them once. -/

namespace Predictive

open Predictive.Tree (visit)

namespace Growth

structure Rooted (nodes : Array Bud) : Prop where
  root : 0 < nodes.size
  parent : ∀ j, 0 < j → j < nodes.size →
    ∃ (i : Nat) (b : Bud), nodes[i]? = some b ∧ j ∈ b.children

theorem rooted_ofRoot (s : Symbol) : Rooted (ofRoot s).nodes where
  root := Nat.one_pos
  parent := fun _ hpos hj => absurd hpos (Nat.not_lt.mpr (Nat.le_of_lt_succ hj))

section Front

variable {nodes : Array Bud} {front : Nat} {rest : List Nat} {hrest : ∀ i ∈ rest, i < nodes.size}

theorem rooted_expand {s : Symbol} {symbols : List Symbol} (h : Rooted nodes)
    (hbud : nodes[front]? = some (.fresh s)) :
    Rooted (expand nodes front rest hrest symbols).nodes := by
  refine ⟨by rw [size_expand]; exact Nat.add_pos_left h.root _, fun j hpos hj => ?_⟩
  rw [size_expand] at hj
  by_cases hold : j < nodes.size
  · obtain ⟨i, b, hb, hmem⟩ := h.parent j hpos hold
    -- The children that the front node is given replace none.
    have hne : front ≠ i := by
      intro he
      subst he
      cases hbud.symm.trans hb
      cases hmem
    obtain ⟨hi, -⟩ := Array.getElem?_eq_some_iff.mp hb
    refine ⟨i, b, ?_, hmem⟩
    rw [getElem?_expand, if_pos hi, if_neg hne, hb]
  · obtain ⟨hfront, -⟩ := Array.getElem?_eq_some_iff.mp hbud
    refine ⟨front, ⟨s, List.range' nodes.size symbols.length, none⟩, ?_, ?_⟩
    · rw [getElem?_expand, if_pos hfront, if_pos rfl, hbud]
      rfl
    · exact List.mem_range'_1.mpr ⟨Nat.le_of_not_lt hold, hj⟩

theorem rooted_consume {token : Lookahead} (h : Rooted nodes) :
    Rooted (consume nodes front rest hrest token).nodes := by
  have hsize : (consume nodes front rest hrest token).nodes.size = nodes.size := by simp [consume]
  refine ⟨hsize ▸ h.root, fun j hpos hj => ?_⟩
  obtain ⟨i, b, hb, hmem⟩ := h.parent j hpos (hsize ▸ hj)
  by_cases he : front = i
  · refine ⟨i, b.close token.text, ?_, hmem⟩
    rw [getElem?_consume, if_pos he, hb]
    rfl
  · refine ⟨i, b, ?_, hmem⟩
    rw [getElem?_consume, if_neg he, hb]

end Front

section Steps

variable {previous c : Configuration} {index : Nat} {g g' : Growth} {symbols : List Symbol}

theorem step_cases (h : step index previous c g = .ok g') : c.step = previous.step + 1 ∧
    ∃ nodes front rest hlt hrest b, g = ⟨nodes, front :: rest, hlt⟩ ∧ nodes[front]? = some b ∧
      ((∃ p : Production, c.applied = some p ∧ b.symbol = .nonterminal p.left ∧
          g' = expand nodes front rest hrest p.expansion) ∨
        ∃ token, c.applied = none ∧ previous.input.front? = some token ∧
          b.symbol.accepts token = true ∧ g' = consume nodes front rest hrest token) := by
  by_cases hstep : c.step = previous.step + 1
  · obtain ⟨nodes, _ | ⟨front, rest⟩, hlt⟩ := g
    · simp [step, hstep] at h
    · have hfront : front < nodes.size := hlt front List.mem_cons_self
      have hrest : ∀ i ∈ rest, i < nodes.size := fun i hi => hlt i (List.mem_cons_of_mem _ hi)
      refine ⟨hstep, nodes, front, rest, hlt, hrest, nodes[front], rfl,
        Array.getElem?_eq_getElem hfront, ?_⟩
      rw [step, if_neg (not_not.mpr hstep)] at h
      cases happ : c.applied with
      | some p =>
        simp only [happ] at h
        split at h
        · next hs => exact .inl ⟨p, rfl, hs, (Except.ok.inj h).symm⟩
        · cases h
      | none =>
        cases htoken : previous.input.front? with
        | none => simp [happ, htoken] at h
        | some token =>
          simp only [happ, htoken] at h
          split at h
          · next hs => exact .inr ⟨token, rfl, rfl, hs, (Except.ok.inj h).symm⟩
          · cases h
  · simp [step, hstep] at h

theorem rooted_of_step (ha : Awaits g symbols) (hg : Rooted g.nodes)
    (h : step index previous c g = .ok g') : Rooted g'.nodes := by
  obtain ⟨-, nodes, front, rest, hlt, hrest, b, rfl, -,
    ⟨p, -, -, rfl⟩ | ⟨token, -, -, -, rfl⟩⟩ := step_cases h
  · cases symbols with
    | nil => cases ha.buds
    | cons s below => exact rooted_expand hg ha.front_eq.1
  · exact rooted_consume hg

theorem rooted_of_steps {rest : Trace} (ha : Awaits g symbols) (hg : Rooted g.nodes)
    (h : steps index previous rest g = .ok g') : Owned g'.nodes ∧ Rooted g'.nodes := by
  induction rest generalizing index previous g symbols with
  | nil =>
    cases h
    exact ⟨ha.owned, hg⟩
  | cons c rest ih =>
    obtain ⟨e, -, hs⟩ | ⟨left, g₁, -, hs, ha₁, -, -⟩ := step_of_awaits ha index previous c
    · simp [steps, hs] at h
    · simp only [steps, hs] at h
      exact ih ha₁ (rooted_of_step ha hg hs) h

end Steps

section Places

variable {nodes : Array Bud}

theorem exists_parent (hn : Owned nodes) (hr : Rooted nodes) {j : Nat} (hpos : 0 < j)
    (hj : j < nodes.size) : ∃ (i : Nat) (b : Bud), nodes[i]? = some b ∧
      b.children.count j = 1 ∧
      ∀ (i' : Nat) (b' : Bud), nodes[i']? = some b' → j ∈ b'.children → i' = i := by
  obtain ⟨i, b, hb, hmem⟩ := hr.parent j hpos hj
  refine ⟨i, b, hb, List.count_eq_one_of_mem (hn.distinct i b hb) hmem, ?_⟩
  intro i' b' hb' hmem'
  exact hn.once i' i b' b hb' hb j hmem' hmem

/-- When a parent has taken the children before this one, this one is still in its slot. -/
theorem exists_taken (hn : Owned nodes) {k j : Nat} {b : Bud} {before after : List Nat}
    (hb : nodes[k]? = some b) (hsplit : b.children = before ++ j :: after) :
    ∃ tree, (takeAll before (settledFrom nodes (k + 1))).2[j]? = some (some tree) ∧
      Grown nodes j tree := by
  obtain ⟨hk, -⟩ := Array.getElem?_eq_some_iff.mp hb
  have hmem : j ∈ b.children := by simp [hsplit]
  have hbefore : j ∉ before := by
    have hdistinct := hn.distinct k b hb
    rw [hsplit, List.nodup_append] at hdistinct
    exact fun hj => hdistinct.2.2 j hj j List.mem_cons_self rfl
  obtain ⟨tree, htree, hgrown⟩ := (settled_settledFrom hn hk).child hn hb hmem
  exact ⟨tree, by rw [getElem?_takeAll hbefore, htree], hgrown⟩

def childrenAt (nodes : Array Bud) (i : Nat) : List Nat := nodes[i]?.elim [] Bud.children

theorem childrenAt_eq {i : Nat} {b : Bud} (hb : nodes[i]? = some b) :
    childrenAt nodes i = b.children := by
  rw [childrenAt, hb]
  rfl

theorem exists_of_mem_childrenAt {i j : Nat} (h : j ∈ childrenAt nodes i) :
    ∃ b, nodes[i]? = some b ∧ j ∈ b.children := by
  cases hb : nodes[i]? with
  | none => simp [childrenAt, hb] at h
  | some b => exact ⟨b, rfl, childrenAt_eq hb ▸ h⟩

theorem exists_visited {roots : List Nat} {ts : List Tree}
    (h : List.Forall₂ (Grown nodes) roots ts) :
    ∃ places, List.Forall₂ (Grown nodes) places (visit ts) ∧
      places.Perm (roots ++ places.flatMap (childrenAt nodes)) := by
  induction ts using Tree.visit.induct generalizing roots with
  | case1 =>
    cases h
    exact ⟨[], by rw [visit]; exact .nil, .nil⟩
  | case2 s cs v rest ih =>
    obtain ⟨i, others, hi, hothers, rfl⟩ := List.forall₂_cons_right_iff.mp h
    obtain @⟨_, b, _, found, below⟩ := hi
    obtain ⟨places, hplaces, hperm⟩ := ih (List.rel_append below hothers)
    refine ⟨i :: places, by rw [visit]; exact .cons (.node found below) hplaces, ?_⟩
    rw [List.flatMap_cons, childrenAt_eq found, List.cons_append]
    refine (hperm.trans ?_).cons i
    rw [List.append_assoc]
    exact List.perm_append_comm_assoc _ _ _

theorem count_flatMap_of_only {f : Nat → List Nat} {i j : Nat} (hone : (f i).count j = 1)
    (honly : ∀ i', j ∈ f i' → i' = i) (places : List Nat) :
    (places.flatMap f).count j = places.count i := by
  induction places with
  | nil => rfl
  | cons p places ih =>
    rw [List.flatMap_cons, List.count_append, ih]
    by_cases he : p = i
    · rw [he, hone, List.count_cons_self, Nat.add_comm]
    · have hnone : (f p).count j = 0 := List.count_eq_zero.mpr fun hmem => he (honly p hmem)
      rw [hnone, List.count_cons_of_ne he, Nat.zero_add]

theorem count_visited (hn : Owned nodes) (hr : Rooted nodes) {places : List Nat}
    (h : places.Perm (0 :: places.flatMap (childrenAt nodes))) {j : Nat} (hj : j < nodes.size) :
    places.count j = 1 := by
  induction j using Nat.strongRecOn with
  | ind j ih =>
    rw [h.count_eq]
    obtain rfl | hpos := Nat.eq_zero_or_pos j
    · have hnone : 0 ∉ places.flatMap (childrenAt nodes) := by
        intro hmem
        obtain ⟨i, -, hi⟩ := List.mem_flatMap.mp hmem
        obtain ⟨b, hb, hchild⟩ := exists_of_mem_childrenAt hi
        exact Nat.not_lt_zero i (hn.later i b hb 0 hchild).1
      rw [List.count_cons_self, List.count_eq_zero.mpr hnone]
    · -- A place is visited as often as its parent, which stands before it.
      obtain ⟨i, b, hb, hone, honly⟩ := exists_parent hn hr hpos hj
      have hmem : j ∈ b.children := List.count_pos_iff.mp (by rw [hone]; exact Nat.one_pos)
      have hparent : i < j := (hn.later i b hb j hmem).1
      have hsame : (places.flatMap (childrenAt nodes)).count j = places.count i := by
        refine count_flatMap_of_only (childrenAt_eq hb ▸ hone) (fun i' hi' => ?_) places
        obtain ⟨b', hb', hmem'⟩ := exists_of_mem_childrenAt hi'
        exact honly i' b' hb' hmem'
      rw [List.count_cons_of_ne (Nat.ne_of_lt hpos), hsame]
      exact ih i hparent (Nat.lt_trans hparent hj)

theorem Grown.lt_size {i : Nat} {t : Tree} (h : Grown nodes i t) : i < nodes.size := by
  obtain ⟨found, -⟩ := h
  exact (Array.getElem?_eq_some_iff.mp found).1

theorem exists_places (hn : Owned nodes) (hr : Rooted nodes) {tree : Tree}
    (h : Grown nodes 0 tree) : ∃ places, places.Perm (List.range nodes.size) ∧
      List.Forall₂ (Grown nodes) places tree.preorder := by
  obtain ⟨places, hplaces, hperm⟩ := exists_visited (.cons h .nil)
  have hwithin : ∀ i ∈ places, i < nodes.size :=
    ((List.forall₂_and_left _ _).mp (hplaces.imp fun i t ht => ⟨ht.lt_size, ht⟩)).1
  refine ⟨places, List.perm_iff_count.mpr fun j => ?_, hplaces⟩
  by_cases hj : j < nodes.size
  · rw [count_visited hn hr hperm hj,
      List.count_eq_one_of_mem List.nodup_range (List.mem_range.mpr hj)]
  · have hnone : j ∉ places := fun hmem => hj (hwithin j hmem)
    have hrange : j ∉ List.range nodes.size := fun hmem => hj (List.mem_range.mp hmem)
    rw [List.count_eq_zero.mpr hnone, List.count_eq_zero.mpr hrange]

end Places

/-- When the steps of a trace succeed and leave nothing pending, every node of the array but the
first is in one list of children, once, and behind its parent; the walk from the end finds a tree
in each slot it takes from; and the tree it ends with, which is the one that the trace grows, has
the nodes of the array, each with its symbol, its value and its children in their order. -/
theorem assembled_whole {first : Configuration} {rest : Trace} {root : Symbol} {g : Growth}
    (hroot : first.stack.get? 1 = some root) (hstep : first.step = 0)
    (hsteps : steps 1 first rest (.ofRoot root) = .ok g) (hpending : g.pending = []) :
    (∀ (i : Nat) (b : Bud), g.nodes[i]? = some b → ∀ j ∈ b.children, i < j ∧ j < g.nodes.size) ∧
    (∀ j, 0 < j → j < g.nodes.size → ∃ (i : Nat) (b : Bud), g.nodes[i]? = some b ∧
      b.children.count j = 1 ∧
      ∀ (i' : Nat) (b' : Bud), g.nodes[i']? = some b' → j ∈ b'.children → i' = i) ∧
    (∀ (k : Nat) (b : Bud) before j after, g.nodes[k]? = some b →
      b.children = before ++ j :: after →
      ∃ t, (takeAll before (settledFrom g.nodes (k + 1))).2[j]? = some (some t) ∧
        Grown g.nodes j t) ∧
    ∃ tree, assemble g.nodes = some tree ∧ Tree.ofTrace (first :: rest) = .ok tree ∧
      tree.nodeCount = g.nodes.size ∧ Grown g.nodes 0 tree ∧
      ∃ places, places.Perm (List.range g.nodes.size) ∧
        List.Forall₂ (Grown g.nodes) places tree.preorder := by
  obtain ⟨hn, hr⟩ := rooted_of_steps (awaits_ofRoot root) (rooted_ofRoot root) hsteps
  obtain ⟨tree, htree, hgrown⟩ := assemble_grown hn hr.root
  obtain ⟨places, hperm, hplaces⟩ := exists_places hn hr hgrown
  refine ⟨hn.later, fun j => exists_parent hn hr,
    fun k b before j after hb hsplit => exists_taken hn hb hsplit, tree, htree, ?_, ?_, hgrown,
    places, hperm, hplaces⟩
  · simp [Tree.ofTrace, hroot, hstep, hsteps, hpending, htree]
  · rw [Tree.nodeCount, ← hplaces.length_eq, hperm.length_eq, List.length_range]

end Growth

namespace Letters

/-- The start of a trace by hand: a word is made of two others, and the letter is one of them. -/
def forkedStart : Configuration := .initial word [letter]

def forkedMoves : Trace :=
  [⟨1, .ofList [.endMarker, .nonterminal other, .nonterminal other], .ofTokens [letter],
      some ⟨word, [.nonterminal other, .nonterminal other]⟩⟩,
    ⟨2, .ofList [.endMarker, .nonterminal other, .terminal letter], .ofTokens [letter],
      some ⟨other, [.terminal letter]⟩⟩,
    ⟨3, .ofList [.endMarker, .nonterminal other], ⟨1, [.endMarker]⟩, none⟩,
    ⟨4, .ofList [.endMarker], ⟨1, [.endMarker]⟩, some (.empty other)⟩]

/-- The letter stands behind both of the others, although in pre-order it comes between them. -/
def forkedGrowth : Growth :=
  ⟨#[⟨.nonterminal word, [1, 2], none⟩, ⟨.nonterminal other, [3], none⟩,
    ⟨.nonterminal other, [], none⟩, ⟨.terminal letter, [], some "a"⟩], [], by simp⟩

def forkedTree : Tree :=
  .branch (.nonterminal word) [.branch (.nonterminal other) [.leaf (.terminal letter) "a"],
    .bare (.nonterminal other)]

theorem forked_assembled :
    (forkedStart.stack.get? 1 = some (.nonterminal word) ∧ forkedStart.step = 0 ∧
      Growth.steps 1 forkedStart forkedMoves (.ofRoot (.nonterminal word)) = .ok forkedGrowth ∧
      forkedGrowth.pending = []) ∧
    (∃ t, (Growth.takeAll [1] (Growth.settledFrom forkedGrowth.nodes 1)).2[2]? =
      some (some t) ∧ Growth.Grown forkedGrowth.nodes 2 t) ∧
    Growth.assemble forkedGrowth.nodes = some forkedTree ∧ forkedTree.nodeCount = 4 ∧
    ∃ places, places.Perm (List.range 4) ∧
      List.Forall₂ (Growth.Grown forkedGrowth.nodes) places forkedTree.preorder := by
  have hsteps : Growth.steps 1 forkedStart forkedMoves (.ofRoot (.nonterminal word)) =
      .ok forkedGrowth := by rfl
  obtain ⟨-, -, htakes, tree, hassemble, htree, hcount, -, hplaces⟩ :=
    Growth.assembled_whole rfl rfl hsteps rfl
  obtain rfl : tree = forkedTree := Except.ok.inj (htree.symm.trans (by rfl))
  exact ⟨⟨rfl, rfl, hsteps, rfl⟩, htakes 0 _ [1] 2 [] rfl rfl, hassemble, hcount, hplaces⟩

end Letters

end Predictive
