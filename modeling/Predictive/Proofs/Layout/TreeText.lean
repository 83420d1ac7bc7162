import Predictive.Layout
import Predictive.Proofs.Lists
import Predictive.Proofs.Text.Words
import Predictive.Proofs.Tree.Preorder

/-! The text of a tree loses nothing of it. Its lines are the nodes in pre-order, each with as
many indents as it stands below the root. From a line whose level is known its symbol, its value
and the symbols of its children are read off at the blanks, and the number of the children tells
the levels of the lines that follow. So the tree is found again even where the indent is empty
or looks like a part of a line. -/

namespace Predictive

structure Tree.Plain (t : Tree) : Prop where
  symbol : Text.IsWord t.symbol.text
  value : ∀ v ∈ t.value, Text.Unspaced v

instance (t : Tree) : Decidable t.Plain :=
  decidable_of_iff (Text.IsWord t.symbol.text ∧ ∀ v ∈ t.value, Text.Unspaced v)
    ⟨fun h => ⟨h.1, h.2⟩, fun h => ⟨h.symbol, h.value⟩⟩

theorem Tree.plain_children {ts : List Tree} (h : ∀ n ∈ visit ts, n.Plain) {n : Tree}
    (hn : n ∈ visit ts) : ∀ c ∈ n.children, c.Plain :=
  fun c hc => h c (mem_visit_of_child hn hc)

theorem Tree.plain_later {s : Symbol} {ts more : List Tree} {v : Option String}
    (h : ∀ n ∈ visit (.node s ts v :: more), n.Plain) : ∀ n ∈ visit (ts ++ more), n.Plain := by
  rw [visit] at h
  exact (List.forall_mem_cons.mp h).2

namespace Layout

open Predictive.Tree (visit leveled atLevel)

variable {l : Layout}

def indentation (l : Layout) (level : Nat) : String := .join (List.replicate level l.indent)

def valueText (v : Option String) : String := v.elim "" fun v => " (" ++ v ++ ")"

def childrenText (ts : List Tree) : String :=
  if ts.isEmpty then "" else " → [" ++ spaced (ts.map fun c => c.symbol.text) ++ "]"

theorem treeLine_eq (l : Layout) (level : Nat) (t : Tree) : treeLine l level t =
    indentation l level ++ (t.symbol.text ++ (valueText t.value ++ childrenText t.children)) := by
  rw [treeLine, String.append_assoc, String.append_assoc]
  rfl

theorem treeLines_eq (l : Layout) (pending : List (Tree × Nat)) : treeLines l pending =
    (pending.flatMap fun p => leveled p.2 p.1).map fun p => treeLine l p.2 p.1 := by
  fun_induction treeLines l pending with
  | case1 => rfl
  | case2 s cs v level rest ih =>
    rw [ih, List.flatMap_append, Tree.flatMap_atLevel, List.flatMap_cons, leveled,
      List.cons_append, List.map_cons]

theorem childrenText_head (ts : List Tree) : ∀ c ∈ (childrenText ts).toList.head?, c = ' ' := by
  rw [childrenText]
  split <;> simp

theorem valueText_head (v : Option String) (ts : List Tree) :
    ∀ c ∈ (valueText v ++ childrenText ts).toList.head?, c = ' ' := by
  cases v with
  | none => simpa [valueText] using childrenText_head ts
  | some v => simp [valueText]

theorem words_roots {ts : List Tree} (h : ∀ c ∈ ts, c.Plain) :
    Text.words (spaced (ts.map fun c => c.symbol.text)) = (ts.map Tree.symbol).map Symbol.text := by
  have hwords : ∀ w ∈ ts.map fun c => c.symbol.text, Text.IsWord w :=
    List.forall_mem_map.mpr fun c hc => (h c hc).symbol
  rw [spaced, Text.words_intercalate hwords, List.map_map]
  rfl

theorem childrenText_inj {ts us : List Tree} (ht : ∀ c ∈ ts, c.Plain) (hu : ∀ c ∈ us, c.Plain)
    (h : childrenText ts = childrenText us) : ts.map Tree.symbol = us.map Tree.symbol := by
  cases ts with
  | nil =>
    cases us with
    | nil => rfl
    | cons u us => simp [childrenText, ← String.toList_inj] at h
  | cons t ts =>
    cases us with
    | nil => simp [childrenText, ← String.toList_inj] at h
    | cons u us =>
      have hspaced : spaced ((t :: ts).map fun c => c.symbol.text) =
          spaced ((u :: us).map fun c => c.symbol.text) := by
        simpa [childrenText] using h
      have htexts := congrArg Text.words hspaced
      rw [words_roots ht, words_roots hu] at htexts
      exact List.map_injective_iff.mpr (fun _ _ => Symbol.text_injective) htexts

theorem childrenText_ne_valueText (ts us : List Tree) (v : String) :
    childrenText ts ≠ valueText (some v) ++ childrenText us := by
  intro h
  rw [← String.toList_inj] at h
  cases ts <;> simp [childrenText, valueText] at h

/-- A value ends at the blank in front of the children, and its bracket tells it from them. -/
theorem valueText_inj {v w : Option String} {ts us : List Tree} (hv : ∀ s ∈ v, Text.Unspaced s)
    (hw : ∀ s ∈ w, Text.Unspaced s)
    (h : valueText v ++ childrenText ts = valueText w ++ childrenText us) :
    v = w ∧ childrenText ts = childrenText us := by
  cases v with
  | none =>
    cases w with
    | none => exact ⟨rfl, by simpa [valueText] using h⟩
    | some w =>
      rw [valueText, Option.elim_none, String.empty_append] at h
      exact absurd h (childrenText_ne_valueText ts us w)
  | some v =>
    cases w with
    | none =>
      rw [valueText.eq_def none, Option.elim_none, String.empty_append] at h
      exact absurd h.symm (childrenText_ne_valueText us ts v)
    | some w =>
      have hclosed : ∀ s : String, Text.Unspaced s → ' ' ∉ s.toList ++ [')'] := by
        intro s hs
        simpa using hs.not_mem rfl
      have hlists : (v.toList ++ [')']) ++ (childrenText ts).toList =
          (w.toList ++ [')']) ++ (childrenText us).toList := by
        rw [← String.toList_inj] at h
        simpa [valueText] using h
      obtain ⟨hsame, hrest⟩ := append_inj_of_head? hlists (hclosed v (hv v rfl))
        (hclosed w (hw w rfl)) (childrenText_head ts) (childrenText_head us)
      exact ⟨congrArg some (String.toList_inj.mp (List.append_cancel_right hsame)),
        String.toList_inj.mp hrest⟩

theorem treeLine_inj {level : Nat} {t u : Tree} (ht : t.Plain) (hu : u.Plain)
    (htc : ∀ c ∈ t.children, c.Plain) (huc : ∀ c ∈ u.children, c.Plain)
    (h : treeLine l level t = treeLine l level u) :
    t.symbol = u.symbol ∧ t.value = u.value ∧
      t.children.map Tree.symbol = u.children.map Tree.symbol := by
  rw [treeLine_eq, treeLine_eq, String.append_right_inj] at h
  have hlists : t.symbol.text.toList ++ (valueText t.value ++ childrenText t.children).toList =
      u.symbol.text.toList ++ (valueText u.value ++ childrenText u.children).toList := by
    rw [← String.toList_append, h, String.toList_append]
  obtain ⟨hsymbol, htail⟩ := append_inj_of_head? hlists (ht.symbol.unspaced.not_mem rfl)
    (hu.symbol.unspaced.not_mem rfl) (valueText_head _ _) (valueText_head _ _)
  obtain ⟨hvalue, hchildren⟩ := valueText_inj ht.value hu.value (String.toList_inj.mp htail)
  exact ⟨Symbol.text_injective (String.toList_inj.mp hsymbol), hvalue,
    childrenText_inj htc huc hchildren⟩

/-- The levels of the lines are known from the numbers of children above them. -/
theorem treeLines_inj {ps qs : List (Tree × Nat)} (hlevels : ps.map Prod.snd = qs.map Prod.snd)
    (hp : ∀ n ∈ visit (ps.map Prod.fst), n.Plain) (hq : ∀ n ∈ visit (qs.map Prod.fst), n.Plain)
    (h : treeLines l ps = treeLines l qs) : ps = qs := by
  induction ps using treeLines.induct generalizing qs with
  | case1 => exact (List.map_eq_nil_iff.mp hlevels.symm).symm
  | case2 s cs v level rest ih =>
    obtain ⟨⟨⟨s', cs', v'⟩, level'⟩, rest', rfl, hlevel, hrest⟩ :=
      List.map_eq_cons_iff.mp hlevels.symm
    cases (show level' = level from hlevel)
    rw [treeLines, treeLines, List.cons.injEq] at h
    obtain ⟨hline, hlines⟩ := h
    have hmem : ∀ (t : Tree) (ts : List Tree), t ∈ visit (t :: ts) := fun t ts =>
      Tree.mem_visit_of_mem List.mem_cons_self
    obtain ⟨rfl, rfl, hchildren⟩ := treeLine_inj (hp _ (hmem _ _)) (hq _ (hmem _ _))
      (Tree.plain_children hp (hmem _ _)) (Tree.plain_children hq (hmem _ _)) hline
    have hlength : cs.length = cs'.length := by
      simpa [Tree.children] using congrArg List.length hchildren
    -- Equally many children take the place of the node, so the levels agree again.
    have hforest : atLevel (level + 1) cs ++ rest = atLevel (level + 1) cs' ++ rest' := by
      refine ih ?_ ?_ ?_ hlines
      · rw [List.map_append, List.map_append, Tree.atLevel_snd, Tree.atLevel_snd, hlength, hrest]
      · rw [List.map_append, Tree.atLevel_fst]
        exact Tree.plain_later hp
      · rw [List.map_append, Tree.atLevel_fst]
        exact Tree.plain_later hq
    obtain ⟨hbelow, rfl⟩ := List.append_inj hforest (by simp [atLevel, hlength])
    have hcs : cs = cs' := by
      rw [← Tree.atLevel_fst (level + 1) cs, hbelow, Tree.atLevel_fst]
    rw [hcs]
    rfl

theorem newline_not_mem_treeLine (hl : '\n' ∉ l.indent.toList) {t : Tree} (ht : t.Plain)
    (htc : ∀ c ∈ t.children, c.Plain) (level : Nat) : '\n' ∉ (treeLine l level t).toList := by
  have hindent : '\n' ∉ (indentation l level).toList := by
    simp [indentation, hl]
  have hsymbol : '\n' ∉ t.symbol.text.toList := ht.symbol.unspaced.not_mem rfl
  have hvalue : '\n' ∉ (valueText t.value).toList := by
    cases hv : t.value with
    | none => simp [valueText]
    | some v => simpa [valueText] using (ht.value v hv).not_mem rfl
  have hchildren : '\n' ∉ (childrenText t.children).toList := by
    have hroots : '\n' ∉ (spaced (t.children.map fun c => c.symbol.text)).toList :=
      Text.not_mem_intercalate (by decide)
        (List.forall_mem_map.mpr fun c hc => (htc c hc).symbol.unspaced.not_mem rfl)
    rw [childrenText]
    split
    · simp
    · simpa using hroots
  rw [treeLine_eq]
  simp [hindent, hsymbol, hvalue, hchildren]

theorem lines_tree (hl : '\n' ∉ l.indent.toList) {t : Tree} (ht : ∀ n ∈ t.preorder, n.Plain) :
    Text.lines (l.tree t) = (leveled 0 t).map fun p => treeLine l p.2 p.1 := by
  have heq : treeLines l [(t, 0)] = (leveled 0 t).map fun p => treeLine l p.2 p.1 := by
    rw [treeLines_eq, List.flatMap_singleton]
  have hne : (leveled 0 t).map (fun p => treeLine l p.2 p.1) ≠ [] := by
    obtain ⟨s, cs, v⟩ := t
    rw [leveled]
    exact List.cons_ne_nil _ _
  rw [tree, heq]
  refine Text.lines_intercalate hne (List.forall_mem_map.mpr fun p hp => ?_)
  have hmem : p.1 ∈ t.preorder := by
    rw [← Tree.leveled_fst 0 t]
    exact List.mem_map_of_mem hp
  exact newline_not_mem_treeLine hl (ht _ hmem) (Tree.plain_children ht hmem) p.2

/-- Trees with the same text are the same, whatever the indent is, and the lines of the text are
the nodes in pre-order, indented by their levels. -/
theorem tree_lossless (l : Layout) (hl : '\n' ∉ l.indent.toList) {t : Tree}
    (ht : ∀ n ∈ t.preorder, n.Plain) :
    (∀ u : Tree, (∀ n ∈ u.preorder, n.Plain) → l.tree t = l.tree u → t = u) ∧
    (Text.lines (l.tree t)).length = t.nodeCount ∧
    ∀ (i : Nat) n, t.preorder[i]? = some n → ∃ level, (leveled 0 t)[i]? = some (n, level) ∧
      (Text.lines (l.tree t))[i]? = some (indentation l level ++ treeLine l 0 n) := by
  have hlines := lines_tree hl ht
  refine ⟨fun u hu h => ?_, ?_, fun i n hi => ?_⟩
  · have hsame := congrArg Text.lines h
    rw [hlines, lines_tree hl hu] at hsame
    have hlist : treeLines l [(t, 0)] = treeLines l [(u, 0)] := by
      rwa [treeLines_eq, treeLines_eq, List.flatMap_singleton, List.flatMap_singleton]
    have hpending : [(t, 0)] = [(u, 0)] := treeLines_inj rfl ht hu hlist
    exact congrArg Prod.fst (List.singleton_inj.mp hpending)
  · rw [hlines, List.length_map, Tree.nodeCount, ← Tree.leveled_fst 0 t, List.length_map]
  · rw [← Tree.leveled_fst 0 t, List.getElem?_map] at hi
    obtain ⟨⟨m, level⟩, hlevel, rfl⟩ := Option.map_eq_some_iff.mp hi
    refine ⟨level, hlevel, ?_⟩
    rw [hlines, List.getElem?_map, hlevel, Option.map_some, treeLine_eq l level, treeLine_eq l 0]
    simp [indentation]

end Layout

namespace Tree

def bracketed : Tree :=
  .branch (.ofText "S") [.leaf (.ofText "(") "", .branch (.ofText "→") [.bare (.ofText "[x")],
    .bare (.ofText "y]")]

def bracketedDeeper : Tree :=
  .branch (.ofText "S") [.leaf (.ofText "(") "",
    .branch (.ofText "→") [.bare (.ofText "[x"), .bare (.ofText "y]")]]

theorem bracketed_texts_differ : '\n' ∉ "".toList ∧ (∀ n ∈ bracketed.preorder, n.Plain) ∧
    (∀ n ∈ bracketedDeeper.preorder, n.Plain) ∧
    Layout.tree ⟨"", 0, 0, 0⟩ bracketed ≠ Layout.tree ⟨"", 0, 0, 0⟩ bracketedDeeper ∧
    (Text.lines (Layout.tree ⟨"", 0, 0, 0⟩ bracketed)).length = 5 := by
  have hindent : '\n' ∉ "".toList := by decide
  have hplain : ∀ n ∈ bracketed.preorder, n.Plain := by decide +kernel
  have hplain' : ∀ n ∈ bracketedDeeper.preorder, n.Plain := by decide +kernel
  have hcount : bracketed.nodeCount = 5 := by decide +kernel
  have hdiffer : bracketed ≠ bracketedDeeper := by decide
  obtain ⟨hinj, hlines, -⟩ := Layout.tree_lossless ⟨"", 0, 0, 0⟩ hindent hplain
  exact ⟨hindent, hplain, hplain', fun h => hdiffer (hinj _ hplain' h), hlines.trans hcount⟩

end Tree

end Predictive
