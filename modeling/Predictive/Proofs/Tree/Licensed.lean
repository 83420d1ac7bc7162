import Predictive.Derivation
import Predictive.Proofs.Tree.DrivenTrace

/-! Parse trees without a run. A table licenses a tree over an input when each nonterminal
node spells out the production in its row under the first token that the leaves to its left
do not cover. Taken in pre-order, a licensed forest follows the moves of an accepted run: the
roots that are still to visit are the stack, and a visit is a move. -/

namespace Predictive

open Predictive.Configuration Table

namespace Tree

mutual

def frontier : Tree → List Terminal
  | node (.terminal a) [] _ => [a]
  | node _ cs _ => frontiers cs

def frontiers : List Tree → List Terminal
  | [] => []
  | tree :: ts => frontier tree ++ frontiers ts

end

mutual

/-- The number of tokens that the leaves to the left cover is `covered`. A leaf carries the
text of its terminal, and no other node carries a value. -/
def Licensed (t : Table) (input : List Lookahead) : Nat → Tree → Prop
  | covered, node (.nonterminal n) cs v =>
    v = none ∧ (∃ l p, input[covered]? = some l ∧ t.cell? n l = some (.production p) ∧
      cs.map symbol = p.expansion) ∧ AllLicensed t input covered cs
  | _, node (.terminal a) cs v => cs = [] ∧ v = some a.text
  | _, node _ cs v => cs = [] ∧ v = none

def AllLicensed (t : Table) (input : List Lookahead) : Nat → List Tree → Prop
  | _, [] => True
  | covered, tree :: ts =>
    Licensed t input covered tree ∧ AllLicensed t input (covered + tree.frontier.length) ts

end

structure Parses (t : Table) (start : NonTerminal) (tokens : List Terminal) (tree : Tree) :
    Prop where
  root : tree.symbol = .nonterminal start
  leaves : tree.frontier = tokens
  licensed : Licensed t (tokens.map .terminal ++ [.endMarker]) 0 tree

variable {t : Table} {input : List Lookahead} {covered : Nat}

theorem frontiers_append (ts us : List Tree) :
    frontiers (ts ++ us) = frontiers ts ++ frontiers us := by
  induction ts with
  | nil => simp [frontiers]
  | cons tree ts ih => simp [frontiers, ih]

theorem allLicensed_append (ts us : List Tree) :
    AllLicensed t input covered (ts ++ us) ↔
      AllLicensed t input covered ts ∧
        AllLicensed t input (covered + (frontiers ts).length) us := by
  induction ts generalizing covered with
  | nil => simp [AllLicensed, frontiers]
  | cons tree ts ih => simp [AllLicensed, frontiers, ih, and_assoc, Nat.add_assoc]

theorem frontiers_nonterminal (n : NonTerminal) (cs : List Tree) (v : Option String)
    (rest : List Tree) :
    frontiers (node (.nonterminal n) cs v :: rest) = frontiers (cs ++ rest) := by
  rw [frontiers_append, frontiers, frontier]
  simp

theorem frontiers_terminal (a : Terminal) (v : Option String) (rest : List Tree) :
    frontiers (node (.terminal a) [] v :: rest) = a :: frontiers rest := by
  simp [frontiers, frontier]

theorem allLicensed_nonterminal (n : NonTerminal) (cs : List Tree) (v : Option String)
    (rest : List Tree) :
    AllLicensed t input covered (node (.nonterminal n) cs v :: rest) ↔
      v = none ∧ (∃ l p, input[covered]? = some l ∧ t.cell? n l = some (.production p) ∧
        cs.map symbol = p.expansion) ∧ AllLicensed t input covered (cs ++ rest) := by
  have hf : (node (.nonterminal n) cs v).frontier = frontiers cs := by
    rw [frontier]
    simp
  rw [AllLicensed, Licensed, allLicensed_append, hf]
  simp only [and_assoc]

theorem allLicensed_terminal (a : Terminal) (cs : List Tree) (v : Option String)
    (rest : List Tree) :
    AllLicensed t input covered (node (.terminal a) cs v :: rest) ↔
      cs = [] ∧ v = some a.text ∧ AllLicensed t input (covered + 1) rest := by
  rw [AllLicensed, Licensed, and_assoc]
  refine and_congr_right fun hcs => ?_
  rw [hcs, frontier, List.length_singleton]

theorem allLicensed_marker {s : Symbol} (hs : s = .endMarker ∨ s = .epsilon) (cs : List Tree)
    (v : Option String) (rest : List Tree) :
    AllLicensed t input covered (node s cs v :: rest) ↔
      cs = [] ∧ v = none ∧ AllLicensed t input covered rest := by
  obtain rfl | rfl := hs
  all_goals
    rw [AllLicensed, Licensed, and_assoc]
    · refine and_congr_right fun hcs => ?_
      rw [hcs, frontier]
      · simp [frontiers]
      · simp
    · simp
    · simp

theorem AllLicensed.unique {ts us : List Tree} (ht : AllLicensed t input covered ts)
    (hu : AllLicensed t input covered us) (hroots : ts.map symbol = us.map symbol) : ts = us := by
  induction ts using visit.induct generalizing covered us with
  | case1 => exact (List.map_eq_nil_iff.mp hroots.symm).symm
  | case2 s cs v rest ih =>
    obtain ⟨⟨s', cs', v'⟩, rest', rfl, hs, hrest⟩ := List.map_eq_cons_iff.mp hroots.symm
    cases (show s' = s from hs)
    cases s with
    | nonterminal n =>
      -- Both nodes see the same token, so they are spelled out by the same cell.
      obtain ⟨rfl, ⟨l, p, hl, hcell, hcs⟩, ht'⟩ := (allLicensed_nonterminal ..).mp ht
      obtain ⟨rfl, ⟨l', p', hl', hcell', hcs'⟩, hu'⟩ := (allLicensed_nonterminal ..).mp hu
      cases hl.symm.trans hl'
      cases hcell.symm.trans hcell'
      have hchildren : cs.map symbol = cs'.map symbol := hcs.trans hcs'.symm
      have heq := ih ht' hu' (by rw [List.map_append, List.map_append, hchildren, hrest])
      obtain ⟨rfl, rfl⟩ := append_inj_of_map hchildren heq
      rfl
    | terminal a =>
      obtain ⟨rfl, rfl, ht'⟩ := (allLicensed_terminal ..).mp ht
      obtain ⟨rfl, rfl, hu'⟩ := (allLicensed_terminal ..).mp hu
      have heq : rest = rest' := ih ht' hu' hrest.symm
      rw [heq]
    | endMarker =>
      obtain ⟨rfl, rfl, ht'⟩ := (allLicensed_marker (.inl rfl) ..).mp ht
      obtain ⟨rfl, rfl, hu'⟩ := (allLicensed_marker (.inl rfl) ..).mp hu
      have heq : rest = rest' := ih ht' hu' hrest.symm
      rw [heq]
    | epsilon =>
      obtain ⟨rfl, rfl, ht'⟩ := (allLicensed_marker (.inr rfl) ..).mp ht
      obtain ⟨rfl, rfl, hu'⟩ := (allLicensed_marker (.inr rfl) ..).mp hu
      have heq : rest = rest' := ih ht' hu' hrest.symm
      rw [heq]

end Tree

variable {t : Table} {c : Configuration} {read unread : List Terminal}

namespace Tree

theorem licensed_of_aligned {ts : List Tree} {rest : Trace}
    (h : t.Accepts c (c :: rest)) (hc : c.At (ts.map symbol) read unread)
    (ha : Aligned c rest (visit ts)) :
    frontiers ts = unread ∧
      AllLicensed t ((read ++ unread).map .terminal ++ [.endMarker]) read.length ts := by
  induction ts using visit.induct generalizing c rest read unread with
  | case1 =>
    rw [visit] at ha
    cases ha
    rw [hc.unread_of_finished h.finished_of_singleton]
    exact ⟨by rw [frontiers], by rw [AllLicensed]; trivial⟩
  | case2 s cs v more ih =>
    rw [visit] at ha
    cases ha with
    | cons here later =>
      obtain ⟨hmove, hrest⟩ := h.move_cons
      obtain ⟨n, below, p, hup, hcell, happ, hat⟩ | ⟨a, below, tokens, hup, rfl, happ, hat⟩ :=
        hmove.cases_at hc
      · cases here with
        | expansion happ' hcs =>
          cases happ.symm.trans happ'
          cases hup
          rw [← hcs, ← List.map_append] at hat
          obtain ⟨hf, hl⟩ := ih hrest hat later
          refine ⟨by rw [frontiers_nonterminal, hf], (allLicensed_nonterminal ..).mpr ?_⟩
          exact ⟨rfl, ⟨_, p, Lookahead.getElem?_first read unread, hcell, hcs⟩, hl⟩
        | token hnone => cases happ.symm.trans hnone
      · cases here with
        | expansion hsome => cases happ.symm.trans hsome
        | token _ front met =>
          cases hup
          cases hc.front.symm.trans front
          obtain ⟨hf, hl⟩ := ih hrest hat later
          refine ⟨by rw [frontiers_terminal]; exact congrArg _ hf,
            (allLicensed_terminal ..).mpr ⟨rfl, rfl, ?_⟩⟩
          simpa using hl

theorem accepts_of_licensed (ht : t.Proper) {ts : List Tree}
    (hc : c.At (ts.map symbol) read unread) (hm : MarkerFree (ts.map symbol))
    (hl : AllLicensed t ((read ++ unread).map .terminal ++ [.endMarker]) read.length ts)
    (hf : frontiers ts = unread) : ∃ cs, t.Accepts c cs := by
  induction ts using visit.induct generalizing c read unread with
  | case1 =>
    rw [frontiers] at hf
    subst hf
    exact ⟨[c], .stop hc.finished_nil⟩
  | case2 s cs v rest ih =>
    rw [List.map_cons, symbol] at hc hm
    have hrest : MarkerFree (rest.map symbol) := hm.of_cons
    cases s with
    | nonterminal n =>
      obtain ⟨rfl, ⟨l, p, hfirst, hcell, hcs⟩, hl'⟩ := (allLicensed_nonterminal ..).mp hl
      cases (Lookahead.getElem?_first read unread).symm.trans hfirst
      obtain ⟨c', hmove, hat⟩ := move_expand hc hcell
      rw [← hcs, ← List.map_append] at hat
      have hm' : MarkerFree ((cs ++ rest).map symbol) := by
        rw [List.map_append, hcs]
        exact (ht.right_proper n _ p hcell).markerFree_expansion.append hrest
      obtain ⟨cs', haccepts⟩ := ih hat hm' hl' (by rw [← frontiers_nonterminal, hf])
      exact ⟨c :: cs', .move hmove haccepts⟩
    | terminal a =>
      obtain ⟨rfl, rfl, hl'⟩ := (allLicensed_terminal ..).mp hl
      rw [frontiers_terminal] at hf
      subst hf
      obtain ⟨c', hmove, hat⟩ := move_consume hc
      obtain ⟨cs', haccepts⟩ := ih hat hrest (by simpa using hl') rfl
      exact ⟨c :: cs', .move hmove haccepts⟩
    | endMarker => exact absurd List.mem_cons_self hm.1
    | epsilon => exact absurd List.mem_cons_self hm.2

theorem Parses.unique {start : NonTerminal} {tokens : List Terminal} {tree tree' : Tree}
    (h : tree.Parses t start tokens) (h' : tree'.Parses t start tokens) : tree = tree' := by
  have hl : AllLicensed t (tokens.map .terminal ++ [.endMarker]) 0 [tree] := by
    simp [AllLicensed, h.licensed]
  have hl' : AllLicensed t (tokens.map .terminal ++ [.endMarker]) 0 [tree'] := by
    simp [AllLicensed, h'.licensed]
  have heq := hl.unique hl' (by rw [List.map_singleton, List.map_singleton, h.root, h'.root])
  exact List.singleton_inj.mp heq

end Tree

namespace Table

open Predictive.Tree

variable {start : NonTerminal} {tokens : List Terminal}

theorem parse_eq_ok_iff {limit : Option Nat} {d : Derivation} :
    t.parse start tokens limit = some (.ok d) ↔
      t.drive start tokens limit = some (.ok d.trace) ∧ Tree.ofTrace d.trace = .ok d.tree := by
  rw [parse, Option.map_eq_some_iff]
  constructor
  · intro h
    obtain ⟨outcome, hdrive, h⟩ := h
    cases outcome with
    | error r => cases h
    | ok trace =>
      rw [hdrive]
      simp only [Derivation.ofTrace] at h
      split at h
      · next tree htree =>
        cases h
        exact ⟨rfl, htree⟩
      · cases h
  · intro h
    refine ⟨_, h.1, ?_⟩
    simp only [Derivation.ofTrace, h.2]

theorem parses_of_parse (ht : t.Placed) {d : Derivation}
    (h : t.parse start tokens none = some (.ok d)) : d.tree.Parses t start tokens := by
  obtain ⟨hdrive, htree⟩ := parse_eq_ok_iff.mp h
  have haccepts := accepts_of_drive hdrive
  obtain ⟨tree, htree', hroot, haligned⟩ := ofTrace_ok_of_placed ht haccepts
  cases htree.symm.trans htree'
  obtain ⟨rest, hrest⟩ := haccepts.head
  rw [hrest] at haccepts haligned
  have hat : (Configuration.initial start tokens).At ([d.tree].map symbol) [] tokens := by
    rw [List.map_singleton, hroot]
    exact initial_at start tokens
  obtain ⟨hleaves, hl⟩ := licensed_of_aligned haccepts hat haligned
  exact ⟨hroot, by simpa [frontiers] using hleaves, by simpa [AllLicensed] using hl⟩

theorem parse_of_parses (ht : t.Proper) {tree : Tree} (h : tree.Parses t start tokens) :
    ∃ d, t.parse start tokens none = some (.ok d) := by
  have hat : (Configuration.initial start tokens).At ([tree].map symbol) [] tokens := by
    rw [List.map_singleton, h.root]
    exact initial_at start tokens
  have hm : MarkerFree ([tree].map symbol) := by simp [MarkerFree, h.root]
  have hl : AllLicensed t (([] ++ tokens).map .terminal ++ [.endMarker]) 0 [tree] := by
    simp [AllLicensed, h.licensed]
  obtain ⟨cs, haccepts⟩ := accepts_of_licensed ht hat hm hl (by simp [frontiers, h.leaves])
  obtain ⟨grown, hgrown, -, -⟩ := ofTrace_ok_of_placed ht.placed haccepts
  exact ⟨⟨cs, grown⟩, parse_eq_ok_iff.mpr ⟨drive_of_accepts haccepts, hgrown⟩⟩

/-- Parsing with a proper table finds the one tree that the table gives the input, and fails
when there is none. -/
theorem parse_finds_tree (ht : t.Proper) (start : NonTerminal) (tokens : List Terminal) :
    ((∃ d, t.parse start tokens none = some (.ok d)) ↔
      ∃ tree : Tree, tree.Parses t start tokens) ∧
    (∀ tree tree' : Tree, tree.Parses t start tokens → tree'.Parses t start tokens →
      tree = tree') ∧
    ∀ d, t.parse start tokens none = some (.ok d) → d.tree.Parses t start tokens := by
  refine ⟨⟨?_, ?_⟩, fun tree tree' => Parses.unique, fun d => parses_of_parse ht.placed⟩
  · intro h
    obtain ⟨d, hd⟩ := h
    exact ⟨d.tree, parses_of_parse ht.placed hd⟩
  · intro h
    obtain ⟨tree, htree⟩ := h
    exact parse_of_parses ht htree

end Table

namespace Arithmetic

def num : Terminal := ⟨"num", by decide, by decide, by decide⟩

def numTree : Tree :=
  .branch (.ofText "E")
    [.branch (.ofText "T")
      [.branch (.ofText "F") [.leaf (.terminal num) "num"], .bare (.ofText "T'")],
      .bare (.ofText "E'")]

theorem numTree_parses : numTree.Parses table start [num] where
  root := rfl
  leaves := rfl
  licensed := by
    refine ⟨rfl, ⟨_, _, rfl, rfl, rfl⟩, ?sum, ?sumTail, trivial⟩
    case sum =>
      refine ⟨rfl, ⟨_, _, rfl, rfl, rfl⟩, ?factor, ?productTail, trivial⟩
      case factor => exact ⟨rfl, ⟨_, _, rfl, rfl, rfl⟩, ⟨rfl, rfl⟩, trivial⟩
      case productTail => exact ⟨rfl, ⟨_, _, rfl, rfl, rfl⟩, trivial⟩
    case sumTail => exact ⟨rfl, ⟨_, _, rfl, rfl, rfl⟩, trivial⟩

theorem parse_num : table.Proper ∧ ∃ d, table.parse start [num] none = some (.ok d) ∧
    d.tree = numTree := by
  obtain ⟨hparse, hunique, htree⟩ := Table.parse_finds_tree table_proper start [num]
  obtain ⟨d, hd⟩ := hparse.mpr ⟨numTree, numTree_parses⟩
  exact ⟨table_proper, d, hd, hunique _ _ (htree d hd) numTree_parses⟩

end Arithmetic

end Predictive
