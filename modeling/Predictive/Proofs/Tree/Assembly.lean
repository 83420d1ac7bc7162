import Mathlib.Data.Nat.Init
import Predictive.Proofs.Lists
import Predictive.Tree.Growth

/-! Assembling the array of a finished growth. When every child stands behind its parent and
is the child of no other node, the walk from the end of the array finds each child in
its slot, and the root becomes the tree that the places of the array describe. -/

namespace Predictive

namespace Growth

inductive Grown (nodes : Array Bud) : Nat → Tree → Prop
  | node {i : Nat} {b : Bud} {ts : List Tree} (found : nodes[i]? = some b)
      (below : List.Forall₂ (Grown nodes) b.children ts) :
      Grown nodes i (.node b.symbol ts b.value)

structure Owned (nodes : Array Bud) : Prop where
  later : ∀ (i : Nat) b, nodes[i]? = some b → ∀ j ∈ b.children, i < j ∧ j < nodes.size
  distinct : ∀ (i : Nat) b, nodes[i]? = some b → b.children.Nodup
  once : ∀ (i i' : Nat) b b', nodes[i]? = some b → nodes[i']? = some b' →
    ∀ j ∈ b.children, j ∈ b'.children → i = i'

theorem Grown.unique {nodes : Array Bud} (hn : Owned nodes) {i : Nat} {t t' : Tree}
    (h : Grown nodes i t) (h' : Grown nodes i t') : t = t' := by
  -- Children stand behind their parents, so the way to the end of the array gets shorter.
  induction hk : nodes.size - i using Nat.strongRecOn generalizing i t t' with
  | ind k ih =>
    obtain ⟨found, below⟩ := h
    obtain ⟨found', below'⟩ := h'
    cases found.symm.trans found'
    rename_i b ts ts'
    have hchildren : ∀ j ∈ b.children, ∀ u u', Grown nodes j u → Grown nodes j u' → u = u' := by
      intro j hj u u' hu hu'
      have hlater := hn.later i b found j hj
      exact ih (nodes.size - j) (by omega) hu hu' rfl
    rw [eq_of_forall₂ below below' hchildren]

theorem size_takeAll (places : List Nat) (finished : Array (Option Tree)) :
    (takeAll places finished).2.size = finished.size := by
  induction places generalizing finished with
  | nil => rfl
  | cons i rest ih => simp [takeAll, ih]

theorem getElem?_takeAll {places : List Nat} {j : Nat} (hj : j ∉ places)
    (finished : Array (Option Tree)) : (takeAll places finished).2[j]? = finished[j]? := by
  induction places generalizing finished with
  | nil => rfl
  | cons i rest ih =>
    rw [List.mem_cons, not_or] at hj
    obtain ⟨hne, hrest⟩ := hj
    rw [takeAll, ih hrest, Array.getElem?_setIfInBounds_ne (Ne.symm hne)]

theorem forall₂_takeAll {P : Nat → Tree → Prop} {places : List Nat} (hn : places.Nodup)
    {finished : Array (Option Tree)}
    (h : ∀ i ∈ places, ∃ tree, finished[i]? = some (some tree) ∧ P i tree) :
    List.Forall₂ P places (takeAll places finished).1 := by
  induction places generalizing finished with
  | nil => exact .nil
  | cons i rest ih =>
    obtain ⟨hi, hrest⟩ := List.nodup_cons.mp hn
    obtain ⟨tree, htree, hp⟩ := h i List.mem_cons_self
    have hlater : ∀ j ∈ rest, ∃ tree, (finished.setIfInBounds i none)[j]? = some (some tree) ∧
        P j tree := by
      intro j hj
      have hne : i ≠ j := fun he => hi (he ▸ hj)
      rw [Array.getElem?_setIfInBounds_ne hne]
      exact h j (List.mem_cons_of_mem _ hj)
    simp only [takeAll, htree, Option.join_some, Option.toList_some, List.singleton_append]
    exact .cons hp (ih hrest hlater)

/-- The slots from a place on hold their trees, but for those that a parent has taken. -/
structure Settled (nodes : Array Bud) (k : Nat) (finished : Array (Option Tree)) : Prop where
  size_eq : finished.size = nodes.size
  slot : ∀ j, k ≤ j → j < nodes.size →
    (∀ (i : Nat) b, k ≤ i → nodes[i]? = some b → j ∉ b.children) →
    ∃ tree, finished[j]? = some (some tree) ∧ Grown nodes j tree

/-- Nobody behind a parent has taken its children, so their slots are full when it is settled. -/
theorem Settled.child {nodes : Array Bud} (hn : Owned nodes) {k : Nat} {b : Bud}
    (hb : nodes[k]? = some b) {finished : Array (Option Tree)}
    (h : Settled nodes (k + 1) finished) {j : Nat} (hj : j ∈ b.children) :
    ∃ tree, finished[j]? = some (some tree) ∧ Grown nodes j tree := by
  obtain ⟨hlater, hwithin⟩ := hn.later k b hb j hj
  refine h.slot j hlater hwithin fun i b' hi hb' hj' => ?_
  have he := hn.once k i b b' hb hb' j hj hj'
  omega

theorem Settled.settle {nodes : Array Bud} (hn : Owned nodes) {k : Nat} {b : Bud}
    (hb : nodes[k]? = some b) {finished : Array (Option Tree)}
    (h : Settled nodes (k + 1) finished) : Settled nodes k (settle (b, k) finished) := by
  obtain ⟨hk, -⟩ := Array.getElem?_eq_some_iff.mp hb
  have htaken := forall₂_takeAll (hn.distinct k b hb) fun j hj => h.child hn hb hj
  refine ⟨by simp [Growth.settle, size_takeAll, h.size_eq], fun j hkj hj hfree => ?_⟩
  by_cases he : k = j
  · subst he
    refine ⟨_, ?_, .node hb htaken⟩
    simp [Growth.settle, size_takeAll, h.size_eq, hk]
  · have hown : j ∉ b.children := hfree k b (Nat.le_refl k) hb
    simp only [Growth.settle, Array.getElem?_setIfInBounds_ne he, getElem?_takeAll hown]
    exact h.slot j (by omega) hj fun i b' hi => hfree i b' (by omega)

def settledFrom (nodes : Array Bud) (k : Nat) : Array (Option Tree) :=
  ((nodes.toList.drop k).zipIdx k).foldr settle (Array.replicate nodes.size none)

theorem assemble_eq (nodes : Array Bud) : assemble nodes = (settledFrom nodes 0)[0]?.join := rfl

theorem settledFrom_eq {nodes : Array Bud} {k : Nat} {b : Bud} (hb : nodes[k]? = some b) :
    settledFrom nodes k = settle (b, k) (settledFrom nodes (k + 1)) := by
  obtain ⟨hk, rfl⟩ := Array.getElem?_eq_some_iff.mp hb
  rw [settledFrom, List.drop_eq_getElem_cons hk, List.zipIdx_cons, List.foldr_cons]
  rfl

theorem settled_settledFrom {nodes : Array Bud} (hn : Owned nodes) {k : Nat}
    (hk : k ≤ nodes.size) : Settled nodes k (settledFrom nodes k) := by
  induction hk using Nat.decreasingInduction with
  | self =>
    have hnone : settledFrom nodes nodes.size = Array.replicate nodes.size none := by
      rw [settledFrom, List.drop_eq_nil_of_le (Nat.le_of_eq Array.length_toList), List.zipIdx_nil,
        List.foldr_nil]
    rw [hnone]
    exact ⟨Array.size_replicate, fun j hkj hj _ => absurd hj (Nat.not_lt.mpr hkj)⟩
  | of_succ k hk ih =>
    have hb : nodes[k]? = some nodes[k] := Array.getElem?_eq_getElem hk
    rw [settledFrom_eq hb]
    exact ih.settle hn hb

theorem assemble_grown {nodes : Array Bud} (hn : Owned nodes) (h0 : 0 < nodes.size) :
    ∃ tree, assemble nodes = some tree ∧ Grown nodes 0 tree := by
  obtain ⟨tree, htree, hgrown⟩ := (settled_settledFrom hn (Nat.zero_le _)).slot 0
    (Nat.le_refl 0) h0 fun i b _ hb hmem => Nat.not_lt_zero i (hn.later i b hb 0 hmem).1
  exact ⟨tree, by rw [assemble_eq, htree, Option.join_some], hgrown⟩

end Growth

end Predictive
