import Predictive.Proofs.Tree.Assembly

/-! What one expansion and one match do to the nodes under construction. The pending places
hold buds that have no children and no value yet, and their symbols in order are all that
a step looks at; every other node stays as it is from then on. -/

namespace Predictive

namespace Growth

structure Awaits (g : Growth) (symbols : List Symbol) : Prop where
  owned : Owned g.nodes
  distinct : g.pending.Nodup
  buds : List.Forall₂ (fun i s => g.nodes[i]? = some (.fresh s)) g.pending symbols

def Keeps (g g' : Growth) : Prop :=
  ∀ i < g.nodes.size, i ∉ g.pending →
    i < g'.nodes.size ∧ i ∉ g'.pending ∧ g'.nodes[i]? = g.nodes[i]?

theorem Keeps.refl (g : Growth) : Keeps g g := fun _ hi hp => ⟨hi, hp, rfl⟩

theorem Keeps.trans {g₁ g₂ g₃ : Growth} (h : Keeps g₁ g₂) (h' : Keeps g₂ g₃) :
    Keeps g₁ g₃ := by
  intro i hi hp
  obtain ⟨hi₂, hp₂, he₂⟩ := h i hi hp
  obtain ⟨hi₃, hp₃, he₃⟩ := h' i hi₂ hp₂
  exact ⟨hi₃, hp₃, he₃.trans he₂⟩

theorem awaits_ofRoot (s : Symbol) : Awaits (ofRoot s) [s] where
  owned := by
    have hb : ∀ (i : Nat) b, (ofRoot s).nodes[i]? = some b → b.children = [] := by
      intro i b hi
      cases i with
      | zero => cases hi; rfl
      | succ i => cases hi
    refine ⟨fun i b hi j hj => ?_, fun i b hi => ?_, fun i i' b b' hi _ j hj => ?_⟩
    · simp [hb i b hi] at hj
    · simp [hb i b hi]
    · simp [hb i b hi] at hj
  distinct := by simp [ofRoot]
  buds := .cons rfl .nil

variable {nodes : Array Bud} {front : Nat} {rest : List Nat}
  {hrest : ∀ i ∈ rest, i < nodes.size} {s : Symbol} {symbols below : List Symbol}

theorem getElem?_expand (i : Nat) :
    (expand nodes front rest hrest symbols).nodes[i]? =
      if i < nodes.size then
        if front = i then nodes[i]?.map (.bear (List.range' nodes.size symbols.length))
        else nodes[i]?
      else (symbols[i - nodes.size]?).map .fresh := by
  simp [expand, Array.getElem?_append, Array.getElem?_modify]

theorem size_expand :
    (expand nodes front rest hrest symbols).nodes.size = nodes.size + symbols.length := by
  simp [expand]

theorem children_expand {i : Nat} {b : Bud}
    (h : (expand nodes front rest hrest symbols).nodes[i]? = some b) :
    (i = front ∧ i < nodes.size ∧ b.children = List.range' nodes.size symbols.length) ∨
      nodes[i]? = some b ∨ b.children = [] := by
  rw [getElem?_expand] at h
  split at h
  · next hi =>
    split at h
    · next he =>
      obtain ⟨b', -, rfl⟩ := Option.map_eq_some_iff.mp h
      exact .inl ⟨he.symm, hi, rfl⟩
    · exact .inr (.inl h)
  · obtain ⟨s, -, rfl⟩ := Option.map_eq_some_iff.mp h
    exact .inr (.inr rfl)

theorem owned_expand (hn : Owned nodes) :
    Owned (expand nodes front rest hrest symbols).nodes where
  later := by
    intro i b hb j hj
    rw [size_expand]
    obtain ⟨rfl, hi, hc⟩ | hold | hc := children_expand hb
    · have hr := List.mem_range'_1.mp (hc ▸ hj)
      omega
    · have hlt := hn.later i b hold j hj
      omega
    · simp [hc] at hj
  distinct := by
    intro i b hb
    obtain ⟨-, -, hc⟩ | hold | hc := children_expand hb
    · exact hc ▸ List.nodup_range'
    · exact hn.distinct i b hold
    · simp [hc]
  once := by
    intro i i' b b' hb hb' j hj hj'
    obtain ⟨rfl, -, hc⟩ | hold | hc := children_expand hb
    · obtain ⟨rfl, -, hc'⟩ | hold' | hc' := children_expand hb'
      · rfl
      · have hr := List.mem_range'_1.mp (hc ▸ hj)
        have hlt := hn.later i' b' hold' j hj'
        omega
      · simp [hc'] at hj'
    · obtain ⟨rfl, -, hc'⟩ | hold' | hc' := children_expand hb'
      · have hr := List.mem_range'_1.mp (hc' ▸ hj')
        have hlt := hn.later i b hold j hj
        omega
      · exact hn.once i i' b b' hold hold' j hj hj'
      · simp [hc'] at hj'
    · simp [hc] at hj

theorem Awaits.front_eq {hlt : ∀ i ∈ front :: rest, i < nodes.size}
    (h : Awaits ⟨nodes, front :: rest, hlt⟩ (s :: below)) :
    nodes[front]? = some (.fresh s) ∧ front ∉ rest ∧
      List.Forall₂ (fun i s => nodes[i]? = some (.fresh s)) rest below := by
  obtain ⟨hfront, hbelow⟩ := List.forall₂_cons.mp h.buds
  exact ⟨hfront, (List.nodup_cons.mp h.distinct).1, hbelow⟩

theorem Awaits.expand {hlt : ∀ i ∈ front :: rest, i < nodes.size}
    (h : Awaits ⟨nodes, front :: rest, hlt⟩ (s :: below)) (symbols : List Symbol) :
    Awaits (expand nodes front rest hrest symbols) (symbols ++ below) where
  owned := owned_expand h.owned
  distinct := by
    refine List.nodup_append.mpr ⟨List.nodup_range', (List.nodup_cons.mp h.distinct).2, ?_⟩
    intro i hi j hj he
    have hr := List.mem_range'_1.mp hi
    have hl := hrest j hj
    omega
  buds := by
    obtain ⟨-, hfront, hbelow⟩ := h.front_eq
    have hborn : List.Forall₂
        (fun i s => (Growth.expand nodes front rest hrest symbols).nodes[i]? = some (.fresh s))
        (List.range' nodes.size symbols.length) symbols := by
      refine List.forall₂_iff_get.mpr ⟨List.length_range', fun k hk hk' => ?_⟩
      rw [getElem?_expand, List.get_eq_getElem, List.getElem_range']
      simp [hk']
    refine List.rel_append hborn ?_
    refine ((List.forall₂_and_left rest below).mpr ⟨fun i hi => hi, hbelow⟩).imp ?_
    intro i s' h
    obtain ⟨hi, hbud⟩ := h
    have hne : front ≠ i := fun he => hfront (he ▸ hi)
    rw [getElem?_expand, if_pos (hrest i hi), if_neg hne]
    exact hbud

theorem keeps_expand {hlt : ∀ i ∈ front :: rest, i < nodes.size} :
    Keeps ⟨nodes, front :: rest, hlt⟩ (expand nodes front rest hrest symbols) := by
  intro i (hi : i < nodes.size) hp
  rw [List.mem_cons, not_or] at hp
  refine ⟨by rw [size_expand]; exact Nat.lt_add_right _ hi, fun hmem => ?_, ?_⟩
  · rcases List.mem_append.mp hmem with hmem | hmem
    · have hr := List.mem_range'_1.mp hmem
      omega
    · exact hp.2 hmem
  · rw [getElem?_expand, if_pos hi, if_neg (Ne.symm hp.1)]

theorem Awaits.front_expand {hlt : ∀ i ∈ front :: rest, i < nodes.size}
    (h : Awaits ⟨nodes, front :: rest, hlt⟩ (s :: below)) :
    (Growth.expand nodes front rest hrest symbols).nodes[front]? =
        some ⟨s, List.range' nodes.size symbols.length, none⟩ ∧
      front ∉ (Growth.expand nodes front rest hrest symbols).pending := by
  obtain ⟨hbud, hfront, -⟩ := h.front_eq
  have hsize : front < nodes.size := hlt front List.mem_cons_self
  refine ⟨by rw [getElem?_expand, if_pos hsize, if_pos rfl, hbud]; rfl, fun hmem => ?_⟩
  rcases List.mem_append.mp hmem with hmem | hmem
  · have hr := List.mem_range'_1.mp hmem
    omega
  · exact hfront hmem

variable {token : Lookahead}

theorem getElem?_consume (i : Nat) :
    (consume nodes front rest hrest token).nodes[i]? =
      if front = i then nodes[i]?.map (.close token.text) else nodes[i]? := by
  simp [consume, Array.getElem?_modify]

theorem children_consume {i : Nat} {b : Bud}
    (h : (consume nodes front rest hrest token).nodes[i]? = some b) :
    ∃ b', nodes[i]? = some b' ∧ b'.children = b.children := by
  rw [getElem?_consume] at h
  split at h
  · obtain ⟨b', hb', rfl⟩ := Option.map_eq_some_iff.mp h
    exact ⟨b', hb', rfl⟩
  · exact ⟨b, h, rfl⟩

theorem owned_consume (hn : Owned nodes) :
    Owned (consume nodes front rest hrest token).nodes where
  later := by
    intro i b hb j hj
    obtain ⟨b', hb', hc⟩ := children_consume hb
    simpa [consume] using hn.later i b' hb' j (hc ▸ hj)
  distinct := by
    intro i b hb
    obtain ⟨b', hb', hc⟩ := children_consume hb
    exact hc ▸ hn.distinct i b' hb'
  once := by
    intro i i' b₁ b₂ hb₁ hb₂ j hj₁ hj₂
    obtain ⟨b₁', hb₁', hc₁⟩ := children_consume hb₁
    obtain ⟨b₂', hb₂', hc₂⟩ := children_consume hb₂
    exact hn.once i i' b₁' b₂' hb₁' hb₂' j (hc₁ ▸ hj₁) (hc₂ ▸ hj₂)

theorem Awaits.consume {hlt : ∀ i ∈ front :: rest, i < nodes.size}
    (h : Awaits ⟨nodes, front :: rest, hlt⟩ (s :: below)) (token : Lookahead) :
    Awaits (consume nodes front rest hrest token) below where
  owned := owned_consume h.owned
  distinct := (List.nodup_cons.mp h.distinct).2
  buds := by
    obtain ⟨-, hfront, hbelow⟩ := h.front_eq
    refine ((List.forall₂_and_left rest below).mpr ⟨fun i hi => hi, hbelow⟩).imp ?_
    intro i s' h
    obtain ⟨hi, hbud⟩ := h
    have hne : front ≠ i := fun he => hfront (he ▸ hi)
    rw [getElem?_consume, if_neg hne]
    exact hbud

theorem keeps_consume {hlt : ∀ i ∈ front :: rest, i < nodes.size} :
    Keeps ⟨nodes, front :: rest, hlt⟩ (consume nodes front rest hrest token) := by
  intro i hi hp
  rw [List.mem_cons, not_or] at hp
  refine ⟨by simpa [consume] using hi, hp.2, ?_⟩
  rw [getElem?_consume, if_neg (Ne.symm hp.1)]

theorem Awaits.front_consume {hlt : ∀ i ∈ front :: rest, i < nodes.size}
    (h : Awaits ⟨nodes, front :: rest, hlt⟩ (s :: below)) :
    (Growth.consume nodes front rest hrest token).nodes[front]? =
        some ⟨s, [], some token.text⟩ ∧
      front ∉ (Growth.consume nodes front rest hrest token).pending := by
  obtain ⟨hbud, hfront, -⟩ := h.front_eq
  exact ⟨by rw [getElem?_consume, if_pos rfl, hbud]; rfl, hfront⟩

end Growth

end Predictive
