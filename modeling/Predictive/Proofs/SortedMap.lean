import Mathlib.Data.List.Forall2
import Mathlib.Data.List.Permutation
import Predictive.SortedMap

/-! Look-ups in maps that are made from lists of pairs. When no key is repeated the pairs are
exactly what is found, so a map is made again from its own pairs, in whatever order they come,
and changing the keys of a map by an injective function keeps every value in its place. A map of
maps may be given in any order on both levels. -/

namespace Predictive

theorem Ascending.nodup_keys {κ β : Type} [Ord κ] [Std.ReflOrd κ] {entries : List (κ × β)}
    (h : Ascending entries) : (entries.map Prod.fst).Nodup := by
  refine List.pairwise_map.mpr (List.Pairwise.imp (fun {a b} hlt heq => ?_) h)
  rw [heq, Std.ReflOrd.compare_self] at hlt
  cases hlt

namespace SortedMap

variable {κ β : Type} [Ord κ] [Std.TransOrd κ] [Std.LawfulEqOrd κ]

theorem get?_foldl_insert {pairs : List (κ × β)} (h : (pairs.map Prod.fst).Nodup)
    (m : SortedMap κ β) {k : κ} {v : β} :
    (pairs.foldl (fun m p => m.insert p.1 p.2) m).get? k = some v ↔
      (k, v) ∈ pairs ∨ k ∉ pairs.map Prod.fst ∧ m.get? k = some v := by
  induction pairs generalizing m with
  | nil => simp
  | cons p pairs ih =>
    obtain ⟨j, w⟩ := p
    obtain ⟨hj, hrest⟩ := List.nodup_cons.mp h
    have hjw : ∀ u, (j, u) ∉ pairs := fun u hm => hj (List.mem_map.mpr ⟨(j, u), hm, rfl⟩)
    rw [List.foldl_cons, ih hrest]
    by_cases hk : k = j
    · subst hk
      simp [get?_insert_self, hjw, hj, eq_comm]
    · simp [get?_insert_of_ne m hk, hk]

theorem get?_ofList {pairs : List (κ × β)} (h : (pairs.map Prod.fst).Nodup) {k : κ} {v : β} :
    (ofList pairs).get? k = some v ↔ (k, v) ∈ pairs := by
  simp [ofList, get?_foldl_insert h, get?_empty]

theorem mem_foldl_insert {pairs : List (κ × β)} {m : SortedMap κ β} {p : κ × β}
    (h : p ∈ (pairs.foldl (fun m p => m.insert p.1 p.2) m).entries) :
    p ∈ pairs ∨ p ∈ m.entries := by
  induction pairs generalizing m with
  | nil => exact .inr h
  | cons q pairs ih =>
    rcases ih h with h | h
    · exact .inl (List.mem_cons_of_mem q h)
    · rcases mem_place h with rfl | h
      · exact .inl List.mem_cons_self
      · exact .inr h

theorem mem_of_mem_ofList {pairs : List (κ × β)} {p : κ × β} (h : p ∈ (ofList pairs).entries) :
    p ∈ pairs := by
  rcases mem_foldl_insert h with h | h
  · exact h
  · cases h

theorem ofList_perm {xs ys : List (κ × β)} (h : xs.Perm ys) (hys : (ys.map Prod.fst).Nodup) :
    ofList xs = ofList ys := by
  have hxs : (xs.map Prod.fst).Nodup := (h.map Prod.fst).nodup_iff.mpr hys
  refine ext_get? fun k => Option.ext fun v => ?_
  rw [get?_ofList hxs, get?_ofList hys, h.mem_iff]

theorem ofList_entries (m : SortedMap κ β) : ofList m.entries = m := by
  refine ext_get? fun k => Option.ext fun v => ?_
  rw [get?_ofList m.ascending.nodup_keys, get?_eq_some]

theorem ofList_of_perm {m : SortedMap κ β} {pairs : List (κ × β)} (h : pairs.Perm m.entries) :
    ofList pairs = m :=
  (ofList_perm h m.ascending.nodup_keys).trans (ofList_entries m)

theorem get?_mapValues {γ : Type} (f : β → γ) (m : SortedMap κ β) (k : κ) :
    (m.mapValues f).get? k = (m.get? k).map f := by
  refine Option.ext fun w => ?_
  simp [get?_eq_some, mapValues, Option.map_eq_some_iff]

variable {ι γ : Type} [Ord ι] [Std.TransOrd ι] [Std.LawfulEqOrd ι]

theorem ext_get?_get? {a b : SortedMap κ (SortedMap ι γ)}
    (hkey : ∀ k, (a.get? k).isSome = (b.get? k).isSome)
    (hvalue : ∀ k i, (a.get? k).bind (·.get? i) = (b.get? k).bind (·.get? i)) : a = b := by
  refine ext_get? fun k => ?_
  have hk := hkey k
  have hv := hvalue k
  cases ha : a.get? k with
  | none =>
    cases hb : b.get? k with
    | none => rfl
    | some inner => simp [ha, hb] at hk
  | some inner =>
    rw [ha] at hk
    obtain ⟨inner', hb⟩ := Option.isSome_iff_exists.mp hk.symm
    rw [ha, hb] at hv
    rw [hb, ext_get? hv]

def toLists (m : SortedMap κ (SortedMap ι γ)) : List (κ × List (ι × γ)) :=
  m.entries.map fun p => (p.1, p.2.entries)

/-- Every key once and in any order, each with its own pairs once and in any order. -/
def Arranges (rows : List (κ × List (ι × γ))) (m : SortedMap κ (SortedMap ι γ)) : Prop :=
  ∃ lists, lists.Perm m.toLists ∧
    List.Forall₂ (fun r p => r.1 = p.1 ∧ r.2.Perm p.2) rows lists

section Arranges

variable {rows : List (κ × List (ι × γ))} {m : SortedMap κ (SortedMap ι γ)}

omit [Std.TransOrd κ] [Std.LawfulEqOrd κ] [Std.TransOrd ι] [Std.LawfulEqOrd ι] in
theorem arranges_toLists (m : SortedMap κ (SortedMap ι γ)) : Arranges m.toLists m :=
  ⟨m.toLists, .refl _, List.forall₂_same.mpr fun _ _ => ⟨rfl, .refl _⟩⟩

theorem Arranges.ofList_eq (h : Arranges rows m) :
    ofList (rows.map fun r => (r.1, ofList r.2)) = m := by
  obtain ⟨lists, hperm, hrows⟩ := h
  have hnodup : ∀ p ∈ lists, (p.2.map Prod.fst).Nodup := by
    intro p hp
    obtain ⟨q, -, rfl⟩ := List.mem_map.mp (hperm.mem_iff.mp hp)
    exact q.2.ascending.nodup_keys
  have hinner : rows.map (fun r => (r.1, ofList r.2)) = lists.map fun p => (p.1, ofList p.2) := by
    clear hperm
    induction hrows with
    | nil => rfl
    | cons hr _ ih =>
      obtain ⟨hp, hrest⟩ := List.forall_mem_cons.mp hnodup
      rw [List.map_cons, List.map_cons, ih hrest, hr.1, ofList_perm hr.2 hp]
  have hentries : m.toLists.map (fun p => (p.1, ofList p.2)) = m.entries := by
    simp [toLists, Function.comp_def, ofList_entries]
  rw [hinner]
  exact ofList_of_perm (hentries ▸ hperm.map _)

omit [Std.TransOrd κ] [Std.LawfulEqOrd κ] [Std.TransOrd ι] [Std.LawfulEqOrd ι] in
theorem Arranges.perm_keys (h : Arranges rows m) : (rows.map Prod.fst).Perm m.keys := by
  obtain ⟨lists, hperm, hrows⟩ := h
  have hkeys : rows.map Prod.fst = lists.map Prod.fst := by
    clear hperm
    induction hrows with
    | nil => rfl
    | cons hr _ ih => rw [List.map_cons, List.map_cons, ih, hr.1]
  have hlists : m.toLists.map Prod.fst = m.keys := List.map_map
  rw [hkeys, ← hlists]
  exact hperm.map Prod.fst

omit [Std.TransOrd κ] [Std.LawfulEqOrd κ] [Std.TransOrd ι] [Std.LawfulEqOrd ι] in
theorem Arranges.perm_flatMap {δ : Type} (f : κ → ι × γ → δ) (h : Arranges rows m) :
    (rows.flatMap fun r => r.2.map (f r.1)).Perm
      (m.entries.flatMap fun p => p.2.entries.map (f p.1)) := by
  obtain ⟨lists, hperm, hrows⟩ := h
  have hrow : (rows.flatMap fun r => r.2.map (f r.1)).Perm
      (lists.flatMap fun p => p.2.map (f p.1)) := by
    clear hperm
    induction hrows with
    | nil => exact .refl _
    | cons hr _ ih =>
      rw [List.flatMap_cons, List.flatMap_cons, hr.1]
      exact (hr.2.map _).append ih
  have hlists := hrow.trans (hperm.flatMap_right _)
  rwa [toLists, List.flatMap_map] at hlists

end Arranges

def insertIn (m : SortedMap κ (SortedMap ι γ)) (k : κ) (i : ι) (v : γ) :
    SortedMap κ (SortedMap ι γ) :=
  m.insert k (((m.get? k).getD .empty).insert i v)

section InsertIn

variable {m : SortedMap κ (SortedMap ι γ)} {k j : κ} {i : ι} {v : γ}

theorem get?_insertIn_self :
    (m.insertIn k i v).get? k = some (((m.get? k).getD .empty).insert i v) :=
  get?_insert_self ..

theorem get?_insertIn_of_ne (h : j ≠ k) : (m.insertIn k i v).get? j = m.get? j :=
  get?_insert_of_ne m h _

theorem isSome_get?_foldl_insertIn (values : List (κ × ι × γ))
    (m : SortedMap κ (SortedMap ι γ)) (k : κ) :
    ((values.foldl (fun m x => m.insertIn x.1 x.2.1 x.2.2) m).get? k).isSome = true ↔
      (∃ x ∈ values, x.1 = k) ∨ (m.get? k).isSome = true := by
  induction values generalizing m with
  | nil => simp
  | cons x values ih =>
    rw [List.foldl_cons, ih]
    by_cases hk : x.1 = k
    · simp [← hk, get?_insertIn_self]
    · simp [hk, get?_insertIn_of_ne (Ne.symm hk)]

theorem get?_get?_foldl_insertIn {values : List (κ × ι × γ)}
    (h : (values.map fun x => (x.1, x.2.1)).Nodup) (m : SortedMap κ (SortedMap ι γ)) {k : κ}
    {i : ι} {v : γ} :
    ((values.foldl (fun m x => m.insertIn x.1 x.2.1 x.2.2) m).get? k).bind (·.get? i) = some v ↔
      (k, i, v) ∈ values ∨
        (k, i) ∉ values.map (fun x => (x.1, x.2.1)) ∧ (m.get? k).bind (·.get? i) = some v := by
  induction values generalizing m with
  | nil => simp
  | cons x values ih =>
    obtain ⟨k', i', w⟩ := x
    obtain ⟨hx, hrest⟩ := List.nodup_cons.mp h
    have hw : ∀ u, (k', i', u) ∉ values := fun u hu => hx (List.mem_map.mpr ⟨_, hu, rfl⟩)
    have hbind : ∀ o : Option (SortedMap ι γ),
        (o.getD .empty).get? i = o.bind (·.get? i) := by
      rintro (_ | inner)
      · rfl
      · rfl
    rw [List.foldl_cons, ih hrest]
    by_cases hk : k = k'
    · subst hk
      by_cases hi : i = i'
      · subst hi
        simp [get?_insertIn_self, get?_insert_self, hw, hx, eq_comm]
      · simp [get?_insertIn_self, get?_insert_of_ne _ hi, hi, hbind]
    · simp [get?_insertIn_of_ne hk, hk]

end InsertIn

theorem get?_ofList_map {f : ι → κ} (hf : Function.Injective f) (g : γ → β)
    (m : SortedMap ι γ) {k : κ} {v : β} :
    (ofList (m.entries.map fun p => (f p.1, g p.2))).get? k = some v ↔
      ∃ i w, f i = k ∧ m.get? i = some w ∧ g w = v := by
  have hkeys : ((m.entries.map fun p => (f p.1, g p.2)).map Prod.fst).Nodup := by
    have := m.ascending.nodup_keys.map hf
    simpa [List.map_map, Function.comp_def] using this
  rw [get?_ofList hkeys, List.mem_map]
  constructor
  · intro h
    obtain ⟨⟨i, w⟩, hm, he⟩ := h
    cases he
    exact ⟨i, w, rfl, get?_eq_some.mpr hm, rfl⟩
  · intro h
    obtain ⟨i, w, rfl, hm, rfl⟩ := h
    exact ⟨(i, w), get?_eq_some.mp hm, rfl⟩

end SortedMap

end Predictive
