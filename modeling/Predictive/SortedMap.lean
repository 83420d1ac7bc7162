/-! Finite maps held as lists of pairs in strictly ascending order of their keys. The form
is canonical: `SortedMap.ext_get?` says that two maps with the same look-ups are the same
map, so equality of maps is equality of lists, and listing a map is listing its pairs in
order. -/

namespace Predictive

def Ascending {κ β : Type} [Ord κ] (entries : List (κ × β)) : Prop :=
  entries.Pairwise fun a b => compare a.1 b.1 = .lt

structure SortedMap (κ β : Type) [Ord κ] where
  entries : List (κ × β)
  ascending : Ascending entries

namespace SortedMap

variable {κ β : Type} [Ord κ]

instance [DecidableEq κ] [DecidableEq β] : DecidableEq (SortedMap κ β) := fun a b =>
  if h : a.entries = b.entries then isTrue (by cases a; cases b; cases h; rfl)
  else isFalse fun e => h (congrArg entries e)

theorem ext {a b : SortedMap κ β} (h : a.entries = b.entries) : a = b := by
  cases a; cases b; cases h; rfl

def empty : SortedMap κ β := ⟨[], .nil⟩

def find? (k : κ) : List (κ × β) → Option β
  | [] => none
  | (k', v) :: rest =>
    match compare k k' with
    | .lt => none
    | .eq => some v
    | .gt => find? k rest

def place (k : κ) (v : β) : List (κ × β) → List (κ × β)
  | [] => [(k, v)]
  | (k', v') :: rest =>
    match compare k k' with
    | .lt => (k, v) :: (k', v') :: rest
    | .eq => (k, v) :: rest
    | .gt => (k', v') :: place k v rest

theorem mem_place {k : κ} {v : β} {entries : List (κ × β)} {p : κ × β}
    (h : p ∈ place k v entries) : p = (k, v) ∨ p ∈ entries := by
  induction entries with
  | nil => simpa [place] using h
  | cons e rest ih =>
    simp only [place] at h
    split at h
    · simpa using h
    · rcases List.mem_cons.mp h with h | h
      · exact .inl h
      · exact .inr (List.mem_cons_of_mem _ h)
    · rcases List.mem_cons.mp h with h | h
      · exact .inr (h ▸ List.mem_cons_self)
      · exact (ih h).imp id (List.mem_cons_of_mem _)

theorem ascending_place [Std.TransOrd κ] [Std.LawfulEqOrd κ] (k : κ) (v : β)
    {entries : List (κ × β)} (h : Ascending entries) : Ascending (place k v entries) := by
  induction entries with
  | nil => exact List.pairwise_singleton _ _
  | cons e rest ih =>
    obtain ⟨k', v'⟩ := e
    have ⟨he, hr⟩ := List.pairwise_cons.mp h
    simp only [place]
    split
    · next hk =>
      refine List.pairwise_cons.mpr ⟨fun p hp => ?_, h⟩
      rcases List.mem_cons.mp hp with rfl | hp
      · exact hk
      · exact Std.TransCmp.lt_trans hk (he p hp)
    · next hk =>
      cases Std.LawfulEqCmp.eq_of_compare hk
      exact List.pairwise_cons.mpr ⟨he, hr⟩
    · next hk =>
      refine List.pairwise_cons.mpr ⟨fun p hp => ?_, ih hr⟩
      rcases mem_place hp with rfl | hp
      · exact Std.OrientedCmp.lt_of_gt hk
      · exact he p hp

def get? (m : SortedMap κ β) (k : κ) : Option β := find? k m.entries

def insert [Std.TransOrd κ] [Std.LawfulEqOrd κ] (m : SortedMap κ β) (k : κ) (v : β) :
    SortedMap κ β :=
  ⟨place k v m.entries, ascending_place k v m.ascending⟩

def keys (m : SortedMap κ β) : List κ := m.entries.map Prod.fst

def size (m : SortedMap κ β) : Nat := m.entries.length

def isEmpty (m : SortedMap κ β) : Bool := m.entries.isEmpty

def ofList [Std.TransOrd κ] [Std.LawfulEqOrd κ] (pairs : List (κ × β)) : SortedMap κ β :=
  pairs.foldl (fun m p => m.insert p.1 p.2) empty

def mapValues {γ : Type} (f : β → γ) (m : SortedMap κ β) : SortedMap κ γ :=
  ⟨m.entries.map fun p => (p.1, f p.2), by
    simpa [Ascending, List.pairwise_map] using m.ascending⟩

theorem get?_empty (k : κ) : (empty : SortedMap κ β).get? k = none := rfl

variable [Std.LawfulEqOrd κ]

theorem find?_place_self (k : κ) (v : β) (entries : List (κ × β)) :
    find? k (place k v entries) = some v := by
  induction entries with
  | nil => simp [place, find?]
  | cons e rest ih =>
    simp only [place]
    split
    · simp [find?]
    · simp [find?]
    · next hk => simp [find?, hk, ih]

variable [Std.TransOrd κ]

theorem find?_place_of_ne {k j : κ} (h : j ≠ k) (v : β) {entries : List (κ × β)}
    (ha : Ascending entries) : find? j (place k v entries) = find? j entries := by
  have hjk : compare j k ≠ .eq := fun e => h (Std.LawfulEqCmp.eq_of_compare e)
  induction entries with
  | nil =>
    simp only [place, find?]
    split <;> simp_all
  | cons e rest ih =>
    obtain ⟨k', v'⟩ := e
    have ⟨_, hr⟩ := List.pairwise_cons.mp ha
    simp only [place]
    split
    · next hk =>
      rw [find?]
      split
      · next hj => simp [find?, Std.TransCmp.lt_trans hj hk]
      · next hj => exact absurd hj hjk
      · rfl
    · next hk =>
      cases Std.LawfulEqCmp.eq_of_compare hk
      simp only [find?]
      split <;> first | rfl | exact absurd ‹_› hjk
    · next hk =>
      simp only [find?]
      split
      · rfl
      · rfl
      · exact ih hr

theorem get?_insert_self (m : SortedMap κ β) (k : κ) (v : β) :
    (m.insert k v).get? k = some v :=
  find?_place_self k v m.entries

theorem get?_insert_of_ne (m : SortedMap κ β) {k j : κ} (h : j ≠ k) (v : β) :
    (m.insert k v).get? j = m.get? j :=
  find?_place_of_ne h v m.ascending

theorem find?_eq_some {k : κ} {v : β} {entries : List (κ × β)} (ha : Ascending entries) :
    find? k entries = some v ↔ (k, v) ∈ entries := by
  induction entries with
  | nil => simp [find?]
  | cons e rest ih =>
    obtain ⟨k', v'⟩ := e
    have ⟨he, hr⟩ := List.pairwise_cons.mp ha
    have hne : (k, v) ∈ rest → compare k k' = .gt := fun hm =>
      Std.OrientedCmp.gt_of_lt (he _ hm)
    simp only [find?]
    split
    · next hk =>
      refine ⟨fun h => absurd h (by simp), fun h => ?_⟩
      rcases List.mem_cons.mp h with h | h
      · cases h; simp at hk
      · rw [hne h] at hk; cases hk
    · next hk =>
      have hkk := Std.LawfulEqCmp.eq_of_compare hk
      subst hkk
      constructor
      · intro h; cases h; exact List.mem_cons_self
      · intro h
        rcases List.mem_cons.mp h with h | h
        · cases h; rfl
        · rw [hne h] at hk; cases hk
    · next hk =>
      rw [ih hr]
      constructor
      · exact List.mem_cons_of_mem _
      · intro h
        rcases List.mem_cons.mp h with h | h
        · cases h; simp at hk
        · exact h

theorem get?_eq_some {m : SortedMap κ β} {k : κ} {v : β} :
    m.get? k = some v ↔ (k, v) ∈ m.entries :=
  find?_eq_some m.ascending

theorem mem_keys {m : SortedMap κ β} {k : κ} : k ∈ m.keys ↔ (m.get? k).isSome = true := by
  simp only [keys, List.mem_map, Option.isSome_iff_exists, get?_eq_some, Prod.exists,
    exists_and_right, exists_eq_right]

theorem eq_of_ascending {xs ys : List (κ × β)} (hx : Ascending xs) (hy : Ascending ys)
    (h : ∀ p, p ∈ xs ↔ p ∈ ys) : xs = ys := by
  induction xs generalizing ys with
  | nil =>
    cases ys with
    | nil => rfl
    | cons y ys => exact absurd ((h y).mpr List.mem_cons_self) (by simp)
  | cons x xs ih =>
    cases ys with
    | nil => exact absurd ((h x).mp List.mem_cons_self) (by simp)
    | cons y ys =>
      have ⟨hx1, hx2⟩ := List.pairwise_cons.mp hx
      have ⟨hy1, hy2⟩ := List.pairwise_cons.mp hy
      have hirr : ∀ a : κ, compare a a ≠ .lt := fun a e => by simp at e
      have hxy : x = y := by
        rcases List.mem_cons.mp ((h x).mp List.mem_cons_self) with e | hxm
        · exact e
        · rcases List.mem_cons.mp ((h y).mpr List.mem_cons_self) with e | hym
          · exact e.symm
          · exact absurd (Std.TransCmp.lt_trans (hx1 y hym) (hy1 x hxm)) (hirr _)
      subst hxy
      have hxs : ∀ p, p ∈ xs ↔ p ∈ ys := by
        intro p
        constructor
        · intro hp
          rcases List.mem_cons.mp ((h p).mp (List.mem_cons_of_mem _ hp)) with e | hm
          · exact absurd (hx1 p hp) (e ▸ hirr _)
          · exact hm
        · intro hp
          rcases List.mem_cons.mp ((h p).mpr (List.mem_cons_of_mem _ hp)) with e | hm
          · exact absurd (hy1 p hp) (e ▸ hirr _)
          · exact hm
      rw [ih hx2 hy2 hxs]

theorem ext_get? {a b : SortedMap κ β} (h : ∀ k, a.get? k = b.get? k) : a = b :=
  ext (eq_of_ascending a.ascending b.ascending fun p => by
    rw [← get?_eq_some, ← get?_eq_some, h])

end SortedMap

end Predictive
