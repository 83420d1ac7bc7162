import Predictive.Proofs.Json.Readers

/-! Values read for what they are. Whether a written value is accepted as JSON depends on how
deep it nests and on how large its numbers are; putting the fields of its objects in order
changes neither. An object may be read for its members alone, which are then left to other
readers. -/

namespace Predictive.Json

inductive Fits : Nat → Json → Prop
  | null {b : Nat} : Fits b .null
  | number {b n : Nat} (h : n < Nat.pow 2 64) : Fits b (.number n)
  | text {b : Nat} (s : String) : Fits b (.text s)
  | list {b : Nat} {items : List Json} (h : ∀ j ∈ items, Fits b j) : Fits (b + 1) (.list items)
  | object {b : Nat} {fields : List (String × Json)} (h : ∀ p ∈ fields, Fits b p.2) :
    Fits (b + 1) (.object fields)

variable {b : Nat}

theorem intactItems_outlines {items : List Json}
    (h : ∀ j ∈ items, intact b (outline j) = .ok ()) :
    intactItems b (outlines items) none = .ok () := by
  induction items with
  | nil => rfl
  | cons j items ih =>
    obtain ⟨hj, hitems⟩ := List.forall_mem_cons.mp h
    rw [outlines, intactItems, hj]
    exact ih hitems

theorem intactFields_outlines {fields : List (String × Json)}
    (h : ∀ p ∈ fields, intact b (outline p.2) = .ok ()) :
    intactFields b (fieldOutlines fields) none = .ok () := by
  induction fields with
  | nil => rfl
  | cons p fields ih =>
    obtain ⟨hp, hfields⟩ := List.forall_mem_cons.mp h
    rw [fieldOutlines, intactFields, hp]
    exact ih hfields

theorem Fits.intact_outline {j : Json} (h : Fits b j) : intact b (outline j) = .ok () := by
  induction h with
  | null => rfl
  | number h =>
    rw [outline, Numeral.ofParts_toDigits h]
    rfl
  | text s => rfl
  | list _ ih =>
    rw [outline, intact, enter]
    exact intactItems_outlines ih
  | object _ ih =>
    rw [outline, intact, enter]
    exact intactFields_outlines ih

theorem Fits.sorted {j : Json} (h : Fits b j) : Fits b j.sorted := by
  induction h with
  | null => exact .null
  | number h => exact .number h
  | text s => exact .text s
  | list _ ih =>
    rw [Json.sorted, sortedItems_eq_map]
    refine .list fun j hj => ?_
    obtain ⟨i, hi, rfl⟩ := List.mem_map.mp hj
    exact ih i hi
  | object _ ih =>
    rw [Json.sorted, sortedFields_eq_map]
    refine .object fun p hp => ?_
    obtain ⟨q, hq, rfl⟩ := List.mem_map.mp (SortedMap.mem_of_mem_ofList hp)
    exact ih q hq

namespace Reader

def whole : Reader Outline := fun b o => do
  intact b o
  return o

def members : Reader (SortedMap String Outline) := map whole

theorem whole_outline {j : Json} (h : Fits b j) : whole b (outline j) = .ok (outline j) := by
  rw [whole, h.intact_outline]
  rfl

theorem members_object {fields : List (String × Json)} (h : ∀ p ∈ fields, p.2.Fits b) :
    members (b + 1) (outline (.object fields)) =
      .ok (.ofList (fields.map fun p => (p.1, outline p.2))) := by
  have hentries := entries_outline id outline (fun p hp => whole_outline (h p hp)) .empty
  simp only [id, List.map_id_fun'] at hentries
  rw [outline, members, map, enter, hentries, SortedMap.ofList, List.foldl_map]

end Reader

end Predictive.Json
