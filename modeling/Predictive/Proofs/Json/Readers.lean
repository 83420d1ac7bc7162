import Predictive.Json.Reader
import Predictive.Json.Sorted
import Predictive.Proofs.Json.Written
import Predictive.Proofs.SortedMap

/-! Readers on written values. A reader of a whole text sees the outline of the value that was
written, whichever style it was written in and whatever blanks follow it. A map is read as it
was written as soon as its values are, and a structure is read field by field. What a reader
makes of a value is stated for its fields as they are given and in the order of their keys. -/

namespace Predictive.Json

theorem closes_blanks {blanks : List Char} (h : ∀ c ∈ blanks, isBlank c = true) :
    Closes blanks := by
  intro c hc
  have hblank := h c (List.mem_of_mem_head? hc)
  simp only [isBlank, Bool.or_eq_true, beq_iff_eq] at hblank
  rcases hblank with ((rfl | rfl) | rfl) | rfl <;> decide

theorem ofText_write (style : Style) (j : Json) {blanks : List Char}
    (h : ∀ c ∈ blanks, isBlank c = true) :
    Outline.ofText (.ofList (write style 0 j blanks)) = (outline j, some blanks) := by
  rw [Outline.ofText, String.toList_ofList]
  exact scanValue_write style j 0 _ blanks (closes_blanks h) (by omega)

theorem sortedItems_eq_map (items : List Json) : sortedItems items = items.map sorted := by
  induction items with
  | nil => rfl
  | cons j items ih => rw [sortedItems, ih, List.map_cons]

theorem sortedFields_eq_map (fields : List (String × Json)) :
    sortedFields fields = fields.map fun p => (p.1, p.2.sorted) := by
  induction fields with
  | nil => rfl
  | cons p fields ih => rw [sortedFields, ih, List.map_cons]

namespace Reader

variable {α : Type} {r : Reader α} {wr : α → Json} {budget : Nat}

theorem run_write_append (r : Reader α) (style : Style) (j : Json) {blanks : List Char}
    (h : ∀ c ∈ blanks, isBlank c = true) :
    run r (.ofList (write style 0 j [] ++ blanks)) = r nestingLimit (outline j) := by
  have hskip : skipBlanks blanks = [] := by
    rw [skipBlanks, ← List.append_nil blanks, List.dropWhile_append_of_pos h, List.dropWhile_nil]
  rw [← write_append, List.nil_append, run, ofText_write style j h]
  cases hread : r nestingLimit (outline j) with
  | error f => simp [bind, Except.bind, hread]
  | ok a => simp [bind, Except.bind, hread, hskip, pure, Except.pure]

theorem run_write (r : Reader α) (style : Style) (j : Json) :
    run r (.ofList (write style 0 j [])) = r nestingLimit (outline j) := by
  have hrun := run_write_append r style j (List.forall_mem_nil _)
  rwa [List.append_nil] at hrun

theorem entries_outline {β : Type} {read : Outline → Except Fault α} (wr : β → Json)
    (value : β → α) {pairs : List (String × β)}
    (h : ∀ p ∈ pairs, read (outline (wr p.2)) = .ok (value p.2)) (m : SortedMap String α) :
    entries read m (fieldOutlines (pairs.map fun p => (p.1, wr p.2))) none =
      .ok (pairs.foldl (fun m p => m.insert p.1 (value p.2)) m) := by
  induction pairs generalizing m with
  | nil => rfl
  | cons p pairs ih =>
    obtain ⟨hp, hrest⟩ := List.forall_mem_cons.mp h
    rw [List.map_cons, fieldOutlines, entries, hp]
    exact ih hrest _

theorem map_outline {β : Type} (wr : β → Json) (value : β → α) {pairs : List (String × β)}
    (h : ∀ p ∈ pairs, r budget (outline (wr p.2)) = .ok (value p.2)) :
    map r (budget + 1) (outline (.object (pairs.map fun p => (p.1, wr p.2)))) =
      .ok (.ofList (pairs.map fun p => (p.1, value p.2))) := by
  rw [outline, map, enter, entries_outline wr value h, SortedMap.ofList, List.foldl_map]

theorem fields_cons {σ : Type} {known : Fields σ} {s s' : σ} {key : String} {o : Outline}
    {read : Outline → Except Fault σ} (hknown : known s key = some read) (h : read o = .ok s')
    (rest : List (Option String × Outline)) (tear : Option Tear) :
    fields known s ((some key, o) :: rest) tear = fields known s' rest tear := by
  rw [fields, hknown]
  simp only [h]
  rfl

section Once

variable {β σ : Type} {known : Fields σ} {s : σ} {key : String} {o : Outline}
  {read : Outline → Except Fault β} {put : β → σ}

theorem fields_once {a : β} (hknown : known s key = some (once none read put))
    (h : read o = .ok a) (rest : List (Option String × Outline)) (tear : Option Tear) :
    fields known s ((some key, o) :: rest) tear = fields known (put a) rest tear := by
  refine fields_cons hknown ?_ rest tear
  simp only [once, h]
  rfl

theorem fields_once_error {f : Fault} (hknown : known s key = some (once none read put))
    (h : read o = .error f) (rest : List (Option String × Outline)) (tear : Option Tear) :
    fields known s ((some key, o) :: rest) tear = .error f := by
  rw [fields, hknown]
  simp only [once, h]
  rfl

end Once

/-- What a reader makes of a written value, with the fields of its objects as they are given
and in the order of their keys. -/
structure Yields (r : Reader α) (b : Nat) (j : Json) (outcome : Except Fault α) : Prop where
  given : r b (outline j) = outcome
  sorted : r b (outline j.sorted) = outcome

theorem items_outlines {read : Outline → Except Fault α} {xs : List α}
    (h : ∀ x ∈ xs, read (outline (wr x)) = .ok x) :
    items read (outlines (xs.map wr)) none = .ok xs := by
  induction xs with
  | nil => rfl
  | cons x xs ih =>
    obtain ⟨hx, hxs⟩ := List.forall_mem_cons.mp h
    rw [List.map_cons, outlines, items, hx, ih hxs]
    rfl

theorem Yields.list {xs : List α} (h : ∀ x ∈ xs, r.Yields budget (wr x) (.ok x)) :
    (Reader.list r).Yields (budget + 1) (.list (xs.map wr)) (.ok xs) where
  given := items_outlines fun x hx => (h x hx).given
  sorted := by
    rw [Json.sorted, sortedItems_eq_map, List.map_map]
    exact items_outlines fun x hx => (h x hx).sorted

theorem Yields.optional {j : Json} {a : α} (h : r.Yields budget j (.ok a))
    (hgiven : outline j ≠ .null) (hsorted : outline j.sorted ≠ .null) :
    (Reader.optional r).Yields budget j (.ok (some a)) where
  given := by
    rw [Reader.optional, h.given]
    · rfl
    · exact hgiven
  sorted := by
    rw [Reader.optional, h.sorted]
    · rfl
    · exact hsorted

theorem yields_natural (b : Nat) {n : Nat} (h : n < Nat.pow 2 64) :
    natural.Yields b (.number n) (.ok n) := by
  have hread : natural b (outline (.number n)) = .ok n := by
    rw [outline, Numeral.ofParts_toDigits h]
    rfl
  exact ⟨hread, hread⟩

theorem yields_named {f : String → Except GrammarError α} {s : String} {a : α} (h : f s = .ok a)
    (b : Nat) : (named f).Yields b (.text s) (.ok a) := by
  have hread : named f b (outline (.text s)) = .ok a := by
    simp only [named, outline, text, bind, Except.bind, h]
  exact ⟨hread, hread⟩

end Reader

end Predictive.Json
