import Predictive.Proofs.Json.Documents
import Predictive.Proofs.Table.Edited
import Predictive.Proofs.Text.ByteOrder

/-! Which documents are refused, and for which of their items. The items of a document are its
rows and its cells, and they have an order: the rows by the bytes of their keys, each row before
its own cells, and those by the bytes of their lookaheads. A table is made exactly if every item
is valid; otherwise the first one that is not gives the error. How the document was written down
does not matter, and neither does anything that comes after that item. -/

namespace Predictive

open Text (bytes)

namespace TableEdit

/-- The row itself before its cells, and those by the bytes of their lookaheads. -/
inductive WithinRow : Option String → Option String → Prop
  | key (l : String) : WithinRow none (some l)
  | cells {k l : String} (h : bytes k < bytes l) : WithinRow (some k) (some l)

theorem WithinRow.asymm {k l : Option String} (h : WithinRow k l) : ¬ WithinRow l k := by
  intro h'
  cases h with
  | key l => cases h'
  | cells h =>
    cases h' with
    | cells h' => exact List.lt_asymm h h'

inductive Precedes (a b : TableEdit) : Prop
  | row (h : bytes a.left < bytes b.left)
  | within (left_eq : a.left = b.left) (h : WithinRow a.lookahead? b.lookahead?)

theorem Precedes.asymm {a b : TableEdit} (h : a.Precedes b) : ¬ b.Precedes a := by
  intro h'
  cases h with
  | row h =>
    cases h' with
    | row h' => exact List.lt_asymm h h'
    | within heq _ =>
      rw [heq] at h
      exact List.lt_irrefl _ h
  | within heq h =>
    cases h' with
    | row h' =>
      rw [heq] at h'
      exact List.lt_irrefl _ h'
    | within _ h' => exact h.asymm h'

end TableEdit

namespace CellText

variable {left lookahead : String} {text : CellText}

theorem left_edit : (text.edit left lookahead).left = left := by
  cases text <;> rfl

theorem lookahead?_edit : (text.edit left lookahead).lookahead? = some lookahead := by
  cases text <;> rfl

end CellText

namespace Document

inductive Item (d : Document) : TableEdit → Prop
  | row {left : String} (h : d.hasRow left = true) : Item d (.row left)
  | cell {left lookahead : String} {text : CellText} (h : d.cell? left lookahead = some text) :
      Item d (text.edit left lookahead)

structure Sound (d : Document) : Prop where
  row : ∀ left, d.hasRow left = true → Capitalized left
  lookahead : ∀ left lookahead text, d.cell? left lookahead = some text →
    Lookahead.Readable lookahead
  right : ∀ left lookahead right, d.cell? left lookahead = some (.production right) →
    Production.Readable right

structure FirstRefused (d : Document) (item : TableEdit) : Prop where
  mem : d.Item item
  not_valid : ¬ item.Valid
  first : ∀ other, d.Item other → ¬ other.Valid → other = item ∨ item.Precedes other

variable {d : Document} {item : TableEdit} {e : GrammarError}

theorem item_iff_mem_edits : d.Item item ↔ item ∈ d.edits := by
  rw [mem_edits]
  constructor
  · intro h
    cases h with
    | row h => exact .inl ⟨_, h, rfl⟩
    | cell h => exact .inr ⟨_, _, _, h, rfl⟩
  · rintro (⟨left, h, rfl⟩ | ⟨left, lookahead, text, h, rfl⟩)
    · exact .row h
    · exact .cell h

theorem sound_iff : d.Sound ↔ ∀ item, d.Item item → item.Valid := by
  constructor
  · intro h item hitem
    cases hitem with
    | row hleft => exact h.row _ hleft
    | @cell left lookahead text htext =>
      have hleft := h.row left (hasRow_of_cell? htext)
      have hlookahead := h.lookahead left lookahead text htext
      cases text with
      | production right => exact ⟨hleft, hlookahead, h.right left lookahead right htext⟩
      | error => exact ⟨hleft, hlookahead⟩
  · intro h
    constructor
    · exact fun left hleft => h _ (.row hleft)
    · intro left lookahead text htext
      cases text with
      | production right => exact (h _ (.cell htext)).2.1
      | error => exact (h _ (.cell htext)).2
    · exact fun left lookahead right hright => (h _ (.cell hright)).2.2

theorem pairwise_rowEdits (left : String) (row : RowText) :
    (rowEdits left row).Pairwise TableEdit.Precedes := by
  refine List.pairwise_cons.mpr ⟨fun cell hcell => ?_, List.pairwise_map.mpr ?_⟩
  · obtain ⟨⟨lookahead, text⟩, -, rfl⟩ := List.mem_map.mp hcell
    refine .within CellText.left_edit.symm ?_
    rw [CellText.lookahead?_edit]
    exact .key lookahead
  · refine List.Pairwise.imp (fun {a b} hab => ?_) row.ascending
    refine .within (CellText.left_edit.trans CellText.left_edit.symm) ?_
    rw [CellText.lookahead?_edit, CellText.lookahead?_edit]
    exact .cells (Text.compare_eq_lt_iff.mp hab)

theorem left_of_mem_rowEdits {left : String} {row : RowText} {edit : TableEdit}
    (h : edit ∈ rowEdits left row) : edit.left = left := by
  obtain rfl | h := List.mem_cons.mp h
  · rfl
  · obtain ⟨cell, -, rfl⟩ := List.mem_map.mp h
    exact CellText.left_edit

theorem pairwise_edits (d : Document) : d.edits.Pairwise TableEdit.Precedes := by
  refine List.pairwise_flatMap.mpr ⟨fun p _ => pairwise_rowEdits p.1 p.2, ?_⟩
  refine List.Pairwise.imp (fun {p q} hpq a ha b hb => ?_) d.table.ascending
  apply TableEdit.Precedes.row
  rw [left_of_mem_rowEdits ha, left_of_mem_rowEdits hb]
  exact Text.compare_eq_lt_iff.mp hpq

theorem firstRefused_iff (h : ¬ item.Valid) :
    d.FirstRefused item ↔ ∃ before after, d.edits = before ++ item :: after ∧
      ∀ edit ∈ before, edit.Valid := by
  rw [exists_first_iff (fun _ _ => TableEdit.Precedes.asymm) d.pairwise_edits h]
  constructor
  · intro hfirst
    exact ⟨item_iff_mem_edits.mp hfirst.mem,
      fun other hother => hfirst.first other (item_iff_mem_edits.mpr hother)⟩
  · rintro ⟨hmem, hfirst⟩
    exact ⟨item_iff_mem_edits.mpr hmem, h,
      fun other hother => hfirst other (item_iff_mem_edits.mp hother)⟩

theorem toTable_eq_error :
    d.toTable = .error e ↔ ∃ item, d.FirstRefused item ∧ item.Refuses e := by
  rw [toTable, Table.ofEdits_eq_error]
  constructor
  · rintro ⟨before, item, after, hedits, hbefore, he⟩
    exact ⟨item, (firstRefused_iff he.not_valid).mpr ⟨before, after, hedits, hbefore⟩, he⟩
  · rintro ⟨item, hfirst, he⟩
    obtain ⟨before, after, hedits, hbefore⟩ := (firstRefused_iff he.not_valid).mp hfirst
    exact ⟨before, item, after, hedits, hbefore, he⟩

theorem exists_toTable_iff : (∃ t, d.toTable = .ok t) ↔ d.Sound := by
  rw [toTable, Table.exists_ofEdits_iff, sound_iff]
  simp only [item_iff_mem_edits]

theorem toTable_congr {d' : Document} (hfirst : d.FirstRefused item)
    (h : ∀ other, ¬ item.Precedes other → (d'.Item other ↔ d.Item other)) :
    d'.toTable = d.toTable := by
  obtain ⟨e, he⟩ := TableEdit.exists_refuses hfirst.not_valid
  -- Whatever the other document has behind the item cannot be at fault before it.
  have hfirst' : d'.FirstRefused item := by
    refine ⟨(h item fun hself => hself.asymm hself).mpr hfirst.mem, hfirst.not_valid, ?_⟩
    intro other hother hinvalid
    by_cases hprecedes : item.Precedes other
    · exact .inr hprecedes
    · exact hfirst.first other ((h other hprecedes).mp hother) hinvalid
  rw [toTable_eq_error.mpr ⟨item, hfirst, he⟩, toTable_eq_error.mpr ⟨item, hfirst', he⟩]

/-- The outcome of building a document's table: which documents have one, the error of any
other, the items on which that error depends, and what it does not depend on: the order in which
the document's keys are written. -/
theorem toTable_outcome (d : Document) :
    ((∃ t, d.toTable = .ok t) ↔ d.Sound) ∧
    (∀ e, d.toTable = .error e ↔ ∃ item, d.FirstRefused item ∧ item.Refuses e) ∧
    (∀ item (d' : Document), d.FirstRefused item →
      (∀ other, ¬ item.Precedes other → (d'.Item other ↔ d.Item other)) →
      d'.toTable = d.toTable) ∧
    ∀ j style, d.Spells j → ofText (.ofList (Json.write style 0 j [])) = .ok d :=
  ⟨exists_toTable_iff, fun _ => toTable_eq_error, fun _ _ hfirst h => toTable_congr hfirst h,
    fun _ style h => ofText_of_spells h style⟩

/-- Two documents whose first item at fault is the same cell, and only one of which has another
row at fault behind it. -/
theorem toTable_faulty_letters :
    let item := TableEdit.entry "S" "b" ["b", "$"]
    let cells : RowText := .ofList [("b", .production ["b", "$"]), ("a", .error)]
    let d : Document := ⟨none, .ofList [("s", .empty), ("S", cells)]⟩
    let d' : Document := ⟨none, .ofList [("S", cells)]⟩
    d.FirstRefused item ∧ (∀ other, ¬ item.Precedes other → (d'.Item other ↔ d.Item other)) ∧
      d'.toTable = d.toTable := by
  intro item cells d d'
  have hfirst : d.FirstRefused item :=
    (firstRefused_iff (by decide)).mpr
      ⟨[.row "S", .error "S" "a"], [.row "s"], by cbv, by decide⟩
  have hagree : ∀ other, ¬ item.Precedes other → (d'.Item other ↔ d.Item other) := by
    intro other hother
    have hne : other ≠ .row "s" := by
      rintro rfl
      exact hother (.row (Text.bytes_lt_iff.mpr (by decide)))
    have hedits : d.edits = d'.edits ++ [.row "s"] := by cbv
    rw [item_iff_mem_edits, item_iff_mem_edits, hedits, List.mem_append, List.mem_singleton]
    simp only [hne, or_false]
  exact ⟨hfirst, hagree, (toTable_outcome d).2.2.1 item d' hfirst hagree⟩

end Document

end Predictive
