import Predictive.Document
import Predictive.Proofs.Json.Readers

/-! Table documents as files. A document's text is read back as the document it was written
from: no text needs to be the text of a symbol, rows without cells stay, and a production
with nothing on its right side is not taken for anything else. -/

namespace Predictive

open Json (Reader Outline outline outlines fieldOutlines)

namespace CellText

theorem mapM_text? (right : List String) :
    (outlines (right.map .text)).mapM text? = some right := by
  induction right with
  | nil => rfl
  | cons s right ih =>
    simp only [List.map_cons, Json.outlines, List.mapM_cons, ih]
    rfl

theorem ofOutline?_toJson (c : CellText) : ofOutline? (outline c.toJson) = some c := by
  cases c with
  | production right => simp [toJson, outline, ofOutline?, mapM_text?]
  | error => rfl

theorem intactItems_texts (b : Nat) (right : List String) :
    Json.intactItems b (outlines (right.map .text)) none = .ok () := by
  induction right with
  | nil => rfl
  | cons s right ih =>
    rw [List.map_cons, outlines, Json.intactItems]
    exact ih

theorem intact_toJson (b : Nat) (c : CellText) :
    Json.intact (b + 1) (outline c.toJson) = .ok () := by
  cases c with
  | production right => exact intactItems_texts b right
  | error => rfl

theorem reader_toJson (b : Nat) (c : CellText) : reader (b + 1) (outline c.toJson) = .ok c := by
  rw [reader, intact_toJson, ofOutline?_toJson]
  rfl

end CellText

namespace Document

def cellsToJson (cells : List (String × CellText)) : Json :=
  .object (cells.map fun p => (p.1, p.2.toJson))

def rowsToJson (rows : List (String × List (String × CellText))) : Json :=
  .object (rows.map fun r => (r.1, cellsToJson r.2))

theorem reader_cells (b : Nat) (cells : List (String × CellText)) :
    Reader.map CellText.reader (b + 2) (outline (cellsToJson cells)) = .ok (.ofList cells) := by
  rw [cellsToJson, Reader.map_outline CellText.toJson id fun p _ => CellText.reader_toJson b p.2]
  simp

theorem reader_rows (b : Nat) (rows : List (String × List (String × CellText))) :
    Reader.map (Reader.map CellText.reader) (b + 3) (outline (rowsToJson rows)) =
      .ok (.ofList (rows.map fun r => (r.1, .ofList r.2))) :=
  Reader.map_outline cellsToJson SortedMap.ofList fun r _ => reader_cells b r.2

/-- The document in JSON, with its fields, its rows and the cells of each row in any order. -/
inductive Spells (d : Document) : Json → Prop
  | object {rows : List (String × List (String × CellText))} {fields : List (String × Json)}
      (rows_arranged : SortedMap.Arranges rows d.table)
      (fields_arranged : fields.Perm
        ((d.start.map fun s => ("start", Json.text s)).toList ++ [("table", rowsToJson rows)])) :
      Spells d (.object fields)

theorem spells_toJson (d : Document) : d.Spells d.toJson := by
  have hrows := SortedMap.arranges_toLists d.table
  refine .object hrows (List.Perm.of_eq ?_)
  simp only [rowsToJson, cellsToJson, SortedMap.toLists, List.map_map]
  rfl

section Fields

variable {rows : List (String × List (String × CellText))} {m : SortedMap String RowText}

theorem fields_table (b : Nat) (start : Option (Option String))
    (h : SortedMap.Arranges rows m) (rest : List (Option String × Outline)) :
    Reader.fields (Draft.known (b + 3)) ⟨start, none⟩
        ((some "table", outline (rowsToJson rows)) :: rest) none =
      Reader.fields (Draft.known (b + 3)) ⟨start, some m⟩ rest none := by
  have hknown : Draft.known (b + 3) ⟨start, none⟩ "table" =
      some (Reader.once none (Reader.map (Reader.map CellText.reader) (b + 3))
        fun t => ⟨start, some t⟩) := rfl
  have hread := reader_rows b rows
  rw [h.ofList_eq] at hread
  exact Reader.fields_once hknown hread rest none

theorem fields_start (b : Nat) (s : String) (table : Option (SortedMap String RowText))
    (rest : List (Option String × Outline)) :
    Reader.fields (Draft.known b) ⟨none, table⟩ ((some "start", outline (.text s)) :: rest) none =
      Reader.fields (Draft.known b) ⟨some (some s), table⟩ rest none := by
  have hknown : Draft.known b ⟨none, table⟩ "start" =
      some (Reader.once none (Reader.optional Reader.text b) fun t => ⟨some t, table⟩) := rfl
  exact Reader.fields_once hknown rfl rest none

end Fields

theorem reader_object (b : Nat) (fs : List (Option String × Outline)) :
    reader (b + 1) (.object fs none) = (Reader.fields (Draft.known b) ⟨none, none⟩ fs none).bind
      Draft.finish :=
  rfl

theorem reader_of_spells {d : Document} {j : Json} (h : d.Spells j) (b : Nat) :
    reader (b + 4) (outline j) = .ok d := by
  obtain ⟨start, m⟩ := d
  obtain ⟨hrows, hfields⟩ := h
  rw [outline, reader_object]
  cases start with
  | none =>
    rw [List.perm_singleton.mp hfields, fieldOutlines, fields_table b _ hrows]
    rfl
  | some s =>
    obtain rfl | rfl := List.perm_pair.mp hfields
    · rw [fieldOutlines, fieldOutlines, fields_start, fields_table b _ hrows]
      rfl
    · rw [fieldOutlines, fieldOutlines, fields_table b _ hrows, fields_start]
      rfl

theorem reader_toJson (b : Nat) (d : Document) : reader (b + 4) (outline d.toJson) = .ok d :=
  reader_of_spells d.spells_toJson b

theorem ofText_of_spells {d : Document} {j : Json} (h : d.Spells j) (style : Json.Style) :
    ofText (.ofList (Json.write style 0 j [])) = .ok d := by
  rw [ofText, Reader.run_write]
  exact reader_of_spells h _

theorem ofText_toText (d : Document) : ofText d.toText = .ok d := by
  rw [ofText, toText, Json.spread, Reader.run_write]
  exact reader_toJson _ d

end Document

end Predictive
