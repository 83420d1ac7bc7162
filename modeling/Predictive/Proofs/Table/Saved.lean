import Predictive.Proofs.Table.Documents

/-! Writing a table out and building it again. A table that was written out holds, in the
place of every row and cell, the text of it. Building it again gives the same table exactly
when it could have been built in the first place: its productions stand in their own rows and
have passed the checks, and its rows have names that can be read. The empty name cannot;
classification alone gives it, to a symbol. -/

namespace Predictive

namespace Table

/-- Every row has a name that the reader of nonterminals gives. -/
def Named (t : Table) : Prop := ∀ n, t.hasRow n = true → NonTerminal.ofText n.text = .ok n

theorem Proper.read_ofCell {t : Table} (ht : t.Proper) {n : NonTerminal} {l : Lookahead}
    {c : Cell} (hc : t.cell? n l = some c) : (CellText.ofCell c).read n = .ok c := by
  refine CellText.read_ofCell ?_
  rintro p rfl
  exact ⟨ht.left_eq n l p hc, ht.right_proper n l p hc⟩

end Table

namespace Document

variable {start : Option String} {t : Table} {left lookahead : String}

theorem get?_rowOfTable {row : Row} {text : CellText} :
    (rowOfTable row).get? lookahead = some text ↔
      ∃ l c, l.text = lookahead ∧ row.get? l = some c ∧ CellText.ofCell c = text :=
  SortedMap.get?_ofList_map (fun _ _ => Lookahead.text_injective) CellText.ofCell row

theorem get?_ofTable {row : RowText} :
    (ofTable start t).table.get? left = some row ↔
      ∃ n r, n.text = left ∧ t.row? n = some r ∧ rowOfTable r = row :=
  SortedMap.get?_ofList_map (fun _ _ => NonTerminal.ext) rowOfTable t.rows

theorem hasRow_ofTable : (ofTable start t).hasRow left = true ↔
    ∃ n, n.text = left ∧ t.hasRow n = true := by
  simp only [hasRow, Table.hasRow, Option.isSome_iff_exists, get?_ofTable]
  constructor
  · intro h
    obtain ⟨_, n, r, rfl, hr, rfl⟩ := h
    exact ⟨n, rfl, r, hr⟩
  · intro h
    obtain ⟨n, rfl, r, hr⟩ := h
    exact ⟨_, n, r, rfl, hr, rfl⟩

theorem cell?_ofTable {text : CellText} : (ofTable start t).cell? left lookahead = some text ↔
    ∃ n l c, n.text = left ∧ l.text = lookahead ∧ t.cell? n l = some c ∧
      CellText.ofCell c = text := by
  simp only [cell?, Table.cell?, Option.bind_eq_some_iff, get?_ofTable]
  constructor
  · intro h
    obtain ⟨_, ⟨n, r, rfl, hr, rfl⟩, hcell⟩ := h
    obtain ⟨l, c, rfl, hc, rfl⟩ := get?_rowOfTable.mp hcell
    exact ⟨n, l, c, rfl, rfl, ⟨r, hr, hc⟩, rfl⟩
  · intro h
    obtain ⟨n, l, c, rfl, rfl, ⟨r, hr, hc⟩, rfl⟩ := h
    exact ⟨_, ⟨n, r, rfl, hr, rfl⟩, get?_rowOfTable.mpr ⟨l, c, rfl, hc, rfl⟩⟩

theorem hasRow_ofTable_text (start : Option String) (t : Table) (n : NonTerminal) :
    (ofTable start t).hasRow n.text = t.hasRow n := by
  rw [Bool.eq_iff_iff, hasRow_ofTable]
  constructor
  · intro h
    obtain ⟨m, hm, hrow⟩ := h
    rwa [← NonTerminal.ext hm]
  · exact fun h => ⟨n, rfl, h⟩

theorem cell?_ofTable_text (start : Option String) (t : Table) (n : NonTerminal)
    (l : Lookahead) :
    (ofTable start t).cell? n.text l.text = (t.cell? n l).map CellText.ofCell := by
  refine Option.ext fun text => ?_
  rw [cell?_ofTable, Option.map_eq_some_iff]
  constructor
  · intro h
    obtain ⟨m, k, c, hm, hk, hc, rfl⟩ := h
    rw [NonTerminal.ext hm, Lookahead.text_injective hk] at hc
    exact ⟨c, hc, rfl⟩
  · intro h
    obtain ⟨c, hc, rfl⟩ := h
    exact ⟨n, l, c, rfl, rfl, hc, rfl⟩

theorem ofTable_of_denotes {d : Document} (h : d.Denotes t) :
    ofTable d.start t = d.normalized := by
  refine ext_cell? rfl (fun left => ?_) (fun left lookahead => ?_)
  · rw [Bool.eq_iff_iff, hasRow_ofTable, hasRow_normalized]
    constructor
    · intro hleft
      obtain ⟨n, rfl, hrow⟩ := hleft
      rwa [← h.hasRow_eq]
    · intro hleft
      obtain ⟨n, hn⟩ := h.readable.row left hleft
      have htext := NonTerminal.text_of_ofText hn
      exact ⟨n, htext, by rw [h.hasRow_eq, htext, hleft]⟩
  · refine Option.ext fun saved => ?_
    rw [cell?_ofTable, cell?_normalized, Option.map_eq_some_iff]
    constructor
    · intro hcell
      obtain ⟨n, l, c, rfl, rfl, hc, rfl⟩ := hcell
      obtain ⟨text, htext, hread⟩ := (h.cell_iff n l c).mp hc
      exact ⟨text, htext, (CellText.ofCell_of_read hread).symm⟩
    · intro hcell
      obtain ⟨text, htext, rfl⟩ := hcell
      obtain ⟨n, l, c, hn, hl, hread⟩ := h.readable.cell left lookahead text htext
      have hleft := NonTerminal.text_of_ofText hn
      have hlook := Lookahead.text_of_ofText hl
      refine ⟨n, l, c, hleft, hlook, ?_, CellText.ofCell_of_read hread⟩
      exact (h.cell_iff n l c).mpr ⟨text, by rw [hleft, hlook, htext], hread⟩

theorem named_of_denotes {d : Document} (h : d.Denotes t) : t.Named := by
  intro n hn
  rw [h.hasRow_eq] at hn
  exact h.readable.ofText_text hn

theorem denotes_ofTable (start : Option String) (ht : t.Proper) (hn : t.Named) :
    (ofTable start t).Denotes t where
  readable := by
    constructor
    · intro left hleft
      obtain ⟨n, rfl, hrow⟩ := hasRow_ofTable.mp hleft
      exact ⟨n, hn n hrow⟩
    · intro left lookahead text htext
      obtain ⟨n, l, c, rfl, rfl, hc, rfl⟩ := cell?_ofTable.mp htext
      have hrow : t.hasRow n = true := by
        rw [← hasRow_ofTable_text start]
        exact hasRow_of_cell? htext
      exact ⟨n, l, c, hn n hrow, Lookahead.ofText_text l, ht.read_ofCell hc⟩
  hasRow_eq n := (hasRow_ofTable_text start t n).symm
  cell_iff n l c := by
    rw [cell?_ofTable_text]
    constructor
    · intro hc
      exact ⟨CellText.ofCell c, by rw [hc]; rfl, ht.read_ofCell hc⟩
    · intro h
      obtain ⟨text, htext, hc⟩ := h
      obtain ⟨c', hc', rfl⟩ := Option.map_eq_some_iff.mp htext
      cases (ht.read_ofCell hc').symm.trans hc
      exact hc'

/-- Building a table and writing one out undo each other: the document comes back with its
empty right sides written out, and the table as it was. -/
theorem toTable_inverse_ofTable :
    (∀ d t, toTable d = .ok t → ofTable d.start t = d.normalized) ∧
    (∀ start t, (ofTable start t).toTable = .ok t ↔ t.Proper ∧ t.Named) := by
  refine ⟨fun d t h => ofTable_of_denotes (denotes_of_toTable h), fun start t => ?_⟩
  constructor
  · intro h
    exact ⟨proper_of_toTable h, named_of_denotes (denotes_of_toTable h)⟩
  · intro h
    exact toTable_of_denotes (denotes_ofTable start h.1 h.2)

theorem isTerminalText_empty : isTerminalText "" = false := by decide

/-- The nonterminal that classification makes of the empty text, which no reader gives. -/
def blank : NonTerminal := ⟨"", isTerminalText_empty⟩

def blankRow : Table := Table.empty.openRow blank

theorem blankRow_not_rebuilt : Symbol.ofText "" = .nonterminal blank ∧ blankRow.Proper ∧
    ofTable none blankRow = ⟨none, SortedMap.empty.insert "" .empty⟩ ∧
    (ofTable none blankRow).toTable = .error .emptySymbol ∧
    ¬ ∀ start t, t.Proper → (ofTable start t).toTable = .ok t := by
  have hproper : blankRow.Proper := Table.proper_empty.openRow blank
  have hfails : (ofTable none blankRow).toTable = .error .emptySymbol := by rfl
  refine ⟨by decide, hproper, by rfl, hfails, fun hall => ?_⟩
  cases hfails.symm.trans (hall none blankRow hproper)

end Document

end Predictive
