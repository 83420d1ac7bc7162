import Predictive.Proofs.Table.Writes

/-! Tables and the documents that keep them. A document denotes a table when all its texts
read as what their places require and the two agree row by row and cell by cell;
`Document.toTable` builds exactly the table that is denoted. Writing the table out again
gives back the document, except that a right side of no symbols comes back as the empty
marker alone, and a table that is written out is built again as it was, if building can make
it at all. -/

namespace Predictive

theorem NonTerminal.text_of_ofText {text : String} {n : NonTerminal}
    (h : ofText text = .ok n) : n.text = text := by
  unfold ofText at h
  split at h
  · cases h
  · split at h
    · cases h
    · cases h
      rfl

theorem Terminal.text_of_ofText {text : String} {a : Terminal} (h : ofText text = .ok a) :
    a.text = text := by
  unfold ofText at h
  split at h
  · cases h
  · split at h
    · cases h
    · split at h
      · cases h
      · split at h
        · cases h
          rfl
        · cases h

theorem Lookahead.text_of_ofText {text : String} {l : Lookahead} (h : ofText text = .ok l) :
    l.text = text := by
  unfold ofText at h
  split at h
  · next he =>
    cases h
    exact he.symm
  · obtain ⟨a, ha, rfl⟩ := map_eq_ok.mp h
    exact Terminal.text_of_ofText ha

namespace Production

/-- A right side of no symbols is written as the empty marker alone. -/
def marked : List Symbol → List Symbol
  | [] => [.epsilon]
  | right => right

theorem eq_of_ofSymbols {left : NonTerminal} {right : List Symbol} {p : Production}
    (h : ofSymbols left right = .ok p) : p = ⟨left, marked right⟩ := by
  rw [ofSymbols_eq] at h
  split at h
  · cases h
  · split at h
    · cases h
    · split at h
      · cases h
      · split at h
        · next hnil =>
          cases h
          rw [hnil]
          rfl
        · next hne =>
          cases h
          cases right with
          | nil => exact absurd rfl hne
          | cons s more => rfl

theorem ofTexts_text (left : NonTerminal) (right : List Symbol) :
    ofTexts left (right.map Symbol.text) = ofSymbols left right := by
  simp [ofTexts, Function.comp_def, Symbol.ofText_text]

end Production

namespace CellText

def read (n : NonTerminal) : CellText → Except GrammarError Cell
  | production right => (Production.ofTexts n right).map .production
  | error => .ok .error

def normalized : CellText → CellText
  | production [] => production [emptyMarkerText]
  | c => c

theorem ofCell_of_read {n : NonTerminal} {text : CellText} {c : Cell}
    (h : text.read n = .ok c) : ofCell c = text.normalized := by
  cases text with
  | error =>
    cases h
    rfl
  | production right =>
    obtain ⟨p, hp, rfl⟩ := map_eq_ok.mp h
    rw [ofCell, Production.eq_of_ofSymbols hp]
    cases right with
    | nil => rfl
    | cons s more => simp [Production.marked, normalized, Symbol.text_ofText, Function.comp_def]

theorem read_ofCell {n : NonTerminal} {c : Cell}
    (h : ∀ p, c = .production p → p.left = n ∧ p.Proper) : (ofCell c).read n = .ok c := by
  cases c with
  | error => rfl
  | production p =>
    obtain ⟨rfl, hp⟩ := h p rfl
    rw [ofCell, read, Production.ofTexts_text, Production.ofSymbols_of_proper hp]
    rfl

theorem read_edit {text : CellText} {left lookahead : String} {w : TableWrite} :
    (text.edit left lookahead).read = .ok w ↔ ∃ n l c, NonTerminal.ofText left = .ok n ∧
      Lookahead.ofText lookahead = .ok l ∧ text.read n = .ok c ∧ w = .cell n l c := by
  cases text with
  | error =>
    simp only [edit, TableEdit.read, read, bind_eq_ok, pure, Except.pure, Except.ok.injEq]
    constructor
    · intro h
      obtain ⟨n, hn, l, hl, rfl⟩ := h
      exact ⟨n, l, .error, hn, hl, rfl, rfl⟩
    · intro h
      obtain ⟨n, l, c, hn, hl, rfl, rfl⟩ := h
      exact ⟨n, hn, l, hl, rfl⟩
  | production right =>
    simp only [edit, TableEdit.read, read, bind_eq_ok, pure, Except.pure, Except.ok.injEq]
    constructor
    · intro h
      obtain ⟨n, hn, l, hl, p, hp, rfl⟩ := h
      exact ⟨n, l, .production p, hn, hl, by rw [hp]; rfl, rfl⟩
    · intro h
      obtain ⟨n, l, c, hn, hl, hc, rfl⟩ := h
      obtain ⟨p, hp, rfl⟩ := map_eq_ok.mp hc
      exact ⟨n, hn, l, hl, p, hp, rfl⟩

end CellText

theorem TableEdit.read_row {left : String} {w : TableWrite} :
    (TableEdit.row left).read = .ok w ↔ ∃ n, NonTerminal.ofText left = .ok n ∧ w = .row n := by
  simp only [read, bind_eq_ok, pure, Except.pure, Except.ok.injEq, eq_comm (b := w)]

namespace Document

def hasRow (d : Document) (left : String) : Bool := (d.table.get? left).isSome

def cell? (d : Document) (left lookahead : String) : Option CellText :=
  (d.table.get? left).bind (·.get? lookahead)

theorem ext_cell? {a b : Document} (hstart : a.start = b.start)
    (hrow : ∀ left, a.hasRow left = b.hasRow left)
    (hcell : ∀ left lookahead, a.cell? left lookahead = b.cell? left lookahead) : a = b := by
  cases a; cases b
  cases hstart
  exact congrArg (mk _) (SortedMap.ext_get?_get? hrow hcell)

/-- The same rows and cells, with every right side of no symbols written out. -/
def normalized (d : Document) : Document :=
  ⟨d.start, d.table.mapValues (·.mapValues CellText.normalized)⟩

theorem hasRow_normalized (d : Document) (left : String) :
    d.normalized.hasRow left = d.hasRow left := by
  simp [hasRow, normalized, SortedMap.get?_mapValues]

theorem cell?_normalized (d : Document) (left lookahead : String) :
    d.normalized.cell? left lookahead = (d.cell? left lookahead).map CellText.normalized := by
  cases h : d.table.get? left <;> simp [cell?, normalized, SortedMap.get?_mapValues, h]

theorem hasRow_of_cell? {d : Document} {left lookahead : String} {text : CellText}
    (h : d.cell? left lookahead = some text) : d.hasRow left = true := by
  obtain ⟨row, hrow, -⟩ := Option.bind_eq_some_iff.mp h
  simp [hasRow, hrow]

theorem mem_edits {d : Document} {e : TableEdit} : e ∈ d.edits ↔
    (∃ left, d.hasRow left = true ∧ e = .row left) ∨
      ∃ left lookahead text, d.cell? left lookahead = some text ∧
        e = text.edit left lookahead := by
  simp only [edits, List.mem_flatMap, rowEdits, List.mem_cons, List.mem_map, hasRow, cell?,
    Option.isSome_iff_exists, Option.bind_eq_some_iff, SortedMap.get?_eq_some]
  constructor
  · intro h
    obtain ⟨⟨left, row⟩, hrow, rfl | ⟨⟨lookahead, text⟩, htext, rfl⟩⟩ := h
    · exact .inl ⟨left, ⟨row, hrow⟩, rfl⟩
    · exact .inr ⟨left, lookahead, text, ⟨row, hrow, htext⟩, rfl⟩
  · intro h
    obtain ⟨left, ⟨row, hrow⟩, rfl⟩ | ⟨left, lookahead, text, ⟨row, hrow, htext⟩, rfl⟩ := h
    · exact ⟨(left, row), hrow, .inl rfl⟩
    · exact ⟨(left, row), hrow, .inr ⟨(lookahead, text), htext, rfl⟩⟩

structure Readable (d : Document) : Prop where
  row : ∀ left, d.hasRow left = true → ∃ n, NonTerminal.ofText left = .ok n
  cell : ∀ left lookahead text, d.cell? left lookahead = some text →
    ∃ n l c, NonTerminal.ofText left = .ok n ∧ Lookahead.ofText lookahead = .ok l ∧
      text.read n = .ok c

theorem readable_iff {d : Document} : d.Readable ↔ ∀ e ∈ d.edits, ∃ w, e.read = .ok w := by
  constructor
  · intro h e he
    obtain ⟨left, hleft, rfl⟩ | ⟨left, lookahead, text, htext, rfl⟩ := mem_edits.mp he
    · obtain ⟨n, hn⟩ := h.row left hleft
      exact ⟨_, TableEdit.read_row.mpr ⟨n, hn, rfl⟩⟩
    · obtain ⟨n, l, c, hn, hl, hc⟩ := h.cell left lookahead text htext
      exact ⟨_, CellText.read_edit.mpr ⟨n, l, c, hn, hl, hc, rfl⟩⟩
  · intro h
    constructor
    · intro left hleft
      obtain ⟨w, hw⟩ := h _ (mem_edits.mpr (.inl ⟨left, hleft, rfl⟩))
      obtain ⟨n, hn, -⟩ := TableEdit.read_row.mp hw
      exact ⟨n, hn⟩
    · intro left lookahead text htext
      obtain ⟨w, hw⟩ := h _ (mem_edits.mpr (.inr ⟨left, lookahead, text, htext, rfl⟩))
      obtain ⟨n, l, c, hn, hl, hc, -⟩ := CellText.read_edit.mp hw
      exact ⟨n, l, c, hn, hl, hc⟩

variable {d : Document} {n : NonTerminal} {l : Lookahead} {c : Cell}

theorem Readable.ofText_text (h : d.Readable) (hn : d.hasRow n.text = true) :
    NonTerminal.ofText n.text = .ok n := by
  obtain ⟨n', hn'⟩ := h.row n.text hn
  rw [hn', NonTerminal.ext (NonTerminal.text_of_ofText hn')]

structure Denotes (d : Document) (t : Table) : Prop where
  readable : d.Readable
  hasRow_eq : ∀ n, t.hasRow n = d.hasRow n.text
  cell_iff : ∀ n l c, t.cell? n l = some c ↔
    ∃ text, d.cell? n.text l.text = some text ∧ text.read n = .ok c

theorem Denotes.unique {t t' : Table} (h : d.Denotes t) (h' : d.Denotes t') : t = t' := by
  refine Table.ext_cell? (fun n => ?_) (fun n l => Option.ext fun c => ?_)
  · rw [h.hasRow_eq, h'.hasRow_eq]
  · rw [h.cell_iff, h'.cell_iff]

section Writes

variable {writes : List TableWrite}

theorem mem_writes_row (hread : ∀ w, w ∈ writes ↔ ∃ e ∈ d.edits, e.read = .ok w)
    (hd : d.Readable) : (∃ w ∈ writes, n = w.nonterminal) ↔ d.hasRow n.text = true := by
  constructor
  · intro h
    obtain ⟨w, hw, rfl⟩ := h
    obtain ⟨e, he, hread⟩ := (hread w).mp hw
    obtain ⟨left, hleft, rfl⟩ | ⟨left, lookahead, text, htext, rfl⟩ := mem_edits.mp he
    · obtain ⟨n, hn, rfl⟩ := TableEdit.read_row.mp hread
      rwa [TableWrite.nonterminal, NonTerminal.text_of_ofText hn]
    · obtain ⟨n, l, c, hn, -, -, rfl⟩ := CellText.read_edit.mp hread
      rw [TableWrite.nonterminal, NonTerminal.text_of_ofText hn]
      exact hasRow_of_cell? htext
  · intro h
    have hwrite : (TableEdit.row n.text).read = .ok (.row n) :=
      TableEdit.read_row.mpr ⟨n, hd.ofText_text h, rfl⟩
    exact ⟨.row n, (hread _).mpr ⟨_, mem_edits.mpr (.inl ⟨n.text, h, rfl⟩), hwrite⟩, rfl⟩

theorem mem_writes_cell (hread : ∀ w, w ∈ writes ↔ ∃ e ∈ d.edits, e.read = .ok w)
    (hd : d.Readable) : TableWrite.cell n l c ∈ writes ↔
      ∃ text, d.cell? n.text l.text = some text ∧ text.read n = .ok c := by
  rw [hread]
  constructor
  · intro h
    obtain ⟨e, he, hread⟩ := h
    obtain ⟨left, hleft, rfl⟩ | ⟨left, lookahead, text, htext, rfl⟩ := mem_edits.mp he
    · obtain ⟨n', -, hw⟩ := TableEdit.read_row.mp hread
      cases hw
    · obtain ⟨n', l', c', hn, hl, hc, hw⟩ := CellText.read_edit.mp hread
      cases hw
      rw [NonTerminal.text_of_ofText hn, Lookahead.text_of_ofText hl]
      exact ⟨text, htext, hc⟩
  · intro h
    obtain ⟨text, htext, hc⟩ := h
    have hn := hd.ofText_text (hasRow_of_cell? htext)
    have hwrite := CellText.read_edit.mpr ⟨n, l, c, hn, Lookahead.ofText_text l, hc, rfl⟩
    exact ⟨_, mem_edits.mpr (.inr ⟨n.text, l.text, text, htext, rfl⟩), hwrite⟩

/-- No cell of a document is written twice, so the order of the writes does not matter. -/
theorem denotes_foldl (hread : ∀ w, w ∈ writes ↔ ∃ e ∈ d.edits, e.read = .ok w)
    (hd : d.Readable) : d.Denotes (writes.foldl TableWrite.apply .empty) where
  readable := hd
  hasRow_eq n := by
    have hrow := mem_writes_row (n := n) hread hd
    rw [Table.hasRow_foldl, Bool.eq_iff_iff, ← hrow]
    simp [Table.hasRow, Table.row?, Table.empty, SortedMap.get?_empty]
  cell_iff n l c := by
    have hcell := fun c => mem_writes_cell (n := n) (l := l) (c := c) hread hd
    rw [Table.cell?_foldl, Table.cell?_empty, Option.or_none, ← hcell]
    constructor
    · intro h
      obtain ⟨w, hw, hplaced⟩ := List.exists_of_findSome?_eq_some h
      rw [← TableWrite.placed?_eq_some.mp hplaced]
      exact List.mem_reverse.mp hw
    · intro h
      cases hfound : writes.reverse.findSome? (·.placed? n l) with
      | none =>
        have hnone := List.findSome?_eq_none_iff.mp hfound _ (List.mem_reverse.mpr h)
        rw [TableWrite.placed?_eq_some.mpr rfl] at hnone
        cases hnone
      | some c' =>
        obtain ⟨w, hw, hplaced⟩ := List.exists_of_findSome?_eq_some hfound
        rw [TableWrite.placed?_eq_some.mp hplaced, List.mem_reverse] at hw
        obtain ⟨text, htext, hc⟩ := (hcell c).mp h
        obtain ⟨text', htext', hc'⟩ := (hcell c').mp hw
        cases htext.symm.trans htext'
        cases hc.symm.trans hc'
        rfl

end Writes

variable {t : Table}

theorem denotes_of_toTable (h : d.toTable = .ok t) : d.Denotes t := by
  obtain ⟨writes, hwrites, rfl⟩ := Table.ofEdits_eq_ok.mp h
  have hread := fun w => mem_of_forall₂_read hwrites (w := w)
  exact denotes_foldl hread (readable_iff.mpr (exists_of_forall₂_read hwrites))

theorem toTable_of_denotes (h : d.Denotes t) : d.toTable = .ok t := by
  obtain ⟨writes, hwrites⟩ := exists_forall₂_read (readable_iff.mp h.readable)
  have hbuilt : d.toTable = .ok (writes.foldl TableWrite.apply .empty) :=
    Table.ofEdits_eq_ok.mpr ⟨writes, hwrites, rfl⟩
  rw [hbuilt, (denotes_of_toTable hbuilt).unique h]

end Document

end Predictive
