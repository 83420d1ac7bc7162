import Mathlib.Data.List.Sort
import Predictive.Proofs.Automaton.MoveBound
import Predictive.Proofs.Table.Edited
import Predictive.Proofs.Table.Saved
import Predictive.Proofs.Text.ByteOrder

/-! Tables that keep no order. The rows of a table and the cells of a row may be met in any
order; sorted, listed and written out they give what the table itself gives, so nothing of the
order is seen. A table is made by writes, and all that it keeps of them are the rows they name
and the last entry of each cell: two lists of writes that agree in these make the same table. -/

namespace Predictive

open Text (bytes)
open SortedMap (Arranges)

/-- Terminals by the bytes of their texts, and the end marker after all of them. -/
inductive Lookahead.Before : Lookahead → Lookahead → Prop
  | terminal {a b : Terminal} (h : bytes a.text < bytes b.text) :
      Before (.terminal a) (.terminal b)
  | endMarker (a : Terminal) : Before (.terminal a) .endMarker

theorem Lookahead.compare_eq_lt_iff {a b : Lookahead} : compare a b = .lt ↔ a.Before b := by
  cases a with
  | terminal a =>
    cases b with
    | terminal b =>
      have hcompare : compare (Lookahead.terminal a) (.terminal b) = compare a.text b.text := rfl
      rw [hcompare, Text.compare_eq_lt_iff]
      constructor
      · exact .terminal
      · intro h
        cases h with
        | terminal h => exact h
    | endMarker => exact ⟨fun _ => .endMarker a, fun _ => rfl⟩
  | endMarker =>
    have hcompare (h : compare Lookahead.endMarker b = .lt) : False := by
      cases b <;> cases h
    exact ⟨fun h => (hcompare h).elim, fun h => by cases h⟩

namespace Table

abbrev Entry := NonTerminal × Lookahead × Cell

namespace Entry

inductive Before (a b : Entry) : Prop
  | row (h : bytes a.1.text < bytes b.1.text)
  | lookahead (row_eq : a.1 = b.1) (h : a.2.1.Before b.2.1)

def comparePlace : Entry → Entry → Ordering :=
  compareLex (compareOn fun x => x.1) (compareOn fun x => x.2.1)

instance : Std.TransCmp comparePlace :=
  inferInstanceAs (Std.TransCmp (compareLex (compareOn fun x : Entry => x.1)
    (compareOn fun x : Entry => x.2.1)))

def toText (x : Entry) : String :=
  "M[" ++ x.1.text ++ ", " ++ x.2.1.text ++ "] = " ++ x.2.2.toText ++ "\n"

theorem comparePlace_eq_lt_iff {a b : Entry} : comparePlace a b = .lt ↔ a.Before b := by
  have hrow : compare a.1 b.1 = .lt ↔ bytes a.1.text < bytes b.1.text := Text.compare_eq_lt_iff
  rw [comparePlace, compareLex, Ordering.then_eq_lt]
  simp only [compareOn]
  rw [hrow, Std.LawfulEqOrd.compare_eq_iff_eq, Lookahead.compare_eq_lt_iff]
  constructor
  · rintro (h | ⟨heq, h⟩)
    · exact .row h
    · exact .lookahead heq h
  · intro h
    cases h with
    | row h => exact .inl h
    | lookahead heq h => exact .inr ⟨heq, h⟩

end Entry

abbrev Arrangement := List (NonTerminal × List (Lookahead × Cell))

namespace Arrangement

def entries (rows : Arrangement) : List Entry :=
  rows.flatMap fun r => r.2.map fun p => (r.1, p.1, p.2)

def sorted (rows : Arrangement) : List Entry :=
  rows.entries.mergeSort fun a b => (Entry.comparePlace a b).isLE

def listing (rows : Arrangement) : String := .join (rows.sorted.map Entry.toText)

def document (start : Option String) (rows : Arrangement) : Document :=
  ⟨start, (rows.sorted.map fun x => (x.1.text, x.2.1.text, CellText.ofCell x.2.2)).foldl
    (fun m x => m.insertIn x.1 x.2.1 x.2.2) (.ofList (rows.map fun r => (r.1.text, .empty)))⟩

theorem pairwise_sorted (rows : Arrangement) :
    rows.sorted.Pairwise fun a b => (Entry.comparePlace a b).isLE = true := by
  refine List.pairwise_mergeSort (fun _ _ _ => Std.TransCmp.isLE_trans) (fun a b => ?_) _
  have hswap : Entry.comparePlace b a = (Entry.comparePlace a b).swap := Std.OrientedCmp.eq_swap
  rw [hswap]
  cases Entry.comparePlace a b <;> rfl

end Arrangement

section Arranged

variable {t : Table} {rows : Arrangement}

theorem pairwise_cells (t : Table) : t.cells.Pairwise fun a b => Entry.comparePlace a b = .lt := by
  simp only [Entry.comparePlace_eq_lt_iff]
  refine List.pairwise_flatMap.mpr ⟨fun p _ => List.pairwise_map.mpr ?_, ?_⟩
  · refine List.Pairwise.imp (fun {a b} hab => ?_) p.2.ascending
    exact .lookahead rfl (Lookahead.compare_eq_lt_iff.mp hab)
  · refine List.Pairwise.imp (fun {p q} hpq a ha b hb => ?_) t.rows.ascending
    obtain ⟨-, -, rfl⟩ := List.mem_map.mp ha
    obtain ⟨-, -, rfl⟩ := List.mem_map.mp hb
    exact .row (Text.compare_eq_lt_iff.mp hpq)

theorem perm_sorted (h : Arranges rows t.rows) : rows.sorted.Perm t.cells :=
  (List.mergeSort_perm _ _).trans (h.perm_flatMap fun n p => (n, p.1, p.2))

/-- No two cells have one place, so there is one sorted order only. -/
theorem sorted_eq_cells (h : Arranges rows t.rows) : rows.sorted = t.cells := by
  have hcells : t.cells.Pairwise fun a b => (Entry.comparePlace a b).isLE = true :=
    t.pairwise_cells.imp fun hab => by rw [hab]; rfl
  refine List.Perm.eq_of_pairwise ?_ rows.pairwise_sorted hcells (perm_sorted h)
  rintro ⟨n, l, c⟩ ⟨n', l', c'⟩ ha hb hab hba
  have heq := compareLex_eq_eq.mp (Std.OrientedCmp.isLE_antisymm hab hba)
  obtain rfl : n = n' := Std.LawfulEqCmp.eq_of_compare heq.1
  obtain rfl : l = l' := Std.LawfulEqCmp.eq_of_compare heq.2
  have hc := mem_cells.mp ((perm_sorted h).mem_iff.mp ha)
  cases hc.symm.trans (mem_cells.mp hb)
  rfl

theorem listing_eq (h : Arranges rows t.rows) : rows.listing = t.listing := by
  rw [Arrangement.listing, sorted_eq_cells h]
  rfl

theorem mem_rows (h : Arranges rows t.rows) {n : NonTerminal} :
    n ∈ rows.map Prod.fst ↔ t.hasRow n = true := by
  rw [h.perm_keys.mem_iff, SortedMap.mem_keys]
  rfl

theorem get?_opened (h : Arranges rows t.rows) {left : String} {row : RowText} :
    (SortedMap.ofList (rows.map fun r => (r.1.text, (SortedMap.empty : RowText)))).get? left =
      some row ↔ (∃ n, n.text = left ∧ t.hasRow n = true) ∧ row = .empty := by
  have hkeys : ((rows.map fun r => (r.1.text, (SortedMap.empty : RowText))).map Prod.fst).Nodup := by
    have hrows := h.perm_keys.nodup_iff.mpr t.rows.ascending.nodup_keys
    have htexts := hrows.map fun _ _ => NonTerminal.ext
    simpa only [List.map_map, Function.comp_def] using htexts
  rw [SortedMap.get?_ofList hkeys, List.mem_map]
  constructor
  · rintro ⟨r, hr, he⟩
    cases he
    exact ⟨⟨r.1, rfl, (mem_rows h).mp (List.mem_map_of_mem hr)⟩, rfl⟩
  · rintro ⟨⟨n, rfl, hn⟩, rfl⟩
    obtain ⟨r, hr, rfl⟩ := List.mem_map.mp ((mem_rows h).mpr hn)
    exact ⟨r, hr, rfl⟩

theorem mem_cellTexts {left lookahead : String} {text : CellText} :
    (left, lookahead, text) ∈ t.cells.map (fun x => (x.1.text, x.2.1.text, .ofCell x.2.2)) ↔
      ∃ n l c, n.text = left ∧ l.text = lookahead ∧ t.cell? n l = some c ∧
        CellText.ofCell c = text := by
  rw [List.mem_map]
  constructor
  · rintro ⟨⟨n, l, c⟩, hmem, he⟩
    cases he
    exact ⟨n, l, c, rfl, rfl, mem_cells.mp hmem, rfl⟩
  · rintro ⟨n, l, c, rfl, rfl, hc, rfl⟩
    exact ⟨(n, l, c), mem_cells.mpr hc, rfl⟩

theorem nodup_placeTexts (t : Table) :
    ((t.cells.map fun x => (x.1.text, x.2.1.text, CellText.ofCell x.2.2)).map
      fun x => (x.1, x.2.1)).Nodup := by
  rw [List.map_map]
  refine List.pairwise_map.mpr (t.pairwise_cells.imp fun {a b} hab heq => ?_)
  obtain ⟨hn, hl⟩ := Prod.mk.inj heq
  rw [Entry.comparePlace, compareLex, compareOn, compareOn, NonTerminal.ext hn,
    Lookahead.text_injective hl, Std.ReflOrd.compare_self, Std.ReflOrd.compare_self] at hab
  cases hab

theorem document_eq (h : Arranges rows t.rows) (start : Option String) :
    rows.document start = Document.ofTable start t := by
  refine Document.ext_cell? rfl (fun left => ?_) fun left lookahead => Option.ext fun text => ?_
  · rw [Bool.eq_iff_iff, Document.hasRow_ofTable, Document.hasRow, Arrangement.document,
      SortedMap.isSome_get?_foldl_insertIn, sorted_eq_cells h, Option.isSome_iff_exists]
    simp only [get?_opened h]
    constructor
    · rintro (⟨⟨_, lookahead, text⟩, hx, rfl⟩ | ⟨_, hrow, -⟩)
      · obtain ⟨n, l, c, hn, -, hc, -⟩ := mem_cellTexts.mp hx
        exact ⟨n, hn, hasRow_of_cell hc⟩
      · exact hrow
    · exact fun hrow => .inr ⟨.empty, hrow, rfl⟩
  · rw [Document.cell?_ofTable, Document.cell?, Arrangement.document, sorted_eq_cells h,
      SortedMap.get?_get?_foldl_insertIn t.nodup_placeTexts, mem_cellTexts]
    constructor
    -- A row is opened without cells, so each cell that is found was written.
    · rintro (hcell | ⟨-, hopened⟩)
      · exact hcell
      · obtain ⟨row, hrow, htext⟩ := Option.bind_eq_some_iff.mp hopened
        rw [((get?_opened h).mp hrow).2] at htext
        cases htext
    · exact .inl

theorem eq_of_arranges {t' : Table} (h : Arranges rows t.rows) (h' : Arranges rows t'.rows) :
    t = t' := by
  cases t; cases t'
  exact congrArg mk (h.ofList_eq.symm.trans h'.ofList_eq)

theorem pairwise_before (h : Arranges rows t.rows) : rows.sorted.Pairwise Entry.Before := by
  rw [sorted_eq_cells h]
  exact t.pairwise_cells.imp Entry.comparePlace_eq_lt_iff.mp

theorem filter_sorted (h : Arranges rows t.rows) (n : NonTerminal) (l : Lookahead) :
    rows.sorted.filter (fun x => x.1 = n ∧ x.2.1 = l) =
      ((t.cell? n l).map fun c => (n, l, c)).toList := by
  have hnodup : (rows.sorted.filter fun x => x.1 = n ∧ x.2.1 = l).Nodup := by
    rw [sorted_eq_cells h]
    refine List.Nodup.filter _ (t.pairwise_cells.imp fun {a b} hab heq => ?_)
    have hself : Entry.comparePlace a a = .eq := Std.ReflCmp.compare_self
    rw [← heq, hself] at hab
    cases hab
  have hmem : ∀ x, x ∈ rows.sorted.filter (fun x => x.1 = n ∧ x.2.1 = l) ↔
      x ∈ ((t.cell? n l).map fun c => (n, l, c)).toList := by
    rintro ⟨n', l', c⟩
    simp only [List.mem_filter, sorted_eq_cells h, mem_cells, decide_eq_true_eq,
      Option.mem_toList, Option.map_eq_some_iff, Prod.mk.injEq]
    constructor
    · rintro ⟨hc, rfl, rfl⟩
      exact ⟨c, hc, rfl, rfl, rfl⟩
    · rintro ⟨c', hc, rfl, rfl, rfl⟩
      exact ⟨hc, rfl, rfl⟩
  have hperm := (List.perm_ext_iff_of_nodup hnodup (Option.toList_nodup _)).mpr hmem
  cases hcell : t.cell? n l with
  | none =>
    rw [hcell] at hperm
    exact List.perm_nil.mp hperm
  | some c =>
    rw [hcell] at hperm
    exact List.perm_singleton.mp hperm

end Arranged

/-- What can be seen of a table that was made by writes: the rows that they name and the latest
entry of each cell, but neither their order nor the one in which the rows are met. -/
theorem ofWrites_outcome :
    (∀ writes n l, ((ofWrites writes).hasRow n = true ↔ ∃ w ∈ writes, n = w.nonterminal) ∧
      (ofWrites writes).cell? n l = latest? writes n l) ∧
    (∀ writes writes', ofWrites writes = ofWrites writes' ↔
      (∀ n, (ofWrites writes).hasRow n = (ofWrites writes').hasRow n) ∧
        ∀ n l, (ofWrites writes).cell? n l = (ofWrites writes').cell? n l) ∧
    (∀ writes writes' (rows rows' : Arrangement), ofWrites writes = ofWrites writes' →
      Arranges rows (ofWrites writes).rows → Arranges rows' (ofWrites writes').rows →
      rows.sorted = rows'.sorted ∧ rows.listing = rows'.listing ∧
        ∀ start, rows.document start = rows'.document start) ∧
    (∀ writes (rows : Arrangement), Arranges rows (ofWrites writes).rows →
      rows.sorted.Pairwise Entry.Before ∧ ∀ n l,
        rows.sorted.filter (fun x => x.1 = n ∧ x.2.1 = l) =
          ((latest? writes n l).map fun c => (n, l, c)).toList) ∧
    ∀ t (rows : Arrangement), Arranges rows t.rows →
      (∀ t' : Table, Arranges rows t'.rows → t = t') ∧ rows.sorted = t.cells ∧
        rows.listing = t.listing ∧ ∀ start, rows.document start = Document.ofTable start t := by
  refine ⟨fun writes n l => ⟨hasRow_ofWrites writes n, cell?_ofWrites writes n l⟩,
    fun writes writes' => ?_, fun writes writes' rows rows' heq h h' => ?_,
    fun writes rows h => ?_, fun t rows h => ?_⟩
  · constructor
    · intro heq
      rw [heq]
      exact ⟨fun _ => rfl, fun _ _ => rfl⟩
    · exact fun ⟨hrow, hcell⟩ => ext_cell? hrow hcell
  · rw [← heq] at h'
    refine ⟨?_, ?_, fun start => ?_⟩
    · rw [sorted_eq_cells h, sorted_eq_cells h']
    · rw [listing_eq h, listing_eq h']
    · rw [document_eq h, document_eq h']
  · refine ⟨pairwise_before h, fun n l => ?_⟩
    rw [filter_sorted h, cell?_ofWrites]
  · exact ⟨fun t' h' => eq_of_arranges h h', sorted_eq_cells h, listing_eq h, document_eq h⟩

end Table

namespace Letters

open Table (ofWrites ofWrites_outcome Arrangement Entry)

theorem sorted_of_letter_writes :
    let writes : List TableWrite := [.cell word (.terminal letter) .error, .row other,
      .cell word .endMarker .error, .cell word (.terminal letter) (.production more)]
    let writes' : List TableWrite := [.row word, .cell word .endMarker .error,
      .cell word (.terminal letter) (.production more), .row other]
    let rows : Arrangement := [(other, []),
      (word, [(.endMarker, .error), (.terminal letter, .production more)])]
    let rows' : Arrangement := [(word, [(.endMarker, .error),
      (.terminal letter, .production more)]), (other, [])]
    ofWrites writes = ofWrites writes' ∧ Arranges rows (ofWrites writes).rows ∧
      Arranges rows' (ofWrites writes').rows ∧ rows.sorted = rows'.sorted ∧
      rows.sorted.Pairwise Entry.Before := by
  intro writes writes' rows rows'
  have heq : ofWrites writes = ofWrites writes' := by decide
  have hlists : (ofWrites writes').rows.toLists =
      [(word, [(.terminal letter, .production more), (.endMarker, .error)]), (other, [])] := by
    decide
  have hrows' : Arranges rows' (ofWrites writes').rows :=
    ⟨_, .of_eq hlists.symm, .cons ⟨rfl, .swap ..⟩ (.cons ⟨rfl, .refl _⟩ .nil)⟩
  have hrows : Arranges rows (ofWrites writes).rows := by
    rw [heq]
    have hperm : [(other, []), (word, [(.terminal letter, .production more),
        (.endMarker, .error)])].Perm (ofWrites writes').rows.toLists := by
      rw [hlists]
      exact .swap ..
    exact ⟨_, hperm, .cons ⟨rfl, .refl _⟩ (.cons ⟨rfl, .swap ..⟩ .nil)⟩
  exact ⟨heq, hrows, hrows', (ofWrites_outcome.2.2.1 _ _ _ _ heq hrows hrows').1,
    (ofWrites_outcome.2.2.2.1 _ _ hrows).1⟩

end Letters

end Predictive
