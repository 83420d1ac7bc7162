import Predictive.Arithmetic
import Predictive.Document

/-! The promises about the cells of a table. A table that was built from texts holds in each
row only productions of that row's nonterminal, and their right sides have passed the checks
of `Production.ofSymbols`. A table that was put together cell by cell promises nothing.
`Table.Placed` is as much of the promise as a run needs to grow a tree. -/

namespace Predictive

theorem bind_eq_ok {ε α β : Type} {x : Except ε α} {f : α → Except ε β} {b : β} :
    x >>= f = .ok b ↔ ∃ a, x = .ok a ∧ f a = .ok b := by
  cases x with
  | error e => simp [bind, Except.bind]
  | ok a => simp [bind, Except.bind]

theorem map_eq_ok {ε α β : Type} {x : Except ε α} {f : α → β} {b : β} :
    x.map f = .ok b ↔ ∃ a, x = .ok a ∧ f a = b := by
  cases x with
  | error e => simp [Except.map]
  | ok a => simp [Except.map]

theorem any_isEndMarker {symbols : List Symbol} :
    symbols.any Symbol.isEndMarker = true ↔ .endMarker ∈ symbols := by
  rw [List.any_eq_true]
  constructor
  · intro h
    obtain ⟨s, hs, he⟩ := h
    cases s <;> first | exact hs | cases he
  · exact fun h => ⟨_, h, rfl⟩

theorem any_isEpsilon {symbols : List Symbol} :
    symbols.any Symbol.isEpsilon = true ↔ .epsilon ∈ symbols := by
  rw [List.any_eq_true]
  constructor
  · intro h
    obtain ⟨s, hs, he⟩ := h
    cases s <;> first | exact hs | cases he
  · exact fun h => ⟨_, h, rfl⟩

theorem any_text_eq_empty {symbols : List Symbol} :
    symbols.any (·.text == "") = true ↔ ∃ s ∈ symbols, s.text = "" := by
  simp

def MarkerFree (symbols : List Symbol) : Prop := .endMarker ∉ symbols ∧ .epsilon ∉ symbols

theorem MarkerFree.append {xs ys : List Symbol} (hx : MarkerFree xs) (hy : MarkerFree ys) :
    MarkerFree (xs ++ ys) := by
  simp [MarkerFree, hx.1, hx.2, hy.1, hy.2]

theorem MarkerFree.of_cons {s : Symbol} {xs : List Symbol} (h : MarkerFree (s :: xs)) :
    MarkerFree xs :=
  ⟨fun hx => h.1 (List.mem_cons_of_mem _ hx), fun hx => h.2 (List.mem_cons_of_mem _ hx)⟩

namespace Production

variable {p : Production}

theorem mem_right_of_mem_expansion {s : Symbol} (h : s ∈ p.expansion) : s ∈ p.right := by
  unfold expansion at h
  split at h
  · cases h
  · exact h

theorem ofSymbols_eq (left : NonTerminal) (right : List Symbol) :
    ofSymbols left right =
      if ∃ s ∈ right, s.text = "" then .error .emptySymbol
      else if .endMarker ∈ right then .error (.endMarkerInProduction left)
      else if 1 < right.length ∧ .epsilon ∈ right then .error (.mixedEpsilon left)
      else if right = [] then .ok (empty left)
      else .ok ⟨left, right⟩ := by
  simp only [ofSymbols, any_text_eq_empty, any_isEndMarker, any_isEpsilon, Bool.and_eq_true,
    decide_eq_true_eq, List.isEmpty_iff]

theorem proper_empty (left : NonTerminal) : (empty left).Proper where
  right_ne_nil := List.cons_ne_nil _ _
  no_empty_text := by simp [empty, Symbol.text, emptyMarkerText]
  no_end_marker := by simp [empty]
  epsilon_alone _ := rfl

theorem proper_of_ofSymbols {left : NonTerminal} {right : List Symbol}
    (h : ofSymbols left right = .ok p) : p.left = left ∧ p.Proper := by
  rw [ofSymbols_eq] at h
  by_cases htext : ∃ s ∈ right, s.text = ""
  · simp [htext] at h
  by_cases hend : .endMarker ∈ right
  · simp [htext, hend] at h
  by_cases hmixed : 1 < right.length ∧ .epsilon ∈ right
  · simp [htext, hend, hmixed] at h
  rw [if_neg htext, if_neg hend, if_neg hmixed] at h
  cases right with
  | nil =>
    cases h
    exact ⟨rfl, proper_empty left⟩
  | cons s more =>
    cases h
    refine ⟨rfl, List.cons_ne_nil s more, fun x hx he => htext ⟨x, hx, he⟩, hend, ?_⟩
    intro heps
    cases more with
    | nil => rw [List.mem_singleton.mp heps]
    | cons x more => exact absurd ⟨by simp, heps⟩ hmixed

theorem ofSymbols_of_proper (h : p.Proper) : ofSymbols p.left p.right = .ok p := by
  have htext : ¬ ∃ s ∈ p.right, s.text = "" := by
    intro ht
    obtain ⟨s, hs, he⟩ := ht
    exact h.no_empty_text s hs he
  have hmixed : ¬ (1 < p.right.length ∧ .epsilon ∈ p.right) := by
    intro hm
    rw [h.epsilon_alone hm.2] at hm
    simp at hm
  rw [ofSymbols_eq, if_neg htext, if_neg h.no_end_marker, if_neg hmixed,
    if_neg h.right_ne_nil]

theorem Proper.markerFree_expansion (hp : p.Proper) : MarkerFree p.expansion := by
  constructor
  · exact fun h => hp.no_end_marker (mem_right_of_mem_expansion h)
  · intro h
    have hempty : p.isEmpty = true :=
      isEmpty_eq_true.mpr (hp.epsilon_alone (mem_right_of_mem_expansion h))
    simp [expansion, hempty] at h

end Production

namespace Table

variable {t t' : Table}

theorem cell?_empty (n : NonTerminal) (l : Lookahead) : empty.cell? n l = none := rfl

theorem get?_rowOrEmpty (t : Table) (n : NonTerminal) (l : Lookahead) :
    (t.rowOrEmpty n).get? l = t.cell? n l := by
  cases h : t.row? n with
  | none => simp [rowOrEmpty, cell?, h, SortedMap.get?_empty]
  | some row => simp [rowOrEmpty, cell?, h]

theorem cell?_openRow (t : Table) (n m : NonTerminal) (l : Lookahead) :
    (t.openRow n).cell? m l = t.cell? m l := by
  by_cases h : m = n
  · rw [h, cell?, row?_openRow_self, Option.bind_some, get?_rowOrEmpty]
  · rw [cell?, row?_openRow_of_ne t h, cell?]

theorem cell?_insert_of_ne (t : Table) {n m : NonTerminal} {l k : Lookahead}
    (h : ¬ (m = n ∧ k = l)) (c : Cell) : (t.insert n l c).cell? m k = t.cell? m k := by
  by_cases hn : m = n
  · have hl : k ≠ l := fun hl => h ⟨hn, hl⟩
    rw [hn, cell?, row?_insert_self, Option.bind_some, SortedMap.get?_insert_of_ne _ hl,
      get?_rowOrEmpty]
  · rw [cell?, row?_insert_of_ne t hn, cell?]

structure Placed (t : Table) : Prop where
  left_eq : ∀ n l p, t.cell? n l = some (.production p) → p.left = n
  end_free : ∀ n l p, t.cell? n l = some (.production p) → .endMarker ∉ p.right

theorem Placed.end_not_mem (ht : t.Placed) {n : NonTerminal} {l : Lookahead} {p : Production}
    (hcell : t.cell? n l = some (.production p)) {s : Symbol} {below : List Symbol}
    (hend : .endMarker ∉ s :: below) : .endMarker ∉ p.expansion ++ below := by
  intro h
  rcases List.mem_append.mp h with h | h
  · exact ht.end_free n l p hcell (Production.mem_right_of_mem_expansion h)
  · exact hend (List.mem_cons_of_mem _ h)

structure Proper (t : Table) : Prop where
  left_eq : ∀ n l p, t.cell? n l = some (.production p) → p.left = n
  right_proper : ∀ n l p, t.cell? n l = some (.production p) → p.Proper

theorem Proper.placed (ht : t.Proper) : t.Placed where
  left_eq := ht.left_eq
  end_free n l p hcell := (ht.right_proper n l p hcell).no_end_marker

theorem Proper.of_cells (h : ∀ n l p, t.cell? n l = some (.production p) →
    p.left = n ∧ p.Proper) : t.Proper where
  left_eq n l p hcell := (h n l p hcell).1
  right_proper n l p hcell := (h n l p hcell).2

theorem proper_empty : empty.Proper := .of_cells fun n l p hcell => by
  rw [cell?_empty] at hcell
  cases hcell

theorem Proper.openRow (ht : t.Proper) (n : NonTerminal) : (t.openRow n).Proper :=
  .of_cells fun m l p hcell => by
    rw [cell?_openRow] at hcell
    exact ⟨ht.left_eq m l p hcell, ht.right_proper m l p hcell⟩

theorem Proper.insert (ht : t.Proper) (n : NonTerminal) (l : Lookahead) {c : Cell}
    (hc : ∀ p, c = .production p → p.left = n ∧ p.Proper) : (t.insert n l c).Proper := by
  refine .of_cells fun m k p hcell => ?_
  by_cases h : m = n ∧ k = l
  · rw [h.1, h.2, cell?_insert_self] at hcell
    rw [h.1]
    exact hc p (Option.some.inj hcell)
  · rw [cell?_insert_of_ne t h] at hcell
    exact ⟨ht.left_eq m k p hcell, ht.right_proper m k p hcell⟩

end Table

theorem TableEdit.proper_of_apply {t t' : Table} (ht : t.Proper) {e : TableEdit}
    (h : e.apply t = .ok t') : t'.Proper := by
  cases e with
  | entry left lookahead right =>
    obtain ⟨n, -, h⟩ := bind_eq_ok.mp h
    obtain ⟨l, -, h⟩ := bind_eq_ok.mp h
    obtain ⟨p, hp, h⟩ := bind_eq_ok.mp h
    cases h
    refine ht.insert n l fun q hq => ?_
    cases hq
    exact Production.proper_of_ofSymbols hp
  | error left lookahead =>
    obtain ⟨n, -, h⟩ := bind_eq_ok.mp h
    obtain ⟨l, -, h⟩ := bind_eq_ok.mp h
    cases h
    exact ht.insert n l fun q hq => by cases hq
  | row left =>
    obtain ⟨n, -, h⟩ := bind_eq_ok.mp h
    cases h
    exact ht.openRow n

namespace Table

theorem proper_of_foldlM {edits : List TableEdit} {t t' : Table} (ht : t.Proper)
    (h : edits.foldlM TableEdit.apply t = .ok t') : t'.Proper := by
  induction edits generalizing t with
  | nil =>
    cases h
    exact ht
  | cons e edits ih =>
    obtain ⟨t₁, he, h⟩ := bind_eq_ok.mp h
    exact ih (e.proper_of_apply ht he) h

theorem proper_of_ofEdits {edits : List TableEdit} {t : Table} (h : ofEdits edits = .ok t) :
    t.Proper :=
  proper_of_foldlM proper_empty h

end Table

theorem Document.proper_of_toTable {d : Document} {t : Table} (h : d.toTable = .ok t) :
    t.Proper :=
  Table.proper_of_ofEdits h

namespace Arithmetic

theorem ofEdits_edits : Table.ofEdits edits = .ok table := by rfl

theorem table_proper : table.Proper := Table.proper_of_ofEdits ofEdits_edits

end Arithmetic

namespace Letters

def word : NonTerminal := ⟨"S", by decide⟩

def other : NonTerminal := ⟨"T", by decide⟩

def letter : Terminal := ⟨"a", by decide, by decide, by decide⟩

def stray : Terminal := ⟨"b", by decide, by decide, by decide⟩

def more : Production := ⟨word, [.terminal letter, .nonterminal word]⟩

/-- The words over one letter. Their last production can be one of another nonterminal. -/
def table (last : Production) : Table :=
  (Table.empty.insert word (.terminal letter) (.production more)).insert word .endMarker
    (.production last)

theorem cell?_table {last p : Production} {n : NonTerminal} {l : Lookahead}
    (h : (table last).cell? n l = some (.production p)) :
    n = word ∧ (l = .terminal letter ∧ p = more ∨ l = .endMarker ∧ p = last) := by
  by_cases hend : n = word ∧ l = .endMarker
  · rw [hend.1, hend.2, table, Table.cell?_insert_self] at h
    cases h
    exact ⟨hend.1, .inr ⟨hend.2, rfl⟩⟩
  rw [table, Table.cell?_insert_of_ne _ hend] at h
  by_cases hletter : n = word ∧ l = .terminal letter
  · rw [hletter.1, hletter.2, Table.cell?_insert_self] at h
    cases h
    exact ⟨hletter.1, .inl ⟨hletter.2, rfl⟩⟩
  · rw [Table.cell?_insert_of_ne _ hletter, Table.cell?_empty] at h
    cases h

end Letters

end Predictive
