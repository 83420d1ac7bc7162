import Predictive.Proofs.Lists
import Predictive.Proofs.Table.Refusals

/-! What a list of edits makes. The first edit that is not valid refuses the table, with its own
error, whatever follows it. If all are valid the table has the rows that they name, and each of
its cells is what the last edit of that cell put there, so two neighbours that touch different
cells can change places. -/

namespace Predictive

namespace TableWrite

theorem apply_comm {a b : TableWrite}
    (h : ∀ n l, a.placed? n l = none ∨ b.placed? n l = none) (t : Table) :
    b.apply (a.apply t) = a.apply (b.apply t) := by
  apply Table.ext_cell?
  · intro n
    simp only [Table.hasRow_apply, Bool.or_left_comm]
  · intro n l
    simp only [Table.cell?_apply]
    obtain ha | hb := h n l
    · rw [ha, Option.none_or, Option.none_or]
    · rw [hb, Option.none_or, Option.none_or]

end TableWrite

namespace TableEdit

def place? (edit : TableEdit) : Option (String × String) :=
  edit.lookahead?.map fun lookahead => (edit.left, lookahead)

/-- What the edit puts into the given cell, if it is about that one. A right side of no symbols
is written as the empty marker alone. -/
def placed? (n : NonTerminal) (l : Lookahead) : TableEdit → Option Cell
  | entry left lookahead right =>
    if left = n.text ∧ lookahead = l.text then
      some (.production ⟨n, Production.marked (right.map Symbol.ofText)⟩)
    else none
  | error left lookahead => if left = n.text ∧ lookahead = l.text then some .error else none
  | row _ => none

variable {edit : TableEdit} {w : TableWrite}

theorem place?_of_placed? {n : NonTerminal} {l : Lookahead} {c : Cell}
    (h : edit.placed? n l = some c) : edit.place? = some (n.text, l.text) := by
  cases edit with
  | row left => cases h
  | error left lookahead | entry left lookahead right =>
    rw [placed?] at h
    split at h
    · next hplace =>
      rw [← hplace.1, ← hplace.2]
      rfl
    · cases h

theorem read_cases (h : edit.read = .ok w) :
    (∃ n, edit = .row n.text ∧ w = .row n) ∨
      (∃ n l, edit = .error n.text l.text ∧ w = .cell n l .error) ∨
      ∃ n l right, edit = .entry n.text l.text right ∧
        w = .cell n l (.production ⟨n, Production.marked (right.map Symbol.ofText)⟩) := by
  cases edit with
  | row left =>
    obtain ⟨n, hn, rfl⟩ := read_row.mp h
    exact .inl ⟨n, by rw [NonTerminal.text_of_ofText hn], rfl⟩
  | error left lookahead =>
    have hedit : (CellText.error.edit left lookahead).read = .ok w := h
    obtain ⟨n, l, c, hn, hl, hc, rfl⟩ := CellText.read_edit.mp hedit
    cases hc
    exact .inr (.inl ⟨n, l, by rw [NonTerminal.text_of_ofText hn, Lookahead.text_of_ofText hl], rfl⟩)
  | entry left lookahead right =>
    have hedit : ((CellText.production right).edit left lookahead).read = .ok w := h
    obtain ⟨n, l, c, hn, hl, hc, rfl⟩ := CellText.read_edit.mp hedit
    obtain ⟨p, hp, rfl⟩ := map_eq_ok.mp hc
    rw [Production.eq_of_ofSymbols hp]
    exact .inr (.inr ⟨n, l, right,
      by rw [NonTerminal.text_of_ofText hn, Lookahead.text_of_ofText hl], rfl⟩)

theorem text_of_read (h : edit.read = .ok w) : w.nonterminal.text = edit.left := by
  obtain ⟨n, rfl, rfl⟩ | ⟨n, l, rfl, rfl⟩ | ⟨n, l, right, rfl, rfl⟩ := read_cases h <;> rfl

theorem placed?_of_read (h : edit.read = .ok w) (n : NonTerminal) (l : Lookahead) :
    w.placed? n l = edit.placed? n l := by
  have hplace (n' : NonTerminal) (l' : Lookahead) :
      n'.text = n.text ∧ l'.text = l.text ↔ n = n' ∧ l = l' := by
    constructor
    · rintro ⟨hn, hl⟩
      exact ⟨NonTerminal.ext hn.symm, Lookahead.text_injective hl.symm⟩
    · rintro ⟨rfl, rfl⟩
      exact ⟨rfl, rfl⟩
  obtain ⟨n', rfl, rfl⟩ | ⟨n', l', rfl, rfl⟩ | ⟨n', l', right, rfl, rfl⟩ := read_cases h
  · rfl
  · simp only [TableWrite.placed?, placed?, hplace]
  · simp only [TableWrite.placed?, placed?, hplace]
    by_cases hn : n = n'
    · rw [hn]
    · rw [if_neg (mt And.left hn), if_neg (mt And.left hn)]

end TableEdit

section Read

variable {edits : List TableEdit} {writes : List TableWrite}

theorem valid_of_forall₂_read (h : List.Forall₂ (fun e w => e.read = .ok w) edits writes) :
    ∀ e ∈ edits, TableEdit.Valid e := fun e he =>
  e.judged_read.exists_ok_iff.mp (exists_of_forall₂_read h e he)

theorem exists_text_of_forall₂_read
    (h : List.Forall₂ (fun e w => e.read = .ok w) edits writes) (n : NonTerminal) :
    (∃ w ∈ writes, n = w.nonterminal) ↔ ∃ e ∈ edits, TableEdit.left e = n.text := by
  constructor
  · rintro ⟨w, hw, rfl⟩
    obtain ⟨e, he, hread⟩ := (mem_of_forall₂_read h).mp hw
    exact ⟨e, he, (TableEdit.text_of_read hread).symm⟩
  · rintro ⟨e, he, htext⟩
    obtain ⟨w, hread⟩ := exists_of_forall₂_read h e he
    have hn : n = w.nonterminal := NonTerminal.ext (htext ▸ (TableEdit.text_of_read hread).symm)
    exact ⟨w, (mem_of_forall₂_read h).mpr ⟨e, he, hread⟩, hn⟩

theorem filterMap_placed?_of_forall₂_read
    (h : List.Forall₂ (fun e w => e.read = .ok w) edits writes) (n : NonTerminal)
    (l : Lookahead) :
    writes.filterMap (·.placed? n l) = edits.filterMap (·.placed? n l) := by
  induction h with
  | nil => rfl
  | cons hw _ ih => rw [List.filterMap_cons, List.filterMap_cons, ih, TableEdit.placed?_of_read hw]

end Read

namespace Table

theorem foldlM_eq_map (edits : List TableEdit) (t : Table) :
    edits.foldlM TableEdit.apply t =
      (edits.mapM TableEdit.read).map fun writes => writes.foldl TableWrite.apply t := by
  induction edits generalizing t with
  | nil => rfl
  | cons e edits ih =>
    rw [List.foldlM_cons, List.mapM_cons, TableEdit.apply_eq_map]
    cases e.read with
    | error err => rfl
    | ok w =>
      change edits.foldlM TableEdit.apply (w.apply t) = _
      rw [ih]
      cases edits.mapM TableEdit.read <;> rfl

theorem ofEdits_eq_error {edits : List TableEdit} {e : GrammarError} :
    ofEdits edits = .error e ↔ ∃ before edit after, edits = before ++ edit :: after ∧
      (∀ x ∈ before, x.Valid) ∧ edit.Refuses e := by
  have hmap : ofEdits edits = .error e ↔ edits.mapM TableEdit.read = .error e := by
    rw [ofEdits, foldlM_eq_map]
    cases edits.mapM TableEdit.read <;> simp [Except.map]
  rw [hmap]
  constructor
  · intro h
    obtain ⟨before, edit, after, rfl, hbefore, hedit⟩ := exists_refused_of_mapM h
    exact ⟨before, edit, after, rfl, fun x hx => x.judged_read.exists_ok_iff.mp (hbefore x hx),
      edit.judged_read.eq_error_iff.mp hedit⟩
  · rintro ⟨before, edit, after, rfl, hbefore, hedit⟩
    exact mapM_append_eq_error (fun x hx => x.judged_read.accepts (hbefore x hx))
      (edit.judged_read.refuses e hedit)

theorem exists_ofEdits {edits : List TableEdit} (h : ∀ x ∈ edits, x.Valid) :
    ∃ t, ofEdits edits = .ok t := by
  obtain ⟨writes, hwrites⟩ := exists_forall₂_read fun x hx => x.judged_read.accepts (h x hx)
  exact ⟨_, ofEdits_eq_ok.mpr ⟨writes, hwrites, rfl⟩⟩

theorem exists_ofEdits_iff {edits : List TableEdit} :
    (∃ t, ofEdits edits = .ok t) ↔ ∀ x ∈ edits, x.Valid := by
  constructor
  · rintro ⟨t, ht⟩
    obtain ⟨writes, hwrites, -⟩ := ofEdits_eq_ok.mp ht
    exact valid_of_forall₂_read hwrites
  · exact exists_ofEdits

section Made

variable {edits : List TableEdit} {t : Table}

theorem hasRow_of_ofEdits (h : ofEdits edits = .ok t) (n : NonTerminal) :
    t.hasRow n = true ↔ ∃ x ∈ edits, x.left = n.text := by
  obtain ⟨writes, hwrites, rfl⟩ := ofEdits_eq_ok.mp h
  rw [← exists_text_of_forall₂_read hwrites]
  exact hasRow_ofWrites writes n

theorem cell?_of_ofEdits (h : ofEdits edits = .ok t) (n : NonTerminal) (l : Lookahead) :
    t.cell? n l = (edits.filterMap (·.placed? n l)).getLast? := by
  obtain ⟨writes, hwrites, rfl⟩ := ofEdits_eq_ok.mp h
  rw [← filterMap_placed?_of_forall₂_read hwrites]
  exact cell?_ofWrites writes n l

end Made

theorem foldlM_cons_of_read {e : TableEdit} {w : TableWrite} (h : e.read = .ok w)
    (edits : List TableEdit) (t : Table) :
    (e :: edits).foldlM TableEdit.apply t = edits.foldlM TableEdit.apply (w.apply t) := by
  rw [List.foldlM_cons, TableEdit.apply_eq_map, h]
  rfl

theorem ofEdits_swap {a b : TableEdit} (ha : a.Valid) (hb : b.Valid)
    (h : ∀ place ∈ a.place?, place ∉ b.place?) (before after : List TableEdit) :
    ofEdits (before ++ a :: b :: after) = ofEdits (before ++ b :: a :: after) := by
  obtain ⟨v, hv⟩ := a.judged_read.accepts ha
  obtain ⟨w, hw⟩ := b.judged_read.accepts hb
  have hcomm : ∀ t, w.apply (v.apply t) = v.apply (w.apply t) := by
    refine TableWrite.apply_comm fun n l => ?_
    rw [TableEdit.placed?_of_read hv, TableEdit.placed?_of_read hw]
    cases hpa : a.placed? n l with
    | none => exact .inl rfl
    | some c =>
      cases hpb : b.placed? n l with
      | none => exact .inr rfl
      | some c' =>
        exact absurd (TableEdit.place?_of_placed? hpb) (h _ (TableEdit.place?_of_placed? hpa))
  have hrest : (fun t => (a :: b :: after).foldlM TableEdit.apply t) =
      fun t => (b :: a :: after).foldlM TableEdit.apply t := by
    funext t
    rw [foldlM_cons_of_read hv, foldlM_cons_of_read hw, foldlM_cons_of_read hw,
      foldlM_cons_of_read hv, hcomm]
  rw [ofEdits, ofEdits, List.foldlM_append, List.foldlM_append, hrest]

/-- The outcome of building a table. A list of edits is refused exactly if one of them is not
valid, for the first such edit and its first fault; otherwise its table is the one with the rows
that are named and, in each cell, what was put there last. -/
theorem ofEdits_outcome :
    (∀ edits e, ofEdits edits = .error e ↔ ∃ before edit after,
      edits = before ++ edit :: after ∧ (∀ x ∈ before, x.Valid) ∧ edit.Refuses e) ∧
    (∀ edits, (∃ e, ofEdits edits = .error e) ↔ ∃ x ∈ edits, ¬ x.Valid) ∧
    (∀ edits t, ofEdits edits = .ok t ↔ (∀ x ∈ edits, x.Valid) ∧
      (∀ n, t.hasRow n = true ↔ ∃ x ∈ edits, x.left = n.text) ∧
      ∀ n l, t.cell? n l = (edits.filterMap (·.placed? n l)).getLast?) ∧
    ∀ before a b after, a.Valid → b.Valid → (∀ place ∈ a.place?, place ∉ b.place?) →
      ofEdits (before ++ a :: b :: after) = ofEdits (before ++ b :: a :: after) := by
  refine ⟨fun edits e => ofEdits_eq_error, fun edits => ?_, fun edits t => ?_,
    fun before a b after ha hb h => ofEdits_swap ha hb h before after⟩
  · have hinvalid : (∃ x ∈ edits, ¬ x.Valid) ↔ ¬ ∀ x ∈ edits, x.Valid := by simp
    rw [hinvalid, ← exists_ofEdits_iff]
    cases ofEdits edits <;> simp
  · constructor
    · intro h
      exact ⟨exists_ofEdits_iff.mp ⟨t, h⟩, hasRow_of_ofEdits h, cell?_of_ofEdits h⟩
    · rintro ⟨hall, hrow, hcell⟩
      obtain ⟨t', ht'⟩ := exists_ofEdits hall
      have heq : t' = t := by
        apply ext_cell?
        · intro n
          rw [Bool.eq_iff_iff, hasRow_of_ofEdits ht', hrow]
        · intro n l
          rw [cell?_of_ofEdits ht', hcell]
      rw [ht', heq]

theorem ofEdits_letters_swapped :
    (TableEdit.entry "S" "a" ["a", "S"]).Valid ∧ (TableEdit.error "S" "$").Valid ∧
    ofEdits [.entry "S" "a" ["a", "S"], .error "S" "$", .row "S"] =
      ofEdits [.error "S" "$", .entry "S" "a" ["a", "S"], .row "S"] := by
  have hentry : (TableEdit.entry "S" "a" ["a", "S"]).Valid := by decide
  have herror : (TableEdit.error "S" "$").Valid := by decide
  refine ⟨hentry, herror, ?_⟩
  exact ofEdits_outcome.2.2.2 [] _ _ [.row "S"] hentry herror (by decide)

/-- The third edit is at fault twice, and the fourth is not looked at. -/
example : ofEdits [.row "S", .error "S" "a", .entry "S" "E" [""], .row "s"] =
    .error (.notATerminal "E") := by rfl

end Table

end Predictive
