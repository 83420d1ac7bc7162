import Mathlib.Data.List.Forall2
import Predictive.Proofs.SortedMap
import Predictive.Proofs.Table.Proper

/-! Edits as writes. Reading an edit does not look at the table, so a list of edits is read
first and then written: it is refused if one of its edits does not read, and otherwise the
table has a row for every nonterminal that is named and holds in each cell the last entry
that was written there. Rows and cells together determine a table. -/

namespace Predictive

inductive TableWrite where
  | row (n : NonTerminal)
  | cell (n : NonTerminal) (l : Lookahead) (c : Cell)

namespace TableWrite

def apply (t : Table) : TableWrite → Table
  | row n => t.openRow n
  | cell n l c => t.insert n l c

def nonterminal : TableWrite → NonTerminal
  | row n => n
  | cell n _ _ => n

def placed? (m : NonTerminal) (k : Lookahead) : TableWrite → Option Cell
  | row _ => none
  | cell n l c => if m = n ∧ k = l then some c else none

theorem placed?_eq_some {m : NonTerminal} {k : Lookahead} {w : TableWrite} {c : Cell} :
    w.placed? m k = some c ↔ w = .cell m k c := by
  cases w with
  | row n => simp [placed?]
  | cell n l c' =>
    simp only [placed?, cell.injEq]
    constructor
    · intro h
      split at h
      · next hmk => exact ⟨hmk.1.symm, hmk.2.symm, Option.some.inj h⟩
      · cases h
    · intro h
      obtain ⟨rfl, rfl, rfl⟩ := h
      simp

end TableWrite

def TableEdit.read : TableEdit → Except GrammarError TableWrite
  | entry left lookahead right => do
    let n ← NonTerminal.ofText left
    let l ← Lookahead.ofText lookahead
    let p ← Production.ofTexts n right
    return .cell n l (.production p)
  | error left lookahead => do
    let n ← NonTerminal.ofText left
    let l ← Lookahead.ofText lookahead
    return .cell n l .error
  | row left => do
    let n ← NonTerminal.ofText left
    return .row n

theorem TableEdit.apply_eq_map (t : Table) (e : TableEdit) :
    e.apply t = e.read.map (TableWrite.apply t) := by
  change e.apply t = TableWrite.apply t <$> e.read
  cases e with
  | entry left lookahead right => simp [apply, read, TableWrite.apply]
  | error left lookahead => simp [apply, read, TableWrite.apply]
  | row left => simp [apply, read, TableWrite.apply]

theorem TableEdit.apply_eq_ok {t t' : Table} {e : TableEdit} :
    e.apply t = .ok t' ↔ ∃ w, e.read = .ok w ∧ w.apply t = t' := by
  rw [apply_eq_map, map_eq_ok]

section Read

variable {edits : List TableEdit} {writes : List TableWrite}

theorem exists_of_forall₂_read (h : List.Forall₂ (fun e w => e.read = .ok w) edits writes) :
    ∀ e ∈ edits, ∃ w, TableEdit.read e = .ok w := by
  induction h with
  | nil => simp
  | cons hw _ ih => exact List.forall_mem_cons.mpr ⟨⟨_, hw⟩, ih⟩

theorem exists_forall₂_read (h : ∀ e ∈ edits, ∃ w, TableEdit.read e = .ok w) :
    ∃ writes, List.Forall₂ (fun e w => e.read = .ok w) edits writes := by
  induction edits with
  | nil => exact ⟨[], .nil⟩
  | cons e edits ih =>
    obtain ⟨⟨w, hw⟩, hrest⟩ := List.forall_mem_cons.mp h
    obtain ⟨writes, hwrites⟩ := ih hrest
    exact ⟨w :: writes, .cons hw hwrites⟩

theorem mem_of_forall₂_read (h : List.Forall₂ (fun e w => e.read = .ok w) edits writes)
    {w : TableWrite} : w ∈ writes ↔ ∃ e ∈ edits, e.read = .ok w := by
  induction h with
  | nil => simp
  | cons hw _ ih => simp [ih, hw, eq_comm]

end Read

namespace Table

variable {t : Table} {n : NonTerminal} {l : Lookahead}

theorem hasRow_openRow (t : Table) (n m : NonTerminal) :
    (t.openRow n).hasRow m = (decide (m = n) || t.hasRow m) := by
  by_cases h : m = n
  · simp [hasRow, h, row?_openRow_self]
  · simp [hasRow, h, row?_openRow_of_ne t h]

theorem hasRow_insert (t : Table) (n m : NonTerminal) (l : Lookahead) (c : Cell) :
    (t.insert n l c).hasRow m = (decide (m = n) || t.hasRow m) := by
  by_cases h : m = n
  · simp [hasRow, h, row?_insert_self]
  · simp [hasRow, h, row?_insert_of_ne t h]

theorem hasRow_apply (t : Table) (w : TableWrite) (m : NonTerminal) :
    (w.apply t).hasRow m = (decide (m = w.nonterminal) || t.hasRow m) := by
  cases w with
  | row n => exact hasRow_openRow t n m
  | cell n l c => exact hasRow_insert t n m l c

theorem cell?_apply (t : Table) (w : TableWrite) (m : NonTerminal) (k : Lookahead) :
    (w.apply t).cell? m k = (w.placed? m k).or (t.cell? m k) := by
  cases w with
  | row n => exact cell?_openRow t n m k
  | cell n l c =>
    by_cases h : m = n ∧ k = l
    · obtain ⟨rfl, rfl⟩ := h
      simp [TableWrite.apply, TableWrite.placed?, cell?_insert_self]
    · simp [TableWrite.apply, TableWrite.placed?, cell?_insert_of_ne t h, h]

theorem hasRow_foldl (writes : List TableWrite) (t : Table) (n : NonTerminal) :
    (writes.foldl TableWrite.apply t).hasRow n =
      (writes.any (fun w => n = w.nonterminal) || t.hasRow n) := by
  induction writes generalizing t with
  | nil => rfl
  | cons w writes ih =>
    rw [List.foldl_cons, ih, hasRow_apply, List.any_cons, Bool.or_left_comm, Bool.or_assoc]

theorem cell?_foldl (writes : List TableWrite) (t : Table) (n : NonTerminal) (l : Lookahead) :
    (writes.foldl TableWrite.apply t).cell? n l =
      (writes.reverse.findSome? (·.placed? n l)).or (t.cell? n l) := by
  induction writes generalizing t with
  | nil => rfl
  | cons w writes ih =>
    rw [List.foldl_cons, ih, cell?_apply, List.reverse_cons, List.findSome?_append,
      List.findSome?_singleton, Option.or_assoc]

def ofWrites (writes : List TableWrite) : Table := writes.foldl TableWrite.apply .empty

def latest? (writes : List TableWrite) (n : NonTerminal) (l : Lookahead) : Option Cell :=
  (writes.filterMap (·.placed? n l)).getLast?

theorem hasRow_ofWrites (writes : List TableWrite) (n : NonTerminal) :
    (ofWrites writes).hasRow n = true ↔ ∃ w ∈ writes, n = w.nonterminal := by
  rw [ofWrites, hasRow_foldl]
  simp [hasRow, row?, empty, SortedMap.get?_empty]

theorem cell?_ofWrites (writes : List TableWrite) (n : NonTerminal) (l : Lookahead) :
    (ofWrites writes).cell? n l = latest? writes n l := by
  rw [ofWrites, cell?_foldl, cell?_empty, Option.or_none, latest?, List.getLast?_filterMap]

theorem foldlM_eq_ok {edits : List TableEdit} {t t' : Table} :
    edits.foldlM TableEdit.apply t = .ok t' ↔
      ∃ writes, List.Forall₂ (fun e w => e.read = .ok w) edits writes ∧
        writes.foldl TableWrite.apply t = t' := by
  induction edits generalizing t with
  | nil => simp [pure, Except.pure]
  | cons e edits ih =>
    rw [List.foldlM_cons, bind_eq_ok]
    constructor
    · intro h
      obtain ⟨t₁, he, hrest⟩ := h
      obtain ⟨w, hw, rfl⟩ := TableEdit.apply_eq_ok.mp he
      obtain ⟨writes, hwrites, rfl⟩ := ih.mp hrest
      exact ⟨w :: writes, .cons hw hwrites, rfl⟩
    · intro h
      obtain ⟨writes, hwrites, rfl⟩ := h
      cases hwrites with
      | cons hw hwrites =>
        exact ⟨_, TableEdit.apply_eq_ok.mpr ⟨_, hw, rfl⟩, ih.mpr ⟨_, hwrites, rfl⟩⟩

theorem ofEdits_eq_ok {edits : List TableEdit} {t : Table} :
    ofEdits edits = .ok t ↔ ∃ writes, List.Forall₂ (fun e w => e.read = .ok w) edits writes ∧
      writes.foldl TableWrite.apply .empty = t :=
  foldlM_eq_ok

theorem ext_cell? {a b : Table} (hrow : ∀ n, a.hasRow n = b.hasRow n)
    (hcell : ∀ n l, a.cell? n l = b.cell? n l) : a = b := by
  cases a; cases b
  exact congrArg mk (SortedMap.ext_get?_get? hrow hcell)

end Table

end Predictive
