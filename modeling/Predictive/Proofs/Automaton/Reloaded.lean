import Predictive.Proofs.Automaton.SententialForm
import Predictive.Proofs.Table.Saved

/-! Driving a table that was written out and built again. The table need not be the one it
was: every production has its row's nonterminal for a left side now, and a right side of no
symbols has become the empty marker alone. What a production puts onto the stack is the same,
so both tables make the same turns from the same stack and input, and the runs differ in the
recorded productions only. -/

namespace Predictive

/-- The production as a row of `n` holds it once it was written out and read. -/
def Production.refiled (n : NonTerminal) (p : Production) : Production := ⟨n, marked p.right⟩

theorem Production.expansion_refiled (n : NonTerminal) (p : Production) :
    (p.refiled n).expansion = p.expansion := by
  obtain ⟨left, right⟩ := p
  cases right with
  | nil => rfl
  | cons s more => rfl

def Cell.refiled (n : NonTerminal) : Cell → Cell
  | .production p => .production (p.refiled n)
  | .error => .error

theorem CellText.eq_of_read_ofCell {n : NonTerminal} {c c' : Cell}
    (h : (ofCell c).read n = .ok c') : c' = c.refiled n := by
  cases c with
  | error =>
    cases h
    rfl
  | production p =>
    rw [ofCell, read, Production.ofTexts_text] at h
    obtain ⟨q, hq, rfl⟩ := map_eq_ok.mp h
    rw [Production.eq_of_ofSymbols hq]
    rfl

namespace Configuration

def refiledAfter (before c : Configuration) : Configuration :=
  match before.stack.top? with
  | some (.nonterminal n) => { c with applied := c.applied.map (.refiled n) }
  | _ => c

variable {before c : Configuration}

theorem refiledAfter_eq (before c : Configuration) : before.refiledAfter c =
    { c with applied := (before.refiledAfter c).applied } := by
  unfold refiledAfter
  split <;> rfl

theorem refiledAfter_of_top {n : NonTerminal} (h : before.stack.top? = some (.nonterminal n)) :
    (before.refiledAfter c).applied = c.applied.map (.refiled n) := by
  simp [refiledAfter, h]

theorem refiledAfter_of_none (h : c.applied = none) :
    (before.refiledAfter c).applied = none := by
  unfold refiledAfter
  split
  · simp [h]
  · exact h

end Configuration

def Turn.refiledAfter (before : Configuration) : Turn → Turn
  | .moved c => .moved (before.refiledAfter c)
  | turn => turn

namespace Turn

variable {before c : Configuration} {turn : Turn} {r : Rejection}

theorem refiledAfter_eq_accepted :
    turn.refiledAfter before = .accepted ↔ turn = .accepted := by
  cases turn <;> simp [refiledAfter]

theorem refiledAfter_eq_stuck : turn.refiledAfter before = .stuck r ↔ turn = .stuck r := by
  cases turn <;> simp [refiledAfter]

theorem refiledAfter_eq_moved : turn.refiledAfter before = .moved c ↔
    ∃ c', turn = .moved c' ∧ before.refiledAfter c' = c := by
  cases turn <;> simp [refiledAfter]

end Turn

/-- The row of a production is the nonterminal on top one configuration earlier. -/
def Trace.refiled : Trace → Trace
  | [] => []
  | c :: rest => c :: List.zipWith Configuration.refiledAfter (c :: rest) rest

theorem Trace.length_refiled (cs : Trace) : cs.refiled.length = cs.length := by
  cases cs with
  | nil => rfl
  | cons c rest => simp [refiled]

theorem Trace.getElem?_refiled_succ (cs : Trace) (i : Nat) : cs.refiled[i + 1]? =
    cs[i]?.bind fun before => cs[i + 1]?.map before.refiledAfter := by
  cases cs with
  | nil => rfl
  | cons c rest =>
    rw [refiled, List.getElem?_cons_succ, List.getElem?_zipWith, List.getElem?_cons_succ]
    cases (c :: rest)[i]? <;> cases rest[i]? <;> rfl

namespace Table

structure Refiled (t t' : Table) : Prop where
  hasRow_eq : ∀ n, t'.hasRow n = t.hasRow n
  cell?_eq : ∀ n l, t'.cell? n l = (t.cell? n l).map (Cell.refiled n)

variable {t t' : Table}

theorem refiled_of_toTable {first : Option String}
    (h : (Document.ofTable first t).toTable = .ok t') : t.Refiled t' := by
  have hd := Document.denotes_of_toTable h
  constructor
  · intro n
    rw [hd.hasRow_eq, Document.hasRow_ofTable_text]
  · intro n l
    cases hc : t.cell? n l with
    | none =>
      refine Option.eq_none_iff_forall_ne_some.mpr fun c' hc' => ?_
      obtain ⟨text, htext, -⟩ := (hd.cell_iff n l c').mp hc'
      simp [Document.cell?_ofTable_text, hc] at htext
    | some c =>
      have htext : (Document.ofTable first t).cell? n.text l.text = some (CellText.ofCell c) := by
        rw [Document.cell?_ofTable_text, hc]
        rfl
      obtain ⟨m, k, c', hm, -, hread⟩ := hd.readable.cell n.text l.text _ htext
      rw [NonTerminal.ext (NonTerminal.text_of_ofText hm)] at hread
      have hreloaded := (hd.cell_iff n l c').mpr ⟨_, htext, hread⟩
      rw [hreloaded, CellText.eq_of_read_ofCell hread]
      rfl

theorem select_eq (t : Table) (n : NonTerminal) (l : Lookahead) (position : Nat) :
    t.select n l position =
      if t.hasRow n then
        match t.cell? n l with
        | some (.production p) => .ok p
        | some .error => .error (.noEntry position n l .marked)
        | none => .error (.noEntry position n l .absent)
      else .error (.missingRow n) := by
  cases hrow : t.row? n with
  | none => simp [select, hasRow, hrow]
  | some row =>
    cases hcell : row.get? l with
    | none => simp [select, hasRow, cell?, hrow, hcell]
    | some c => cases c <;> simp [select, hasRow, cell?, hrow, hcell]

theorem Refiled.select_eq (h : t.Refiled t') (n : NonTerminal) (l : Lookahead) (position : Nat) :
    t'.select n l position = (t.select n l position).map (Production.refiled n) := by
  rw [Table.select_eq, Table.select_eq, h.hasRow_eq, h.cell?_eq]
  by_cases hrow : t.hasRow n = true
  · rw [if_pos hrow, if_pos hrow]
    cases hc : t.cell? n l with
    | none => rfl
    | some c => cases c <;> rfl
  · rw [if_neg hrow, if_neg hrow]
    rfl

variable {c : Configuration} {limit : Option Nat}

theorem Refiled.next_eq (h : t.Refiled t') (c : Configuration) :
    t'.next c = (t.next c).refiledAfter c := by
  cases htop : c.stack.top? with
  | none => simp [next, htop, Turn.refiledAfter]
  | some s =>
    cases s with
    | nonterminal n =>
      simp only [next, htop, h.select_eq]
      cases t.select n (c.input.front?.getD .endMarker) c.input.position with
      | error r => rfl
      | ok p =>
        simp [Except.map, Turn.refiledAfter, Configuration.refiledAfter, htop,
          Production.expansion_refiled]
    | terminal a | endMarker | epsilon =>
      simp only [next, htop]
      split
      · rfl
      · split
        · simp [Turn.refiledAfter, Configuration.refiledAfter, htop]
        · rfl

theorem next_with_applied (t : Table) (c : Configuration) (p : Option Production) :
    t.next { c with applied := p } = t.next c := rfl

theorem Refiled.executes (h : t.Refiled t') {trace : Trace} {rejection : Option Rejection}
    (hexec : t.Executes limit c trace rejection) (p : Option Production) :
    t'.Executes limit { c with applied := p }
      ({ c with applied := p } :: List.zipWith Configuration.refiledAfter trace trace.tail)
      rejection := by
  induction hexec generalizing p with
  | accepted hnext =>
    exact .accepted (by rw [next_with_applied, h.next_eq, hnext]; rfl)
  | stuck hnext =>
    exact .stuck (by rw [next_with_applied, h.next_eq, hnext]; rfl)
  | @halted c c' n hnext hn =>
    have hstep : (c.refiledAfter c').step = c'.step := by rw [Configuration.refiledAfter_eq]
    exact .halted (by rw [next_with_applied, h.next_eq, hnext]; rfl) (by rw [hstep]; exact hn)
  | @moved c c' trace rejection hnext hn hrest ih =>
    have hstep : (c.refiledAfter c').step = c'.step := by rw [Configuration.refiledAfter_eq]
    have hlater := ih (c.refiledAfter c').applied
    rw [← Configuration.refiledAfter_eq] at hlater
    obtain ⟨more, rfl⟩ := hrest.head
    refine .moved ?_ (by rw [hstep]; exact hn) hlater
    rw [next_with_applied, h.next_eq, hnext]
    rfl

theorem Refiled.exists_executes (h : t.Refiled t') {d : Configuration} {trace : Trace}
    {rejection : Option Rejection} (hexec : t'.Executes limit d trace rejection)
    {p : Option Production} (hd : d = { c with applied := p }) :
    ∃ trace', t.Executes limit c trace' rejection := by
  induction hexec generalizing c p with
  | accepted hnext =>
    rw [hd, next_with_applied, h.next_eq, Turn.refiledAfter_eq_accepted] at hnext
    exact ⟨[c], .accepted hnext⟩
  | stuck hnext =>
    rw [hd, next_with_applied, h.next_eq, Turn.refiledAfter_eq_stuck] at hnext
    exact ⟨[c], .stuck hnext⟩
  | halted hnext hn =>
    rw [hd, next_with_applied, h.next_eq, Turn.refiledAfter_eq_moved] at hnext
    obtain ⟨c', hnext, rfl⟩ := hnext
    rw [Configuration.refiledAfter_eq] at hn
    exact ⟨[c], .halted hnext hn⟩
  | moved hnext hn _ ih =>
    rw [hd, next_with_applied, h.next_eq, Turn.refiledAfter_eq_moved] at hnext
    obtain ⟨c', hnext, rfl⟩ := hnext
    rw [Configuration.refiledAfter_eq] at hn
    obtain ⟨trace', hrest⟩ := ih (Configuration.refiledAfter_eq c c')
    exact ⟨c :: trace', .moved hnext hn hrest⟩

variable {start : NonTerminal} {tokens : List Terminal} {cs : Trace}

theorem Refiled.drive_eq (h : t.Refiled t') (start : NonTerminal) (tokens : List Terminal)
    (limit : Option Nat) : t'.drive start tokens limit =
      (t.drive start tokens limit).map (Except.map Trace.refiled) := by
  cases hdrive : t.drive start tokens limit with
  | none =>
    refine Classical.byContradiction fun hne => ?_
    obtain ⟨trace, rejection, hexec⟩ := drive_ne_none_iff.mp hne
    obtain ⟨trace', hexec'⟩ := h.exists_executes (c := .initial start tokens) (p := none) hexec rfl
    exact drive_ne_none_iff.mpr ⟨trace', rejection, hexec'⟩ hdrive
  | some outcome =>
    cases outcome with
    | error e =>
      obtain ⟨trace, hexec⟩ := drive_eq_error_iff.mp hdrive
      exact drive_eq_error_iff.mpr ⟨_, h.executes hexec none⟩
    | ok cs =>
      have hexec := drive_eq_ok_iff.mp hdrive
      obtain ⟨rest, rfl⟩ := hexec.head
      exact drive_eq_ok_iff.mpr (h.executes hexec none)

theorem getElem?_refiled_of_drive (h : t.drive start tokens limit = some (.ok cs)) {i : Nat}
    (hi : cs[i]? = some c) : ∃ c', cs.refiled[i]? = some c' ∧
      c' = { c with applied := c'.applied } ∧
      (c.applied = none ∧ c'.applied = none ∨
        ∃ j before n p, i = j + 1 ∧ cs[j]? = some before ∧
          before.stack.top? = some (.nonterminal n) ∧ c.applied = some p ∧
          c'.applied = some (p.refiled n)) := by
  have htraces := traces_iff_accepts.mpr (accepts_of_drive h)
  cases i with
  | zero =>
    obtain ⟨rest, rfl⟩ := List.head?_eq_some_iff.mp htraces.first
    cases hi
    exact ⟨_, rfl, rfl, .inl ⟨rfl, rfl⟩⟩
  | succ j =>
    obtain ⟨before, hbefore, hmove⟩ := htraces.exists_before hi
    refine ⟨before.refiledAfter c, ?_, Configuration.refiledAfter_eq before c, ?_⟩
    · rw [Trace.getElem?_refiled_succ, hbefore, hi]
      rfl
    · cases hmove with
      | @expand _ n _ _ p top =>
        have htop : before.stack.top? = some (.nonterminal n) := by simp [Stack.top?, top]
        right
        exact ⟨j, before, n, p, rfl, hbefore, htop, rfl, Configuration.refiledAfter_of_top htop⟩
      | consume top => exact .inl ⟨rfl, Configuration.refiledAfter_of_none rfl⟩

/-- Writing a table out and building it again never changes what it accepts, where it fails,
or any stack and input on the way. -/
theorem drive_reloaded {first : Option String}
    (h : (Document.ofTable first t).toTable = .ok t') (start : NonTerminal)
    (tokens : List Terminal) (limit : Option Nat) :
    t'.drive start tokens limit = (t.drive start tokens limit).map (Except.map Trace.refiled) ∧
    ∀ cs, t.drive start tokens limit = some (.ok cs) → cs.refiled.length = cs.length ∧
      ∀ i c, cs[i]? = some c → ∃ c', cs.refiled[i]? = some c' ∧ c'.step = c.step ∧
        c'.stack = c.stack ∧ c'.input = c.input ∧
        (c.applied = none ∧ c'.applied = none ∨
          ∃ j before n p, i = j + 1 ∧ cs[j]? = some before ∧
            before.stack.top? = some (.nonterminal n) ∧ c.applied = some p ∧
            c'.applied = some (p.refiled n)) := by
  have hrefiled := refiled_of_toTable h
  refine ⟨hrefiled.drive_eq start tokens limit, fun cs hcs => ⟨cs.length_refiled, ?_⟩⟩
  intro i c hi
  obtain ⟨c', hi', hsame, happ⟩ := getElem?_refiled_of_drive hcs hi
  exact ⟨c', hi', by rw [hsame], by rw [hsame], by rw [hsame], happ⟩

end Table

namespace Letters

/-- The word of one letter, in a table whose last production has another row's left side and
no symbols at all. -/
theorem drive_reloaded_letter :
    (Document.ofTable none (table ⟨other, []⟩)).toTable = .ok (table (.empty word)) ∧
    (table (.empty word)).drive word [letter] none =
      ((table ⟨other, []⟩).drive word [letter] none).map (Except.map Trace.refiled) ∧
    ∃ cs, (table ⟨other, []⟩).drive word [letter] none = some (.ok cs) ∧
      cs.refiled.productions = [more, .empty word] := by
  have hsaved : (Document.ofTable none (table ⟨other, []⟩)).toTable =
      .ok (table (.empty word)) := by rfl
  exact ⟨hsaved, (Table.drive_reloaded hsaved word [letter] none).1, _, rfl, rfl⟩

end Letters

end Predictive
