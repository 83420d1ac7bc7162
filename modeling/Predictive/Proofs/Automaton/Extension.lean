import Predictive.Proofs.Automaton.Outcome
import Predictive.Proofs.Table.Proper

/-! Tables with more in them. When a second table has every production of the first one in the
same cell, both make the same turn in each configuration for which the first one has a
production, or needs none. The runs therefore agree to the end, unless the first one ends at a
look-up that finds no production; only there can the second one go on differently. -/

namespace Predictive

theorem Rejection.eq_of_fromLookup {e : Rejection} (h : e.fromLookup = true) :
    (∃ n, e = missingRow n) ∨ ∃ position n l hole, e = noEntry position n l hole := by
  cases e with
  | missingRow n => exact .inl ⟨n, rfl⟩
  | noEntry position n l hole => exact .inr ⟨position, n, l, hole, rfl⟩
  | mismatch | stepLimit => cases h

namespace Table

/-- The productions of `t` stand in the same cells of `t'`. Of the other cells and rows of `t'`
nothing is said. -/
def Extends (t' t : Table) : Prop :=
  ∀ n l p, t.production? n l = some p → t'.production? n l = some p

variable {t t' : Table} {start : NonTerminal} {tokens : List Terminal} {limit : Option Nat}
  {c : Configuration} {trace : Trace} {rejection : Option Rejection} {n : NonTerminal}
  {l : Lookahead}

theorem production?_eq_some {p : Production} :
    t.production? n l = some p ↔ t.cell? n l = some (.production p) := by
  rw [production?, Option.bind_eq_some_iff]
  constructor
  · intro h
    obtain ⟨cell, hcell, hp⟩ := h
    cases cell with
    | production q =>
      cases hp
      exact hcell
    | error => cases hp
  · intro h
    exact ⟨_, h, rfl⟩

theorem extends_insert (h : t.production? n l = none) (cell : Cell) :
    (t.insert n l cell).Extends t := by
  intro m k p hp
  have hne : ¬ (m = n ∧ k = l) := by
    rintro ⟨rfl, rfl⟩
    rw [h] at hp
    cases hp
  rwa [production?, cell?_insert_of_ne _ hne]

theorem Extends.select_ok (h : t'.Extends t) {position : Nat} {p : Production}
    (hp : t.select n l position = .ok p) : t'.select n l position = .ok p := by
  rw [select_eq_ok, ← production?_eq_some] at hp ⊢
  exact h n l p hp

theorem Extends.next_eq (h : t'.Extends t) (c : Configuration) :
    t'.next c = t.next c ∨ ∃ r, t.next c = .stuck r ∧ r.fromLookup = true := by
  cases htop : c.stack.top? with
  | none => exact .inl (by simp [next, htop])
  | some s =>
    cases s with
    | nonterminal n =>
      cases hselect : t.select n (c.input.front?.getD .endMarker) c.input.position with
      | ok p => exact .inl (by simp [next, htop, hselect, h.select_ok hselect])
      | error r => exact .inr ⟨r, by simp [next, htop, hselect], fromLookup_of_select hselect⟩
    | terminal | endMarker | epsilon => exact .inl (by simp [next, htop])

theorem Extends.next_of_next (h : t'.Extends t) {turn : Turn} (hnext : t.next c = turn)
    (hkept : ∀ r, turn = .stuck r → r.fromLookup = false) : t'.next c = turn := by
  obtain heq | ⟨r, hstuck, hlookup⟩ := h.next_eq c
  · exact heq.trans hnext
  · cases hlookup.symm.trans (hkept r (hnext.symm.trans hstuck))

theorem Extends.executes (h : t'.Extends t) (hexec : t.Executes limit c trace rejection)
    (hr : ∀ r, rejection = some r → r.fromLookup = false) :
    t'.Executes limit c trace rejection := by
  induction hexec with
  | accepted hnext => exact .accepted (h.next_of_next hnext nofun)
  | @stuck c r hnext =>
    refine .stuck (h.next_of_next hnext fun r' hr' => ?_)
    cases hr'
    exact hr r rfl
  | halted hnext hn => exact .halted (h.next_of_next hnext nofun) hn
  | moved hnext hn _ ih => exact .moved (h.next_of_next hnext nofun) hn (ih hr)

theorem Extends.next_or_executes (h : t'.Extends t) {turn : Turn} (hnext : t'.next c = turn)
    (limit : Option Nat) :
    t.next c = turn ∨ ∃ trace rejection, t.Executes limit c trace rejection := by
  obtain heq | ⟨r, hstuck, -⟩ := h.next_eq c
  · exact .inl (heq.symm.trans hnext)
  · exact .inr ⟨[c], some r, .stuck hstuck⟩

theorem Extends.exists_executes (h : t'.Extends t)
    (hexec : t'.Executes limit c trace rejection) :
    ∃ trace' rejection', t.Executes limit c trace' rejection' := by
  induction hexec with
  | accepted hnext =>
    obtain hsame | hends := h.next_or_executes hnext limit
    · exact ⟨_, _, .accepted hsame⟩
    · exact hends
  | stuck hnext =>
    obtain hsame | hends := h.next_or_executes hnext limit
    · exact ⟨_, _, .stuck hsame⟩
    · exact hends
  | halted hnext hn =>
    obtain hsame | hends := h.next_or_executes hnext limit
    · exact ⟨_, _, .halted hsame hn⟩
    · exact hends
  | moved hnext hn _ ih =>
    obtain hsame | hends := h.next_or_executes hnext limit
    · obtain ⟨trace', rejection', rest⟩ := ih
      exact ⟨_, _, .moved hsame hn rest⟩
    · exact hends

theorem Extends.drive_eq (h : t'.Extends t) (start : NonTerminal) (tokens : List Terminal)
    (limit : Option Nat) : t'.drive start tokens limit = t.drive start tokens limit ∨
      ∃ e, t.drive start tokens limit = some (.error e) ∧ e.fromLookup = true := by
  cases hdrive : t.drive start tokens limit with
  | none =>
    left
    refine Classical.byContradiction fun hne => ?_
    obtain ⟨trace, rejection, hexec⟩ := drive_ne_none_iff.mp hne
    exact drive_ne_none_iff.mpr (h.exists_executes hexec) hdrive
  | some outcome =>
    cases outcome with
    | ok trace => exact .inl (drive_eq_ok_iff.mpr (h.executes (drive_eq_ok_iff.mp hdrive) nofun))
    | error e =>
      cases hlookup : e.fromLookup with
      | true => exact .inr ⟨e, rfl, hlookup⟩
      | false =>
        obtain ⟨trace, hexec⟩ := drive_eq_error_iff.mp hdrive
        refine .inl (drive_eq_error_iff.mpr ⟨trace, h.executes hexec fun r hr => ?_⟩)
        cases hr
        exact hlookup

theorem Extends.drive_eq_of_kept (h : t'.Extends t) {outcome : Except Rejection Trace}
    (hdrive : t.drive start tokens limit = some outcome)
    (hkept : ∀ e, outcome = .error e → e.fromLookup = false) :
    t'.drive start tokens limit = some outcome := by
  obtain heq | ⟨e, herror, hlookup⟩ := h.drive_eq start tokens limit
  · exact heq.trans hdrive
  · cases hdrive.symm.trans herror
    cases hlookup.symm.trans (hkept e rfl)

/-- Driving a table and one that extends it. Acceptance with its trace, a mismatch, the ceiling
and a run without end stay what they are, whatever else the larger table holds; a missing row
or a cell without a production is the only thing that it can change. -/
theorem drive_extended (h : t'.Extends t) (start : NonTerminal) (tokens : List Terminal)
    (limit : Option Nat) :
    (∀ trace, t.drive start tokens limit = some (.ok trace) →
      t'.drive start tokens limit = some (.ok trace)) ∧
    (∀ position expected found,
      t.drive start tokens limit = some (.error (.mismatch position expected found)) →
      t'.drive start tokens limit = some (.error (.mismatch position expected found))) ∧
    (∀ n, t.drive start tokens limit = some (.error (.stepLimit n)) →
      t'.drive start tokens limit = some (.error (.stepLimit n))) ∧
    (t'.drive start tokens limit ≠ t.drive start tokens limit →
      ∃ e, t.drive start tokens limit = some (.error e) ∧
        ((∃ n, e = .missingRow n) ∨ ∃ position n l hole, e = .noEntry position n l hole)) := by
  refine ⟨fun trace hdrive => h.drive_eq_of_kept hdrive nofun,
    fun position expected found hdrive => h.drive_eq_of_kept hdrive ?_,
    fun n hdrive => h.drive_eq_of_kept hdrive ?_, fun hne => ?_⟩
  · rintro _ ⟨⟩
    rfl
  · rintro _ ⟨⟩
    rfl
  · obtain heq | ⟨e, herror, hlookup⟩ := h.drive_eq start tokens limit
    · exact absurd heq hne
    · exact ⟨e, herror, Rejection.eq_of_fromLookup hlookup⟩

end Table

namespace Letters

def widened : Table :=
  (table (.empty word)).insert word (.terminal stray) (.production ⟨word, [.terminal stray]⟩)

theorem widened_outcomes : widened.Extends (table (.empty word)) ∧
    (∃ cs, (table (.empty word)).drive word [letter] none = some (.ok cs) ∧
      widened.drive word [letter] none = some (.ok cs)) ∧
    (∃ cs, widened.drive word [letter, stray] none = some (.ok cs)) ∧
    (table (.empty word)).drive word [letter, stray] none =
      some (.error (.noEntry 1 word (.terminal stray) .absent)) := by
  have hextends : widened.Extends (table (.empty word)) := Table.extends_insert rfl _
  have hdrive : ∃ cs, (table (.empty word)).drive word [letter] none = some (.ok cs) := ⟨_, rfl⟩
  obtain ⟨cs, hcs⟩ := hdrive
  have hkept := (Table.drive_extended hextends word [letter] none).1 cs hcs
  exact ⟨hextends, ⟨cs, hcs, hkept⟩, ⟨_, rfl⟩, rfl⟩

end Letters

end Predictive
