import Predictive.Proofs.Automaton.Outcome
import Predictive.Proofs.Table.Proper

/-! How far a failing run looks. The position of a syntax error is the number of tokens that
were consumed, the lookahead in it is what stands there, and nothing behind that place was
looked at: every input that begins the same way, that lookahead included, fails in the same
way. This holds for every table and every ceiling. -/

namespace Predictive

open Predictive.Configuration

def Rejection.lookahead? : Rejection → Option Lookahead
  | mismatch _ _ found => some found
  | noEntry _ _ lookahead _ => some lookahead
  | _ => none

theorem Lookahead.first_append_congr (mid : List Terminal) {rest rest' : List Terminal}
    (h : first rest' = first rest) : first (mid ++ rest') = first (mid ++ rest) := by
  cases mid with
  | nil => exact h
  | cons a mid => rfl

namespace Table

variable {t : Table} {limit : Option Nat} {c d : Configuration} {upper : List Symbol}
  {read unread unread' : List Terminal} {e : Rejection} {position : Nat}

theorem Rejects.position_eq (h : t.Rejects position c e) {p : Nat} (hp : e.position? = some p) :
    p = position := by
  cases h with
  | missingRow => cases hp
  | absent | marked | mismatch =>
    cases hp
    rfl

theorem Rejects.lookahead_eq (h : t.Rejects position c e) {p : Nat} (hp : e.position? = some p) :
    e.lookahead? = c.input.front? := by
  cases h with
  | missingRow => cases hp
  | absent top row front => exact front.symm
  | marked top front => exact front.symm
  | mismatch top other front => exact front.symm

theorem next_eq_stuck_of_at (hc : c.At upper read unread) (hd : d.At upper read unread')
    (hfirst : Lookahead.first unread' = .first unread) (h : t.next c = .stuck e) :
    t.next d = .stuck e := by
  have hstack : d.stack = c.stack := Stack.ext (hd.stack.trans hc.stack.symm)
  have hfront : d.input.front? = c.input.front? := by rw [hd.front, hc.front, hfirst]
  have hposition : d.input.position = c.input.position := by rw [hd.input, hc.input]; rfl
  simp only [next] at h ⊢
  rw [hstack, hfront, hposition]
  split at h
  · cases h
  · split at h
    · next hselect => simpa [hselect] using h
    · cases h
  · split at h
    · cases h
    · next hend =>
      split at h
      · cases h
      · next haccepts => simpa [hend, haccepts] using h

theorem Move.copied {c' : Configuration} (h : t.Move c c') (hc : c.At upper read unread) :
    ∃ upper' used left, unread = used ++ left ∧ c'.At upper' (read ++ used) left ∧
      ∀ d left', d.At upper read (used ++ left') → Lookahead.first left' = .first left →
        ∃ d', t.Move d d' ∧ d'.At upper' (read ++ used) left' := by
  obtain ⟨n, below, q, rfl, hcell, -, hat⟩ | ⟨a, below, rest, rfl, rfl, -, hat⟩ := h.cases_at hc
  · refine ⟨q.expansion ++ below, [], unread, rfl, by rwa [List.append_nil], ?_⟩
    intro d left' hd hfirst
    rw [← hfirst] at hcell
    rw [List.append_nil]
    exact move_expand hd hcell
  · exact ⟨below, [a], rest, rfl, hat, fun d left' hd _ => move_consume hd⟩

theorem Executes.moved_of_move {c' : Configuration} {trace : Trace} {rejection : Option Rejection}
    (h : t.Move c c') (hn : limit.filter (· < c.step + 1) = none)
    (rest : t.Executes limit c' trace rejection) : t.Executes limit c (c :: trace) rejection :=
  .moved (next_of_move h) (by rw [h.step_eq]; exact hn) rest

/-- Where a run fails the input splits: the front of the second part is the lookahead of the
error, and that part may go on in any other way. -/
theorem Executes.failure_split {trace : Trace} {rejection : Option Rejection}
    (h : t.Executes limit c trace rejection) (he : rejection = some e) {p : Nat}
    (hp : e.position? = some p) (hc : c.At upper read unread) :
    ∃ mid rest, unread = mid ++ rest ∧ p = read.length + mid.length ∧
      e.lookahead? = some (.first rest) ∧
      ∀ d rest', d.At upper read (mid ++ rest') → d.step = c.step →
        Lookahead.first rest' = .first rest → ∃ trace', t.Executes limit d trace' (some e) := by
  induction h generalizing upper read unread with
  | accepted => cases he
  | @stuck c r hnext =>
    cases he
    obtain ⟨-, hrejects⟩ := rejects_of_next hc hnext
    refine ⟨[], unread, rfl, hrejects.position_eq hp, ?_, fun d rest' hd _ hfirst => ?_⟩
    · rw [hrejects.lookahead_eq hp, hc.front]
    · exact ⟨[d], .stuck (next_eq_stuck_of_at hc hd hfirst hnext)⟩
  | halted =>
    cases he
    cases hp
  | @moved c c' trace rejection hnext hn _ ih =>
    have hmove := move_of_next hc hnext
    rw [hmove.step_eq] at hn
    obtain ⟨upper', used, left, rfl, hat, hcopy⟩ := hmove.copied hc
    obtain ⟨mid, rest, rfl, hpos, hlook, hsame⟩ := ih he hat
    refine ⟨used ++ mid, rest, by rw [List.append_assoc], ?_, hlook, ?_⟩
    · rw [List.length_append] at hpos ⊢
      omega
    · intro d rest' hd hstep hfirst
      rw [List.append_assoc] at hd
      have hleft := Lookahead.first_append_congr mid hfirst
      obtain ⟨d', hmove', hat'⟩ := hcopy d (mid ++ rest') hd hleft
      have hstep' : d'.step = c'.step := by rw [hmove'.step_eq, hmove.step_eq, hstep]
      obtain ⟨trace', hrest⟩ := hsame d' rest' hat' hstep' hfirst
      exact ⟨d :: trace', .moved_of_move hmove' (by rw [hstep]; exact hn) hrest⟩

variable {start : NonTerminal} {tokens : List Terminal}

theorem drive_error_split {p : Nat} (h : t.drive start tokens limit = some (.error e))
    (hp : e.position? = some p) :
    ∃ mid rest, tokens = mid ++ rest ∧ p = mid.length ∧ e.lookahead? = some (.first rest) ∧
      ∀ rest', Lookahead.first rest' = .first rest →
        t.drive start (mid ++ rest') limit = some (.error e) := by
  obtain ⟨trace, hexec⟩ := drive_eq_error_iff.mp h
  obtain ⟨mid, rest, htokens, hpos, hlook, hsame⟩ :=
    hexec.failure_split rfl hp (initial_at start tokens)
  refine ⟨mid, rest, htokens, by simpa using hpos, hlook, fun rest' hfirst => ?_⟩
  exact drive_eq_error_iff.mpr (hsame _ rest' (initial_at start (mid ++ rest')) rfl hfirst)

/-- Where a syntax error is reported, and that nothing behind that place has a say in it: all
inputs that agree up to and at the place, of whatever length, fail with the same error. -/
theorem drive_error_local {p : Nat} (h : t.drive start tokens limit = some (.error e))
    (hp : e.position? = some p) :
    p ≤ tokens.length ∧ e.lookahead? = (tokens.map .terminal ++ [.endMarker])[p]? ∧
    (p < tokens.length → ∀ tokens', tokens'.take (p + 1) = tokens.take (p + 1) →
      t.drive start tokens' limit = some (.error e)) := by
  obtain ⟨mid, rest, rfl, rfl, hlook, hsame⟩ := drive_error_split h hp
  refine ⟨by simp, hlook.trans (Lookahead.getElem?_first mid rest).symm, ?_⟩
  intro hlt tokens' htake
  cases rest with
  | nil => simp at hlt
  | cons a more =>
    have hread : (mid ++ a :: more).take (mid.length + 1) = mid ++ [a] := by
      rw [List.take_length_add_append, List.take_succ_cons, List.take_zero]
    have htokens' : tokens' = mid ++ a :: tokens'.drop (mid.length + 1) := by
      rw [← List.singleton_append, ← List.append_assoc, ← hread, ← htake,
        List.take_append_drop]
    rw [htokens']
    exact hsame _ rfl

end Table

namespace Letters

theorem stray_letter_reported :
    (table (.empty word)).drive word [letter, stray] (some 2) =
      some (.error (.noEntry 1 word (.terminal stray) .absent)) ∧
    (table (.empty word)).drive word [letter, stray, letter, stray] (some 2) =
      some (.error (.noEntry 1 word (.terminal stray) .absent)) := by
  have hfails : (table (.empty word)).drive word [letter, stray] (some 2) =
      some (.error (.noEntry 1 word (.terminal stray) .absent)) := by rfl
  exact ⟨hfails, (Table.drive_error_local hfails rfl).2.2 (by decide) _ rfl⟩

end Letters

end Predictive
