import Mathlib.Data.List.Chain
import Predictive.Proofs.Automaton.MoveBound

/-! What driving a table returns, in terms of its moves alone. A run is there exactly when the
moves come to an end, and then it is the one execution from the initial configuration.
Acceptance is a chain of moves up to the first finished configuration, a rejection is the
reason of a reachable configuration without a move, and no answer means that there is
always another move. -/

namespace Predictive

open Predictive.Configuration Relation

namespace Table

variable {t : Table} {start : NonTerminal} {tokens : List Terminal} {limit : Option Nat}

theorem run_eq_some_iff {r : Run} : t.run start tokens limit = some r ↔
    t.Executes limit (.initial start tokens) r.trace r.rejection := by
  constructor
  · intro h
    obtain ⟨trace, htrace, hexec⟩ := executes_of_runFrom h
    rw [List.reverse_nil, List.nil_append] at htrace
    exact htrace ▸ hexec
  · intro h
    refine runFrom_of_executes h ?_ []
    cases limit with
    | none => exact h.length_le_moveBound
    | some n =>
      have hlen := h.length_le_of_limit (Nat.zero_le n)
      simpa [initial] using hlen

theorem drive_eq_ok_iff {trace : Trace} : t.drive start tokens limit = some (.ok trace) ↔
    t.Executes limit (.initial start tokens) trace none := by
  rw [drive, Option.map_eq_some_iff]
  constructor
  · intro h
    obtain ⟨⟨trace', rejection⟩, hrun, hr⟩ := h
    cases rejection with
    | none =>
      cases hr
      exact run_eq_some_iff.mp hrun
    | some e => cases hr
  · intro h
    exact ⟨⟨trace, none⟩, run_eq_some_iff.mpr h, rfl⟩

theorem drive_eq_error_iff {e : Rejection} : t.drive start tokens limit = some (.error e) ↔
    ∃ trace, t.Executes limit (.initial start tokens) trace (some e) := by
  rw [drive, Option.map_eq_some_iff]
  constructor
  · intro h
    obtain ⟨⟨trace, rejection⟩, hrun, hr⟩ := h
    cases rejection with
    | none => cases hr
    | some e' =>
      cases hr
      exact ⟨trace, run_eq_some_iff.mp hrun⟩
  · intro h
    obtain ⟨trace, h⟩ := h
    exact ⟨⟨trace, some e⟩, run_eq_some_iff.mpr h, rfl⟩

theorem drive_ne_none_iff : t.drive start tokens limit ≠ none ↔
    ∃ trace rejection, t.Executes limit (.initial start tokens) trace rejection := by
  rw [drive, Ne, Option.map_eq_none_iff]
  constructor
  · intro h
    obtain ⟨r, hr⟩ := Option.ne_none_iff_exists'.mp h
    exact ⟨r.trace, r.rejection, run_eq_some_iff.mp hr⟩
  · intro h hnone
    obtain ⟨trace, rejection, h⟩ := h
    have hrun : t.run start tokens limit = some ⟨trace, rejection⟩ := run_eq_some_iff.mpr h
    rw [hnone] at hrun
    cases hrun

variable {c : Configuration} {upper : List Symbol} {read unread : List Terminal}

theorem Executes.accepts {trace : Trace} {rejection : Option Rejection}
    (h : t.Executes limit c trace rejection) (hr : rejection = none)
    (hc : c.At upper read unread) : t.Accepts c trace := by
  induction h generalizing upper read unread with
  | accepted hnext => exact .stop (finished_of_next hc hnext)
  | stuck => cases hr
  | halted => cases hr
  | moved hnext _ _ ih =>
    have hmove := move_of_next hc hnext
    obtain ⟨n, below, p, -, -, -, hat⟩ | ⟨a, below, rest, -, -, -, hat⟩ := hmove.cases_at hc
    · exact .move hmove (ih hr hat)
    · exact .move hmove (ih hr hat)

theorem accepts_of_drive {trace : Trace} (h : t.drive start tokens limit = some (.ok trace)) :
    t.Accepts (.initial start tokens) trace :=
  (drive_eq_ok_iff.mp h).accepts rfl (initial_at start tokens)

theorem drive_of_accepts {trace : Trace} (h : t.Accepts (.initial start tokens) trace) :
    t.drive start tokens none = some (.ok trace) :=
  drive_eq_ok_iff.mpr h.executes

theorem Executes.reaches_end {trace : Trace} {rejection : Option Rejection}
    (h : t.Executes none c trace rejection) (hc : c.At upper read unread) :
    ∃ c', ReflTransGen t.Move c c' ∧ (∀ c'', ¬ t.Move c' c'') ∧
      ∀ e, rejection = some e → t.next c' = .stuck e := by
  induction h generalizing upper read unread with
  | @accepted c hnext =>
    have hf := finished_of_next hc hnext
    exact ⟨c, .refl, fun c'' hm => hm.not_finished hf, by simp⟩
  | @stuck c r hnext =>
    obtain ⟨hs, -⟩ := rejects_of_next hc hnext
    exact ⟨c, .refl, hs.2, by simpa using hnext⟩
  | halted _ hn => simp at hn
  | moved hnext _ _ ih =>
    have hmove := move_of_next hc hnext
    obtain ⟨n, below, p, -, -, -, hat⟩ | ⟨a, below, rest, -, -, -, hat⟩ := hmove.cases_at hc
    · obtain ⟨c', hreach, hend⟩ := ih hat
      exact ⟨c', .head hmove hreach, hend⟩
    · obtain ⟨c', hreach, hend⟩ := ih hat
      exact ⟨c', .head hmove hreach, hend⟩

theorem Executes.of_moves {c' : Configuration} {trace : Trace} {rejection : Option Rejection}
    (hmoves : ReflTransGen t.Move c c') (h : t.Executes none c' trace rejection) :
    ∃ trace', t.Executes none c trace' rejection := by
  induction hmoves using ReflTransGen.head_induction_on with
  | refl => exact ⟨trace, h⟩
  | head hmove _ ih =>
    obtain ⟨trace', h'⟩ := ih
    exact ⟨_, .moved (next_of_move hmove) rfl h'⟩

structure Traces (t : Table) (start : NonTerminal) (tokens : List Terminal)
    (cs : Trace) : Prop where
  first : cs.head? = some (.initial start tokens)
  numbered : ∀ k (c : Configuration), cs[k]? = some c → c.step = k
  moves : cs.IsChain t.Move
  running : ∀ c ∈ cs.dropLast, ¬ c.Finished
  last : ∃ c, cs.getLast? = some c ∧ c.Finished

theorem Accepts.isChain {trace : Trace} (h : t.Accepts c trace) : trace.IsChain t.Move := by
  induction h with
  | stop => exact .singleton _
  | move hmove rest ih =>
    obtain ⟨more, rfl⟩ := rest.head
    exact List.isChain_cons_cons.mpr ⟨hmove, ih⟩

theorem Accepts.numbered {cs : Trace} (h : t.Accepts c cs) (k : Nat) (c' : Configuration)
    (hk : cs[k]? = some c') : c'.step = c.step + k := by
  induction h generalizing k with
  | stop =>
    cases k with
    | zero => cases hk; rfl
    | succ k => cases hk
  | move hmove _ ih =>
    cases k with
    | zero => cases hk; rfl
    | succ k =>
      have hs := ih k hk
      rw [hmove.step_eq] at hs
      omega

theorem Accepts.running {trace : Trace} (h : t.Accepts c trace) :
    ∀ c' ∈ trace.dropLast, ¬ c'.Finished := by
  induction h with
  | stop => simp
  | move hmove rest ih =>
    obtain ⟨more, rfl⟩ := rest.head
    intro c' hc'
    rw [List.dropLast_cons_cons] at hc'
    rcases List.mem_cons.mp hc' with rfl | hc'
    · exact hmove.not_finished
    · exact ih c' hc'

theorem Accepts.exists_last {trace : Trace} (h : t.Accepts c trace) :
    ∃ c', trace.getLast? = some c' ∧ c'.Finished := by
  induction h with
  | stop hf => exact ⟨_, rfl, hf⟩
  | move _ rest ih =>
    obtain ⟨more, rfl⟩ := rest.head
    simpa using ih

theorem accepts_of_isChain {trace : Trace} (hchain : (c :: trace).IsChain t.Move)
    (hlast : ∃ c', (c :: trace).getLast? = some c' ∧ c'.Finished) :
    t.Accepts c (c :: trace) := by
  induction trace generalizing c with
  | nil =>
    obtain ⟨c', hc', hf⟩ := hlast
    cases hc'
    exact .stop hf
  | cons c₁ more ih =>
    obtain ⟨hmove, hrest⟩ := List.isChain_cons_cons.mp hchain
    exact .move hmove (ih hrest (by simpa using hlast))

theorem traces_iff_accepts {trace : Trace} :
    t.Traces start tokens trace ↔ t.Accepts (.initial start tokens) trace := by
  constructor
  · intro h
    obtain ⟨rest, rfl⟩ := List.head?_eq_some_iff.mp h.first
    exact accepts_of_isChain h.moves h.last
  · intro h
    refine ⟨?_, ?_, h.isChain, h.running, h.exists_last⟩
    · obtain ⟨rest, rfl⟩ := h.head
      rfl
    · intro k c hk
      rw [h.numbered k c hk, initial, Nat.zero_add]

theorem exists_executes_of_no_move (hc : c.At upper read unread) (hm : ∀ c', ¬ t.Move c c') :
    ∃ trace rejection, t.Executes none c trace rejection ∧
      (¬ c.Finished → ∃ e, rejection = some e) := by
  obtain ⟨s, top⟩ := hc.top_exists
  obtain hf | ⟨c', hmove⟩ | ⟨r, hr, -⟩ := t.next_cases top hc.front
  · exact ⟨[c], none, .accepted (next_of_finished hf), fun hn => absurd hf hn⟩
  · exact absurd hmove (hm c')
  · exact ⟨[c], some r, .stuck hr, fun _ => ⟨r, rfl⟩⟩

theorem drive_eq_error_iff_rejects {e : Rejection} :
    t.drive start tokens none = some (.error e) ↔
      ∃ c read unread, t.Reaches start tokens c ∧ t.Stuck c ∧ tokens = read ++ unread ∧
        c.input.unread = unread.map .terminal ++ [.endMarker] ∧ t.Rejects read.length c e := by
  rw [drive_eq_error_iff]
  constructor
  · intro h
    obtain ⟨trace, hexec⟩ := h
    obtain ⟨c, hreach, -, hend⟩ := hexec.reaches_end (initial_at start tokens)
    obtain ⟨upper, read, unread, hat, htokens⟩ := Reaches.exists_at hreach
    obtain ⟨hs, hrej⟩ := rejects_of_next hat (hend e rfl)
    exact ⟨c, read, unread, hreach, hs, htokens, by rw [hat.input, Input.after], hrej⟩
  · intro h
    obtain ⟨c, read, unread, hreach, hs, htokens, hunread, hrej⟩ := h
    obtain ⟨upper, read', unread', hat, htokens'⟩ := hreach.exists_at
    have hposition := hat.position_eq (htokens'.symm.trans htokens) hunread
    rw [← hposition] at hrej
    exact Executes.of_moves hreach (.stuck (next_of_rejects hs hrej))

theorem exists_drive_error_iff : (∃ e, t.drive start tokens none = some (.error e)) ↔
    ∃ c, t.Reaches start tokens c ∧ t.Stuck c := by
  constructor
  · intro h
    obtain ⟨e, h⟩ := h
    obtain ⟨c, read, unread, hreach, hs, -⟩ := drive_eq_error_iff_rejects.mp h
    exact ⟨c, hreach, hs⟩
  · intro h
    obtain ⟨c, hreach, hs⟩ := h
    obtain ⟨upper, read, unread, hat, -⟩ := hreach.exists_at
    obtain ⟨trace, rejection, hexec, hrejected⟩ := exists_executes_of_no_move hat hs.2
    obtain ⟨e, rfl⟩ := hrejected hs.1
    exact ⟨e, drive_eq_error_iff.mpr (Executes.of_moves hreach hexec)⟩

theorem drive_eq_none_iff : t.drive start tokens none = none ↔
    ∀ c, t.Reaches start tokens c → ∃ c', t.Move c c' := by
  constructor
  · intro hnone c hreach
    by_contra hm
    obtain ⟨upper, read, unread, hat, -⟩ := hreach.exists_at
    obtain ⟨trace, rejection, hexec, -⟩ :=
      exists_executes_of_no_move hat fun c' hmove => hm ⟨c', hmove⟩
    obtain ⟨trace', hexec'⟩ := Executes.of_moves hreach hexec
    exact drive_ne_none_iff.mpr ⟨trace', rejection, hexec'⟩ hnone
  · intro hm
    by_contra hsome
    obtain ⟨trace, rejection, hexec⟩ := drive_ne_none_iff.mp hsome
    obtain ⟨c, hreach, hend, -⟩ := hexec.reaches_end (initial_at start tokens)
    obtain ⟨c', hmove⟩ := hm c hreach
    exact hend c' hmove

/-- The outcome of driving a table without a ceiling, for every table and input: acceptance,
rejection and divergence, each exactly when the moves say so. -/
theorem drive_outcome_iff (t : Table) (start : NonTerminal) (tokens : List Terminal) :
    (∀ trace, t.drive start tokens none = some (.ok trace) ↔ t.Traces start tokens trace) ∧
    (∀ e, t.drive start tokens none = some (.error e) ↔
      ∃ c read unread, t.Reaches start tokens c ∧ t.Stuck c ∧ tokens = read ++ unread ∧
        c.input.unread = unread.map .terminal ++ [.endMarker] ∧ t.Rejects read.length c e) ∧
    ((∃ e, t.drive start tokens none = some (.error e)) ↔
      ∃ c, t.Reaches start tokens c ∧ t.Stuck c) ∧
    (t.drive start tokens none = none ↔
      ∀ c, t.Reaches start tokens c → ∃ c', t.Move c c') := by
  refine ⟨fun trace => ?_, fun e => drive_eq_error_iff_rejects, exists_drive_error_iff,
    drive_eq_none_iff⟩
  rw [traces_iff_accepts]
  exact ⟨accepts_of_drive, drive_of_accepts⟩

end Table

end Predictive
