import Predictive.Layout
import Predictive.Proofs.Json.Records
import Predictive.Proofs.Text.Words

/-! The table of a trace loses nothing of it. Each line has four columns between bars, and what
stands in a column are words with blanks around them, however wide it is. When no symbol has
white space or a bar in its text, the columns and their words are found again, and a record is
known from them: the step from its digits, the symbols from their texts, and the production
from the words behind the one that announces it. -/

namespace Predictive

structure Text.Tabular (text : String) : Prop where
  word : IsWord text
  no_bar : '|' ∉ text.toList

instance (text : String) : Decidable (Text.Tabular text) :=
  decidable_of_iff (Text.IsWord text ∧ '|' ∉ text.toList)
    ⟨fun h => ⟨h.1, h.2⟩, fun h => ⟨h.word, h.no_bar⟩⟩

theorem Text.tabular_toString (n : Nat) : Tabular (toString n) := by
  have hdigit : ∀ c ∈ (toString n).toList, c.isDigit = true := by
    intro c hc
    rw [Nat.toString_eq_repr, Nat.toList_repr] at hc
    exact Nat.isDigit_of_mem_toDigits (by decide) (by decide) hc
  refine ⟨⟨Nat.repr_ne_empty, fun c hc => ?_⟩, fun hbar => ?_⟩
  · have hrange : 48 ≤ c.toNat ∧ c.toNat ≤ 57 := Char.isDigit_iff_toNat.mp (hdigit c hc)
    simp only [isWhiteSpace, Bool.or_eq_false_iff, Bool.and_eq_false_iff, beq_eq_false_iff_ne,
      decide_eq_false_iff_not]
    omega
  · have hfalse := hdigit '|' hbar
    exact absurd hfalse (by decide)

theorem toString_inj {n m : Nat} (h : toString n = toString m) : n = m := by
  rw [Nat.toString_eq_repr, Nat.toString_eq_repr, ← String.toList_inj, Nat.toList_repr,
    Nat.toList_repr] at h
  rw [← @Nat.ofDigitChars_ten_toDigits n, h, Nat.ofDigitChars_ten_toDigits]

structure Configuration.Tabular (c : Configuration) : Prop where
  stack : ∀ s ∈ c.stack.toList, Text.Tabular s.text
  input : ∀ l ∈ c.input.unread, Text.Tabular l.text
  left : ∀ p ∈ c.applied, Text.Tabular p.left.text
  right : ∀ p ∈ c.applied, ∀ s ∈ p.right, Text.Tabular s.text

instance (c : Configuration) : Decidable c.Tabular :=
  decidable_of_iff ((∀ s ∈ c.stack.toList, Text.Tabular s.text) ∧
      (∀ l ∈ c.input.unread, Text.Tabular l.text) ∧ (∀ p ∈ c.applied, Text.Tabular p.left.text) ∧
      ∀ p ∈ c.applied, ∀ s ∈ p.right, Text.Tabular s.text)
    ⟨fun h => ⟨h.1, h.2.1, h.2.2.1, h.2.2.2⟩, fun h => ⟨h.stack, h.input, h.left, h.right⟩⟩

namespace Layout

variable {l : Layout} {previous previous' : Option Configuration} {c c' : Configuration}

def blanks (n : Nat) : String := .ofList (List.replicate n ' ')

def Fills (column : String) (ws : List String) : Prop :=
  ∃ before after, column = blanks before ++ spaced ws ++ blanks after

theorem blanks_spaces (n : Nat) : ∀ c ∈ (blanks n).toList, Text.isWhiteSpace c = true := by
  intro c hc
  rw [blanks, String.toList_ofList] at hc
  rw [List.eq_of_mem_replicate hc]
  decide

theorem Fills.words_eq {column : String} {ws : List String} (h : Fills column ws)
    (hws : ∀ w ∈ ws, Text.IsWord w) : Text.words column = ws := by
  obtain ⟨before, after, rfl⟩ := h
  exact Text.words_surrounded hws (blanks_spaces before) (blanks_spaces after)

theorem Fills.not_mem {column : String} {ws : List String} (h : Fills column ws) {x : Char}
    (hx : x ≠ ' ') (hws : ∀ w ∈ ws, x ∉ w.toList) : x ∉ column.toList := by
  obtain ⟨before, after, rfl⟩ := h
  have hspaced : x ∉ (spaced ws).toList := Text.not_mem_intercalate (by simpa using hx) hws
  simp [blanks, hspaced, hx]

theorem words_of_fills {columns : List String} {entries : List (List String)}
    (h : List.Forall₂ Fills columns entries) (hwords : ∀ ws ∈ entries, ∀ w ∈ ws, Text.IsWord w) :
    columns.map Text.words = entries := by
  induction h with
  | nil => rfl
  | cons here _ ih =>
    obtain ⟨hws, hlater⟩ := List.forall_mem_cons.mp hwords
    rw [List.map_cons, here.words_eq hws, ih hlater]

theorem not_mem_of_fills {columns : List String} {entries : List (List String)} {x : Char}
    (h : List.Forall₂ Fills columns entries) (hx : x ≠ ' ')
    (hwords : ∀ ws ∈ entries, ∀ w ∈ ws, x ∉ w.toList) : ∀ s ∈ columns, x ∉ s.toList := by
  induction h with
  | nil => exact List.forall_mem_nil _
  | cons here _ ih =>
    obtain ⟨hws, hlater⟩ := List.forall_mem_cons.mp hwords
    exact List.forall_mem_cons.mpr ⟨here.not_mem hx hws, ih hlater⟩

theorem fills_pad (width : Nat) (ws : List String) :
    Fills (" " ++ pad width (spaced ws) ++ " ") ws := by
  refine ⟨1, width - (spaced ws).length + 1, ?_⟩
  rw [pad, ← String.toList_inj]
  simp [blanks, List.replicate_succ']

def actionWords (previous : Option Configuration) (c : Configuration) : List String :=
  match c.applied with
  | some p => "apply" :: p.left.text :: "→" :: p.right.map Symbol.text
  | none =>
    match previous with
    | some before =>
      if 0 < c.step then "match" :: before.input.front?.toList.map Lookahead.text else ["start"]
    | none => ["start"]

theorem action_eq (previous : Option Configuration) (c : Configuration) :
    action previous c = spaced (actionWords previous c) := by
  cases happ : c.applied with
  | some p =>
    simp only [action, actionWords, happ]
    rw [spaced, String.intercalate_cons_cons]
    rfl
  | none =>
    cases previous with
    | none => simp [action, actionWords, happ, spaced]
    | some before =>
      by_cases hstep : 0 < c.step
      · cases hfront : before.input.front? with
        | none => simp [action, actionWords, happ, hstep, hfront, spaced]
        | some token =>
          simp [action, actionWords, happ, hstep, hfront, spaced, String.intercalate_cons_cons]
      · simp [action, actionWords, happ, hstep, spaced]

def entries (previous : Option Configuration) (c : Configuration) : List (List String) :=
  [[toString c.step], c.stack.toList.map Symbol.text, c.input.unread.map Lookahead.text,
    actionWords previous c]

theorem traceLine_eq (l : Layout) (previous : Option Configuration) (c : Configuration) :
    ∃ columns, traceLine l previous c = "|".intercalate columns ∧
      List.Forall₂ Fills columns (entries previous c) := by
  let stack := spaced (c.stack.toList.map Symbol.text)
  let input := spaced (c.input.unread.map Lookahead.text)
  refine ⟨[pad l.stepWidth (toString c.step) ++ " ", " " ++ pad l.stackWidth stack ++ " ",
    " " ++ pad l.inputWidth input ++ " ", " " ++ spaced (actionWords previous c)], ?_, ?_⟩
  · rw [traceLine, action_eq, ← String.toList_inj]
    simp [stack, input]
  · have hstep : Fills (pad l.stepWidth (toString c.step) ++ " ") [toString c.step] := by
      refine ⟨0, l.stepWidth - (toString c.step).length + 1, ?_⟩
      rw [pad, ← String.toList_inj]
      simp [blanks, spaced, List.replicate_succ']
    have haction : Fills (" " ++ spaced (actionWords previous c)) (actionWords previous c) :=
      ⟨1, 0, by simp [blanks]⟩
    exact .cons hstep (.cons (fills_pad _ _) (.cons (fills_pad _ _) (.cons haction .nil)))

theorem tabular_actionWords (hc : c.Tabular) (hprevious : ∀ b ∈ previous, b.Tabular) :
    ∀ w ∈ actionWords previous c, Text.Tabular w := by
  cases happ : c.applied with
  | some p =>
    simp only [actionWords, happ, List.forall_mem_cons, List.forall_mem_map]
    exact ⟨by decide, hc.left p happ, by decide, hc.right p happ⟩
  | none =>
    cases previous with
    | none =>
      simp only [actionWords, happ]
      decide
    | some before =>
      simp only [actionWords, happ]
      split
      · simp only [List.forall_mem_cons, List.forall_mem_map, Option.mem_toList]
        refine ⟨by decide, fun token htoken => ?_⟩
        exact (hprevious before rfl).input token (List.mem_of_mem_head? htoken)
      · decide

theorem tabular_entries (hc : c.Tabular) (hprevious : ∀ b ∈ previous, b.Tabular) :
    ∀ ws ∈ entries previous c, ∀ w ∈ ws, Text.Tabular w := by
  simp only [entries, List.forall_mem_cons, List.forall_mem_map]
  exact ⟨⟨Text.tabular_toString c.step, List.forall_mem_nil _⟩, hc.stack, hc.input,
    tabular_actionWords hc hprevious, List.forall_mem_nil _⟩

def readLine (line : String) : List (List String) :=
  ((line.split '|').toList.map (·.copy)).map Text.words

theorem readLine_traceLine (hc : c.Tabular) (hprevious : ∀ b ∈ previous, b.Tabular) :
    readLine (traceLine l previous c) = entries previous c := by
  obtain ⟨columns, hline, hcolumns⟩ := traceLine_eq l previous c
  have hentries := tabular_entries hc hprevious
  have hbars : ∀ s ∈ columns, '|' ∉ s.toList :=
    not_mem_of_fills hcolumns (by decide) fun ws hws w hw => (hentries ws hws w hw).no_bar
  have hne : columns ≠ [] := by
    rintro rfl
    cases hcolumns
  have hsplit : (("|".intercalate columns).split '|').toList.map (·.copy) = columns := by
    have hpieces := String.toList_split_intercalate hbars
    rwa [if_neg hne] at hpieces
  rw [readLine, hline, hsplit]
  exact words_of_fills hcolumns fun ws hws w hw => (hentries ws hws w hw).word

theorem newline_not_mem_traceLine (hc : c.Tabular) (hprevious : ∀ b ∈ previous, b.Tabular) :
    '\n' ∉ (traceLine l previous c).toList := by
  obtain ⟨columns, hline, hcolumns⟩ := traceLine_eq l previous c
  rw [hline]
  refine Text.not_mem_intercalate (by decide) (not_mem_of_fills hcolumns (by decide) ?_)
  exact fun ws hws w hw => (tabular_entries hc hprevious ws hws w hw).word.unspaced.not_mem rfl

def readAction : List String → Option (String × List String)
  | "apply" :: left :: _ :: right => some (left, right)
  | _ => none

theorem readAction_actionWords (previous : Option Configuration) (c : Configuration) :
    readAction (actionWords previous c) =
      c.applied.map fun p => (p.left.text, p.right.map Symbol.text) := by
  cases happ : c.applied with
  | some p => simp [actionWords, happ, readAction]
  | none =>
    cases previous with
    | none => simp [actionWords, happ, readAction]
    | some before => by_cases hstep : 0 < c.step <;> simp [actionWords, happ, hstep, readAction]

theorem applied_of_actionWords (h : actionWords previous c = actionWords previous' c') :
    c.applied = c'.applied := by
  have hread := congrArg readAction h
  rw [readAction_actionWords, readAction_actionWords] at hread
  refine Option.map_injective ?_ hread
  intro p q hpq
  rw [Prod.mk.injEq] at hpq
  obtain ⟨hleft, hright⟩ := hpq
  obtain ⟨m, ss⟩ := p
  obtain ⟨n, us⟩ := q
  cases NonTerminal.ext hleft
  cases List.map_injective_iff.mpr (fun _ _ => Symbol.text_injective) hright
  rfl

theorem record_of_entries (h : entries previous c = entries previous' c') :
    c.toRecord = c'.toRecord := by
  simp only [entries, List.cons.injEq, and_true] at h
  obtain ⟨hstep, hstack, hinput, haction⟩ := h
  rw [Configuration.toRecord, Configuration.toRecord, toString_inj hstep,
    List.map_injective_iff.mpr (fun _ _ => Symbol.text_injective) hstack,
    List.map_injective_iff.mpr (fun _ _ => Lookahead.text_injective) hinput,
    applied_of_actionWords haction]

theorem records_of_traceLines {a b : Trace} (ha : ∀ c ∈ a, c.Tabular) (hb : ∀ c ∈ b, c.Tabular)
    (hprevious : ∀ c ∈ previous, c.Tabular) (hprevious' : ∀ c ∈ previous', c.Tabular)
    (h : traceLines l previous a = traceLines l previous' b) : a.toRecords = b.toRecords := by
  induction a generalizing b previous previous' with
  | nil =>
    cases b with
    | nil => rfl
    | cons d b => cases h
  | cons c a ih =>
    cases b with
    | nil => cases h
    | cons d b =>
      obtain ⟨hc, ha⟩ := List.forall_mem_cons.mp ha
      obtain ⟨hd, hb⟩ := List.forall_mem_cons.mp hb
      rw [traceLines, traceLines, List.cons.injEq] at h
      obtain ⟨hline, hlines⟩ := h
      -- A line tells its own record, so what stood before the two need not be related.
      have hentries : entries previous c = entries previous' d := by
        rw [← readLine_traceLine hc hprevious, hline, readLine_traceLine hd hprevious']
      have hrecord := record_of_entries hentries
      have hrecords := ih ha hb (by simpa using hc) (by simpa using hd) hlines
      rw [Trace.toRecords, Trace.toRecords, List.map_cons, List.map_cons, hrecord]
      exact congrArg _ hrecords

theorem newline_not_mem_traceLines {t : Trace} (ht : ∀ c ∈ t, c.Tabular)
    (hprevious : ∀ c ∈ previous, c.Tabular) :
    ∀ s ∈ traceLines l previous t, '\n' ∉ s.toList := by
  induction t generalizing previous with
  | nil => exact List.forall_mem_nil _
  | cons c t ih =>
    obtain ⟨hc, ht⟩ := List.forall_mem_cons.mp ht
    exact List.forall_mem_cons.mpr
      ⟨newline_not_mem_traceLine hc hprevious, ih ht (by simpa using hc)⟩

theorem lines_trace (l : Layout) {t : Trace} (ht : ∀ c ∈ t, c.Tabular) :
    Text.lines (l.trace t) = traceHeader l :: traceRule l :: (traceLines l none t ++ [""]) := by
  apply Text.lines_join_terminated
  have hheader : '\n' ∉ (traceHeader l).toList := by simp [traceHeader, pad]
  have hrule : '\n' ∉ (traceRule l).toList := by simp [traceRule, rule]
  have htrace : ∀ s ∈ traceLines l none t, '\n' ∉ s.toList :=
    newline_not_mem_traceLines ht (by simp)
  exact List.forall_mem_cons.mpr ⟨hheader, List.forall_mem_cons.mpr ⟨hrule, htrace⟩⟩

/-- Traces with the same text are the same, whatever the widths of the columns. -/
theorem trace_injective (l : Layout) {a b : Trace} (ha : ∀ c ∈ a, c.Tabular)
    (hb : ∀ c ∈ b, c.Tabular) (h : l.trace a = l.trace b) :
    (a == b) = true ∧ a.toRecords = b.toRecords := by
  have hlines := congrArg Text.lines h
  rw [lines_trace l ha, lines_trace l hb, List.cons.injEq, List.cons.injEq] at hlines
  have hbody : traceLines l none a = traceLines l none b := List.append_cancel_right hlines.2.2
  have hrecords := records_of_traceLines ha hb (by simp) (by simp) hbody
  exact ⟨Trace.beq_iff.mpr hrecords, hrecords⟩

end Layout

namespace Trace

def arrow : Terminal := ⟨"→", by decide, by decide, by decide⟩

def arrowed : NonTerminal := ⟨"Arrowed", by decide⟩

/-- Steps out of order, an arrow among the symbols of a production, an empty right side and
inputs that stand at different places. -/
def disordered : Trace :=
  [⟨7, .ofList [.epsilon, .ofText "apply"], .ofBuffer [.endMarker, .terminal arrow] 1,
      some ⟨arrowed, [.terminal arrow, .endMarker]⟩⟩,
    ⟨3, .empty, .ofBuffer [.terminal arrow] 4, none⟩,
    ⟨3, .ofList [.ofText "("], .ofBuffer [] 0, some ⟨arrowed, []⟩⟩]

theorem disordered_text_once : (∀ c ∈ disordered, c.Tabular) ∧
    (∀ c ∈ ofRecords disordered.toRecords, c.Tabular) ∧
    Layout.trace ⟨"", 0, 9, 1⟩ disordered =
      Layout.trace ⟨"", 0, 9, 1⟩ (ofRecords disordered.toRecords) ∧
    (disordered == ofRecords disordered.toRecords) = true := by
  have htabular : ∀ c ∈ disordered, c.Tabular := by decide
  have htabular' : ∀ c ∈ ofRecords disordered.toRecords, c.Tabular := by decide
  have htext : Layout.trace ⟨"", 0, 9, 1⟩ disordered =
      Layout.trace ⟨"", 0, 9, 1⟩ (ofRecords disordered.toRecords) := by rfl
  exact ⟨htabular, htabular', htext,
    (Layout.trace_injective ⟨"", 0, 9, 1⟩ htabular htabular' htext).1⟩

end Trace

end Predictive
