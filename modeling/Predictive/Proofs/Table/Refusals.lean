import Predictive.Proofs.Table.Documents

/-! Which texts are refused, and with which error. The conditions are on the texts alone: how one
begins, and where the two markers stand in a right side. Each reader is judged by them, and an
edit is refused for the first of its texts that is. -/

namespace Predictive

/-- The computation succeeds when it should, and gives the error that it should otherwise. -/
structure Judged {ε α : Type} (x : Except ε α) (sound : Prop) (refused : ε → Prop) : Prop where
  accepts : sound → ∃ a, x = .ok a
  refuses : ∀ e, refused e → x = .error e
  covers : sound ∨ ∃ e, refused e

section Judged

variable {ε α : Type} {x : Except ε α} {sound : Prop} {refused : ε → Prop}

theorem Judged.eq_error_iff (h : Judged x sound refused) {e : ε} :
    x = .error e ↔ refused e := by
  refine ⟨fun hx => ?_, h.refuses e⟩
  obtain hsound | ⟨e', he'⟩ := h.covers
  · obtain ⟨a, ha⟩ := h.accepts hsound
    cases ha.symm.trans hx
  · cases (h.refuses e' he').symm.trans hx
    exact he'

theorem Judged.exists_ok_iff (h : Judged x sound refused) : (∃ a, x = .ok a) ↔ sound := by
  refine ⟨fun hx => ?_, h.accepts⟩
  obtain ⟨a, ha⟩ := hx
  obtain hsound | ⟨e, he⟩ := h.covers
  · exact hsound
  · cases (h.refuses e he).symm.trans ha

theorem Judged.exists_error_iff (h : Judged x sound refused) : (∃ e, x = .error e) ↔ ¬ sound := by
  rw [← h.exists_ok_iff]
  cases x <;> simp

end Judged

def Capitalized (text : String) : Prop :=
  ∃ c rest, text.toList = c :: rest ∧ 'A' ≤ c ∧ c ≤ 'Z'

theorem ne_empty_of_capitalized {text : String} (h : Capitalized text) : text ≠ "" := by
  rintro rfl
  obtain ⟨c, rest, hc, -⟩ := h
  cases hc

theorem isTerminalText_iff {text : String} :
    isTerminalText text = true ↔ text ≠ "" ∧ ¬ Capitalized text := by
  cases h : text.toList with
  | nil =>
    have hempty : text = "" := String.toList_eq_nil_iff.mp h
    simp [isTerminalText, hempty]
  | cons c rest =>
    have hne : text ≠ "" := by
      rintro rfl
      cases h
    have hupper : c.isUpper = true ↔ 'A' ≤ c ∧ c ≤ 'Z' := decide_eq_true_iff
    simp [isTerminalText, Capitalized, h, hne, ← hupper]

instance (text : String) : Decidable (Capitalized text) :=
  decidable_of_iff (text ≠ "" ∧ ¬ isTerminalText text = true) <| by
    rw [isTerminalText_iff]
    constructor
    · exact fun h => not_not.mp fun hc => h.2 ⟨h.1, hc⟩
    · exact fun h => ⟨ne_empty_of_capitalized h, fun ht => ht.2 h⟩

namespace NonTerminal

inductive Refuses : String → GrammarError → Prop
  | empty : Refuses "" .emptySymbol
  | terminal {text : String} (nonempty : text ≠ "") (h : ¬ Capitalized text) :
      Refuses text (.notANonterminal text)

theorem judged_ofText (text : String) : Judged (ofText text) (Capitalized text) (Refuses text) where
  accepts h := by
    have hne := ne_empty_of_capitalized h
    have hterminal : ¬ isTerminalText text = true := fun ht => (isTerminalText_iff.mp ht).2 h
    exact ⟨⟨text, named_nonterminal hterminal⟩, by simp [ofText, hne, hterminal]⟩
  refuses e h := by
    cases h with
    | empty => rfl
    | terminal hne h => simp [ofText, hne, isTerminalText_iff.mpr ⟨hne, h⟩]
  covers := by
    by_cases h : Capitalized text
    · exact .inl h
    · obtain rfl | hne := eq_or_ne text ""
      · exact .inr ⟨_, .empty⟩
      · exact .inr ⟨_, .terminal hne h⟩

theorem ofText_eq_ok {text : String} {n : NonTerminal} :
    ofText text = .ok n ↔ Capitalized text ∧ n.text = text := by
  constructor
  · intro h
    exact ⟨(judged_ofText text).exists_ok_iff.mp ⟨n, h⟩, text_of_ofText h⟩
  · intro h
    obtain ⟨n', hn'⟩ := (judged_ofText text).accepts h.1
    rw [hn', NonTerminal.ext ((text_of_ofText hn').trans h.2.symm)]

end NonTerminal

namespace Lookahead

def Readable (text : String) : Prop :=
  text = endMarkerText ∨ text ≠ "" ∧ text ≠ emptyMarkerText ∧ ¬ Capitalized text

instance (text : String) : Decidable (Readable text) :=
  inferInstanceAs (Decidable (_ ∨ _ ∧ _ ∧ _))

inductive Refuses : String → GrammarError → Prop
  | empty : Refuses "" .emptySymbol
  | marker : Refuses emptyMarkerText (.reservedSymbol emptyMarkerText)
  | capital {text : String} (h : Capitalized text) : Refuses text (.notATerminal text)

theorem not_capitalized_marker {text : String} (h : text = endMarkerText ∨ text = emptyMarkerText) :
    ¬ Capitalized text := by
  have hterminal : isTerminalText text = true := by
    obtain rfl | rfl := h <;> decide
  exact (isTerminalText_iff.mp hterminal).2

theorem judged_ofText (text : String) : Judged (ofText text) (Readable text) (Refuses text) where
  accepts h := by
    by_cases hend : text = endMarkerText
    · exact ⟨.endMarker, by simp [ofText, hend]⟩
    · obtain ⟨hne, hmarker, hcapital⟩ := h.resolve_left hend
      have hterminal := isTerminalText_iff.mpr ⟨hne, hcapital⟩
      exact ⟨.terminal ⟨text, hterminal, hend, hmarker⟩,
        by simp [ofText, Terminal.ofText, hend, hne, hmarker, hterminal, Except.map]⟩
  refuses e h := by
    cases h with
    | empty => rfl
    | marker => rfl
    | capital h =>
      have hne := ne_empty_of_capitalized h
      have hend : text ≠ endMarkerText := fun he => not_capitalized_marker (.inl he) h
      have hmarker : text ≠ emptyMarkerText := fun he => not_capitalized_marker (.inr he) h
      have hterminal : ¬ isTerminalText text = true := fun ht => (isTerminalText_iff.mp ht).2 h
      simp [ofText, Terminal.ofText, hend, hne, hmarker, hterminal, Except.map]
  covers := by
    by_cases hcapital : Capitalized text
    · exact .inr ⟨_, .capital hcapital⟩
    · obtain rfl | hne := eq_or_ne text ""
      · exact .inr ⟨_, .empty⟩
      · obtain rfl | hmarker := eq_or_ne text emptyMarkerText
        · exact .inr ⟨_, .marker⟩
        · exact .inl (.inr ⟨hne, hmarker, hcapital⟩)

end Lookahead

namespace Production

/-- What may stand on the right: texts of symbols that are no end marker, and the empty marker
only by itself. Nothing at all may stand there too. -/
structure Readable (right : List String) : Prop where
  no_empty_text : "" ∉ right
  no_end_marker : endMarkerText ∉ right
  epsilon_alone : emptyMarkerText ∈ right → right = [emptyMarkerText]

instance (right : List String) : Decidable (Readable right) :=
  decidable_of_iff ("" ∉ right ∧ endMarkerText ∉ right ∧
      (emptyMarkerText ∈ right → right = [emptyMarkerText]))
    ⟨fun h => ⟨h.1, h.2.1, h.2.2⟩, fun h => ⟨h.1, h.2, h.3⟩⟩

inductive Refuses (left : NonTerminal) (right : List String) : GrammarError → Prop
  | empty (h : "" ∈ right) : Refuses left right .emptySymbol
  | endMarker (no_empty : "" ∉ right) (h : endMarkerText ∈ right) :
      Refuses left right (.endMarkerInProduction left)
  | mixed (no_empty : "" ∉ right) (no_end : endMarkerText ∉ right)
      (h : emptyMarkerText ∈ right) (more : 1 < right.length) :
      Refuses left right (.mixedEpsilon left)

theorem mem_map_ofText {right : List String} {s : Symbol} :
    s ∈ right.map Symbol.ofText ↔ s.text ∈ right := by
  rw [List.mem_map]
  constructor
  · rintro ⟨text, htext, rfl⟩
    rwa [Symbol.text_ofText]
  · exact fun h => ⟨s.text, h, Symbol.ofText_text s⟩

theorem exists_text_eq_empty {right : List String} :
    (∃ s ∈ right.map Symbol.ofText, s.text = "") ↔ "" ∈ right := by
  simp [Symbol.text_ofText]

theorem judged_ofTexts (left : NonTerminal) (right : List String) :
    Judged (ofTexts left right) (Readable right) (Refuses left right) where
  accepts h := by
    have hmixed : ¬ (1 < (right.map Symbol.ofText).length ∧ .epsilon ∈ right.map Symbol.ofText) := by
      rintro ⟨hlength, heps⟩
      rw [h.epsilon_alone (mem_map_ofText.mp heps)] at hlength
      exact Nat.lt_irrefl 1 hlength
    rw [ofTexts, ofSymbols_eq, if_neg (mt exists_text_eq_empty.mp h.no_empty_text),
      if_neg (mt mem_map_ofText.mp h.no_end_marker), if_neg hmixed]
    split <;> exact ⟨_, rfl⟩
  refuses e h := by
    rw [ofTexts, ofSymbols_eq]
    cases h with
    | empty h => rw [if_pos (exists_text_eq_empty.mpr h)]
    | endMarker hempty h =>
      rw [if_neg (mt exists_text_eq_empty.mp hempty), if_pos (mem_map_ofText.mpr h)]
    | mixed hempty hend h more =>
      have hmixed : 1 < (right.map Symbol.ofText).length ∧ .epsilon ∈ right.map Symbol.ofText :=
        ⟨by rwa [List.length_map], mem_map_ofText.mpr h⟩
      rw [if_neg (mt exists_text_eq_empty.mp hempty), if_neg (mt mem_map_ofText.mp hend),
        if_pos hmixed]
  covers := by
    by_cases hempty : "" ∈ right
    · exact .inr ⟨_, .empty hempty⟩
    by_cases hend : endMarkerText ∈ right
    · exact .inr ⟨_, .endMarker hempty hend⟩
    by_cases hmixed : emptyMarkerText ∈ right ∧ 1 < right.length
    · exact .inr ⟨_, .mixed hempty hend hmixed.1 hmixed.2⟩
    refine .inl ⟨hempty, hend, fun heps => ?_⟩
    have hlength : ¬ 1 < right.length := not_and.mp hmixed heps
    cases right with
    | nil => cases heps
    | cons text rest =>
      cases rest with
      | nil => rw [List.mem_singleton.mp heps]
      | cons text' rest => exact absurd (by simp) hlength

end Production

namespace TableEdit

def left : TableEdit → String
  | entry left _ _ => left
  | error left _ => left
  | row left => left

def lookahead? : TableEdit → Option String
  | entry _ lookahead _ => some lookahead
  | error _ lookahead => some lookahead
  | row _ => none

def Valid : TableEdit → Prop
  | entry left lookahead right =>
    Capitalized left ∧ Lookahead.Readable lookahead ∧ Production.Readable right
  | error left lookahead => Capitalized left ∧ Lookahead.Readable lookahead
  | row left => Capitalized left

instance : DecidablePred Valid
  | entry _ _ _ => inferInstanceAs (Decidable (_ ∧ _ ∧ _))
  | error _ _ => inferInstanceAs (Decidable (_ ∧ _))
  | row left => inferInstanceAs (Decidable (Capitalized left))

/-- The row's name is looked at first, then the lookahead, then the right side. -/
inductive Refuses : TableEdit → GrammarError → Prop
  | left {edit : TableEdit} {e : GrammarError} (h : NonTerminal.Refuses edit.left e) :
      Refuses edit e
  | lookahead {edit : TableEdit} {lookahead : String} {e : GrammarError}
      (left : Capitalized edit.left) (mem : lookahead ∈ edit.lookahead?)
      (h : Lookahead.Refuses lookahead e) : Refuses edit e
  | right {n : NonTerminal} {lookahead : String} {right : List String} {e : GrammarError}
      (left : Capitalized n.text) (readable : Lookahead.Readable lookahead)
      (h : Production.Refuses n right e) : Refuses (.entry n.text lookahead right) e

section Read

variable {edit : TableEdit} {n : NonTerminal} {l : Lookahead} {e : GrammarError}
  {left lookahead : String} {right : List String}

theorem read_of_left_refused (h : NonTerminal.ofText edit.left = .error e) :
    edit.read = .error e := by
  cases edit <;> rw [TableEdit.left] at h <;> rw [read, h] <;> rfl

theorem read_of_lookahead_refused (hn : NonTerminal.ofText edit.left = .ok n)
    (hmem : lookahead ∈ edit.lookahead?) (h : Lookahead.ofText lookahead = .error e) :
    edit.read = .error e := by
  cases edit with
  | row left => cases hmem
  | error left lookahead | entry left lookahead right =>
    cases hmem
    rw [TableEdit.left] at hn
    simp only [read, hn, h, bind, Except.bind]

theorem read_entry (hn : NonTerminal.ofText left = .ok n) (hl : Lookahead.ofText lookahead = .ok l) :
    (entry left lookahead right).read =
      (Production.ofTexts n right).map fun p => .cell n l (.production p) := by
  simp only [read, hn, hl, bind, Except.bind]
  rfl

theorem read_error (hn : NonTerminal.ofText left = .ok n) (hl : Lookahead.ofText lookahead = .ok l) :
    (error left lookahead).read = .ok (.cell n l .error) := by
  simp only [read, hn, hl, bind, Except.bind]
  rfl

end Read

theorem judged_read (edit : TableEdit) : Judged edit.read edit.Valid edit.Refuses where
  accepts h := by
    cases edit with
    | row left =>
      obtain ⟨n, hn⟩ := (NonTerminal.judged_ofText left).accepts h
      exact ⟨_, read_row.mpr ⟨n, hn, rfl⟩⟩
    | error left lookahead =>
      obtain ⟨n, hn⟩ := (NonTerminal.judged_ofText left).accepts h.1
      obtain ⟨l, hl⟩ := (Lookahead.judged_ofText lookahead).accepts h.2
      exact ⟨_, read_error hn hl⟩
    | entry left lookahead right =>
      obtain ⟨n, hn⟩ := (NonTerminal.judged_ofText left).accepts h.1
      obtain ⟨l, hl⟩ := (Lookahead.judged_ofText lookahead).accepts h.2.1
      obtain ⟨p, hp⟩ := (Production.judged_ofTexts n right).accepts h.2.2
      exact ⟨_, by rw [read_entry hn hl, hp]; rfl⟩
  refuses e h := by
    cases h with
    | left h => exact read_of_left_refused ((NonTerminal.judged_ofText edit.left).refuses e h)
    | lookahead hleft hmem h =>
      obtain ⟨n, hn⟩ := (NonTerminal.judged_ofText edit.left).accepts hleft
      exact read_of_lookahead_refused hn hmem ((Lookahead.judged_ofText _).refuses e h)
    | @right n lookahead right _ hleft hreadable h =>
      have hn := NonTerminal.ofText_eq_ok.mpr ⟨hleft, rfl⟩
      obtain ⟨l, hl⟩ := (Lookahead.judged_ofText lookahead).accepts hreadable
      rw [read_entry hn hl, (Production.judged_ofTexts n right).refuses e h]
      rfl
  covers := by
    obtain hleft | ⟨e, he⟩ := (NonTerminal.judged_ofText edit.left).covers
    · cases edit with
      | row left => exact .inl hleft
      | error left lookahead =>
        obtain hl | ⟨e, he⟩ := (Lookahead.judged_ofText lookahead).covers
        · exact .inl ⟨hleft, hl⟩
        · exact .inr ⟨e, .lookahead hleft rfl he⟩
      | entry left lookahead right =>
        obtain hl | ⟨e, he⟩ := (Lookahead.judged_ofText lookahead).covers
        · obtain ⟨n, hn⟩ := (NonTerminal.judged_ofText left).accepts hleft
          obtain rfl := NonTerminal.text_of_ofText hn
          obtain hr | ⟨e, he⟩ := (Production.judged_ofTexts n right).covers
          · exact .inl ⟨hleft, hl, hr⟩
          · exact .inr ⟨e, .right hleft hl he⟩
        · exact .inr ⟨e, .lookahead hleft rfl he⟩
    · exact .inr ⟨e, .left he⟩

theorem Refuses.not_valid {edit : TableEdit} {e : GrammarError} (h : edit.Refuses e) :
    ¬ edit.Valid :=
  edit.judged_read.exists_error_iff.mp ⟨e, edit.judged_read.refuses e h⟩

theorem exists_refuses {edit : TableEdit} (h : ¬ edit.Valid) : ∃ e, edit.Refuses e :=
  edit.judged_read.covers.resolve_left h

end TableEdit

end Predictive
