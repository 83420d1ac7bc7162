import Predictive.Proofs.Json.Records
import Predictive.Proofs.Table.Refusals

/-! Productions that are read against productions that are made. A saved production is taken as
it stands as soon as its left side names a nonterminal, while a production made from the same
texts has passed the checks of its right side and has an empty one marked. So what is read is
what would have been made only for right sides that pass the checks and are not empty, and only
these are proper. -/

namespace Predictive

open Json (Reader Style outline)

namespace Production

def textsToJson (left : String) (right : List String) : Json :=
  .object [("left", .text left), ("right", .list (right.map .text))]

def ofAllTexts (left : String) (right : List String) : Except GrammarError Production := do
  ofTexts (← NonTerminal.ofText left) right

theorem read_right (b : Nat) (right : List String) :
    Reader.list .symbol (b + 1) (outline (.list (right.map .text))) =
      .ok (right.map Symbol.ofText) := by
  have hread := (Reader.yields_symbols b (right.map Symbol.ofText)).given
  have htexts : (right.map Symbol.ofText).map (.text ·.text) = right.map Json.text := by
    simp [Function.comp_def, Symbol.text_ofText]
  rwa [htexts] at hread

theorem run_reader_texts (style : Style) (left : String) (right : List String) :
    Reader.run reader (.ofList (Json.write style 0 (textsToJson left right) [])) =
      match NonTerminal.ofText left with
      | .ok n => .ok ⟨n, right.map Symbol.ofText⟩
      | .error e => .error (.shape (some e)) := by
  rw [Reader.run_write]
  cases hleft : NonTerminal.ofText left with
  | ok n =>
    obtain ⟨hcapital, rfl⟩ := NonTerminal.ofText_eq_ok.mp hleft
    exact reader_fields (p := ⟨n, right.map Symbol.ofText⟩) (ne_empty_of_capitalized hcapital)
      (read_right 125 right)
  | error e =>
    have hnamed : Reader.nonterminal 126 (outline (.text left)) = .error (.shape (some e)) := by
      simp only [Reader.nonterminal, Reader.named, outline, Reader.text, bind, Except.bind, hleft]
    have hknown : Draft.known 126 ⟨none, none⟩ "left" =
        some (Reader.once none (Reader.nonterminal 126) fun n => ⟨some n, none⟩) := rfl
    change (Reader.fields (Draft.known 126) ⟨none, none⟩
      ((some "left", outline (.text left)) :: _) none).bind Draft.finish = _
    rw [Reader.fields_once_error hknown hnamed]
    rfl

theorem proper_ofTexts_iff (n : NonTerminal) (right : List String) :
    (⟨n, right.map Symbol.ofText⟩ : Production).Proper ↔ right ≠ [] ∧ Readable right := by
  constructor
  · intro h
    refine ⟨fun hnil => h.right_ne_nil (hnil ▸ rfl), ?_⟩
    have hmade : ofTexts n right = .ok ⟨n, right.map Symbol.ofText⟩ := ofSymbols_of_proper h
    exact (judged_ofTexts n right).exists_ok_iff.mp ⟨_, hmade⟩
  · rintro ⟨hne, hright⟩
    obtain ⟨p, hp⟩ := (judged_ofTexts n right).accepts hright
    have hproper := (proper_of_ofSymbols hp).2
    cases right with
    | nil => exact absurd rfl hne
    | cons text rest =>
      cases eq_of_ofSymbols hp
      exact hproper

theorem ofTexts_eq_ok_iff (n : NonTerminal) (right : List String) :
    ofTexts n right = .ok ⟨n, right.map Symbol.ofText⟩ ↔ right ≠ [] ∧ Readable right := by
  rw [← proper_ofTexts_iff n]
  exact ⟨fun h => (proper_of_ofSymbols h).2, ofSymbols_of_proper⟩

theorem ofAllTexts_of_ok {left : String} {n : NonTerminal} (h : NonTerminal.ofText left = .ok n)
    (right : List String) : ofAllTexts left right = ofTexts n right := by
  simp only [ofAllTexts, h, bind, Except.bind]

theorem proper_of_ofAllTexts {left : String} {right : List String} {p : Production}
    (h : ofAllTexts left right = .ok p) : p.Proper := by
  obtain ⟨n, -, hp⟩ := bind_eq_ok.mp h
  exact (proper_of_ofSymbols hp).2

/-- Reading a saved production agrees with making one just where the left side is refused by
both, or the right side is not empty and passes the checks. What was made is always proper; what
was read is so under the same condition on its right side. -/
theorem read_as_made_iff (style : Style) (left : String) (right : List String) :
    ((∀ p, Reader.run reader (.ofList (Json.write style 0 (textsToJson left right) [])) = .ok p ↔
        ofAllTexts left right = .ok p) ↔
      (Capitalized left → right ≠ [] ∧ Readable right)) ∧
    (∀ p, ofAllTexts left right = .ok p → p.Proper) ∧
    ∀ p, Reader.run reader (.ofList (Json.write style 0 (textsToJson left right) [])) = .ok p →
      (p.Proper ↔ right ≠ [] ∧ Readable right) := by
  rw [run_reader_texts]
  refine ⟨?_, fun p => proper_of_ofAllTexts, ?_⟩
  · cases hleft : NonTerminal.ofText left with
    | ok n =>
      have hcapital := (NonTerminal.ofText_eq_ok.mp hleft).1
      rw [ofAllTexts_of_ok hleft, ← ofTexts_eq_ok_iff n]
      constructor
      · exact fun h _ => (h _).mp rfl
      · exact fun h p => by simp only [h hcapital, Except.ok.injEq]
    | error e =>
      have hcapital := (NonTerminal.judged_ofText left).exists_error_iff.mp ⟨e, hleft⟩
      refine iff_of_true (fun p => iff_of_false nofun fun h => ?_) fun h => absurd h hcapital
      obtain ⟨n, hn, -⟩ := bind_eq_ok.mp h
      cases hleft.symm.trans hn
  · cases hleft : NonTerminal.ofText left with
    | ok n =>
      rintro p ⟨⟩
      exact proper_ofTexts_iff n right
    | error e => exact nofun

/-- An empty right side, a mixed one, the end marker and the empty text are all read. -/
theorem read_unlike_made :
    (textsToJson "S" []).compact = "\x7b\"left\":\"S\",\"right\":[]\x7d" ∧
    Reader.run reader (textsToJson "S" []).compact = .ok ⟨Letters.word, []⟩ ∧
    ofAllTexts "S" [] = .ok (empty Letters.word) ∧
    (∀ right ∈ [[], ["a", "ε"], ["a", "$"], [""]],
      Reader.run reader (textsToJson "S" right).compact =
        .ok ⟨Letters.word, right.map Symbol.ofText⟩ ∧
      ofAllTexts "S" right ≠ .ok ⟨Letters.word, right.map Symbol.ofText⟩ ∧
      ¬ (⟨Letters.word, right.map Symbol.ofText⟩ : Production).Proper) ∧
    ¬ ∀ (left : String) (right : List String) (p : Production),
      Reader.run reader (textsToJson left right).compact = .ok p ↔
        ofAllTexts left right = .ok p := by
  have hword : NonTerminal.ofText "S" = .ok Letters.word := rfl
  have hread : ∀ right, Reader.run reader (textsToJson "S" right).compact =
      .ok ⟨Letters.word, right.map Symbol.ofText⟩ := by
    intro right
    rw [Json.compact, run_reader_texts, hword]
  have hbad : ∀ right ∈ [[], ["a", "ε"], ["a", "$"], [""]], ¬ (right ≠ [] ∧ Readable right) := by
    decide
  refine ⟨rfl, hread [], rfl, fun right hright => ⟨hread right, ?_, ?_⟩, fun h => ?_⟩
  · rw [ofAllTexts_of_ok hword, Ne, ofTexts_eq_ok_iff]
    exact hbad right hright
  · rw [proper_ofTexts_iff]
    exact hbad right hright
  · cases ((h "S" [] _).mp (hread []))

end Production

end Predictive
