import Predictive.Proofs.Json.Nesting
import Predictive.Record.Json

/-! Traces in JSON. A record is read back as it was written when its step fits in 64 bits and
its production has a left side that can be read. Nothing is asked of the symbols: each is
known from its text, so right sides may be empty, mix the empty marker with other symbols
or hold the end marker. A trace that is made again from its records is equal to what it was. -/

namespace Predictive

open Json (Reader Outline outline)

theorem Json.fits_texts {α : Type} (b : Nat) (f : α → String) (xs : List α) :
    (Json.list (xs.map (.text <| f ·))).Fits (b + 1) :=
  .list (by simp [Fits.text])

namespace Json.Reader

theorem yields_symbol (b : Nat) (s : Symbol) : symbol.Yields b (.text s.text) (.ok s) := by
  have hread : symbol b (outline (.text s.text)) = .ok s := by
    rw [symbol, outline, text, Except.map, Symbol.ofText_text]
  exact ⟨hread, hread⟩

theorem yields_symbols (b : Nat) (ss : List Symbol) :
    (list symbol).Yields (b + 1) (.list (ss.map (.text ·.text))) (.ok ss) :=
  .list fun s _ => yields_symbol b s

theorem yields_lookaheads (b : Nat) (ls : List Lookahead) :
    (list lookahead).Yields (b + 1) (.list (ls.map (.text ·.text))) (.ok ls) :=
  .list fun l _ => yields_named (Lookahead.ofText_text l) b

end Json.Reader

namespace Production

variable {b : Nat} {p : Production}

theorem sorted_toJson (p : Production) : p.toJson.sorted =
    .object [("left", .text p.left.text),
      ("right", (Json.list (p.right.map (.text ·.text))).sorted)] := by
  cbv

theorem reader_fields {o : Outline} (h : p.left.text ≠ "")
    (hright : Reader.list .symbol (b + 1) o = .ok p.right) :
    reader (b + 2) (.object [(some "left", outline (.text p.left.text)), (some "right", o)] none) =
      .ok p := by
  have hleft := (Reader.yields_named (NonTerminal.ofText_text p.left h) (b + 1)).given
  have hknown : Draft.known (b + 1) ⟨none, none⟩ "left" =
      some (Reader.once none (Reader.nonterminal (b + 1)) fun n => ⟨some n, none⟩) := rfl
  have hknown' : Draft.known (b + 1) ⟨some p.left, none⟩ "right" =
      some (Reader.once none (Reader.list .symbol (b + 1)) fun ss => ⟨some p.left, some ss⟩) :=
    rfl
  change (Reader.fields (Draft.known (b + 1)) ⟨none, none⟩ _ none).bind Draft.finish = _
  rw [Reader.fields_once hknown hleft, Reader.fields_once hknown' hright]
  rfl

theorem yields_toJson (b : Nat) (h : p.left.text ≠ "") : reader.Yields (b + 2) p.toJson (.ok p) where
  given := reader_fields h (Reader.yields_symbols b p.right).given
  sorted := by
    rw [sorted_toJson]
    exact reader_fields h (Reader.yields_symbols b p.right).sorted

theorem yields_some (b : Nat) (h : p.left.text ≠ "") :
    (Reader.optional reader).Yields (b + 2) p.toJson (.ok (some p)) :=
  (yields_toJson b h).optional (by simp [toJson, outline]) (by simp [sorted_toJson, outline])

theorem fits_toJson (b : Nat) (p : Production) : p.toJson.Fits (b + 2) := by
  have hright := Json.fits_texts b Symbol.text p.right
  exact .object (List.forall_mem_cons.mpr ⟨.text _, List.forall_mem_singleton.mpr hright⟩)

end Production

namespace Record

structure Storable (r : Record) : Prop where
  step_lt : r.step < Nat.pow 2 64
  left_ne : ∀ p, r.production = some p → p.left.text ≠ ""

variable {b : Nat} {o : Outline} {rest : List (Option String × Outline)}

section Fields

variable {step : Option Nat} {stack : Option (List Symbol)} {input : Option (List Lookahead)}
  {production : Option (Option Production)}

theorem fields_step {n : Nat} (h : Reader.natural b o = .ok n) :
    Reader.fields (Draft.known b) ⟨none, stack, input, production⟩ ((some "step", o) :: rest) none =
      Reader.fields (Draft.known b) ⟨some n, stack, input, production⟩ rest none := by
  have hknown : Draft.known b ⟨none, stack, input, production⟩ "step" =
      some (Reader.once none (Reader.natural b) fun n => ⟨some n, stack, input, production⟩) := rfl
  exact Reader.fields_once hknown h rest none

theorem fields_stack {ss : List Symbol} (h : Reader.list .symbol b o = .ok ss) :
    Reader.fields (Draft.known b) ⟨step, none, input, production⟩ ((some "stack", o) :: rest) none =
      Reader.fields (Draft.known b) ⟨step, some ss, input, production⟩ rest none := by
  have hknown : Draft.known b ⟨step, none, input, production⟩ "stack" =
      some (Reader.once none (Reader.list .symbol b)
        fun ss => ⟨step, some ss, input, production⟩) := rfl
  exact Reader.fields_once hknown h rest none

theorem fields_input {ls : List Lookahead} (h : Reader.list .lookahead b o = .ok ls) :
    Reader.fields (Draft.known b) ⟨step, stack, none, production⟩ ((some "input", o) :: rest) none =
      Reader.fields (Draft.known b) ⟨step, stack, some ls, production⟩ rest none := by
  have hknown : Draft.known b ⟨step, stack, none, production⟩ "input" =
      some (Reader.once none (Reader.list .lookahead b)
        fun ls => ⟨step, stack, some ls, production⟩) := rfl
  exact Reader.fields_once hknown h rest none

theorem fields_production {p : Option Production}
    (h : Reader.optional Production.reader b o = .ok p) :
    Reader.fields (Draft.known b) ⟨step, stack, input, none⟩ ((some "production", o) :: rest) none =
      Reader.fields (Draft.known b) ⟨step, stack, input, some p⟩ rest none := by
  have hknown : Draft.known b ⟨step, stack, input, none⟩ "production" =
      some (Reader.once none (Reader.optional Production.reader b)
        fun p => ⟨step, stack, input, some p⟩) := rfl
  exact Reader.fields_once hknown h rest none

end Fields

/-- In the order of the keys the production stands between the input and the stack. -/
theorem sorted_toJson (r : Record) : r.toJson.sorted =
    .object (("input", (Json.list (r.input.map (.text ·.text))).sorted) ::
      ((r.production.map fun p => ("production", p.toJson.sorted)).toList ++
        [("stack", (Json.list (r.stack.map (.text ·.text))).sorted),
          ("step", .number r.step)])) := by
  obtain ⟨step, stack, input, production⟩ := r
  cases production <;> cbv

theorem reader_object (fs : List (Option String × Outline)) :
    reader (b + 1) (.object fs none) =
      (Reader.fields (Draft.known b) ⟨none, none, none, none⟩ fs none).bind Draft.finish :=
  rfl

theorem yields_toJson (b : Nat) {r : Record} (h : r.Storable) :
    reader.Yields (b + 3) r.toJson (.ok r) := by
  have hstep := (Reader.yields_natural (b + 2) h.step_lt).given
  have hstack := Reader.yields_symbols (b + 1) r.stack
  have hinput := Reader.yields_lookaheads (b + 1) r.input
  obtain ⟨step, stack, input, _ | p⟩ := r
  · constructor
    · change reader (b + 3)
        (.object [(some "step", _), (some "stack", _), (some "input", _)] none) = _
      rw [reader_object, fields_step hstep, fields_stack hstack.given, fields_input hinput.given]
      rfl
    · rw [sorted_toJson]
      change reader (b + 3)
        (.object [(some "input", _), (some "stack", _), (some "step", _)] none) = _
      rw [reader_object, fields_input hinput.sorted, fields_stack hstack.sorted, fields_step hstep]
      rfl
  · have hproduction := Production.yields_some b (h.left_ne p rfl)
    constructor
    · change reader (b + 3) (.object [(some "step", _), (some "stack", _), (some "input", _),
        (some "production", _)] none) = _
      rw [reader_object, fields_step hstep, fields_stack hstack.given, fields_input hinput.given,
        fields_production hproduction.given]
      rfl
    · rw [sorted_toJson]
      change reader (b + 3) (.object [(some "input", _), (some "production", _),
        (some "stack", _), (some "step", _)] none) = _
      rw [reader_object, fields_input hinput.sorted, fields_production hproduction.sorted,
        fields_stack hstack.sorted, fields_step hstep]
      rfl

theorem fits_toJson (b : Nat) {r : Record} (h : r.Storable) : r.toJson.Fits (b + 3) := by
  have hstack := Json.fits_texts (b + 1) Symbol.text r.stack
  have hinput := Json.fits_texts (b + 1) Lookahead.text r.input
  refine .object (List.forall_mem_append.mpr ⟨?_, fun p hp => ?_⟩)
  · exact List.forall_mem_cons.mpr ⟨.number h.step_lt,
      List.forall_mem_cons.mpr ⟨hstack, List.forall_mem_singleton.mpr hinput⟩⟩
  · obtain ⟨q, -, rfl⟩ := Option.map_eq_some_iff.mp (Option.mem_toList.mp hp)
    exact q.fits_toJson b

end Record

namespace Trace

theorem fits_toJson (b : Nat) {trace : Trace} (h : ∀ c ∈ trace, c.toRecord.Storable) :
    trace.toJson.Fits (b + 4) := by
  refine .list fun j hj => ?_
  obtain ⟨r, hr, rfl⟩ := List.mem_map.mp hj
  obtain ⟨c, hc, rfl⟩ := List.mem_map.mp hr
  exact Record.fits_toJson b (h c hc)

theorem yields_toJson (b : Nat) {trace : Trace} (h : ∀ c ∈ trace, c.toRecord.Storable) :
    (Reader.list Record.reader).Yields (b + 4) trace.toJson (.ok trace.toRecords) := by
  refine .list fun r hr => ?_
  obtain ⟨c, hc, rfl⟩ := List.mem_map.mp hr
  exact Record.yields_toJson b (h c hc)

theorem beq_iff {a b : Trace} : (a == b) = true ↔ a.toRecords = b.toRecords := by
  induction a generalizing b with
  | nil => cases b <;> simp [toRecords]
  | cons c a ih =>
    cases b with
    | nil => simp [toRecords]
    | cons d b =>
      rw [List.cons_beq_cons, Bool.and_eq_true, Configuration.beq_iff, ih]
      simp [toRecords]

theorem toRecords_ofRecords (rs : List Record) : (ofRecords rs).toRecords = rs := by
  simp [toRecords, ofRecords, Function.comp_def, Configuration.toRecord_ofRecord]

end Trace

end Predictive
