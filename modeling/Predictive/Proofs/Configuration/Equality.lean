import Predictive.Proofs.Command.Stages
import Predictive.Proofs.Json.Records
import Predictive.Proofs.Tree.Recorded

/-! Equal traces stand for each other. Equality does not see where the input pointer of a
configuration is, so putting every pointer back to the start of its unread tokens leaves a trace
equal to what it was, and two traces are equal just when this makes them the same. Nothing that
is computed from a trace changes when its pointers are put back. -/

namespace Predictive

namespace Input

section OfBuffer

variable (buffer : List Lookahead) (offset : Nat)

theorem unread_ofBuffer :
    (ofBuffer buffer offset).unread = buffer.drop (min offset buffer.length) := by
  rw [ofBuffer, List.drop_eq_drop_iff, Nat.min_assoc, Nat.min_self]

theorem length_ofBuffer :
    (ofBuffer buffer offset).length = buffer.length - min offset buffer.length := by
  rw [length, unread_ofBuffer, List.length_drop]

theorem isEmpty_ofBuffer :
    (ofBuffer buffer offset).isEmpty = true ↔ buffer.length ≤ offset := by
  rw [isEmpty, length_ofBuffer, beq_iff_eq]
  omega

theorem front?_ofBuffer :
    (ofBuffer buffer offset).front? = buffer[min offset buffer.length]? := by
  rw [front?, unread_ofBuffer, List.head?_drop]

end OfBuffer

end Input

/-- The input as if its unread tokens were all of the buffer. -/
def Configuration.rewound (c : Configuration) : Configuration :=
  { c with input := ⟨0, c.input.unread⟩ }

theorem Configuration.ofRecord_toRecord (c : Configuration) : ofRecord c.toRecord = c.rewound := by
  simp [ofRecord, toRecord, rewound, Stack.ofList_toList, Input.ofBuffer]

namespace Trace

def rewound (t : Trace) : Trace := t.map Configuration.rewound

theorem ofRecords_toRecords (t : Trace) : ofRecords t.toRecords = t.rewound := by
  simp [ofRecords, toRecords, rewound, Configuration.ofRecord_toRecord]

theorem toRecords_rewound (t : Trace) : t.rewound.toRecords = t.toRecords := by
  rw [← ofRecords_toRecords, toRecords_ofRecords]

theorem beq_iff_rewound {a b : Trace} : (a == b) = true ↔ a.rewound = b.rewound := by
  rw [beq_iff]
  constructor
  · intro h
    rw [← ofRecords_toRecords, h, ofRecords_toRecords]
  · intro h
    rw [← toRecords_rewound a, h, toRecords_rewound]

/-- A function that does not see whether pointers were put back takes equal traces to the same. -/
theorem eq_of_beq {β : Type} {f : Trace → β} (hf : ∀ t : Trace, f t.rewound = f t) {a b : Trace}
    (h : (a == b) = true) : f a = f b := by
  rw [← hf a, beq_iff_rewound.mp h, hf b]

theorem ofTrace_rewound (t : Trace) : Tree.ofTrace t.rewound = Tree.ofTrace t :=
  Tree.ofTrace_congr t.toRecords_rewound

theorem productions_rewound (t : Trace) : t.rewound.productions = t.productions := by
  rw [productions, rewound, List.filterMap_map]
  rfl

theorem isAccepted_rewound (t : Trace) : t.rewound.isAccepted = t.isAccepted := by
  rw [isAccepted, rewound, List.getLast?_map, Option.any_map]
  rfl

end Trace

namespace Layout

def actions (t : Trace) : List String :=
  List.zipWith (fun before c => action (some before) c) t t.tail

theorem actions_rewound (t : Trace) : actions t.rewound = actions t := by
  rw [actions, Trace.rewound, ← List.map_tail, List.zipWith_map]
  rfl

theorem traceLines_rewound (l : Layout) (previous : Option Configuration) (t : Trace) :
    traceLines l (previous.map Configuration.rewound) t.rewound = traceLines l previous t := by
  induction t generalizing previous with
  | nil => rfl
  | cons c t ih =>
    have hline : traceLine l (previous.map Configuration.rewound) c.rewound =
        traceLine l previous c := by
      cases previous <;> rfl
    rw [traceLines, ← ih (some c), ← hline]
    rfl

theorem trace_rewound (l : Layout) (t : Trace) : l.trace t.rewound = l.trace t := by
  rw [trace, trace, ← traceLines_rewound l none t]
  rfl

end Layout

/-- Whatever is computed from a trace is the same for an equal one. Views of buffers are equal
as soon as what they leave to read is, and then they agree on how much that is and on how it
begins; an offset behind the end of its buffer leaves nothing. -/
theorem Trace.interchangeable {a b : Trace} (h : (a == b) = true) :
    (Tree.ofTrace a = Tree.ofTrace b ∧ a.isAccepted = b.isAccepted ∧
      productions a = productions b ∧ a.toRecords = b.toRecords ∧
      (∀ l : Layout, l.trace a = l.trace b) ∧ Layout.actions a = Layout.actions b) ∧
    (∀ (buffer buffer' : List Lookahead) (offset offset' : Nat),
      ((Input.ofBuffer buffer offset == Input.ofBuffer buffer' offset') = true ↔
        buffer.drop (min offset buffer.length) = buffer'.drop (min offset' buffer'.length)) ∧
      ((Input.ofBuffer buffer offset == Input.ofBuffer buffer' offset') = true →
        (Input.ofBuffer buffer offset).length = (Input.ofBuffer buffer' offset').length ∧
        (Input.ofBuffer buffer offset).isEmpty = (Input.ofBuffer buffer' offset').isEmpty ∧
        (Input.ofBuffer buffer offset).front? = (Input.ofBuffer buffer' offset').front?)) ∧
    ∀ (buffer : List Lookahead) (offset : Nat),
      (Input.ofBuffer buffer offset).length = buffer.length - min offset buffer.length ∧
      ((Input.ofBuffer buffer offset).isEmpty = true ↔ buffer.length ≤ offset) ∧
      (Input.ofBuffer buffer offset).front? = buffer[min offset buffer.length]? := by
  refine ⟨⟨eq_of_beq ofTrace_rewound h, eq_of_beq isAccepted_rewound h,
    eq_of_beq productions_rewound h, eq_of_beq toRecords_rewound h,
    fun l => eq_of_beq (Layout.trace_rewound l) h, eq_of_beq Layout.actions_rewound h⟩,
    ?_, fun buffer offset => ?_⟩
  · intro buffer buffer' offset offset'
    rw [Input.beq_iff, Input.unread_ofBuffer, Input.unread_ofBuffer]
    refine ⟨Iff.rfl, fun hslices => ?_⟩
    have hunread : (Input.ofBuffer buffer offset).unread =
        (Input.ofBuffer buffer' offset').unread := by
      rw [Input.unread_ofBuffer, hslices, Input.unread_ofBuffer]
    have hlength := congrArg List.length hunread
    exact ⟨hlength, congrArg (· == 0) hlength, congrArg List.head? hunread⟩
  · exact ⟨Input.length_ofBuffer buffer offset, Input.isEmpty_ofBuffer buffer offset,
      Input.front?_ofBuffer buffer offset⟩

namespace Letters

/-- The driver's pointer stands behind the letter once it is read; put back, the trace is an
equal one that is not the same. -/
theorem letterTrace_rewound :
    letterTrace.map (·.input.position) = [0, 0, 1, 1] ∧
    (Trace.rewound letterTrace).map (·.input.position) = [0, 0, 0, 0] ∧
    (letterTrace == Trace.rewound letterTrace) = true ∧
    Tree.ofTrace (Trace.rewound letterTrace) = .ok letterTree ∧
    (∀ l : Layout, l.trace letterTrace = l.trace (Trace.rewound letterTrace)) ∧
    (Input.ofBuffer [.terminal letter, .endMarker] 2 == Input.ofBuffer [.endMarker] 7) = true := by
  have hsame : (letterTrace == Trace.rewound letterTrace) = true := by rfl
  obtain ⟨⟨htree, -, -, -, htexts, -⟩, hviews, -⟩ := Trace.interchangeable hsame
  refine ⟨rfl, rfl, hsame, ?_, htexts, (hviews _ _ 2 7).1.mpr rfl⟩
  rw [← htree, ofTrace_letterTrace]

end Letters

end Predictive
