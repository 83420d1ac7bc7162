import Predictive.Proofs.Command.Stages
import Predictive.Proofs.Json.Trees
import Predictive.Proofs.Tree.Recorded

/-! The output for other programs. It is one object, whose members are the trace and, where it is
asked for, the tree, with the fields of every object in the order of their keys. The members
are read back as what the run came to, and they agree: the tree is the one that the records
themselves grow. -/

namespace Predictive

open Json (Reader outline)

namespace Document

def outputFields (trace : Trace) (tree : Option Tree) : List (String × Json) :=
  ("trace", trace.toJson.sorted) :: (tree.map fun t => ("tree", t.toJson.sorted)).toList

theorem sorted_output (trace : Trace) (tree : Option Tree) :
    (Json.object (("trace", trace.toJson) ::
        (tree.map fun t => ("tree", t.toJson)).toList)).sorted =
      .object (outputFields trace tree) := by
  cases tree <;> cbv

theorem outputJson_eq (trace : Trace) (tree : Option Tree) : outputJson trace tree =
    .ofList (Json.write .spread 0 (.object (outputFields trace tree)) [] ++ ['\n']) := by
  rw [outputJson, sorted_output, Json.spread, String.ofList_append]

theorem fits_outputFields {b : Nat} {trace : Trace} {tree : Option Tree}
    (htrace : trace.toJson.Fits b) (htree : ∀ t, tree = some t → t.toJson.Fits b) :
    ∀ p ∈ outputFields trace tree, p.2.Fits b := by
  refine List.forall_mem_cons.mpr ⟨htrace.sorted, fun p hp => ?_⟩
  obtain ⟨t, ht, rfl⟩ := Option.map_eq_some_iff.mp (Option.mem_toList.mp hp)
  exact (htree t ht).sorted

theorem members_outputJson {trace : Trace} {tree : Option Tree} (htrace : trace.toJson.Fits 126)
    (htree : ∀ t, tree = some t → t.toJson.Fits 126) :
    ∃ members, Reader.run Reader.members (outputJson trace tree) = .ok members ∧
      members.get? "trace" = some (outline trace.toJson.sorted) ∧
      members.get? "tree" = tree.map fun t => outline t.toJson.sorted := by
  have hnewline : ∀ c ∈ ['\n'], Json.isBlank c = true := by simp [Json.isBlank]
  have hrun := Reader.run_write_append Reader.members .spread
    (.object (outputFields trace tree)) hnewline
  have hmembers := Reader.members_object (fits_outputFields htrace htree)
  rw [← outputJson_eq] at hrun
  refine ⟨_, hrun.trans hmembers, ?_, ?_⟩
  · cases tree <;> cbv
  · cases tree <;> cbv

theorem storable_of_drive {d : Document} {text : String} {start : Option String} {j : Job}
    {limit : Option Nat} {trace : Trace} (h : d.Asks text start j)
    (hdrive : j.drive limit = some (.ok trace)) (hstep : ∀ c ∈ trace, c.step < Nat.pow 2 64) :
    ∀ c ∈ trace, c.toRecord.Storable := by
  have hproper := proper_of_toTable h.table
  have hnamed := named_of_denotes (denotes_of_toTable h.table)
  have hcells := (Table.accepts_of_drive hdrive).applied_cell fun p hp => by cases hp
  refine fun c hc => ⟨hstep c hc, fun p hp hleft => ?_⟩
  obtain ⟨n, l, hcell⟩ := hcells c hc p hp
  have hrow : j.table.hasRow n = true := Table.hasRow_of_cell hcell
  have hread := hnamed n hrow
  rw [← hproper.left_eq n l p hcell, hleft] at hread
  cases hread

/-- Every output for other programs, for any document, text and options, as long as the steps
fit in 64 bits: its members are read back as the records of the trace and, if it is asked for
and no deeper than 63, as the tree that these records grow. The member of the tree is missing
otherwise. -/
theorem output_read_back {d : Document} {text out : String} {o : ParseOptions}
    (hformat : o.format = .json) (h : d.parseTokens text o = some (.ok out)) :
    ∃ j trace tree, d.Asks text o.start j ∧ j.drive o.limit = some (.ok trace) ∧
      Tree.ofTrace trace = .ok tree ∧
      ((∀ c ∈ trace, c.step < Nat.pow 2 64) → (o.withTree = true → tree.depth ≤ 63) →
        ∃ members rs, Reader.run Reader.members out = .ok members ∧
          (∀ b, Json.nestingLimit ≤ b + 1 →
            (members.get? "trace").map (Reader.list Record.reader b) = some (.ok rs) ∧
            (members.get? "tree").map (Tree.reader b) =
              if o.withTree then some (.ok tree) else none) ∧
          (Trace.ofRecords rs == trace) = true ∧
          Tree.ofTrace (Trace.ofRecords rs) = .ok tree) := by
  obtain ⟨e, he, -⟩ | ⟨j, trace, tree, hj, hdrive, htree, hout⟩ := parseTokens_cases h
  · cases he
  refine ⟨j, trace, tree, hj, hdrive, htree, fun hstep hdepth => ?_⟩
  have hstorable := storable_of_drive hj hdrive hstep
  have htraceFits : trace.toJson.Fits 126 := Trace.fits_toJson _ hstorable
  have htreeFits : ∀ t, (if o.withTree then some tree else none) = some t → t.toJson.Fits 126 := by
    intro t ht
    split at ht
    · next hwith =>
      cases ht
      have hheight := hdepth hwith
      rw [Tree.depth_eq_height] at hheight
      exact Tree.fits_toJson tree _ (by omega)
    · cases ht
  obtain ⟨members, hrun, htraceMember, htreeMember⟩ := members_outputJson htraceFits htreeFits
  cases hout
  rw [hformat]
  refine ⟨members, trace.toRecords, hrun, fun b hb => ⟨?_, ?_⟩,
    Trace.beq_iff.mpr (Trace.toRecords_ofRecords _), ?_⟩
  · rw [Json.nestingLimit] at hb
    obtain ⟨b, rfl⟩ := Nat.exists_eq_add_of_le' (m := 4) (by omega : 4 ≤ b)
    rw [htraceMember, Option.map_some, (Trace.yields_toJson b hstorable).sorted]
  · rw [htreeMember]
    split
    · next hwith =>
      have hheight := hdepth hwith
      rw [Tree.depth_eq_height] at hheight
      rw [Json.nestingLimit] at hb
      rw [Option.map_some, Option.map_some, (tree.yields_toJson b).sorted,
        Reader.within_of_le (by omega)]
    · rfl
  · rw [Tree.ofTrace_congr (Trace.toRecords_ofRecords trace.toRecords), htree]

end Document

namespace Letters

theorem letter_output_read_back : ∃ members rs,
    Reader.run Reader.members (Document.output .json letterTrace (some letterTree)) =
      .ok members ∧
    (members.get? "trace").map (Reader.list Record.reader 126) = some (.ok rs) ∧
    (members.get? "tree").map (Tree.reader 126) = some (.ok letterTree) ∧
    (Trace.ofRecords rs == letterTrace) = true ∧
    Tree.ofTrace (Trace.ofRecords rs) = .ok letterTree := by
  obtain ⟨j, trace, tree, hj, hdrive, htree, hread⟩ :=
    Document.output_read_back rfl (parseTokens_letter .json)
  cases eq_letterJob hj
  cases hdrive.symm.trans drive_letterJob
  cases htree.symm.trans ofTrace_letterTrace
  have hdepth : letterTree.depth ≤ 63 := by
    rw [Tree.depth_eq_height]
    decide
  obtain ⟨members, rs, hrun, hmembers, htrace, hgrown⟩ := hread (by decide) fun _ => hdepth
  obtain ⟨hrecords, htreeMember⟩ := hmembers 126 (by decide)
  exact ⟨members, rs, hrun, hrecords, htreeMember, htrace, hgrown⟩

end Letters

end Predictive
