import Predictive.Command
import Predictive.Proofs.Table.Saved
import Predictive.Proofs.Tree.DrivenTrace

/-! The stages of a parse. The table is built, a start symbol is found and read, the words are
read, and the table is driven; the first stage that refuses gives the error. Growing the tree
is no such stage. A table that was built from a document holds only productions of its own
rows that have passed the checks, so the trace of an accepted input always grows a tree, and
neither the tree nor the format of the output has a part in whether there is one. -/

namespace Predictive

namespace Document

structure Asks (d : Document) (text : String) (start : Option String) (j : Job) : Prop where
  table : d.toTable = .ok j.table
  start : ∃ name, start.or d.start = some name ∧ NonTerminal.ofText name = .ok j.start
  tokens : List.Forall₂ (fun word a => Terminal.ofText word = .ok a) (Text.words text) j.tokens

/-- What ends a parse without an output. Every rule says that the stages before it passed. -/
inductive Fails (d : Document) (text : String) (start : Option String) (limit : Option Nat) :
    CommandError → Prop
  | table {e : GrammarError} (h : d.toTable = .error e) : Fails d text start limit (.grammar e)
  | noStart {t : Table} (table : d.toTable = .ok t) (h : start.or d.start = none) :
    Fails d text start limit .missingStart
  | badStart {t : Table} {name : String} {e : GrammarError} (table : d.toTable = .ok t)
    (given : start.or d.start = some name) (h : NonTerminal.ofText name = .error e) :
    Fails d text start limit (.grammar e)
  | badWord {t : Table} {name : String} {n : NonTerminal} {before after : List String}
    {word : String} {e : GrammarError} (table : d.toTable = .ok t)
    (given : start.or d.start = some name) (named : NonTerminal.ofText name = .ok n)
    (words : Text.words text = before ++ word :: after)
    (earlier : ∀ w ∈ before, ∃ a, Terminal.ofText w = .ok a)
    (h : Terminal.ofText word = .error e) : Fails d text start limit (.grammar e)
  | rejected {j : Job} {r : Rejection} (asks : d.Asks text start j)
    (h : j.drive limit = some (.error r)) : Fails d text start limit (.parse (.rejected r))

variable {d : Document} {text : String} {o : ParseOptions} {j : Job} {trace : Trace}

theorem job_of_asks (h : d.Asks text o.start j) : d.job text o = .ok j := by
  obtain ⟨name, hname, hstart⟩ := h.start
  have htokens : Terminal.ofWords text = .ok j.tokens := mapM_eq_ok.mpr h.tokens
  simp [job, h.table, hname, hstart, htokens, Except.mapError, bind, Except.bind, pure,
    Except.pure]

theorem parseTokens_of_asks (h : d.Asks text o.start j) :
    d.parseTokens text o = (j.drive o.limit).map (report o) := by
  rw [parseTokens, job_of_asks h]

theorem parseTokens_of_fails {e : CommandError} (h : d.Fails text o.start o.limit e) :
    d.parseTokens text o = some (.error e) := by
  cases h with
  | table h => simp [parseTokens, job, h, Except.mapError, bind, Except.bind]
  | noStart table h => simp [parseTokens, job, table, h, Except.mapError, bind, Except.bind]
  | badStart table given h =>
    simp [parseTokens, job, table, given, h, Except.mapError, bind, Except.bind]
  | @badWord _ _ _ _ _ _ e table given named words earlier h =>
    have hwords : Terminal.ofWords text = .error e := by
      rw [Terminal.ofWords, words]
      exact mapM_append_eq_error earlier h
    simp [parseTokens, job, table, given, named, hwords, Except.mapError, bind, Except.bind]
  | rejected asks h =>
    rw [parseTokens_of_asks asks, h]
    rfl

theorem asks_or_fails (d : Document) (text : String) (start : Option String)
    (limit : Option Nat) :
    (∃ j, d.Asks text start j) ∨ ∃ e, d.Fails text start limit e := by
  cases htable : d.toTable with
  | error e => exact .inr ⟨_, .table htable⟩
  | ok t =>
    cases hname : start.or d.start with
    | none => exact .inr ⟨_, .noStart htable hname⟩
    | some name =>
      cases hstart : NonTerminal.ofText name with
      | error e => exact .inr ⟨_, .badStart htable hname hstart⟩
      | ok n =>
        cases hwords : Terminal.ofWords text with
        | error e =>
          obtain ⟨before, word, after, hsplit, hbefore, hword⟩ := exists_refused_of_mapM hwords
          exact .inr ⟨_, .badWord htable hname hstart hsplit hbefore hword⟩
        | ok tokens =>
          exact .inl ⟨⟨t, n, tokens⟩, htable, ⟨name, hname, hstart⟩, mapM_eq_ok.mp hwords⟩

theorem Asks.placed (h : d.Asks text o.start j) : j.table.Placed :=
  (proper_of_toTable h.table).placed

/-- The tree is there whether or not it is asked for. -/
theorem report_accepted (h : d.Asks text o.start j)
    (hdrive : j.drive o.limit = some (.ok trace)) :
    ∃ tree, Tree.ofTrace trace = .ok tree ∧ ∀ o' : ParseOptions,
      report o' (.ok trace) =
        .ok (output o'.format trace (if o'.withTree then some tree else none)) := by
  obtain ⟨tree, htree, -⟩ := Tree.ofTrace_ok_of_placed h.placed (Table.accepts_of_drive hdrive)
  refine ⟨tree, htree, fun o' => ?_⟩
  cases hwith : o'.withTree <;> simp [report, hwith, htree]

theorem parseTokens_cases {r : Except CommandError String} (h : d.parseTokens text o = some r) :
    (∃ e, r = .error e ∧ d.Fails text o.start o.limit e) ∨
    ∃ j trace tree, d.Asks text o.start j ∧ j.drive o.limit = some (.ok trace) ∧
      Tree.ofTrace trace = .ok tree ∧
      r = .ok (output o.format trace (if o.withTree then some tree else none)) := by
  obtain ⟨j, hj⟩ | ⟨e, he⟩ := asks_or_fails d text o.start o.limit
  · rw [parseTokens_of_asks hj] at h
    obtain ⟨outcome, hdrive, rfl⟩ := Option.map_eq_some_iff.mp h
    cases outcome with
    | error r => exact .inl ⟨_, rfl, .rejected hj hdrive⟩
    | ok trace =>
      obtain ⟨tree, htree, hreport⟩ := report_accepted hj hdrive
      exact .inr ⟨j, trace, tree, hj, hdrive, htree, hreport o⟩
  · cases (parseTokens_of_fails he).symm.trans h
    exact .inl ⟨e, rfl, he⟩

theorem parseTokens_accepted (h : d.Asks text o.start j)
    (hdrive : j.drive o.limit = some (.ok trace)) {tree : Tree}
    (htree : Tree.ofTrace trace = .ok tree) (format : OutputFormat) (withTree : Bool) :
    d.parseTokens text ⟨o.start, format, o.limit, withTree⟩ =
      some (.ok (output format trace (if withTree then some tree else none))) := by
  obtain ⟨tree', htree', hreport⟩ := report_accepted h hdrive
  cases htree.symm.trans htree'
  have hparse : d.parseTokens text ⟨o.start, format, o.limit, withTree⟩ = _ :=
    parseTokens_of_asks h
  rw [hparse, hdrive, Option.map_some, hreport]

/-- The outcome of a parse that ends, for every document, text and options: it fails exactly as
the stages say and never for want of a tree, whatever is to be written; otherwise the plain
text shows the trace, and the tree behind it where one is asked for. -/
theorem parseTokens_outcome {r : Except CommandError String}
    (h : d.parseTokens text o = some r) :
    (∀ e, r = .error e ↔ d.Fails text o.start o.limit e) ∧
    (∀ e, r ≠ .error (.parse (.untreed e))) ∧
    (∀ format withTree, ∃ r',
      d.parseTokens text ⟨o.start, format, o.limit, withTree⟩ = some r' ∧
        ∀ e, r' = .error e ↔ r = .error e) ∧
    (∀ out, r = .ok out → ∃ j trace tree, d.Asks text o.start j ∧
      j.drive o.limit = some (.ok trace) ∧ Tree.ofTrace trace = .ok tree ∧
      d.parseTokens text ⟨o.start, .text, o.limit, false⟩ =
        some (.ok (Layout.standard.trace trace)) ∧
      d.parseTokens text ⟨o.start, .text, o.limit, true⟩ =
        some (.ok (Layout.standard.trace trace ++
          ("\n" ++ Layout.standard.tree tree ++ "\n")))) := by
  have hfails : ∀ e, r = .error e ↔ d.Fails text o.start o.limit e := by
    intro e
    constructor
    · rintro rfl
      obtain ⟨e', he', hf⟩ | ⟨j, trace, tree, -, -, -, hout⟩ := parseTokens_cases h
      · cases he'
        exact hf
      · cases hout
    · intro hf
      exact Option.some.inj (h.symm.trans (parseTokens_of_fails hf))
  refine ⟨hfails, ?_, ?_, ?_⟩
  · intro e he
    cases (hfails _).mp he
  · intro format withTree
    obtain ⟨e, rfl, hf⟩ | ⟨j, trace, tree, hj, hdrive, htree, rfl⟩ := parseTokens_cases h
    · exact ⟨.error e, parseTokens_of_fails hf, fun _ => Iff.rfl⟩
    · exact ⟨_, parseTokens_accepted hj hdrive htree format withTree, by simp⟩
  · rintro out rfl
    obtain ⟨e, he, -⟩ | ⟨j, trace, tree, hj, hdrive, htree, -⟩ := parseTokens_cases h
    · cases he
    · have hbare : output .text trace none = Layout.standard.trace trace := String.append_empty
      refine ⟨j, trace, tree, hj, hdrive, htree, ?_, parseTokens_accepted hj hdrive htree _ _⟩
      rw [← hbare]
      exact parseTokens_accepted hj hdrive htree _ _

end Document

namespace Letters

def document : Document := .ofTable (some "S") (table (.empty word))

def letterTrace : Trace :=
  [.initial word [letter],
    ⟨1, .ofList [.endMarker, .nonterminal word, .terminal letter], .ofTokens [letter],
      some more⟩,
    ⟨2, .ofList [.endMarker, .nonterminal word], ⟨1, [.endMarker]⟩, none⟩,
    ⟨3, .ofList [.endMarker], ⟨1, [.endMarker]⟩, some (.empty word)⟩]

def letterTree : Tree :=
  .branch (.nonterminal word) [.leaf (.terminal letter) "a", .bare (.nonterminal word)]

def letterJob : Job := ⟨table (.empty word), word, [letter]⟩

theorem eq_letterJob {j : Job} (h : document.Asks " a" none j) : j = letterJob :=
  Except.ok.inj ((Document.job_of_asks (o := ⟨none, .text, none, true⟩) h).symm.trans rfl)

theorem drive_letterJob : letterJob.drive none = some (.ok letterTrace) := by
  rfl

theorem ofTrace_letterTrace : Tree.ofTrace letterTrace = .ok letterTree := by
  rfl

theorem parseTokens_letter (format : OutputFormat) :
    document.parseTokens " a" ⟨none, format, none, true⟩ =
      some (.ok (Document.output format letterTrace (some letterTree))) := by
  rfl

theorem parseTokens_unread_word : document.parseTokens "a S T" ⟨none, .json, none, false⟩ =
    some (.error (.grammar (.notATerminal "S"))) := by
  rfl

theorem letter_outcomes :
    document.Fails "a S T" none none (.grammar (.notATerminal "S")) ∧
    (∀ e, ¬ document.Fails " a" none none e) ∧
    document.parseTokens " a" ⟨none, .text, none, false⟩ =
      some (.ok (Layout.standard.trace letterTrace)) ∧
    document.parseTokens " a" ⟨none, .text, none, true⟩ =
      some (.ok (Layout.standard.trace letterTrace ++
        ("\n" ++ Layout.standard.tree letterTree ++ "\n"))) := by
  have hunread := Document.parseTokens_outcome parseTokens_unread_word
  have hletter := Document.parseTokens_outcome (parseTokens_letter .json)
  obtain ⟨j, trace, tree, hj, hdrive, htree, hbare, hgrown⟩ := hletter.2.2.2 _ rfl
  cases eq_letterJob hj
  cases hdrive.symm.trans drive_letterJob
  cases htree.symm.trans ofTrace_letterTrace
  refine ⟨(hunread.1 _).mp rfl, fun e he => ?_, hbare, hgrown⟩
  cases (hletter.1 e).mpr he

end Letters

end Predictive
