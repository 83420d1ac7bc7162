import Predictive.Arithmetic
import Predictive.CommandLine
import Predictive.Main
import Predictive.Proofs.Arithmetic.Expressions
import Predictive.Proofs.Arithmetic.Layers
import Predictive.Proofs.Arithmetic.LinearTime
import Predictive.Proofs.Automaton.Ceiling
import Predictive.Proofs.Automaton.ErrorPosition
import Predictive.Proofs.Automaton.Extension
import Predictive.Proofs.Automaton.Outcome
import Predictive.Proofs.Automaton.Passage
import Predictive.Proofs.Automaton.Recurrence
import Predictive.Proofs.Automaton.Reloaded
import Predictive.Proofs.Automaton.SententialForm
import Predictive.Proofs.Command.Output
import Predictive.Proofs.Command.Stages
import Predictive.Proofs.Configuration.Equality
import Predictive.Proofs.Grammar.Analysis
import Predictive.Proofs.Grammar.Complete
import Predictive.Proofs.Grammar.ViablePrefix
import Predictive.Proofs.Json.Documents
import Predictive.Proofs.Json.Productions
import Predictive.Proofs.Json.Records
import Predictive.Proofs.Json.Trees
import Predictive.Proofs.Layout.TraceText
import Predictive.Proofs.Layout.TreeText
import Predictive.Proofs.Stack.Histories
import Predictive.Proofs.Symbol.Naming
import Predictive.Proofs.Table.Arrangements
import Predictive.Proofs.Table.FirstRefused
import Predictive.Proofs.Tree.Correspondence
import Predictive.Proofs.Tree.Licensed
import Predictive.Proofs.Tree.Ownership
import Predictive.Proofs.Tree.PrefixFree
import Predictive.Proofs.Tree.Recursion
