import LogicSearch.Term.Equality
import LogicSearch.Substitution.Graph
import LogicSearch.Substitution.Model
import LogicSearch.Substitution.Depth
import LogicSearch.Substitution.Unfolding
import LogicSearch.State.Scoping
import LogicSearch.Stream.Answer
import LogicSearch.Stream.Turn
import LogicSearch.Goal.Host
import LogicSearch.Goal.Derivation
import LogicSearch.Goal.Truth
import LogicSearch.Goal.Listing
import LogicSearch.Goal.Grouping
import LogicSearch.Proofs.Acyclicity
import LogicSearch.Proofs.Occurrence
import LogicSearch.Proofs.Growth
import LogicSearch.Proofs.Solution
import LogicSearch.Proofs.AnswerDepth
import LogicSearch.Proofs.CheckedUnification
import LogicSearch.Proofs.Rules
import LogicSearch.Proofs.Ways
import LogicSearch.Proofs.Fairness
import LogicSearch.Proofs.Answers
import LogicSearch.Proofs.Invariant
import LogicSearch.Proofs.Application
import LogicSearch.Proofs.Agreement
import LogicSearch.Proofs.HostFree
import LogicSearch.Proofs.TruthSearch
import LogicSearch.Proofs.ChainEnds
import LogicSearch.Proofs.UnbrokenSearch
import LogicSearch.Goal.Minting
import LogicSearch.Proofs.Lineage
import LogicSearch.Proofs.Freshness
import LogicSearch.Proofs.EquationOrder
import LogicSearch.Proofs.Settings
import LogicSearch.Proofs.OccursFilter
import LogicSearch.Proofs.Turns
import LogicSearch.Proofs.Shuffle
import LogicSearch.Proofs.Alternation
import LogicSearch.Proofs.Productivity
import LogicSearch.Proofs.DepthFirst
import LogicSearch.Proofs.ReadableAnswers
import LogicSearch.Proofs.NewBindings
import LogicSearch.Proofs.Correspondence
import LogicSearch.Proofs.Recursion
import LogicSearch.Proofs.UnifyInStep
import LogicSearch.Proofs.RelatedGoals
import LogicSearch.Proofs.EqualStates
import LogicSearch.Proofs.Relabelling
import LogicSearch.Proofs.BindLog
import LogicSearch.Proofs.AnswerNumbers
import LogicSearch.Proofs.BindPulls
import LogicSearch.Proofs.BindTurns
import LogicSearch.Proofs.BindAnswers
import LogicSearch.Proofs.BindSchedule
import LogicSearch.Proofs.Symmetry
import LogicSearch.Proofs.OlderVariables
import LogicSearch.Proofs.Traversal
import LogicSearch.Proofs.Resolution
import LogicSearch.Proofs.ResultMarks
import LogicSearch.Proofs.OccursResolution
import LogicSearch.Proofs.MergeAnswers
import LogicSearch.Proofs.Regrouping
import LogicSearch.Proofs.CompositeEquations
import LogicSearch.Proofs.WalkLimit
import LogicSearch.Proofs.Locality
import LogicSearch.Proofs.Absorption
import LogicSearch.Proofs.VariableEquivalence
import LogicSearch.Proofs.TermsInMemory
import LogicSearch.Proofs.HostValues
import LogicSearch.Proofs.HostValues
import LogicSearch.Proofs.BindPulls
