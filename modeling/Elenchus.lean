import Elenchus.Assoc
import Elenchus.Clause.Basic
import Elenchus.Clause.Literal
import Elenchus.Exchange.Reading
import Elenchus.Exchange.Writing
import Elenchus.Formula.Basic
import Elenchus.Inference.Basic
import Elenchus.Inference.Hyperresolution
import Elenchus.Inference.Rule
import Elenchus.Inference.UnitDeletion
import Elenchus.Item.Basic
import Elenchus.Item.Bindings
import Elenchus.Item.Construct
import Elenchus.Item.Moment
import Elenchus.Json.Basic
import Elenchus.Json.Reader
import Elenchus.Knowledge.Basic
import Elenchus.NormalForm.Basic
import Elenchus.NormalForm.Negation
import Elenchus.NormalForm.Skolem
import Elenchus.Notation.Printer
import Elenchus.Notation.Reader
import Elenchus.Notation.Token
import Elenchus.Number.Basic
import Elenchus.Number.Decimal
import Elenchus.Number.Floating
import Elenchus.Number.Reading
import Elenchus.Proof.Arena
import Elenchus.Proof.Decoding
import Elenchus.Proof.Derivation
import Elenchus.Proof.Encoding
import Elenchus.Proof.Replay
import Elenchus.Proof.Trace
import Elenchus.Proofs.Acceptance
import Elenchus.Proofs.Accounts
import Elenchus.Proofs.Ancestry
import Elenchus.Proofs.Answers
import Elenchus.Proofs.Beginnings
import Elenchus.Proofs.Bounds
import Elenchus.Proofs.CheckedProofs
import Elenchus.Proofs.ClausalFormulas
import Elenchus.Proofs.ClauseForm
import Elenchus.Proofs.Composition
import Elenchus.Proofs.Consequences
import Elenchus.Proofs.Constituents
import Elenchus.Proofs.Entailment
import Elenchus.Proofs.Evaluation
import Elenchus.Proofs.FairSelection
import Elenchus.Proofs.FinalStates
import Elenchus.Proofs.FormulaFiles
import Elenchus.Proofs.Hyperresolvents
import Elenchus.Proofs.InferenceRules
import Elenchus.Proofs.Inferences
import Elenchus.Proofs.JsonText
import Elenchus.Proofs.Justification
import Elenchus.Proofs.KnowledgeBases
import Elenchus.Proofs.LayeredSettings
import Elenchus.Proofs.Lifting
import Elenchus.Proofs.Lineage
import Elenchus.Proofs.LiteralIndexes
import Elenchus.Proofs.Literals
import Elenchus.Proofs.Minimality
import Elenchus.Proofs.Names
import Elenchus.Proofs.NegationNormalForm
import Elenchus.Proofs.Operations
import Elenchus.Proofs.Overlays
import Elenchus.Proofs.Preliminaries
import Elenchus.Proofs.ProofAtHand
import Elenchus.Proofs.PushedNegations
import Elenchus.Proofs.Questions
import Elenchus.Proofs.Readings
import Elenchus.Proofs.Renderings
import Elenchus.Proofs.Replay
import Elenchus.Proofs.Resolvents
import Elenchus.Proofs.Saturation
import Elenchus.Proofs.SearchCoverage
import Elenchus.Proofs.SearchFaults
import Elenchus.Proofs.SearchHistory
import Elenchus.Proofs.SearchMoves
import Elenchus.Proofs.SearchPhases
import Elenchus.Proofs.Sentences
import Elenchus.Proofs.SkolemSymbols
import Elenchus.Proofs.Skolemization
import Elenchus.Proofs.StandardizedApart
import Elenchus.Proofs.StoreHistories
import Elenchus.Proofs.Stores
import Elenchus.Proofs.Structures
import Elenchus.Proofs.SymbolTables
import Elenchus.Proofs.Termination
import Elenchus.Proofs.Tokens
import Elenchus.Proofs.TraceJson
import Elenchus.Proofs.Traces
import Elenchus.Proofs.Unification
import Elenchus.Proofs.UnificationDepth
import Elenchus.Proofs.UnificationRuns
import Elenchus.Proofs.UnitChoices
import Elenchus.Proofs.UnitDeletion
import Elenchus.Proofs.WholeWords
import Elenchus.Proofs.WorkingSets
import Elenchus.Reasoner.Basic
import Elenchus.Reasoner.Settings
import Elenchus.Search.Basic
import Elenchus.Search.Limits
import Elenchus.Search.Selection
import Elenchus.Settings.Basic
import Elenchus.Signature.Basic
import Elenchus.Signature.Check
import Elenchus.Store.Basic
import Elenchus.Subst.Basic
import Elenchus.Subst.Renaming
import Elenchus.Subst.Unify
import Elenchus.Term.Basic
import Elenchus.Text.Basic
import Elenchus.Text.Case
import Elenchus.Text.Printable
import Elenchus.Yaml.Cursor
import Elenchus.Yaml.Node
import Elenchus.Yaml.Scalar
import Elenchus.Yaml.Text
import Elenchus.Yaml.Token
import Elenchus.Yaml.Value
