import TracedGrammar.Builder.Handover
import TracedGrammar.Builder.Plain
import TracedGrammar.Builder.Sequence
import TracedGrammar.Builder.Tiers
import TracedGrammar.Chain.Binarization
import TracedGrammar.Chain.Index
import TracedGrammar.Chain.Split
import TracedGrammar.Closure
import TracedGrammar.Grammar.Authoring
import TracedGrammar.Grammar.Basic
import TracedGrammar.Grammar.Draft
import TracedGrammar.Grammar.Expansion
import TracedGrammar.Grammar.Text
import TracedGrammar.GrammarError
import TracedGrammar.Handle
import TracedGrammar.History.Basic
import TracedGrammar.History.PositionSet
import TracedGrammar.History.Tracked
import TracedGrammar.History.Untracked
import TracedGrammar.Language.Derivation
import TracedGrammar.Language.Forest
import TracedGrammar.Limits
import TracedGrammar.Normalization
import TracedGrammar.Nulling.Elimination
import TracedGrammar.Nulling.Variants
import TracedGrammar.Precedence.Basic
import TracedGrammar.Precedence.Resolution
import TracedGrammar.Precedence.Table
import TracedGrammar.Proofs.Authoring.Accounts
import TracedGrammar.Proofs.Authoring.Additions
import TracedGrammar.Proofs.Authoring.Bookkeeping
import TracedGrammar.Proofs.Authoring.Commands
import TracedGrammar.Proofs.Authoring.Edits
import TracedGrammar.Proofs.Authoring.Extensions
import TracedGrammar.Proofs.Authoring.Histories
import TracedGrammar.Proofs.Authoring.Pending
import TracedGrammar.Proofs.Authoring.Restarts
import TracedGrammar.Proofs.Authoring.Rows
import TracedGrammar.Proofs.Chain.Faces
import TracedGrammar.Proofs.Chain.Following
import TracedGrammar.Proofs.Chain.Inventory
import TracedGrammar.Proofs.Chain.Language
import TracedGrammar.Proofs.Chain.Links
import TracedGrammar.Proofs.Chain.Pass
import TracedGrammar.Proofs.Chain.Places
import TracedGrammar.Proofs.Chain.Preservation
import TracedGrammar.Proofs.Chain.Reading
import TracedGrammar.Proofs.Chain.Tops
import TracedGrammar.Proofs.Chain.Trees
import TracedGrammar.Proofs.Closure.Nullable
import TracedGrammar.Proofs.Closure.Worklist
import TracedGrammar.Proofs.Counted.Parts
import TracedGrammar.Proofs.Counted.Passes
import TracedGrammar.Proofs.Expansion.Equivalence
import TracedGrammar.Proofs.Expansion.Language
import TracedGrammar.Proofs.Expansion.Nullable
import TracedGrammar.Proofs.Expansion.Part
import TracedGrammar.Proofs.Expansion.Pass
import TracedGrammar.Proofs.Grammar.Symbols
import TracedGrammar.Proofs.Grammar.Text
import TracedGrammar.Proofs.History.Lawful
import TracedGrammar.Proofs.History.Positions
import TracedGrammar.Proofs.History.Tracked
import TracedGrammar.Proofs.Language.Concatenation
import TracedGrammar.Proofs.Language.Interpretation
import TracedGrammar.Proofs.Language.Uniqueness
import TracedGrammar.Proofs.Language.Weights
import TracedGrammar.Proofs.Lists
import TracedGrammar.Proofs.Normalization.ActionSites
import TracedGrammar.Proofs.Normalization.Balance
import TracedGrammar.Proofs.Normalization.Descent
import TracedGrammar.Proofs.Normalization.Erasure
import TracedGrammar.Proofs.Normalization.Language
import TracedGrammar.Proofs.Normalization.Limits
import TracedGrammar.Proofs.Normalization.Passes
import TracedGrammar.Proofs.Normalization.SequenceTrees
import TracedGrammar.Proofs.Normalization.Stability
import TracedGrammar.Proofs.Normalization.Stepwise
import TracedGrammar.Proofs.Nulling.Alternatives
import TracedGrammar.Proofs.Nulling.Choices
import TracedGrammar.Proofs.Nulling.Enumeration
import TracedGrammar.Proofs.Nulling.Equivalence
import TracedGrammar.Proofs.Nulling.Language
import TracedGrammar.Proofs.Nulling.Pass
import TracedGrammar.Proofs.Nulling.Records
import TracedGrammar.Proofs.Nulling.Thinning
import TracedGrammar.Proofs.Nulling.Variants
import TracedGrammar.Proofs.Precedence.Assignment
import TracedGrammar.Proofs.Precedence.Pass
import TracedGrammar.Proofs.Precedence.Sharing
import TracedGrammar.Proofs.Precedence.Stability
import TracedGrammar.Proofs.Repetition.Descent
import TracedGrammar.Proofs.Repetition.FixedWidth
import TracedGrammar.Proofs.Repetition.Halved
import TracedGrammar.Proofs.Repetition.Halving
import TracedGrammar.Proofs.Repetition.Helpers
import TracedGrammar.Proofs.Repetition.Layout
import TracedGrammar.Proofs.Repetition.Mentions
import TracedGrammar.Proofs.Repetition.Rows
import TracedGrammar.Proofs.Repetition.Solution
import TracedGrammar.Proofs.Repetition.Unambiguous
import TracedGrammar.Proofs.Report.Agreement
import TracedGrammar.Proofs.Report.Success
import TracedGrammar.Proofs.Run.Allocations
import TracedGrammar.Proofs.Run.Ancestry
import TracedGrammar.Proofs.Run.Chains
import TracedGrammar.Proofs.Run.Commuting
import TracedGrammar.Proofs.Run.Cuts
import TracedGrammar.Proofs.Run.Decoding
import TracedGrammar.Proofs.Run.Inheritance
import TracedGrammar.Proofs.Run.Labels
import TracedGrammar.Proofs.Run.Origins
import TracedGrammar.Proofs.Run.Pieces
import TracedGrammar.Proofs.Run.Ranks
import TracedGrammar.Proofs.Run.Reached
import TracedGrammar.Proofs.Run.Records
import TracedGrammar.Proofs.Run.Refinement
import TracedGrammar.Proofs.Run.Resolution
import TracedGrammar.Proofs.Run.Sites
import TracedGrammar.Proofs.Run.Stages
import TracedGrammar.Proofs.Run.Steps
import TracedGrammar.Proofs.Run.Tracing
import TracedGrammar.Proofs.Run.Undisturbed
import TracedGrammar.Proofs.Run.Unsorted
import TracedGrammar.Proofs.Run.Widths
import TracedGrammar.Proofs.Sequence.Expanded
import TracedGrammar.Proofs.Sequence.Language
import TracedGrammar.Proofs.Sequence.Range
import TracedGrammar.Proofs.Sequence.Size
import TracedGrammar.Proofs.Sequence.Trees
import TracedGrammar.Proofs.Sequence.Turns
import TracedGrammar.Proofs.Symbol.Allocation
import TracedGrammar.Proofs.Symbol.Set
import TracedGrammar.Proofs.Tiers.Associativity
import TracedGrammar.Proofs.Tiers.Layout
import TracedGrammar.Proofs.Tiers.Outline
import TracedGrammar.Proofs.Tiers.Trees
import TracedGrammar.Repetition.Alternatives
import TracedGrammar.Repetition.Basic
import TracedGrammar.Repetition.Expansion
import TracedGrammar.Repetition.Range
import TracedGrammar.Repetition.Separator
import TracedGrammar.Repetition.Words
import TracedGrammar.Report.Basic
import TracedGrammar.Report.Entry
import TracedGrammar.Rule
import TracedGrammar.Sequence
import TracedGrammar.Stage
import TracedGrammar.Symbol.Basic
import TracedGrammar.Symbol.Set
import TracedGrammar.Symbol.Source
import TracedGrammar.Symbol.Supply
import TracedGrammar.Text.Constructor
