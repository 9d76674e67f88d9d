import AugmentedBnf.Grammar.Parse
import AugmentedBnf.Metagrammar.Rulelist
import AugmentedBnf.Proofs.Failure.Accounting
import AugmentedBnf.Proofs.Metagrammar.Rulelist
import AugmentedBnf.Proofs.Node.Tiling
import AugmentedBnf.Proofs.Cursor
import AugmentedBnf.Proofs.Derivation.Adequacy
import AugmentedBnf.Proofs.Matching.Approximation
import AugmentedBnf.Proofs.Grammar.Unfolding
import AugmentedBnf.Session.Parse
import AugmentedBnf.Proofs.Derivation.Totality
import AugmentedBnf.Proofs.Metagrammar.Termination
import AugmentedBnf.Proofs.Failure.Locality
import AugmentedBnf.Proofs.Failure.Viable
import AugmentedBnf.Proofs.Metagrammar.Extension
import AugmentedBnf.Proofs.Metagrammar.Line
import AugmentedBnf.Proofs.Node.Naming
import AugmentedBnf.Proofs.Metagrammar.Definition
import AugmentedBnf.Proofs.Matching.Remaining
import AugmentedBnf.Proofs.Failure.Record
import AugmentedBnf.Proofs.Failure.Truth
import AugmentedBnf.Proofs.Matching.Entry
import AugmentedBnf.Proofs.Session.Caching
import AugmentedBnf.Proofs.Derivation.Longest
import AugmentedBnf.Proofs.Metagrammar.Pattern
import AugmentedBnf.Proofs.Metagrammar.Longest
import AugmentedBnf.Proofs.Text.LineEnding
import AugmentedBnf.Proofs.Derivation.LineEnding
import AugmentedBnf.Proofs.Metagrammar.Recognition
import AugmentedBnf.Proofs.Metagrammar.LineEnding
import AugmentedBnf.Proofs.Metagrammar.WhiteSpace
import AugmentedBnf.Proofs.Matching.Stalling
import AugmentedBnf.Proofs.Matching.Grouping
import AugmentedBnf.Proofs.Text.Context
import AugmentedBnf.Proofs.Text.Layout
import AugmentedBnf.Proofs.Node.Preorder
import AugmentedBnf.Proofs.Matching.Visits
import AugmentedBnf.Proofs.Failure.First
