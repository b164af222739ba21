import TemporalRequirements.Main
import TemporalRequirements.Proofs.Decomposition.Placeholders
import TemporalRequirements.Proofs.Decomposition.ScopeKeyword
import TemporalRequirements.Proofs.Decomposition.Table
import TemporalRequirements.Proofs.Decomposition.UnrolledText
import TemporalRequirements.Proofs.Engine.Success
import TemporalRequirements.Proofs.Formula.Limits
import TemporalRequirements.Proofs.Formula.Lookahead
import TemporalRequirements.Proofs.Grammar.AtomText
import TemporalRequirements.Proofs.Grammar.Enclosed
import TemporalRequirements.Proofs.Grammar.Lowered
import TemporalRequirements.Proofs.Grammar.Precedence
import TemporalRequirements.Proofs.Grammar.PrintedPredicate
import TemporalRequirements.Proofs.ModelChecker.Definitions
import TemporalRequirements.Proofs.Monitor.Alarms
import TemporalRequirements.Proofs.Monitor.Deadlines
import TemporalRequirements.Proofs.Monitor.Overlap
import TemporalRequirements.Proofs.Monitor.Resplicing
import TemporalRequirements.Proofs.Proposition.Arrows
import TemporalRequirements.Proofs.Scope.Repair
import TemporalRequirements.Proofs.Smt.Clash
import TemporalRequirements.Proofs.Smt.Constructors
import TemporalRequirements.Proofs.Smt.Faithful
import TemporalRequirements.Proofs.Smt.Links
import TemporalRequirements.Proofs.Smt.Sorts
import TemporalRequirements.Proofs.Store.Capture
import TemporalRequirements.Proofs.Store.Independence
import TemporalRequirements.Proofs.Store.Monitors
import TemporalRequirements.Proofs.Text.Core
import TemporalRequirements.Proofs.Text.Redundant
import TemporalRequirements.Text.Alphanumeric
import TemporalRequirements.Text.RedundantParentheses
