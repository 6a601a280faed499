import Reckoner.Lexer
import Reckoner.Main
import Reckoner.Proofs.Grammar
import Reckoner.Proofs.Recognition
import Reckoner.Proofs.Language
import Reckoner.Proofs.Viability
import Reckoner.Proofs.Executors
import Reckoner.Proofs.RoundTrip
import Reckoner.Proofs.Scanning
import Reckoner.Proofs.Delivery
import Reckoner.Proofs.Places
import Reckoner.Proofs.Partition
import Reckoner.Proofs.Reports
import Reckoner.Proofs.Streaming
import Reckoner.Proofs.Simulation
import Reckoner.Proofs.Changes
import Reckoner.Proofs.Relocation
import Reckoner.Proofs.Joining
import Reckoner.Proofs.Effects
import Reckoner.Proofs.FreeVariables
import Reckoner.Proofs.Nearest
import Reckoner.Proofs.ShortestDecimal
import Reckoner.Proofs.Literals
import Reckoner.Proofs.Dependence
import Reckoner.Proofs.Layout
import Reckoner.Proofs.Lines
import Reckoner.Proofs.Commands
import Reckoner.Proofs.Sessions
import Reckoner.Proofs.Nesting
import Reckoner.Proofs.Depths
import Reckoner.Proofs.Exactness
import Reckoner.Proofs.Evaluation
import Reckoner.Proofs.Differences
import Reckoner.Proofs.Equality
import Reckoner.Proofs.Snapshots
import Reckoner.Proofs.Spacing
import Reckoner.Proofs.Boundaries
import Reckoner.Proofs.Comments
import Reckoner.Proofs.Independence
import Reckoner.Proofs.Display
import Reckoner.Proofs.Labels
import Reckoner.Proofs.OnDemand
import Reckoner.Proofs.Expressions
import Reckoner.Proofs.Definitions
import Reckoner.Proofs.Divisions
import Reckoner.Proofs.Progress
import Reckoner.Proofs.Recursion
