import SmallScheme.Main
import SmallScheme.Proofs.Machine.Evaluation
import SmallScheme.Proofs.Machine.Step
import SmallScheme.Proofs.Machine.Simulation
import SmallScheme.Proofs.Machine.DepthBound
import SmallScheme.Proofs.Machine.TailPosition
import SmallScheme.Proofs.Number.Bits
import SmallScheme.Proofs.Number.Positional
import SmallScheme.Proofs.Character
import SmallScheme.Proofs.Store.External
import SmallScheme.Proofs.Token.Written
import SmallScheme.Proofs.Datum.Load
import SmallScheme.Proofs.Datum.Printed
import SmallScheme.Proofs.Expression.Parsing
import SmallScheme.Proofs.Machine.CallNames
import SmallScheme.Proofs.Machine.Acyclic
import SmallScheme.Proofs.Machine.History
import SmallScheme.Proofs.Machine.Failing
import SmallScheme.Proofs.Batch.Agreement
import SmallScheme.Proofs.Token.Pushback
import SmallScheme.Proofs.Token.Answers
import SmallScheme.Proofs.Datum.Ending
import SmallScheme.Proofs.Token.Position
import SmallScheme.Proofs.Machine.Scoping
import SmallScheme.Proofs.Machine.CallScope
import SmallScheme.Proofs.Store.Printer
import SmallScheme.Proofs.Store.Rebuilding
