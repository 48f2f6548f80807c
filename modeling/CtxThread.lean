import CtxThread.Main
import CtxThread.Types.Session
import CtxThread.Proofs.Code.Layout
import CtxThread.Proofs.Code.Scan
import CtxThread.Proofs.Code.Rule
import CtxThread.Proofs.Code.Parse
import CtxThread.Proofs.Edit.Plan
import CtxThread.Proofs.Output
import CtxThread.Proofs.Settled
import CtxThread.Proofs.Types.Answers
import CtxThread.Proofs.Types.Circular
import CtxThread.Proofs.Code.Keys
import CtxThread.Proofs.Planned
import CtxThread.Proofs.Threading
import CtxThread.Proofs.Tokens
import CtxThread.Proofs.Selection
import CtxThread.Proofs.Provenance
import CtxThread.Proofs.Disk
import CtxThread.Proofs.Load.Partition
import CtxThread.Proofs.Command.Account
import CtxThread.Proofs.Command.Effects
import CtxThread.Proofs.Command.Ending
import CtxThread.Proofs.Command.Isolation
import CtxThread.Proofs.Seed.Layout
import CtxThread.Proofs.Leading
import CtxThread.Proofs.Types.Alias
import CtxThread.Proofs.Edit.Operations
import CtxThread.Proofs.Command.Report
import CtxThread.Proofs.Bodies
import CtxThread.Proofs.Code.Preorder
import CtxThread.Proofs.Import.Resolved
import CtxThread.Proofs.Import.First
