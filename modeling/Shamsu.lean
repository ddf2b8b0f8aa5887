import Shamsu.Patch.HalfRestored
import Shamsu.Control.Waiting
import Shamsu.Control.Runner
import Shamsu.Control.Drain
import Shamsu.Telegram.Broker
import Shamsu.Telegram.Poller
import Shamsu.Telegram.Guarded
import Shamsu.Telegram.Sessions
import Shamsu.Tools.Confined
import Shamsu.Chat.Overwrite
import Shamsu.Chat.Truthful
import Shamsu.Chat.Constrained
import Shamsu.Chat.Watermark
import Shamsu.Web.Api
import Shamsu.Ledger.Finished
import Shamsu.Ledger.Evidence
import Shamsu.Patch.Approval
import Shamsu.Patch.History
import Shamsu.Contract.Kept
import Shamsu.Session.Metadata
import Shamsu.Session.Claims
import Shamsu.Memory.Forget
import Shamsu.Context.Compiler
import Shamsu.Tools.SearchIndex
import Shamsu.Retriever.Citations
import Shamsu.Runtime.PlanRuns
import Shamsu.Runtime.Resume
import Shamsu.Runtime.Fanout
import Shamsu.Tools.EditChoice
import Shamsu.Chat.Symbols
import Shamsu.Chat.Gutter
import Shamsu.Chat.Outline
import Shamsu.Patch.Rewrite
import Shamsu.Tools.Remap
import Shamsu.Tools.Realign
import Shamsu.Tools.Compact
import Shamsu.Telegram.Transport
import Shamsu.Telegram.Pages
import Shamsu.Telegram.CardDelivery
import Shamsu.Web.FirstConnection
import Shamsu.Runtime.Bounded
import Shamsu.Runtime.Cycles
import Shamsu.Chat.Selection
import Shamsu.Runtime.FreshEvidence
import Shamsu.Runtime.RunControl
import Shamsu.Runtime.Replay
import Shamsu.Llm.FenceLength
import Shamsu.Ledger.Truncated
import Shamsu.Chat.ReadLoop
import Shamsu.Tasks.Milestones
import Shamsu.Repair.Progress
import Shamsu.Chat.PlanPhases
import Shamsu.Tasks.WriteScope
import Shamsu.Llm.QuoteRepair
import Shamsu.Tools.OutputFilter
import Shamsu.Tools.MarkdownFallback
import Shamsu.Prd.Statements
