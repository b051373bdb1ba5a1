import Kirakira.SharedPrefix
import Kirakira.Wakeup
import Kirakira.GoalReceipts
import Kirakira.DurableDelivery
import Kirakira.InboundHandoff
import Kirakira.SummaryRecords
import Kirakira.Deliveries
import Kirakira.AlertClaims
import Kirakira.AbandonedCalls
import Kirakira.ToolResults
import Kirakira.JobNotices
import Kirakira.OrderGates
import Kirakira.InstallSettlement
import Kirakira.Steers
import Kirakira.FollowupPolls
import Kirakira.HostBridge
import Kirakira.NominalTimes
import Kirakira.Feedback
import Kirakira.DriftReplay
import Kirakira.TurnPartition
import Kirakira.GoalRuntime
import Kirakira.ContentSubmissions
import Kirakira.ChangedFiles
import Kirakira.SummaryInputs
import Kirakira.Excerpts
import Kirakira.DeliveryHistory
import Kirakira.EffectDisposal
import Kirakira.WakeSummary
import Kirakira.StreamPreviews
import Kirakira.WakePreviews
import Kirakira.TerminalReplay
import Kirakira.FileEdits
import Kirakira.FileReads
import Kirakira.DirectoryPages
import Kirakira.SessionReference
import Kirakira.MemoryDocuments
import Kirakira.ToolParameters
