import Ally.ActivationOrder
import Ally.TerminalAttempts
import Ally.NewestUpload
import Ally.BridgeAttribution
import Ally.FrozenChunks
import Ally.DirtyMarker
import Ally.DenseVisibility
import Ally.StageFallback
import Ally.Interaction
import Ally.ToolAuthorization
import Ally.HistoryExchanges
import Ally.TurnProtocol
import Ally.DevicePairing
import Ally.TicketSafety
import Ally.ActionPolicy
import Ally.AppLauncher
import Ally.LocalAgent
import Ally.ConsentGating
import Ally.ShellAudit
import Ally.MongoHistory
import Ally.ChunkFidelity
import Ally.Corpus
import Ally.FusionLaws
import Ally.MmrGreedy
import Ally.EmbeddingSpace
import Ally.LexicalMatches
import Ally.PointEdits
import Ally.Reconciliation
import Ally.Registration
import Ally.ArtifactJanitor
import Ally.Redelivery
import Ally.Admission
import Ally.AdmissionWindow
import Ally.SocketSessions
import Ally.InferenceGate
import Ally.TaskDrain
import Ally.TextractJob
import Ally.Paths
import Ally.ExtractionRoutes
import Ally.MaterializedSource
import Ally.Urls
import Ally.Json
import Ally.ArtifactStore
import Ally.ArtifactAddress
import Ally.ArtifactRoundTrip
import Ally.UploadReferences
import Ally.ProbingOrder
import Ally.SearchPrediction
import Ally.ShellOutput
import Ally.OpenedUrl
import Ally.Wire
import Ally.ReceiveLoop
import Ally.JsonSize
import Ally.ResultFrames
import Ally.IndexCache
import Ally.Grouping
import Ally.PageAttribution
import Ally.TypedApproval
import Ally.CommandQuoting
import Ally.ActivityRetries
import Ally.StoreHistory
import Ally.StoreAgreement
import Ally.StoreRuns
import Ally.Regions
import Ally.ModelOutput
import Ally.Condense
import Ally.Generators
import Ally.Gateway
import Ally.JsonAscii
import Ally.ApprovalPrompt
