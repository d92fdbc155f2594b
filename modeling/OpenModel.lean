import OpenModel.Lib.Transition
import OpenModel.Lib.Progress
import OpenModel.Scheduler.Policy
import OpenModel.Scheduler.SectorCache
import OpenModel.Scheduler.State
import OpenModel.Scheduler.CheckWindowPost
import OpenModel.Scheduler.Schedule
import OpenModel.Scheduler.YieldInTime
import OpenModel.Scheduler.CacheAge
import OpenModel.Scheduler.Goroutines
import OpenModel.Scheduler.WinningPost
import OpenModel.Scheduler.ProofMonitor
import OpenModel.Lib.FileSystem
import OpenModel.Model.Manager
import OpenModel.Inference.Engine
import OpenModel.Inference.TransitionLock
import OpenModel.Inference.Ownership
import OpenModel.Inference.Coroutine
import OpenModel.Inference.ReturnedPause
import OpenModel.Inference.Custody
import OpenModel.Inference.FreedPause
import OpenModel.Inference.CoreCrash
import OpenModel.Inference.FailedSwitch
import OpenModel.Scheduler.WinMonitor
import OpenModel.Inference.Pool
import OpenModel.Scheduler.WinTimer
import OpenModel.Scheduler.ResumeWrite
import OpenModel.Scheduler.MonitorArmed
import OpenModel.Curio.ProofTable
import OpenModel.SchedulerClient.Listener
import OpenModel.SchedulerClient.AppliedYield
import OpenModel.SchedulerClient.LastCommand
import OpenModel.Inference.SwitchWhileYielded
import OpenModel.Inference.MiningRun
import OpenModel.Inference.KeptPause
import OpenModel.Inference.KeptResume
import OpenModel.Inference.Gate
import OpenModel.Inference.NamedWeights
import OpenModel.Inference.SwitchLock
import OpenModel.Inference.ServedModel
import OpenModel.Scheduler.Publish
import OpenModel.Scheduler.PublishedDecision
import OpenModel.Inference.Service
import OpenModel.Inference.Representation
import OpenModel.Inference.Stranded
import OpenModel.Inference.SoftYield
import OpenModel.Inference.Completion
import OpenModel.Inference.Isolation
import OpenModel.FocBridge.DownloadModel
import OpenModel.FocBridge.WriteStream
import OpenModel.FocBridge.Bridge
import OpenModel.FocBridge.SizeCap
import OpenModel.Lib.SplitFiles
import OpenModel.FocBridge.Upload
import OpenModel.FocBridge.StreamErrors
import OpenModel.FocBridge.Fallback
import OpenModel.FocBridge.SafeDest
import OpenModel.Model.FocReal
import OpenModel.Lib.Json
import OpenModel.Lib.Base64
import OpenModel.Inference.Receipt
import OpenModel.Scheduler.LookAhead
import OpenModel.Scheduler.UnknownSectors
import OpenModel.Scheduler.Zones
import OpenModel.Scheduler.VirtualDeadline
import OpenModel.Scheduler.ProvingSchedule
import OpenModel.Scheduler.ResumeDelay
import OpenModel.Scheduler.Countdown
import OpenModel.Curio.LogWatcher
import OpenModel.Curio.SplitLines
import OpenModel.Curio.Rotation
import OpenModel.Inference.ModelNames
import OpenModel.Inference.Streaming
import OpenModel.Lib.FileSteps
import OpenModel.Lib.RealPath
import OpenModel.Model.CrashSafety
import OpenModel.Inference.PickEngine
import OpenModel.Lib.OrderedDict
import OpenModel.Inference.SessionTable
import OpenModel.Inference.Conversation
import OpenModel.Inference.SseWire
import OpenModel.Inference.Continuation
import OpenModel.Inference.PoolStatus
import OpenModel.Model.TarExtract
import OpenModel.Scheduler.CompletedProofs
import OpenModel.Inference.VramRelease
import OpenModel.Lib.Space
import OpenModel.Lib.ScanInt
import OpenModel.Scheduler.MinerId
import OpenModel.Auth.BearerGates
import OpenModel.Inference.SignerKey
import OpenModel.Inference.TokenCounts
import OpenModel.Lib.Search
import OpenModel.Config.Interpolate
import OpenModel.Config.Expansion
import OpenModel.Lib.Refinement
import OpenModel.Scheduler.Pace
import OpenModel.Scheduler.HardStop
import OpenModel.Sidecar.System
import OpenModel.Sidecar.EndToEnd
import OpenModel.Sidecar.Prompt
import OpenModel.Sidecar.Resume
import OpenModel.Sidecar.Window
import OpenModel.Lib.Hearing
import OpenModel.Lib.PollUntil
import OpenModel.Scheduler.BoundedYield
import OpenModel.Inference.CommandOrder
import OpenModel.Sidecar.Worker
import OpenModel.Sidecar.Serving
