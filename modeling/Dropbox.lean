import Dropbox.AcceptQueue
import Dropbox.AfterTakeover
import Dropbox.Backup
import Dropbox.BackupJoin
import Dropbox.Broadcast
import Dropbox.BroadcastLock
import Dropbox.ChangingFile
import Dropbox.CleanStreams
import Dropbox.Client
import Dropbox.ClientHandler
import Dropbox.ClientShutdown
import Dropbox.Configuration
import Dropbox.Confinement
import Dropbox.Delivery
import Dropbox.DeviceJoin
import Dropbox.DeviceThreads
import Dropbox.Dialogue
import Dropbox.DirectoryTree
import Dropbox.DownloadTarget
import Dropbox.DuplexChannel
import Dropbox.Election
import Dropbox.ElectionPhases
import Dropbox.ElectionSafety
import Dropbox.ElectionStream
import Dropbox.ElectionTermination
import Dropbox.EndOfStream
import Dropbox.EventBatches
import Dropbox.ExchangeFaults
import Dropbox.Failover
import Dropbox.FileStore
import Dropbox.FileTouches
import Dropbox.FirstElection
import Dropbox.General.Calls
import Dropbox.General.Codec
import Dropbox.General.Custody
import Dropbox.General.Notices
import Dropbox.General.Programs
import Dropbox.General.RingOrder
import Dropbox.General.SideBySide
import Dropbox.General.Stuttering
import Dropbox.General.TextStream
import Dropbox.General.Tiles
import Dropbox.General.Transitions
import Dropbox.General.Unwinding
import Dropbox.General.Words
import Dropbox.GrowingBackups
import Dropbox.HandlerCalls
import Dropbox.HandlerThreads
import Dropbox.Host
import Dropbox.InitialSync
import Dropbox.LocalCalls
import Dropbox.LocalEdits
import Dropbox.LocalFiles
import Dropbox.NextScan
import Dropbox.OrderingClient
import Dropbox.Orders
import Dropbox.Propagation
import Dropbox.Protocol
import Dropbox.ProtocolRules
import Dropbox.PutArea
import Dropbox.ReceiverFraming
import Dropbox.Reconnect
import Dropbox.Relay
import Dropbox.Replication
import Dropbox.RingFormation
import Dropbox.SendInterleaving
import Dropbox.SenderFraming
import Dropbox.ServerList
import Dropbox.ServerMain
import Dropbox.ServingHandler
import Dropbox.Session
import Dropbox.SessionFiles
import Dropbox.SocketOwner
import Dropbox.SocketStream
import Dropbox.StreamCalls
import Dropbox.StreamRules
import Dropbox.SyncLoops
import Dropbox.Takeover
import Dropbox.Truncation
import Dropbox.TurnRules
import Dropbox.UserInput
import Dropbox.UserIsolation
import Dropbox.Watcher
import Dropbox.WatcherPause
import Dropbox.WireRoundTrip
import Dropbox.WiredRuns
import Dropbox.Wiring
