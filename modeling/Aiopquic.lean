import Aiopquic.Lib.Interleave
import Aiopquic.Lib.Steps
import Aiopquic.Lib.Circular
import Aiopquic.Threads
import Aiopquic.StreamBuf
import Aiopquic.StreamCtx
import Aiopquic.SpscRing
import Aiopquic.RxQueue
import Aiopquic.RxFifo
import Aiopquic.RxWake
import Aiopquic.RxDelivery
import Aiopquic.RxDeliveryInv
import Aiopquic.RxDeliveryWorker
import Aiopquic.RxDeliveryDrain
import Aiopquic.RxCredit
import Aiopquic.RxCreditCallback
import Aiopquic.RxCreditRun
import Aiopquic.TxPath
import Aiopquic.TxPathPulls
import Aiopquic.TxActive
import Aiopquic.TxActiveWriter
import Aiopquic.TxLoop
import Aiopquic.TxLoopOutline
import Aiopquic.TxLoopRun
import Aiopquic.DrainSignal
import Aiopquic.Connection
import Aiopquic.Engine
import Aiopquic.StreamCb
import Aiopquic.Closing
import Aiopquic.Ending
import Aiopquic.CloseReasons
import Aiopquic.TxCommands
import Aiopquic.DgramRings
import Aiopquic.DgramRingsInv
import Aiopquic.DgramRingsRun
import Aiopquic.DgramMarks
import Aiopquic.DgramMarksInv
import Aiopquic.DgramMarksRun
import Aiopquic.DrainedSend
import Aiopquic.Lib.Counted
import Aiopquic.ScRefs
import Aiopquic.ScRefsInv
import Aiopquic.ScRefsRoute
import Aiopquic.ScRefsFlight
import Aiopquic.ScRefsWorker
import Aiopquic.ScRefsDrain
import Aiopquic.ScRefsApp
import Aiopquic.ScRefsRun
import Aiopquic.ClosingHandover
import Aiopquic.Lib.Atomic
import Aiopquic.TxPool
import Aiopquic.TxPoolBytes
import Aiopquic.HeldResets
import Aiopquic.HeldResetsRun
import Aiopquic.CleanupResets
import Aiopquic.ResetWake
import Aiopquic.WtSession
import Aiopquic.WebTransportSession
import Aiopquic.SessionEvents
import Aiopquic.StreamCreation
import Aiopquic.StreamCreationInv
import Aiopquic.StreamCreationRun
import Aiopquic.EventHandlers
import Aiopquic.StreamInboxes
import Aiopquic.StreamReaders
import Aiopquic.PeerStreams
import Aiopquic.ConnectParams
import Aiopquic.WtOpenParams
import Aiopquic.FinalSend
import Aiopquic.Lib.Fallible
import Aiopquic.StreamChain
import Aiopquic.FlatBuffer
import Aiopquic.ChainRefines
import Aiopquic.ObjectBody
import Aiopquic.ObjectParse
import Aiopquic.ObjectCodec
import Aiopquic.ObjectRoundTrip
import Aiopquic.ObjectReader
import Aiopquic.DrainsBacked
import Aiopquic.ObjectFaithful
import Aiopquic.RxRoutes
import Aiopquic.DatagramFifo
import Aiopquic.AtomicSend
import Aiopquic.WriteLengths
import Aiopquic.ExtensionBlock
import Aiopquic.EarlySend
import Aiopquic.FinCredit
import Aiopquic.WtErrorCodes
import Aiopquic.WtProtocols
import Aiopquic.RingBytes
import Aiopquic.BufferIntegrity
import Aiopquic.SourceChain
import Aiopquic.AlpnList
import Aiopquic.PushOrArm
import Aiopquic.RxWindow
import Aiopquic.SnapshotCache
import Aiopquic.Snapshots
import Aiopquic.RxReaders
import Aiopquic.DgramTable
import Aiopquic.DgramTableCalls
import Aiopquic.DgramTableRun
import Aiopquic.DualStackRun
import Aiopquic.RingHashes
import Aiopquic.DgramLifetimeRun
import Aiopquic.DispatchersRun
import Aiopquic.TransportEnd
import Aiopquic.WtContextsRun
