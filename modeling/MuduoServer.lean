import MuduoServer.BufferQueue
import MuduoServer.HttpContentRuns
import MuduoServer.RoundTrip
import MuduoServer.Segmentation
import MuduoServer.StaticFiles
import MuduoServer.TimerExact
import MuduoServer.TimerFd
import MuduoServer.TaskQueue
import MuduoServer.Released
import MuduoServer.LifeCycle
import MuduoServer.OutputStream
import MuduoServer.StaleErrno
import MuduoServer.Persistence
import MuduoServer.ResponseStream
import MuduoServer.ConnTable
import MuduoServer.WriteInterest
import MuduoServer.BodyFraming
import MuduoServer.LineLimit
import MuduoServer.TimerReuse
import MuduoServer.FaithfulIds
import MuduoServer.EmptySend
import MuduoServer.RecasedStream
import MuduoServer.EchoSegments
import MuduoServer.LiveTargets
import MuduoServer.LoopThreadPool
import MuduoServer.UrlEscapes
import MuduoServer.RequestGrammar
import MuduoServer.HeadResponse
import MuduoServer.Reentry
import MuduoServer.EchoFraming
import MuduoServer.ProtocolSwitch
import MuduoServer.DomainRewriter
import MuduoServer.BufferMemory
import MuduoServer.PollerMirror
import MuduoServer.OwnedCells
import MuduoServer.AnyOwners
import MuduoServer.ParserTrail
import MuduoServer.UserCode
import MuduoServer.HttpService
import MuduoServer.NeverAborts
import MuduoServer.RoundsEnd
import MuduoServer.IdleConnections
import MuduoServer.SendOrder
import MuduoServer.ResponsesRead
import MuduoServer.FileTree
import MuduoServer.SiteBackups
import MuduoServer.SiteRewriter
import MuduoServer.HttpRefinement
import MuduoServer.HttpRounds
import MuduoServer.Footprint
import MuduoServer.ThreadsApart
import MuduoServer.LoopMirror
