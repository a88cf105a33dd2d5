import XwpServer.Cutting
import XwpServer.WellFormedHead
import XwpServer.Timeout
import XwpServer.RequestPools
import XwpServer.Descriptors
import XwpServer.Dispatch
import XwpServer.FreeList
import XwpServer.OwnSocket
import XwpServer.AbsentFields
import XwpServer.StaticFile
import XwpServer.UwsgiContent
import XwpServer.DeclaredLength
import XwpServer.UrlSplit
import XwpServer.RequestLine
import XwpServer.HeaderMap
import XwpServer.HeadReading
import XwpServer.ConfParse
import XwpServer.BackendHeaders
import XwpServer.StatusTables
import XwpServer.UwsgiModule
import XwpServer.ConfDestroy
import XwpServer.Interrupted
import XwpServer.VhostSelect
import XwpServer.Supervision
import XwpServer.Persistence
import XwpServer.Pool
import XwpServer.UpstreamAbort
import XwpServer.PacketSize
import XwpServer.Growing
import XwpServer.StrInvariant
import XwpServer.FailedExchange
import XwpServer.Framing
import XwpServer.ResponseRun
import XwpServer.Serving
import XwpServer.TokenRun
import XwpServer.PointerArray
import XwpServer.KeptConnection
import XwpServer.XmlConf
import XwpServer.XmlRead
import XwpServer.XmlVisit
import XwpServer.Relay
import XwpServer.Routing
import XwpServer.XmlFaults
import XwpServer.WellFormedReply
