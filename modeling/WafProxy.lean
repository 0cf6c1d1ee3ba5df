import WafProxy.Accept
import WafProxy.AcceptRotation
import WafProxy.BlockedSides
import WafProxy.ConnectionTable
import WafProxy.Conservation
import WafProxy.Direction
import WafProxy.EveryConnection
import WafProxy.Free
import WafProxy.HandOver
import WafProxy.Handlers
import WafProxy.Held
import WafProxy.Http.AppendedText
import WafProxy.Http.Arg
import WafProxy.Http.ArgRecords
import WafProxy.Http.Arguments
import WafProxy.Http.Attribution
import WafProxy.Http.Backward
import WafProxy.Http.Base64
import WafProxy.Http.Base64Text
import WafProxy.Http.Basic
import WafProxy.Http.BasicAuth
import WafProxy.Http.Body
import WafProxy.Http.Boundary
import WafProxy.Http.CacheBound
import WafProxy.Http.ChunkSize
import WafProxy.Http.Chunked
import WafProxy.Http.ChunkedArgs
import WafProxy.Http.ContentLength
import WafProxy.Http.CookieCount
import WafProxy.Http.CurrentArg
import WafProxy.Http.CutArgs
import WafProxy.Http.CutForm
import WafProxy.Http.Decode
import WafProxy.Http.DecodeBounds
import WafProxy.Http.DecodeLength
import WafProxy.Http.DecodeRuns
import WafProxy.Http.Detect
import WafProxy.Http.EncodedArgs
import WafProxy.Http.EntityText
import WafProxy.Http.EscapeText
import WafProxy.Http.FieldLines
import WafProxy.Http.Files
import WafProxy.Http.FilesLost
import WafProxy.Http.Form
import WafProxy.Http.FormSteps
import WafProxy.Http.Frame
import WafProxy.Http.Head
import WafProxy.Http.HeadEnd
import WafProxy.Http.HeadLines
import WafProxy.Http.HeadSearch
import WafProxy.Http.Header
import WafProxy.Http.HeaderBlock
import WafProxy.Http.HeaderCalls
import WafProxy.Http.HeaderScript
import WafProxy.Http.HeldHead
import WafProxy.Http.KeepAlive
import WafProxy.Http.Leftover
import WafProxy.Http.LineEdits
import WafProxy.Http.LineScan
import WafProxy.Http.MethodLine
import WafProxy.Http.Modify
import WafProxy.Http.Multipart
import WafProxy.Http.Nested
import WafProxy.Http.PacketCuts
import WafProxy.Http.Packets
import WafProxy.Http.PartsLost
import WafProxy.Http.Path
import WafProxy.Http.PathText
import WafProxy.Http.PercentText
import WafProxy.Http.Recount
import WafProxy.Http.References
import WafProxy.Http.RequestHead
import WafProxy.Http.RequestLine
import WafProxy.Http.Search
import WafProxy.Http.Slots
import WafProxy.Http.Splice
import WafProxy.Http.StoredText
import WafProxy.Http.Strings
import WafProxy.Http.Types
import WafProxy.Http.UrlArgs
import WafProxy.Http.UrlEdit
import WafProxy.Inspect
import WafProxy.Ip.Addr
import WafProxy.Ip.Compare
import WafProxy.Ip.Mask
import WafProxy.Ip.Port
import WafProxy.Ip.PortTrip
import WafProxy.Ip.Range
import WafProxy.Ip.Texts
import WafProxy.Lib.Answers
import WafProxy.Lib.BreadthFirst
import WafProxy.Lib.Buffer
import WafProxy.Lib.ByteOrder
import WafProxy.Lib.CString
import WafProxy.Lib.Cells
import WafProxy.Lib.Comparison
import WafProxy.Lib.Decimal
import WafProxy.Lib.Escapes
import WafProxy.Lib.FirstEdit
import WafProxy.Lib.FirstMatch
import WafProxy.Lib.InPlace
import WafProxy.Lib.LinkedList
import WafProxy.Lib.LongestSuffix
import WafProxy.Lib.Machine
import WafProxy.Lib.Memory
import WafProxy.Lib.Move
import WafProxy.Lib.Pieces
import WafProxy.Lib.Ring
import WafProxy.Lib.RoundRobin
import WafProxy.Lib.Separated
import WafProxy.Lib.SqlText
import WafProxy.Lib.Stack
import WafProxy.Lib.TailQueue
import WafProxy.Lib.Window
import WafProxy.Lifetime
import WafProxy.LoadCfg
import WafProxy.Log
import WafProxy.LogBounds
import WafProxy.LogText
import WafProxy.NowLive
import WafProxy.OrderlyClose
import WafProxy.Ownership
import WafProxy.Packet
import WafProxy.PacketQueue
import WafProxy.Pool
import WafProxy.PoolMemory
import WafProxy.PoolRun
import WafProxy.PoolUnits
import WafProxy.Receive
import WafProxy.RingQueue
import WafProxy.Rules.Acsm
import WafProxy.Rules.AcsmBuild
import WafProxy.Rules.AcsmConvert
import WafProxy.Rules.AcsmSearch
import WafProxy.Rules.AcsmTrie
import WafProxy.Rules.Chain
import WafProxy.Rules.Complete
import WafProxy.Rules.Detection
import WafProxy.Rules.Evasion
import WafProxy.Rules.Keys
import WafProxy.Rules.Load
import WafProxy.Rules.Match
import WafProxy.Rules.Targets
import WafProxy.Senders
import WafProxy.Sqlite
import WafProxy.TableRecords
import WafProxy.TableRun
import WafProxy.Traffic
import WafProxy.WorkInvariant
import WafProxy.WorkLoop
import WafProxy.Worker
