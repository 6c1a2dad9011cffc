import P2Player.Lib.Slice
import P2Player.Lib.Cursor
import P2Player.Lib.Sections
import P2Player.Lib.Loop
import P2Player.Lib.Transition
import P2Player.Java.Integer
import P2Player.Pieces.PiecesState
import P2Player.Lib.Eviction
import P2Player.Lib.Lifetime
import P2Player.Lib.Runs
import P2Player.Lib.Rounding
import P2Player.Lib.Framing
import P2Player.Native.PieceDataQueue
import P2Player.Native.ReadAccounting
import P2Player.Native.SaveResumeData
import P2Player.Native.AlertDrains
import P2Player.Native.SaveFile
import P2Player.Native.Torrents
import P2Player.Native.Ownership
import P2Player.Native.AsyncAdd
import P2Player.Http.SendFileData
import P2Player.Util.MultipartDownloader
import P2Player.Util.PartRanges
import P2Player.Java.Text
import P2Player.Http.Serve
import P2Player.Http.ByteRange
import P2Player.Java.Utf16
import P2Player.Native.Sha1Hash
import P2Player.Native.HashArgument
import P2Player.Native.TorrentProgress
import P2Player.Java.StringUtils
import P2Player.Manager.TorrentManager
import P2Player.Manager.Restart
import P2Player.Manager.CachePolicy
import P2Player.Manager.NativeSession
import P2Player.Manager.OneStream
import P2Player.Http.Sessions
import P2Player.Http.Acceptor
import P2Player.Lib.Program
import P2Player.Java.TreeMap
import P2Player.Pieces.Queries
import P2Player.Pieces.FirstIncomplete
import P2Player.Pieces.Counts
import P2Player.Stream.Request
import P2Player.Stream.Offsets
import P2Player.Stream.Streamer
import P2Player.Java.Float
import P2Player.Stream.HyperStreamer
import P2Player.Stream.PieceRemain
import P2Player.Stream.Quiet
import P2Player.Stream.Sound
import P2Player.Stream.Download
import P2Player.Stream.Range
import P2Player.Stream.Frame
import P2Player.Stream.Iteration
import P2Player.Stream.ReadComplete
import P2Player.Stream.Deadlines
import P2Player.Stream.NeedDataHelp
import P2Player.Stream.GapFetching
import P2Player.Stream.RetrievePiece
import P2Player.Stream.DataConnector
import P2Player.Stream.Reconnect
import P2Player.Stream.AddPieceService
import P2Player.Update.ComponentUpdater
import P2Player.Update.Progress
import P2Player.Lib.PaddedLex
import P2Player.Update.UpdateChecker
import P2Player.Lib.Linearizable
import P2Player.Util.AtomicBitSet
import P2Player.Util.Average
import P2Player.Http.Parse
import P2Player.Http.PercentEncoding
import P2Player.Http.QueryEncoding
import P2Player.Http.Run
import P2Player.Native.PiecePicker
import P2Player.Native.StreamPlugin
import P2Player.Native.DownloadQueue
import P2Player.Native.QueueInvariant
import P2Player.Native.DiskWrites
import P2Player.Native.TimeCritical
import P2Player.Native.PriorityList
import P2Player.Native.PickOrder
import P2Player.Lib.Scatter
import P2Player.Native.Storage
import P2Player.Native.Bencode
import P2Player.Native.LazyBdecode
import P2Player.Native.LazyBounds
