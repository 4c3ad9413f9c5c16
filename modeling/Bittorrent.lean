import Bittorrent.Lib.Decimal
import Bittorrent.Lib.OrderedMap
import Bittorrent.Lib.Utf8
import Bittorrent.Lib.Bencode
import Bittorrent.Lib.Chunks
import Bittorrent.Lib.BlockHash
import Bittorrent.Lib.Sha1
import Bittorrent.Lib.JsonText
import Bittorrent.Basic
import Bittorrent.Json
import Bittorrent.Bencode.Types
import Bittorrent.Bencode.Decoders
import Bittorrent.Bencode.Denotation
import Bittorrent.Bencode.Encoders
import Bittorrent.Bencode.Soundness
import Bittorrent.Bencode.Canonical
import Bittorrent.Bencode.Exceptions
import Bittorrent.Bencode.Progress
import Bittorrent.Bencode.Accesses
import Bittorrent.Misc.Sha1
import Bittorrent.Misc.Transform
import Bittorrent.Misc.Checksum
import Bittorrent.Misc.TcpTransfer
import Bittorrent.Misc.Curl
import Bittorrent.Misc.Url
import Bittorrent.Dump
import Bittorrent.Torrent
import Bittorrent.Loading
import Bittorrent.Lib.Exec
import Bittorrent.Lib.Runs
import Bittorrent.Pieces
import Bittorrent.Proto.Types
import Bittorrent.Proto.Serialize
import Bittorrent.Proto.Deserialize
import Bittorrent.Proto.Stream
import Bittorrent.Proto.RoundTrip
import Bittorrent.Proto.Handshake
import Bittorrent.Proto.Numbers
import Bittorrent.Client.Piece
import Bittorrent.Client.PieceLen
import Bittorrent.Client.Session
import Bittorrent.Client.PeerHandshake
import Bittorrent.Client.Transfer
import Bittorrent.Client.BlockLoop
import Bittorrent.Client.Honest
import Bittorrent.Client.Worker
import Bittorrent.Misc.ParseIpPort
import Bittorrent.Client.Peers
import Bittorrent.Client.Tracker
import Bittorrent.Client.DownloadFile
import Bittorrent.Client.Schedule
import Bittorrent.Client.Rounds
import Bittorrent.Client.Integrity
import Bittorrent.Client.Swarm
import Bittorrent.Client.DownloadPiece
import Bittorrent.Client.Framing
import Bittorrent.Client.Choking
import Bittorrent.Client.Conversation
import Bittorrent.Client.HaveMode
import Bittorrent.Client.DeadPeers
import Bittorrent.Misc.Handlers
import Bittorrent.Misc.Transfers
import Bittorrent.Misc.Sockets
import Bittorrent.Misc.Timeouts
import Bittorrent.Printed
import Bittorrent.Main
import Bittorrent.Published
import Bittorrent.DownloadCommand
import Bittorrent.Reports
