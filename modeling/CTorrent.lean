import CTorrent.Lib.Runs
import CTorrent.Bencode.RoundTrip
import CTorrent.Meta.InfoHash
import CTorrent.FileManager.Read
import CTorrent.FileManager.Wakeup
import CTorrent.FileManager.WriteQueue
import CTorrent.Net.Connection
import CTorrent.Peer.Bitfield
import CTorrent.Peer.Assembly
import CTorrent.Peer.Reassembly
import CTorrent.Peer.Honest
import CTorrent.Peer.Upload
import CTorrent.Peer.Wire
import CTorrent.Bencode.Bounds
import CTorrent.Meta.Coherent
import CTorrent.Meta.Publication
import CTorrent.FileManager.Paths
import CTorrent.Peer.Swarm
import CTorrent.Peer.WrittenOnce
import CTorrent.Peer.HashMisses
import CTorrent.FileManager.Disk
import CTorrent.FileManager.Resume
import CTorrent.FileManager.ResumeExact
import CTorrent.FileManager.FlatWrite
import CTorrent.Bencode.Soundness
import CTorrent.Peer.Flags
import CTorrent.Peer.Requested
import CTorrent.Lib.Leftmost
import CTorrent.FileManager.NextPiece
import CTorrent.Peer.OneEntry
import CTorrent.Peer.Idle
import CTorrent.Peer.Registry
import CTorrent.Lib.Popcount
import CTorrent.Util.Count
import CTorrent.Peer.Announce
import CTorrent.Peer.ConnectToPeers
import CTorrent.Peer.Served
import CTorrent.Peer.TrackerQuery
import CTorrent.Util.Cardinality
import CTorrent.Peer.Finished
import CTorrent.FileManager.Balance
import CTorrent.Peer.Known
import CTorrent.Peer.Checked
import CTorrent.Bencode.Termination
import CTorrent.Bencode.ReEncode
import CTorrent.Net.MessageBuffer
import CTorrent.Peer.Handshake
import CTorrent.Peer.CompactPeers
import CTorrent.Lib.Cut
import CTorrent.Util.ParseUrl
import CTorrent.Tracker.QueryTrackers
import CTorrent.Tracker.UdpRequest
import CTorrent.Tracker.UdpTracker
import CTorrent.Lib.Percent
import CTorrent.Util.UrlEncode
import CTorrent.Tracker.HttpRequest
import CTorrent.FileManager.DirectoryTrees
import CTorrent.FileManager.Gather
import CTorrent.Peer.Stream
import CTorrent.Peer.NeverServed
import CTorrent.FileManager.Growing
import CTorrent.Lib.Progress
import CTorrent.Peer.Leech
import CTorrent.Peer.Liveness
import CTorrent.Client.Download
import CTorrent.Client.Main
import CTorrent.Peer.Published
import CTorrent.Peer.Reconnect
import CTorrent.Peer.Restart
import CTorrent.Lib.Segments
import CTorrent.Tracker.HttpResponse
