import Bqti.Core.Run
import Bqti.Core.Pool
import Bqti.Core.Framing
import Bqti.Core.Path
import Bqti.Core.Directory
import Bqti.Core.Volume
import Bqti.Core.VolumeNames
import Bqti.Core.VolumePath
import Bqti.Core.VolumeWalk
import Bqti.Core.Ranking
import Bqti.Core.Bits
import Bqti.Core.Stream
import Bqti.Core.Delta
import Bqti.Core.IndexMap
import Bqti.Core.Search
import Bqti.Core.FixedWindow
import Bqti.Core.Recency
import Bqti.Core.Bencode
import Bqti.Core.BencodeCut
import Bqti.Core.BencodeForm
import Bqti.Core.Keyed
import Bqti.Core.Lines
import Bqti.Core.Json
import Bqti.Core.JsonForm
import Bqti.Core.JsonLines
import Bqti.Core.Sha256
import Bqti.Core.Sha1
import Bqti.Chunks.FileHandler
import Bqti.Chunks.Assembly
import Bqti.Chunks.Completeness
import Bqti.Torrent.Metainfo
import Bqti.Torrent.PieceHash
import Bqti.Torrent.FileTree
import Bqti.Torrent.Merkle
import Bqti.Torrent.Flatten
import Bqti.Torrent.LayoutOrder
import Bqti.Torrent.Layers
import Bqti.Torrent.Addr
import Bqti.Torrent.Magnet
import Bqti.Torrent.Codec
import Bqti.Torrent.Saved
import Bqti.Torrent.HashFailure
import Bqti.Torrent.Path
import Bqti.Torrent.Validation
import Bqti.Network.Message
import Bqti.Session.BitField
import Bqti.Session.PieceSet
import Bqti.Session.Verify
import Bqti.Session.Download.State
import Bqti.Session.Download.Step
import Bqti.Session.Download.Integrity
import Bqti.Session.Download.Completion
import Bqti.Session.Download.Marking
import Bqti.Session.Routing
import Bqti.Session.Cache
import Bqti.Session.Manager
import Bqti.Session.Confinement
import Bqti.Session.Allocation
import Bqti.Session.Closing
import Bqti.Session.Lifecycle.Resources
import Bqti.Session.Lifecycle.State
import Bqti.Session.Lifecycle.Step
import Bqti.Session.Lifecycle.Shortcut
import Bqti.Session.Lifecycle.Cancellation
import Bqti.Session.Lifecycle.Edges
import Bqti.Session.Lifecycle.Failure
import Bqti.Session.Lifecycle.Ownership
import Bqti.Session.Lifecycle.Flow
import Bqti.Session.Lifecycle.FlowViews
import Bqti.Session.Lifecycle.Switch
import Bqti.Session.Lifecycle.Paused
import Bqti.Session.Removal.Step
import Bqti.Session.Removal.Tables
import Bqti.Session.Removal.Final
import Bqti.Session.Peers.Pipeline
import Bqti.Session.Peers.State
import Bqti.Session.Peers.Task
import Bqti.Session.Peers.Act
import Bqti.Session.Peers.Step
import Bqti.Session.Peers.Identity
import Bqti.Session.Peers.Interest
import Bqti.Session.Peers.Slots
import Bqti.Session.Peers.Flags
import Bqti.Session.Peers.Greeting
import Bqti.Session.Peers.Pair
import Bqti.Session.Peers.Refinement
import Bqti.Session.Peers.Agreement
import Bqti.Session.Peers.Requests
import Bqti.Session.Bounds
import Bqti.Session.Transfer
import Bqti.Session.Upload
import Bqti.Session.PieceAuth
import Bqti.Session.PieceSize
import Bqti.Session.Discovery
import Bqti.Dht.Rpc
import Bqti.Dht.Pending
import Bqti.Dht.Auth.Manager
import Bqti.Dht.Auth.RateLimit
import Bqti.Dht.Auth.Attestation
import Bqti.Dht.Auth.TokenHash
import Bqti.Dht.Node
import Bqti.Dht.Moves
import Bqti.Dht.Gate
import Bqti.Dht.Auth.Issue
import Bqti.Dht.Service
import Bqti.Dht.Trust
import Bqti.Dht.Network
import Bqti.Dht.Entity
import Bqti.Dht.Store
import Bqti.Dht.Retention
import Bqti.Dht.Announce
import Bqti.Dht.Routing.RouteTable
import Bqti.Dht.Routing.Split
import Bqti.Dht.Routing.Closest
import Bqti.Dht.Routing.Acknowledge
import Bqti.Dht.Routing.Refresh
import Bqti.Dht.Routing.Lookup
import Bqti.Dht.Routing.Certified
import Bqti.Dht.Routing.FindValue
import Bqti.Dht.Routing.Nearness
import Bqti.Dht.Routing.Answer
import Bqti.Dht.Wire
import Bqti.Dht.Routing.TorrentDht
import Bqti.Network.Connections
import Bqti.Network.Registered
import Bqti.Network.Connect
import Bqti.Network.Dial
import Bqti.Pex.Router
import Bqti.Pex.View
import Bqti.Pex.Torrents
import Bqti.Pex.Exchange
import Bqti.Pex.Calls
import Bqti.Network.Traffic
import Bqti.Ipc.State
import Bqti.Ipc.Stream
import Bqti.Ipc.Client
import Bqti.Ipc.Wire
import Bqti.Ipc.Socket
import Bqti.Ipc.Daemon
import Bqti.Ipc.Listing
import Bqti.Enclave.ProofOfWork
import Bqti.Enclave.Termination
import Bqti.Enclave.Difficulty
import Bqti.Enclave.Host
import Bqti.Core.LineCalls
import Bqti.I2p.DestMap
import Bqti.I2p.Session
import Bqti.I2p.Socket
import Bqti.I2p.Tunnel
import Bqti.Torrent.V2Builder
import Bqti.Torrent.TopLevel
import Bqti.Core.Crash
import Bqti.Session.Persist
import Bqti.Certs.Root
