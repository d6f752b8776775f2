import OnionNetwork.Lib.Machine
import OnionNetwork.Lib.SortedMap
import OnionNetwork.Crypto.Primitives
import OnionNetwork.Codec.Encode
import OnionNetwork.Crypto.Proof
import OnionNetwork.Chat.Types
import OnionNetwork.Lib.Vec
import OnionNetwork.Chat.Member
import OnionNetwork.Server.Handle
import OnionNetwork.Server.Members
import OnionNetwork.Lib.TailFrame
import OnionNetwork.Chat.Message
import OnionNetwork.Lib.ByteFile
import OnionNetwork.Server.Log
import OnionNetwork.Server.Voting
import OnionNetwork.Server.Send
import OnionNetwork.Server.Requests
import OnionNetwork.Lib.Delegation
import OnionNetwork.Theorems.Privilege
import OnionNetwork.Theorems.Replay
import OnionNetwork.Merkle.Tree
import OnionNetwork.Server.Profile
import OnionNetwork.Theorems.Vault
import OnionNetwork.Server.Api
import OnionNetwork.Theorems.ProofBinding
import OnionNetwork.Server.ChatLog
import OnionNetwork.Theorems.LogFile
import OnionNetwork.Server.Calls
import OnionNetwork.Theorems.LogAlignment
import OnionNetwork.Theorems.BlockNumbers
import OnionNetwork.Theorems.Quorum
import OnionNetwork.Lib.Network
import OnionNetwork.Server.Replication
import OnionNetwork.Theorems.Agreement
import OnionNetwork.Opfusk.Handshake
import OnionNetwork.Theorems.Handshake
import OnionNetwork.Opfusk.Symbolic
import OnionNetwork.Opfusk.Sessions
import OnionNetwork.Lib.HeadFrame
import OnionNetwork.Server.Mailbox
import OnionNetwork.Theorems.Mailbox
import OnionNetwork.Lib.Loop
import OnionNetwork.Opfusk.Output
import OnionNetwork.Opfusk.Writer
import OnionNetwork.Opfusk.Reader
import OnionNetwork.Theorems.Stream
import OnionNetwork.Lib.Recent
import OnionNetwork.Ratchet.DoubleRatchet
import OnionNetwork.Ratchet.Calls
import OnionNetwork.Ratchet.Invariant
import OnionNetwork.Ratchet.Conversation
import OnionNetwork.Ratchet.Runs
import OnionNetwork.Theorems.MessageKeys
import OnionNetwork.Theorems.Duplex
import OnionNetwork.Theorems.Turns
import OnionNetwork.Theorems.LateMessages
import OnionNetwork.Lib.Replica
import OnionNetwork.Client.Vault
import OnionNetwork.Client.Devices
import OnionNetwork.Client.Keys
import OnionNetwork.Client.Replica
import OnionNetwork.Theorems.VaultRoots
import OnionNetwork.Lib.Search
import OnionNetwork.Dht.RoutingTable
import OnionNetwork.Lib.Groups
import OnionNetwork.Server.Repl
import OnionNetwork.Theorems.ReplicatedRequests
import OnionNetwork.Lib.FramedLoop
import OnionNetwork.Chat.Headers
import OnionNetwork.Chat.Loops
import OnionNetwork.Theorems.Framing
import OnionNetwork.Merkle.Push
import OnionNetwork.Lib.Parser
import OnionNetwork.Codec.Decode
import OnionNetwork.Lib.KeyedList
import OnionNetwork.Codec.Types
import OnionNetwork.Codec.Laws
import OnionNetwork.Codec.Honest
import OnionNetwork.Theorems.Codec
import OnionNetwork.Streaming.Behaviour
import OnionNetwork.Streaming.Requests
import OnionNetwork.Streaming.Swarm
import OnionNetwork.Streaming.Invariant
import OnionNetwork.Theorems.StreamRequests
import OnionNetwork.Lib.PowerTable
import OnionNetwork.Lib.Selection
import OnionNetwork.Chat.Combine
import OnionNetwork.Lib.HashMap
import OnionNetwork.Server.Reconstruct
import OnionNetwork.Theorems.Reconstruction
import OnionNetwork.Server.Recovery
import OnionNetwork.Theorems.Recoveries
import OnionNetwork.Lib.HandleCache
import OnionNetwork.Server.Recover
import OnionNetwork.Server.VaultRoot
import OnionNetwork.Server.Directories
import OnionNetwork.Theorems.Handles
import OnionNetwork.Theorems.ReplicaRecovery
import OnionNetwork.Merkle.Binding
import OnionNetwork.Theorems.SignedRoot
import OnionNetwork.Theorems.VaultBinding
import OnionNetwork.Server.ProfileFiles
import OnionNetwork.Theorems.RootValidity
import OnionNetwork.Lib.Interpolation
import OnionNetwork.Theorems.Rebuild
import OnionNetwork.Theorems.Topics
import OnionNetwork.Theorems.Finalizers
import OnionNetwork.Theorems.ValidatedBlocks
import OnionNetwork.Theorems.LocalProposals
import OnionNetwork.Theorems.Cooldown
import OnionNetwork.Server.History
import OnionNetwork.Theorems.History
import OnionNetwork.Lib.Alphabets
import OnionNetwork.Lib.FileTree
import OnionNetwork.Lib.StateFrame
import OnionNetwork.Server.Disk
import OnionNetwork.Theorems.Isolation
import OnionNetwork.Lib.DerivedIndex
import OnionNetwork.Client.Friends
import OnionNetwork.Theorems.FriendUpdates
import OnionNetwork.Ratchet.Routing
import OnionNetwork.Theorems.FriendMessages
import OnionNetwork.Merkle.Path
import OnionNetwork.Merkle.Proof
import OnionNetwork.Theorems.MerkleTree
import OnionNetwork.Lib.Crossings
import OnionNetwork.Theorems.HalfBlocks
import OnionNetwork.Theorems.ApiCalls
import OnionNetwork.Client.FetchedVault
import OnionNetwork.Fec.Rebuild
import OnionNetwork.Codec.DecodeExact
import OnionNetwork.Onion.Packet
import OnionNetwork.Theorems.OnionPath
import OnionNetwork.Codec.Base128
import OnionNetwork.Theorems.Decoders
import OnionNetwork.Theorems.Parity
import OnionNetwork.Fec.Simd
import OnionNetwork.Theorems.RoutingTable
import OnionNetwork.Lib.Elimination
import OnionNetwork.Fec.Standard
import OnionNetwork.Fec.Decode
import OnionNetwork.Fec.Syndromes
import OnionNetwork.Lib.Ends
import OnionNetwork.Theorems.Cheaters
import OnionNetwork.Lib.Sink
import OnionNetwork.Codec.Buffer
import OnionNetwork.Codec.Encoders
import OnionNetwork.Codec.Emits
import OnionNetwork.Theorems.Buffers
import OnionNetwork.Opfusk.Sender
import OnionNetwork.Opfusk.Moves
import OnionNetwork.Theorems.BufferSizes
import OnionNetwork.Opfusk.Agreement
import OnionNetwork.Onion.Behaviour
import OnionNetwork.Theorems.Relay
import OnionNetwork.Gateway.Behaviour
import OnionNetwork.Storage.Bandwidths
import OnionNetwork.Storage.NodeProfiles
import OnionNetwork.Theorems.NodeCalls
import OnionNetwork.Theorems.FilePlacement
import OnionNetwork.Storage.SortedCompactVec
import OnionNetwork.Theorems.FreeRanges
import OnionNetwork.Storage.Uri
import OnionNetwork.Theorems.Uri
import OnionNetwork.Fec.Inversion
import OnionNetwork.Theorems.Inversion
import OnionNetwork.Theorems.Division
import OnionNetwork.Theorems.Falcon
import OnionNetwork.Theorems.Rpc
import OnionNetwork.Theorems.Reputation
import OnionNetwork.Theorems.Fpr
