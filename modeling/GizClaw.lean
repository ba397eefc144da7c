import GizClaw.Lib.Bytes
import GizClaw.Lib.Rows
import GizClaw.Lib.Except
import GizClaw.KV.Basic
import GizClaw.KV.Logical
import GizClaw.KV.Memory
import GizClaw.KV.Badger
import GizClaw.KV.Theorems.Basic
import GizClaw.KV.Theorems.Memory
import GizClaw.KV.Theorems.Badger
import GizClaw.KV.Redis
import GizClaw.KV.Theorems.Logical
import GizClaw.KV.Theorems.Redis
import GizClaw.KV.SQL
import GizClaw.KV.Theorems.Backends
import GizClaw.KV.Concurrent
import GizClaw.KV.Theorems.Coverage
import GizClaw.KV.Theorems.Serializable
import GizClaw.KV.Theorems.Typed
import GizClaw.Lib.Interleaving
import GizClaw.Lib.Paging
import GizClaw.PendingDeletion.Index
import GizClaw.PendingDeletion.Listing
import GizClaw.PendingDeletion.Sample
import GizClaw.PendingDeletion.Theorems.Fencing
import GizClaw.PendingDeletion.Theorems.Index
import GizClaw.PendingDeletion.Theorems.Listing
import GizClaw.PendingDeletion.Theorems.Paging
import GizClaw.Friend.Records
import GizClaw.Friend.Server
import GizClaw.Friend.Theorems.Actions
import GizClaw.Friend.Theorems.Calls
import GizClaw.Friend.Theorems.Relations
import GizClaw.Friend.Theorems.Workspaces
import GizClaw.APIKey.Server
import GizClaw.APIKey.Theorems.Calls
import GizClaw.Gateway.Admission
import GizClaw.Gateway.Pool
import GizClaw.Gateway.Theorems.Admission
import GizClaw.Gateway.Theorems.AdmissionRuns
import GizClaw.Gateway.Theorems.Pool
import GizClaw.Gateway.Theorems.PoolRuns
import GizClaw.PeerSync.Server
import GizClaw.PeerSync.Theorems.Checkpoints
import GizClaw.PeerSync.Theorems.Clients
import GizClaw.PeerUsage.Recorder
import GizClaw.PeerUsage.Theorems.Invariant
import GizClaw.PeerUsage.Theorems.Usage
import GizClaw.Streamkit.Delivery
import GizClaw.Streamkit.Theorems.Delivery
import GizClaw.KV.Timed
import GizClaw.Lib.Sequential
import GizClaw.PendingDeletion.Lease
import GizClaw.PendingDeletion.Theorems.Lease
import GizClaw.Presence.Theorems.Transitions
import GizClaw.Social.InviteToken
import GizClaw.Social.Recovery
import GizClaw.Social.Theorems.InviteToken
import GizClaw.Social.Theorems.Recovery
import GizClaw.Social.Theorems.RecoveryPass
import GizClaw.Friend.Theorems.Conflicts
import GizClaw.Buffer.Block
import GizClaw.Buffer.Elements
import GizClaw.Buffer.Ring
import GizClaw.Buffer.Theorems.Block
import GizClaw.Buffer.Theorems.Growable
import GizClaw.Buffer.Theorems.Ring
import GizClaw.Buffer.Theorems.Wakeups
import GizClaw.Encoding.Base58
import GizClaw.Encoding.Standard
import GizClaw.Encoding.Theorems.Base58
import GizClaw.Encoding.Theorems.Standard
import GizClaw.Lib.Wildcard
import GizClaw.Trie.Stored
import GizClaw.Trie.Theorems.Trie
import GizClaw.Tunnel.Label
import GizClaw.Tunnel.Theorems.Label
import GizClaw.WebRTC.Stream
import GizClaw.WebRTC.Theorems.Stream
import GizClaw.AgentHost.AudioLead
import GizClaw.AgentHost.Theorems.AudioLead
import GizClaw.Streamkit.Theorems.Waits
import GizClaw.PeerUsage.Theorems.Flush
import GizClaw.VecID.Dbscan
import GizClaw.VecID.Theorems.Dbscan
import GizClaw.KeyedLock.Locker
import GizClaw.KeyedLock.Theorems.Locker
