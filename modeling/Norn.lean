import Norn.Kv.Fleet
import Norn.Stream.Stall
import Norn.Stream.Completion
import Norn.Session.Timers
import Norn.Session.Identity
import Norn.Nornd.Members
import Norn.Nornd.ServedExact
import Norn.Nornd.PeerFetch
import Norn.Dht.Newest
import Norn.Dht.Binding
import Norn.Nornd.PersistRestore
import Norn.Forward.Pump
import Norn.Nornd.ObjectStore
import Norn.Nornd.IpcCodec
import Norn.Dht.Transactions
import Norn.Session.Dispatch
import Norn.Session.Replay
import Norn.Stream.EndOfStream
import Norn.Stream.Timer
import Norn.Session.Isolation
import Norn.Cluster.OwnRecord
import Norn.Raft.PreVote
import Norn.Raft.FollowerCommit
import Norn.Dht.StoreLimits
import Norn.Dht.SigningForm
import Norn.Dht.BencodeNumbers
import Norn.Dht.Rollback
import Norn.Session.EarlyData
import Norn.Session.Teardown
import Norn.Session.Notify
import Norn.Dht.NodeRecord
import Norn.Dht.Closest
import Norn.Dht.TableBounds
import Norn.Dht.Announced
import Norn.Dht.ExternalVote
import Norn.Dht.RecstoreDisk
import Norn.Kv.Watch
import Norn.Nornd.ServedLine
import Norn.Nornd.MainLoop
import Norn.Nornd.Publog
import Norn.Dht.PeerLookup
import Norn.Session.Idexch
import Norn.Nornd.Held
import Norn.Nornd.KeyFile
import Norn.Cluster.Replicated
