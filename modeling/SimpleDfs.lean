import SimpleDfs.Base.System
import SimpleDfs.Base.Ballot
import SimpleDfs.Base.IStream
import SimpleDfs.Base.Count
import SimpleDfs.Base.StdMap
import SimpleDfs.Base.BigEndian
import SimpleDfs.Base.Program
import SimpleDfs.Base.Padded
import SimpleDfs.Base.CondVar
import SimpleDfs.Base.Triple
import SimpleDfs.Base.Simulation
import SimpleDfs.Base.Tokens
import SimpleDfs.Base.Mutexes
import SimpleDfs.Rpc.AtMostOnce
import SimpleDfs.Rpc.RoundTrip
import SimpleDfs.Rpc.Decoding
import SimpleDfs.Rpc.Stubs
import SimpleDfs.Rpc.Framing
import SimpleDfs.Rpc.Duplicates
import SimpleDfs.Rpc.Acknowledged
import SimpleDfs.Rpc.Receive
import SimpleDfs.Rpc.References
import SimpleDfs.Rpc.Truncation
import SimpleDfs.Rpc.Handles
import SimpleDfs.Rpc.Deadline
import SimpleDfs.Rpc.Fifo
import SimpleDfs.Rpc.ThrPool
import SimpleDfs.Rpc.ExactlyOnce
import SimpleDfs.Paxos.Restore
import SimpleDfs.Paxos.Monotone
import SimpleDfs.Paxos.Agreement
import SimpleDfs.Paxos.Adoption
import SimpleDfs.Config.Upcall
import SimpleDfs.Config.ViewChain
import SimpleDfs.Config.NoGap
import SimpleDfs.Config.Heartbeat
import SimpleDfs.Rsm.Primary
import SimpleDfs.Rsm.Locking
import SimpleDfs.Rsm.Recovery
import SimpleDfs.Lock.MutualExclusion
import SimpleDfs.Lock.Progress
import SimpleDfs.Lock.Fifo
import SimpleDfs.Lock.Stale
import SimpleDfs.Lock.Untouched
import SimpleDfs.Lock.Refinement
import SimpleDfs.Lock.Pool
import SimpleDfs.Extent.Coherence
import SimpleDfs.Extent.Transparency
import SimpleDfs.Extent.WriteBack
import SimpleDfs.Yfs.Names
import SimpleDfs.Yfs.Creation
import SimpleDfs.Yfs.Files
import SimpleDfs.Yfs.LockBalance
import SimpleDfs.Yfs.Handover
import SimpleDfs.Yfs.Mount
