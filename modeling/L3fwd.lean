import L3fwd.Hash.AddCongr
import L3fwd.Hash.AddKey
import L3fwd.Hash.Alone
import L3fwd.Hash.BfsQueue
import L3fwd.Hash.Capacity
import L3fwd.Hash.Chain
import L3fwd.Hash.Common
import L3fwd.Hash.Create
import L3fwd.Hash.Displacement
import L3fwd.Hash.Duplicates
import L3fwd.Hash.FailedInsert
import L3fwd.Hash.FiniteMap
import L3fwd.Hash.Insert
import L3fwd.Hash.Jhash
import L3fwd.Hash.KeyLength
import L3fwd.Hash.LockDiscipline
import L3fwd.Hash.Lookup
import L3fwd.Hash.Path
import L3fwd.Hash.PathCalls
import L3fwd.Hash.RingContract
import L3fwd.Hash.Search
import L3fwd.Hash.Sections
import L3fwd.Hash.Sizes
import L3fwd.Hash.Slots
import L3fwd.Hash.Stored
import L3fwd.Hash.Table
import L3fwd.Hash.Trace
import L3fwd.Hash.Writers
import L3fwd.Infra.Batches
import L3fwd.Infra.Board
import L3fwd.Infra.Bytes
import L3fwd.Infra.Contents
import L3fwd.Infra.Cursor
import L3fwd.Infra.Fifo
import L3fwd.Infra.Heap
import L3fwd.Infra.LevelOrder
import L3fwd.Infra.Memory
import L3fwd.Infra.Run
import L3fwd.Infra.Tokens
import L3fwd.Infra.Traced
import L3fwd.Nic.CheckCq
import L3fwd.Nic.CompletionQueue
import L3fwd.Nic.Defs
import L3fwd.Nic.Polling
import L3fwd.Nic.WorkQueue
import L3fwd.Ring.Defs
import L3fwd.Ring.Elems
import L3fwd.Ring.Hts
import L3fwd.Ring.HtsFifo
import L3fwd.Ring.HtsRun
import L3fwd.Ring.Mt
import L3fwd.Ring.MtFifo
import L3fwd.Ring.MtRun
import L3fwd.Ring.Peek
import L3fwd.Ring.Rts
import L3fwd.Ring.RtsRun
import L3fwd.Ring.RtsSim
import L3fwd.Ring.Sequential
import L3fwd.Ring.Windows
import L3fwd.Rpc.BufferRuns
import L3fwd.Rpc.CircularBuffer
import L3fwd.Rpc.CircularBuffers
import L3fwd.Rpc.Encoding
import L3fwd.Rpc.PackRange
import L3fwd.Rpc.Replies
import L3fwd.Rpc.ReplyBuffer
import L3fwd.Rpc.ReplyTarget
import L3fwd.Rpc.Shutdown
import L3fwd.Rpc.VmEncoding
import L3fwd.Rpc.Worker
