import L3fwd.Infra.Memory
import L3fwd.Nic.CompletionQueue
import L3fwd.Nic.WorkQueue
import L3fwd.Rpc.Encoding

/-!
# worker のループ

`l3fwd/worker.c` の `run_worker` と、その中で呼ばれる `rpc_shm/rpc.cpp` の
`receiveRPCRequest_zsim_l3fwd` / `sendToNode_zsim` / `do_Recv_zsim`。

一回の iteration は、CQ で要求を待ち、返信を local buffer に書いて SEND を投入し、
受信 buffer を返す RECV を投入する。NIC は歩と歩のあいだに CQ へ push し、
WQ の entry の valid を落とす。

* `rmc_check_cq` の呼び出しは `CqSystem` の一歩ずつで進める。
* 初期化されない局所変数は、それを使う一歩が引数 `Locals` で受け取る。値に制限は無い。
* `nb_tx_tot` は `Nat` で数え、`rpc_send_count` に渡すとき 32 bit に切り詰める。
* `printf` / `timestamp` などの通知は状態を変えないので現れない。
-/

namespace L3fwd.Rpc

open Infra Nic

/-! ## local buffer -/

/-- `MSGS_PER_PAIR`。 -/
def msgsPerPair : UInt64 := 256

/-- `RPC_MAX_PAYLOAD`。 -/
def rpcMaxPayload : UInt64 := 512

def srCtxId : UInt16 := 7

/-- `ctx_entry_t` のうち、送信が読む field。 -/
structure CtxEntry where
  ctxId : UInt16
  msgEntrySize : UInt64
  msgsPerDest : UInt64

/-- `createRPCNUMAContext` が設定する値。 -/
def createRPCNUMAContext : CtxEntry where
  ctxId := srCtxId
  msgEntrySize := rpcMaxPayload
  msgsPerDest := msgsPerPair

/-- `NIExposedBuffer`。`underlyingBuffer` は `uint32_t *` である。 -/
structure NIExposedBuffer where
  underlyingBuffer : UInt64

/-- `getUnderlyingAddress`。`uint32_t *` に足すので、引数の 4 倍だけ進む。 -/
def NIExposedBuffer.getUnderlyingAddress (b : NIExposedBuffer) (byteOffset : Int32) : UInt64 :=
  b.underlyingBuffer + 4 * byteOffset.toInt64.toUInt64

/-- `sendToNode_zsim` が使う local buffer の番地。 -/
def netBufferVaddr (ctx : CtxEntry) (buf : NIExposedBuffer) (rpcSendCount : UInt32) : UInt64 :=
  let lbufOffset := (rpcSendCount.toUInt64 % ctx.msgsPerDest) * ctx.msgEntrySize
  buf.getUnderlyingAddress lbufOffset.toUInt32.toInt32

/-- 一つの返信。`sendToNode_zsim` の `messageByteSize` / `skipcpy` / `raw_payload_data`。 -/
structure Message where
  size : UInt64
  skipcpy : Bool
  raw : Nat → UInt8

/-- local buffer に書く byte 数。copy を省くときも header の 4 byte は書く。 -/
def Message.writtenLen (m : Message) : Nat := if m.skipcpy then 4 else m.size.toNat

def Message.writtenByte (m : Message) : Nat → UInt8 :=
  if m.skipcpy then Mem.byteOf 0x1234 else m.raw

/-- 番地 `a` は `addr` から `len` byte の範囲にある。 -/
def InRange (addr : UInt64) (len : Nat) (a : UInt64) : Prop := (a - addr).toNat < len

instance (addr : UInt64) (len : Nat) (a : UInt64) : Decidable (InRange addr len a) :=
  inferInstanceAs (Decidable (_ < _))

/-- 範囲 `addr` から `len` byte への書き込み。 -/
def writeRange (mem : UInt64 → UInt8) (addr : UInt64) (len : Nat) (f : Nat → UInt8) :
    UInt64 → UInt8 :=
  fun a => if InRange addr len a then f (a - addr).toNat else mem a

/-! ## 要求の受信 -/

/-- 初期化されない局所変数。 -/
structure Locals where
  frame : CheckFrame
  rpc : RPCWithHeader
  sourceNodeId : UInt64

/-- `receiveRPCRequest_zsim_l3fwd` の返り値。代入されない field は前の内容のままである。 -/
def receivedRpc (clientDone : Bool) (junk : RPCWithHeader) (ret : SuccessStruct) :
    RPCWithHeader :=
  if clientDone then { junk with payloadLen := 0xdead }
  else { junk with payload := ret.recvBufAddr.toNat, sendersNid := ret.tid.toUInt16 }

/-- `*source_node_id = tid`。`uint16_t *` を通すので下位 16 bit だけが変わる。 -/
def writeSourceNodeId (junk : UInt64) (tid : UInt32) : UInt64 :=
  (junk &&& 0xFFFFFFFFFFFF0000) ||| tid.toUInt16.toUInt64

/-! ## worker の機械 -/

/-- `run_worker` のループの位置。 -/
inductive WorkerPc where
  | receive
  | test (ret : SuccessStruct)
  | checkDone (ret : SuccessStruct)
  | write (rpc : RPCWithHeader) (destNode : UInt32)
  | spin (rpc : RPCWithHeader) (destNode : UInt32)
  | recv (rpc : RPCWithHeader)
  | exited

/-- worker の設定。`reply k` は `k` 番目の返信である。 -/
structure WorkerParams where
  ctx : CtxEntry
  buf : NIExposedBuffer
  reply : Nat → Message

/-- worker と queue と local buffer の memory。`accepted` は受け付けられた投入の履歴である。 -/
structure WorkerSystem where
  q : CqSystem
  mem : UInt64 → UInt8
  clientDone : Bool
  pc : WorkerPc
  nbTxTot : Nat
  accepted : List Post

inductive WorkerAction where
  | push (e : CqEntry)
  | complete (i : Fin maxNumWq)
  | setClientDone (b : Bool)
  | run (junk : Locals)

/-- `wq->q[i].valid = 0`。NIC が entry の処理を終えた。 -/
def clearWqValid (wq : RmcWq) (i : Fin maxNumWq) : RmcWq :=
  { wq with q := Function.update wq.q i { wq.q i with valid := false } }

/-- 投入を試みる。断られたら WQ は変わらない。 -/
def WorkerSystem.post (s : WorkerSystem) (p : Post) : WorkerSystem :=
  { s with
    q := { s.q with wq := (p.call s.q.wq).2 }
    accepted := if (p.call s.q.wq).1 = 0 then s.accepted ++ [p] else s.accepted }

/-- `rmc_check_cq` に入る、または一歩進める。返ったら `do … while` の条件を調べる。 -/
def WorkerSystem.poll (s : WorkerSystem) (junk : Locals) : Option WorkerSystem :=
  match s.q.call with
  | none => (cqStep s.q (.enter junk.frame)).map fun q => { s with q := q }
  | some f =>
    (cqStep s.q .poll).map fun q =>
      { s with q := q, pc := if f.pc = .done then .test f.ret else .receive }

/-- `sendToNode_zsim` の投入。 -/
def sendPost (w : WorkerParams) (nbTxTot : Nat) (destNode : UInt32) : Post :=
  .send w.ctx.ctxId.toUInt32 (netBufferVaddr w.ctx w.buf (UInt32.ofNat nbTxTot))
    (w.reply nbTxTot).size destNode.toUInt64

/-- `do_Recv_zsim` の投入。 -/
def recvPost (w : WorkerParams) (rpc : RPCWithHeader) : Post :=
  .recv w.ctx.ctxId.toUInt32 (UInt64.ofNat rpc.payload) 64

/-- worker の一歩。 -/
def WorkerSystem.run (w : WorkerParams) (s : WorkerSystem) (junk : Locals) :
    Option WorkerSystem :=
  match s.pc with
  | .receive => s.poll junk
  | .test ret =>
    some { s with
      pc := if ret.op ≠ rmcIncomingSend ∧ s.clientDone = false then .receive else .checkDone ret }
  | .checkDone ret =>
    let rpc := receivedRpc s.clientDone junk.rpc ret
    if rpc.payloadLen = 0xdead then some { s with pc := .exited }
    else some { s with pc := .write rpc (writeSourceNodeId junk.sourceNodeId ret.tid).toUInt32 }
  | .write rpc destNode =>
    -- local buffer へは、WQ に空きがあるかを調べる前に書く
    let m := w.reply s.nbTxTot
    some { s with
      mem := writeRange s.mem (netBufferVaddr w.ctx w.buf (UInt32.ofNat s.nbTxTot)) m.writtenLen
        m.writtenByte
      pc := .spin rpc destNode }
  | .spin rpc destNode =>
    let p := sendPost w s.nbTxTot destNode
    some { s.post p with pc := if (p.call s.q.wq).1 ≠ 0 then .spin rpc destNode else .recv rpc }
  | .recv rpc =>
    -- `rmc_hw_recv` の返り値は捨てられる
    some { s.post (recvPost w rpc) with pc := .receive, nbTxTot := s.nbTxTot + 1 }
  | .exited => none

def workerStep (w : WorkerParams) (s : WorkerSystem) : WorkerAction → Option WorkerSystem
  | .push e => (cqStep s.q (.push e)).map fun q => { s with q := q }
  | .complete i => some { s with q := { s.q with wq := clearWqValid s.q.wq i } }
  | .setClientDone b => some { s with clientDone := b }
  | .run junk => s.run w junk

/-- ループに入る直前。 -/
def WorkerSystem.init (wq : RmcWq) (cq : RmcCq) (mem : UInt64 → UInt8) : WorkerSystem where
  q := CqSystem.init wq cq
  mem := mem
  clientDone := false
  pc := .receive
  nbTxTot := 0
  accepted := []

/-- `run_worker` の返信はいつも 64 byte で、copy を省く。 -/
def runWorkerReply (raw : Nat → UInt8) (_ : Nat) : Message where
  size := 64
  skipcpy := true
  raw := raw

/-! ## 投入と NIC の補題 -/

variable {w : WorkerParams} {s s' : WorkerSystem} {p : Post}

theorem WorkerSystem.post_of_valid (h : (s.q.wq.q s.q.wq.head).valid = true) (p : Post) :
    s.post p = s := by
  simp [post, Post.call_of_valid h]

theorem WorkerSystem.post_accepted_of_not_valid (h : (s.q.wq.q s.q.wq.head).valid = false)
    (p : Post) : (s.post p).accepted = s.accepted ++ [p] := by
  simp [post, Post.call_of_not_valid h]

@[simp] theorem WorkerSystem.post_call : (s.post p).q.call = s.q.call := rfl

@[simp] theorem WorkerSystem.post_nbTxTot : (s.post p).nbTxTot = s.nbTxTot := rfl

/-- `rmc_check_cq` の中の一歩で、WQ は変わらない。 -/
theorem cqStep_wq {q q' : CqSystem} {a : CqAction} (h : cqStep q a = some q')
    (ha : ∀ i b, a ≠ .setValid i b) : q'.wq = q.wq := by
  cases a with
  | push e =>
    simp only [cqStep] at h
    split at h
    · exact (Option.some.inj h) ▸ rfl
    · cases h
  | setValid i b => exact absurd rfl (ha i b)
  | enter junk =>
    simp only [cqStep] at h
    split at h
    · exact (Option.some.inj h) ▸ rfl
    · cases h
  | poll =>
    simp only [cqStep] at h
    split at h
    · cases h
    · split at h <;> exact (Option.some.inj h) ▸ rfl

/-! ## 具体的な実行 -/

/-- 初期化されない変数がたまたま 0 の場合。 -/
def zeroLocals : Locals where
  frame := emptyFrame
  rpc := createRPCStruct 0 0 0 0 0 0
  sourceNodeId := 0

/-- local buffer が 65536 番地にある worker。 -/
def exampleWorker : WorkerParams where
  ctx := createRPCNUMAContext
  buf := ⟨65536⟩
  reply := runWorkerReply fun _ => 0

/-- 先頭から始まる空の queue で、ループに入る直前。 -/
def exampleStart : WorkerSystem :=
  WorkerSystem.init { idleWq with head := 0 } (idleCq 0 false) fun _ => 0

/-- `k` 番目の要求が届き、iteration ひとつが終わるまで。 -/
def serveRun (k : Nat) : List WorkerAction :=
  .push (sendEntry (UInt64.ofNat (4096 * k))) :: List.replicate 13 (.run zeroLocals)

end L3fwd.Rpc
