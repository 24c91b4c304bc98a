import Mathlib.Logic.Function.Basic
import L3fwd.Infra.Cursor

/-!
# NIC の queue pair

`libzsim/zsim_nic_defines.hpp` の型と定数、`libzsim/zsim_nic_defines.cpp` の
WQ への投入（`create_wq_entry` / `rmc_hw_send` / `rmc_hw_recv`）。

* 構造体の field は固定幅の整数で持つ。`bool` は `Bool`、`void *` は 64 bit の番地である。
* `head` と `tail` は `MAX_NUM_WQ` 未満であることを型が持つ。配列の外を指す queue は作れない。
* `register_buffer` は simulator への通知だけで memory を変えないので、現れない。
-/

namespace L3fwd.Nic

/-! ## 定数 -/

/-- WQ と CQ の段数 `MAX_NUM_WQ`。 -/
abbrev maxNumWq : Nat := 128

instance maxNumWq_neZero : NeZero maxNumWq := ⟨by decide⟩

def rmcSabre : UInt32 := 4

def rmcRecv : UInt32 := 5

def sendOpShift : UInt32 := 4

def incomingSendShift : UInt32 := 1

def incomingRespShift : UInt32 := 2

def rmcSend : UInt32 := 1 <<< sendOpShift

def rmcIncomingSend : UInt32 := (1 <<< sendOpShift) ||| (1 <<< incomingSendShift)

def rmcIncomingResp : UInt32 := (1 <<< sendOpShift) ||| (1 <<< incomingRespShift)

def rmcInval : UInt32 := 42

def cacheBlockBits : UInt64 := 6

def cacheBlockSize : UInt64 := 64

/-! ## queue の型 -/

/-- `wq_entry_t`。 -/
structure WqEntry where
  op : UInt32
  sr : Bool
  valid : Bool
  bufAddr : UInt64
  cid : UInt32
  nid : UInt64
  offset : UInt64
  length : UInt64
  deriving DecidableEq

/-- `cq_entry_t`。 -/
structure CqEntry where
  sr : Bool
  valid : Bool
  success : UInt32
  tid : UInt32
  recvBufAddr : UInt64
  deriving DecidableEq

/-- `rmc_wq_t`。 -/
structure RmcWq where
  q : Fin maxNumWq → WqEntry
  head : Fin maxNumWq
  sr : Bool

/-- `rmc_cq_t`。 -/
structure RmcCq where
  q : Fin maxNumWq → CqEntry
  tail : Fin maxNumWq
  sr : Bool

/-- `successStruct`。 -/
structure SuccessStruct where
  success : UInt32
  op : UInt32
  tid : UInt32
  recvBufAddr : UInt64
  deriving DecidableEq

/-! ## WQ への投入 -/

/-- `create_wq_entry`。`i` 番目の段に、valid を立てた entry を書く。 -/
def createWqEntry (op : UInt32) (sr : Bool) (cid : UInt32) (nid bufAddr offset length : UInt64)
    (wq : RmcWq) (i : Fin maxNumWq) : RmcWq :=
  { wq with
    q := Function.update wq.q i
      { op := op, sr := sr, valid := true, bufAddr := bufAddr, cid := cid, nid := nid,
        offset := offset, length := length } }

/-- `wq->head` を進める。末尾に達したら 0 に戻し、`SR` を反転する。 -/
def RmcWq.advanceHead (wq : RmcWq) : RmcWq :=
  if h : wq.head.val + 1 < maxNumWq then { wq with head := ⟨wq.head.val + 1, h⟩ }
  else { wq with head := 0, sr := !wq.sr }

/-- `rmc_hw_send`。`length` は byte 数で受け取り、cache block の数に直して書く。 -/
def rmcHwSend (wq : RmcWq) (ctxId : UInt32) (dataAddress length nid : UInt64) : Int × RmcWq :=
  if (wq.q wq.head).valid then (-1, wq)
  else
    let blocks := (length + (cacheBlockSize - 1)) >>> cacheBlockBits
    (0, (createWqEntry rmcSend wq.sr ctxId nid dataAddress 0 blocks wq wq.head).advanceHead)

/-- `rmc_hw_recv`。こちらの `length` はそのまま書く。 -/
def rmcHwRecv (wq : RmcWq) (ctxId : UInt32) (recvBuf length : UInt64) : Int × RmcWq :=
  if (wq.q wq.head).valid then (-1, wq)
  else (0, (createWqEntry rmcRecv wq.sr ctxId 0 recvBuf 0 length wq wq.head).advanceHead)

/-! ## 投入の補題 -/

/-- `head` と `SR` を合わせた cursor。 -/
def RmcWq.cursor (wq : RmcWq) : Infra.Cursor maxNumWq := ⟨wq.head, wq.sr⟩

/-- `tail` と `SR` を合わせた cursor。 -/
def RmcCq.cursor (cq : RmcCq) : Infra.Cursor maxNumWq := ⟨cq.tail, cq.sr⟩

@[simp] theorem RmcWq.advanceHead_q (wq : RmcWq) : wq.advanceHead.q = wq.q := by
  unfold advanceHead
  split <;> rfl

@[simp] theorem RmcWq.advanceHead_cursor (wq : RmcWq) : wq.advanceHead.cursor = wq.cursor.next := by
  unfold advanceHead cursor Infra.Cursor.next
  split <;> rfl

/-- SEND の block 数は byte 数を 64 で割った切り上げである。桁あふれしない範囲で成り立つ。 -/
theorem sendBlocks_toNat {length : UInt64} (h : length.toNat ≤ 2 ^ 64 - 64) :
    ((length + (cacheBlockSize - 1)) >>> cacheBlockBits).toNat = (length.toNat + 63) / 64 := by
  have hadd : (length + (cacheBlockSize - 1)).toNat = length.toNat + 63 := by
    rw [UInt64.toNat_add]
    exact Nat.mod_eq_of_lt (by have : (cacheBlockSize - 1).toNat = 63 := by decide
                               omega)
  rw [UInt64.toNat_shiftRight, hadd]
  have hb : cacheBlockBits.toNat % 64 = 6 := by decide
  rw [hb, Nat.shiftRight_eq_div_pow]

end L3fwd.Nic
