import Mathlib.Data.List.Basic
import Mathlib.Data.Nat.ModEq
import L3fwd.Infra.Run

/-!
# 送信側の循環 buffer

`rpc_shm/cbuf.h` / `cbuf.cpp` の `CircularReceiveBuffer`。
送信側は自分の写しで空きを数える：書くと `tail` が、解放の通知が来ると `senders_head` が進む。

* `size_t` と番地は `Nat` で持つ。`vector` を確保できる大きさでは桁あふれしない。
* `assert` の失敗と `vector::at` の例外は `none` で表す。

## 空きの数が合う条件

`getAvailSlots` は `senders_head` と `tail` と `is_full` から空きを求めるが、二つの場合に外れる。

* 満杯のとき、`getBufferSize` は `tail >= senders_head` の枝で 0 を返す。`is_full` は見ない
* `incSendersHeadToFreeSpace` は端を越えると余りを捨てて 0 に戻る

どちらも起こさない実行では数は合い、どちらかを起こした一歩の直後には必ず外れる
（`getAvailSlots_correct_iff`）。
-/

namespace L3fwd.Rpc

open Infra

/-- `CircularReceiveBuffer`。 -/
structure CircularReceiveBuffer where
  isFull : Bool
  basePointer : Nat
  entryByteSize : Nat
  numEntries : Nat
  head : Nat
  tail : Nat
  bufferSr : Bool
  srVector : List Bool
  sendersHead : Nat
  isSender : Bool
  deriving DecidableEq

namespace CircularReceiveBuffer

/-- constructor。 -/
def new (aBase aSize aNumEntries : Nat) (senderCopy : Bool) : CircularReceiveBuffer where
  isFull := false
  basePointer := aBase
  entryByteSize := aSize
  numEntries := aNumEntries
  head := 0
  tail := 0
  bufferSr := false
  srVector := List.replicate aNumEntries true
  sendersHead := 0
  isSender := senderCopy

def getTailIdxValue (b : CircularReceiveBuffer) : Nat := b.tail

/-- `tail++` と、端での折り返し。 -/
def bumpTail (b : CircularReceiveBuffer) : CircularReceiveBuffer :=
  if b.tail + 1 ≥ b.numEntries then { b with tail := 0, bufferSr := !b.bufferSr }
  else { b with tail := b.tail + 1 }

/-- `if( tail == senders_head ) is_full = true;` -/
def markFull (b : CircularReceiveBuffer) : CircularReceiveBuffer :=
  if b.tail = b.sendersHead then { b with isFull := true } else b

/-- `incTail`。最後の `assert` は次に書く段の bit を確かめる。 -/
def incTail (b : CircularReceiveBuffer) : Option CircularReceiveBuffer :=
  if b.isSender then
    let b' := b.bumpTail.markFull
    match b'.srVector[b'.tail]? with
    | none => none
    | some sr => if sr ≠ b'.bufferSr then some b' else none
  else none

/-- `incHeadAfterMsgProcessed`。 -/
def incHeadAfterMsgProcessed (b : CircularReceiveBuffer) : CircularReceiveBuffer :=
  { b with head := if b.head + 1 ≥ b.numEntries then 0 else b.head + 1 }

/-- `incSendersHeadToFreeSpace`。 -/
def incSendersHeadToFreeSpace (b : CircularReceiveBuffer) (inc : UInt32) :
    Option CircularReceiveBuffer :=
  if b.isSender then
    let head := if b.sendersHead + inc.toNat ≥ b.numEntries then 0 else b.sendersHead + inc.toNat
    some { b with sendersHead := head, isFull := if b.tail ≠ head then false else b.isFull }
  else none

/-- `writeSRMetadata`。 -/
def writeSRMetadata (b : CircularReceiveBuffer) (entry : Nat) : Option CircularReceiveBuffer :=
  if entry < b.srVector.length then some { b with srVector := b.srVector.set entry b.bufferSr }
  else none

def isEmpty (b : CircularReceiveBuffer) : Bool := !b.isFull && b.sendersHead == b.tail

/-- `getBufferSize`。空のときは `numEntries` を返す。 -/
def getBufferSize (b : CircularReceiveBuffer) : Nat :=
  if !b.isEmpty then
    if b.tail ≥ b.sendersHead then b.tail - b.sendersHead
    else (b.numEntries - b.sendersHead) + b.tail
  else b.numEntries

/-- `getAvailSlots`。 -/
def getAvailSlots (b : CircularReceiveBuffer) : Nat :=
  if !b.isEmpty then b.numEntries - b.getBufferSize else b.numEntries

end CircularReceiveBuffer

/-! ## 送信側の実行 -/

/-- 送信側の buffer と、書いた段の履歴、解放された message の数。 -/
structure Sender where
  buf : CircularReceiveBuffer
  slots : List Nat
  freed : Nat

inductive SenderAction where
  | write
  | free (inc : UInt32)

/-- 書かれて、まだ解放されていない message の数。 -/
def Sender.outstanding (s : Sender) : Nat := s.slots.length - s.freed

/-- まだ解放されていない message のある段。 -/
def Sender.live (s : Sender) : List Nat := s.slots.drop s.freed

/-- `writeSRMetadata(getTailIdxValue())` のあとに `incTail()`。 -/
def CircularReceiveBuffer.write (b : CircularReceiveBuffer) : Option CircularReceiveBuffer :=
  (b.writeSRMetadata b.getTailIdxValue).bind incTail

def senderStep (s : Sender) : SenderAction → Option Sender
  | .write =>
    if s.outstanding < s.buf.numEntries then
      s.buf.write.map fun b => { s with buf := b, slots := s.slots ++ [s.buf.getTailIdxValue] }
    else none
  | .free inc =>
    if 1 ≤ inc.toNat ∧ inc.toNat ≤ s.outstanding then
      (s.buf.incSendersHeadToFreeSpace inc).map fun b =>
        { s with buf := b, freed := s.freed + inc.toNat }
    else none

/-- 送信側の写しを作った直後。 -/
def Sender.init (aBase aSize aNumEntries : Nat) : Sender where
  buf := CircularReceiveBuffer.new aBase aSize aNumEntries true
  slots := []
  freed := 0

/-- 空きの数が合っていて、空きがあると見て書く段は解放済みである。 -/
def Sender.AvailRight (s : Sender) : Prop :=
  s.buf.getAvailSlots = s.buf.numEntries - s.outstanding ∧
    (0 < s.buf.getAvailSlots → s.buf.getTailIdxValue ∉ s.live)

/-- 書いても満杯にならず、解放しても端を越えない。 -/
def WithinLap (s : Sender) : SenderAction → Prop
  | .write => s.outstanding + 1 < s.buf.numEntries
  | .free inc => s.buf.sendersHead + inc.toNat ≤ s.buf.numEntries

/-! ## bit の並び -/

/-- 次に書く段から先は前の周の bit のまま、手前は今の周の bit である。 -/
structure CircularReceiveBuffer.SenseOk (n : Nat) (b : CircularReceiveBuffer) : Prop where
  num : b.numEntries = n
  sender : b.isSender = true
  len : b.srVector.length = n
  tail_lt : b.tail < n
  sense : ∀ i, (hi : i < b.srVector.length) →
    b.srVector[i] = if i < b.tail then b.bufferSr else !b.bufferSr

namespace CircularReceiveBuffer

variable {b : CircularReceiveBuffer} {n : Nat}

theorem senseOk_new (aBase aSize : Nat) (hn : 0 < n) : (new aBase aSize n true).SenseOk n where
  num := rfl
  sender := rfl
  len := by simp [new]
  tail_lt := hn
  sense := fun i hi => by simp [new]

theorem advanced_tail (hlt : b.tail < b.numEntries) :
    b.bumpTail.markFull.tail = (b.tail + 1) % b.numEntries := by
  unfold bumpTail markFull
  by_cases hend : b.tail + 1 ≥ b.numEntries
  · have he : b.tail + 1 = b.numEntries := by omega
    rw [if_pos hend, he, Nat.mod_self]
    split <;> rfl
  · rw [if_neg hend, Nat.mod_eq_of_lt (by omega)]
    split <;> rfl

theorem advanced_isFull :
    b.bumpTail.markFull.isFull
      = (b.isFull || decide (b.bumpTail.markFull.tail = b.sendersHead)) := by
  unfold bumpTail markFull
  split <;> split <;> simp_all

/-- `tail` を進めても、ほかの欄は変わらない。 -/
theorem advanced_rest :
    b.bumpTail.markFull.numEntries = b.numEntries ∧
      b.bumpTail.markFull.sendersHead = b.sendersHead ∧
      b.bumpTail.markFull.isSender = b.isSender := by
  unfold bumpTail markFull
  split <;> split <;> exact ⟨rfl, rfl, rfl⟩

/-- 今の段に bit を書いて `tail` を進めた buffer。 -/
def written (b : CircularReceiveBuffer) : CircularReceiveBuffer :=
  (bumpTail { b with srVector := b.srVector.set b.tail b.bufferSr }).markFull

theorem written_srVector : b.written.srVector = b.srVector.set b.tail b.bufferSr := by
  unfold written bumpTail markFull
  split <;> split <;> rfl

theorem written_tail (h : b.SenseOk n) : b.written.tail = (b.tail + 1) % n := by
  have hlt := h.tail_lt
  rw [← h.num] at hlt ⊢
  exact advanced_tail (b := { b with srVector := b.srVector.set b.tail b.bufferSr }) hlt

theorem written_bufferSr (h : b.SenseOk n) :
    b.written.bufferSr = if b.tail + 1 < n then b.bufferSr else !b.bufferSr := by
  have hnum := h.num
  unfold written bumpTail markFull
  by_cases hend : b.tail + 1 ≥ b.numEntries
  · rw [if_pos hend, if_neg (show ¬ b.tail + 1 < n by omega)]
    split <;> rfl
  · rw [if_neg hend, if_pos (show b.tail + 1 < n by omega)]
    split <;> rfl

theorem written_numEntries : b.written.numEntries = b.numEntries := advanced_rest.1

theorem written_sendersHead : b.written.sendersHead = b.sendersHead := advanced_rest.2.1

theorem written_isSender : b.written.isSender = b.isSender := advanced_rest.2.2

theorem written_isFull :
    b.written.isFull = (b.isFull || decide (b.written.tail = b.sendersHead)) := advanced_isFull

/-- 書いたあとも bit の並びは保たれる。端を越えると一周ぶんの bit がそろって反転する。 -/
theorem SenseOk.written (h : b.SenseOk n) : b.written.SenseOk n where
  num := by rw [written_numEntries, h.num]
  sender := by rw [written_isSender, h.sender]
  len := by rw [written_srVector, List.length_set, h.len]
  tail_lt := by
    rw [written_tail h]
    exact Nat.mod_lt _ (Nat.zero_lt_of_lt h.tail_lt)
  sense := fun i hi => by
    have hlt := h.tail_lt
    have hi' : i < b.srVector.length := by
      rw [written_srVector, List.length_set] at hi
      exact hi
    have hin : i < n := h.len ▸ hi'
    have hset : b.written.srVector[i] = if b.tail = i then b.bufferSr else b.srVector[i] := by
      simp only [written_srVector, List.getElem_set]
    rw [hset, h.sense i hi', written_tail h, written_bufferSr h]
    by_cases hend : b.tail + 1 < n
    · rw [if_pos hend, Nat.mod_eq_of_lt hend]
      rcases Nat.lt_trichotomy i b.tail with hlt' | heq | hgt
      · rw [if_neg (by omega), if_pos hlt', if_pos (by omega)]
      · rw [if_pos heq.symm, if_pos (by omega)]
      · rw [if_neg (by omega), if_neg (by omega), if_neg (by omega)]
    · have he : b.tail + 1 = n := by omega
      rw [if_neg hend, he, Nat.mod_self, if_neg (Nat.not_lt_zero i), Bool.not_not]
      by_cases heq : b.tail = i
      · rw [if_pos heq]
      · rw [if_neg heq, if_pos (by omega)]

/-- **書く一歩の `assert` は失敗せず、`vector` の範囲も外れない。** -/
theorem SenseOk.write (h : b.SenseOk n) : b.write = some b.written := by
  have hin : b.tail < b.srVector.length := h.len ▸ h.tail_lt
  have hnext : b.written.tail < b.written.srVector.length :=
    h.written.len ▸ h.written.tail_lt
  have hsr : b.written.srVector[b.written.tail]? = some (!b.written.bufferSr) := by
    rw [List.getElem?_eq_getElem hnext, h.written.sense _ hnext, if_neg (Nat.lt_irrefl _)]
  rw [CircularReceiveBuffer.write, writeSRMetadata, getTailIdxValue, if_pos hin, Option.bind_some,
    incTail, if_pos h.sender]
  show (match b.written.srVector[b.written.tail]? with
    | none => none
    | some sr => if sr ≠ b.written.bufferSr then some b.written else none) = some b.written
  rw [hsr]
  simp

/-- 解放のあとの buffer。 -/
def freedBy (b : CircularReceiveBuffer) (inc : Nat) : CircularReceiveBuffer :=
  let head := if b.sendersHead + inc ≥ b.numEntries then 0 else b.sendersHead + inc
  { b with sendersHead := head, isFull := if b.tail ≠ head then false else b.isFull }

theorem incSendersHeadToFreeSpace_eq (h : b.SenseOk n) (inc : UInt32) :
    b.incSendersHeadToFreeSpace inc = some (b.freedBy inc.toNat) := by
  rw [incSendersHeadToFreeSpace, if_pos h.sender]
  rfl

theorem SenseOk.freedBy (h : b.SenseOk n) (inc : Nat) : (b.freedBy inc).SenseOk n :=
  ⟨h.num, h.sender, h.len, h.tail_lt, h.sense⟩

/-! ## 空きの計算 -/

/-- 満杯でない buffer では、`senders_head` から `k` 段先に `tail` があるとき空きは残りである。 -/
theorem getAvailSlots_of_tail {k : Nat} (hhead : b.sendersHead < b.numEntries)
    (hk : k < b.numEntries) (hfull : b.isFull = false)
    (htail : b.tail = (b.sendersHead + k) % b.numEntries) :
    b.getAvailSlots = b.numEntries - k := by
  by_cases hwrap : b.sendersHead + k < b.numEntries
  · rw [Nat.mod_eq_of_lt hwrap] at htail
    by_cases hk0 : k = 0
    · simp [getAvailSlots, isEmpty, hfull, htail, hk0]
    · simp [getAvailSlots, getBufferSize, isEmpty, hfull, hk0, htail]
  · have hmod : (b.sendersHead + k) % b.numEntries = b.sendersHead + k - b.numEntries := by
      rw [Nat.mod_eq_sub_mod (Nat.le_of_not_lt hwrap), Nat.mod_eq_of_lt (by omega)]
    rw [hmod] at htail
    have hne : ¬ b.sendersHead = b.tail := by omega
    have hlt : ¬ b.sendersHead ≤ b.tail := by omega
    simp [getAvailSlots, getBufferSize, isEmpty, hfull, hne, hlt]
    omega

/-- 満杯の buffer は、すべて空いていると答える。 -/
theorem getAvailSlots_of_full (hfull : b.isFull = true) (htail : b.tail = b.sendersHead) :
    b.getAvailSlots = b.numEntries := by
  simp [getAvailSlots, getBufferSize, isEmpty, hfull, htail]

end CircularReceiveBuffer

/-! ## 条件を満たす実行 -/

/-- `WithinLap` な一歩だけの実行で保たれること。どの message も番号で段が決まる。 -/
structure SenderInv (n : Nat) (s : Sender) : Prop where
  sense : s.buf.SenseOk n
  freed_le : s.freed ≤ s.slots.length
  out_lt : s.outstanding < n
  tail : s.buf.tail = s.slots.length % n
  head : s.buf.sendersHead = s.freed % n
  notFull : s.buf.isFull = false
  slots : ∀ k, (hk : k < s.slots.length) → s.slots[k] = k % n

variable {n : Nat} {s s' : Sender} {a : SenderAction}

theorem senderInv_init (aBase aSize : Nat) (hn : 0 < n) :
    SenderInv n (Sender.init aBase aSize n) where
  sense := CircularReceiveBuffer.senseOk_new aBase aSize hn
  freed_le := Nat.le_refl _
  out_lt := hn
  tail := by simp [Sender.init, CircularReceiveBuffer.new]
  head := by simp [Sender.init, CircularReceiveBuffer.new]
  notFull := rfl
  slots := fun k hk => by simp [Sender.init] at hk

/-- 一歩でできること。 -/
theorem senderStep_cases (h : s.buf.SenseOk n) (hs : senderStep s a = some s') :
    (a = .write ∧ s.outstanding < n ∧
      s' = { s with buf := s.buf.written, slots := s.slots ++ [s.buf.tail] }) ∨
    (∃ inc, a = .free inc ∧ 1 ≤ inc.toNat ∧ inc.toNat ≤ s.outstanding ∧
      s' = { s with buf := s.buf.freedBy inc.toNat, freed := s.freed + inc.toNat }) := by
  cases a with
  | write =>
    simp only [senderStep, h.num, h.write, Option.map_some] at hs
    split at hs
    · next hroom => exact Or.inl ⟨rfl, hroom, (Option.some.inj hs).symm⟩
    · cases hs
  | free inc =>
    simp only [senderStep, CircularReceiveBuffer.incSendersHeadToFreeSpace_eq h inc,
      Option.map_some] at hs
    split at hs
    · next hinc => exact Or.inr ⟨inc, rfl, hinc.1, hinc.2, (Option.some.inj hs).symm⟩
    · cases hs

/-- 番号の差が一周未満なら、`tail` は `senders_head` から差の数だけ先にある。 -/
theorem SenderInv.tail_eq (h : SenderInv n s) :
    s.buf.tail = (s.buf.sendersHead + s.outstanding) % n := by
  have hle := h.freed_le
  rw [h.tail, h.head, Nat.mod_add_mod]
  congr 1
  unfold Sender.outstanding
  omega

theorem SenderInv.head_lt (h : SenderInv n s) : s.buf.sendersHead < n := by
  rw [h.head]
  exact Nat.mod_lt _ (Nat.zero_lt_of_lt h.sense.tail_lt)

theorem SenderInv.avail (h : SenderInv n s) : s.buf.getAvailSlots = n - s.outstanding := by
  have hnum := h.sense.num
  have hav := CircularReceiveBuffer.getAvailSlots_of_tail (b := s.buf) (k := s.outstanding)
    (hnum.symm ▸ h.head_lt) (hnum.symm ▸ h.out_lt) h.notFull (hnum.symm ▸ h.tail_eq)
  rw [hav, hnum]

/-- 次に書く段には、解放されていない message はない。 -/
theorem SenderInv.tail_not_live (h : SenderInv n s) : s.buf.tail ∉ s.live := by
  intro hmem
  obtain ⟨k, hk, hkeq⟩ := List.mem_iff_getElem.mp hmem
  simp only [Sender.live, List.length_drop] at hk
  have hout := h.out_lt
  simp only [Sender.live, List.getElem_drop] at hkeq
  rw [h.slots _ (by omega), h.tail] at hkeq
  have hdvd : n ∣ s.slots.length - (s.freed + k) :=
    (Nat.modEq_iff_dvd' (by omega)).mp hkeq
  have hle := Nat.le_of_dvd (by omega) hdvd
  unfold Sender.outstanding at hout
  omega

theorem SenderInv.availRight (h : SenderInv n s) : s.AvailRight :=
  ⟨by rw [h.avail, h.sense.num], fun _ => h.tail_not_live⟩

theorem SenderInv.write (h : SenderInv n s) (hok : s.outstanding + 1 < n) :
    SenderInv n { s with buf := s.buf.written, slots := s.slots ++ [s.buf.tail] } := by
  have hle := h.freed_le
  have htail : s.buf.written.tail = (s.slots.length + 1) % n := by
    rw [CircularReceiveBuffer.written_tail h.sense, h.tail, Nat.mod_add_mod]
  have hout : s.slots.length + 1 - s.freed < n := by
    unfold Sender.outstanding at hok
    omega
  refine ⟨h.sense.written, by simp; omega, by simpa [Sender.outstanding] using hout, ?_, ?_, ?_, ?_⟩
  · rw [htail, List.length_append, List.length_singleton]
  · rw [CircularReceiveBuffer.written_sendersHead, h.head]
  · -- 書いても満杯でないなら、`tail` は `senders_head` に追いついていない
    have hne : s.buf.written.tail ≠ s.buf.sendersHead := by
      rw [htail, h.head]
      intro he
      have hdvd : n ∣ (s.slots.length + 1) - s.freed :=
        (Nat.modEq_iff_dvd' (by omega)).mp he.symm
      have := Nat.le_of_dvd (by omega) hdvd
      omega
    rw [CircularReceiveBuffer.written_isFull, h.notFull, decide_eq_false hne]
    rfl
  · intro k hk
    rw [List.getElem_append]
    split
    · next hk' => exact h.slots k hk'
    · next hk' =>
      simp only [List.length_append, List.length_singleton] at hk
      have : k = s.slots.length := by omega
      subst this
      simpa using h.tail

theorem SenderInv.free (h : SenderInv n s) {inc : Nat} (hinc : inc ≤ s.outstanding)
    (hok : s.buf.sendersHead + inc ≤ n) :
    SenderInv n { s with buf := s.buf.freedBy inc, freed := s.freed + inc } := by
  have hle := h.freed_le
  have hout := h.out_lt
  unfold Sender.outstanding at hinc hout
  have hpos : 0 < n := Nat.zero_lt_of_lt h.sense.tail_lt
  have hhead : (s.buf.freedBy inc).sendersHead = (s.freed + inc) % n := by
    show (if s.buf.sendersHead + inc ≥ s.buf.numEntries then 0 else s.buf.sendersHead + inc) = _
    rw [h.sense.num, ← Nat.mod_add_mod, ← h.head]
    by_cases hend : s.buf.sendersHead + inc ≥ n
    · have he : s.buf.sendersHead + inc = n := by omega
      rw [if_pos hend, he, Nat.mod_self]
    · rw [if_neg hend, Nat.mod_eq_of_lt (by omega)]
  refine ⟨h.sense.freedBy inc, by simp; omega, ?_, h.tail, hhead, ?_, h.slots⟩
  · show s.slots.length - (s.freed + inc) < n
    omega
  · show (if s.buf.tail ≠ _ then false else s.buf.isFull) = false
    rw [h.notFull, ite_self]

theorem SenderInv.step (h : SenderInv n s) (hok : WithinLap s a) (hs : senderStep s a = some s') :
    SenderInv n s' := by
  obtain ⟨rfl, -, rfl⟩ | ⟨inc, rfl, -, hinc, rfl⟩ := senderStep_cases h.sense hs
  · exact h.write (h.sense.num ▸ hok)
  · exact h.free hinc (h.sense.num ▸ hok)

/-! ## 条件を破る一歩 -/

/-- 満杯にする一歩の直後、空きはすべてあると答える。 -/
theorem SenderInv.write_full (h : SenderInv n s) (hfull : s.outstanding + 1 = n) :
    s.buf.written.getAvailSlots = n := by
  have hle := h.freed_le
  have htail : s.buf.written.tail = s.buf.written.sendersHead := by
    have hw : s.slots.length + 1 = s.freed + n := by
      unfold Sender.outstanding at hfull
      omega
    rw [CircularReceiveBuffer.written_tail h.sense, h.tail, Nat.mod_add_mod, hw,
      Nat.add_mod_right, CircularReceiveBuffer.written_sendersHead, h.head]
  have hflag : s.buf.written.isFull = true := by
    rw [CircularReceiveBuffer.written_isFull, htail, CircularReceiveBuffer.written_sendersHead]
    simp
  rw [CircularReceiveBuffer.getAvailSlots_of_full hflag htail,
    CircularReceiveBuffer.written_numEntries, h.sense.num]

/-- 端を越える解放の直後、空きは捨てた余りの数だけ少なく見える。 -/
theorem SenderInv.free_over (h : SenderInv n s) {inc : Nat} (hinc : inc ≤ s.outstanding)
    (hover : n < s.buf.sendersHead + inc) :
    (s.buf.freedBy inc).getAvailSlots = n - (s.buf.sendersHead + s.outstanding - n) := by
  have hnum := h.sense.num
  have hhl := h.head_lt
  have hout := h.out_lt
  have hhead : (s.buf.freedBy inc).sendersHead = 0 := by
    show (if s.buf.sendersHead + inc ≥ s.buf.numEntries then 0 else _) = 0
    rw [if_pos (by omega)]
  have htail : s.buf.tail = s.buf.sendersHead + s.outstanding - n := by
    rw [h.tail_eq, Nat.mod_eq_sub_mod (by omega), Nat.mod_eq_of_lt (by omega)]
  have hfull : (s.buf.freedBy inc).isFull = false := by
    show (if s.buf.tail ≠ _ then false else s.buf.isFull) = false
    rw [h.notFull, ite_self]
  have hn' : (s.buf.freedBy inc).numEntries = n := hnum
  rw [CircularReceiveBuffer.getAvailSlots_of_tail (k := s.buf.tail) (by omega) (by omega) hfull
    (by rw [hhead, Nat.zero_add, hn', Nat.mod_eq_of_lt h.sense.tail_lt]; rfl), hn', htail]

/-- **条件を破る一歩の直後には、必ず数が外れる。** -/
theorem SenderInv.exact (h : SenderInv n s) (hs : senderStep s a = some s')
    (hright : s'.AvailRight) : WithinLap s a := by
  have hle := h.freed_le
  have hnum := h.sense.num
  obtain ⟨rfl, hroom, rfl⟩ | ⟨inc, rfl, hpos, hinc, rfl⟩ := senderStep_cases h.sense hs
  · show s.outstanding + 1 < s.buf.numEntries
    rw [hnum]
    by_contra hbad
    have heq : s.outstanding + 1 = n := by omega
    have hav := hright.1
    simp only [h.write_full heq, CircularReceiveBuffer.written_numEntries, hnum,
      Sender.outstanding, List.length_append, List.length_singleton] at hav
    unfold Sender.outstanding at heq
    omega
  · show s.buf.sendersHead + inc.toNat ≤ s.buf.numEntries
    rw [hnum]
    by_contra hbad
    have hhl := h.head_lt
    have hout := h.out_lt
    have hav := hright.1
    have hnum' : (s.buf.freedBy inc.toNat).numEntries = n := hnum
    simp only [h.free_over hinc (by omega), hnum'] at hav
    unfold Sender.outstanding at hav hinc hout
    dsimp only at hav
    omega

/-! ## 全体の定理 -/

/--
**送信側の空きの数は、満杯にせず端も越えない実行でちょうど正しい。**

実行を通して空きの数が合う（したがって空きがあると見て書く段は解放済みである）ことと、
どの書き込みも buffer を満杯にせず、どの解放も端を越えないこととは同じである。
-/
theorem getAvailSlots_correct_iff {aBase aSize : Nat} (hn : 1 ≤ n) (as : List SenderAction) :
    Throughout senderStep Sender.AvailRight (Sender.init aBase aSize n) as ↔
      Along senderStep WithinLap (Sender.init aBase aSize n) as :=
  throughout_iff_along (fun _ hu => hu.availRight) (fun _ _ _ hu hok hs => hu.step hok hs)
    (fun _ _ _ hu hs hright => hu.exact hs hright) (senderInv_init aBase aSize hn)

/-- 4 段の buffer で、端にちょうど止まる解放を挟んで 5 つ書いた実行。 -/
theorem getAvailSlots_correct_lap :
    Throughout senderStep Sender.AvailRight (Sender.init 4096 64 4)
      [.write, .write, .write, .free 3, .write, .free 1, .write] := by
  refine (getAvailSlots_correct_iff (by decide) _).mpr ?_
  simp [Along, senderStep, WithinLap, Sender.init, Sender.outstanding, CircularReceiveBuffer.new,
    CircularReceiveBuffer.write, CircularReceiveBuffer.writeSRMetadata,
    CircularReceiveBuffer.incTail, CircularReceiveBuffer.bumpTail, CircularReceiveBuffer.markFull,
    CircularReceiveBuffer.getTailIdxValue, CircularReceiveBuffer.incSendersHeadToFreeSpace]

/--
空きの数はいつも正しいわけではない。4 段の buffer に 4 つ書くと、空きは 4 と答え、
次に書く段には解放されていない message がある。
端を越えて解放したときは、すべて解放したのに空きが 3 と答える。
-/
theorem getAvailSlots_wrong :
    (∃ s, exec senderStep (Sender.init 4096 64 4) [.write, .write, .write, .write] = some s ∧
      s.outstanding = 4 ∧ s.buf.getAvailSlots = 4 ∧ s.buf.getTailIdxValue ∈ s.live) ∧
    (∃ s, exec senderStep (Sender.init 4096 64 4)
        [.write, .write, .write, .free 2, .write, .write, .free 3] = some s ∧
      s.outstanding = 0 ∧ s.buf.getAvailSlots = 3) ∧
    ¬ ∀ (n : Nat) (s : Sender), 1 ≤ n → Reaches senderStep Always (Sender.init 4096 64 n) s →
      s.buf.getAvailSlots = n - s.outstanding := by
  have hfull : exec senderStep (Sender.init 4096 64 4) [.write, .write, .write, .write]
    = some _ := rfl
  refine ⟨⟨_, hfull, rfl, rfl, by decide⟩, ⟨_, rfl, rfl, rfl⟩, fun h => ?_⟩
  have hav := h 4 _ (by decide) (reaches_of_exec (fun _ _ _ => trivial) hfull)
  exact absurd hav (by decide)

end L3fwd.Rpc
