import L3fwd.Rpc.BufferRuns
import L3fwd.Rpc.Worker

/-!
# context の循環 buffer

`rpc_shm/rpc.cpp` の `setupCircularBuffers` は、context の `pgas` から循環 buffer を隙間なく並べる。
`getCBufIdx` は、client の node と thread、server の thread から buffer の番号を求める。

* **番号**：server の thread ごとの区間の中で、client `m` の thread `t` には `m * numClients + t` が
  当たる。client ごとの幅は `threadsPerClient` のはずなので、client が一つか、client と thread の数が
  等しいときだけ、番号は重ならずに区間を埋める（`ownBuffers_iff`）
* **配置**：どの buffer の `head` と `tail` の段も自分の範囲にあり、範囲どうしは重ならない。
  `zeroOutRBufHead` はその段だけを消す（`buffers_isolated`）

番地と `size_t` は 64 bit で折り返す。
-/

namespace L3fwd.Rpc

open Infra

/-! ## context -/

/-- `size_t` の積。 -/
def sizeMul (a b : Nat) : Nat := a * b % 2 ^ 64

/-- pointer の加算。 -/
def ptrAdd (p off : Nat) : Nat := (p + off) % 2 ^ 64

/-- `EMULATOR_SW_PAGE_SIZE` を決める build。 -/
inductive Emulator where
  | qflex
  /-- `FLEXUS` か `ZSIM` が定義された build。`zsim_nic_defines.hpp` では `ZSIM` もこの大きさを取る。 -/
  | flexus
  /-- linux か vm。 -/
  | other
  deriving DecidableEq

def emulatorSwPageSize : Emulator → Nat
  | .qflex => 4096
  | .flexus => 8192
  | .other => 4096

/-- `rpcNUMAContext` のうち、循環 buffer に使う field。 -/
structure RpcNUMAContext where
  totalNodeCount : UInt32
  threadsPerClient : UInt32
  pgas : Nat
  circBuffers : List CircularReceiveBuffer

namespace CircularReceiveBuffer

def getHeadIdxValue (b : CircularReceiveBuffer) : Nat := b.head

/-- `getHeadAddress`。 -/
def getHeadAddress (b : CircularReceiveBuffer) : Nat :=
  ptrAdd b.basePointer (sizeMul b.head b.entryByteSize)

/-- `getTailAddress`。 -/
def getTailAddress (b : CircularReceiveBuffer) : Nat :=
  ptrAdd b.basePointer (sizeMul b.tail b.entryByteSize)

/-- `GetReservedMemoryBytes`。 -/
def getReservedMemoryBytes (b : CircularReceiveBuffer) : Nat := sizeMul b.numEntries b.entryByteSize

/-- `zeroEntryNumber`。 -/
def zeroEntryNumber (b : CircularReceiveBuffer) (m : Mem) (index : Nat) : Mem :=
  m.write (ptrAdd b.basePointer (sizeMul index b.entryByteSize)) b.entryByteSize fun _ => 0

/-- `incSendersHeadToFreeSpace` の、`assert` より後。 -/
def moveSendersHead (b : CircularReceiveBuffer) (inc : UInt32) : CircularReceiveBuffer :=
  let head := if b.sendersHead + inc.toNat ≥ b.numEntries then 0 else b.sendersHead + inc.toNat
  { b with sendersHead := head, isFull := if b.tail ≠ head then false else b.isFull }

/-- `incSendersHeadToFreeSpace`。`NDEBUG` を付けて build すると `assert` は無くなる。 -/
def incSendersHeadBuilt (ndebug : Bool) (b : CircularReceiveBuffer) (inc : UInt32) :
    Option CircularReceiveBuffer :=
  if ndebug then some (b.moveSendersHead inc) else b.incSendersHeadToFreeSpace inc

end CircularReceiveBuffer

namespace RpcNUMAContext

def getNumClients (ctx : RpcNUMAContext) : UInt32 := ctx.totalNodeCount - 1

/-- `getCBufIdx`。client の区間の中の番号は 32 bit のまま計算される。 -/
def getCBufIdx (ctx : RpcNUMAContext) (clNid clTid srThread : UInt32) : UInt64 :=
  let zeroShiftedClNid := clNid - 1
  let bufsPerServThread := (ctx.getNumClients * ctx.threadsPerClient).toUInt64
  let servRegionIdx := srThread.toUInt64 * bufsPerServThread
  let clientBuffer := (zeroShiftedClNid * ctx.getNumClients + clTid).toUInt64
  servRegionIdx + clientBuffer

/-- `setupCircularBuffers` のループ。残りの個数と、次の buffer の先頭を持つ。 -/
def setupLoop (pageSize : Nat) (areSendersCopies : Bool) :
    Nat → Nat → List CircularReceiveBuffer
  | 0, _ => []
  | k + 1, bufferBasePointer =>
    let b := CircularReceiveBuffer.new bufferBasePointer pageSize msgsPerPair.toNat areSendersCopies
    b :: setupLoop pageSize areSendersCopies k (ptrAdd bufferBasePointer b.getReservedMemoryBytes)

/-- `setupCircularBuffers`。`entryByteSize` と `numEntries` の引数は使われず、定数で作られる。 -/
def setupCircularBuffers (em : Emulator) (ctx : RpcNUMAContext)
    (_nidToCreateOn _entryByteSize _numEntries : Nat) (aNumberOfSenders aNumberOfReceivers : Nat)
    (areSendersCopies : Bool) : RpcNUMAContext :=
  { ctx with
    circBuffers := setupLoop (emulatorSwPageSize em) areSendersCopies
      (sizeMul aNumberOfSenders aNumberOfReceivers) ctx.pgas }

end RpcNUMAContext

/-! ## buffer の番号 -/

namespace RpcNUMAContext

variable {ctx : RpcNUMAContext} {S : Nat} {clNid clTid srThread : UInt32}

/-- server の thread 一つに割り当てられる buffer の数。 -/
def bufsPerThread (ctx : RpcNUMAContext) : Nat :=
  ctx.getNumClients.toNat * ctx.threadsPerClient.toNat

/-- client は 1 番から、thread は 0 番から数える。 -/
structure InRange (ctx : RpcNUMAContext) (S : Nat) (clNid clTid srThread : UInt32) : Prop where
  nid_pos : 1 ≤ clNid.toNat
  nid_le : clNid.toNat ≤ ctx.getNumClients.toNat
  tid_lt : clTid.toNat < ctx.threadsPerClient.toNat
  thread_lt : srThread.toNat < S

/-- client の node と thread、server の thread の組ごとに、自分の buffer がある。 -/
structure OwnBuffers (ctx : RpcNUMAContext) (S : Nat) : Prop where
  injective : ∀ nid tid N nid' tid' N', ctx.InRange S nid tid N → ctx.InRange S nid' tid' N' →
    ctx.getCBufIdx nid tid N = ctx.getCBufIdx nid' tid' N' → nid = nid' ∧ tid = tid' ∧ N = N'
  /-- 番号は、作られる buffer の数より小さい。 -/
  bound : ∀ nid tid N, ctx.InRange S nid tid N →
    ∀ em nidToCreateOn entryByteSize numEntries areSendersCopies, (ctx.getCBufIdx nid tid N).toNat
      < (ctx.setupCircularBuffers em nidToCreateOn entryByteSize numEntries ctx.bufsPerThread S
        areSendersCopies).circBuffers.length
  /-- server の thread `N` の番号は、`N` 番目の区間をちょうど埋める。 -/
  fills : ∀ N : UInt32, N.toNat < S → ∀ k : Nat,
    (∃ nid tid, ctx.InRange S nid tid N ∧ (ctx.getCBufIdx nid tid N).toNat = k) ↔
      N.toNat * ctx.bufsPerThread ≤ k ∧ k ≤ (N.toNat + 1) * ctx.bufsPerThread - 1

theorem length_setupLoop (pageSize : Nat) (copies : Bool) (k base : Nat) :
    (setupLoop pageSize copies k base).length = k := by
  induction k generalizing base with
  | zero => rfl
  | succ k ih => rw [setupLoop, List.length_cons, ih]

/-- 桁あふれしない範囲で、番号は区間の先頭と、区間の中の番号の和である。 -/
theorem getCBufIdx_toNat (hlt : S * ctx.bufsPerThread < 2 ^ 32)
    (hr : ctx.InRange S clNid clTid srThread) :
    (ctx.getCBufIdx clNid clTid srThread).toNat = srThread.toNat * ctx.bufsPerThread
      + ((clNid.toNat - 1) * ctx.getNumClients.toNat + clTid.toNat) % 2 ^ 32 := by
  have hpos := hr.nid_pos
  have hsub : (clNid - 1).toNat = clNid.toNat - 1 :=
    UInt32.toNat_sub_of_le clNid 1 (UInt32.le_iff_toNat_le.mpr hpos)
  have hthread : srThread.toNat * ctx.bufsPerThread ≤ S * ctx.bufsPerThread :=
    Nat.mul_le_mul_right _ hr.thread_lt.le
  have hper : ctx.bufsPerThread < 2 ^ 32 := by
    refine lt_of_le_of_lt (Nat.le_mul_of_pos_left _ ?_) hlt
    exact Nat.zero_lt_of_lt hr.thread_lt
  have hper' : (ctx.getNumClients * ctx.threadsPerClient).toUInt64.toNat = ctx.bufsPerThread := by
    rw [UInt32.toNat_toUInt64, UInt32.toNat_mul]
    exact Nat.mod_eq_of_lt hper
  have hclient : ((clNid - 1) * ctx.getNumClients + clTid).toUInt64.toNat
      = ((clNid.toNat - 1) * ctx.getNumClients.toNat + clTid.toNat) % 2 ^ 32 := by
    rw [UInt32.toNat_toUInt64, UInt32.toNat_add, UInt32.toNat_mul, hsub, Nat.mod_add_mod]
  have hmod := Nat.mod_lt ((clNid.toNat - 1) * ctx.getNumClients.toNat + clTid.toNat)
    (show 0 < 2 ^ 32 by decide)
  rw [getCBufIdx, UInt64.toNat_add, UInt64.toNat_mul, hper', hclient, UInt32.toNat_toUInt64,
    Nat.mod_add_mod]
  exact Nat.mod_eq_of_lt (by omega)

/-- 区間の幅が `t` で、区間の中の番号が `t` 未満なら、和から両方が決まる。 -/
theorem digits_inj {t a b c d : Nat} (hc : c < t) (hd : d < t) (h : a * t + c = b * t + d) :
    a = b ∧ c = d := by
  have ht : 0 < t := Nat.zero_lt_of_lt hc
  obtain ⟨hdiv, hmod⟩ := (Nat.div_mod_unique ht).mpr ⟨show c + t * a = a * t + c by ring, hc⟩
  obtain ⟨hdiv', hmod'⟩ := (Nat.div_mod_unique ht).mpr ⟨show d + t * b = b * t + d by ring, hd⟩
  exact ⟨by rw [← hdiv, h, hdiv'], by rw [← hmod, h, hmod']⟩

theorem digits_lt {n t a c : Nat} (ha : a < n) (hc : c < t) : a * t + c < n * t := by
  have : (a + 1) * t ≤ n * t := Nat.mul_le_mul_right t ha
  rw [Nat.add_mul, Nat.one_mul] at this
  omega

theorem exists_digits {n t r : Nat} (hr : r < n * t) : ∃ a c, a < n ∧ c < t ∧ a * t + c = r := by
  have ht : 0 < t := Nat.pos_of_mul_pos_left (Nat.zero_lt_of_lt hr)
  exact ⟨r / t, r % t, Nat.div_lt_of_lt_mul (by rwa [Nat.mul_comm]), Nat.mod_lt r ht,
    Nat.div_add_mod' r t⟩

section

variable (hlt : S * ctx.bufsPerThread < 2 ^ 32)
  (hsq : ctx.getNumClients.toNat = 1 ∨ ctx.getNumClients.toNat = ctx.threadsPerClient.toNat)
include hlt hsq

/-- client が一つか、client と thread の数が等しければ、client ごとの幅は thread の数である。 -/
theorem getCBufIdx_eq (hr : ctx.InRange S clNid clTid srThread) :
    (ctx.getCBufIdx clNid clTid srThread).toNat = srThread.toNat * ctx.bufsPerThread
      + ((clNid.toNat - 1) * ctx.threadsPerClient.toNat + clTid.toNat) := by
  have hpos := hr.nid_pos
  have hle := hr.nid_le
  have hstride : (clNid.toNat - 1) * ctx.getNumClients.toNat
      = (clNid.toNat - 1) * ctx.threadsPerClient.toNat := by
    rcases hsq with hone | heq
    · rw [show clNid.toNat - 1 = 0 by omega, Nat.zero_mul, Nat.zero_mul]
    · rw [heq]
  have hin := digits_lt (show clNid.toNat - 1 < ctx.getNumClients.toNat by omega) hr.tid_lt
  have hper : ctx.bufsPerThread ≤ S * ctx.bufsPerThread :=
    Nat.le_mul_of_pos_left _ (Nat.zero_lt_of_lt hr.thread_lt)
  unfold bufsPerThread at hper
  rw [getCBufIdx_toNat hlt hr, hstride, Nat.mod_eq_of_lt]
  unfold bufsPerThread at hlt
  omega

theorem ownBuffers_of_stride (hpos : 0 < ctx.bufsPerThread) : ctx.OwnBuffers S where
  injective := by
    intro nid tid N nid' tid' N' hr hr' he
    have hval := congrArg UInt64.toNat he
    rw [getCBufIdx_eq hlt hsq hr, getCBufIdx_eq hlt hsq hr'] at hval
    have hpos := hr.nid_pos
    have hpos' := hr'.nid_pos
    have hle := hr.nid_le
    have hle' := hr'.nid_le
    obtain ⟨hN, hin⟩ := digits_inj
      (digits_lt (show nid.toNat - 1 < ctx.getNumClients.toNat by omega) hr.tid_lt)
      (digits_lt (show nid'.toNat - 1 < ctx.getNumClients.toNat by omega) hr'.tid_lt) hval
    obtain ⟨hnid, htid⟩ := digits_inj hr.tid_lt hr'.tid_lt hin
    exact ⟨UInt32.toNat_inj.mp (by omega), UInt32.toNat_inj.mp htid, UInt32.toNat_inj.mp hN⟩
  bound := by
    intro nid tid N hr em nidToCreateOn entryByteSize numEntries copies
    have hpos := hr.nid_pos
    have hle := hr.nid_le
    have hin := digits_lt (show nid.toNat - 1 < ctx.getNumClients.toNat by omega) hr.tid_lt
    have hsize : sizeMul ctx.bufsPerThread S = S * ctx.bufsPerThread := by
      rw [sizeMul, Nat.mul_comm]
      exact Nat.mod_eq_of_lt (by omega)
    rw [setupCircularBuffers, length_setupLoop, hsize, getCBufIdx_eq hlt hsq hr]
    exact digits_lt hr.thread_lt hin
  fills := by
    intro N hN k
    constructor
    · rintro ⟨nid, tid, hr, rfl⟩
      have hpos := hr.nid_pos
      have hle := hr.nid_le
      have hin := digits_lt (show nid.toNat - 1 < ctx.getNumClients.toNat by omega) hr.tid_lt
      rw [getCBufIdx_eq hlt hsq hr, Nat.add_mul, Nat.one_mul]
      unfold bufsPerThread
      omega
    · rintro ⟨hlow, hhigh⟩
      rw [Nat.add_mul, Nat.one_mul] at hhigh
      obtain ⟨a, c, ha, hc, hk⟩ := exists_digits
        (show k - N.toNat * ctx.bufsPerThread < ctx.bufsPerThread by omega)
      have hnid : (UInt32.ofNat (a + 1)).toNat = a + 1 :=
        UInt32.toNat_ofNat_of_lt' (lt_of_le_of_lt ha ctx.getNumClients.toNat_lt)
      have htid : (UInt32.ofNat c).toNat = c :=
        UInt32.toNat_ofNat_of_lt' (lt_trans hc ctx.threadsPerClient.toNat_lt)
      have hr : ctx.InRange S (UInt32.ofNat (a + 1)) (UInt32.ofNat c) N :=
        ⟨by rw [hnid]; omega, by rw [hnid]; exact ha, by rw [htid]; exact hc, hN⟩
      refine ⟨_, _, hr, ?_⟩
      rw [getCBufIdx_eq hlt hsq hr, hnid, htid, Nat.add_sub_cancel, hk]
      omega

end

/-- client が thread より少なければ、二つ目の client の番号が一つ目の client の番号と重なる。 -/
theorem not_ownBuffers_of_lt (hlt : S * ctx.bufsPerThread < 2 ^ 32) (hS : 1 ≤ S)
    (hn : 2 ≤ ctx.getNumClients.toNat)
    (hnt : ctx.getNumClients.toNat < ctx.threadsPerClient.toNat) : ¬ ctx.OwnBuffers S := by
  intro h
  have hn32 := ctx.getNumClients.toNat_lt
  have hr : ctx.InRange S 1 ctx.getNumClients 0 := ⟨le_refl 1, by simpa using (by omega), hnt, hS⟩
  have hr' : ctx.InRange S 2 0 0 :=
    ⟨by decide, hn, show 0 < ctx.threadsPerClient.toNat by omega, hS⟩
  have he : ctx.getCBufIdx 1 ctx.getNumClients 0 = ctx.getCBufIdx 2 0 0 := by
    refine UInt64.toNat_inj.mp ?_
    rw [getCBufIdx_toNat hlt hr, getCBufIdx_toNat hlt hr']
    simp
  exact absurd (h.injective _ _ _ _ _ _ hr hr' he).1 (by decide)

/-- client が thread より多ければ、`threadsPerClient + 1` 番の client の番号が区間を越える。 -/
theorem not_ownBuffers_of_gt (hlt : S * ctx.bufsPerThread < 2 ^ 32) (hS : 1 ≤ S)
    (ht : 1 ≤ ctx.threadsPerClient.toNat)
    (hnt : ctx.threadsPerClient.toNat < ctx.getNumClients.toNat) : ¬ ctx.OwnBuffers S := by
  intro h
  have hper : ctx.bufsPerThread ≤ S * ctx.bufsPerThread := Nat.le_mul_of_pos_left _ hS
  have hn32 := ctx.getNumClients.toNat_lt
  have hSlt : S ≤ S * ctx.bufsPerThread :=
    Nat.le_mul_of_pos_right S (Nat.mul_pos (by omega) ht)
  have hnid : (UInt32.ofNat (ctx.threadsPerClient.toNat + 1)).toNat
      = ctx.threadsPerClient.toNat + 1 :=
    UInt32.toNat_ofNat_of_lt' (show _ < 2 ^ 32 by omega)
  have hN : (UInt32.ofNat (S - 1)).toNat = S - 1 :=
    UInt32.toNat_ofNat_of_lt' (show _ < 2 ^ 32 by omega)
  have hr : ctx.InRange S (UInt32.ofNat (ctx.threadsPerClient.toNat + 1)) 0
      (UInt32.ofNat (S - 1)) := ⟨by rw [hnid]; omega, by rw [hnid]; omega, ht, by rw [hN]; omega⟩
  have hbound := h.bound _ _ _ hr .other 0 0 0 false
  have hclient : (ctx.threadsPerClient.toNat + 1 - 1) * ctx.getNumClients.toNat
      = ctx.bufsPerThread := by rw [Nat.add_sub_cancel, bufsPerThread, Nat.mul_comm]
  have hsize : sizeMul ctx.bufsPerThread S = S * ctx.bufsPerThread := by
    rw [sizeMul, Nat.mul_comm]
    exact Nat.mod_eq_of_lt (by omega)
  have hlast : (S - 1) * ctx.bufsPerThread + ctx.bufsPerThread = S * ctx.bufsPerThread := by
    rw [← Nat.succ_mul, Nat.succ_eq_add_one, Nat.sub_add_cancel hS]
  rw [setupCircularBuffers, length_setupLoop, hsize, getCBufIdx_toNat hlt hr, hnid, hN, hclient,
    UInt32.toNat_zero, Nat.add_zero, Nat.mod_eq_of_lt (lt_of_le_of_lt hper hlt), hlast] at hbound
  exact lt_irrefl _ hbound

end RpcNUMAContext

open RpcNUMAContext in
/-- **番号が重ならずに区間を埋めるのは、client が一つか、client と thread が同数のときに限る。** -/
theorem ownBuffers_iff {ctx : RpcNUMAContext} {S : Nat} (hnodes : 2 ≤ ctx.totalNodeCount.toNat)
    (ht : 1 ≤ ctx.threadsPerClient.toNat) (hS : 1 ≤ S)
    (hlt : S * (ctx.getNumClients.toNat * ctx.threadsPerClient.toNat) < 2 ^ 32) :
    ctx.OwnBuffers S ↔
      ctx.getNumClients.toNat = 1 ∨ ctx.getNumClients.toNat = ctx.threadsPerClient.toNat := by
  have hclients : ctx.getNumClients.toNat = ctx.totalNodeCount.toNat - 1 :=
    UInt32.toNat_sub_of_le _ 1 (UInt32.le_iff_toNat_le.mpr (show 1 ≤ _ by omega))
  constructor
  · intro h
    rcases Nat.lt_trichotomy ctx.getNumClients.toNat ctx.threadsPerClient.toNat with
      hless | heq | hmore
    · by_contra hne
      exact not_ownBuffers_of_lt hlt hS (by omega) hless h
    · exact Or.inr heq
    · exact absurd h (not_ownBuffers_of_gt hlt hS ht hmore)
  · intro hsq
    exact ownBuffers_of_stride hlt hsq (Nat.mul_pos (by omega) ht)

/-- 二つの client と二つの thread。layout の注釈の例である。 -/
theorem ownBuffers_twoByTwo :
    RpcNUMAContext.OwnBuffers
      { totalNodeCount := 3, threadsPerClient := 2, pgas := 0, circBuffers := [] } 2 :=
  (ownBuffers_iff (by decide) (by decide) (by decide) (by decide)).mpr (Or.inr (by decide))

/-- 二つの client と三つの thread では、client 1 の thread 2 と client 2 の thread 0 が重なる。 -/
theorem getCBufIdx_collides :
    ¬ RpcNUMAContext.OwnBuffers
      { totalNodeCount := 3, threadsPerClient := 3, pgas := 0, circBuffers := [] } 1 := by
  intro h
  exact absurd (h.injective 1 2 0 2 0 0 ⟨by decide, by decide, by decide, by decide⟩
    ⟨by decide, by decide, by decide, by decide⟩ (by decide)).1 (by decide)

/-! ## buffer の配置 -/

namespace RpcNUMAContext

/-- 番号 `i` の buffer を操作する。`none` は `vector::at` の例外か、操作の `assert` の失敗である。 -/
def atBuffer (ctx : RpcNUMAContext) (i : Nat)
    (f : CircularReceiveBuffer → Option CircularReceiveBuffer) : Option RpcNUMAContext :=
  ctx.circBuffers[i]?.bind fun b =>
    (f b).map fun b' => { ctx with circBuffers := ctx.circBuffers.set i b' }

/-- `incrementBufferHead`。 -/
def incrementBufferHead (ctx : RpcNUMAContext) (bufNumber : Nat) : Option RpcNUMAContext :=
  ctx.atBuffer bufNumber fun b => some b.incHeadAfterMsgProcessed

/-- `zeroOutRBufHead`。 -/
def zeroOutRBufHead (ctx : RpcNUMAContext) (m : Mem) (bufferNumber : Nat) : Option Mem :=
  ctx.circBuffers[bufferNumber]?.map fun b => b.zeroEntryNumber m b.getHeadIdxValue

end RpcNUMAContext

/-- context と、buffer の置かれた memory。 -/
structure BufferSystem where
  ctx : RpcNUMAContext
  mem : Mem

/-- 番号の buffer への操作。 -/
inductive BufferOp where
  /-- `writeSRMetadata(getTailIdxValue())` のあとに `incTail()`。 -/
  | write (i : Nat)
  | processed (i : Nat)
  | free (i : Nat) (inc : UInt32)
  | zero (i : Nat)

/-- 一つの操作。`NDEBUG` を付けた build では `assert` は無い。 -/
def bufferSystemStep (ndebug : Bool) (s : BufferSystem) : BufferOp → Option BufferSystem
  | .write i =>
    (s.ctx.atBuffer i fun b =>
      (b.writeSRMetadata b.getTailIdxValue).bind (CircularReceiveBuffer.incTailBuilt ndebug)).map
      fun ctx => { s with ctx := ctx }
  | .processed i => (s.ctx.incrementBufferHead i).map fun ctx => { s with ctx := ctx }
  | .free i inc =>
    (s.ctx.atBuffer i fun b => b.incSendersHeadBuilt ndebug inc).map
      fun ctx => { s with ctx := ctx }
  | .zero i => (s.ctx.zeroOutRBufHead s.mem i).map fun m => { s with mem := m }

namespace CircularReceiveBuffer

variable {b b' : CircularReceiveBuffer}

/-- 置き場所は変わらず、`head` と `tail` は範囲の中にある。 -/
structure StaysIn (b b' : CircularReceiveBuffer) : Prop where
  basePointer : b'.basePointer = b.basePointer
  entryByteSize : b'.entryByteSize = b.entryByteSize
  numEntries : b'.numEntries = b.numEntries
  head_lt : b.head < b.numEntries → b'.head < b.numEntries
  tail_lt : b.tail < b.numEntries → b'.tail < b.numEntries

theorem staysIn_incHead (b : CircularReceiveBuffer) : b.StaysIn b.incHeadAfterMsgProcessed where
  basePointer := rfl
  entryByteSize := rfl
  numEntries := rfl
  head_lt := by
    intro hlt
    unfold incHeadAfterMsgProcessed
    dsimp only
    split
    · exact Nat.zero_lt_of_lt hlt
    · omega
  tail_lt := id

theorem staysIn_write {ndebug : Bool}
    (h : (b.writeSRMetadata b.getTailIdxValue).bind (incTailBuilt ndebug) = some b') :
    b.StaysIn b' := by
  obtain ⟨u, hu, hb'⟩ := Option.bind_eq_some_iff.mp h
  unfold writeSRMetadata at hu
  split at hu
  · cases hu
    rw [incTailBuilt_eq hb']
    refine ⟨?_, ?_, advanced_rest.1, ?_, ?_⟩
    · unfold bumpTail markFull
      split <;> split <;> rfl
    · unfold bumpTail markFull
      split <;> split <;> rfl
    · intro hlt
      unfold bumpTail markFull
      split <;> split <;> exact hlt
    · intro hlt
      rw [advanced_tail (b := { b with srVector := b.srVector.set b.getTailIdxValue b.bufferSr }) hlt]
      exact Nat.mod_lt _ (Nat.zero_lt_of_lt hlt)
  · cases hu

theorem staysIn_free {ndebug : Bool} {inc : UInt32} (h : b.incSendersHeadBuilt ndebug inc = some b') :
    b.StaysIn b' := by
  have he : b' = b.moveSendersHead inc := by
    unfold incSendersHeadBuilt incSendersHeadToFreeSpace at h
    split at h
    · exact (Option.some.inj h).symm
    · split at h
      · exact (Option.some.inj h).symm
      · cases h
  rw [he]
  exact ⟨rfl, rfl, rfl, id, id⟩

end CircularReceiveBuffer

/-- 一つの buffer の大きさ。 -/
def bufferBytes (em : Emulator) : Nat := msgsPerPair.toNat * emulatorSwPageSize em

/-- `i` 番目の buffer は `pgas` から `i` 個分だけ進んだところにある。 -/
structure LaidOut (em : Emulator) (pgas i : Nat) (b : CircularReceiveBuffer) : Prop where
  basePointer : b.basePointer = pgas + i * bufferBytes em
  entryByteSize : b.entryByteSize = emulatorSwPageSize em
  numEntries : b.numEntries = msgsPerPair.toNat
  head_lt : b.head < b.numEntries
  tail_lt : b.tail < b.numEntries

variable {em : Emulator} {pgas i : Nat} {b b' : CircularReceiveBuffer}

theorem LaidOut.of_staysIn (h : LaidOut em pgas i b) (hs : b.StaysIn b') :
    LaidOut em pgas i b' where
  basePointer := by rw [hs.basePointer, h.basePointer]
  entryByteSize := by rw [hs.entryByteSize, h.entryByteSize]
  numEntries := by rw [hs.numEntries, h.numEntries]
  head_lt := by rw [hs.numEntries]; exact hs.head_lt h.head_lt
  tail_lt := by rw [hs.numEntries]; exact hs.tail_lt h.tail_lt

theorem emulatorSwPageSize_pos (em : Emulator) : 0 < emulatorSwPageSize em := by
  cases em <;> decide

theorem bufferBytes_pos (em : Emulator) : 0 < bufferBytes em :=
  Nat.mul_pos (by decide) (emulatorSwPageSize_pos em)

theorem sizeMul_bufferBytes (em : Emulator) :
    sizeMul msgsPerPair.toNat (emulatorSwPageSize em) = bufferBytes em := by
  cases em <;> decide

/-- ループの作る `i` 番目の buffer。 -/
theorem getElem_setupLoop {copies : Bool} {k base : Nat}
    (hfit : base + k * bufferBytes em ≤ 2 ^ 64)
    (h : (RpcNUMAContext.setupLoop (emulatorSwPageSize em) copies k base)[i]? = some b) :
    LaidOut em base i b := by
  induction k generalizing base i with
  | zero => cases h
  | succ k ih =>
    rw [Nat.succ_mul] at hfit
    have hpos := bufferBytes_pos em
    rw [RpcNUMAContext.setupLoop] at h
    cases i with
    | zero =>
      obtain rfl := Option.some.inj h
      have hnum : 0 < msgsPerPair.toNat := by decide
      exact ⟨by simp [CircularReceiveBuffer.new], rfl, rfl, hnum, hnum⟩
    | succ i =>
      rw [List.getElem?_cons_succ] at h
      have hi : i < k := by
        have := (List.getElem?_eq_some_iff.mp h).1
        rwa [RpcNUMAContext.length_setupLoop] at this
      have hle : bufferBytes em ≤ k * bufferBytes em := Nat.le_mul_of_pos_left _ (by omega)
      have hnext : ptrAdd base (CircularReceiveBuffer.getReservedMemoryBytes
          (CircularReceiveBuffer.new base (emulatorSwPageSize em) msgsPerPair.toNat copies))
            = base + bufferBytes em := by
        show (base + sizeMul msgsPerPair.toNat (emulatorSwPageSize em)) % 2 ^ 64 = _
        rw [sizeMul_bufferBytes, Nat.mod_eq_of_lt (by omega)]
      rw [hnext] at h
      have hlaid := ih (by omega) h
      refine { hlaid with basePointer := ?_ }
      rw [hlaid.basePointer, Nat.succ_mul]
      omega

/-- すべての buffer が並んだまま、`head` と `tail` が範囲の中にある。 -/
structure AllLaidOut (em : Emulator) (pgas k : Nat) (s : BufferSystem) : Prop where
  length : s.ctx.circBuffers.length = k
  laid : ∀ i b, s.ctx.circBuffers[i]? = some b → LaidOut em pgas i b

theorem AllLaidOut.atBuffer {k : Nat} {s : BufferSystem} {ctx' : RpcNUMAContext}
    {f : CircularReceiveBuffer → Option CircularReceiveBuffer} (h : AllLaidOut em pgas k s)
    (hf : ∀ b b', f b = some b' → b.StaysIn b') (hctx : s.ctx.atBuffer i f = some ctx') :
    AllLaidOut em pgas k { s with ctx := ctx' } := by
  obtain ⟨b, hb, hmap⟩ := Option.bind_eq_some_iff.mp hctx
  obtain ⟨b', hb', rfl⟩ := Option.map_eq_some_iff.mp hmap
  refine ⟨by simpa using h.length, fun j u hu => ?_⟩
  rw [List.getElem?_set] at hu
  split at hu
  · next hij =>
    subst hij
    split at hu
    · obtain rfl := Option.some.inj hu
      exact (h.laid i b hb).of_staysIn (hf b b' hb')
    · cases hu
  · exact h.laid j u hu

theorem AllLaidOut.step {ndebug : Bool} {k : Nat} {s s' : BufferSystem} {a : BufferOp}
    (h : AllLaidOut em pgas k s) (hs : bufferSystemStep ndebug s a = some s') :
    AllLaidOut em pgas k s' := by
  cases a with
  | write i =>
    obtain ⟨ctx', hctx, rfl⟩ := Option.map_eq_some_iff.mp hs
    exact h.atBuffer (fun _ _ => CircularReceiveBuffer.staysIn_write) hctx
  | processed i =>
    obtain ⟨ctx', hctx, rfl⟩ := Option.map_eq_some_iff.mp hs
    refine h.atBuffer (fun b b' hb => ?_) hctx
    obtain rfl := Option.some.inj hb
    exact b.staysIn_incHead
  | free i inc =>
    obtain ⟨ctx', hctx, rfl⟩ := Option.map_eq_some_iff.mp hs
    exact h.atBuffer (fun _ _ => CircularReceiveBuffer.staysIn_free) hctx
  | zero i =>
    obtain ⟨m, -, rfl⟩ := Option.map_eq_some_iff.mp hs
    exact ⟨h.length, h.laid⟩

/-! ### 番地 -/

theorem LaidOut.reserved (h : LaidOut em pgas i b) : b.getReservedMemoryBytes = bufferBytes em := by
  rw [CircularReceiveBuffer.getReservedMemoryBytes, h.numEntries, h.entryByteSize,
    sizeMul_bufferBytes]

/-- 自分の範囲が番地の中に収まるなら、段の番地は折り返さない。 -/
theorem LaidOut.entryAddress (h : LaidOut em pgas i b)
    (hfit : pgas + (i + 1) * bufferBytes em ≤ 2 ^ 64) {j : Nat} (hj : j < b.numEntries) :
    ptrAdd b.basePointer (sizeMul j b.entryByteSize) = b.basePointer + j * b.entryByteSize ∧
      b.basePointer + j * b.entryByteSize + b.entryByteSize
        ≤ b.basePointer + b.getReservedMemoryBytes := by
  have hres := h.reserved
  have hlast : (j + 1) * b.entryByteSize ≤ bufferBytes em := by
    rw [bufferBytes, ← h.entryByteSize, ← h.numEntries]
    exact Nat.mul_le_mul_right _ hj
  have hpos : 0 < b.entryByteSize := by
    rw [h.entryByteSize]
    exact emulatorSwPageSize_pos em
  have hbase := h.basePointer
  rw [Nat.succ_mul] at hlast hfit
  rw [hres]
  refine ⟨?_, by omega⟩
  rw [ptrAdd, sizeMul, Nat.mod_eq_of_lt (show j * b.entryByteSize < 2 ^ 64 by omega),
    Nat.mod_eq_of_lt (by omega)]

theorem LaidOut.apart {j : Nat} (h : LaidOut em pgas i b) (h' : LaidOut em pgas j b')
    (hij : i ≠ j) : Apart b.basePointer b.getReservedMemoryBytes b'.basePointer
      b'.getReservedMemoryBytes := by
  have hres := h.reserved
  have hres' := h'.reserved
  have hbase := h.basePointer
  have hbase' := h'.basePointer
  intro x hx hlt hx' hlt'
  rcases Nat.lt_or_gt_of_ne hij with hless | hmore
  · have := Nat.mul_le_mul_right (bufferBytes em) hless
    rw [Nat.succ_mul] at this
    omega
  · have := Nat.mul_le_mul_right (bufferBytes em) hmore
    rw [Nat.succ_mul] at this
    omega

/-- buffer どうしは互いに影響しない。 -/
structure Isolated (s : BufferSystem) : Prop where
  /-- `head` の段は自分の範囲にある。 -/
  head_inside : ∀ (i : Nat) (b : CircularReceiveBuffer), s.ctx.circBuffers[i]? = some b →
    b.basePointer ≤ b.getHeadAddress ∧
      b.getHeadAddress + b.entryByteSize ≤ b.basePointer + b.getReservedMemoryBytes
  /-- `tail` の段は自分の範囲にある。 -/
  tail_inside : ∀ (i : Nat) (b : CircularReceiveBuffer), s.ctx.circBuffers[i]? = some b →
    b.basePointer ≤ b.getTailAddress ∧
      b.getTailAddress + b.entryByteSize ≤ b.basePointer + b.getReservedMemoryBytes
  /-- 違う buffer の範囲は重ならない。 -/
  apart : ∀ (i j : Nat) (b b' : CircularReceiveBuffer), i ≠ j →
    s.ctx.circBuffers[i]? = some b → s.ctx.circBuffers[j]? = some b' →
      Apart b.basePointer b.getReservedMemoryBytes b'.basePointer b'.getReservedMemoryBytes
  /-- `zeroOutRBufHead` は `head` の段を消し、同じ buffer のほかの段も、ほかの buffer も変えない。 -/
  zeroed : ∀ (i : Nat) (b : CircularReceiveBuffer), s.ctx.circBuffers[i]? = some b →
    ∃ m, s.ctx.zeroOutRBufHead s.mem i = some m ∧
      (∀ x, x < b.entryByteSize → m (b.getHeadAddress + x) = 0) ∧
      (∀ x, x < b.getHeadAddress ∨ b.getHeadAddress + b.entryByteSize ≤ x → m x = s.mem x) ∧
      (∀ j, j < b.numEntries → j ≠ b.getHeadIdxValue → ∀ x, x < b.entryByteSize →
        m (b.basePointer + j * b.entryByteSize + x)
          = s.mem (b.basePointer + j * b.entryByteSize + x)) ∧
      ∀ (j : Nat) (b' : CircularReceiveBuffer), j ≠ i → s.ctx.circBuffers[j]? = some b' →
        ∀ x, x < b'.getReservedMemoryBytes → m (b'.basePointer + x) = s.mem (b'.basePointer + x)

theorem AllLaidOut.isolated {k : Nat} {s : BufferSystem} (h : AllLaidOut em pgas k s)
    (hfit : pgas + k * bufferBytes em ≤ 2 ^ 64) : Isolated s := by
  have hroom : ∀ (i : Nat) (b : CircularReceiveBuffer), s.ctx.circBuffers[i]? = some b →
      pgas + (i + 1) * bufferBytes em ≤ 2 ^ 64 := by
    intro i b hb
    have hi : i < k := h.length ▸ (List.getElem?_eq_some_iff.mp hb).1
    have := Nat.mul_le_mul_right (bufferBytes em) (show i + 1 ≤ k from hi)
    omega
  have haddr : ∀ (i : Nat) (b : CircularReceiveBuffer), s.ctx.circBuffers[i]? = some b →
      ∀ j, j < b.numEntries →
        ptrAdd b.basePointer (sizeMul j b.entryByteSize) = b.basePointer + j * b.entryByteSize ∧
          b.basePointer + j * b.entryByteSize + b.entryByteSize
            ≤ b.basePointer + b.getReservedMemoryBytes :=
    fun i b hb j hj => (h.laid i b hb).entryAddress (hroom i b hb) hj
  refine ⟨fun i b hb => ?_, fun i b hb => ?_,
    fun i j b b' hij hb hb' => (h.laid i b hb).apart (h.laid j b' hb') hij, fun i b hb => ?_⟩
  · obtain ⟨heq, hle⟩ := haddr i b hb b.head (h.laid i b hb).head_lt
    rw [CircularReceiveBuffer.getHeadAddress, heq]
    omega
  · obtain ⟨heq, hle⟩ := haddr i b hb b.tail (h.laid i b hb).tail_lt
    rw [CircularReceiveBuffer.getTailAddress, heq]
    omega
  · obtain ⟨heq, hle⟩ := haddr i b hb b.head (h.laid i b hb).head_lt
    have hhead : b.getHeadAddress = b.basePointer + b.head * b.entryByteSize := heq
    refine ⟨b.zeroEntryNumber s.mem b.getHeadIdxValue,
      by rw [RpcNUMAContext.zeroOutRBufHead, hb]; rfl, ?_, ?_, ?_, ?_⟩
    · intro x hx
      exact Mem.write_inside (a := b.getHeadAddress) hx
    · intro x hx
      exact Mem.write_outside (a := b.getHeadAddress) hx
    · intro j hj hne x hx
      refine Mem.write_outside (a := b.getHeadAddress) ?_
      rw [hhead]
      rcases Nat.lt_or_gt_of_ne hne with hless | hmore
      · have hmul := Nat.mul_le_mul_right b.entryByteSize (show j + 1 ≤ b.head from hless)
        rw [Nat.succ_mul] at hmul
        omega
      · have hmul := Nat.mul_le_mul_right b.entryByteSize (show b.head + 1 ≤ j from hmore)
        rw [Nat.succ_mul] at hmul
        omega
    · intro j b' hne hb' x hx
      have hapart := (h.laid i b hb).apart (h.laid j b' hb') (Ne.symm hne)
      refine Mem.write_outside (a := b.getHeadAddress) ?_
      have hx' := hapart (b'.basePointer + x)
      rw [hhead]
      omega

/--
**一つの context の循環 buffer は、どの操作をどの順に行っても互いに影響しない。**

`setupCircularBuffers` の後、`assert` のある build でも無い build でも成り立つ。
-/
theorem buffers_isolated {ndebug areSendersCopies : Bool} {ctx : RpcNUMAContext}
    {nidToCreateOn entryByteSize numEntries senders receivers : Nat} {mem : Mem} {s : BufferSystem}
    (hfit : ctx.pgas + senders * receivers * (msgsPerPair.toNat * emulatorSwPageSize em) ≤ 2 ^ 64)
    (hr : Reaches (bufferSystemStep ndebug) Always
      ⟨ctx.setupCircularBuffers em nidToCreateOn entryByteSize numEntries senders receivers
        areSendersCopies, mem⟩ s) : Isolated s := by
  have hsize : sizeMul senders receivers = senders * receivers := by
    have hpos : 1 < msgsPerPair.toNat * emulatorSwPageSize em := by cases em <;> decide
    rcases Nat.eq_zero_or_pos (senders * receivers) with hz | hz
    · rw [sizeMul, hz, Nat.zero_mod]
    · refine Nat.mod_eq_of_lt ?_
      have := Nat.mul_lt_mul_of_pos_left hpos hz
      omega
  have hinit : AllLaidOut em ctx.pgas (senders * receivers)
      ⟨ctx.setupCircularBuffers em nidToCreateOn entryByteSize numEntries senders receivers
        areSendersCopies, mem⟩ := by
    refine ⟨?_, fun i b hb => getElem_setupLoop (k := sizeMul senders receivers) ?_ hb⟩
    · rw [← hsize]
      exact RpcNUMAContext.length_setupLoop _ _ _ _
    · rw [hsize]
      exact hfit
  exact (hr.invariant hinit fun u a u' hu _ hs => hu.step hs).isolated hfit

/-- 二つの buffer で、一方に書いて `head` を進め、消す。 -/
theorem buffers_isolated_two :
    ∃ s, exec (bufferSystemStep false)
        ⟨RpcNUMAContext.setupCircularBuffers .other ⟨3, 1, 65536, []⟩ 0 64 8 2 1 true, fun _ => 7⟩
        [.write 1, .processed 1, .free 0 5, .zero 1] = some s ∧ Isolated s := by
  have hsome : (exec (bufferSystemStep false)
      ⟨RpcNUMAContext.setupCircularBuffers .other ⟨3, 1, 65536, []⟩ 0 64 8 2 1 true, fun _ => 7⟩
      [.write 1, .processed 1, .free 0 5, .zero 1]).isSome := by decide +kernel
  obtain ⟨s, hrun⟩ := Option.isSome_iff_exists.mp hsome
  exact ⟨s, hrun, buffers_isolated (by decide) (reaches_of_exec (fun _ _ _ => trivial) hrun)⟩

end L3fwd.Rpc
