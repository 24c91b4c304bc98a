import L3fwd.Rpc.VmEncoding

/-!
# encode が書く範囲

`packPayload` を書き込みの列として見る。列を順に施したものが `packPayload` である
（`Build.pack_eq_writes`）から、書かれる byte はこの列の範囲の byte である。

payload の位置は番地の端数から求められる。`buf + 12` を 8 で割った余りを足すので、
切り上げになるのは余りが 4 のときだけである。長さを数える側と decode 側は定数 16 を使う。
両者が合うのは、`buf` が 8 byte 境界にあるときに限る。
-/

namespace L3fwd.Rpc

open Infra

/-- 一つの `memcpy`。 -/
structure MemWrite where
  addr : Nat
  len : Nat
  byte : Nat → UInt8

/-- 書き込みを順に施す。 -/
def applyWrites (m : Mem) (ws : List MemWrite) : Mem :=
  ws.foldl (fun m w => m.write w.addr w.len w.byte) m

/-- 二つの build。 -/
inductive Build where
  /-- `FLEXUS` / `QFLEX` / `ZSIM` のどれかを定義した build。 -/
  | simulator
  | vm

namespace Build

/-- `packPayload`。 -/
def pack : Build → Mem → RPCWithHeader → Nat → Mem
  | .simulator => packPayload
  | .vm => packPayloadVm

/-- `unpackBufferToRPCLayer`。 -/
def unpack : Build → Mem → Nat → RPCWithHeader
  | .simulator => unpackBufferToRPCLayer
  | .vm => unpackBufferToRPCLayerVm

def hton32 : Build → UInt32 → UInt32
  | .simulator => id
  | .vm => htonl

def hton16 : Build → UInt16 → UInt16
  | .simulator => id
  | .vm => htons

/-- header の五つの `memcpy`。 -/
def headerWrites (b : Build) (rpc : RPCWithHeader) (buf : Nat) : List MemWrite :=
  [⟨buf, 4, Mem.byteOf (b.hton32 rpc.rpcLen).toNat⟩,
    ⟨buf + 4, 1, Mem.byteOf rpc.rpcType.toNat⟩,
    ⟨buf + 6, 2, Mem.byteOf (b.hton16 rpc.rpcId).toNat⟩,
    ⟨buf + 8, 2, Mem.byteOf (b.hton16 rpc.sendersQp).toNat⟩,
    ⟨buf + 10, 2, Mem.byteOf (b.hton16 rpc.sendersNid).toNat⟩]

/-- payload の `memcpy`。VM の build では長さ 0 なら呼ばれない。 -/
def payloadWrites (b : Build) (m : Mem) (rpc : RPCWithHeader) (buf : Nat) : List MemWrite :=
  let copy : MemWrite := ⟨alignUp (buf + 12), rpc.payloadLen.toNat,
    fun i => applyWrites m (b.headerWrites rpc buf) (rpc.payload + i)⟩
  match b with
  | .simulator => [copy]
  | .vm => if rpc.payloadLen ≠ 0 then [copy] else []

/-- `packPayload` は、header と payload の書き込みを順に施したものである。 -/
theorem pack_eq_writes (b : Build) (m : Mem) (rpc : RPCWithHeader) (buf : Nat) :
    b.pack m rpc buf = applyWrites m (b.headerWrites rpc buf ++ b.payloadWrites m rpc buf) := by
  unfold applyWrites
  rw [List.foldl_append]
  cases b with
  | simulator => rfl
  | vm =>
    simp only [pack, packPayloadVm, payloadWrites]
    split
    · rfl
    · rfl

/-- payload の書き込みは、あれば一つで、番地の端数から決まる位置に長さのぶん書く。 -/
theorem mem_payloadWrites {b : Build} {m : Mem} {rpc : RPCWithHeader} {buf : Nat} {w : MemWrite}
    (hw : w ∈ b.payloadWrites m rpc buf) :
    w.addr = alignUp (buf + 12) ∧ w.len = rpc.payloadLen.toNat := by
  cases b with
  | simulator =>
    obtain rfl := List.mem_singleton.mp hw
    exact ⟨rfl, rfl⟩
  | vm =>
    simp only [payloadWrites] at hw
    split at hw
    · obtain rfl := List.mem_singleton.mp hw
      exact ⟨rfl, rfl⟩
    · exact absurd hw List.not_mem_nil

/-- 長さが 0 でなければ、payload の書き込みがある。 -/
theorem exists_payloadWrite (b : Build) (m : Mem) {rpc : RPCWithHeader}
    (hlen : rpc.payloadLen ≠ 0) (buf : Nat) : ∃ w, w ∈ b.payloadWrites m rpc buf := by
  cases b with
  | simulator => exact ⟨_, List.mem_singleton.mpr rfl⟩
  | vm =>
    simp only [payloadWrites, if_pos hlen]
    exact ⟨_, List.mem_singleton.mpr rfl⟩

/-- header は 12 byte に収まる。 -/
theorem headerWrites_le {b : Build} {rpc : RPCWithHeader} {buf : Nat} {w : MemWrite}
    (hw : w ∈ b.headerWrites rpc buf) : buf ≤ w.addr ∧ w.addr + w.len ≤ buf + 12 := by
  simp only [headerWrites, List.mem_cons, List.not_mem_nil, or_false] at hw
  rcases hw with rfl | rfl | rfl | rfl | rfl <;> dsimp only <;> omega

/-- どちらの build の decode も、payload を固定の header 長のうしろに探す。 -/
theorem unpack_payload (b : Build) (m : Mem) (buf : Nat) :
    (b.unpack m buf).payload = buf + calcTotalHeaderBytes.toNat := by
  cases b with
  | simulator => rfl
  | vm => rfl

end Build

/--
書かれる byte はすべて `[buf, buf + rpc_len)` にあり、
payload の byte は decode 側が探す位置から順に書かれる。
-/
def PacksWithin (b : Build) (m : Mem) (rpc : RPCWithHeader) (buf : Nat) : Prop :=
  (∀ w ∈ b.headerWrites rpc buf ++ b.payloadWrites m rpc buf, ∀ i, i < w.len →
      buf ≤ w.addr + i ∧ w.addr + i < buf + rpc.rpcLen.toNat) ∧
    ∀ w ∈ b.payloadWrites m rpc buf, 0 < w.len →
      w.addr = buf + calcTotalHeaderBytes.toNat ∧
        w.addr = (b.unpack (b.pack m rpc buf) buf).payload

/-- 余りをそのまま足して 16 になるのは、8 byte 境界のときだけである。 -/
theorem alignUp_eq_iff (buf : Nat) :
    alignUp (buf + 12) = buf + calcTotalHeaderBytes.toNat ↔ buf % 8 = 0 := by
  constructor
  · intro h
    have hreq : getAlignmentReq.toNat = 8 := rfl
    have hhdr : calcTotalHeaderBytes.toNat = 16 := by decide
    rw [alignUp, hreq, hhdr] at h
    split at h
    · omega
    · omega
  · exact alignUp_header

/-- payload の長さが 2^32 - 16 未満なら、`rpc_len` は折り返さない。 -/
theorem createRPCStruct_rpcLen (t : UInt8) (rpcId qp nid : UInt16) {len : UInt32} (p : Nat)
    (hlen : len.toNat < 2 ^ 32 - 16) :
    (createRPCStruct t rpcId qp nid len p).rpcLen.toNat = 16 + len.toNat := by
  have hhdr : calcTotalHeaderBytes.toNat = 16 := by decide
  show (calcTotalHeaderBytes + len).toNat = 16 + len.toNat
  rw [UInt32.toNat_add, hhdr, Nat.mod_eq_of_lt]
  omega

/-- **8 byte 境界なら、どちらの build でも、書かれる byte は告げた長さに収まる。** -/
theorem packsWithin_of_aligned (b : Build) (m : Mem) {rpc : RPCWithHeader} {buf : Nat}
    (halign : buf % 8 = 0) (hlen : rpc.rpcLen.toNat = 16 + rpc.payloadLen.toNat) :
    PacksWithin b m rpc buf := by
  have hpos : alignUp (buf + 12) = buf + calcTotalHeaderBytes.toNat := alignUp_header halign
  have hhdr : calcTotalHeaderBytes.toNat = 16 := by decide
  refine ⟨fun w hw i hi => ?_, fun w hw _ => ?_⟩
  · rcases List.mem_append.mp hw with hw | hw
    · obtain ⟨hle, hend⟩ := Build.headerWrites_le hw
      exact ⟨by omega, by omega⟩
    · obtain ⟨haddr, hwlen⟩ := Build.mem_payloadWrites hw
      rw [haddr, hpos, hhdr]
      exact ⟨by omega, by omega⟩
  · obtain ⟨haddr, -⟩ := Build.mem_payloadWrites hw
    rw [Build.unpack_payload, haddr, hpos]
    exact ⟨rfl, rfl⟩

/-- payload が無ければ、番地によらず収まる。 -/
theorem packsWithin_of_empty (b : Build) (m : Mem) {rpc : RPCWithHeader} (buf : Nat)
    (hzero : rpc.payloadLen = 0) (hlen : 16 ≤ rpc.rpcLen.toNat) : PacksWithin b m rpc buf := by
  have hnone : rpc.payloadLen.toNat = 0 := by
    rw [hzero]
    rfl
  refine ⟨fun w hw i hi => ?_, fun w hw hpos => ?_⟩
  · rcases List.mem_append.mp hw with hw | hw
    · obtain ⟨hle, hend⟩ := Build.headerWrites_le hw
      exact ⟨by omega, by omega⟩
    · obtain ⟨-, hwlen⟩ := Build.mem_payloadWrites hw
      omega
  · obtain ⟨-, hwlen⟩ := Build.mem_payloadWrites hw
    omega

/--
**encode が告げた長さに収まり、payload を decode 側の探す位置に書くのは、
`buf` が 8 byte 境界にあるか payload が無いときに限る。**
-/
theorem packsWithin_iff (b : Build) (m : Mem) (t : UInt8) (rpcId qp nid : UInt16) (len : UInt32)
    (p buf : Nat) (hlen : len.toNat < 2 ^ 32 - 16) :
    PacksWithin b m (createRPCStruct t rpcId qp nid len p) buf ↔ buf % 8 = 0 ∨ len = 0 := by
  have hrpc := createRPCStruct_rpcLen t rpcId qp nid p hlen
  constructor
  · rintro ⟨-, hpos⟩
    by_cases hzero : len = 0
    · exact Or.inr hzero
    · have hne : len.toNat ≠ 0 := fun hn => hzero (UInt32.toNat_inj.mp hn)
      obtain ⟨w, hw⟩ := b.exists_payloadWrite m
        (show (createRPCStruct t rpcId qp nid len p).payloadLen ≠ 0 from hzero) buf
      obtain ⟨haddr, hwlen⟩ := Build.mem_payloadWrites hw
      obtain ⟨hplace, -⟩ := hpos w hw (by rw [hwlen]; exact Nat.pos_of_ne_zero hne)
      exact Or.inl ((alignUp_eq_iff buf).mp (haddr.symm.trans hplace))
  · rintro (halign | hzero)
    · exact packsWithin_of_aligned b m halign hrpc
    · exact packsWithin_of_empty b m buf hzero (by omega)

/-- 8 byte 境界の buffer と 8 byte の payload。 -/
theorem packsWithin_iff_aligned :
    PacksWithin .vm (fun _ => 0) (createRPCStruct 7 1 0 0 8 0) 64 :=
  (packsWithin_iff .vm (fun _ => 0) 7 1 0 0 8 0 64 (by decide)).mpr (Or.inl (by decide))

/-- 境界から 1 byte ずれると、payload は 17 byte 目から書かれ、最後の byte がはみ出す。 -/
theorem packsWithin_unaligned :
    ¬ PacksWithin .simulator (fun _ => 0) (createRPCStruct 7 1 0 0 8 0) 65 := by
  rintro ⟨hwithin, -⟩
  obtain ⟨w, hw⟩ := Build.exists_payloadWrite .simulator (fun _ => 0)
    (show (createRPCStruct 7 1 0 0 8 0).payloadLen ≠ 0 by decide) 65
  obtain ⟨haddr, hwlen⟩ := Build.mem_payloadWrites hw
  have hlast := (hwithin w (List.mem_append_right _ hw) 7 (by rw [hwlen]; decide)).2
  rw [haddr] at hlast
  exact absurd hlast (by decide)

end L3fwd.Rpc
