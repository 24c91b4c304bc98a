import L3fwd.Rpc.Encoding

/-!
# VM の build の decode

`FLEXUS` / `QFLEX` / `ZSIM` のどれも定義しない build の `packPayload` / `unpackBufferToRPCLayer`。

encode 側は `rpc_type` のあと 2 byte 進むが、decode 側は 1 byte しか進まない。したがって
decode 側の三つの 16 bit の field は一つ手前の byte から読まれ、`buf + 5` の詰め物が
`rpc_id` に混ざる。往復するのは、三つの field のどの byte もその詰め物と同じときに限る
（`unpack_packPayload_vm_iff`）。
-/

namespace L3fwd.Rpc

open Infra

/-! ## byte order -/

/-- `htons`。`ntohs` も同じ関数である。 -/
def htons (x : UInt16) : UInt16 := UInt16.ofNat (x.toNat % 256 * 256 + x.toNat / 256)

/-- `htonl`。`ntohl` も同じ関数である。 -/
def htonl (x : UInt32) : UInt32 :=
  UInt32.ofNat (x.toNat % 256 * 256 ^ 3 + x.toNat / 256 % 256 * 256 ^ 2
    + x.toNat / 256 ^ 2 % 256 * 256 + x.toNat / 256 ^ 3)

theorem htons_toNat (x : UInt16) : (htons x).toNat = x.toNat % 256 * 256 + x.toNat / 256 := by
  have hlt := x.toNat_lt
  rw [htons, UInt16.toNat_ofNat', Nat.mod_eq_of_lt]
  omega

/-- 四つの byte を逆に並べる。 -/
theorem htonl_of_bytes {x : UInt32} {a b c d : Nat} (ha : a < 256) (hb : b < 256) (hc : c < 256)
    (hd : d < 256) (hx : x.toNat = a + 256 * b + 256 ^ 2 * c + 256 ^ 3 * d) :
    (htonl x).toNat = d + 256 * c + 256 ^ 2 * b + 256 ^ 3 * a := by
  have h0 : x.toNat % 256 = a := by omega
  have h1 : x.toNat / 256 % 256 = b := by omega
  have h2 : x.toNat / 256 ^ 2 % 256 = c := by omega
  have h3 : x.toNat / 256 ^ 3 = d := by omega
  rw [htonl, h0, h1, h2, h3, UInt32.toNat_ofNat', Nat.mod_eq_of_lt]
  · omega
  · omega

@[simp] theorem htonl_htonl (x : UInt32) : htonl (htonl x) = x := by
  have hlt := x.toNat_lt
  have hx : x.toNat = x.toNat % 256 + 256 * (x.toNat / 256 % 256)
      + 256 ^ 2 * (x.toNat / 256 ^ 2 % 256) + 256 ^ 3 * (x.toNat / 256 ^ 3) := by omega
  have h0 : x.toNat % 256 < 256 := Nat.mod_lt _ (by decide)
  have h1 : x.toNat / 256 % 256 < 256 := Nat.mod_lt _ (by decide)
  have h2 : x.toNat / 256 ^ 2 % 256 < 256 := Nat.mod_lt _ (by decide)
  have h3 : x.toNat / 256 ^ 3 < 256 := by omega
  rw [← UInt32.toNat_inj, htonl_of_bytes h3 h2 h1 h0 (htonl_of_bytes h0 h1 h2 h3 hx)]
  exact hx.symm

/-! ## 二つの関数 -/

/-- `packPayload` の VM 側の枝。 -/
def packPayloadVm (m : Mem) (rpc : RPCWithHeader) (buf : Nat) : Mem :=
  let m := packHeader htonl htons m rpc buf
  if rpc.payloadLen ≠ 0 then m.memcpy (alignUp (buf + 12)) rpc.payload rpc.payloadLen.toNat else m

/-- `unpackBufferToRPCLayer` の VM 側の枝。`rpc_type` のあとは 1 byte しか進まない。 -/
def unpackBufferToRPCLayerVm (m : Mem) (buf : Nat) : RPCWithHeader :=
  let rpcLen := htonl (UInt32.ofNat (m.load buf 4))
  let rpcType := UInt8.ofNat (m.load (buf + 4) 1)
  let rpcId := htons (UInt16.ofNat (m.load (buf + 5) 2))
  let sendersQp := htons (UInt16.ofNat (m.load (buf + 7) 2))
  let sendersNid := htons (UInt16.ofNat (m.load (buf + 9) 2))
  createRPCStruct rpcType rpcId sendersQp sendersNid (rpcLen - calcTotalHeaderBytes)
    (buf + calcTotalHeaderBytes.toNat)

/-- 長さ 0 の payload を省いても、置かれるものは同じである。 -/
theorem packPayloadVm_eq (m : Mem) (rpc : RPCWithHeader) (buf : Nat) :
    packPayloadVm m rpc buf = packWith htonl htons m rpc buf := by
  unfold packPayloadVm packWith
  dsimp only
  split
  · rfl
  · next hlen =>
    have hzero : rpc.payloadLen.toNat = 0 := by
      rw [not_not.mp hlen]
      rfl
    funext x
    rw [hzero, Mem.memcpy, Mem.write_outside (by omega)]

/-! ## ずれた位置から読まれる値 -/

/-- 二つの byte を読んで入れ替えると、先の byte が上位になる。 -/
theorem htons_load (m : Mem) (a : Nat) :
    (htons (UInt16.ofNat (m.load a 2))).toNat = (m a).toNat * 256 + (m (a + 1)).toNat := by
  have h0 := (m a).toNat_lt
  have h1 := (m (a + 1)).toNat_lt
  rw [htons_toNat]
  simp only [Mem.load, UInt16.toNat_ofNat']
  omega

/-- 置いた 16 bit の値は、上位の byte から並ぶ。 -/
theorem Holds.bytes {m : Mem} {a : Nat} {x : UInt16} (h : Holds m a 2 (htons x).toNat) :
    (m a).toNat = x.toNat / 256 ∧ (m (a + 1)).toNat = x.toNat % 256 := by
  have hx := x.toNat_lt
  have h0 := (m a).toNat_lt
  have h1 := (m (a + 1)).toNat_lt
  rw [Holds, htons_toNat, Nat.mod_eq_of_lt (by omega)] at h
  simp only [Mem.load] at h
  constructor
  · omega
  · omega

/-- 詰め物の byte は書かれない。 -/
theorem packWith_pad {hton32 : UInt32 → UInt32} {hton16 : UInt16 → UInt16} {m : Mem}
    {rpc : RPCWithHeader} {buf : Nat} (halign : buf % 8 = 0) :
    packWith hton32 hton16 m rpc buf (buf + 5) = m (buf + 5) := by
  have hhdr : calcTotalHeaderBytes.toNat = 16 := by decide
  rw [packWith_eq, alignUp_header halign, Mem.write_outside (by omega)]
  simp only [packHeader, Mem.store]
  rw [Mem.write_outside (by omega), Mem.write_outside (by omega), Mem.write_outside (by omega),
    Mem.write_outside (by omega), Mem.write_outside (by omega)]

/-- 一つ手前から読んだ値が元と同じなら、二つの byte はどちらも手前の byte と同じである。 -/
theorem spread_iff (c : Nat) (x : UInt16) :
    c * 256 + x.toNat / 256 = x.toNat ↔ x.toNat = 257 * c := by
  have hx := x.toNat_lt
  constructor
  · intro h
    have hq : x.toNat / 256 = c := by omega
    omega
  · intro h
    omega

/-- **decode された三つの field は、一つ手前の byte から読んだ値である。** -/
theorem unpackVm_fields (m : Mem) (rpc : RPCWithHeader) {buf : Nat} (halign : buf % 8 = 0) :
    let u := unpackBufferToRPCLayerVm (packPayloadVm m rpc buf) buf
    u.rpcId.toNat = (m (buf + 5)).toNat * 256 + rpc.rpcId.toNat / 256 ∧
      u.sendersQp.toNat = rpc.rpcId.toNat % 256 * 256 + rpc.sendersQp.toNat / 256 ∧
      u.sendersNid.toNat = rpc.sendersQp.toNat % 256 * 256 + rpc.sendersNid.toNat / 256 := by
  rw [packPayloadVm_eq]
  have hheader : HeaderAt htonl htons (packWith htonl htons m rpc buf) buf rpc :=
    headerAt_packWith halign
  have hpad : packWith htonl htons m rpc buf (buf + 5) = m (buf + 5) := packWith_pad halign
  obtain ⟨hid1, hid2⟩ := hheader.id.bytes
  obtain ⟨hqp1, hqp2⟩ := hheader.qp.bytes
  obtain ⟨hnid1, -⟩ := hheader.nid.bytes
  refine ⟨(htons_load _ (buf + 5)).trans ?_, (htons_load _ (buf + 7)).trans ?_,
    (htons_load _ (buf + 9)).trans ?_⟩
  · rw [hpad, hid1]
  · rw [hid2, hqp1]
  · rw [hqp2, hnid1]

/-! ## 往復するとき -/

/-- `u` は `r` と同じ内容である。payload は指す先の byte で比べる。 -/
def SameRpc (m m' : Mem) (r u : RPCWithHeader) : Prop :=
  u.rpcLen = r.rpcLen ∧ u.rpcType = r.rpcType ∧ u.rpcId = r.rpcId ∧ u.sendersQp = r.sendersQp ∧
    u.sendersNid = r.sendersNid ∧ u.payloadLen = r.payloadLen ∧
    ∀ i, i < r.payloadLen.toNat → m' (u.payload + i) = m (r.payload + i)

/-- 長さと種類と payload は、いつも往復する。 -/
theorem sameRpc_vm_iff_fields {m : Mem} {t : UInt8} {rpcId qp nid : UInt16} {len : UInt32}
    {p buf : Nat} (halign : buf % 8 = 0)
    (hapart : Apart buf (calcTotalHeaderBytes.toNat + len.toNat) p len.toNat) :
    let r := createRPCStruct t rpcId qp nid len p
    let u := unpackBufferToRPCLayerVm (packPayloadVm m r buf) buf
    SameRpc m (packPayloadVm m r buf) r u ↔
      u.rpcId = rpcId ∧ u.sendersQp = qp ∧ u.sendersNid = nid := by
  intro r u
  have hm : packPayloadVm m r buf = packWith htonl htons m r buf := packPayloadVm_eq m r buf
  have hheader : HeaderAt htonl htons (packPayloadVm m r buf) buf r :=
    hm ▸ headerAt_packWith halign
  have hlen : htonl (UInt32.ofNat ((packPayloadVm m r buf).load buf 4)) - calcTotalHeaderBytes
      = len := by
    rw [ofNat_load_four hheader.len, htonl_htonl]
    exact payloadLen_of_rpcLen len
  constructor
  · rintro ⟨-, -, h1, h2, h3, -⟩
    exact ⟨h1, h2, h3⟩
  · rintro ⟨h1, h2, h3⟩
    refine ⟨congrArg (calcTotalHeaderBytes + ·) hlen, ofNat_load_one hheader.type, h1, h2, h3,
      hlen, fun i hi => ?_⟩
    rw [hm]
    exact (packWith_payload halign htonl htons hapart hi).1

/--
**VM の build で decode が encode を元に戻すのは、詰め物の byte がたまたま合うときに限る。**

`buf + 5` の byte を `c` とすると、三つの 16 bit の field がすべて `257 * c`（上位も下位も `c`）の
ときだけ往復する。
-/
theorem unpack_packPayload_vm_iff (m : Mem) (t : UInt8) (rpcId qp nid : UInt16) (len : UInt32)
    (p buf : Nat) (halign : buf % 8 = 0)
    (hapart : Apart buf (calcTotalHeaderBytes.toNat + len.toNat) p len.toNat) :
    let r := createRPCStruct t rpcId qp nid len p
    let m' := packPayloadVm m r buf
    SameRpc m m' r (unpackBufferToRPCLayerVm m' buf) ↔
      rpcId.toNat = 257 * (m (buf + 5)).toNat ∧ qp = rpcId ∧ nid = rpcId := by
  intro r m'
  obtain ⟨hid, hqp, hnid⟩ := unpackVm_fields m r halign
  have h5 := (m (buf + 5)).toNat_lt
  have hlt := rpcId.toNat_lt
  refine (sameRpc_vm_iff_fields halign hapart).trans ?_
  rw [← UInt16.toNat_inj, ← UInt16.toNat_inj, ← UInt16.toNat_inj, hid, hqp, hnid,
    ← UInt16.toNat_inj (a := qp), ← UInt16.toNat_inj (a := nid)]
  show _ * 256 + rpcId.toNat / 256 = rpcId.toNat ∧ _ * 256 + qp.toNat / 256 = qp.toNat ∧
    _ * 256 + nid.toNat / 256 = nid.toNat ↔ _
  rw [spread_iff, spread_iff, spread_iff]
  show _ ∧ qp.toNat = 257 * (rpcId.toNat % 256) ∧ nid.toNat = 257 * (qp.toNat % 256) ↔ _
  constructor
  · rintro ⟨h1, h2, h3⟩
    exact ⟨h1, by omega, by omega⟩
  · rintro ⟨h1, h2, h3⟩
    exact ⟨h1, by omega, by omega⟩

/-- buffer が 64 から始まり、payload が番地 0 から 8 byte ある。 -/
theorem apart_buffer : Apart 64 (calcTotalHeaderBytes.toNat + (8 : UInt32).toNat) 0
    (8 : UInt32).toNat := by
  intro x h1 _ _ h4
  have h8 : (8 : UInt32).toNat = 8 := rfl
  omega

/-- 詰め物が 3 で、三つの field がどれも 0x0303 の場合。 -/
theorem unpack_packPayload_vm_iff_same :
    let m : Mem := fun _ => 3
    let r := createRPCStruct 7 771 771 771 8 0
    SameRpc m (packPayloadVm m r 64) r (unpackBufferToRPCLayerVm (packPayloadVm m r 64) 64) :=
  (unpack_packPayload_vm_iff (fun _ => 3) 7 771 771 771 8 0 64 (by decide) apart_buffer).mpr
    ⟨by decide, rfl, rfl⟩

/-- 詰め物が 0 なら、`rpc_id` が 1 の message は 0 として読まれる。 -/
theorem unpack_packPayload_vm_wrong :
    64 % 8 = 0 ∧
      Apart 64 (calcTotalHeaderBytes.toNat + (8 : UInt32).toNat) 0 (8 : UInt32).toNat ∧
      ¬ SameRpc (fun _ => 0) (packPayloadVm (fun _ => 0) (createRPCStruct 7 1 0 0 8 0) 64)
        (createRPCStruct 7 1 0 0 8 0)
        (unpackBufferToRPCLayerVm (packPayloadVm (fun _ => 0) (createRPCStruct 7 1 0 0 8 0) 64)
          64) := by
  refine ⟨by decide, apart_buffer, ?_⟩
  rintro ⟨-, -, hid, -⟩
  obtain ⟨hread, -⟩ := unpackVm_fields (fun _ => 0) (createRPCStruct 7 1 0 0 8 0)
    (show 64 % 8 = 0 by decide)
  rw [hid] at hread
  exact absurd hread (by decide)

end L3fwd.Rpc
