import L3fwd.Infra.Memory

/-!
# RPC の encode と decode

`rpc_shm/rpc.cpp` の `createRPCStruct` / `packPayload` / `unpackBufferToRPCLayer`。

encode 側は pointer を進めながら field を置き、payload の位置を番地の端数から求める。
decode 側は固定の header 長 `calcTotalHeaderBytes()` を使う。
buffer が 8 byte 境界にあれば、12 byte の field のあとの端数は 4 で、両者は 16 で一致する。

encode 側の二つの build の違いは byte order の変換だけで、`FLEXUS` / `QFLEX` / `ZSIM` の build では
変換しない。decode 側は build ごとに書かれている。ここでは simulator の build を扱い、
もう一方は `Rpc/VmEncoding.lean` に置く。
番地は `Nat`、field は固定幅の整数で持つ。`char` は 1 byte である。
-/

namespace L3fwd.Rpc

open Infra

/-- `RPCWithHeader`。 -/
structure RPCWithHeader where
  rpcLen : UInt32
  rpcType : UInt8
  rpcId : UInt16
  sendersQp : UInt16
  sendersNid : UInt16
  payload : Nat
  payloadLen : UInt32

def getAlignmentReq : UInt32 := 8

/-- `calcTotalHeaderBytes`。`rpc_type` は 2 byte を占める。 -/
def calcTotalHeaderBytes : UInt32 :=
  let hbytes : UInt32 := 4 + 2 * 1 + 2 + 2 + 2
  hbytes + hbytes % getAlignmentReq

/-- `createRPCStruct`。`rpc_len` は 32 bit で折り返す。 -/
def createRPCStruct (aType : UInt8) (anRPCId aQPId aNID : UInt16) (aPayloadLen : UInt32)
    (aPayloadPointer : Nat) : RPCWithHeader where
  rpcLen := calcTotalHeaderBytes + aPayloadLen
  rpcType := aType
  rpcId := anRPCId
  sendersQp := aQPId
  sendersNid := aNID
  payload := aPayloadPointer
  payloadLen := aPayloadLen

/-- `if( (uint64_t) buf % getAlignmentReq() ) buf += …`。端数をそのまま足す。 -/
def alignUp (buf : Nat) : Nat :=
  if buf % getAlignmentReq.toNat ≠ 0 then buf + buf % getAlignmentReq.toNat else buf

/-- header の field を順に置く。build の違いは byte order の変換だけである。 -/
def packHeader (hton32 : UInt32 → UInt32) (hton16 : UInt16 → UInt16) (m : Mem)
    (rpc : RPCWithHeader) (buf : Nat) : Mem :=
  let m := m.store buf 4 (hton32 rpc.rpcLen).toNat
  let m := m.store (buf + 4) 1 rpc.rpcType.toNat
  let m := m.store (buf + 6) 2 (hton16 rpc.rpcId).toNat
  let m := m.store (buf + 8) 2 (hton16 rpc.sendersQp).toNat
  m.store (buf + 10) 2 (hton16 rpc.sendersNid).toNat

/-- header と payload を置く。 -/
def packWith (hton32 : UInt32 → UInt32) (hton16 : UInt16 → UInt16) (m : Mem) (rpc : RPCWithHeader)
    (buf : Nat) : Mem :=
  (packHeader hton32 hton16 m rpc buf).memcpy (alignUp (buf + 12)) rpc.payload rpc.payloadLen.toNat

/-- `packPayload` の simulator 側の枝。 -/
def packPayload (m : Mem) (rpc : RPCWithHeader) (buf : Nat) : Mem :=
  let m := packHeader id id m rpc buf
  m.memcpy (alignUp (buf + 12)) rpc.payload rpc.payloadLen.toNat

/-- 置いたとおりの位置から field を読む。 -/
def unpackWith (ntoh32 : UInt32 → UInt32) (ntoh16 : UInt16 → UInt16) (m : Mem) (buf : Nat) :
    RPCWithHeader :=
  let rpcLen := ntoh32 (UInt32.ofNat (m.load buf 4))
  let rpcType := UInt8.ofNat (m.load (buf + 4) 1)
  let rpcId := ntoh16 (UInt16.ofNat (m.load (buf + 6) 2))
  let sendersQp := ntoh16 (UInt16.ofNat (m.load (buf + 8) 2))
  let sendersNid := ntoh16 (UInt16.ofNat (m.load (buf + 10) 2))
  createRPCStruct rpcType rpcId sendersQp sendersNid (rpcLen - calcTotalHeaderBytes)
    (buf + calcTotalHeaderBytes.toNat)

/-- `unpackBufferToRPCLayer` の simulator 側の枝。 -/
def unpackBufferToRPCLayer (m : Mem) (buf : Nat) : RPCWithHeader := unpackWith id id m buf

/-! ## header の往復 -/

/-- `v` が `n` byte に収まるなら、そのまま読み戻せる範囲に `v` がある。 -/
def Holds (m : Mem) (a n v : Nat) : Prop := m.load a n = v % 256 ^ n

theorem holds_store {m : Mem} {a n v : Nat} : Holds (m.store a n v) a n v := Mem.load_store

/-- 離れた場所への代入は、置いた値を変えない。 -/
theorem Holds.write {m : Mem} {a n v b k : Nat} {f : Nat → UInt8} (h : Holds m a n v)
    (hd : b + k ≤ a ∨ a + n ≤ b) : Holds (m.write b k f) a n v := by
  rw [Holds, Mem.load_write_of_disjoint hd]
  exact h

/-- header の全 field が置かれている。 -/
structure HeaderAt (hton32 : UInt32 → UInt32) (hton16 : UInt16 → UInt16) (m : Mem) (buf : Nat)
    (rpc : RPCWithHeader) : Prop where
  len : Holds m buf 4 (hton32 rpc.rpcLen).toNat
  type : Holds m (buf + 4) 1 rpc.rpcType.toNat
  id : Holds m (buf + 6) 2 (hton16 rpc.rpcId).toNat
  qp : Holds m (buf + 8) 2 (hton16 rpc.sendersQp).toNat
  nid : Holds m (buf + 10) 2 (hton16 rpc.sendersNid).toNat

variable {hton32 : UInt32 → UInt32} {hton16 : UInt16 → UInt16} {m : Mem} {rpc : RPCWithHeader}
  {buf : Nat}

/-- field は互いに重ならないので、あとの代入は先の field を壊さない。 -/
theorem headerAt_packHeader (hton32 : UInt32 → UInt32) (hton16 : UInt16 → UInt16) :
    HeaderAt hton32 hton16 (packHeader hton32 hton16 m rpc buf) buf rpc where
  len := (((holds_store.write (by omega)).write (by omega)).write (by omega)).write (by omega)
  type := ((holds_store.write (by omega)).write (by omega)).write (by omega)
  id := (holds_store.write (by omega)).write (by omega)
  qp := holds_store.write (by omega)
  nid := holds_store

/-- header は 12 byte の外を変えない。 -/
theorem packHeader_outside {x : Nat} (h : x < buf ∨ buf + 12 ≤ x) :
    packHeader hton32 hton16 m rpc buf x = m x := by
  simp only [packHeader, Mem.store]
  rw [Mem.write_outside (by omega), Mem.write_outside (by omega), Mem.write_outside (by omega),
    Mem.write_outside (by omega), Mem.write_outside (by omega)]

/-- header のうしろへの書き込みは header を壊さない。 -/
theorem HeaderAt.write {a n : Nat} {f : Nat → UInt8} (h : HeaderAt hton32 hton16 m buf rpc)
    (ha : buf + 12 ≤ a) : HeaderAt hton32 hton16 (m.write a n f) buf rpc where
  len := h.len.write (Or.inr (by omega))
  type := h.type.write (Or.inr (by omega))
  id := h.id.write (Or.inr (by omega))
  qp := h.qp.write (Or.inr (by omega))
  nid := h.nid.write (Or.inr (by omega))

theorem ofNat_load_two {a : Nat} {v : UInt16} (h : Holds m a 2 v.toNat) :
    UInt16.ofNat (m.load a 2) = v := by
  have hlt : v.toNat < 256 ^ 2 := v.toNat_lt
  rw [h, Nat.mod_eq_of_lt hlt, UInt16.ofNat_toNat]

theorem ofNat_load_four {a : Nat} {v : UInt32} (h : Holds m a 4 v.toNat) :
    UInt32.ofNat (m.load a 4) = v := by
  have hlt : v.toNat < 256 ^ 4 := v.toNat_lt
  rw [h, Nat.mod_eq_of_lt hlt, UInt32.ofNat_toNat]

theorem ofNat_load_one {a : Nat} {v : UInt8} (h : Holds m a 1 v.toNat) :
    UInt8.ofNat (m.load a 1) = v := by
  have hlt : v.toNat < 256 ^ 1 := v.toNat_lt
  rw [h, Nat.mod_eq_of_lt hlt, UInt8.ofNat_toNat]

/-- 変換が互いに逆なら、decode は置いた field から元の構造体を組み直す。 -/
theorem HeaderAt.unpackWith {ntoh32 : UInt32 → UInt32} {ntoh16 : UInt16 → UInt16}
    (h : HeaderAt hton32 hton16 m buf rpc) (h32 : ∀ x, ntoh32 (hton32 x) = x)
    (h16 : ∀ x, ntoh16 (hton16 x) = x) :
    unpackWith ntoh32 ntoh16 m buf = createRPCStruct rpc.rpcType rpc.rpcId rpc.sendersQp
      rpc.sendersNid (rpc.rpcLen - calcTotalHeaderBytes) (buf + calcTotalHeaderBytes.toNat) := by
  rw [Rpc.unpackWith, ofNat_load_four h.len, ofNat_load_one h.type, ofNat_load_two h.id,
    ofNat_load_two h.qp, ofNat_load_two h.nid, h32, h16, h16, h16]

/-! ## payload の位置 -/

/-- **8 byte 境界の buffer では、encode 側と decode 側の payload の位置が一致する。** -/
theorem alignUp_header (h : buf % 8 = 0) :
    alignUp (buf + 12) = buf + calcTotalHeaderBytes.toNat := by
  have hreq : getAlignmentReq.toNat = 8 := rfl
  have hhdr : calcTotalHeaderBytes.toNat = 16 := by decide
  have hmod : (buf + 12) % 8 = 4 := by omega
  rw [alignUp, hreq, hhdr, hmod, if_pos (by decide)]

/-- header を置いたあとの payload の書き込み。 -/
theorem packWith_eq : packWith hton32 hton16 m rpc buf =
    (packHeader hton32 hton16 m rpc buf).write (alignUp (buf + 12)) rpc.payloadLen.toNat
      (fun i => packHeader hton32 hton16 m rpc buf (rpc.payload + i)) := rfl

section

variable (halign : buf % 8 = 0)
include halign

/-- payload を置いても、header の field は残る。 -/
theorem headerAt_packWith : HeaderAt hton32 hton16 (packWith hton32 hton16 m rpc buf) buf rpc := by
  have hhdr : calcTotalHeaderBytes.toNat = 16 := by decide
  have hbehind : buf + 12 ≤ alignUp (buf + 12) := by
    rw [alignUp_header halign, hhdr]
    omega
  rw [packWith_eq]
  exact (headerAt_packHeader hton32 hton16).write hbehind

/-- payload の byte は header のうしろにあり、元の payload も変わらない。 -/
theorem packWith_payload (hton32 : UInt32 → UInt32) (hton16 : UInt16 → UInt16)
    (hapart : Apart buf (calcTotalHeaderBytes.toNat + rpc.payloadLen.toNat) rpc.payload
      rpc.payloadLen.toNat) {i : Nat} (hi : i < rpc.payloadLen.toNat) :
    packWith hton32 hton16 m rpc buf (buf + calcTotalHeaderBytes.toNat + i) = m (rpc.payload + i) ∧
      packWith hton32 hton16 m rpc buf (rpc.payload + i) = m (rpc.payload + i) := by
  have hhdr : calcTotalHeaderBytes.toNat = 16 := by decide
  have hsrc : packHeader hton32 hton16 m rpc buf (rpc.payload + i) = m (rpc.payload + i) := by
    refine packHeader_outside ?_
    by_contra hin
    exact hapart (rpc.payload + i) (by omega) (by omega) (by omega) (by omega)
  constructor
  · rw [packWith_eq, alignUp_header halign, Mem.write_inside hi]
    exact hsrc
  · have hpay : Apart (buf + calcTotalHeaderBytes.toNat) rpc.payloadLen.toNat rpc.payload
        rpc.payloadLen.toNat := by
      intro x hx1 hx2 hx3 hx4
      exact hapart x (by omega) (by omega) hx3 hx4
    rw [packWith_eq, alignUp_header halign, Mem.write_apart hpay hi]
    exact hsrc

end

/-- `rpc_len` の折り返しは、同じ header 長を引くと消える。 -/
theorem payloadLen_of_rpcLen (len : UInt32) :
    calcTotalHeaderBytes + len - calcTotalHeaderBytes = len := by
  rw [UInt32.add_comm, UInt32.add_sub_cancel]

/-- **simulator の build で、decode は encode を元に戻す。** -/
theorem unpack_packPayload (m : Mem) (t : UInt8) (rpcId qp nid : UInt16) (len : UInt32)
    (p buf : Nat) (halign : buf % 8 = 0)
    (hapart : Apart buf (calcTotalHeaderBytes.toNat + len.toNat) p len.toNat) :
    let r := createRPCStruct t rpcId qp nid len p
    let m' := packPayload m r buf
    let u := unpackBufferToRPCLayer m' buf
    u.rpcLen = r.rpcLen ∧ u.rpcType = r.rpcType ∧ u.rpcId = r.rpcId ∧
      u.sendersQp = r.sendersQp ∧ u.sendersNid = r.sendersNid ∧ u.payloadLen = r.payloadLen ∧
      ∀ i, i < u.payloadLen.toNat →
        m' (u.payload + i) = m (r.payload + i) ∧ m' (r.payload + i) = m (r.payload + i) := by
  intro r m' u
  have hheader : HeaderAt id id m' buf r := headerAt_packWith halign
  have hu : u = createRPCStruct r.rpcType r.rpcId r.sendersQp r.sendersNid
      (r.rpcLen - calcTotalHeaderBytes) (buf + calcTotalHeaderBytes.toNat) :=
    hheader.unpackWith (fun _ => rfl) (fun _ => rfl)
  rw [show r.rpcLen - calcTotalHeaderBytes = len from payloadLen_of_rpcLen len] at hu
  rw [hu]
  refine ⟨rfl, rfl, rfl, rfl, rfl, rfl, fun i hi => ?_⟩
  exact packWith_payload halign id id hapart hi

/-- payload が番地 0 から 24 byte、buffer が 64 から始まる場合。 -/
theorem unpack_packPayload_small :
    let m : Mem := fun x => UInt8.ofNat (x + 3)
    let r := createRPCStruct 7 513 2 65535 24 0
    let u := unpackBufferToRPCLayer (packPayload m r 64) 64
    u.rpcLen = 40 ∧ u.payloadLen = 24 ∧ packPayload m r 64 (u.payload + 23) = 26 := by
  intro m r u
  have hapart : Apart 64 (calcTotalHeaderBytes.toNat + (24 : UInt32).toNat) 0
      (24 : UInt32).toNat := by
    intro x h1 _ _ h4
    have h24 : (24 : UInt32).toNat = 24 := rfl
    omega
  obtain ⟨hlen, -, -, -, -, hplen, hbytes⟩ :=
    unpack_packPayload m 7 513 2 65535 24 0 64 (by decide) hapart
  exact ⟨hlen.trans (by decide), hplen.trans rfl, (hbytes 23 (by rw [hplen]; decide)).1.trans rfl⟩

end L3fwd.Rpc
