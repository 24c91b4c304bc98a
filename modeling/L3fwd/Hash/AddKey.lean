import L3fwd.Hash.FiniteMap
import L3fwd.Hash.Jhash

/-!
# 番地を受け取る追加

`rte_hash_add_key(h, key)` は key の番地を受け取り、`rte_hash_hash` で hash を求めて、data に 0 を
渡して追加する。`hash_func` を渡さずに作った table では、hash は `rte_jhash` である。

呼び出しごとに、key は別の番地にあってよく、memory の中身も変わってよい。それでも返り値は
key の byte の名前である。同じ byte には同じ番号を、違う byte には違う番号を返す
（`rteHashAddKey_names`）。
-/

namespace L3fwd.Hash

open Infra Table

variable {h : RteHash} {x86 : Bool} {initVal : UInt32}

/-! ## 呼び出し -/

/-- `rte_hash_hash`。`hash_func` は既定の `rte_jhash` である。 -/
def rteHashHash (x86 : Bool) (initVal : UInt32) (h : RteHash) (m : Mem) (key : Nat) : UInt32 :=
  rteJhash x86 m key (UInt32.ofNat h.keyLen) initVal

/-- `rte_hash_add_key`。 -/
def rteHashAddKey (x86 : Bool) (initVal : UInt32) (t : Table h) (m : Mem) (key : Nat) :
    Int × Table h :=
  addKeyWithHash t (fun j => m (key + j)) (rteHashHash x86 initVal h m key) 0

/-- table と、今までの呼び出しの key の byte と返り値。 -/
structure Named (h : RteHash) where
  table : Table h
  log : List (List UInt8 × Int)

namespace Named

def init (h : RteHash) (keyStore : Mem) : Named h := ⟨Table.init h keyStore, []⟩

/-- 番地 `call.2` の key を、memory が `call.1` のときに追加する。 -/
def addKey (x86 : Bool) (initVal : UInt32) (s : Named h) (call : Mem × Nat) : Named h :=
  let r := rteHashAddKey x86 initVal s.table call.1 call.2
  ⟨r.2, s.log ++ [(call.1.bytes call.2 h.keyLen, r.1)]⟩

end Named

/-! ## byte の hash -/

/-- 8 byte の key の既定の hash。 -/
def jhash8 (initVal : UInt32) (k : Key8) : UInt32 := (jhashBytes (List.ofFn k) initVal 0).1

section

variable (hlen : h.keyLen = 8)
include hlen

theorem bytes_keyLen (m : Mem) (key : Nat) :
    m.bytes key h.keyLen = List.ofFn (key8 fun j => m (key + j)) := by
  rw [hlen]
  rfl

/-- 番地を受け取る追加は、その番地からの 8 byte の追加である。 -/
theorem rteHashAddKey_eq (t : Table h) (m : Mem) (key : Nat) :
    rteHashAddKey x86 initVal t m key
      = addKeyWithHash t (fun j => m (key + j))
          (jhash8 initVal (key8 fun j => m (key + j))) 0 := by
  rw [rteHashAddKey, rteHashHash, rteJhash, rteJhash2hashes, jhash2hashes_eq (.inl rfl),
    UInt32.toNat_ofNat_of_lt' h.keyLen_lt, bytes_keyLen hlen]
  rfl

/-- slot が 16 byte なら、`2 ^ 28` より少ない entry の位置はどれも 32 bit に収まる。 -/
theorem fits_of_small {id : Nat} (hsmall : h.entries < 2 ^ 28) (hid : id ≤ h.entries) :
    Fits h id := by
  have hsize : h.keyEntrySize = 16 := by
    rw [RteHash.keyEntrySize, hlen]
    rfl
  rw [Fits, hsize]
  omega

end

/-! ## 番号 -/

/-- 0 以上を返した呼び出しは、追加の記録に同じ番号で残っている。 -/
structure NameInv (initVal : UInt32) (s : Named h) (log : AddLog) : Prop where
  map : MapInv (jhash8 initVal) (⟨s.table, log⟩ : MapState h)
  named : ∀ e ∈ s.log, 0 ≤ e.2 → ∃ k, e.1 = List.ofFn k ∧ log k = some (e.2, 0)

/-- 記録のある key をもう一度追加しても、記録は変わらない。 -/
theorem MapInv.add_log {hash : Key8 → UInt32} {s : MapState h} {key : Key} {k : Key8} {v : Int}
    (hi : MapInv hash s) (hk : s.log k = some (v, 0)) :
    (s.add hash (key, 0)).log k = some (v, 0) := by
  unfold MapState.add
  dsimp only
  split
  · by_cases he : k = key8 key
    · subst he
      rw [Function.update_self, hi.ret_eq hk]
    · rwa [Function.update_of_ne he]
  · exact hk

/-- 一回の呼び出しで、対応が保たれる。 -/
theorem NameInv.addKey {s : Named h} {log : AddLog} (hi : NameInv initVal s log)
    (hlen : h.keyLen = 8) (hsmall : h.entries < 2 ^ 28) (call : Mem × Nat) :
    ∃ log', NameInv initVal (s.addKey x86 initVal call) log' := by
  obtain ⟨m, key⟩ := call
  let st : MapState h := ⟨s.table, log⟩
  let k : Key := fun j => m (key + j)
  have hfit : SlotFits st (k, 0) := by
    intro _ id hid
    exact fits_of_small hlen hsmall (hi.map.owned.ring_le id (List.mem_of_mem_head? hid))
  have hstate : s.addKey x86 initVal (m, key) = ⟨(st.add (jhash8 initVal) (k, 0)).table,
      s.log ++ [(List.ofFn (key8 k), (addKeyWithHash s.table k (jhash8 initVal (key8 k)) 0).1)]⟩ := by
    rw [Named.addKey, rteHashAddKey_eq hlen, bytes_keyLen hlen]
    rfl
  rw [hstate]
  refine ⟨(st.add (jhash8 initVal) (k, 0)).log, hi.map.add hlen (k, 0) hfit, ?_⟩
  intro e he hpos
  obtain he | he := List.mem_append.mp he
  · obtain ⟨k', hbytes, hlog⟩ := hi.named e he hpos
    exact ⟨k', hbytes, hi.map.add_log hlog⟩
  · -- 今の呼び出しは 0 以上を返したので、記録された。
    obtain rfl := List.mem_singleton.mp he
    refine ⟨key8 k, rfl, ?_⟩
    unfold MapState.add
    dsimp only
    rw [if_pos hpos, Function.update_self]

/-- どの順に何度呼び出しても、対応が保たれる。 -/
theorem exists_nameInv (hlen : h.keyLen = 8) (hsmall : h.entries < 2 ^ 28) (keyStore : Mem)
    (calls : List (Mem × Nat)) :
    ∃ log, NameInv initVal (calls.foldl (Named.addKey x86 initVal) (Named.init h keyStore)) log := by
  induction calls using List.reverseRecOn with
  | nil => exact ⟨fun _ => none, MapInv.init _ h keyStore, fun e he => absurd he List.not_mem_nil⟩
  | append_singleton calls call ih =>
    obtain ⟨log, hi⟩ := ih
    rw [List.foldl_append]
    exact hi.addKey hlen hsmall call

/--
**返り値は key の byte の名前である。** 8 byte の key の table で、番地も memory もばらばらの
呼び出しをどの順に重ねても、0 以上の返り値は entry の数より小さく、二つが等しいのは
key の byte が等しいとき、そのときに限る。同じ byte の key をどこに置いて呼び直しても、
table が一杯でも、同じ番号が返る。
-/
theorem rteHashAddKey_names (hlen : h.keyLen = 8) (hsmall : h.entries < 2 ^ 28) {keyStore : Mem}
    {calls : List (Mem × Nat)} {s : Named h}
    (hs : s = calls.foldl (Named.addKey x86 initVal) (Named.init h keyStore)) :
    (∀ e ∈ s.log, 0 ≤ e.2 → e.2 < h.entries ∧
        ∀ m key, m.bytes key h.keyLen = e.1 → (rteHashAddKey x86 initVal s.table m key).1 = e.2) ∧
      ∀ e ∈ s.log, ∀ e' ∈ s.log, 0 ≤ e.2 → 0 ≤ e'.2 → (e.1 = e'.1 ↔ e.2 = e'.2) := by
  obtain ⟨log, hi⟩ := @exists_nameInv h x86 initVal hlen hsmall keyStore calls
  rw [← hs] at hi
  have hrep := hi.map.represents
  constructor
  · intro e he hpos
    obtain ⟨k, hk, hlog⟩ := hi.named e he hpos
    refine ⟨(hrep.range k _ _ hlog).2, fun m key hbytes => ?_⟩
    rw [bytes_keyLen hlen, hk] at hbytes
    obtain rfl := List.ofFn_injective hbytes
    rw [rteHashAddKey_eq hlen]
    exact hi.map.ret_eq hlog 0
  · intro e he e' he' hpos hpos'
    obtain ⟨k, hk, hlog⟩ := hi.named e he hpos
    obtain ⟨k', hk', hlog'⟩ := hi.named e' he' hpos'
    constructor
    · intro heq
      have hkk : k = k' := List.ofFn_injective (hk.symm.trans (heq.trans hk'))
      rw [hkk, hlog'] at hlog
      exact (congrArg Prod.fst (Option.some.inj hlog)).symm
    · intro heq
      by_contra hne
      refine hrep.distinct k _ _ k' _ _ hlog hlog' (fun hkk => hne ?_) heq
      rw [hk, hk', hkk]

/-- 番地 `a` から、5 に 0 の続く key のある memory。 -/
def keyAt (a : Nat) : Mem := fun x => if x = a then 5 else 0

/-- 番地 1 の key を加えた後、同じ byte の key を番地 6 に置いて呼ぶ。 -/
theorem rteHashAddKey_names_moved : ∃ s : Named eightKeys,
    s = [(keyAt 1, 1)].foldl (Named.addKey false 0) (Named.init eightKeys fun _ => 0) ∧
      s.log = [([5, 0, 0, 0, 0, 0, 0, 0], 0)] ∧
        (rteHashAddKey false 0 s.table (keyAt 6) 6).1 = 0 := by
  obtain ⟨s, hs, hlog⟩ : ∃ s : Named eightKeys,
      s = [(keyAt 1, 1)].foldl (Named.addKey false 0) (Named.init eightKeys fun _ => 0) ∧
        s.log = [([5, 0, 0, 0, 0, 0, 0, 0], 0)] := ⟨_, rfl, by decide +kernel⟩
  have hmem : ([5, 0, 0, 0, 0, 0, 0, 0], 0) ∈ s.log := by
    rw [hlog]
    exact List.mem_singleton_self _
  exact ⟨s, hs, hlog, ((rteHashAddKey_names rfl (by decide) hs).1 _ hmem (Int.le_refl 0)).2
    (keyAt 6) 6 (by decide)⟩

end L3fwd.Hash
