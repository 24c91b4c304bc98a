import L3fwd.Infra.Fifo
import L3fwd.Infra.Memory
import L3fwd.Hash.Common

/-!
# cuckoo hash の table

`rte_lib/rte_cuckoo_hash.h` の型と、`rte_hash_create` が作るはずの最初の table。

* `RteHash` は作成後に変わらない field、`Table` は追加のたびに変わる部分である。
* bucket への pointer は `BktRef` で表す。`ext id` は `buckets_ext[id - 1]` を指し、
  `free_ext_bkts` に入る番号と同じである。
* key store は byte の memory で、slot の位置は source と同じ 32 bit の積で求める。
* `free_slots` と `free_ext_bkts` の `rte_ring` は、容量つきの FIFO とする。
* lock を取らない reader のための `flag` と、lcore ごとの cache は使われないので持たない。
-/

namespace L3fwd.Hash

open Infra

/-! ## 型 -/

/-- `RTE_HASH_BUCKET_ENTRIES`。 -/
abbrev bucketEntries : Nat := 8

theorem bucketEntries_pos : 0 < bucketEntries := by decide

instance bucketEntries_neZero : NeZero bucketEntries := ⟨by decide⟩

/-- `EMPTY_SLOT`。key store の slot 0 は dummy で、この番号の entry は空である。 -/
abbrev emptySlot : Nat := 0

/-- `struct rte_hash` のうち、作成後に変わらない field。範囲は `rte_hash_create` が検査する。 -/
structure RteHash where
  entries : Nat
  keyLen : Nat
  extTableSupport : Bool
  writerTakesLock : Bool
  readwriteConcurLfSupport : Bool
  entries_ge : bucketEntries ≤ entries
  entries_le : entries ≤ 2 ^ 30
  keyLen_pos : 1 ≤ keyLen
  keyLen_lt : keyLen < 2 ^ 32

/-- entry が 8 個で、key が 8 byte の table。 -/
def eightKeys : RteHash where
  entries := 8
  keyLen := 8
  extTableSupport := true
  writerTakesLock := false
  readwriteConcurLfSupport := false
  entries_ge := by decide
  entries_le := by decide
  keyLen_pos := by decide
  keyLen_lt := by decide

/-- entry が 10 個の table。bucket は二つで、slot が尽きても bucket に空きがある。 -/
def tenKeys : RteHash :=
  { eightKeys with
    entries := 10
    entries_ge := by decide
    entries_le := by decide }

namespace RteHash

def numBuckets (h : RteHash) : Nat :=
  (rteAlign32pow2 (UInt32.ofNat h.entries)).toNat / bucketEntries

def bucketBitmask (h : RteHash) : UInt32 := UInt32.ofNat h.numBuckets - 1

/-- `RTE_ALIGN(sizeof(struct rte_hash_key) + key_len, KEY_ALIGNMENT)` を 32 bit に切り詰めたもの。 -/
def keyEntrySize (h : RteHash) : Nat := (8 + h.keyLen + 15) / 16 * 16 % 2 ^ 32

/-- slot の byte 位置。`uint32_t` どうしの積なので 2^32 で折り返す。 -/
def slotOffset (h : RteHash) (idx : Nat) : Nat := idx * h.keyEntrySize % 2 ^ 32

/-- `free_slots` の容量。ring は 2 の冪の大きさで、一つ少なく入る。 -/
def slotRing (h : RteHash) : Nat := (rteAlign32pow2 (UInt32.ofNat (h.entries + 1))).toNat - 1

/-- `free_ext_bkts` の容量。 -/
def extRing (h : RteHash) : Nat := (rteAlign32pow2 (UInt32.ofNat (h.numBuckets + 1))).toNat - 1

theorem entries_le_buckets (h : RteHash) : h.entries ≤ bucketEntries * h.numBuckets := by
  have hle := h.entries_le
  have hge : 8 ≤ h.entries := h.entries_ge
  have hdvd : 8 ∣ (rteAlign32pow2 (UInt32.ofNat h.entries)).toNat :=
    eight_dvd_rteAlign32pow2 hge (by omega)
  rw [numBuckets, Nat.mul_div_cancel' hdvd]
  exact le_rteAlign32pow2 (Nat.le_trans (by decide) hge) (by omega)

theorem entries_le_slotRing (h : RteHash) : h.entries ≤ h.slotRing := by
  have hle := h.entries_le
  have := le_rteAlign32pow2 (show 1 ≤ h.entries + 1 by omega) (by omega)
  rw [slotRing]
  omega

theorem numBuckets_le (h : RteHash) : h.numBuckets ≤ 2 ^ 27 := by
  have hge : 8 ≤ h.entries := h.entries_ge
  have hle := h.entries_le
  have hsize : (h.entries - 1).size ≤ 30 := Nat.size_le.mpr (by omega)
  rw [numBuckets, rteAlign32pow2_toNat (by omega) (by omega)]
  exact Nat.div_le_of_le_mul (Nat.pow_le_pow_right (by decide) hsize)

theorem numBuckets_le_extRing (h : RteHash) : h.numBuckets ≤ h.extRing := by
  have hle := h.numBuckets_le
  have := le_rteAlign32pow2 (show 1 ≤ h.numBuckets + 1 by omega) (by omega)
  rw [extRing]
  omega

end RteHash

/-- bucket への pointer。 -/
inductive BktRef where
  | main (i : UInt32)
  | ext (id : Nat)
  deriving DecidableEq

/-- `struct rte_hash_bucket`。 -/
structure Bucket where
  sigCurrent : Fin bucketEntries → UInt16
  keyIdx : Fin bucketEntries → Nat
  next : Option Nat

/-- key の pointer の先にある byte 列。 -/
abbrev Key := Nat → UInt8

/-- table のうち、追加のたびに変わる部分。 -/
structure Table (h : RteHash) where
  bkts : BktRef → Bucket
  keyStore : Mem
  freeSlots : Fifo Nat h.slotRing
  freeExtBkts : Fifo Nat h.extRing
  tblChngCnt : UInt32

/-! ## 最初の table -/

def emptyBucket : Bucket where
  sigCurrent := fun _ => 0
  keyIdx := fun _ => emptySlot
  next := none

/-- `rte_hash_create` が作るはずの table。key store の中身は任意とする。 -/
def Table.init (h : RteHash) (keyStore : Mem) : Table h where
  bkts := fun _ => emptyBucket
  keyStore := keyStore
  freeSlots := ⟨List.range' 1 h.entries, by rw [List.length_range']; exact h.entries_le_slotRing⟩
  freeExtBkts :=
    ⟨List.range' 1 h.numBuckets, by rw [List.length_range']; exact h.numBuckets_le_extRing⟩
  tblChngCnt := 0

/-! ## 番号の計算 -/

/-- `get_short_sig`。 -/
def getShortSig (hash : UInt32) : UInt16 := (hash >>> 16).toUInt16

/-- `get_prim_bucket_index`。 -/
def getPrimBucketIndex (h : RteHash) (hash : UInt32) : UInt32 := hash &&& h.bucketBitmask

/-- `get_alt_bucket_index`。 -/
def getAltBucketIndex (h : RteHash) (curBktIdx : UInt32) (sig : UInt16) : UInt32 :=
  (curBktIdx ^^^ sig.toUInt32) &&& h.bucketBitmask

/-! ## entry の読み書き -/

namespace Table

variable {h : RteHash}

/-- entry の位置。 -/
abbrev Pos := BktRef × Fin bucketEntries

def sigAt (t : Table h) (p : Pos) : UInt16 := (t.bkts p.1).sigCurrent p.2

def idxAt (t : Table h) (p : Pos) : Nat := (t.bkts p.1).keyIdx p.2

/-- `key_idx` だけを書く。 -/
def setIdx (t : Table h) (p : Pos) (idx : Nat) : Table h :=
  { t with
    bkts := Function.update t.bkts p.1
      { t.bkts p.1 with keyIdx := Function.update (t.bkts p.1).keyIdx p.2 idx } }

/-- `sig_current` と `key_idx` を書く。 -/
def setEntry (t : Table h) (p : Pos) (sig : UInt16) (idx : Nat) : Table h :=
  { t with
    bkts := Function.update t.bkts p.1
      { t.bkts p.1 with
        sigCurrent := Function.update (t.bkts p.1).sigCurrent p.2 sig
        keyIdx := Function.update (t.bkts p.1).keyIdx p.2 idx } }

/-- `last->next = &buckets_ext[id - 1]`。 -/
def setNext (t : Table h) (b : BktRef) (id : Nat) : Table h :=
  { t with bkts := Function.update t.bkts b { t.bkts b with next := some id } }

/-- lock-free の reader に変化を知らせる。 -/
def bumpChngCnt (t : Table h) : Table h :=
  if h.readwriteConcurLfSupport then { t with tblChngCnt := t.tblChngCnt + 1 } else t

/-- bucket の最初の空いた entry。 -/
def firstEmpty (t : Table h) (b : BktRef) : Option (Fin bucketEntries) :=
  (List.finRange bucketEntries).find? fun i => (t.bkts b).keyIdx i == emptySlot

/-- `FOR_EACH_BUCKET` がたどる bucket の列。`fuel` は extendable bucket の数で足りる。 -/
def chain (t : Table h) : Nat → BktRef → List BktRef
  | 0, b => [b]
  | fuel + 1, b =>
    match (t.bkts b).next with
    | none => [b]
    | some id => b :: t.chain fuel (.ext id)

/-! ## key store -/

/-- slot の `pdata` を書く。 -/
def setData (t : Table h) (idx : Nat) (data : UInt64) : Table h :=
  { t with keyStore := t.keyStore.store (h.slotOffset idx) 8 data.toNat }

/-- slot に key を写す。 -/
def setKey (t : Table h) (idx : Nat) (key : Key) : Table h :=
  { t with keyStore := t.keyStore.write (h.slotOffset idx + 8) h.keyLen key }

/-- `rte_hash_cmp_eq`。`sizeof(key1)` は pointer の大きさなので、いつも 8 byte を比べる。 -/
def cmpEq (t : Table h) (key : Key) (idx : Nat) : Bool :=
  (List.range 8).all fun j => key j == t.keyStore (h.slotOffset idx + 8 + j)

/-- slot にある key の、比較される 8 byte。 -/
def storedKey (t : Table h) (idx : Nat) : Fin 8 → UInt8 :=
  fun j => t.keyStore (h.slotOffset idx + 8 + j)

/-- slot にある data。 -/
def storedData (t : Table h) (idx : Nat) : UInt64 :=
  UInt64.ofNat (t.keyStore.load (h.slotOffset idx) 8)

/-! ## ring -/

/-- `alloc_slot`。空なら `EMPTY_SLOT` を返す。 -/
def allocSlot (t : Table h) : Nat × Table h :=
  match t.freeSlots.pop with
  | none => (emptySlot, t)
  | some (slotId, q) => (slotId, { t with freeSlots := q })

/-- `enqueue_slot_back`。ring が一杯なら失敗するが、返り値は捨てられる。 -/
def enqueueSlotBack (t : Table h) (slotId : Nat) : Table h :=
  match t.freeSlots.push slotId with
  | none => t
  | some q => { t with freeSlots := q }

/-! ## 読み書きの補題 -/

variable {t : Table h} {p q : Pos} {sig : UInt16} {idx : Nat}

def nextOf (t : Table h) (b : BktRef) : Option Nat := (t.bkts b).next

/-- 一つの bucket の一つの entry だけを書き換えた後の、entry の読み出し。 -/
theorem update_entry {α : Type} (get : Bucket → Fin bucketEntries → α) (f : BktRef → Bucket)
    (p q : Pos) {bkt : Bucket} {v : α}
    (hbkt : get bkt = Function.update (get (f p.1)) p.2 v) :
    get (Function.update f p.1 bkt q.1) q.2 = if q = p then v else get (f q.1) q.2 := by
  by_cases hb : q.1 = p.1
  · rw [hb, Function.update_self, hbkt]
    by_cases hi : q.2 = p.2
    · rw [hi, Function.update_self, if_pos (Prod.ext hb hi)]
    · rw [Function.update_of_ne hi, if_neg fun he => hi (congrArg Prod.snd he)]
  · rw [Function.update_of_ne hb, if_neg fun he => hb (congrArg Prod.fst he)]

theorem idxAt_setEntry (t : Table h) (p q : Pos) (sig : UInt16) (idx : Nat) :
    (t.setEntry p sig idx).idxAt q = if q = p then idx else t.idxAt q :=
  update_entry Bucket.keyIdx t.bkts p q rfl

theorem sigAt_setEntry (t : Table h) (p q : Pos) (sig : UInt16) (idx : Nat) :
    (t.setEntry p sig idx).sigAt q = if q = p then sig else t.sigAt q :=
  update_entry Bucket.sigCurrent t.bkts p q rfl

theorem idxAt_setIdx (t : Table h) (p q : Pos) (idx : Nat) :
    (t.setIdx p idx).idxAt q = if q = p then idx else t.idxAt q :=
  update_entry Bucket.keyIdx t.bkts p q rfl

@[simp] theorem sigAt_setIdx (t : Table h) (p q : Pos) (idx : Nat) :
    (t.setIdx p idx).sigAt q = t.sigAt q := by
  by_cases hb : q.1 = p.1 <;> simp [sigAt, setIdx, hb]

@[simp] theorem nextOf_setEntry (t : Table h) (p : Pos) (sig : UInt16) (idx : Nat) (b : BktRef) :
    (t.setEntry p sig idx).nextOf b = t.nextOf b := by
  by_cases hb : b = p.1 <;> simp [nextOf, setEntry, hb]

@[simp] theorem nextOf_setIdx (t : Table h) (p : Pos) (idx : Nat) (b : BktRef) :
    (t.setIdx p idx).nextOf b = t.nextOf b := by
  by_cases hb : b = p.1 <;> simp [nextOf, setIdx, hb]

@[simp] theorem idxAt_setNext (t : Table h) (b : BktRef) (id : Nat) (q : Pos) :
    (t.setNext b id).idxAt q = t.idxAt q := by
  by_cases hb : q.1 = b <;> simp [idxAt, setNext, hb]

@[simp] theorem sigAt_setNext (t : Table h) (b : BktRef) (id : Nat) (q : Pos) :
    (t.setNext b id).sigAt q = t.sigAt q := by
  by_cases hb : q.1 = b <;> simp [sigAt, setNext, hb]

theorem nextOf_setNext (t : Table h) (b c : BktRef) (id : Nat) :
    (t.setNext b id).nextOf c = if c = b then some id else t.nextOf c := by
  by_cases hb : c = b <;> simp [nextOf, setNext, hb]

@[simp] theorem bkts_bumpChngCnt (t : Table h) : t.bumpChngCnt.bkts = t.bkts := by
  unfold bumpChngCnt
  split <;> rfl

@[simp] theorem keyStore_bumpChngCnt (t : Table h) : t.bumpChngCnt.keyStore = t.keyStore := by
  unfold bumpChngCnt
  split <;> rfl

@[simp] theorem freeSlots_bumpChngCnt (t : Table h) : t.bumpChngCnt.freeSlots = t.freeSlots := by
  unfold bumpChngCnt
  split <;> rfl

@[simp] theorem freeExtBkts_bumpChngCnt (t : Table h) :
    t.bumpChngCnt.freeExtBkts = t.freeExtBkts := by
  unfold bumpChngCnt
  split <;> rfl

@[simp] theorem idxAt_bumpChngCnt (t : Table h) (p : Pos) : t.bumpChngCnt.idxAt p = t.idxAt p := by
  rw [idxAt, idxAt, bkts_bumpChngCnt]

@[simp] theorem sigAt_bumpChngCnt (t : Table h) (p : Pos) : t.bumpChngCnt.sigAt p = t.sigAt p := by
  rw [sigAt, sigAt, bkts_bumpChngCnt]

@[simp] theorem nextOf_bumpChngCnt (t : Table h) (b : BktRef) :
    t.bumpChngCnt.nextOf b = t.nextOf b := by
  rw [nextOf, nextOf, bkts_bumpChngCnt]

/-- bucket の中身が同じ table は、entry も連なりも同じに見える。 -/
theorem idxAt_congr {t t' : Table h} (hb : t'.bkts = t.bkts) : t'.idxAt = t.idxAt := by
  funext p
  rw [idxAt, idxAt, hb]

theorem sigAt_congr {t t' : Table h} (hb : t'.bkts = t.bkts) : t'.sigAt = t.sigAt := by
  funext p
  rw [sigAt, sigAt, hb]

theorem nextOf_congr {t t' : Table h} (hb : t'.bkts = t.bkts) : t'.nextOf = t.nextOf := by
  funext b
  rw [nextOf, nextOf, hb]

theorem chain_congr {t t' : Table h} (hn : t'.nextOf = t.nextOf) (fuel : Nat) (b : BktRef) :
    t'.chain fuel b = t.chain fuel b := by
  induction fuel generalizing b with
  | zero => rfl
  | succ fuel ih =>
    have hb : (t'.bkts b).next = (t.bkts b).next := congrFun hn b
    rw [chain, chain, hb]
    cases (t.bkts b).next with
    | none => rfl
    | some id => simp only [ih]

/-- 最初の空いた entry は空で、それより前は埋まっている。 -/
theorem firstEmpty_eq_some {b : BktRef} {i : Fin bucketEntries} :
    t.firstEmpty b = some i ↔
      t.idxAt (b, i) = emptySlot ∧ ∀ j, j < i → t.idxAt (b, j) ≠ emptySlot := by
  rw [firstEmpty, find?_finRange_eq_some]
  simp only [beq_iff_eq, beq_eq_false_iff_ne]
  rfl

theorem firstEmpty_eq_none {b : BktRef} :
    t.firstEmpty b = none ↔ ∀ i, t.idxAt (b, i) ≠ emptySlot := by
  simp [firstEmpty, idxAt]

end Table

end L3fwd.Hash
