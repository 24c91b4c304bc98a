import L3fwd.Hash.BfsQueue
import L3fwd.Hash.Displacement

/-!
# `rte_hash_create` が求める大きさ

`rte_hash_create` は、受け付けた引数から ring の段数、bucket の数、key store の大きさを求めて確保する。
確保した大きさと、後で使われる範囲が合うかを調べる。

* **key store**：大きさは 64 bit の積、slot の位置は 32 bit の積で求める。重ならず収まるのは、最後の slot の
  位置が 2^32 に届かないときに限る（`slots_disjoint_iff`）
* **ring**：`rte_ring_get_memsize_elem` の積も 32 bit なので、段数が 2^30 に達すると大きさは header だけになる。
  2^31 では受け付けられない（`rings_fit_iff`）
* **bucket**：`buckets` は一つ分しか確保されない。番号はいつも `num_buckets` より小さいが、
  確保した範囲に収まるのは `num_buckets` が 1 のときに限る（`indices_inside_iff`）
-/

namespace L3fwd.Hash

open Infra Table

/-! ## key store -/

namespace RteHash

variable (h : RteHash)

/-- `sizeof(struct rte_hash_key)`。 -/
def sizeofKey : Nat := 8

/-- 32 bit に切り詰める前の slot の大きさ。 -/
def alignedSize : Nat := (sizeofKey + h.keyLen + 15) / 16 * 16

/-- `key_tbl_size`。64 bit の積なので折り返さない。 -/
def keyTblSize : Nat := h.keyEntrySize * (h.entries + 1)

/-- どの二つの slot も重ならず、key store の中にある。 -/
def SlotsDisjoint : Prop :=
  ∀ i j, i ≤ h.entries → j ≤ h.entries → i ≠ j →
    Apart (h.slotOffset i) (sizeofKey + h.keyLen) (h.slotOffset j) (sizeofKey + h.keyLen) ∧
      h.slotOffset i + (sizeofKey + h.keyLen) ≤ h.keyTblSize

theorem keyEntrySize_eq_mod : h.keyEntrySize = h.alignedSize % 2 ^ 32 := rfl

theorem le_alignedSize : sizeofKey + h.keyLen ≤ h.alignedSize ∧
    h.alignedSize < sizeofKey + h.keyLen + 16 ∧ 16 ∣ h.alignedSize := by
  unfold alignedSize
  omega

variable {h}

/-- 切り詰められなければ、折り返した slot は 0 番の slot と重なる。 -/
theorem not_slotsDisjoint_of_wrap (hsize : h.alignedSize < 2 ^ 32)
    (hwrap : 2 ^ 32 ≤ h.entries * h.alignedSize) : ¬ h.SlotsDisjoint := by
  intro hs
  obtain ⟨hle, hlt, e, he⟩ := h.le_alignedSize
  have hpos : 0 < h.alignedSize := by
    unfold sizeofKey at hle
    omega
  have hentry : h.keyEntrySize = h.alignedSize := Nat.mod_eq_of_lt hsize
  -- 2^32 を初めて越える slot
  obtain ⟨k, hk⟩ : ∃ k, k = (2 ^ 32 - 1) / h.alignedSize + 1 := ⟨_, rfl⟩
  have hbefore : (k - 1) * h.alignedSize ≤ 2 ^ 32 - 1 := by
    rw [hk, Nat.add_sub_cancel]
    exact Nat.div_mul_le_self _ _
  have hafter : 2 ^ 32 - 1 < k * h.alignedSize := by
    rw [hk, Nat.mul_comm]
    exact Nat.lt_mul_div_succ _ hpos
  have hkpos : 1 ≤ k := hk ▸ Nat.succ_pos _
  have hsucc : (k - 1) * h.alignedSize + h.alignedSize = k * h.alignedSize := by
    rw [← Nat.succ_mul, Nat.succ_eq_add_one, Nat.sub_add_cancel hkpos]
  have hkle : k ≤ h.entries := by
    by_contra hgt
    have := Nat.mul_le_mul_right h.alignedSize (show h.entries ≤ k - 1 by omega)
    omega
  have hoff : h.slotOffset k = k * h.alignedSize - 2 ^ 32 := by
    rw [slotOffset, hentry]
    omega
  have hdvd : 16 ∣ k * h.alignedSize := he ▸ Dvd.dvd.mul_left ⟨e, rfl⟩ k
  have hoff0 : h.slotOffset 0 = 0 := by rw [slotOffset, Nat.zero_mul, Nat.zero_mod]
  refine (hs 0 k (Nat.zero_le _) hkle (by omega)).1 (h.slotOffset k) ?_ ?_ (le_refl _) ?_
  · rw [hoff0]
    exact Nat.zero_le _
  · rw [hoff0, hoff]
    omega
  · unfold sizeofKey
    omega

/-- 切り詰められた大きさでは、1 番の slot が 0 番の slot と重なる。 -/
theorem not_slotsDisjoint_of_truncated (hsize : 2 ^ 32 ≤ h.alignedSize) : ¬ h.SlotsDisjoint := by
  intro hs
  obtain ⟨hle, hlt, -⟩ := h.le_alignedSize
  have hlen := h.keyLen_lt
  have hge : 8 ≤ h.entries := h.entries_ge
  unfold sizeofKey at hle hlt
  have hentry : h.keyEntrySize = h.alignedSize - 2 ^ 32 := by
    rw [keyEntrySize_eq_mod]
    omega
  have hoff : h.slotOffset 1 = h.alignedSize - 2 ^ 32 := by
    rw [slotOffset, hentry, Nat.one_mul]
    omega
  have hoff0 : h.slotOffset 0 = 0 := by rw [slotOffset, Nat.zero_mul, Nat.zero_mod]
  refine (hs 0 1 (Nat.zero_le _) (by omega) (by decide)).1 (h.slotOffset 1) ?_ ?_ (le_refl _) ?_
  · rw [hoff0]
    exact Nat.zero_le _
  · rw [hoff0, hoff]
    unfold sizeofKey
    omega
  · unfold sizeofKey
    omega

theorem slotsDisjoint_of_lt (hfit : h.entries * h.alignedSize < 2 ^ 32) : h.SlotsDisjoint := by
  obtain ⟨hle, -, -⟩ := h.le_alignedSize
  have hge : 8 ≤ h.entries := h.entries_ge
  have hsize : h.alignedSize < 2 ^ 32 :=
    lt_of_le_of_lt (Nat.le_mul_of_pos_left _ (by omega)) hfit
  have hentry : h.keyEntrySize = h.alignedSize := Nat.mod_eq_of_lt hsize
  have hoff : ∀ i, i ≤ h.entries → h.slotOffset i = i * h.alignedSize := by
    intro i hi
    rw [slotOffset, hentry]
    exact Nat.mod_eq_of_lt (lt_of_le_of_lt (Nat.mul_le_mul_right _ hi) hfit)
  have hnext : ∀ i j, i < j → i * h.alignedSize + h.alignedSize ≤ j * h.alignedSize := by
    intro i j hij
    rw [← Nat.succ_mul]
    exact Nat.mul_le_mul_right _ hij
  intro i j hi hj hne
  rw [hoff i hi, hoff j hj]
  constructor
  · intro x hx hlt hx' hlt'
    rcases Nat.lt_or_gt_of_ne hne with hij | hji
    · have := hnext i j hij
      omega
    · have := hnext j i hji
      omega
  · have := hnext i (h.entries + 1) (by omega)
    rw [keyTblSize, hentry, Nat.mul_comm h.alignedSize]
    omega

/-- **slot がどれも重ならず key store に収まるのは、最後の slot の位置が 2^32 に届かないときに限る。** -/
theorem slots_disjoint_iff (h : RteHash) : h.SlotsDisjoint ↔ h.entries * h.alignedSize < 2 ^ 32 := by
  constructor
  · intro hs
    by_contra hwrap
    rcases Nat.lt_or_ge h.alignedSize (2 ^ 32) with hsize | hsize
    · exact not_slotsDisjoint_of_wrap hsize (Nat.le_of_not_lt hwrap) hs
    · exact not_slotsDisjoint_of_truncated hsize hs
  · exact slotsDisjoint_of_lt

end RteHash

/-- slot の大きさがちょうど 2^31 になる table。偶数番の slot はどれも位置 0 に来る。 -/
def hugeKeys : RteHash :=
  { eightKeys with
    keyLen := 2 ^ 31 - 8
    extTableSupport := false
    writerTakesLock := true
    keyLen_pos := by decide
    keyLen_lt := by decide }

theorem hugeKeys_slots_overlap : ¬ hugeKeys.SlotsDisjoint := by
  intro hs
  have h02 := hs 0 2 (by decide) (by decide) (by decide)
  exact h02.1 0 (by decide) (by decide) (by decide) (by decide)

/-! ## ring -/

/-- `sizeof(struct rte_ring)`。 -/
def sizeofRing : Nat := 384

/-- `RTE_RING_SZ_MASK`。 -/
def ringSzMask : UInt32 := 0x7fffffff

/-- `POWEROF2`。 -/
def powerof2 (x : UInt32) : Bool := (x - 1) &&& x == 0

/-- `rte_ring_get_memsize_elem`。`count * esize` は 32 bit の積で、失敗は `-EINVAL` で表す。 -/
def rteRingGetMemsizeElem (esize count : UInt32) : Int :=
  if esize % 4 ≠ 0 then -22
  else if ¬ powerof2 count ∨ ringSzMask < count then -22
  else ((sizeofRing + (count * esize).toNat + 63) / 64 * 64 : Nat)

/-- `rte_ring_init` が定める `capacity`。 -/
def ringCapacity (count : UInt32) : Nat := (count - 1).toNat

/-- ring を満たす loop。`rte_ring_sp_enqueue_elem` が一度でも失敗すれば `none` とする。 -/
def populate (cap n : Nat) : Option (Fifo Nat cap) := (List.range' 1 n).foldlM Fifo.push Fifo.empty

/-- 段数が受け付けられ、求めた大きさに header と要素が収まり、`n` 個を入れ終えられる。 -/
structure RingFits (count : UInt32) (n : Nat) : Prop where
  accepted : 0 ≤ rteRingGetMemsizeElem 4 count
  large : (sizeofRing + count.toNat * 4 : Nat) ≤ rteRingGetMemsizeElem 4 count
  capacity : n ≤ ringCapacity count
  populated : populate (ringCapacity count) n ≠ none

/-- `free_slots` に渡す段数。 -/
def RteHash.slotCount (h : RteHash) : UInt32 := rteAlign32pow2 (UInt32.ofNat (h.entries + 1))

/-- `free_ext_bkts` に渡す段数。 -/
def RteHash.extCount (h : RteHash) : UInt32 := rteAlign32pow2 (UInt32.ofNat (h.numBuckets + 1))

/-- `rte_hash_create` が求める二つの ring は、どちらも足りる。 -/
def RteHash.RingsFit (h : RteHash) : Prop :=
  RingFits h.slotCount h.entries ∧ RingFits h.extCount h.numBuckets

theorem powerof2_of_two_pow {count : UInt32} {k : Nat} (hc : count.toNat = 2 ^ k) :
    powerof2 count = true := by
  have hpos : 0 < 2 ^ k := Nat.two_pow_pos k
  have hsub : (count - 1).toNat = 2 ^ k - 1 := by
    rw [UInt32.toNat_sub_of_le _ _ (UInt32.le_iff_toNat_le.mpr (by rw [hc]; exact hpos)), hc]
    rfl
  rw [powerof2, beq_iff_eq, ← UInt32.toNat_inj, UInt32.toNat_and, hsub, hc, Nat.and_comm,
    Nat.and_two_pow_sub_one_eq_mod, Nat.mod_self]
  rfl

theorem ringCapacity_eq {count : UInt32} (hpos : 1 ≤ count.toNat) :
    ringCapacity count = count.toNat - 1 := by
  have hle : (1 : UInt32) ≤ count := UInt32.le_iff_toNat_le.mpr hpos
  rw [ringCapacity, UInt32.toNat_sub_of_le _ _ hle]
  rfl

/-- 受け付けられる段数での大きさ。積は 2^32 で折り返す。 -/
theorem rteRingGetMemsizeElem_of_two_pow {count : UInt32} {k : Nat} (hk : k ≤ 30)
    (hc : count.toNat = 2 ^ k) :
    rteRingGetMemsizeElem 4 count = ((sizeofRing + 2 ^ k * 4 % 2 ^ 32 + 63) / 64 * 64 : Nat) := by
  have hle : 2 ^ k ≤ 2 ^ 30 := Nat.pow_le_pow_right (by decide) hk
  have hmask : ¬ ringSzMask < count := by
    rw [UInt32.lt_iff_toNat_lt, hc]
    show ¬ 2147483647 < 2 ^ k
    omega
  rw [rteRingGetMemsizeElem, if_neg (by decide), if_neg, UInt32.toNat_mul, hc]
  · rfl
  · rintro (hx | hx)
    · exact hx (powerof2_of_two_pow hc)
    · exact hmask hx

/-- 2^29 より少ない要素のための ring は足りる。 -/
theorem ringFits_of_lt {n : Nat} (hlt : n < 2 ^ 29) :
    RingFits (rteAlign32pow2 (UInt32.ofNat (n + 1))) n := by
  have hc : (rteAlign32pow2 (UInt32.ofNat (n + 1))).toNat = 2 ^ n.size :=
    rteAlign32pow2_toNat (by omega) (by omega)
  have hsize : n.size ≤ 29 := Nat.size_le.mpr hlt
  have hle : 2 ^ n.size ≤ 2 ^ 29 := Nat.pow_le_pow_right (by decide) hsize
  have hn : n < 2 ^ n.size := Nat.lt_size_self n
  have hcap := ringCapacity_eq (hc ▸ Nat.two_pow_pos n.size)
  have hmem := rteRingGetMemsizeElem_of_two_pow (by omega) hc
  have hfit : n ≤ ringCapacity (rteAlign32pow2 (UInt32.ofNat (n + 1))) := by
    rw [hcap, hc]
    omega
  refine ⟨?_, ?_, hfit, ?_⟩
  · rw [hmem]
    exact Int.natCast_nonneg _
  · rw [hmem, hc, Nat.mod_eq_of_lt (by omega), Int.ofNat_le]
    omega
  · obtain ⟨ring, hring, -⟩ := Fifo.foldlM_push (f := Fifo.empty) (show 0 + (List.range' 1 n).length
        ≤ ringCapacity (rteAlign32pow2 (UInt32.ofNat (n + 1))) by
      rw [List.length_range', Nat.zero_add]
      exact hfit)
    rw [populate, hring]
    exact Option.some_ne_none _

/-- 2^29 個以上では、積が折り返して 0 になるか、段数が受け付けられない。 -/
theorem not_ringFits_of_ge {n : Nat} (hge : 2 ^ 29 ≤ n) (hle : n ≤ 2 ^ 30) :
    ¬ RingFits (rteAlign32pow2 (UInt32.ofNat (n + 1))) n := by
  intro hfit
  have hc : (rteAlign32pow2 (UInt32.ofNat (n + 1))).toNat = 2 ^ n.size :=
    rteAlign32pow2_toNat (by omega) (by omega)
  have hlow : 29 < n.size := Nat.lt_size.mpr hge
  rcases Nat.lt_or_ge n (2 ^ 30) with hlt | htop
  · have hsize : n.size = 30 := Nat.le_antisymm (Nat.size_le.mpr hlt) hlow
    rw [hsize] at hc
    have hlarge := hfit.large
    rw [rteRingGetMemsizeElem_of_two_pow (le_refl _) hc, hc] at hlarge
    exact absurd hlarge (by decide)
  · have hsize : n.size = 31 :=
      Nat.le_antisymm (Nat.size_le.mpr (by omega)) (Nat.lt_size.mpr htop)
    have hmask : ringSzMask < rteAlign32pow2 (UInt32.ofNat (n + 1)) := by
      rw [UInt32.lt_iff_toNat_lt, hc, hsize]
      decide
    have hacc := hfit.accepted
    rw [rteRingGetMemsizeElem, if_neg (by decide), if_pos (Or.inr hmask)] at hacc
    exact absurd hacc (by decide)

/-- **二つの ring がどちらも足りるのは、entry が 2^29 個より少ないときに限る。** -/
theorem rings_fit_iff (h : RteHash) : h.RingsFit ↔ h.entries < 2 ^ 29 := by
  constructor
  · intro hfit
    by_contra hge
    exact not_ringFits_of_ge (Nat.le_of_not_lt hge) h.entries_le hfit.1
  · intro hlt
    have := h.numBuckets_le
    exact ⟨ringFits_of_lt hlt, ringFits_of_lt (by omega)⟩

/-- entry が 2^29 個の table。ring の大きさは header の分しかない。 -/
def manyEntries : RteHash :=
  { eightKeys with
    entries := 2 ^ 29
    entries_ge := by decide
    entries_le := by decide }

theorem manyEntries_ring_short :
    rteRingGetMemsizeElem 4 manyEntries.slotCount = sizeofRing ∧ ¬ manyEntries.RingsFit := by
  have hmem : rteRingGetMemsizeElem 4 manyEntries.slotCount = sizeofRing := by decide
  refine ⟨hmem, fun hfit => ?_⟩
  have hlarge := hfit.1.large
  rw [hmem] at hlarge
  exact absurd hlarge (by decide)

/-! ## bucket -/

/-- `sizeof(struct rte_hash_bucket)`。 -/
def sizeofBucket : Nat := 64

/-- `buckets` のための `malloc` の引数。`num_buckets` を掛けていない。 -/
def bucketsSize : Nat := sizeofBucket

/-- `buckets` として確保された bucket の数。 -/
def bucketsAllocated : Nat := bucketsSize / sizeofBucket

/--
番号はどれも、確保された `buckets` の中にある。

`visited` は、key の二つの bucket のどちらから探索を始め、table から何を読んでも、
積まれる `cur_bkt_idx` が収まることをいう。
-/
structure RteHash.IndicesInside (h : RteHash) : Prop where
  prim : ∀ hash, (getPrimBucketIndex h hash).toNat < bucketsAllocated
  alt : ∀ idx sig, (getAltBucketIndex h idx sig).toNat < bucketsAllocated
  visited : ∀ hash root, root = getPrimBucketIndex h hash ∨ root = getSecBucketIndex h hash →
    ∀ (inputs : List (SearchInput h)) (s : ArraySearch),
      exec searchStep (ArraySearch.start (.main root) root) inputs = some s →
      ∀ pos node, s.queue pos = some node → node.curBktIdx.toNat < bucketsAllocated
  involutive : ∀ idx sig, idx.toNat < bucketsAllocated →
    getAltBucketIndex h (getAltBucketIndex h idx sig) sig = idx

/-- `num_buckets` は 2 の冪である。 -/
theorem RteHash.exists_numBuckets_eq (h : RteHash) :
    ∃ k, h.numBuckets = 2 ^ k ∧ h.entries ≤ 8 * 2 ^ k ∧ 4 * 2 ^ k < h.entries := by
  have hge : 8 ≤ h.entries := h.entries_ge
  have hle := h.entries_le
  have hsize : 3 ≤ (h.entries - 1).size := Nat.lt_size.mpr (by omega)
  obtain ⟨k, hk⟩ : ∃ k, (h.entries - 1).size = k + 3 := ⟨_, (Nat.sub_add_cancel hsize).symm⟩
  have hupper : h.entries - 1 < 2 ^ (k + 3) := hk ▸ Nat.lt_size_self _
  have hlower : 2 ^ (k + 2) ≤ h.entries - 1 := Nat.lt_size.mp (by omega)
  have hpow : 2 ^ (k + 3) = 8 * 2 ^ k ∧ 2 ^ (k + 2) = 4 * 2 ^ k := by
    constructor <;> ring
  refine ⟨k, ?_, by omega, by omega⟩
  rw [numBuckets, rteAlign32pow2_toNat (by omega) (by omega), hk, pow_add]
  exact Nat.mul_div_cancel _ (by decide)

theorem RteHash.numBuckets_eq_one_iff (h : RteHash) : h.numBuckets = 1 ↔ h.entries = 8 := by
  obtain ⟨k, hk, hupper, hlower⟩ := h.exists_numBuckets_eq
  rw [hk]
  constructor
  · intro hone
    have hge : 8 ≤ h.entries := h.entries_ge
    omega
  · intro heq
    have hpos := Nat.two_pow_pos k
    omega

/-- **行き先の番号は対合である。** -/
theorem getAltBucketIndex_involutive {idx : UInt32} (hidx : h.InBuckets idx) (sig : UInt16) :
    getAltBucketIndex h (getAltBucketIndex h idx sig) sig = idx := by
  obtain ⟨k, hk, -⟩ := h.exists_numBuckets_eq
  have hmask : idx &&& h.bucketBitmask = idx := by
    rw [← UInt32.toNat_inj, UInt32.toNat_and, h.bucketBitmask_toNat, hk,
      Nat.and_two_pow_sub_one_eq_mod]
    exact Nat.mod_eq_of_lt (hk ▸ hidx)
  refine Eq.trans ?_ hmask
  unfold getAltBucketIndex
  generalize h.bucketBitmask = m
  generalize sig.toUInt32 = s
  refine UInt32.eq_of_toBitVec_eq ?_
  simp only [UInt32.toBitVec_and, UInt32.toBitVec_xor]
  refine BitVec.eq_of_getLsbD_eq fun i hi => ?_
  simp only [BitVec.getLsbD_and, BitVec.getLsbD_xor]
  cases idx.toBitVec.getLsbD i <;> cases s.toBitVec.getLsbD i <;> cases m.toBitVec.getLsbD i <;> rfl

/-- 積まれた番号はどれも `num_buckets` より小さい。 -/
def Visits (h : RteHash) (s : ArraySearch) : Prop :=
  ∀ pos node, s.queue pos = some node → h.InBuckets node.curBktIdx

variable {h : RteHash}

theorem Visits.step {s : ArraySearch} {inp : SearchInput h} (hv : Visits h s) :
    Visits h (s.step inp) := by
  rcases s.step_queue inp with hq | ⟨idx, sig, node, hnode, hq⟩
  · rw [Visits, hq]
    exact hv
  · intro pos node' hpos
    rw [hq] at hpos
    by_cases hp : pos = s.head
    · rw [hp, Function.update_self] at hpos
      obtain rfl := Option.some.inj hpos
      rw [hnode]
      exact inBuckets_mask h _
    · rw [Function.update_of_ne hp] at hpos
      exact hv pos node' hpos

theorem Visits.run {root : UInt32} {s : ArraySearch} {inputs : List (SearchInput h)}
    (hroot : h.InBuckets root)
    (hrun : exec searchStep (ArraySearch.start (.main root) root) inputs = some s) :
    Visits h s := by
  have hr : Reaches searchStep Always (ArraySearch.start (.main root) root) s :=
    reaches_of_exec (fun _ _ _ => trivial) hrun
  refine hr.invariant ?_ ?_
  · intro pos node hpos
    by_cases hp : pos = 0
    · rw [hp] at hpos
      simp only [ArraySearch.start, Function.update_self, Option.some.injEq] at hpos
      rw [← hpos]
      exact hroot
    · simp [ArraySearch.start, Function.update_of_ne hp] at hpos
  · intro u a u' hu _ hs
    obtain rfl := Option.some.inj hs
    exact hu.step

/-- **番号が確保された `buckets` に収まるのは、`entries` が 8 のときに限る。** -/
theorem indices_inside_iff (h : RteHash) : h.IndicesInside ↔ h.entries = 8 := by
  rw [← h.numBuckets_eq_one_iff]
  constructor
  · intro hin
    obtain ⟨k, hk, -⟩ := h.exists_numBuckets_eq
    -- hash が `bucket_bitmask` なら、最後の bucket に入る
    have hlast := hin.prim h.bucketBitmask
    rw [getPrimBucketIndex, UInt32.and_self, h.bucketBitmask_toNat] at hlast
    have hpos := h.numBuckets_pos
    have hlast' : h.numBuckets - 1 < 1 := hlast
    omega
  · intro hone
    have hinside : ∀ idx : UInt32, h.InBuckets idx → idx.toNat < bucketsAllocated := by
      intro idx hidx
      have hlt : idx.toNat < h.numBuckets := hidx
      rw [hone] at hlt
      exact hlt
    refine ⟨fun hash => hinside _ (inBuckets_mask h _), fun idx sig => hinside _ (inBuckets_mask h _),
      ?_, fun idx sig hidx => getAltBucketIndex_involutive ?_ sig⟩
    · intro hash root hroot inputs s hrun pos node hnode
      refine hinside _ (Visits.run ?_ hrun pos node hnode)
      rcases hroot with rfl | rfl
      · exact inBuckets_mask h _
      · exact inBuckets_mask h _
    · show idx.toNat < h.numBuckets
      rw [hone]
      exact hidx

/-- entry が 16 個の table には、確保されていない bucket がある。 -/
def sixteenEntries : RteHash :=
  { eightKeys with
    entries := 16
    entries_ge := by decide
    entries_le := by decide }

theorem sixteenEntries_outside :
    getPrimBucketIndex sixteenEntries 1 = 1 ∧ bucketsAllocated = 1 ∧
      ¬ sixteenEntries.IndicesInside := by
  have hprim : getPrimBucketIndex sixteenEntries 1 = 1 := by decide
  refine ⟨hprim, rfl, fun hin => ?_⟩
  have := hin.prim 1
  rw [hprim] at this
  exact absurd this (by decide)

end L3fwd.Hash
