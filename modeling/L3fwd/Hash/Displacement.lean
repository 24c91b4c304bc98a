import Mathlib.Data.Finset.Prod
import Mathlib.Data.Fintype.Basic
import Mathlib.Order.Interval.Finset.Nat
import L3fwd.Infra.Contents
import L3fwd.Hash.Stored

/-!
# 押し出しと中身

`rte_hash_cuckoo_move_insert_mw` は、古くなった path でも entry を失わず、増やさないか。

* **中身**：押し出しは空いた entry への移動の繰り返しなので、空でない entry の multiset は、
  成功すれば新しい一つだけ増え、諦めたときも重複が見つかったときも変わらない
* **置き場所**：entry は第一の bucket と第二の bucket の間でしか動かず、signature も一緒に動く。
  だから押し出しは、どの entry も key の hash が決める bucket にあるという条件を保つ
* 重複が見つかると、その slot の `pdata` が書き換わる。slot の位置は 32 bit の積なので、
  大きな table では折り返して他の slot の key に重なりうる。key が変われば置き場所の条件は崩れる

条件が保たれるのは、どの slot の `pdata` もどの slot の key とも重ならない設定に限る
（`cuckooMoveInsertMw_displaces`）。
-/

namespace L3fwd.Hash

open Infra Table

variable {h : RteHash} {t t' u v : Table h} {hash : List UInt8 → UInt32}

/-! ## 中身 -/

/-- table にある bucket。 -/
def RteHash.bktRefs (h : RteHash) : Finset BktRef :=
  (Finset.range h.numBuckets).image (fun i => .main (UInt32.ofNat i)) ∪
    (Finset.Icc 1 h.numBuckets).image .ext

/-- table にある entry の位置。 -/
def RteHash.positions (h : RteHash) : Finset Pos := h.bktRefs ×ˢ Finset.univ

/-- 空でない entry の signature と番号。 -/
def Table.entryOf (t : Table h) (p : Pos) : Option (UInt16 × Nat) :=
  if t.idxAt p = emptySlot then none else some (t.sigAt p, t.idxAt p)

/-- 空でない entry の multiset。 -/
def Table.entries (t : Table h) : Multiset (UInt16 × Nat) := contents h.positions t.entryOf

/-- `buckets` の範囲の番号。 -/
def RteHash.InBuckets (h : RteHash) (b : UInt32) : Prop := b.toNat < h.numBuckets

theorem RteHash.numBuckets_pos (h : RteHash) : 0 < h.numBuckets := by
  have hle := h.entries_le_buckets
  have hge : 8 ≤ h.entries := h.entries_ge
  by_contra hzero
  obtain hzero : h.numBuckets = 0 := by omega
  rw [hzero] at hle
  omega

theorem mem_positions_main {p : Pos} {b : UInt32} (hp : p.1 = .main b) (hb : h.InBuckets b) :
    p ∈ h.positions := by
  unfold RteHash.positions RteHash.bktRefs
  refine Finset.mem_product.mpr ⟨Finset.mem_union_left _ ?_, Finset.mem_univ _⟩
  refine Finset.mem_image.mpr ⟨b.toNat, Finset.mem_range.mpr hb, ?_⟩
  rw [UInt32.ofNat_toNat, hp]

theorem RteHash.bucketBitmask_toNat (h : RteHash) :
    h.bucketBitmask.toNat = h.numBuckets - 1 := by
  have hpos := h.numBuckets_pos
  have hle := h.numBuckets_le
  unfold RteHash.bucketBitmask
  rw [UInt32.toNat_sub_of_le, UInt32.toNat_ofNat']
  · simp only [UInt32.reduceToNat]
    omega
  · rw [UInt32.le_iff_toNat_le, UInt32.toNat_ofNat']
    simp only [UInt32.reduceToNat]
    omega

/-- 行き先の番号は mask されているので、`buckets` の範囲にある。 -/
theorem inBuckets_mask (h : RteHash) (x : UInt32) : h.InBuckets (x &&& h.bucketBitmask) := by
  have hpos := h.numBuckets_pos
  unfold RteHash.InBuckets
  rw [UInt32.toNat_and, h.bucketBitmask_toNat]
  exact Nat.lt_of_le_of_lt Nat.and_le_right (by omega)

theorem entryOf_congr (hb : t'.bkts = t.bkts) : t'.entryOf = t.entryOf := by
  funext p
  rw [entryOf, entryOf, idxAt_congr hb, sigAt_congr hb]

theorem entries_congr (hb : t'.bkts = t.bkts) : t'.entries = t.entries := by
  rw [Table.entries, Table.entries, entryOf_congr hb]

theorem entryOf_of_empty {p : Pos} (hp : t.idxAt p = emptySlot) : t.entryOf p = none := by
  rw [entryOf, if_pos hp]

/-- **entry の移動は中身を変えない。** -/
theorem Shift.entries {q p : Pos} {b : UInt32} (hs : Shift t t' q p) (hq : q.1 = .main b)
    (hb : h.InBuckets b) : t'.entries = t.entries := by
  obtain ⟨c, -, hp⟩ := hs.source
  have hne := hs.ne
  refine contents_move (mem_positions_main hp (inBuckets_mask h _)) (mem_positions_main hq hb) hne
    (entryOf_of_empty hs.empty) ?_ ?_ ?_
  · rw [entryOf, entryOf, hs.idx, hs.sig, if_pos rfl, if_pos rfl]
  · refine entryOf_of_empty ?_
    rw [hs.idx, if_neg hne.symm, if_pos rfl]
  · intro r hrp hrq
    rw [entryOf, entryOf, hs.idx, hs.sig, if_neg hrp, if_neg hrq, if_neg hrp]

theorem ShiftsWithin.entries (hs : ShiftsWithin h.InBuckets t t') : t'.entries = t.entries := by
  refine hs.invariant (P := fun v => v.entries = t.entries) rfl ?_ ?_
  · intro v v' hv hsame
    rw [entries_congr hsame.bkts, hv]
  · intro v v' q p b hv hq hb hshift
    rw [hshift.entries hq hb, hv]

/-- **空いた entry への書き込みは、中身を一つ増やす。** -/
theorem entries_setEntry {p : Pos} {b : UInt32} {sig : UInt16} {idx : Nat} (hp : p.1 = .main b)
    (hb : h.InBuckets b) (hempty : t.idxAt p = emptySlot) (hidx : idx ≠ emptySlot) :
    (t.setEntry p sig idx).entries = (sig, idx) ::ₘ t.entries := by
  refine contents_insert (mem_positions_main hp hb) (entryOf_of_empty hempty) ?_ ?_
  · rw [entryOf, idxAt_setEntry, sigAt_setEntry, if_pos rfl, if_pos rfl, if_neg hidx]
  · intro r hr
    rw [entryOf, entryOf, idxAt_setEntry, sigAt_setEntry, if_neg hr, if_neg hr]

/-! ## 置き場所 -/

/-- slot にある key の、`key_len` byte ぶん。 -/
def Table.keyBytes (t : Table h) (idx : Nat) : List UInt8 :=
  (List.range h.keyLen).map fun j => t.keyStore (h.slotOffset idx + 8 + j)

/-- `b` は hash が `hv` の key の第一か第二の bucket である。 -/
def PrimOrSec (h : RteHash) (hv : UInt32) (b : BktRef) : Prop := b = primOf h hv ∨ b = secOf h hv

/-- どの entry も key の hash が決める bucket にあり、signature も hash のものである。 -/
def WellPlaced (hash : List UInt8 → UInt32) (t : Table h) : Prop :=
  ∀ b, h.InBuckets b → ∀ i, t.idxAt (.main b, i) ≠ emptySlot →
    PrimOrSec h (hash (t.keyBytes (t.idxAt (.main b, i)))) (.main b) ∧
      t.sigAt (.main b, i) = getShortSig (hash (t.keyBytes (t.idxAt (.main b, i))))

theorem keyBytes_congr {idx : Nat}
    (hk : ∀ j, j < h.keyLen → t'.keyStore (h.slotOffset idx + 8 + j)
      = t.keyStore (h.slotOffset idx + 8 + j)) : t'.keyBytes idx = t.keyBytes idx :=
  List.map_congr_left fun j hj => hk j (List.mem_range.mp hj)

/-- bucket が同じで、使われている slot の key も同じなら、置き場所の条件は同じである。 -/
theorem WellPlaced.congr (hw : WellPlaced hash t) (hb : t'.bkts = t.bkts)
    (hk : ∀ p, t.idxAt p ≠ emptySlot → t'.keyBytes (t.idxAt p) = t.keyBytes (t.idxAt p)) :
    WellPlaced hash t' := by
  intro b hin i hi
  rw [idxAt_congr hb] at hi ⊢
  rw [sigAt_congr hb, hk _ hi]
  exact hw b hin i hi

theorem SameContent.wellPlaced (hs : SameContent t t') (hw : WellPlaced hash t) :
    WellPlaced hash t' :=
  hw.congr hs.bkts fun _ _ => keyBytes_congr fun _ _ => by rw [hs.keyStore]

/-- 行き先の bucket は、もう一方の置き場所である。 -/
theorem PrimOrSec.alt {hv b : UInt32} (hb : PrimOrSec h hv (.main b)) :
    PrimOrSec h hv (.main (getAltBucketIndex h b (getShortSig hv))) := by
  rcases hb with hb | hb
  · obtain rfl := BktRef.main.inj hb
    exact Or.inr rfl
  · obtain rfl := BktRef.main.inj hb
    rw [getAltBucketIndex_sec]
    exact Or.inl rfl

/-- **entry の移動は置き場所の条件を保つ。** -/
theorem Shift.wellPlaced {q p : Pos} {b : UInt32} (hs : Shift t t' q p) (hq : q.1 = .main b)
    (hb : h.InBuckets b) (hw : WellPlaced hash t) : WellPlaced hash t' := by
  have hkey : ∀ idx, t'.keyBytes idx = t.keyBytes idx := fun idx =>
    keyBytes_congr fun _ _ => by rw [hs.keyStore]
  obtain ⟨c, hc, hp⟩ := hs.source
  obtain rfl : b = c := BktRef.main.inj (hq.symm.trans hc)
  intro d hd i hi
  rw [hkey]
  by_cases hpi : (BktRef.main d, i) = p
  · -- 移ってきた entry。もとの位置での条件から、行き先も置き場所である
    have hidx : t'.idxAt (.main d, i) = t.idxAt q := by rw [hs.idx, if_pos hpi]
    have hsig : t'.sigAt (.main d, i) = t.sigAt q := by rw [hs.sig, if_pos hpi]
    have hqpos : q = (.main b, q.2) := Prod.ext hq rfl
    rw [hidx] at hi ⊢
    rw [hsig]
    rw [hqpos] at hi ⊢
    obtain ⟨hplace, hsigq⟩ := hw b hb q.2 hi
    refine ⟨?_, hsigq⟩
    have hd' : BktRef.main d = .main (getAltBucketIndex h b (t.sigAt q)) := by
      rw [← hp, ← hpi]
    rw [hd', hqpos, hsigq]
    exact hplace.alt
  · by_cases hqi : (BktRef.main d, i) = q
    · rw [hs.idx, if_neg hpi, if_pos hqi] at hi
      exact absurd rfl hi
    · rw [hs.idx, if_neg hpi, if_neg hqi] at hi ⊢
      rw [hs.sig, if_neg hpi]
      exact hw d hd i hi

theorem ShiftsWithin.wellPlaced (hs : ShiftsWithin h.InBuckets t t') (hw : WellPlaced hash t) :
    WellPlaced hash t' :=
  hs.invariant hw (fun _ _ hu hsame => hsame.wellPlaced hu)
    fun _ _ _ _ _ hu hq hb hshift => hshift.wellPlaced hq hb hu

/-- 置き場所の bucket に書いた entry も条件を満たす。 -/
theorem WellPlaced.setEntry (hw : WellPlaced hash t) (p : Pos) (idx : Nat)
    (hp : PrimOrSec h (hash (t.keyBytes idx)) p.1) :
    WellPlaced hash (t.setEntry p (getShortSig (hash (t.keyBytes idx))) idx) := by
  intro b hb i hi
  have hkey : ∀ j, (t.setEntry p (getShortSig (hash (t.keyBytes idx))) idx).keyBytes j
      = t.keyBytes j := fun _ => rfl
  rw [hkey]
  by_cases hpi : (BktRef.main b, i) = p
  · rw [idxAt_setEntry, sigAt_setEntry, if_pos hpi, if_pos hpi]
    refine ⟨?_, rfl⟩
    rw [← hpi] at hp
    exact hp
  · rw [idxAt_setEntry, if_neg hpi] at hi ⊢
    rw [sigAt_setEntry, if_neg hpi]
    exact hw b hb i hi

/-! ## `pdata` の書き込み -/

/-- どの slot の `pdata` も、どの slot の key とも重ならない。 -/
def RteHash.SlotsApart (h : RteHash) : Prop :=
  ∀ i j, 1 ≤ i → i ≤ h.entries → 1 ≤ j → j ≤ h.entries →
    Apart (h.slotOffset i) 8 (h.slotOffset j + 8) h.keyLen

/-- 重ならない slot の `pdata` を書いても、key は変わらない。 -/
theorem keyBytes_setData {i j : Nat}
    (happ : Apart (h.slotOffset i) 8 (h.slotOffset j + 8) h.keyLen) (data : UInt64) :
    (t.setData i data).keyBytes j = t.keyBytes j :=
  keyBytes_congr fun _ hk => Mem.write_apart happ hk

/-- dummy の slot の `pdata` は key store の先頭にあり、どの key とも重ならない。 -/
theorem apart_emptySlot (h : RteHash) (j : Nat) :
    Apart (h.slotOffset emptySlot) 8 (h.slotOffset j + 8) h.keyLen := by
  have hzero := slotOffset_emptySlot h
  intro x _ hx hle
  omega

theorem Touched.wellPlaced {data : UInt64} (ht : Touched data t t') (hw : WellPlaced hash t) :
    WellPlaced hash t' := by
  rcases ht with rfl | rfl
  · exact hw
  · exact hw.congr rfl fun _ _ => keyBytes_setData (apart_emptySlot h _) data

theorem Touched.keyBytes {data : UInt64} (ht : Touched data t t') (idx : Nat) :
    t'.keyBytes idx = t.keyBytes idx := by
  rcases ht with rfl | rfl
  · rfl
  · exact keyBytes_setData (apart_emptySlot h _) data

/-- 重複が見つかったときの `pdata` の書き込みは、slot が重ならなければ置き場所の条件を保つ。 -/
theorem Present.wellPlaced {key : Key} {data : UInt64} {sig : UInt16} {bkt altBkt : BktRef}
    {ret : Int} (hp : Present t key data sig bkt altBkt ret t') (happ : h.SlotsApart)
    (hidx : ∀ p, t.idxAt p ≤ h.entries) (hw : WellPlaced hash t) : WellPlaced hash t' := by
  obtain ⟨p, t1, hhit, ht1, -, rfl⟩ := hp
  have hbkts := ht1.dataOnly.bkts
  refine (ht1.wellPlaced hw).congr rfl fun q hq => ?_
  rw [idxAt_congr hbkts] at hq ⊢
  refine keyBytes_setData (happ _ _ ?_ (hidx p) ?_ (hidx q)) data
  · exact Nat.pos_of_ne_zero hhit.2.2
  · exact Nat.pos_of_ne_zero hq

/-! ## 押し出しの呼び出し -/

/-- 押し出しの呼び出しに要求されること。path は古くてよく、同じ bucket を何度通ってもよい。 -/
structure MoveCall (hash : List UInt8 → UInt32) (t : Table h) (leaf : QueueNode) (sig : UInt16)
    (newIdx : Nat) : Prop where
  placed : WellPlaced hash t
  idx_le : ∀ p, t.idxAt p ≤ h.entries
  nodes : leaf.WellFormed
  inBuckets : leaf.Within h.InBuckets
  newIdx_le : newIdx ≤ h.entries
  fresh : ∀ p ∈ h.positions, t.idxAt p ≠ newIdx
  root : PrimOrSec h (hash (t.keyBytes newIdx)) leaf.rootBkt
  sig_eq : sig = getShortSig (hash (t.keyBytes newIdx))

/-- 返り値ごとの、呼び出しの後の中身。 -/
def CuckooRet.entriesAfter (sig : UInt16) (newIdx : Nat) (old : Multiset (UInt16 × Nat)) :
    CuckooRet → Multiset (UInt16 × Nat)
  | .inserted => (sig, newIdx) ::ₘ old
  | .present _ | .failed => old

variable {leaf : QueueNode} {sig : UInt16} {newIdx : Nat}

theorem QueueNode.WellFormed.rootBkt {B : UInt32 → Prop} {node : QueueNode}
    (hw : node.WellFormed) (hB : node.Within B) : ∃ b, node.rootBkt = .main b ∧ B b := by
  induction node with
  | root bkt idx => exact ⟨idx, hw, hB⟩
  | child bkt idx prev slot ih => exact ih hw.2 hB.2

theorem Present.entries {key : Key} {data : UInt64} {bkt altBkt : BktRef} {ret : Int}
    (hp : Present t key data sig bkt altBkt ret t') : t'.entries = t.entries :=
  entries_congr hp.dataOnly.bkts

/-- **どの呼び出しでも、entry は失われず、増えもしない。** -/
theorem MoveCall.entries (hc : MoveCall hash t leaf sig newIdx) (bkt altBkt : BktRef) (key : Key)
    (data : UInt64) (leafSlot : Fin bucketEntries) :
    let r := cuckooMoveInsertMw t bkt altBkt key data leaf leafSlot sig newIdx
    r.2.entries = r.1.entriesAfter sig newIdx t.entries := by
  intro r
  rcases cuckooMoveInsertMw_within t bkt altBkt key data hc.nodes hc.inBuckets leafSlot sig newIdx
    with ⟨t1, v, ht1, hv, hres⟩ | ⟨ret, t', hres, hp⟩ |
      ⟨-, hempty, t1, v, p, t', ht1, hv, hp, hpe, hsame, hres⟩
  · simp only [r, hres, CuckooRet.entriesAfter]
    rw [hv.entries, entries_congr ht1.dataOnly.bkts]
  · simp only [r, hres, CuckooRet.entriesAfter]
    exact hp.entries
  · simp only [r, hres, CuckooRet.entriesAfter]
    obtain ⟨b, hroot, hb⟩ := hc.nodes.rootBkt hc.inBuckets
    -- 空いた leaf があるので、table に無い番号は 0 ではない
    have hne : newIdx ≠ emptySlot := by
      have hleaf : (leaf.bkt, leafSlot) ∈ h.positions :=
        mem_positions_main hc.nodes.bkt_eq hc.inBuckets.curBktIdx
      exact fun he => hc.fresh _ hleaf (hempty.trans he.symm)
    rw [entries_congr hsame.bkts, entries_setEntry (hp.trans hroot) hb hpe hne, hv.entries,
      entries_congr ht1.dataOnly.bkts]

/-- slot が重ならなければ、どの呼び出しも置き場所の条件を保つ。 -/
theorem MoveCall.wellPlaced (hc : MoveCall hash t leaf sig newIdx) (happ : h.SlotsApart)
    (bkt altBkt : BktRef) (key : Key) (data : UInt64) (leafSlot : Fin bucketEntries) :
    WellPlaced hash (cuckooMoveInsertMw t bkt altBkt key data leaf leafSlot sig newIdx).2 := by
  rcases cuckooMoveInsertMw_within t bkt altBkt key data hc.nodes hc.inBuckets leafSlot sig newIdx
    with ⟨t1, v, ht1, hv, hres⟩ | ⟨ret, t', hres, hp⟩ |
      ⟨-, -, t1, v, p, t', ht1, hv, hp, -, hsame, hres⟩
  · rw [hres]
    exact hv.wellPlaced (ht1.wellPlaced hc.placed)
  · rw [hres]
    exact hp.wellPlaced happ hc.idx_le hc.placed
  · rw [hres]
    have hkey : v.keyBytes newIdx = t.keyBytes newIdx := by
      rw [← ht1.keyBytes]
      exact keyBytes_congr fun _ _ => by rw [hv.shifts.keyStore]
    have hv' := hv.wellPlaced (ht1.wellPlaced hc.placed)
    have hset := hv'.setEntry p newIdx (by rw [hkey, hp]; exact hc.root)
    rw [hkey, ← hc.sig_eq] at hset
    exact hsame.wellPlaced hset

/-! ## slot が重なる設定 -/

/-- key store がすべて 0 で、`buckets[0]` の先頭の二つの entry が `i` と `j` の table。 -/
def twoEntries (h : RteHash) (i j : Nat) : Table h :=
  ((Table.init h fun _ => 0).setEntry (.main 0, 0) 0 i).setEntry (.main 0, 1) 0 j

/-- 0 だけの key の hash は 0、それ以外は signature が 1 の hash とする。 -/
def zeroOrOne (key : List UInt8) : UInt32 := if key.all (· == 0) then 0 else 0x10000

/-- `i` でも `j` でもない番号。 -/
def otherIdx (i j : Nat) : Nat :=
  if i ≠ 1 ∧ j ≠ 1 then 1 else if i ≠ 2 ∧ j ≠ 2 then 2 else 3

theorem otherIdx_spec (i j : Nat) :
    otherIdx i j ≠ i ∧ otherIdx i j ≠ j ∧ 1 ≤ otherIdx i j ∧ otherIdx i j ≤ 3 := by
  unfold otherIdx
  split
  · omega
  · split <;> omega

theorem idxAt_twoEntries (h : RteHash) (i j : Nat) (p : Pos) :
    (twoEntries h i j).idxAt p
      = if p = (.main 0, 1) then j else if p = (.main 0, 0) then i else emptySlot := by
  rw [twoEntries, idxAt_setEntry, idxAt_setEntry]
  rfl

theorem sigAt_twoEntries (h : RteHash) (i j : Nat) (p : Pos) : (twoEntries h i j).sigAt p = 0 := by
  rw [twoEntries, sigAt_setEntry, sigAt_setEntry]
  split
  · rfl
  · split <;> rfl

theorem zeroOrOne_twoEntries (h : RteHash) (i j idx : Nat) :
    zeroOrOne ((twoEntries h i j).keyBytes idx) = 0 := by
  refine if_pos (List.all_eq_true.mpr fun x hx => ?_)
  obtain ⟨k, -, rfl⟩ := List.mem_map.mp hx
  rfl

/-- この table は、根を `buckets[0]` とする押し出しの呼び出しの条件を満たす。 -/
theorem moveCall_twoEntries (h : RteHash) {i j : Nat} (hi : i ≤ h.entries) (hj : j ≤ h.entries) :
    MoveCall zeroOrOne (twoEntries h i j) (.root (.main 0) 0) 0 (otherIdx i j) := by
  have hge : 8 ≤ h.entries := h.entries_ge
  obtain ⟨hnei, hnej, hpos, hle⟩ := otherIdx_spec i j
  refine ⟨?_, ?_, rfl, h.numBuckets_pos, by omega, ?_, ?_, ?_⟩
  · intro b _ s hs
    rw [zeroOrOne_twoEntries, sigAt_twoEntries]
    refine ⟨Or.inl ?_, by decide⟩
    rw [(bkts_of_zero h).1]
    rw [idxAt_twoEntries] at hs
    split at hs
    · next he => exact congrArg Prod.fst he
    · split at hs
      · next he => exact congrArg Prod.fst he
      · exact absurd rfl hs
  · intro p
    rw [idxAt_twoEntries]
    split
    · exact hj
    · split
      · exact hi
      · exact Nat.zero_le _
  · intro p _
    rw [idxAt_twoEntries]
    split
    · exact hnej.symm
    · split
      · exact hnei.symm
      · exact fun he => absurd (he.symm.trans rfl) (Nat.ne_of_gt hpos)
  · rw [zeroOrOne_twoEntries]
    exact Or.inl (bkts_of_zero h).1.symm
  · rw [zeroOrOne_twoEntries]
    decide

/-- 最初の entry の key が合うので、その `pdata` が書かれる。 -/
theorem move_twoEntries (h : RteHash) {i : Nat} (hi : 1 ≤ i) (j : Nat) (data : UInt64) :
    cuckooMoveInsertMw (twoEntries h i j) (.main 0) (.main 0) (fun _ => 0) data
        (.root (.main 0) 0) 7 0 (otherIdx i j)
      = (.present ((i : Int) - 1), (twoEntries h i j).setData i data) := by
  have hidx : (twoEntries h i j).idxAt (.main 0, 0) = i := by
    rw [idxAt_twoEntries, if_neg (by decide), if_pos rfl]
  have hleaf : (twoEntries h i j).idxAt (.main 0, 7) = emptySlot := by
    rw [idxAt_twoEntries, if_neg (by decide), if_neg (by decide)]
  have hfind : findEntry (twoEntries h i j) (fun _ => 0) (.main 0) 0 = some 0 := by
    refine findEntry_eq_some.mpr ⟨⟨sigAt_twoEntries h i j _, ?_⟩, fun k hk => ?_⟩
    · funext k
      rfl
    · exact absurd hk (Nat.not_lt_zero _)
  have hsearch : searchAndUpdate (twoEntries h i j) data (fun _ => 0) (.main 0) 0
      = ((i : Int) - 1, (twoEntries h i j).setData i data) := by
    rw [searchAndUpdate, hfind]
    simp only [hidx]
  have hne : ¬ ((i : Int) - 1 = -1) := by omega
  simp only [cuckooMoveInsertMw, QueueNode.bkt, hleaf, checkDup, searchBuckets, hsearch, hne,
    ne_eq, not_true_eq_false, not_false_eq_true, if_true, if_false]

/-- `pdata` が他の slot の key に重なると、その key の entry は置き場所から外れる。 -/
theorem not_wellPlaced_twoEntries {i j x : Nat} (hj : 1 ≤ j) (hle : h.slotOffset i ≤ x)
    (hlt : x < h.slotOffset i + 8) (hkey : h.slotOffset j + 8 ≤ x)
    (hkeylt : x < h.slotOffset j + 8 + h.keyLen) :
    ¬ WellPlaced zeroOrOne ((twoEntries h i j).setData i 0xFFFFFFFFFFFFFFFF) := by
  intro hw
  have hidx : ((twoEntries h i j).setData i 0xFFFFFFFFFFFFFFFF).idxAt (.main 0, 1) = j := by
    rw [(dataOnly_setData _ i _).idxAt, idxAt_twoEntries, if_pos rfl]
  -- 重なった byte は 0 でなくなる
  have hones : ∀ k, k < 8 → Mem.byteOf (0xFFFFFFFFFFFFFFFF : UInt64).toNat k ≠ 0 := by decide
  have hbyte : ((twoEntries h i j).setData i 0xFFFFFFFFFFFFFFFF).keyStore x ≠ 0 := by
    show Mem.write _ _ _ _ x ≠ 0
    rw [Mem.write, if_pos ⟨hle, hlt⟩]
    exact hones _ (by omega)
  have hmem : ((twoEntries h i j).setData i 0xFFFFFFFFFFFFFFFF).keyStore x
      ∈ ((twoEntries h i j).setData i 0xFFFFFFFFFFFFFFFF).keyBytes j := by
    refine List.mem_map.mpr ⟨x - (h.slotOffset j + 8), List.mem_range.mpr (by omega), ?_⟩
    rw [Nat.add_sub_cancel' hkey]
  have hhash : zeroOrOne (((twoEntries h i j).setData i 0xFFFFFFFFFFFFFFFF).keyBytes j)
      = 0x10000 := by
    refine if_neg fun hall => hbyte ?_
    exact beq_iff_eq.mp (List.all_eq_true.mp hall _ hmem)
  have hsig := (hw 0 h.numBuckets_pos 1 (by rw [hidx]; exact Nat.ne_of_gt hj)).2
  rw [hidx, hhash, (dataOnly_setData _ i _).sigAt, sigAt_twoEntries] at hsig
  exact absurd hsig (by decide)

/-! ## 全体の定理 -/

/--
**押し出しは entry を失わず増やさない。置き場所の条件が保たれるのは slot が重ならない設定に限る。**

* どの設定でも、どんな path でも、空でない entry の multiset は、成功すれば新しい entry の
  ぶんだけ増え、諦めたときも重複が見つかったときも変わらない
* どの呼び出しも置き場所の条件を保つことと、どの slot の `pdata` もどの slot の key とも
  重ならないこととは同じである
-/
theorem cuckooMoveInsertMw_displaces (h : RteHash) :
    (∀ (hash : List UInt8 → UInt32) (t : Table h) (leaf : QueueNode) (sig : UInt16) (newIdx : Nat)
        (bkt altBkt : BktRef) (key : Key) (data : UInt64) (leafSlot : Fin bucketEntries),
      MoveCall hash t leaf sig newIdx →
      let r := cuckooMoveInsertMw t bkt altBkt key data leaf leafSlot sig newIdx
      r.2.entries = r.1.entriesAfter sig newIdx t.entries) ∧
    ((∀ (hash : List UInt8 → UInt32) (t : Table h) (leaf : QueueNode) (sig : UInt16) (newIdx : Nat)
        (bkt altBkt : BktRef) (key : Key) (data : UInt64) (leafSlot : Fin bucketEntries),
      MoveCall hash t leaf sig newIdx →
      WellPlaced hash (cuckooMoveInsertMw t bkt altBkt key data leaf leafSlot sig newIdx).2) ↔
      h.SlotsApart) := by
  refine ⟨fun _ _ _ _ _ bkt altBkt key data leafSlot hc => hc.entries bkt altBkt key data leafSlot,
    fun hall => ?_, fun happ _ _ _ _ _ bkt altBkt key data leafSlot hc =>
      hc.wellPlaced happ bkt altBkt key data leafSlot⟩
  intro i j hi hile hj hjle x hle hlt hkey hkeylt
  have hw := hall _ _ _ _ _ (.main 0) (.main 0) (fun _ => 0) 0xFFFFFFFFFFFFFFFF 7
    (moveCall_twoEntries h hile hjle)
  rw [move_twoEntries h hi j] at hw
  exact not_wellPlaced_twoEntries hj hle hlt hkey hkeylt hw

/-- key が 8 byte なら slot は 16 byte で、折り返しても `pdata` が key に重なることはない。 -/
theorem slotsApart_of_keyLen_eight (hlen : h.keyLen = 8) : h.SlotsApart := by
  intro i j _ _ _ _ x hle hlt hkey hkeylt
  have hi := slotOffset_mod h i
  have hj := slotOffset_mod h j
  omega

/-- 0 番と 1 番の bucket の先頭に、signature が 1 の entry が一つずつある table。 -/
def onePerBucket : Table tenKeys :=
  ((Table.init tenKeys fun _ => 0).setEntry (.main 0, 0) 1 1).setEntry (.main 1, 0) 1 2

/-- 0 番の bucket から 1 番を通って 0 番に戻る path。 -/
def turningPath : QueueNode := .child (.main 0) 0 (.child (.main 1) 1 (.root (.main 0) 0) 0) 0

theorem idxAt_onePerBucket (p : Pos) : onePerBucket.idxAt p
    = if p = (.main 1, 0) then 2 else if p = (.main 0, 0) then 1 else emptySlot := by
  rw [onePerBucket, idxAt_setEntry, idxAt_setEntry]
  rfl

/-- 二つの bucket は、互いの行き先である。 -/
theorem moveCall_turningPath : MoveCall (fun _ => 0x10000) onePerBucket turningPath 1 3 where
  placed := by
    intro b _ i hi
    rw [idxAt_onePerBucket] at hi
    split at hi
    · next he =>
      obtain ⟨hb, rfl⟩ := Prod.mk.inj he
      obtain rfl := BktRef.main.inj hb
      exact ⟨Or.inr (by decide), by decide⟩
    · split at hi
      · next he =>
        obtain ⟨hb, rfl⟩ := Prod.mk.inj he
        obtain rfl := BktRef.main.inj hb
        exact ⟨Or.inl (by decide), by decide⟩
      · exact absurd rfl hi
  idx_le := by
    intro p
    rw [idxAt_onePerBucket]
    split
    · decide
    · split <;> decide
  nodes := ⟨rfl, rfl, rfl⟩
  inBuckets := by
    have h0 : (0 : UInt32).toNat < tenKeys.numBuckets := by decide
    have h1 : (1 : UInt32).toNat < tenKeys.numBuckets := by decide
    exact ⟨h0, h1, h0⟩
  newIdx_le := by decide
  fresh := by
    intro p _
    rw [idxAt_onePerBucket]
    split
    · decide
    · split <;> decide
  root := Or.inl (by decide)
  sig_eq := by decide

/-- 二つの entry を path に沿って押し出し、root の空きに新しい entry を書く。 -/
theorem cuckooMoveInsertMw_displaces_turning :
    let r := cuckooMoveInsertMw onePerBucket (.main 0) (.main 1) (fun _ => 5) 7 turningPath 1 1 3
    r.1 = .inserted ∧ r.2.idxAt (.main 0, 1) = 2 ∧ r.2.idxAt (.main 1, 0) = 1 ∧
      r.2.idxAt (.main 0, 0) = 3 ∧ r.2.entries = (1, 3) ::ₘ onePerBucket.entries ∧
      WellPlaced (fun _ => 0x10000) r.2 := by
  intro r
  have hret : r.1 = .inserted := by decide
  obtain ⟨hentries, hplaced⟩ := cuckooMoveInsertMw_displaces tenKeys
  have he : r.2.entries = r.1.entriesAfter 1 3 onePerBucket.entries :=
    hentries _ _ _ _ _ (.main 0) (.main 1) (fun _ => 5) 7 1 moveCall_turningPath
  have hw : WellPlaced (fun _ => 0x10000) r.2 :=
    hplaced.mpr (slotsApart_of_keyLen_eight rfl) _ _ _ _ _ (.main 0) (.main 1) (fun _ => 5) 7 1
      moveCall_turningPath
  rw [hret] at he
  exact ⟨hret, by decide, by decide, by decide, he, hw⟩

/-- `em_l3f.c` の `ipv6_5tuple` と同じ、37 byte の key の table。 -/
def ipv6Keys : RteHash :=
  { eightKeys with
    entries := 1024 * 1024
    keyLen := 37
    entries_ge := by decide
    entries_le := by decide
    keyLen_pos := by decide
    keyLen_lt := by decide }

/-- key が 37 byte で、entry が 89478486 個の table。最後の slot は折り返して 32 byte 目にある。 -/
def manyLongKeys : RteHash :=
  { ipv6Keys with
    entries := 89478486
    entries_ge := by decide
    entries_le := by decide }

/-- slot 1 の key と同じ key を入れると、その `pdata` が最後の slot の key を壊す。 -/
theorem cuckooMoveInsertMw_misplaces :
    MoveCall zeroOrOne (twoEntries manyLongKeys 1 89478486) (.root (.main 0) 0) 0 2 ∧
      ¬ WellPlaced zeroOrOne (cuckooMoveInsertMw (twoEntries manyLongKeys 1 89478486) (.main 0)
        (.main 0) (fun _ => 0) 0xFFFFFFFFFFFFFFFF (.root (.main 0) 0) 7 0 2).2 := by
  refine ⟨moveCall_twoEntries manyLongKeys (by decide) (by decide), fun hw => ?_⟩
  have hmove := move_twoEntries manyLongKeys (i := 1) (by decide) 89478486 0xFFFFFFFFFFFFFFFF
  have hother : otherIdx 1 89478486 = 2 := by decide
  rw [hother] at hmove
  rw [hmove] at hw
  exact not_wellPlaced_twoEntries (x := 48) (by decide) (by decide) (by decide) (by decide)
    (by decide) hw

end L3fwd.Hash
