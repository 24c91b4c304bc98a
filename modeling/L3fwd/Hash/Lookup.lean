import L3fwd.Hash.Insert

/-!
# 重複の検査

`search_and_update` は、signature と key が合う最初の entry の data を書き換える。
変わるのは slot の `pdata` だけで、bucket も ring も、比較される key の byte も変わらない。

返り値が -1 になるのは二つの場合である。合う entry が無いか、合った最初の entry が空で、
dummy の slot 0 の key が合ってしまったとき。後者ではその bucket の残りは調べられない。
-/

namespace L3fwd.Hash

open Infra Table

variable {h : RteHash} {t t' : Table h}

/-! ## slot の位置 -/

theorem slotOffset_mod (h : RteHash) (idx : Nat) : h.slotOffset idx % 16 = 0 := by
  have hsize : h.keyEntrySize % 16 = 0 := by
    unfold RteHash.keyEntrySize
    omega
  have hprod : idx * h.keyEntrySize % 16 = 0 := by
    rw [Nat.mul_mod, hsize, Nat.mul_zero, Nat.zero_mod]
  unfold RteHash.slotOffset
  omega

theorem slotOffset_emptySlot (h : RteHash) : h.slotOffset emptySlot = 0 := by
  rw [RteHash.slotOffset, Nat.zero_mul, Nat.zero_mod]

/-- 比較される 8 byte。 -/
abbrev Key8 := Fin 8 → UInt8

def key8 (key : Key) : Key8 := fun j => key j

theorem cmpEq_iff {key : Key} {idx : Nat} :
    t.cmpEq key idx = true ↔ t.storedKey idx = key8 key := by
  unfold cmpEq storedKey key8
  rw [List.all_eq_true]
  constructor
  · intro hall
    funext j
    have := hall j.val (List.mem_range.mpr j.isLt)
    exact (beq_iff_eq.mp this).symm
  · intro heq j hj
    rw [List.mem_range] at hj
    exact beq_iff_eq.mpr (congrFun heq ⟨j, hj⟩).symm

/-- `pdata` への書き込みは、どの slot の key も変えない。折り返しがあっても 16 byte の区切りは保たれる。 -/
@[simp] theorem storedKey_setData (t : Table h) (idx : Nat) (data : UInt64) (j : Nat) :
    (t.setData idx data).storedKey j = t.storedKey j := by
  funext k
  have h1 := slotOffset_mod h idx
  have h2 := slotOffset_mod h j
  have hk := k.isLt
  exact Mem.write_outside (by omega)

/-- 同じ data を二度書いても同じである。 -/
theorem setData_setData (t : Table h) (idx : Nat) (data : UInt64) :
    (t.setData idx data).setData idx data = t.setData idx data := by
  have hmem : ∀ (m : Mem) (a n v : Nat), (m.store a n v).store a n v = m.store a n v := by
    intro m a n v
    funext x
    simp only [Mem.store, Mem.write]
    split <;> rfl
  simp only [setData, hmem]

/-! ## 探索で変わるもの -/

/-- 探索の前後。bucket も ring も key も同じで、data だけが変わりうる。 -/
structure DataOnly (t t' : Table h) : Prop where
  bkts : t'.bkts = t.bkts
  freeSlots : t'.freeSlots = t.freeSlots
  freeExtBkts : t'.freeExtBkts = t.freeExtBkts
  storedKey : ∀ idx, t'.storedKey idx = t.storedKey idx

theorem DataOnly.refl (t : Table h) : DataOnly t t := ⟨rfl, rfl, rfl, fun _ => rfl⟩

theorem DataOnly.trans {t'' : Table h} (h1 : DataOnly t t') (h2 : DataOnly t' t'') :
    DataOnly t t'' :=
  ⟨h2.bkts.trans h1.bkts, h2.freeSlots.trans h1.freeSlots, h2.freeExtBkts.trans h1.freeExtBkts,
    fun idx => (h2.storedKey idx).trans (h1.storedKey idx)⟩

theorem dataOnly_setData (t : Table h) (idx : Nat) (data : UInt64) :
    DataOnly t (t.setData idx data) :=
  ⟨rfl, rfl, rfl, fun j => storedKey_setData t idx data j⟩

theorem DataOnly.idxAt (hd : DataOnly t t') : t'.idxAt = t.idxAt := idxAt_congr hd.bkts

theorem DataOnly.sigAt (hd : DataOnly t t') : t'.sigAt = t.sigAt := sigAt_congr hd.bkts

theorem DataOnly.nextOf (hd : DataOnly t t') : t'.nextOf = t.nextOf := nextOf_congr hd.bkts

theorem DataOnly.chain (hd : DataOnly t t') (fuel : Nat) (b : BktRef) :
    t'.chain fuel b = t.chain fuel b := chain_congr hd.nextOf fuel b

/-- 合う entry は、bucket と key で決まる。 -/
theorem findEntry_congr (hb : t'.bkts = t.bkts) (hk : ∀ idx, t'.storedKey idx = t.storedKey idx)
    (key : Key) (b : BktRef) (sig : UInt16) :
    findEntry t' key b sig = findEntry t key b sig := by
  have hcmp : ∀ idx, t'.cmpEq key idx = t.cmpEq key idx := fun idx => by
    rw [Bool.eq_iff_iff, cmpEq_iff, cmpEq_iff, hk]
  unfold findEntry
  simp only [hb, hcmp]

theorem DataOnly.findEntry (hd : DataOnly t t') (key : Key) (b : BktRef) (sig : UInt16) :
    findEntry t' key b sig = findEntry t key b sig := findEntry_congr hd.bkts hd.storedKey key b sig

/-! ## 一つの bucket -/

/-- 見つかった entry は signature と key が合い、それより前の entry は合わない。 -/
theorem findEntry_eq_some {key : Key} {b : BktRef} {sig : UInt16} {i : Fin bucketEntries} :
    findEntry t key b sig = some i ↔
      (t.sigAt (b, i) = sig ∧ t.storedKey (t.idxAt (b, i)) = key8 key) ∧
        ∀ j, j < i → ¬ (t.sigAt (b, j) = sig ∧ t.storedKey (t.idxAt (b, j)) = key8 key) := by
  have hmatch : ∀ i, (((t.bkts b).sigCurrent i == sig && t.cmpEq key ((t.bkts b).keyIdx i)) = true ↔
      (t.sigAt (b, i) = sig ∧ t.storedKey (t.idxAt (b, i)) = key8 key)) := fun i => by
    rw [Bool.and_eq_true, beq_iff_eq, cmpEq_iff]
    rfl
  rw [findEntry, find?_finRange_eq_some]
  simp only [← Bool.not_eq_true, hmatch]

theorem searchAndUpdate_cases (t : Table h) (data : UInt64) (key : Key) (b : BktRef)
    (sig : UInt16) :
    (searchAndUpdate t data key b sig = (-1, t) ∧ findEntry t key b sig = none) ∨
    ∃ i, findEntry t key b sig = some i ∧
      searchAndUpdate t data key b sig
        = ((t.idxAt (b, i) : Int) - 1, t.setData (t.idxAt (b, i)) data) := by
  unfold searchAndUpdate
  cases hf : findEntry t key b sig with
  | none => exact Or.inl ⟨rfl, rfl⟩
  | some i => exact Or.inr ⟨i, rfl, rfl⟩

/-! ## bucket の列 -/

/-- 列のどれかの bucket で、最初に合う entry が空でない。 -/
def Hit (t : Table h) (key : Key) (sig : UInt16) (bs : List BktRef) (p : Pos) : Prop :=
  p.1 ∈ bs ∧ findEntry t key p.1 sig = some p.2 ∧ t.idxAt p ≠ emptySlot

theorem Hit.sig {key : Key} {sig : UInt16} {bs : List BktRef} {p : Pos}
    (hh : Hit t key sig bs p) : t.sigAt p = sig := (findEntry_eq_some.mp hh.2.1).1.1

theorem Hit.storedKey {key : Key} {sig : UInt16} {bs : List BktRef} {p : Pos}
    (hh : Hit t key sig bs p) : t.storedKey (t.idxAt p) = key8 key :=
  (findEntry_eq_some.mp hh.2.1).1.2

/--
**列の探索でできること。**

返り値が -1 なら、どの bucket でも最初に合う entry は空であり、書かれたのは slot 0 の data だけである。
そうでなければ、ある bucket の空でない entry が合い、その番号が返り、その data が書かれている。
-/
theorem searchBuckets_cases (data : UInt64) (key : Key) (sig : UInt16) :
    ∀ (bs : List BktRef) (t : Table h),
      ((searchBuckets data key sig bs t).1 = -1 ∧ (∀ p, ¬ Hit t key sig bs p) ∧
        ((searchBuckets data key sig bs t).2 = t ∨
          (searchBuckets data key sig bs t).2 = t.setData emptySlot data)) ∨
      ∃ p, Hit t key sig bs p ∧ (searchBuckets data key sig bs t).1 = (t.idxAt p : Int) - 1 ∧
        ((searchBuckets data key sig bs t).2 = t.setData (t.idxAt p) data ∨
          (searchBuckets data key sig bs t).2
            = (t.setData emptySlot data).setData (t.idxAt p) data) := by
  intro bs
  induction bs with
  | nil =>
    intro t
    exact Or.inl ⟨rfl, fun p hp => absurd hp.1 List.not_mem_nil, Or.inl rfl⟩
  | cons b bs ih =>
    intro t
    have hrest : ∀ p, Hit t key sig bs p → Hit t key sig (b :: bs) p := fun p hp =>
      ⟨List.mem_cons_of_mem b hp.1, hp.2⟩
    rcases searchAndUpdate_cases t data key b sig with ⟨hr, hnone⟩ | ⟨i, hsome, hr⟩
    · -- この bucket には無い
      rw [searchBuckets, hr, if_neg (by simp)]
      rcases ih t with ⟨hneg, hno, hst⟩ | ⟨p, hp, hrest'⟩
      · refine Or.inl ⟨hneg, ?_, hst⟩
        rintro p ⟨hmem, hfind, hne⟩
        rcases List.mem_cons.mp hmem with hpb | hpbs
        · rw [hpb, hnone] at hfind
          cases hfind
        · exact hno p ⟨hpbs, hfind, hne⟩
      · exact Or.inr ⟨p, hrest p hp, hrest'⟩
    · by_cases hzero : t.idxAt (b, i) = emptySlot
      · -- 空の entry が合った。slot 0 の data を書いて、次の bucket へ進む
        have hd := dataOnly_setData t emptySlot data
        rw [searchBuckets, hr, hzero, if_neg (by simp)]
        rcases ih (t.setData emptySlot data) with
          ⟨hneg, hno, hst⟩ | ⟨p, hp, hret, hst⟩
        · refine Or.inl ⟨hneg, ?_, Or.inr ?_⟩
          · rintro p ⟨hmem, hfind, hne⟩
            rcases List.mem_cons.mp hmem with hpb | hpbs
            · rw [hpb, hsome, Option.some.injEq] at hfind
              rw [show p = (b, i) from Prod.ext hpb hfind.symm] at hne
              exact hne hzero
            · exact hno p ⟨hpbs, by rw [hd.findEntry]; exact hfind, hne⟩
          · rcases hst with hst | hst
            · exact hst
            · rw [hst, setData_setData]
        · refine Or.inr ⟨p, hrest p ⟨hp.1, by rw [← hd.findEntry]; exact hp.2.1, hp.2.2⟩, hret, ?_⟩
          rcases hst with hst | hst
          · exact Or.inr hst
          · rw [setData_setData] at hst
            exact Or.inr hst
      · have hne : (t.idxAt (b, i) : Int) - 1 ≠ -1 := by
          have : t.idxAt (b, i) ≠ 0 := hzero
          omega
        rw [searchBuckets, hr, if_pos hne]
        exact Or.inr ⟨(b, i), ⟨List.mem_cons_self, hsome, hzero⟩, rfl, Or.inl rfl⟩

end L3fwd.Hash
