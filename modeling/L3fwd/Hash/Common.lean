import Mathlib.Data.Nat.Size
import Mathlib.Data.Nat.Bitwise
import Mathlib.Data.List.FinRange

/-!
# 2 の冪への切り上げと走査

`rte_lib/include/rte_common.h` の `rte_combine32ms1b` と `rte_align32pow2`。

最上位の bit を下へ塗り広げる操作は、一段ごとに「`k` 個上の bit も見る」ことに当たる。
五段で 32 個の bit をすべて見るので、結果は 2 の冪から 1 を引いたものになる。
-/

namespace L3fwd.Hash

/-- `rte_combine32ms1b`。 -/
def rteCombine32ms1b (x : UInt32) : UInt32 :=
  let x := x ||| x >>> 1
  let x := x ||| x >>> 2
  let x := x ||| x >>> 4
  let x := x ||| x >>> 8
  x ||| x >>> 16

/-- `rte_align32pow2`。 -/
def rteAlign32pow2 (x : UInt32) : UInt32 := rteCombine32ms1b (x - 1) + 1

/-- bit `i` から `n` 個のどれかが立っている。 -/
def anyBit (x i n : Nat) : Prop := ∃ j, j < n ∧ x.testBit (i + j) = true

theorem anyBit_one {x i : Nat} : anyBit x i 1 ↔ x.testBit i = true := by
  constructor
  · rintro ⟨j, hj, hbit⟩
    obtain rfl : j = 0 := by omega
    exact hbit
  · intro hbit
    exact ⟨0, Nat.one_pos, hbit⟩

/-- 一段ごとに、見る bit の数が倍になる。 -/
theorem anyBit_double {x y n : Nat} (h : ∀ i, y.testBit i = true ↔ anyBit x i n) (i : Nat) :
    (y ||| y >>> n).testBit i = true ↔ anyBit x i (n + n) := by
  rw [Nat.testBit_or, Nat.testBit_shiftRight, Bool.or_eq_true, h, h]
  constructor
  · rintro (⟨j, hj, hbit⟩ | ⟨j, hj, hbit⟩)
    · exact ⟨j, by omega, hbit⟩
    · refine ⟨n + j, by omega, ?_⟩
      rwa [show i + (n + j) = n + i + j by omega]
  · rintro ⟨j, hj, hbit⟩
    by_cases hlt : j < n
    · exact Or.inl ⟨j, hlt, hbit⟩
    · refine Or.inr ⟨j - n, by omega, ?_⟩
      rwa [show n + i + (j - n) = i + j by omega]

theorem rteCombine32ms1b_testBit (x : UInt32) (i : Nat) :
    (rteCombine32ms1b x).toNat.testBit i = true ↔ anyBit x.toNat i 32 := by
  have h1 := anyBit_double fun i => (anyBit_one (x := x.toNat) (i := i)).symm
  have h2 := anyBit_double h1
  have h4 := anyBit_double h2
  have h8 := anyBit_double h4
  have h16 := anyBit_double h8
  simp only [rteCombine32ms1b, UInt32.toNat_or, UInt32.toNat_shiftRight]
  exact h16 i

/-- 下位 32 bit に収まる数では、どれかの上の bit が立つことと、その bit 以上であることは同じである。 -/
theorem anyBit_iff_le {x i : Nat} (hx : x < 2 ^ 32) : anyBit x i 32 ↔ 2 ^ i ≤ x := by
  constructor
  · rintro ⟨j, -, hbit⟩
    exact (Nat.pow_le_pow_right (by decide) (Nat.le_add_right i j)).trans
      (Nat.ge_two_pow_of_testBit hbit)
  · intro hle
    obtain ⟨k, hik, hbit⟩ := Nat.exists_ge_and_testBit_of_ge_two_pow hle
    have hk : k < 32 := by
      by_contra hge
      have h1 := Nat.ge_two_pow_of_testBit hbit
      have h2 : 2 ^ 32 ≤ 2 ^ k := Nat.pow_le_pow_right (by decide) (by omega)
      omega
    exact ⟨k - i, by omega, by rwa [Nat.add_sub_cancel' hik]⟩

theorem rteCombine32ms1b_toNat (x : UInt32) :
    (rteCombine32ms1b x).toNat = 2 ^ x.toNat.size - 1 := by
  refine Nat.eq_of_testBit_eq fun i => ?_
  rw [Nat.testBit_two_pow_sub_one, Bool.eq_iff_iff, rteCombine32ms1b_testBit,
    anyBit_iff_le x.toNat_lt, decide_eq_true_iff, Nat.lt_size]

/-- **`1` 以上 `2^31` 以下の数は、それ以上の最小の 2 の冪に切り上げられる。** -/
theorem rteAlign32pow2_toNat {n : Nat} (h1 : 1 ≤ n) (h2 : n ≤ 2 ^ 31) :
    (rteAlign32pow2 (UInt32.ofNat n)).toNat = 2 ^ (n - 1).size := by
  have hsub : (UInt32.ofNat n - 1).toNat = n - 1 := by
    rw [UInt32.toNat_sub_of_le, UInt32.toNat_ofNat']
    · simp only [UInt32.reduceToNat]
      omega
    · rw [UInt32.le_iff_toNat_le, UInt32.toNat_ofNat']
      simp only [UInt32.reduceToNat]
      omega
  have hsize : (n - 1).size ≤ 31 := Nat.size_le.mpr (by omega)
  have hpow : 2 ^ (n - 1).size ≤ 2 ^ 31 := Nat.pow_le_pow_right (by decide) hsize
  have hpos : 0 < 2 ^ (n - 1).size := Nat.two_pow_pos _
  rw [rteAlign32pow2, UInt32.toNat_add, rteCombine32ms1b_toNat, hsub]
  simp only [UInt32.reduceToNat]
  omega

theorem le_rteAlign32pow2 {n : Nat} (h1 : 1 ≤ n) (h2 : n ≤ 2 ^ 31) :
    n ≤ (rteAlign32pow2 (UInt32.ofNat n)).toNat := by
  have := Nat.lt_size_self (n - 1)
  rw [rteAlign32pow2_toNat h1 h2]
  omega

/-- 8 以上の数を切り上げると 8 で割り切れる。 -/
theorem eight_dvd_rteAlign32pow2 {n : Nat} (h1 : 8 ≤ n) (h2 : n ≤ 2 ^ 31) :
    8 ∣ (rteAlign32pow2 (UInt32.ofNat n)).toNat := by
  have hsize : 3 ≤ (n - 1).size := Nat.lt_size.mpr (by omega)
  rw [rteAlign32pow2_toNat (by omega) h2]
  exact pow_dvd_pow 2 hsize

/-! ## 先頭からの走査 -/

/-- 番号 0 から順に調べて最初に合うもの。 -/
theorem find?_finRange_eq_some {n : Nat} {P : Fin n → Bool} {i : Fin n} :
    (List.finRange n).find? P = some i ↔ P i = true ∧ ∀ j, j < i → P j = false := by
  rw [List.find?_eq_some_iff_getElem]
  constructor
  · rintro ⟨hi, k, hk, hki, hbefore⟩
    simp only [List.getElem_finRange] at hki hbefore
    subst hki
    refine ⟨hi, fun j hj => ?_⟩
    have := hbefore j.val hj
    rw [Bool.not_eq_true'] at this
    exact this
  · rintro ⟨hi, hbefore⟩
    refine ⟨hi, i.val, by simp, by simp, fun k hk => ?_⟩
    simpa using hbefore ⟨k, Nat.lt_trans hk i.isLt⟩ hk

end L3fwd.Hash
