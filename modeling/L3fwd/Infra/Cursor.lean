import Mathlib.Data.Nat.ModEq
import Mathlib.Tactic.Linarith

/-!
# 周回する cursor

長さ `n` の配列を先頭から順にたどり、端まで来たら 0 に戻って向きの bit を反転する。
sense reversal 方式の queue は、書き手も読み手もこの cursor を一つ持つ。

`Cursor.after c k` は `c` を `k` 回進めた cursor の閉じた形である。
queue の証明はすべて通し番号 `k` の上で行い、配列の index と bit には
`after_idx_inj`（一周未満の中では index が重ならない）と
`after_add_lap`（一周後は同じ index で bit だけが逆になる）を通してだけ触れる。
-/

namespace Infra

/-- 配列の index と、いま何周目かの偶奇。 -/
structure Cursor (n : Nat) where
  idx : Fin n
  sense : Bool
  deriving DecidableEq

namespace Cursor

variable {n : Nat} [NeZero n]

/-- 一つ進める。端なら 0 に戻して bit を反転する。 -/
def next (c : Cursor n) : Cursor n :=
  if h : c.idx.val + 1 < n then { c with idx := ⟨c.idx.val + 1, h⟩ }
  else { idx := 0, sense := !c.sense }

/-- `k` 回進めた cursor。 -/
def after (c : Cursor n) (k : Nat) : Cursor n where
  idx := ⟨(c.idx.val + k) % n, Nat.mod_lt _ (Nat.pos_of_ne_zero (NeZero.ne n))⟩
  sense := c.sense ^^ decide ((c.idx.val + k) / n % 2 = 1)

@[simp] theorem after_idx_val (c : Cursor n) (k : Nat) :
    (c.after k).idx.val = (c.idx.val + k) % n := rfl

@[simp] theorem after_zero (c : Cursor n) : c.after 0 = c := by
  have hlt : c.idx.val < n := c.idx.isLt
  cases c with
  | mk i b => simp [after, Nat.div_eq_of_lt hlt, Nat.mod_eq_of_lt hlt]

/-- 閉じた形は一つ進める操作と合う。 -/
theorem after_succ (c : Cursor n) (k : Nat) : c.after (k + 1) = (c.after k).next := by
  have hpos : 0 < n := Nat.pos_of_ne_zero (NeZero.ne n)
  have hdm := Nat.div_add_mod (c.idx.val + k) n
  have hmod := Nat.mod_lt (c.idx.val + k) hpos
  unfold next
  by_cases h : (c.idx.val + k) % n + 1 < n
  · have hq : (c.idx.val + (k + 1)) / n = (c.idx.val + k) / n :=
      Nat.div_eq_of_lt_le (by rw [Nat.mul_comm]; omega) (by rw [Nat.add_mul, Nat.mul_comm]; omega)
    have hr : (c.idx.val + (k + 1)) % n = (c.idx.val + k) % n + 1 := by
      have hdm' := Nat.div_add_mod (c.idx.val + (k + 1)) n
      rw [hq] at hdm'
      omega
    rw [dif_pos (show (c.after k).idx.val + 1 < n from h)]
    simp [after, hq, hr]
  · have hq : (c.idx.val + (k + 1)) / n = (c.idx.val + k) / n + 1 :=
      Nat.div_eq_of_lt_le (by rw [Nat.add_mul, Nat.mul_comm]; omega)
        (by rw [Nat.add_mul, Nat.add_mul, Nat.mul_comm]; omega)
    have hr : (c.idx.val + (k + 1)) % n = 0 := by
      have hdm' := Nat.div_add_mod (c.idx.val + (k + 1)) n
      rw [hq, Nat.mul_add] at hdm'
      omega
    rw [dif_neg (show ¬(c.after k).idx.val + 1 < n from h)]
    have hpar : decide (((c.idx.val + k) / n + 1) % 2 = 1)
        = !decide ((c.idx.val + k) / n % 2 = 1) := by
      rcases Nat.mod_two_eq_zero_or_one ((c.idx.val + k) / n) with he | he <;>
        simp [Nat.add_mod, he]
    simp [after, hq, hr, hpar]

/-- 一周に満たない二つの通し番号が同じ index に来たなら、同じ番号である。 -/
theorem after_idx_inj {c : Cursor n} {p q : Nat} (hpq : p ≤ q) (hlt : q < p + n)
    (h : (c.after p).idx = (c.after q).idx) : p = q := by
  have hmod : (c.idx.val + p) % n = (c.idx.val + q) % n := congrArg Fin.val h
  have hdvd : n ∣ (c.idx.val + q) - (c.idx.val + p) :=
    (Nat.modEq_iff_dvd' (by omega)).mp hmod
  obtain ⟨k, hk⟩ := hdvd
  rcases Nat.eq_zero_or_pos k with rfl | hkpos
  · omega
  · have : n ≤ n * k := Nat.le_mul_of_pos_right n hkpos
    omega

/-- 一周後は同じ index で、bit だけが逆になる。 -/
theorem after_add_lap (c : Cursor n) (k : Nat) :
    c.after (k + n) = { c.after k with sense := !(c.after k).sense } := by
  have hpos : 0 < n := Nat.pos_of_ne_zero (NeZero.ne n)
  have hq : (c.idx.val + (k + n)) / n = (c.idx.val + k) / n + 1 := by
    rw [← Nat.add_assoc, Nat.add_div_right _ hpos]
  have hr : (c.idx.val + (k + n)) % n = (c.idx.val + k) % n := by
    rw [← Nat.add_assoc, Nat.add_mod_right]
  have hpar : decide (((c.idx.val + k) / n + 1) % 2 = 1)
      = !decide ((c.idx.val + k) / n % 2 = 1) := by
    rcases Nat.mod_two_eq_zero_or_one ((c.idx.val + k) / n) with he | he <;>
      simp [Nat.add_mod, he]
  simp [after, hq, hr, hpar]

end Cursor

end Infra
