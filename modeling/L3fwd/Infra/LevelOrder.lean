import Mathlib.Algebra.Order.Ring.Nat
import Mathlib.Tactic.Ring
import Mathlib.Tactic.Linarith

/-!
# 完全 n 分木の幅優先の番号

根からの枝の選び方を、最後の枝を先頭に置いた列で表す。
各 node の子を順に queue の末尾へ足していく探索では、node が queue に入る位置は
この列だけで決まる。短い列ほど小さい番号を持つ（`position_lt_of_length_lt`）。
-/

namespace Infra

/-- 枝の列が指す node の、幅優先の順での番号。 -/
def position {n : Nat} : List (Fin n) → Nat
  | [] => 0
  | s :: ss => n * position ss + s.val + 1

/-- 番号から枝の列を戻す。 -/
def pathAt (n : Nat) [NeZero n] : Nat → List (Fin n)
  | 0 => []
  | m + 1 =>
    have : m / n < m + 1 := Nat.lt_succ_of_le (Nat.div_le_self m n)
    ⟨m % n, Nat.mod_lt m (Nat.pos_of_ne_zero (NeZero.ne n))⟩ :: pathAt n (m / n)

variable {n : Nat}

theorem pathAt_succ [NeZero n] (m : Nat) :
    pathAt n (m + 1)
      = ⟨m % n, Nat.mod_lt m (Nat.pos_of_ne_zero (NeZero.ne n))⟩ :: pathAt n (m / n) := by
  rw [pathAt]

/-- 枝の列と番号は一対一に対応する。 -/
theorem pathAt_position [NeZero n] (ss : List (Fin n)) : pathAt n (position ss) = ss := by
  induction ss with
  | nil => rw [position, pathAt]
  | cons s ss ih =>
    have hmod : (n * position ss + s.val) % n = s.val := by
      rw [Nat.mul_add_mod, Nat.mod_eq_of_lt s.isLt]
    have hdiv : (n * position ss + s.val) / n = position ss := by
      rw [Nat.mul_add_div (Nat.pos_of_ne_zero (NeZero.ne n)), Nat.div_eq_of_lt s.isLt, Nat.add_zero]
    rw [position, pathAt_succ]
    simp only [hmod, hdiv, ih]

theorem position_pathAt [NeZero n] (m : Nat) : position (pathAt n m) = m := by
  induction m using Nat.strong_induction_on with
  | _ m ih =>
    cases m with
    | zero => rw [pathAt, position]
    | succ m =>
      rw [pathAt_succ, position, ih (m / n) (Nat.lt_succ_of_le (Nat.div_le_self m n)),
        Nat.div_add_mod]

/-- 深さ `d` の番号は `[(n^d - 1) / (n - 1), (n^(d+1) - 1) / (n - 1))` にある。 -/
theorem position_bounds {k : Nat} (ss : List (Fin (k + 1))) :
    (k + 1) ^ ss.length ≤ k * position ss + 1 ∧
      k * position ss + (k + 1) ≤ (k + 1) ^ (ss.length + 1) := by
  induction ss with
  | nil => simp [position]
  | cons s ss ih =>
    obtain ⟨hlow, hhigh⟩ := ih
    have hs : k * s.val ≤ k * k := Nat.mul_le_mul_left k (Nat.lt_succ_iff.mp s.isLt)
    have hexp : k * position (s :: ss) = (k + 1) * (k * position ss) + k * s.val + k := by
      rw [position]
      ring
    rw [hexp, List.length_cons]
    constructor
    · calc (k + 1) ^ (ss.length + 1) = (k + 1) * (k + 1) ^ ss.length := by ring
        _ ≤ (k + 1) * (k * position ss + 1) := Nat.mul_le_mul_left _ hlow
        _ ≤ _ := by linarith [Nat.zero_le (k * s.val)]
    · calc (k + 1) * (k * position ss) + k * s.val + k + (k + 1)
          ≤ (k + 1) * (k * position ss) + k * k + k + (k + 1) := by linarith
        _ = (k + 1) * (k * position ss + (k + 1)) := by ring
        _ ≤ (k + 1) * (k + 1) ^ (ss.length + 1) := Nat.mul_le_mul_left _ hhigh
        _ = (k + 1) ^ (ss.length + 1 + 1) := by ring

/-- **浅い node ほど先に来る。** -/
theorem position_lt_of_length_lt {k : Nat} (hk : 0 < k) {ss ss' : List (Fin (k + 1))}
    (hlen : ss.length < ss'.length) : position ss < position ss' := by
  have hhigh := (position_bounds ss).2
  have hlow := (position_bounds ss').1
  have hpow : (k + 1) ^ (ss.length + 1) ≤ (k + 1) ^ ss'.length :=
    Nat.pow_le_pow_right (Nat.succ_pos k) hlen
  refine lt_of_mul_lt_mul_left ?_ (Nat.zero_le k)
  omega

end Infra
