import Mathlib.Algebra.Order.Ring.Nat
import Mathlib.Tactic.Ring

/-!
# byte の memory

番地から byte への全域関数。`memcpy` も固定幅の代入も、範囲への書き込み `Mem.write` である。
整数は little endian で置く。
-/

namespace Infra

/-- byte で番地づけられた memory。 -/
abbrev Mem := Nat → UInt8

/-- 二つの範囲 `[a, a + n)` と `[b, b + k)` は重ならない。 -/
def Apart (a n b k : Nat) : Prop := ∀ x, a ≤ x → x < a + n → b ≤ x → ¬ x < b + k

/-- 重ならない範囲は、縮めても重ならない。 -/
theorem Apart.mono {a n b k a' n' b' k' : Nat} (h : Apart a n b k) (ha : a ≤ a')
    (hn : a' + n' ≤ a + n) (hb : b ≤ b') (hk : b' + k' ≤ b + k) : Apart a' n' b' k' :=
  fun x hx hlt hx' hlt' => h x (ha.trans hx) (lt_of_lt_of_le hlt hn) (hb.trans hx')
    (lt_of_lt_of_le hlt' hk)

namespace Mem

variable {m : Mem} {a b n k i : Nat} {f : Nat → UInt8}

/-- `[a, a + n)` に `f 0, f 1, …` を書く。 -/
def write (m : Mem) (a n : Nat) (f : Nat → UInt8) : Mem :=
  fun x => if a ≤ x ∧ x < a + n then f (x - a) else m x

/-- `memcpy(dst, src, n)`。 -/
def memcpy (m : Mem) (dst src n : Nat) : Mem := m.write dst n fun i => m (src + i)

/-- `v` の下から `i` 番目の byte。 -/
def byteOf (v i : Nat) : UInt8 := UInt8.ofNat (v / 256 ^ i)

/-- `n` byte の整数を置く。 -/
def store (m : Mem) (a n v : Nat) : Mem := m.write a n (byteOf v)

/-- `n` byte の整数を読む。 -/
def load (m : Mem) (a : Nat) : Nat → Nat
  | 0 => 0
  | n + 1 => (m a).toNat + 256 * load m (a + 1) n

theorem write_inside (h : i < n) : m.write a n f (a + i) = f i := by
  rw [write, if_pos ⟨by omega, by omega⟩, Nat.add_sub_cancel_left]

theorem write_outside {x : Nat} (h : x < a ∨ a + n ≤ x) : m.write a n f x = m x := by
  rw [write, if_neg (by omega)]

/-- 重ならない範囲への書き込みは見えない。 -/
theorem write_apart (h : Apart a n b k) (hi : i < k) : m.write a n f (b + i) = m (b + i) := by
  refine if_neg ?_
  rintro ⟨hle, hlt⟩
  exact h (b + i) hle hlt (by omega) (by omega)

/-- 読み出しは範囲の中だけで決まる。 -/
theorem load_congr {m' : Mem} {n a : Nat} (h : ∀ i, i < n → m (a + i) = m' (a + i)) :
    m.load a n = m'.load a n := by
  induction n generalizing a with
  | zero => rfl
  | succ n ih =>
    have hrest : m.load (a + 1) n = m'.load (a + 1) n := by
      refine ih fun i hi => ?_
      have := h (i + 1) (by omega)
      rwa [show a + (i + 1) = a + 1 + i by ring] at this
    have hhead : m a = m' a := h 0 (by omega)
    rw [load, load, hhead, hrest]

/-- 並んだ byte が `v` のものなら、読み出すと `v` である。 -/
theorem load_of_bytes {n a v : Nat} (h : ∀ i, i < n → m (a + i) = byteOf v i) :
    m.load a n = v % 256 ^ n := by
  induction n generalizing a v with
  | zero => rw [load, pow_zero, Nat.mod_one]
  | succ n ih =>
    have hrest : m.load (a + 1) n = v / 256 % 256 ^ n := by
      refine ih fun i hi => ?_
      have hb := h (i + 1) (by omega)
      rw [byteOf, pow_succ', ← Nat.div_div_eq_div_mul] at hb
      rwa [show a + (i + 1) = a + 1 + i by ring] at hb
    have hhead : (m a).toNat = v % 256 := by
      have hb := h 0 (by omega)
      rw [Nat.add_zero, byteOf, pow_zero, Nat.div_one] at hb
      rw [hb]
      exact UInt8.toNat_ofNat'
    rw [load, hhead, hrest, pow_succ', Nat.mod_mul]

theorem load_lt {n a : Nat} : m.load a n < 256 ^ n := by
  induction n generalizing a with
  | zero => exact Nat.one_pos
  | succ n ih =>
    have hrest : m.load (a + 1) n < 256 ^ n := ih
    have hhead : (m a).toNat < 256 := (m a).toNat_lt
    rw [load, pow_succ']
    omega

/-- 読み出した整数の byte は、もとの byte である。 -/
theorem byteOf_load {n a i : Nat} (hi : i < n) : byteOf (m.load a n) i = m (a + i) := by
  induction n generalizing a i with
  | zero => exact absurd hi (Nat.not_lt_zero i)
  | succ n ih =>
    cases i with
    | zero =>
      show byteOf _ 0 = m a
      rw [byteOf, pow_zero, Nat.div_one, load]
      refine UInt8.toNat_inj.mp ?_
      rw [UInt8.toNat_ofNat', Nat.add_mul_mod_self_left, Nat.mod_eq_of_lt (m a).toNat_lt]
    | succ i =>
      have hrest : byteOf (m.load (a + 1) n) i = m (a + 1 + i) := ih (by omega)
      have hdiv : m.load a (n + 1) / 256 = m.load (a + 1) n := by
        have hhead : (m a).toNat < 256 := (m a).toNat_lt
        rw [load]
        omega
      rw [byteOf] at hrest ⊢
      rw [pow_succ', ← Nat.div_div_eq_div_mul, hdiv, hrest, show a + (i + 1) = a + 1 + i by ring]

/-- すでにある byte を書いても、何も変わらない。 -/
theorem write_same (h : ∀ i, i < n → f i = m (a + i)) : m.write a n f = m := by
  funext x
  unfold write
  split
  · next hx =>
    have := h (x - a) (by omega)
    rwa [show a + (x - a) = x by omega] at this
  · rfl

/-- すでにある整数を置いても、何も変わらない。 -/
theorem store_same : m.store a n (m.load a n) = m := write_same fun _ hi => byteOf_load hi

/-- **置いた整数は読み出せる。** -/
theorem load_store {v : Nat} : (m.store a n v).load a n = v % 256 ^ n :=
  load_of_bytes fun _ hi => write_inside hi

/-- 離れた場所への書き込みは、読み出しを変えない。 -/
theorem load_write_of_disjoint (h : a + n ≤ b ∨ b + k ≤ a) :
    (m.write a n f).load b k = m.load b k :=
  load_congr fun _ _ => write_outside (by omega)

end Mem

end Infra
