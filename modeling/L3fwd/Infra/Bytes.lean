import L3fwd.Infra.Memory

/-!
# byte の列と memory

memory の範囲を byte の列として取り出し、列を後ろに 0 の続く memory として読む。
整数の読み出しは、範囲を切っても並べても、位の足し算と割り算になる。
-/

namespace Infra

/-- 列を memory とみなす。列の後ろは 0 が続く。 -/
def padded (bs : List UInt8) : Mem := fun i => bs.getD i 0

namespace Mem

variable {m : Mem} {a n k i : Nat}

/-- `[a, a + n)` の byte の列。 -/
def bytes (m : Mem) (a n : Nat) : List UInt8 := (List.range n).map fun i => m (a + i)

@[simp] theorem length_bytes : (m.bytes a n).length = n := by
  rw [bytes, List.length_map, List.length_range]

theorem getElem?_bytes (hi : i < n) : (m.bytes a n)[i]? = some (m (a + i)) := by
  rw [bytes, List.getElem?_map, List.getElem?_range hi]
  rfl

/-- 先頭を落とした列は、先の範囲の列である。 -/
theorem drop_bytes : (m.bytes a n).drop k = m.bytes (a + k) (n - k) := by
  refine List.ext_getElem? fun i => ?_
  rw [List.getElem?_drop]
  by_cases hi : i < n - k
  · rw [getElem?_bytes hi, getElem?_bytes (show k + i < n by omega), Nat.add_assoc]
  · rw [List.getElem?_eq_none (by rw [length_bytes]; omega),
      List.getElem?_eq_none (by rw [length_bytes]; omega)]

theorem padded_bytes_of_lt (hi : i < n) : padded (m.bytes a n) i = m (a + i) := by
  rw [padded, List.getD_eq_getElem?_getD, getElem?_bytes hi]
  rfl

theorem padded_bytes_of_le (hi : n ≤ i) : padded (m.bytes a n) i = 0 := by
  rw [padded, List.getD_eq_getElem?_getD, List.getElem?_eq_none (by rwa [length_bytes])]
  rfl

/-! ## 読み出しの位 -/

/-- 続いた範囲の整数は、前の範囲が下の位、後の範囲が上の位である。 -/
theorem load_add : m.load a (n + k) = m.load a n + 256 ^ n * m.load (a + n) k := by
  induction n generalizing a with
  | zero => rw [load, Nat.zero_add, pow_zero, Nat.one_mul, Nat.zero_add, Nat.add_zero]
  | succ n ih =>
    rw [Nat.succ_add, load, load, ih, pow_succ', show a + (n + 1) = a + 1 + n by ring]
    ring

/-- 下の位だけを残すと、範囲の前の整数である。 -/
theorem load_mod (h : k ≤ n) : m.load a n % 256 ^ k = m.load a k := by
  obtain ⟨r, rfl⟩ := Nat.exists_eq_add_of_le h
  rw [load_add, Nat.add_mul_mod_self_left, Nat.mod_eq_of_lt load_lt]

/-- 下の位を捨てると、範囲の後の整数である。 -/
theorem load_div (h : k ≤ n) : m.load a n / 256 ^ k = m.load (a + k) (n - k) := by
  obtain ⟨r, rfl⟩ := Nat.exists_eq_add_of_le h
  rw [load_add, Nat.add_mul_div_left _ _ (Nat.pow_pos (by decide)), Nat.div_eq_of_lt load_lt,
    Nat.zero_add, Nat.add_sub_cancel_left]

theorem load_zeros (h : ∀ i, i < n → m (a + i) = 0) : m.load a n = 0 := by
  induction n generalizing a with
  | zero => rfl
  | succ n ih =>
    have hrest : m.load (a + 1) n = 0 := by
      refine ih fun i hi => ?_
      rw [show a + 1 + i = a + (i + 1) by ring]
      exact h (i + 1) (by omega)
    have hhead : m a = 0 := h 0 (by omega)
    rw [load, hhead, hrest]
    rfl

/-- 番地をずらして読むのは、ずらした memory を読むのと同じである。 -/
theorem load_shift : m.load (a + i) k = load (fun x => m (a + x)) i k := by
  induction k generalizing i with
  | zero => rfl
  | succ k ih => rw [load, load, Nat.add_assoc, ih]

/-- 列から読む整数は、列に残る byte だけの整数である。 -/
theorem load_padded_bytes (hi : i ≤ n) :
    (padded (m.bytes a n)).load i k = m.load (a + i) (min k (n - i)) := by
  have hfront : (padded (m.bytes a n)).load i (min k (n - i))
      = m.load (a + i) (min k (n - i)) := by
    rw [load_shift]
    exact load_congr fun j hj => padded_bytes_of_lt (by omega)
  have hback : (padded (m.bytes a n)).load (i + min k (n - i)) (k - min k (n - i)) = 0 :=
    load_zeros fun j hj => padded_bytes_of_le (by omega)
  conv => lhs; rw [show k = min k (n - i) + (k - min k (n - i)) by omega]
  rw [load_add, hfront, hback, Nat.mul_zero, Nat.add_zero]

end Mem

end Infra
