import L3fwd.Ring.Defs
import Mathlib.Tactic.Ring

/-!
# 要素の写し

`rte_ring_elem_pvt.h` の `__rte_ring_enqueue_elems_32/64/128` と
`__rte_ring_dequeue_elems_32/64/128`。

六つの関数は同じ形をしている。折り返さないときは何個かずつまとめて写し、余りを `switch` で写す。
折り返すときは端まで写してから先頭に戻る。違うのは、一つの要素が何語か、何個ずつまとめるか、
どちら向きに写すかである。そこで一要素の写し `store` とまとめる数を引数に取る一つの定義にする。

大きさが 8 でも 16 でもない要素は、`uint32_t` の並びとみなして語の単位で写す。
このときの添字の積は 32 bit なので、ring の大きさが 2^32 byte に収まることを前提にする。
-/

namespace L3fwd.Ring

open Infra

/-! ## 繰り返し -/

section

variable {β : Type*} (store : UInt32 → UInt32 → β → β)

/-- `k` 個を順に写す。`store i idx` は `ring[idx] = obj[i]` か `obj[i] = ring[idx]` である。 -/
def copyFrom (i idx : UInt32) : Nat → β → β
  | 0, m => m
  | k + 1, m => copyFrom (i + 1) (idx + 1) k (store i idx m)

/-- `for (; i < bound; i += unroll, idx += unroll)`。 -/
def unrolledLoop (unroll bound : UInt32) : Nat → UInt32 → UInt32 → β → β × UInt32 × UInt32
  | 0, i, idx, m => (m, i, idx)
  | fuel + 1, i, idx, m =>
    if i < bound then
      unrolledLoop unroll bound fuel (i + unroll) (idx + unroll)
        (copyFrom store i idx unroll.toNat m)
    else (m, i, idx)

/-- `for (; idx < size; i++, idx++)`。 -/
def fillLoop (size : UInt32) : Nat → UInt32 → UInt32 → β → β × UInt32
  | 0, i, _, m => (m, i)
  | fuel + 1, i, idx, m =>
    if idx < size then fillLoop size fuel (i + 1) (idx + 1) (store i idx m) else (m, i)

/-- `for (; i < n; i++, idx++)`。 -/
def wrapLoop (n : UInt32) : Nat → UInt32 → UInt32 → β → β
  | 0, _, _, m => m
  | fuel + 1, i, idx, m =>
    if i < n then wrapLoop n fuel (i + 1) (idx + 1) (store i idx m) else m

/-- 六つの関数に共通の本体。 -/
def elemsLoop (unroll size idx n : UInt32) (m : β) : β :=
  if idx + n < size then
    let (m, i, idx) := unrolledLoop store unroll (n &&& ~~~(unroll - 1)) (n.toNat + 1) 0 idx m
    -- `switch (n & ...)` は、どの case も次の case へ落ちる
    copyFrom store i idx (n &&& (unroll - 1)).toNat m
  else
    let (m, i) := fillLoop store size (size.toNat + 1) 0 idx m
    wrapLoop store n (n.toNat + 1) i 0 m

variable {store}

theorem add_one_add_ofNat (i : UInt32) (k : Nat) :
    i + 1 + UInt32.ofNat k = i + UInt32.ofNat (k + 1) := by
  rw [UInt32.ofNat_add, UInt32.add_assoc, UInt32.add_comm 1]
  rfl

/-- 続けて写すことは、分けて写すことと同じである。 -/
theorem copyFrom_add (k l : Nat) (i idx : UInt32) (m : β) :
    copyFrom store i idx (k + l) m =
      copyFrom store (i + UInt32.ofNat k) (idx + UInt32.ofNat k) l (copyFrom store i idx k m) := by
  induction k generalizing i idx m with
  | zero =>
    have hzero : UInt32.ofNat 0 = 0 := rfl
    rw [Nat.zero_add, hzero, UInt32.add_zero, UInt32.add_zero, copyFrom]
  | succ k ih =>
    rw [Nat.succ_add, copyFrom, ih, copyFrom, add_one_add_ofNat, add_one_add_ofNat]

theorem unrolledLoop_eq {unroll bound : UInt32} (k : Nat) {fuel : Nat} {i idx : UInt32} (m : β)
    (hpos : 0 < unroll.toNat) (hbound : i.toNat + unroll.toNat * k = bound.toNat) (hfuel : k < fuel) :
    unrolledLoop store unroll bound fuel i idx m =
      (copyFrom store i idx (unroll.toNat * k) m, i + UInt32.ofNat (unroll.toNat * k),
        idx + UInt32.ofNat (unroll.toNat * k)) := by
  have hlt := bound.toNat_lt
  induction k generalizing fuel i idx m with
  | zero =>
    obtain ⟨fuel, rfl⟩ : ∃ f, fuel = f + 1 := ⟨fuel - 1, by omega⟩
    have hstop : ¬ i < bound := by
      rw [UInt32.lt_iff_toNat_lt]
      omega
    have hzero : UInt32.ofNat 0 = 0 := rfl
    rw [unrolledLoop, if_neg hstop, Nat.mul_zero, hzero, UInt32.add_zero, UInt32.add_zero, copyFrom]
  | succ k ih =>
    obtain ⟨fuel, rfl⟩ : ∃ f, fuel = f + 1 := ⟨fuel - 1, by omega⟩
    rw [Nat.mul_succ] at hbound
    have hgo : i < bound := by
      rw [UInt32.lt_iff_toNat_lt]
      omega
    have hnext : (i + unroll).toNat = i.toNat + unroll.toNat := by
      rw [UInt32.toNat_add, Nat.mod_eq_of_lt (by omega)]
    have hsplit : unroll.toNat * (k + 1) = unroll.toNat + unroll.toNat * k := by
      rw [Nat.mul_succ, Nat.add_comm]
    rw [unrolledLoop, if_pos hgo, ih _ (by omega) (by omega), hsplit, copyFrom_add,
      UInt32.ofNat_add, UInt32.ofNat_toNat, UInt32.add_assoc, UInt32.add_assoc]

theorem fillLoop_eq {size : UInt32} (k : Nat) {fuel : Nat} {i idx : UInt32} (m : β)
    (hbound : idx.toNat + k = size.toNat) (hfuel : k < fuel) :
    fillLoop store size fuel i idx m = (copyFrom store i idx k m, i + UInt32.ofNat k) := by
  have hlt := size.toNat_lt
  induction k generalizing fuel i idx m with
  | zero =>
    obtain ⟨fuel, rfl⟩ : ∃ f, fuel = f + 1 := ⟨fuel - 1, by omega⟩
    have hstop : ¬ idx < size := by
      rw [UInt32.lt_iff_toNat_lt]
      omega
    have hzero : UInt32.ofNat 0 = 0 := rfl
    rw [fillLoop, if_neg hstop, hzero, UInt32.add_zero, copyFrom]
  | succ k ih =>
    obtain ⟨fuel, rfl⟩ : ∃ f, fuel = f + 1 := ⟨fuel - 1, by omega⟩
    have hgo : idx < size := by
      rw [UInt32.lt_iff_toNat_lt]
      omega
    have hnext : (idx + 1).toNat = idx.toNat + 1 := by
      rw [UInt32.toNat_add, UInt32.toNat_one, Nat.mod_eq_of_lt (by omega)]
    rw [fillLoop, if_pos hgo, ih _ (by omega) (by omega), copyFrom, add_one_add_ofNat]

theorem wrapLoop_eq {n : UInt32} (k : Nat) {fuel : Nat} {i idx : UInt32} (m : β)
    (hbound : i.toNat + k = n.toNat) (hfuel : k < fuel) :
    wrapLoop store n fuel i idx m = copyFrom store i idx k m := by
  have hlt := n.toNat_lt
  induction k generalizing fuel i idx m with
  | zero =>
    obtain ⟨fuel, rfl⟩ : ∃ f, fuel = f + 1 := ⟨fuel - 1, by omega⟩
    have hstop : ¬ i < n := by
      rw [UInt32.lt_iff_toNat_lt]
      omega
    rw [wrapLoop, if_neg hstop, copyFrom]
  | succ k ih =>
    obtain ⟨fuel, rfl⟩ : ∃ f, fuel = f + 1 := ⟨fuel - 1, by omega⟩
    have hgo : i < n := by
      rw [UInt32.lt_iff_toNat_lt]
      omega
    have hnext : (i + 1).toNat = i.toNat + 1 := by
      rw [UInt32.toNat_add, UInt32.toNat_one, Nat.mod_eq_of_lt (by omega)]
    rw [wrapLoop, if_pos hgo, ih _ (by omega) (by omega), copyFrom]

/-- 2 の冪の倍数への切り下げ。 -/
theorem and_not_toNat {unroll : UInt32} {u : Nat} (hu : unroll.toNat = 2 ^ u) (n : UInt32) :
    (n &&& (unroll - 1)).toNat = n.toNat % 2 ^ u ∧
      (n &&& ~~~(unroll - 1)).toNat = n.toNat - n.toNat % 2 ^ u := by
  have hone : (1 : UInt32) ≤ unroll := by
    rw [UInt32.le_iff_toNat_le, hu]
    exact Nat.one_le_two_pow
  have hrest : (n &&& (unroll - 1)).toNat = n.toNat % 2 ^ u := by
    rw [UInt32.toNat_and, UInt32.toNat_sub_of_le _ _ hone, hu, UInt32.toNat_one,
      Nat.and_two_pow_sub_one_eq_mod]
  refine ⟨hrest, ?_⟩
  -- 上の bit と下の bit は重ならないので、足すと元に戻る
  have hsum : (n &&& ~~~(unroll - 1)) + (n &&& (unroll - 1)) = n := by
    apply UInt32.toBitVec_inj.mp
    rw [UInt32.toBitVec_add, UInt32.toBitVec_and, UInt32.toBitVec_and, UInt32.toBitVec_not]
    generalize n.toBitVec = x
    generalize (unroll - 1).toBitVec = y
    rw [BitVec.add_eq_or_of_and_eq_zero]
    · ext i
      simp only [BitVec.getElem_or, BitVec.getElem_and, BitVec.getElem_not]
      cases x[i] <;> cases y[i] <;> rfl
    · ext i
      simp only [BitVec.getElem_and, BitVec.getElem_not]
      cases x[i] <;> cases y[i] <;> simp
  have hlt := n.toNat_lt
  have := (n &&& ~~~(unroll - 1)).toNat_lt
  have := Nat.mod_le n.toNat (2 ^ u)
  have hle : (n &&& ~~~(unroll - 1)).toNat ≤ n.toNat := by
    rw [UInt32.toNat_and]
    exact Nat.and_le_left
  have := congrArg UInt32.toNat hsum
  rw [UInt32.toNat_add, hrest] at this
  omega

/-- 端までの個数。 -/
def firstRun (size idx n : Nat) : Nat := min n (size - idx)

/--
**本体の意味。** まとめて写しても、余りを `switch` で写しても、端で折り返しても、
端までの個数と残りを一つずつ順に写したものと同じである。
-/
theorem elemsLoop_eq {unroll size idx n : UInt32} {u : Nat} (hu : unroll.toNat = 2 ^ u)
    (hidx : idx.toNat < size.toNat) (hn : n.toNat ≤ size.toNat)
    (hno : idx.toNat + n.toNat < 2 ^ 32) (m : β) :
    elemsLoop store unroll size idx n m =
      copyFrom store (UInt32.ofNat (firstRun size.toNat idx.toNat n.toNat)) 0
        (n.toNat - firstRun size.toNat idx.toNat n.toNat)
        (copyFrom store 0 idx (firstRun size.toNat idx.toNat n.toNat) m) := by
  have hsum : (idx + n).toNat = idx.toNat + n.toNat := by
    rw [UInt32.toNat_add, Nat.mod_eq_of_lt hno]
  unfold elemsLoop firstRun
  split
  · next hlt =>
    rw [UInt32.lt_iff_toNat_lt, hsum] at hlt
    obtain ⟨hrest, hround⟩ := and_not_toNat hu n
    have hdiv : n.toNat - n.toNat % 2 ^ u = unroll.toNat * (n.toNat / 2 ^ u) := by
      have := Nat.div_add_mod n.toNat (2 ^ u)
      rw [hu]
      omega
    have hpos : 0 < unroll.toNat := by
      rw [hu]
      exact Nat.two_pow_pos u
    have hzero : (0 : UInt32).toNat = 0 := rfl
    have hfuel : n.toNat / 2 ^ u < n.toNat + 1 := by
      have := Nat.div_le_self n.toNat (2 ^ u)
      omega
    rw [unrolledLoop_eq (n.toNat / 2 ^ u) m hpos (by rw [hzero, hround, hdiv, Nat.zero_add]) hfuel]
    dsimp only
    have hsplit : n.toNat = unroll.toNat * (n.toNat / 2 ^ u) + n.toNat % 2 ^ u := by
      have := Nat.mod_le n.toNat (2 ^ u)
      omega
    rw [Nat.min_eq_left (by omega), Nat.sub_self, copyFrom, hrest]
    conv_rhs => rw [hsplit]
    rw [copyFrom_add]
  · next hge =>
    rw [UInt32.lt_iff_toNat_lt, hsum] at hge
    have hlt := n.toNat_lt
    have hone : (UInt32.ofNat (size.toNat - idx.toNat)).toNat = size.toNat - idx.toNat := by
      rw [UInt32.toNat_ofNat', Nat.mod_eq_of_lt (by omega)]
    rw [fillLoop_eq (size.toNat - idx.toNat) m (by omega) (by omega)]
    dsimp only
    rw [UInt32.zero_add, Nat.min_eq_right (by omega),
      wrapLoop_eq (n.toNat - (size.toNat - idx.toNat)) _ (by rw [hone]; omega) (by omega)]

end

/-! ## 語の並び -/

/-- `s` 語の一要素を写す。`dst` の `d` 番目に `src` の `q` 番目を置く。 -/
def putCell (s : Nat) (src : Nat → UInt32) (d q : Nat) (dst : Nat → UInt32) : Nat → UInt32 :=
  fun p => if d * s ≤ p ∧ p < d * s + s then src (q * s + (p - d * s)) else dst p

/-- `ring[idx] = obj[i]`。 -/
def enqStore (s : Nat) (obj : Nat → UInt32) (i idx : UInt32) (ring : Nat → UInt32) :
    Nat → UInt32 := putCell s obj idx.toNat i.toNat ring

/-- `obj[i] = ring[idx]`。 -/
def deqStore (s : Nat) (ring : Nat → UInt32) (i idx : UInt32) (obj : Nat → UInt32) :
    Nat → UInt32 := putCell s ring i.toNat idx.toNat obj

/-- `dst` の `d` 番目から `k` 個に、`src` の `q` 番目からを置いたもの。 -/
def putRun (s : Nat) (src : Nat → UInt32) (d q k : Nat) (dst : Nat → UInt32) : Nat → UInt32 :=
  fun p => if d * s ≤ p ∧ p < d * s + k * s then src (q * s + (p - d * s)) else dst p

theorem putRun_zero (s : Nat) (src : Nat → UInt32) (d q : Nat) (dst : Nat → UInt32) :
    putRun s src d q 0 dst = dst := by
  funext p
  rw [putRun, if_neg (by omega)]

theorem putRun_succ (s : Nat) (src : Nat → UInt32) (d q k : Nat) (dst : Nat → UInt32) :
    putRun s src (d + 1) (q + 1) k (putCell s src d q dst) = putRun s src d q (k + 1) dst := by
  funext p
  unfold putRun putCell
  have h1 : (d + 1) * s = d * s + s := by ring
  have h2 : (q + 1) * s = q * s + s := by ring
  have h3 : (k + 1) * s = k * s + s := by ring
  rw [h1, h2, h3]
  by_cases hrest : d * s + s ≤ p ∧ p < d * s + s + k * s
  · rw [if_pos hrest, if_pos (by omega)]
    congr 1
    omega
  · rw [if_neg hrest]
    by_cases hfirst : d * s ≤ p ∧ p < d * s + s
    · rw [if_pos hfirst, if_pos (by omega)]
    · rw [if_neg hfirst, if_neg (by omega)]

theorem copyFrom_enqStore (s : Nat) (obj : Nat → UInt32) (k : Nat) {i idx : UInt32}
    (ring : Nat → UInt32) (hi : i.toNat + k < 2 ^ 32) (hidx : idx.toNat + k < 2 ^ 32) :
    copyFrom (enqStore s obj) i idx k ring = putRun s obj idx.toNat i.toNat k ring := by
  induction k generalizing i idx ring with
  | zero => rw [copyFrom, putRun_zero]
  | succ k ih =>
    have hi' : (i + 1).toNat = i.toNat + 1 := by
      rw [UInt32.toNat_add, UInt32.toNat_one, Nat.mod_eq_of_lt (by omega)]
    have hidx' : (idx + 1).toNat = idx.toNat + 1 := by
      rw [UInt32.toNat_add, UInt32.toNat_one, Nat.mod_eq_of_lt (by omega)]
    rw [copyFrom, ih _ (by omega) (by omega), hi', hidx', enqStore, putRun_succ]

theorem copyFrom_deqStore (s : Nat) (ring : Nat → UInt32) (k : Nat) {i idx : UInt32}
    (obj : Nat → UInt32) (hi : i.toNat + k < 2 ^ 32) (hidx : idx.toNat + k < 2 ^ 32) :
    copyFrom (deqStore s ring) i idx k obj = putRun s ring i.toNat idx.toNat k obj := by
  induction k generalizing i idx obj with
  | zero => rw [copyFrom, putRun_zero]
  | succ k ih =>
    have hi' : (i + 1).toNat = i.toNat + 1 := by
      rw [UInt32.toNat_add, UInt32.toNat_one, Nat.mod_eq_of_lt (by omega)]
    have hidx' : (idx + 1).toNat = idx.toNat + 1 := by
      rw [UInt32.toNat_add, UInt32.toNat_one, Nat.mod_eq_of_lt (by omega)]
    rw [copyFrom, ih _ (by omega) (by omega), hi', hidx', deqStore, putRun_succ]

theorem putRun_scale (s : Nat) (src : Nat → UInt32) (d q k : Nat) (dst : Nat → UInt32) :
    putRun s src d q k dst = putRun 1 src (d * s) (q * s) (k * s) dst := by
  unfold putRun
  simp only [Nat.mul_one]

theorem firstRun_scale (s size idx n : Nat) :
    firstRun (size * s) (idx * s) (n * s) = firstRun size idx n * s := by
  rw [firstRun, firstRun, ← Nat.sub_mul, Nat.mul_min_mul_right]

/-- `S` 語の輪の `I` 語目から、`obj` の `N` 語を置いたもの。 -/
def placeWords (S I N : Nat) (obj ring : Nat → UInt32) : Nat → UInt32 :=
  putRun 1 obj 0 (firstRun S I N) (N - firstRun S I N) (putRun 1 obj I 0 (firstRun S I N) ring)

/-- `S` 語の輪の `I` 語目から `N` 語を読み、`obj` に置いたもの。 -/
def takeWords (S I N : Nat) (ring obj : Nat → UInt32) : Nat → UInt32 :=
  putRun 1 ring (firstRun S I N) 0 (N - firstRun S I N) (putRun 1 ring 0 I (firstRun S I N) obj)

theorem elemsLoop_enqStore {s u : Nat} {unroll size idx n : UInt32} (hu : unroll.toNat = 2 ^ u)
    (hidx : idx.toNat < size.toNat) (hn : n.toNat ≤ size.toNat)
    (hno : idx.toNat + n.toNat < 2 ^ 32) (obj ring : Nat → UInt32) :
    elemsLoop (enqStore s obj) unroll size idx n ring =
      placeWords (size.toNat * s) (idx.toNat * s) (n.toNat * s) obj ring := by
  have hsize := size.toNat_lt
  have hle : firstRun size.toNat idx.toNat n.toNat ≤ n.toNat := Nat.min_le_left _ _
  have hle' : firstRun size.toNat idx.toNat n.toNat ≤ size.toNat - idx.toNat :=
    Nat.min_le_right _ _
  have hfirst : (UInt32.ofNat (firstRun size.toNat idx.toNat n.toNat)).toNat =
      firstRun size.toNat idx.toNat n.toNat := by
    rw [UInt32.toNat_ofNat', Nat.mod_eq_of_lt (by omega)]
  have hzero : (0 : UInt32).toNat = 0 := rfl
  rw [elemsLoop_eq hu hidx hn hno, copyFrom_enqStore _ _ _ _ (by rw [hfirst]; omega)
      (by rw [hzero]; omega), copyFrom_enqStore _ _ _ _ (by rw [hzero]; omega) (by omega), hfirst, hzero,
    putRun_scale s, putRun_scale s, placeWords, firstRun_scale, Nat.sub_mul, Nat.zero_mul]

theorem elemsLoop_deqStore {s u : Nat} {unroll size idx n : UInt32} (hu : unroll.toNat = 2 ^ u)
    (hidx : idx.toNat < size.toNat) (hn : n.toNat ≤ size.toNat)
    (hno : idx.toNat + n.toNat < 2 ^ 32) (ring obj : Nat → UInt32) :
    elemsLoop (deqStore s ring) unroll size idx n obj =
      takeWords (size.toNat * s) (idx.toNat * s) (n.toNat * s) ring obj := by
  have hsize := size.toNat_lt
  have hle : firstRun size.toNat idx.toNat n.toNat ≤ n.toNat := Nat.min_le_left _ _
  have hle' : firstRun size.toNat idx.toNat n.toNat ≤ size.toNat - idx.toNat :=
    Nat.min_le_right _ _
  have hfirst : (UInt32.ofNat (firstRun size.toNat idx.toNat n.toNat)).toNat =
      firstRun size.toNat idx.toNat n.toNat := by
    rw [UInt32.toNat_ofNat', Nat.mod_eq_of_lt (by omega)]
  have hzero : (0 : UInt32).toNat = 0 := rfl
  rw [elemsLoop_eq hu hidx hn hno, copyFrom_deqStore _ _ _ _ (by rw [hfirst]; omega)
      (by rw [hzero]; omega), copyFrom_deqStore _ _ _ _ (by rw [hzero]; omega) (by omega), hfirst, hzero,
    putRun_scale s, putRun_scale s, takeWords, firstRun_scale, Nat.sub_mul, Nat.zero_mul]

/-- 輪の中の位置。 -/
theorem add_mod_cases {S I j : Nat} (hI : I < S) (hj : j < S) :
    (I + j < S ∧ (I + j) % S = I + j) ∨ (S ≤ I + j ∧ (I + j) % S = I + j - S) := by
  by_cases h : I + j < S
  · exact Or.inl ⟨h, Nat.mod_eq_of_lt h⟩
  · right
    refine ⟨Nat.le_of_not_lt h, ?_⟩
    rw [Nat.mod_eq_sub_mod (Nat.le_of_not_lt h), Nat.mod_eq_of_lt (by omega)]

/-- 置いた語は、`I` から数えた位置にある。 -/
theorem placeWords_at {S I N j : Nat} (hI : I < S) (hN : N ≤ S) (hj : j < N)
    (obj ring : Nat → UInt32) : placeWords S I N obj ring ((I + j) % S) = obj j := by
  simp only [placeWords, putRun, firstRun, Nat.mul_one]
  rcases add_mod_cases hI (Nat.lt_of_lt_of_le hj hN) with ⟨hlt, hmod⟩ | ⟨hge, hmod⟩
  · rw [hmod, if_neg (by omega), if_pos (by omega)]
    congr 1
    omega
  · rw [hmod, if_pos (by omega)]
    congr 1
    omega

/-- 置いていない位置は変わらない。輪の外も変わらない。 -/
theorem placeWords_of_ne {S I N p : Nat} (hI : I < S) (hN : N ≤ S) (obj ring : Nat → UInt32)
    (hp : ∀ j, j < N → p ≠ (I + j) % S) : placeWords S I N obj ring p = ring p := by
  simp only [placeWords, putRun, firstRun, Nat.mul_one]
  rw [if_neg, if_neg]
  · intro hin
    have hj := hp (p - I) (by omega)
    rcases add_mod_cases hI (show p - I < S by omega) with ⟨-, hmod⟩ | ⟨hge, -⟩
    · omega
    · omega
  · intro hin
    have hj := hp (S - I + p) (by omega)
    rcases add_mod_cases hI (show S - I + p < S by omega) with ⟨hlt, -⟩ | ⟨-, hmod⟩
    · omega
    · omega

theorem takeWords_apply {S I N : Nat} (hI : I < S) (hN : N ≤ S) (ring obj : Nat → UInt32)
    (p : Nat) : takeWords S I N ring obj p = if p < N then ring ((I + p) % S) else obj p := by
  simp only [takeWords, putRun, firstRun, Nat.mul_one]
  by_cases hp : p < N
  · rw [if_pos hp]
    rcases add_mod_cases hI (Nat.lt_of_lt_of_le hp hN) with ⟨hlt, hmod⟩ | ⟨hge, hmod⟩
    · rw [hmod, if_neg (by omega), if_pos (by omega)]
      congr 1
    · rw [hmod, if_pos (by omega)]
      congr 1
      omega
  · rw [if_neg hp, if_neg (by omega), if_neg (by omega)]

/-! ## 六つの関数 -/

section

variable (g : Geometry) (ring obj : Nat → UInt32) (head esize num : UInt32)

/-- `__rte_ring_enqueue_elems_32`。 -/
def enqueueElems32 (size idx n : UInt32) : Nat → UInt32 :=
  elemsLoop (enqStore 1 obj) 8 size idx n ring

/-- `__rte_ring_enqueue_elems_64`。 -/
def enqueueElems64 : Nat → UInt32 :=
  elemsLoop (enqStore 2 obj) 4 g.size (head &&& g.mask) num ring

/-- `__rte_ring_enqueue_elems_128`。 -/
def enqueueElems128 : Nat → UInt32 :=
  elemsLoop (enqStore 4 obj) 2 g.size (head &&& g.mask) num ring

/-- `__rte_ring_enqueue_elems`。積は 32 bit である。 -/
def enqueueElems : Nat → UInt32 :=
  if esize = 8 then enqueueElems64 g ring obj head num
  else if esize = 16 then enqueueElems128 g ring obj head num
  else
    let scale := esize / 4
    enqueueElems32 ring obj (g.size * scale) ((head &&& g.mask) * scale) (num * scale)

/-- `__rte_ring_dequeue_elems_32`。 -/
def dequeueElems32 (size idx n : UInt32) : Nat → UInt32 :=
  elemsLoop (deqStore 1 ring) 8 size idx n obj

/-- `__rte_ring_dequeue_elems_64`。 -/
def dequeueElems64 : Nat → UInt32 :=
  elemsLoop (deqStore 2 ring) 4 g.size (head &&& g.mask) num obj

/-- `__rte_ring_dequeue_elems_128`。 -/
def dequeueElems128 : Nat → UInt32 :=
  elemsLoop (deqStore 4 ring) 2 g.size (head &&& g.mask) num obj

/-- `__rte_ring_dequeue_elems`。 -/
def dequeueElems : Nat → UInt32 :=
  if esize = 8 then dequeueElems64 g ring obj head num
  else if esize = 16 then dequeueElems128 g ring obj head num
  else
    let scale := esize / 4
    dequeueElems32 ring obj (g.size * scale) ((head &&& g.mask) * scale) (num * scale)

end

/--
要素の大きさと個数の条件。

`esize` は 4 の倍数で、個数は ring の段数を超えない。
語の単位で写す大きさでは、ring 全体が 2^32 byte に満たない。
-/
structure Fits (g : Geometry) (esize num : UInt32) : Prop where
  multiple : esize.toNat % 4 = 0
  pos : 0 < esize.toNat
  num_le : num.toNat ≤ 2 ^ g.bits
  total : esize ≠ 8 → esize ≠ 16 → 2 ^ g.bits * esize.toNat < 2 ^ 32

variable {g : Geometry} {head esize num : UInt32}

/-- 一要素の語数。 -/
def wordsOf (esize : UInt32) : Nat := esize.toNat / 4

theorem Fits.wordsOf_pos (h : Fits g esize num) : 0 < wordsOf esize := by
  have h1 := h.multiple
  have h2 := h.pos
  unfold wordsOf
  omega

theorem and_mask_toNat (g : Geometry) (head : UInt32) :
    (head &&& g.mask).toNat = head.toNat % 2 ^ g.bits := by
  have := g.and_mask head.toNat
  rwa [UInt32.ofNat_toNat] at this

theorem mod_size_lt (g : Geometry) (p : Nat) : p % 2 ^ g.bits < 2 ^ g.bits :=
  Nat.mod_lt _ (Nat.two_pow_pos _)

/-- 8 と 16 の大きさでは、添字の和は折り返さない。 -/
theorem Fits.no_wrap (h : Fits g esize num) :
    (head &&& g.mask).toNat + num.toNat < 2 ^ 32 := by
  have h1 := h.num_le
  have h2 := mod_size_lt g head.toNat
  have h3 := g.two_pow_bits_le
  rw [and_mask_toNat]
  omega

/-- ほかの大きさでは、語の単位の添字と個数がどれも 32 bit に収まる。 -/
theorem Fits.words (h : Fits g esize num) (head : UInt32) (h8 : esize ≠ 8) (h16 : esize ≠ 16) :
    (g.size * (esize / 4)).toNat = 2 ^ g.bits * wordsOf esize ∧
      ((head &&& g.mask) * (esize / 4)).toNat = head.toNat % 2 ^ g.bits * wordsOf esize ∧
      (num * (esize / 4)).toNat = num.toNat * wordsOf esize ∧
      2 * (2 ^ g.bits * wordsOf esize) < 2 ^ 32 := by
  have htotal := h.total h8 h16
  have hidx := mod_size_lt g head.toNat
  have hscale : (esize / 4).toNat = wordsOf esize := by
    rw [UInt32.toNat_div]
    rfl
  have hfour : esize.toNat = 4 * wordsOf esize := by
    have := h.multiple
    unfold wordsOf
    omega
  have hquad : 4 * (2 ^ g.bits * wordsOf esize) < 2 ^ 32 := by
    rw [hfour, Nat.mul_left_comm] at htotal
    exact htotal
  have hmul : head.toNat % 2 ^ g.bits * wordsOf esize ≤ 2 ^ g.bits * wordsOf esize :=
    Nat.mul_le_mul_right _ (Nat.le_of_lt hidx)
  have hmul' : num.toNat * wordsOf esize ≤ 2 ^ g.bits * wordsOf esize :=
    Nat.mul_le_mul_right _ h.num_le
  refine ⟨?_, ?_, ?_, by omega⟩
  · rw [UInt32.toNat_mul, g.size_toNat, hscale, Nat.mod_eq_of_lt (by omega)]
  · rw [UInt32.toNat_mul, and_mask_toNat, hscale, Nat.mod_eq_of_lt (by omega)]
  · rw [UInt32.toNat_mul, hscale, Nat.mod_eq_of_lt (by omega)]

/-- **三つの経路は同じものを置く。** -/
theorem enqueueElems_eq (h : Fits g esize num) (ring obj : Nat → UInt32) :
    enqueueElems g ring obj head esize num =
      placeWords (2 ^ g.bits * wordsOf esize) (head.toNat % 2 ^ g.bits * wordsOf esize)
        (num.toNat * wordsOf esize) obj ring := by
  have hidx := mod_size_lt g head.toNat
  have hcell : (head &&& g.mask).toNat < g.size.toNat := by
    rw [and_mask_toNat, g.size_toNat]
    exact hidx
  have hnum : num.toNat ≤ g.size.toNat := by
    rw [g.size_toNat]
    exact h.num_le
  unfold enqueueElems
  split
  · next h8 =>
    rw [enqueueElems64, elemsLoop_enqStore (u := 2) rfl hcell hnum h.no_wrap, g.size_toNat,
      and_mask_toNat, h8]
    rfl
  · next h8 =>
    split
    · next h16 =>
      rw [enqueueElems128, elemsLoop_enqStore (u := 1) rfl hcell hnum h.no_wrap, g.size_toNat,
        and_mask_toNat, h16]
      rfl
    · next h16 =>
      obtain ⟨hS, hI, hN, hlt⟩ := h.words head h8 h16
      have hpos := h.wordsOf_pos
      have hI' : head.toNat % 2 ^ g.bits * wordsOf esize < 2 ^ g.bits * wordsOf esize :=
        Nat.mul_lt_mul_of_pos_right hidx hpos
      have hN' : num.toNat * wordsOf esize ≤ 2 ^ g.bits * wordsOf esize :=
        Nat.mul_le_mul_right _ h.num_le
      dsimp only
      rw [enqueueElems32, elemsLoop_enqStore (u := 3) rfl (by rw [hS, hI]; exact hI')
        (by rw [hS, hN]; exact hN') (by rw [hI, hN]; omega), hS, hI, hN, Nat.mul_one, Nat.mul_one,
        Nat.mul_one]

theorem dequeueElems_eq (h : Fits g esize num) (ring obj : Nat → UInt32) :
    dequeueElems g ring obj head esize num =
      takeWords (2 ^ g.bits * wordsOf esize) (head.toNat % 2 ^ g.bits * wordsOf esize)
        (num.toNat * wordsOf esize) ring obj := by
  have hidx := mod_size_lt g head.toNat
  have hcell : (head &&& g.mask).toNat < g.size.toNat := by
    rw [and_mask_toNat, g.size_toNat]
    exact hidx
  have hnum : num.toNat ≤ g.size.toNat := by
    rw [g.size_toNat]
    exact h.num_le
  unfold dequeueElems
  split
  · next h8 =>
    rw [dequeueElems64, elemsLoop_deqStore (u := 2) rfl hcell hnum h.no_wrap, g.size_toNat,
      and_mask_toNat, h8]
    rfl
  · next h8 =>
    split
    · next h16 =>
      rw [dequeueElems128, elemsLoop_deqStore (u := 1) rfl hcell hnum h.no_wrap, g.size_toNat,
        and_mask_toNat, h16]
      rfl
    · next h16 =>
      obtain ⟨hS, hI, hN, hlt⟩ := h.words head h8 h16
      have hpos := h.wordsOf_pos
      have hI' : head.toNat % 2 ^ g.bits * wordsOf esize < 2 ^ g.bits * wordsOf esize :=
        Nat.mul_lt_mul_of_pos_right hidx hpos
      have hN' : num.toNat * wordsOf esize ≤ 2 ^ g.bits * wordsOf esize :=
        Nat.mul_le_mul_right _ h.num_le
      dsimp only
      rw [dequeueElems32, elemsLoop_deqStore (u := 3) rfl (by rw [hS, hI]; exact hI')
        (by rw [hS, hN]; exact hN') (by rw [hI, hN]; omega), hS, hI, hN, Nat.mul_one, Nat.mul_one,
        Nat.mul_one]

/-! ## 要素ごとの写しとの一致 -/

/-- 語の並びを、`w` 語ずつの要素の並びと見る。 -/
def slotsOf (w : Nat) (ring : Nat → UInt32) (k : Nat) : Fin w → UInt32 :=
  fun r => ring (k * w + r)

/-- 要素の単位の折り返しと、語の単位の折り返しは同じである。 -/
theorem mul_add_mod {S w a r : Nat} (hS : 0 < S) (hr : r < w) :
    (a * w + r) % (S * w) = a % S * w + r := by
  have hdiv := Nat.div_add_mod a S
  have hlt : a % S * w + r < S * w := by
    have h1 : (a % S + 1) * w ≤ S * w := Nat.mul_le_mul_right w (Nat.mod_lt a hS)
    rw [Nat.add_mul, Nat.one_mul] at h1
    omega
  have hsplit : a * w + r = a % S * w + r + S * w * (a / S) := by
    conv_lhs => rw [← hdiv]
    ring
  rw [hsplit, Nat.add_mul_mod_self_left, Nat.mod_eq_of_lt hlt]

/-- `j` 番目の要素の `r` 語目は、`slotIndex` の場所の `r` 語目に写る。 -/
theorem word_position {w j r : Nat} (hr : r < w) :
    (head.toNat % 2 ^ g.bits * w + (j * w + r)) % (2 ^ g.bits * w) =
      slotIndex g head j * w + r := by
  rw [← Nat.add_assoc, ← Nat.add_mul, mul_add_mod (Nat.two_pow_pos _) hr, slotIndex_eq,
    Nat.mod_add_mod]

theorem word_lt {w n j r : Nat} (hj : j < n) (hr : r < w) : j * w + r < n * w := by
  have h1 : (j + 1) * w ≤ n * w := Nat.mul_le_mul_right w hj
  rw [Nat.add_mul, Nat.one_mul] at h1
  omega

theorem Fits.bounds (h : Fits g esize num) :
    head.toNat % 2 ^ g.bits * wordsOf esize < 2 ^ g.bits * wordsOf esize ∧
      num.toNat * wordsOf esize ≤ 2 ^ g.bits * wordsOf esize :=
  ⟨Nat.mul_lt_mul_of_pos_right (mod_size_lt g head.toNat) h.wordsOf_pos,
    Nat.mul_le_mul_right _ h.num_le⟩

/-- 置いた要素の語。 -/
theorem enqueueElems_at (h : Fits g esize num) (ring obj : Nat → UInt32) {j r : Nat}
    (hj : j < num.toNat) (hr : r < wordsOf esize) :
    enqueueElems g ring obj head esize num (slotIndex g head j * wordsOf esize + r) =
      obj (j * wordsOf esize + r) := by
  obtain ⟨hI, hN⟩ := @Fits.bounds g head _ _ h
  rw [enqueueElems_eq h, ← word_position hr]
  exact placeWords_at hI hN (word_lt hj hr) obj ring

/-- ほかの語は変わらない。 -/
theorem enqueueElems_of_ne (h : Fits g esize num) (ring obj : Nat → UInt32) {p : Nat}
    (hp : ∀ j, j < num.toNat → p / wordsOf esize ≠ slotIndex g head j) :
    enqueueElems g ring obj head esize num p = ring p := by
  obtain ⟨hI, hN⟩ := @Fits.bounds g head _ _ h
  have hpos := h.wordsOf_pos
  rw [enqueueElems_eq h]
  refine placeWords_of_ne hI hN obj ring ?_
  intro i hi heq
  have hr := Nat.mod_lt i hpos
  have hj : i / wordsOf esize < num.toNat := Nat.div_lt_of_lt_mul (by rwa [Nat.mul_comm])
  have hi' : i = i / wordsOf esize * wordsOf esize + i % wordsOf esize := by
    rw [Nat.mul_comm]
    exact (Nat.div_add_mod i _).symm
  rw [hi', word_position hr] at heq
  refine hp _ hj ?_
  rw [heq, Nat.mul_comm, Nat.mul_add_div hpos, Nat.div_eq_of_lt hr, Nat.add_zero]

theorem dequeueElems_apply (h : Fits g esize num) (ring out : Nat → UInt32) (p : Nat) :
    dequeueElems g ring out head esize num p =
      if p < num.toNat * wordsOf esize then
        ring (slotIndex g head (p / wordsOf esize) * wordsOf esize + p % wordsOf esize)
      else out p := by
  obtain ⟨hI, hN⟩ := @Fits.bounds g head _ _ h
  have hpos := h.wordsOf_pos
  have hp : p = p / wordsOf esize * wordsOf esize + p % wordsOf esize := by
    rw [Nat.mul_comm]
    exact (Nat.div_add_mod p _).symm
  rw [dequeueElems_eq h, takeWords_apply hI hN, ← word_position (Nat.mod_lt p hpos), ← hp]

/--
**まとめて写しても一つずつ写しても同じである。**

どの大きさの要素でも、`__rte_ring_enqueue_elems` は要素を一つずつ `slotIndex` の場所に置くのと同じで、
ring の外の語を変えない。`__rte_ring_dequeue_elems` は一つずつ読み出すのと同じで、
読み出した要素の外の語を変えない。
-/
theorem elems_agree (h : Fits g esize num) (ring obj out : Nat → UInt32)
    {put get : Call (Fin (wordsOf esize) → UInt32)} (hput : put.side = .prod)
    (hget : get.side = .cons) (hobjs : put.objs = slotsOf (wordsOf esize) obj) :
    (∀ k, slotsOf (wordsOf esize) (enqueueElems g ring obj head esize num) k =
        (copyAll g (slotsOf (wordsOf esize) ring) put head num.toNat).1 k) ∧
      (∀ p, 2 ^ g.bits * wordsOf esize ≤ p →
        enqueueElems g ring obj head esize num p = ring p) ∧
      (copyAll g (slotsOf (wordsOf esize) ring) get head num.toNat).2 =
        (List.range num.toNat).map
          (slotsOf (wordsOf esize) (dequeueElems g ring out head esize num)) ∧
      ∀ p, num.toNat * wordsOf esize ≤ p → dequeueElems g ring out head esize num p = out p := by
  have hpos := h.wordsOf_pos
  obtain ⟨hat, hkeep⟩ := @copyAll_prod _ g (slotsOf (wordsOf esize) ring) put head hput _ h.num_le
  refine ⟨?_, ?_, ?_, ?_⟩
  · intro k
    by_cases hk : ∃ j, j < num.toNat ∧ k = slotIndex g head j
    · obtain ⟨j, hj, rfl⟩ := hk
      rw [hat j hj, hobjs]
      funext r
      exact enqueueElems_at h ring obj hj r.isLt
    · have hne : ∀ j, j < num.toNat → k ≠ slotIndex g head j := fun j hj heq => hk ⟨j, hj, heq⟩
      rw [hkeep k hne]
      funext r
      refine enqueueElems_of_ne h ring obj fun j hj => ?_
      rw [Nat.mul_comm, Nat.mul_add_div hpos, Nat.div_eq_of_lt r.isLt, Nat.add_zero]
      exact hne j hj
  · intro p hp
    refine enqueueElems_of_ne h ring obj fun j _ heq => ?_
    have hle : 2 ^ g.bits ≤ p / wordsOf esize := (Nat.le_div_iff_mul_le hpos).mpr hp
    have hlt := mod_size_lt g (head.toNat + j)
    rw [heq, slotIndex_eq] at hle
    omega
  · rw [copyAll_cons hget]
    refine List.map_congr_left fun j hj => ?_
    have hj' : j < num.toNat := List.mem_range.mp hj
    funext r
    simp only [slotsOf]
    rw [dequeueElems_apply h, if_pos (word_lt hj' r.isLt), Nat.mul_comm j, Nat.mul_add_div hpos,
      Nat.div_eq_of_lt r.isLt, Nat.add_zero, Nat.mul_add_mod, Nat.mod_eq_of_lt r.isLt]
  · intro p hp
    rw [dequeueElems_apply h, if_neg (by omega)]

/-- 12 byte の要素を二つ、端で折り返して写す。 -/
theorem elems_agree_twelve :
    Fits fourSlots 12 2 ∧
      (∀ k, slotsOf 3 (enqueueElems fourSlots (fun _ => 0) UInt32.ofNat 7 12 2) k =
        (copyAll fourSlots (slotsOf 3 fun _ => 0)
          ⟨.prod, 2, .queueFixed, slotsOf 3 UInt32.ofNat⟩ 7 2).1 k) ∧
      enqueueElems fourSlots (fun _ => 0) UInt32.ofNat 7 12 2 12 = 0 := by
  have hfits : Fits fourSlots 12 2 := ⟨by decide, by decide, by decide, fun _ _ => by decide⟩
  have h := @elems_agree fourSlots 7 12 2 hfits (fun _ => 0) UInt32.ofNat (fun _ => 0)
    ⟨.prod, 2, .queueFixed, slotsOf 3 UInt32.ofNat⟩ ⟨.cons, 2, .queueFixed, fun _ _ => 0⟩ rfl rfl rfl
  exact ⟨hfits, h.1, h.2.1 12 (by decide)⟩

/-- **往復。** 同じ位置に書いて読むと、渡した要素がそのまま戻る。 -/
theorem elems_roundtrip (h : Fits g esize num) (ring obj out : Nat → UInt32) (p : Nat) :
    dequeueElems g (enqueueElems g ring obj head esize num) out head esize num p =
      if p < num.toNat * wordsOf esize then obj p else out p := by
  have hpos := h.wordsOf_pos
  rw [dequeueElems_apply h]
  split
  · next hp =>
    have hj : p / wordsOf esize < num.toNat := Nat.div_lt_of_lt_mul (by rwa [Nat.mul_comm])
    rw [enqueueElems_at h ring obj hj (Nat.mod_lt p hpos), Nat.mul_comm, Nat.div_add_mod]
  · rfl

theorem elems_roundtrip_twelve : dequeueElems fourSlots
    (enqueueElems fourSlots (fun _ => 0) UInt32.ofNat 7 12 2) (fun _ => 9) 7 12 2 5 = 5 := by
  have hfits : Fits fourSlots 12 2 := ⟨by decide, by decide, by decide, fun _ _ => by decide⟩
  exact elems_roundtrip hfits (fun _ => 0) UInt32.ofNat (fun _ => 9) 5

end L3fwd.Ring
