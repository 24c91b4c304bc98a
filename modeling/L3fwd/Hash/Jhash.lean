import L3fwd.Infra.Bytes
import Mathlib.Tactic.IntervalCases

/-!
# Jenkins hash

`rte_jhash.h`。`rte_hash_create` に `hash_func` を渡さなければ、key の hash はこれである。
key を 12 byte ずつ取り込み、残りを mask して取り込む。取り込み方は二つある。

* 揃っているか、`check_align` が 0 なら、語をそのまま読む
* 揃っていなければ、4 の倍数の番地の語を二つ読み、`BIT_SHIFT` でつなぐ

どちらも key の後ろの byte まで読むが、結果は key の byte だけで決まる（`rteJhash_bytes`）。
語の数や値を受け取る版も、並べた byte の hash に等しい（`rteJhash_words_agree`）。
-/

namespace L3fwd.Hash

open Infra

/-! ## かき混ぜ -/

/-- `__rte_jhash_2hashes` の `a`・`b`・`c`。 -/
structure Abc where
  a : UInt32
  b : UInt32
  c : UInt32
  deriving DecidableEq

def rot (x k : UInt32) : UInt32 := (x <<< k) ||| (x >>> (32 - k))

def jhashMix (s : Abc) : Abc :=
  let ⟨a, b, c⟩ := s
  let a := a - c; let a := a ^^^ rot c 4; let c := c + b
  let b := b - a; let b := b ^^^ rot a 6; let a := a + c
  let c := c - b; let c := c ^^^ rot b 8; let b := b + a
  let a := a - c; let a := a ^^^ rot c 16; let c := c + b
  let b := b - a; let b := b ^^^ rot a 19; let a := a + c
  let c := c - b; let c := c ^^^ rot b 4; let b := b + a
  ⟨a, b, c⟩

def jhashFinal (s : Abc) : Abc :=
  let ⟨a, b, c⟩ := s
  let c := c ^^^ b; let c := c - rot b 14
  let a := a ^^^ c; let a := a - rot c 11
  let b := b ^^^ a; let b := b - rot a 25
  let c := c ^^^ b; let c := c - rot b 16
  let a := a ^^^ c; let a := a - rot c 4
  let b := b ^^^ a; let b := b - rot a 14
  let c := c ^^^ b; let c := c - rot b 24
  ⟨a, b, c⟩

def rteJhashGoldenRatio : UInt32 := 0xdeadbeef

def lower8bMask : UInt32 := 0xff
def lower16bMask : UInt32 := 0xffff
def lower24bMask : UInt32 := 0xffffff

/-- 長さ 0 なら混ぜずに、そうでなければ `__rte_jhash_final` をかけて `c` と `b` を返す。 -/
def jhashFinish (s : Abc) : Option Abc → UInt32 × UInt32
  | none => (s.c, s.b)
  | some last => ((jhashFinal last).c, (jhashFinal last).b)

/-! ## 揃った key -/

/-- `k[i]`。little endian の 32 bit を読む。 -/
def word (m : Mem) (k i : Nat) : UInt32 := UInt32.ofNat (m.load (k + 4 * i) 4)

theorem sub_twelve {length : UInt32} (h : 12 < length) :
    12 < length.toNat ∧ (length - 12).toNat = length.toNat - 12 :=
  ⟨UInt32.lt_iff_toNat_lt.mp h, UInt32.toNat_sub_of_le _ _ (UInt32.le_of_lt h)⟩

/-- `while (length > 12)`。揃った側。 -/
def alignedBlocks (m : Mem) (s : Abc) (k : Nat) (length : UInt32) : Abc × Nat × UInt32 :=
  if 12 < length then
    let s := jhashMix ⟨s.a + word m k 0, s.b + word m k 1, s.c + word m k 2⟩
    alignedBlocks m s (k + 12) (length - 12)
  else (s, k, length)
termination_by length.toNat
decreasing_by
  rename_i h
  obtain ⟨hlt, hsub⟩ := sub_twelve h
  omega

/-- `switch (length)`。揃った側。`none` は長さ 0 の `return` である。 -/
def alignedLast (m : Mem) (s : Abc) (k : Nat) (length : UInt32) : Option Abc :=
  match length.toNat with
  | 12 => some ⟨s.a + word m k 0, s.b + word m k 1, s.c + word m k 2⟩
  | 11 => some ⟨s.a + word m k 0, s.b + word m k 1, s.c + (word m k 2 &&& lower24bMask)⟩
  | 10 => some ⟨s.a + word m k 0, s.b + word m k 1, s.c + (word m k 2 &&& lower16bMask)⟩
  | 9 => some ⟨s.a + word m k 0, s.b + word m k 1, s.c + (word m k 2 &&& lower8bMask)⟩
  | 8 => some ⟨s.a + word m k 0, s.b + word m k 1, s.c⟩
  | 7 => some ⟨s.a + word m k 0, s.b + (word m k 1 &&& lower24bMask), s.c⟩
  | 6 => some ⟨s.a + word m k 0, s.b + (word m k 1 &&& lower16bMask), s.c⟩
  | 5 => some ⟨s.a + word m k 0, s.b + (word m k 1 &&& lower8bMask), s.c⟩
  | 4 => some ⟨s.a + word m k 0, s.b, s.c⟩
  | 3 => some ⟨s.a + (word m k 0 &&& lower24bMask), s.b, s.c⟩
  | 2 => some ⟨s.a + (word m k 0 &&& lower16bMask), s.b, s.c⟩
  | 1 => some ⟨s.a + (word m k 0 &&& lower8bMask), s.b, s.c⟩
  | 0 => none
  | _ => some s

/-- 揃った側の全体。 -/
def alignedHash (m : Mem) (s : Abc) (k : Nat) (length : UInt32) : UInt32 × UInt32 :=
  let (s, k, length) := alignedBlocks m s k length
  jhashFinish s (alignedLast m s k length)

/-! ## 揃っていない key -/

/-- `BIT_SHIFT`。`y` を 64 bit に広げるので、式全体も 64 bit である。 -/
def bitShift (x y k : UInt32) : UInt64 :=
  (x >>> k).toUInt64 ||| (y.toUInt64 <<< (32 - k).toUInt64)

/-- `BIT_SHIFT(k[i], k[i + 1], s)`。 -/
def shifted (m : Mem) (k : Nat) (sh : UInt32) (i : Nat) : UInt64 :=
  bitShift (word m k i) (word m k (i + 1)) sh

/-- 32 bit の変数に 64 bit の値を足す `x += v`。 -/
def plus (x : UInt32) (v : UInt64) : UInt32 := (x.toUInt64 + v).toUInt32

/-- `while (length > 12)`。揃っていない側。 -/
def shiftedBlocks (m : Mem) (sh : UInt32) (s : Abc) (k : Nat) (length : UInt32) :
    Abc × Nat × UInt32 :=
  if 12 < length then
    let s := jhashMix
      ⟨plus s.a (shifted m k sh 0), plus s.b (shifted m k sh 1), plus s.c (shifted m k sh 2)⟩
    shiftedBlocks m sh s (k + 12) (length - 12)
  else (s, k, length)
termination_by length.toNat
decreasing_by
  rename_i h
  obtain ⟨hlt, hsub⟩ := sub_twelve h
  omega

/-- `switch (length)`。揃っていない側。 -/
def shiftedLast (m : Mem) (sh : UInt32) (s : Abc) (k : Nat) (length : UInt32) : Option Abc :=
  let w := shifted m k sh
  match length.toNat with
  | 12 => some ⟨plus s.a (w 0), plus s.b (w 1), plus s.c (w 2)⟩
  | 11 => some ⟨plus s.a (w 0), plus s.b (w 1), plus s.c (w 2 &&& lower24bMask.toUInt64)⟩
  | 10 => some ⟨plus s.a (w 0), plus s.b (w 1), plus s.c (w 2 &&& lower16bMask.toUInt64)⟩
  | 9 => some ⟨plus s.a (w 0), plus s.b (w 1), plus s.c (w 2 &&& lower8bMask.toUInt64)⟩
  | 8 => some ⟨plus s.a (w 0), plus s.b (w 1), s.c⟩
  | 7 => some ⟨plus s.a (w 0), plus s.b (w 1 &&& lower24bMask.toUInt64), s.c⟩
  | 6 => some ⟨plus s.a (w 0), plus s.b (w 1 &&& lower16bMask.toUInt64), s.c⟩
  | 5 => some ⟨plus s.a (w 0), plus s.b (w 1 &&& lower8bMask.toUInt64), s.c⟩
  | 4 => some ⟨plus s.a (w 0), s.b, s.c⟩
  | 3 => some ⟨plus s.a (w 0 &&& lower24bMask.toUInt64), s.b, s.c⟩
  | 2 => some ⟨plus s.a (w 0 &&& lower16bMask.toUInt64), s.b, s.c⟩
  | 1 => some ⟨plus s.a (w 0 &&& lower8bMask.toUInt64), s.b, s.c⟩
  | 0 => none
  | _ => some s

/-- 揃っていない側の全体。 -/
def shiftedHash (m : Mem) (sh : UInt32) (s : Abc) (k : Nat) (length : UInt32) :
    UInt32 × UInt32 :=
  let (s, k, length) := shiftedBlocks m sh s k length
  jhashFinish s (shiftedLast m sh s k length)

/-! ## hash -/

/-- 内部の状態の始まり。 -/
def jhashStart (length pc pb : UInt32) : Abc :=
  let a := rteJhashGoldenRatio + length + pc
  ⟨a, a, a + pb⟩

/-- 語を読み始める番地。x86 では key のまま、他では 4 の倍数に切り下げる。 -/
def wordBase (x86 : Bool) (key : Nat) : Nat := if x86 then key else key - key % 4

/-- 切り下げた分の bit 数。 -/
def wordShift (x86 : Bool) (key : Nat) : UInt32 := if x86 then 0 else UInt32.ofNat (key % 4 * 8)

/-- `__rte_jhash_2hashes`。`x86` は `RTE_ARCH_X86` が定義されているかである。 -/
def jhash2hashes (x86 : Bool) (m : Mem) (key : Nat) (length pc pb : UInt32) (checkAlign : Bool) :
    UInt32 × UInt32 :=
  let s := jhashStart length pc pb
  let k := wordBase x86 key
  let sh := wordShift x86 key
  if !checkAlign || sh == 0 then alignedHash m s k length else shiftedHash m sh s k length

def rteJhash2hashes (x86 : Bool) (m : Mem) (key : Nat) (length pc pb : UInt32) :
    UInt32 × UInt32 := jhash2hashes x86 m key length pc pb true

def rteJhash32b2hashes (x86 : Bool) (m : Mem) (k : Nat) (length pc pb : UInt32) :
    UInt32 × UInt32 := jhash2hashes x86 m k (length <<< 2) pc pb false

def rteJhash (x86 : Bool) (m : Mem) (key : Nat) (length initval : UInt32) : UInt32 :=
  (rteJhash2hashes x86 m key length initval 0).1

def rteJhash32b (x86 : Bool) (m : Mem) (k : Nat) (length initval : UInt32) : UInt32 :=
  (rteJhash32b2hashes x86 m k length initval 0).1

/-- `__rte_jhash_3words`。 -/
def jhash3words (a b c initval : UInt32) : UInt32 :=
  let a := a + (rteJhashGoldenRatio + initval)
  let b := b + (rteJhashGoldenRatio + initval)
  let c := c + (rteJhashGoldenRatio + initval)
  (jhashFinal ⟨a, b, c⟩).c

def rteJhash3words (a b c initval : UInt32) : UInt32 :=
  jhash3words (a + 12) (b + 12) (c + 12) initval

def rteJhash2words (a b initval : UInt32) : UInt32 := jhash3words (a + 8) (b + 8) 8 initval

def rteJhash1word (a initval : UInt32) : UInt32 := jhash3words (a + 4) 4 4 initval

/-! ## byte の列の hash -/

/-- 列の先頭の 12 byte を取り込む。足りない分は 0 である。 -/
def Abc.take (s : Abc) (bs : List UInt8) : Abc :=
  ⟨s.a + word (padded bs) 0 0, s.b + word (padded bs) 0 1, s.c + word (padded bs) 0 2⟩

/-- 12 byte ずつ取り込んで混ぜ、最後の 1 から 12 byte には仕上げをかける。 -/
def absorb (s : Abc) (bs : List UInt8) : UInt32 × UInt32 :=
  if 12 < bs.length then absorb (jhashMix (s.take bs)) (bs.drop 12)
  else if bs = [] then (s.c, s.b)
  else ((jhashFinal (s.take bs)).c, (jhashFinal (s.take bs)).b)
termination_by bs.length
decreasing_by rw [List.length_drop]; omega

/-- byte の列の hash。memory も番地も語の読み方も現れない。 -/
def jhashBytes (bs : List UInt8) (pc pb : UInt32) : UInt32 × UInt32 :=
  absorb (jhashStart (UInt32.ofNat bs.length) pc pb) bs

/-! ## 語の読み出し -/

variable {m : Mem} {key k n i : Nat} {s : Abc} {length : UInt32}

/-- 列に残る byte が 4 以上なら、列の語は memory の語である。 -/
theorem word_padded_full (h : 4 * i + 4 ≤ n) : word (padded (m.bytes k n)) 0 i = word m k i := by
  rw [word, word, Nat.zero_add, Mem.load_padded_bytes (by omega),
    show min 4 (n - 4 * i) = 4 by omega]

/-- 列に byte が残らなければ、列の語は 0 である。 -/
theorem word_padded_none (h : n ≤ 4 * i) : word (padded (m.bytes k n)) 0 i = 0 := by
  rw [word, Mem.load_zeros fun j _ => Mem.padded_bytes_of_le (by omega)]
  rfl

/-- 残る byte が 4 に満たなければ、列の語は memory の語の下の byte である。 -/
theorem word_padded_part {r : Nat} {mask : UInt32} (hr : r < 4) (hn : n = 4 * i + r)
    (hmask : mask.toNat = 2 ^ (8 * r) - 1) :
    word (padded (m.bytes k n)) 0 i = word m k i &&& mask := by
  have hlt : m.load (k + 4 * i) 4 < 2 ^ 32 := Mem.load_lt
  have hlow : m.load (k + 4 * i) r = m.load (k + 4 * i) 4 % 2 ^ (8 * r) := by
    rw [← Mem.load_mod hr.le, pow_mul]
    rfl
  refine UInt32.toNat_inj.mp ?_
  rw [UInt32.toNat_and, hmask, Nat.and_two_pow_sub_one_eq_mod, word, word, Nat.zero_add,
    Mem.load_padded_bytes (by omega), show min 4 (n - 4 * i) = r by omega,
    UInt32.toNat_ofNat_of_lt' hlt, hlow]
  exact UInt32.toNat_ofNat_of_lt' (lt_of_le_of_lt (Nat.mod_le _ _) hlt)

theorem word_padded_8b (hn : n = 4 * i + 1) :
    word (padded (m.bytes k n)) 0 i = word m k i &&& lower8bMask :=
  word_padded_part (by decide) hn rfl

theorem word_padded_16b (hn : n = 4 * i + 2) :
    word (padded (m.bytes k n)) 0 i = word m k i &&& lower16bMask :=
  word_padded_part (by decide) hn rfl

theorem word_padded_24b (hn : n = 4 * i + 3) :
    word (padded (m.bytes k n)) 0 i = word m k i &&& lower24bMask :=
  word_padded_part (by decide) hn rfl

/-! ## 揃った側 -/

/-- 最後の取り込みは、0 で埋めた byte の取り込みである。 -/
theorem alignedLast_eq (h0 : 0 < length.toNat) (h : length.toNat ≤ 12) :
    alignedLast m s k length = some (s.take (m.bytes k length.toNat)) := by
  unfold alignedLast Abc.take
  generalize length.toNat = n at *
  interval_cases n
  all_goals simp (disch := omega) only [word_padded_full, word_padded_none, word_padded_8b,
    word_padded_16b, word_padded_24b, UInt32.add_zero]

theorem alignedLast_zero (h : length.toNat = 0) : alignedLast m s k length = none := by
  unfold alignedLast
  rw [h]
  rfl

/-- 揃った側は、`k` からの `length` byte の列を取り込む。 -/
theorem alignedHash_eq (s : Abc) (k : Nat) (length : UInt32) :
    alignedHash m s k length = absorb s (m.bytes k length.toNat) := by
  unfold alignedHash
  fun_induction alignedBlocks m s k length with
  | case1 s k length h s' ih =>
    obtain ⟨hlt, hsub⟩ := sub_twelve h
    rw [ih, hsub, absorb.eq_1 s, if_pos (by rwa [Mem.length_bytes]), Mem.drop_bytes, Abc.take,
      word_padded_full (by omega), word_padded_full (by omega), word_padded_full (by omega)]
  | case2 s k length h =>
    have hle : length.toNat ≤ 12 := UInt32.le_iff_toNat_le.mp (UInt32.not_lt.mp h)
    rw [absorb, if_neg (by rw [Mem.length_bytes]; omega)]
    by_cases h0 : length.toNat = 0
    · dsimp only
      rw [alignedLast_zero h0, h0, if_pos (by rfl)]
      rfl
    · have hne : m.bytes k length.toNat ≠ [] := by
        intro hnil
        have := congrArg List.length hnil
        rw [Mem.length_bytes] at this
        exact h0 this
      dsimp only
      rw [alignedLast_eq (by omega) hle, if_neg hne]
      rfl

/-! ## 揃っていない側 -/

theorem plus_eq (x : UInt32) (v : UInt64) : plus x v = x + v.toUInt32 := by
  rw [plus, UInt64.toUInt32_add, UInt32.toUInt32_toUInt64]

/-- `BIT_SHIFT` の下の 32 bit は、続いた二語を右にずらした下の語である。 -/
theorem bitShift_toNat {x y : UInt32} {r : Nat} (h0 : 0 < r) (hr : r < 4) :
    (bitShift x y (UInt32.ofNat (r * 8))).toUInt32.toNat
      = x.toNat / 256 ^ r + 256 ^ (4 - r) * (y.toNat % 256 ^ r) := by
  have hx : x.toNat < 2 ^ 32 := x.toNat_lt
  have hy : y.toNat < 2 ^ 32 := y.toNat_lt
  have hor : (bitShift x y (UInt32.ofNat (r * 8))).toNat
      = y.toNat <<< (32 - r * 8) ||| x.toNat >>> (r * 8) := by
    have hr8 : (UInt32.ofNat (r * 8)).toNat = r * 8 := 
      UInt32.toNat_ofNat_of_lt' (show r * 8 < 2 ^ 32 by omega)
    have hle : UInt32.ofNat (r * 8) ≤ 32 := by
      rw [UInt32.le_iff_toNat_le, hr8]
      show r * 8 ≤ 32
      omega
    rw [bitShift, UInt64.toNat_or, UInt64.toNat_shiftLeft, UInt32.toNat_toUInt64,
      UInt32.toNat_toUInt64, UInt32.toNat_toUInt64, UInt32.toNat_shiftRight, hr8,
      UInt32.toNat_sub_of_le _ _ hle, hr8, Nat.or_comm]
    have hfit : y.toNat <<< (32 - r * 8) < 2 ^ 64 := by
      rw [Nat.shiftLeft_eq]
      interval_cases r <;> omega
    rw [show UInt32.toNat 32 = 32 from rfl, Nat.mod_eq_of_lt (show 32 - r * 8 < 64 by omega),
      Nat.mod_eq_of_lt (show r * 8 < 32 by omega), Nat.mod_eq_of_lt hfit]
  rw [UInt64.toNat_toUInt32, hor, ← Nat.shiftLeft_add_eq_or_of_lt, Nat.shiftLeft_eq,
    Nat.shiftRight_eq_div_pow]
  · interval_cases r <;> omega
  · interval_cases r <;> omega

/-- `BIT_SHIFT` は、切り下げる前の番地の語を読む。 -/
theorem shifted_eq {r : Nat} (h0 : 0 < r) (hr : r < 4) :
    (shifted m k (UInt32.ofNat (r * 8)) i).toUInt32 = word m (k + r) i := by
  have hword (j : Nat) : (word m k j).toNat = m.load (k + 4 * j) 4 :=
    UInt32.toNat_ofNat_of_lt' (show m.load (k + 4 * j) 4 < 2 ^ 32 from Mem.load_lt)
  have hload : m.load (k + r + 4 * i) 4
      = m.load (k + 4 * i) 4 / 256 ^ r + 256 ^ (4 - r) * (m.load (k + 4 * (i + 1)) 4 % 256 ^ r) := by
    rw [Mem.load_div hr.le, Mem.load_mod hr.le,
      show k + 4 * (i + 1) = k + 4 * i + r + (4 - r) by omega, ← Mem.load_add,
      show 4 - r + r = 4 by omega, show k + r + 4 * i = k + 4 * i + r by omega]
  refine UInt32.toNat_inj.mp ?_
  rw [shifted, bitShift_toNat h0 hr, hword, hword, ← hload]
  exact (UInt32.toNat_ofNat_of_lt' (show m.load (k + r + 4 * i) 4 < 2 ^ 32 from Mem.load_lt)).symm

theorem alignedHash_step (h : 12 < length) : alignedHash m s k length
    = alignedHash m (jhashMix ⟨s.a + word m k 0, s.b + word m k 1, s.c + word m k 2⟩) (k + 12)
        (length - 12) := by
  rw [alignedHash, alignedBlocks, if_pos h]
  rfl

/-- **二つの読み方は一致する。** つないで読むのは、揃っていない番地の語をそのまま読むのと同じである。 -/
theorem shiftedHash_eq {r : Nat} (h0 : 0 < r) (hr : r < 4) (s : Abc) (k : Nat) (length : UInt32) :
    shiftedHash m (UInt32.ofNat (r * 8)) s k length = alignedHash m s (k + r) length := by
  unfold shiftedHash
  fun_induction shiftedBlocks m (UInt32.ofNat (r * 8)) s k length with
  | case1 s k length h s' ih =>
    rw [ih, alignedHash_step h, show k + r + 12 = k + 12 + r by omega]
    simp only [s', plus_eq, shifted_eq h0 hr]
  | case2 s k length h =>
    rw [alignedHash, alignedBlocks, if_neg h]
    dsimp only
    congr 1
    unfold shiftedLast alignedLast
    simp only [plus_eq, UInt64.toUInt32_and, UInt32.toUInt32_toUInt64, shifted_eq h0 hr]

/-! ## 列の hash との一致 -/

/-- 語の番地は、key の番地か、ずらす bit 数の分だけ前である。 -/
theorem wordBase_cases (x86 : Bool) (key : Nat) :
    (wordShift x86 key = 0 ∧ wordBase x86 key = key) ∨
      ∃ r, 0 < r ∧ r < 4 ∧ wordShift x86 key = UInt32.ofNat (r * 8) ∧ wordShift x86 key ≠ 0 ∧
        wordBase x86 key + r = key := by
  cases x86 with
  | true => exact .inl ⟨rfl, rfl⟩
  | false =>
    by_cases h0 : key % 4 = 0
    · left
      show UInt32.ofNat (key % 4 * 8) = 0 ∧ key - key % 4 = key
      rw [h0]
      exact ⟨rfl, Nat.sub_zero key⟩
    · right
      refine ⟨key % 4, by omega, by omega, rfl, ?_, Nat.sub_add_cancel (Nat.mod_le key 4)⟩
      intro hz
      have := congrArg UInt32.toNat hz
      rw [show wordShift false key = UInt32.ofNat (key % 4 * 8) from rfl,
        UInt32.toNat_ofNat_of_lt' (show key % 4 * 8 < 2 ^ 32 by omega)] at this
      change key % 4 * 8 = 0 at this
      omega

/-- 揃える検査をするか、語の番地が key の番地なら、hash は key の byte の列の hash である。 -/
theorem jhash2hashes_eq {x86 checkAlign : Bool} {pc pb : UInt32}
    (h : checkAlign = true ∨ wordBase x86 key = key) :
    jhash2hashes x86 m key length pc pb checkAlign
      = jhashBytes (m.bytes key length.toNat) pc pb := by
  rw [jhashBytes, Mem.length_bytes, UInt32.ofNat_toNat, ← alignedHash_eq]
  unfold jhash2hashes
  dsimp only
  obtain ⟨hsh, hbase⟩ | ⟨r, h0, hr, hsh, hne, hbase⟩ := wordBase_cases x86 key
  · rw [hsh, hbase, if_pos (by simp)]
  · have hcheck : checkAlign = true := h.resolve_right (by omega)
    rw [hcheck, if_neg (by simpa using hne), hsh, shiftedHash_eq h0 hr, hbase]

/--
**key の byte だけで決まる。** どの命令集合で、どの番地にあり、前後に何があっても、
hash は key の `length` byte の列の hash である。
-/
theorem rteJhash_bytes (x86 : Bool) (m : Mem) (key : Nat) (length pc pb : UInt32) :
    rteJhash2hashes x86 m key length pc pb = jhashBytes (m.bytes key length.toNat) pc pb :=
  jhash2hashes_eq (.inl rfl)

/-! ## 語を受け取る版 -/

/-- 語を並べた byte。 -/
def wordBytes (ws : List UInt32) : List UInt8 :=
  Mem.bytes (fun j => Mem.byteOf (ws.getD (j / 4) 0).toNat (j % 4)) 0 (4 * ws.length)

theorem word_wordBytes (ws : List UInt32) (i : Nat) :
    word (padded (wordBytes ws)) 0 i = ws.getD i 0 := by
  by_cases hi : i < ws.length
  · rw [wordBytes, word_padded_full (by omega), word, @Mem.load_of_bytes _ 4 _ (ws.getD i 0).toNat,
      Nat.mod_eq_of_lt (show _ < 256 ^ 4 from (ws.getD i 0).toNat_lt), UInt32.ofNat_toNat]
    intro j hj
    rw [show (0 + 4 * i + j) / 4 = i by omega, show (0 + 4 * i + j) % 4 = j by omega]
  · rw [wordBytes, word_padded_none (by omega), List.getD_eq_getElem?_getD,
      List.getElem?_eq_none (by omega)]
    rfl

/-- 12 byte までの列は、混ぜずに仕上げる。 -/
theorem jhashBytes_short {bs : List UInt8} {pc pb : UInt32} (h0 : bs ≠ []) (h : bs.length ≤ 12) :
    (jhashBytes bs pc pb).1
      = (jhashFinal ((jhashStart (UInt32.ofNat bs.length) pc pb).take bs)).c := by
  rw [jhashBytes, absorb, if_neg (by omega), if_neg h0]

/-- 三語までの版は、並べた byte の hash である。 -/
theorem jhash3words_eq {ws : List UInt32} {initval len : UInt32} (h0 : ws ≠ [])
    (h : ws.length ≤ 3) (hl : len = UInt32.ofNat (4 * ws.length)) :
    jhash3words (ws.getD 0 0 + len) (ws.getD 1 0 + len) (ws.getD 2 0 + len) initval
      = (jhashBytes (wordBytes ws) initval 0).1 := by
  have hlen : (wordBytes ws).length = 4 * ws.length := Mem.length_bytes
  have hpos : 0 < ws.length := List.length_pos_iff.mpr h0
  rw [jhashBytes_short (List.ne_nil_of_length_pos (by omega)) (by omega), hlen, ← hl]
  unfold jhash3words Abc.take jhashStart
  simp only [word_wordBytes, UInt32.add_zero]
  congr 3 <;> ac_rfl

/-- 語を数える版は、切り下げた番地からの `length << 2` byte の hash である。 -/
theorem rteJhash32b_eq (x86 : Bool) (m : Mem) (k : Nat) (length initval : UInt32) :
    rteJhash32b x86 m k length initval
      = rteJhash x86 m (wordBase x86 k) (length <<< 2) initval := by
  have hunchecked : jhash2hashes x86 m k (length <<< 2) initval 0 false
      = alignedHash m (jhashStart (length <<< 2) initval 0) (wordBase x86 k) (length <<< 2) := by
    unfold jhash2hashes
    rw [if_pos (by rfl)]
  rw [rteJhash32b, rteJhash32b2hashes, hunchecked, alignedHash_eq, rteJhash, rteJhash2hashes,
    jhash2hashes_eq (.inl rfl), jhashBytes, Mem.length_bytes, UInt32.ofNat_toNat]

theorem ofNat_shiftLeft_two {n : Nat} (h : n < 2 ^ 30) :
    UInt32.ofNat n <<< 2 = UInt32.ofNat (4 * n) := by
  refine UInt32.toNat_inj.mp ?_
  rw [UInt32.toNat_shiftLeft, UInt32.toNat_ofNat_of_lt' (show n < 2 ^ 32 by omega),
    UInt32.toNat_ofNat_of_lt' (show 4 * n < 2 ^ 32 by omega), Nat.shiftLeft_eq]
  show n * 4 % 2 ^ 32 = 4 * n
  omega

/--
**語の版も同じ hash である。** 語を並べた key が揃った番地（x86 なら任意の番地）にあり、
byte の数が 32 bit に収まれば、語を数える版も、一語・二語・三語を値で受け取る版も、
byte の列としての hash に等しい。
-/
theorem rteJhash_words_agree {x86 : Bool} {ws : List UInt32} {initval : UInt32}
    (hal : x86 = true ∨ k % 4 = 0) (hfit : ws.length < 2 ^ 30)
    (hmem : m.bytes k (4 * ws.length) = wordBytes ws) :
    rteJhash32b x86 m k (UInt32.ofNat ws.length) initval
        = rteJhash x86 m k (UInt32.ofNat (4 * ws.length)) initval ∧
      (∀ a, ws = [a] → rteJhash1word a initval = rteJhash x86 m k 4 initval) ∧
      (∀ a b, ws = [a, b] → rteJhash2words a b initval = rteJhash x86 m k 8 initval) ∧
      ∀ a b c, ws = [a, b, c] → rteJhash3words a b c initval = rteJhash x86 m k 12 initval := by
  have hbytes : rteJhash x86 m k (UInt32.ofNat (4 * ws.length)) initval
      = (jhashBytes (wordBytes ws) initval 0).1 := by
    rw [rteJhash, rteJhash2hashes, jhash2hashes_eq (.inl rfl),
      UInt32.toNat_ofNat_of_lt' (show 4 * ws.length < 2 ^ 32 by omega), hmem]
  have hbase : wordBase x86 k = k := by
    obtain rfl | hmod := hal
    · rfl
    · cases x86 with
      | true => rfl
      | false => exact (congrArg (k - ·) hmod).trans (Nat.sub_zero k)
  refine ⟨?_, ?_, ?_, ?_⟩
  · rw [rteJhash32b_eq, hbase, ofNat_shiftLeft_two hfit]
  · rintro a rfl
    rw [show (4 : UInt32) = UInt32.ofNat (4 * [a].length) from rfl, hbytes,
      ← jhash3words_eq (by simp) (by simp) rfl]
    rfl
  · rintro a b rfl
    rw [show (8 : UInt32) = UInt32.ofNat (4 * [a, b].length) from rfl, hbytes,
      ← jhash3words_eq (by simp) (by simp) rfl]
    rfl
  · rintro a b c rfl
    rw [show (12 : UInt32) = UInt32.ofNat (4 * [a, b, c].length) from rfl, hbytes,
      ← jhash3words_eq (by simp) (by simp) rfl]
    rfl

/-- 二語が番地 4 から並ぶ memory。 -/
def twoWords : Mem := fun x => (wordBytes [0x01020304, 0x0a0b0c0d]).getD (x - 4) 0

theorem rteJhash_words_agree_two :
    rteJhash32b false twoWords 4 2 7 = rteJhash false twoWords 4 8 7 ∧
    rteJhash2words 0x01020304 0x0a0b0c0d 7 = rteJhash false twoWords 4 8 7 := by
  have h := @rteJhash_words_agree twoWords 4 false [0x01020304, 0x0a0b0c0d] 7 (.inr (by decide))
    (by decide) (by decide)
  exact ⟨h.1, h.2.2.1 _ _ rfl⟩

end L3fwd.Hash
