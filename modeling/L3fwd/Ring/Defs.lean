import L3fwd.Infra.Board
import Mathlib.Data.UInt
import Mathlib.Data.Nat.Bitwise
import Mathlib.Algebra.Order.Group.Nat

/-!
# `rte_ring` の形

`struct rte_ring` の `head` と `tail` は 32 bit の数で、折り返しながら増え続ける。
配列を引くときだけ `mask` を掛ける。差はいつも 2^32 を法として求める。

producer と consumer の関数は、余裕の求め方のほかは同じ形なので、
側を引数に取る一つの定義にする。余裕は producer では `capacity + cons.tail - old_head`、
consumer では `prod.tail - old_head` である。
-/

namespace L3fwd.Ring

open Infra

/-- `enum rte_ring_queue_behavior`。 -/
inductive RteRingQueueBehavior where
  | queueFixed
  | queueVariable
deriving DecidableEq

/-- `struct rte_ring_headtail` の二つの位置。 -/
structure RteRingHeadtail where
  head : UInt32
  tail : UInt32
deriving DecidableEq

/--
ring の大きさ。`size` は 2 の冪で、使える個数 `capacity` はそれより小さい。

`RTE_RING_SZ_MASK` が `0x7fffffff` なので `size` は高々 2^31 である。
-/
structure Geometry where
  bits : Nat
  capacity : UInt32
  bits_le : bits ≤ 31
  capacity_lt : capacity.toNat < 2 ^ bits

namespace Geometry

variable (g : Geometry)

/-- `r->size`。 -/
def size : UInt32 := UInt32.ofNat (2 ^ g.bits)

/-- `r->mask`。 -/
def mask : UInt32 := g.size - 1

theorem two_pow_bits_le : 2 ^ g.bits ≤ 2 ^ 31 := Nat.pow_le_pow_right (by decide) g.bits_le

theorem size_toNat : g.size.toNat = 2 ^ g.bits := by
  have := g.two_pow_bits_le
  rw [size, UInt32.toNat_ofNat', Nat.mod_eq_of_lt (by omega)]

theorem mask_toNat : g.mask.toNat = 2 ^ g.bits - 1 := by
  have hle : (1 : UInt32) ≤ g.size := by
    rw [UInt32.le_iff_toNat_le, g.size_toNat]
    exact Nat.one_le_two_pow
  rw [mask, UInt32.toNat_sub_of_le _ _ hle, g.size_toNat, UInt32.toNat_one]

theorem capacity_le_size : g.capacity.toNat ≤ 2 ^ g.bits := Nat.le_of_lt g.capacity_lt

theorem capacity_lt_word : g.capacity.toNat < 2 ^ 31 :=
  Nat.lt_of_lt_of_le g.capacity_lt g.two_pow_bits_le

/-- `head & r->mask` は、折り返さない位置を `size` で割った余りである。 -/
theorem and_mask (p : Nat) : (UInt32.ofNat p &&& g.mask).toNat = p % 2 ^ g.bits := by
  have hdvd : 2 ^ g.bits ∣ 2 ^ 32 := Nat.pow_dvd_pow 2 (by have := g.bits_le; omega)
  rw [UInt32.toNat_and, UInt32.toNat_ofNat', g.mask_toNat, Nat.and_two_pow_sub_one_eq_mod,
    Nat.mod_mod_of_dvd p hdvd]

end Geometry

/-- 四段の ring。三つまで入る。 -/
def fourSlots : Geometry := ⟨2, 3, by decide, by decide⟩

/--
`struct rte_ring` とその後ろの要素の並び。

`ht` は `r->prod` と `r->cons`、`slots` は `&r[1]` から始まる配列である。
-/
structure RteRing (α : Type*) where
  ht : Side → RteRingHeadtail
  slots : Nat → α

/-- 呼び出しの引数。`objs` は `obj_table` で、enqueue だけが読む。 -/
structure Call (α : Type*) where
  side : Side
  n : UInt32
  behavior : RteRingQueueBehavior
  objs : Nat → α

/-- 呼び出しの結果。`left` は `*free_space` か `*available`、`objs` は dequeue が渡す要素である。 -/
structure Result (α : Type*) where
  n : UInt32
  left : UInt32
  objs : List α

/-- 動かした要素。enqueue は `obj_table` の先頭から、dequeue は読み出した `got` である。 -/
def Call.moved {α : Type*} (c : Call α) (n : UInt32) (got : List α) : List α :=
  match c.side with
  | .prod => (List.range n.toNat).map c.objs
  | .cons => got

namespace RteRing

variable {α : Type*} (r : RteRing α)

/-- `ht->head = head`。 -/
def setHead (σ : Side) (head : UInt32) : RteRing α :=
  { r with ht := Function.update r.ht σ { r.ht σ with head := head } }

/-- `ht->tail = tail`。 -/
def setTail (σ : Side) (tail : UInt32) : RteRing α :=
  { r with ht := Function.update r.ht σ { r.ht σ with tail := tail } }

@[simp] theorem setHead_slots (σ : Side) (head : UInt32) : (r.setHead σ head).slots = r.slots := rfl

@[simp] theorem setTail_slots (σ : Side) (tail : UInt32) : (r.setTail σ tail).slots = r.slots := rfl

@[simp] theorem setHead_tail (σ τ : Side) (head : UInt32) :
    ((r.setHead σ head).ht τ).tail = (r.ht τ).tail := by
  by_cases h : τ = σ
  · subst h
    simp [setHead]
  · simp [setHead, h]

@[simp] theorem setTail_head (σ τ : Side) (tail : UInt32) :
    ((r.setTail σ tail).ht τ).head = (r.ht τ).head := by
  by_cases h : τ = σ
  · subst h
    simp [setTail]
  · simp [setTail, h]

theorem setHead_head (σ : Side) (head : UInt32) :
    (fun τ => ((r.setHead σ head).ht τ).head) =
      Function.update (fun τ => (r.ht τ).head) σ head := by
  funext τ
  by_cases h : τ = σ
  · subst h
    simp [setHead]
  · simp [setHead, h]

theorem setTail_tail (σ : Side) (tail : UInt32) :
    (fun τ => ((r.setTail σ tail).ht τ).tail) =
      Function.update (fun τ => (r.ht τ).tail) σ tail := by
  funext τ
  by_cases h : τ = σ
  · subst h
    simp [setTail]
  · simp [setTail, h]

end RteRing

/-- `*free_entries`（producer）と `*entries`（consumer）。引き算は 2^32 を法とする。 -/
def entries (g : Geometry) (σ : Side) (oppTail oldHead : UInt32) : UInt32 :=
  match σ with
  | .prod => g.capacity + oppTail - oldHead
  | .cons => oppTail - oldHead

/-- 足りないとき、`FIXED` は何も動かさず、`VARIABLE` は余裕の分だけ動かす。 -/
def granted (behavior : RteRingQueueBehavior) (n free : UInt32) : UInt32 :=
  if free < n then
    match behavior with
    | .queueFixed => 0
    | .queueVariable => free
  else n

theorem granted_le (behavior : RteRingQueueBehavior) (n free : UInt32) :
    (granted behavior n free).toNat ≤ free.toNat := by
  unfold granted
  split
  · cases behavior with
    | queueFixed => simp
    | queueVariable => exact Nat.le_refl _
  · next h => exact Nat.le_of_not_lt fun hlt => h (UInt32.lt_iff_toNat_lt.mpr hlt)

/-- 頼んだ個数を動かさないのは、余裕が足りないときだけである。 -/
theorem lt_of_granted_ne {behavior : RteRingQueueBehavior} {n free : UInt32}
    (h : granted behavior n free ≠ n) : free.toNat < n.toNat := by
  by_contra hge
  refine h ?_
  unfold granted
  rw [if_neg fun hlt => hge (UInt32.lt_iff_toNat_lt.mp hlt)]

/-- `rte_ring_count`。 -/
def rteRingCount {α : Type*} (g : Geometry) (r : RteRing α) : UInt32 :=
  let count := ((r.ht .prod).tail - (r.ht .cons).tail) &&& g.mask
  if g.capacity < count then g.capacity else count

/-- `rte_ring_free_count`。 -/
def rteRingFreeCount {α : Type*} (g : Geometry) (r : RteRing α) : UInt32 :=
  g.capacity - rteRingCount g r

/-- `rte_ring_full`。 -/
def rteRingFull {α : Type*} (g : Geometry) (r : RteRing α) : Bool := rteRingFreeCount g r == 0

/-- `rte_ring_empty`。 -/
def rteRingEmpty {α : Type*} (r : RteRing α) : Bool := (r.ht .cons).tail == (r.ht .prod).tail

/-- 位置が余裕の範囲にあれば、2^32 を法とした余裕は本当の余裕である。 -/
theorem entries_ofNat (g : Geometry) {σ : Side} {tail old : Nat}
    (hle : old ≤ σ.lead g.capacity.toNat + tail)
    (hlt : σ.lead g.capacity.toNat + tail < old + 2 ^ 32) :
    (entries g σ (UInt32.ofNat tail) (UInt32.ofNat old)).toNat =
      σ.lead g.capacity.toNat + tail - old := by
  have hcap := g.capacity.toNat_lt
  cases σ with
  | prod =>
    simp only [entries, Side.lead_prod, UInt32.toNat_sub, UInt32.toNat_add,
      UInt32.toNat_ofNat'] at *
    omega
  | cons =>
    simp only [entries, Side.lead_cons, UInt32.toNat_sub, UInt32.toNat_ofNat'] at *
    omega

/-- 折り返さない位置の和は、語の和になる。 -/
theorem ofNat_add_word (p : Nat) (n : UInt32) :
    UInt32.ofNat (p + n.toNat) = UInt32.ofNat p + n := by
  rw [UInt32.ofNat_add, UInt32.ofNat_toNat]

/-- 2^32 より近い二つの位置の語が等しければ、位置も等しい。 -/
theorem eq_of_ofNat_eq {p q : Nat} (hle : p ≤ q) (hlt : q - p < 2 ^ 32)
    (h : UInt32.ofNat p = UInt32.ofNat q) : p = q := by
  have := congrArg UInt32.toNat h
  simp only [UInt32.toNat_ofNat'] at this
  omega

/-- `tail` どうしが容量より離れていなければ、`rte_ring_count` はその差である。 -/
theorem rteRingCount_ofNat {α : Type*} (g : Geometry) {r : RteRing α} {p q : Nat}
    (hp : (r.ht .prod).tail = UInt32.ofNat p) (hq : (r.ht .cons).tail = UInt32.ofNat q)
    (hle : q ≤ p) (hcap : p ≤ q + g.capacity.toNat) : (rteRingCount g r).toNat = p - q := by
  have hlt := g.capacity_lt
  have hsub : UInt32.ofNat p - UInt32.ofNat q = UInt32.ofNat (p - q) := by
    have := g.capacity_lt_word
    apply UInt32.toNat_inj.mp
    simp only [UInt32.toNat_sub, UInt32.toNat_ofNat']
    omega
  have hcount : ((r.ht .prod).tail - (r.ht .cons).tail &&& g.mask).toNat = p - q := by
    rw [hp, hq, hsub, g.and_mask, Nat.mod_eq_of_lt (by omega)]
  have hnot : ¬ g.capacity < ((r.ht .prod).tail - (r.ht .cons).tail &&& g.mask) := by
    rw [UInt32.lt_iff_toNat_lt, hcount]
    omega
  simp only [rteRingCount, if_neg hnot]
  exact hcount

/-- `i` 番目の要素の場所。`__rte_ring_enqueue_elems` と `__rte_ring_dequeue_elems` が触る順である。 -/
def slotIndex (g : Geometry) (head : UInt32) (i : Nat) : Nat :=
  ((head + UInt32.ofNat i) &&& g.mask).toNat

theorem slotIndex_ofNat (g : Geometry) (p i : Nat) :
    slotIndex g (UInt32.ofNat p) i = (p + i) % 2 ^ g.bits := by
  rw [slotIndex, ← UInt32.ofNat_add, g.and_mask]

/--
`__rte_ring_enqueue_elems`、`__rte_ring_dequeue_elems` の一要素ぶん。

enqueue は `obj_table` から配列へ、dequeue は配列から手元へ写す。
-/
def copyOne {α : Type*} (g : Geometry) (slots : Nat → α) (c : Call α) (old : UInt32) (i : Nat)
    (got : List α) : (Nat → α) × List α :=
  match c.side with
  | .prod => (Function.update slots (slotIndex g old i) (c.objs i), got)
  | .cons => (slots, got ++ [slots (slotIndex g old i)])

/-- 要素を先頭から `k` 個写す。 -/
def copyAll {α : Type*} (g : Geometry) (slots : Nat → α) (c : Call α) (old : UInt32) :
    Nat → (Nat → α) × List α
  | 0 => (slots, [])
  | k + 1 =>
    let (slots, got) := copyAll g slots c old k
    copyOne g slots c old k got

section

variable {α : Type*} {g : Geometry} {slots : Nat → α} {c : Call α} {old : UInt32}

theorem slotIndex_eq (g : Geometry) (old : UInt32) (i : Nat) :
    slotIndex g old i = (old.toNat + i) % 2 ^ g.bits := by
  have := slotIndex_ofNat g old.toNat i
  rwa [UInt32.ofNat_toNat] at this

/-- ring の段数までの個数なら、別の要素は別の場所に写る。 -/
theorem slotIndex_inj {n i j : Nat} (hn : n ≤ 2 ^ g.bits) (hi : i < n) (hj : j < n)
    (h : slotIndex g old i = slotIndex g old j) : i = j := by
  by_contra hne
  rw [slotIndex_eq, slotIndex_eq] at h
  refine @Board.mod_ne_of_near old.toNat _ _ _ ?_ ?_ ?_ ?_ ?_ h <;> omega

/-- enqueue は、`k` 個の場所に順に要素を置き、ほかの場所は変えない。 -/
theorem copyAll_prod (hc : c.side = .prod) {k : Nat} (hk : k ≤ 2 ^ g.bits) :
    (∀ j, j < k → (copyAll g slots c old k).1 (slotIndex g old j) = c.objs j) ∧
      ∀ p, (∀ j, j < k → p ≠ slotIndex g old j) → (copyAll g slots c old k).1 p = slots p := by
  induction k with
  | zero => exact ⟨fun j hj => absurd hj (Nat.not_lt_zero j), fun p _ => rfl⟩
  | succ k ih =>
    obtain ⟨hput, hkeep⟩ := ih (by omega)
    have hstep : (copyAll g slots c old (k + 1)).1 =
        Function.update (copyAll g slots c old k).1 (slotIndex g old k) (c.objs k) := by
      simp only [copyAll, copyOne, hc]
    rw [hstep]
    constructor
    · intro j hj
      by_cases hjk : j = k
      · subst hjk
        rw [Function.update_self]
      · rw [Function.update_of_ne]
        · exact hput j (by omega)
        · intro heq
          exact hjk (slotIndex_inj hk (by omega) (by omega) heq)
    · intro p hp
      rw [Function.update_of_ne (hp k (by omega))]
      exact hkeep p fun j hj => hp j (by omega)

/-- dequeue は、`k` 個の場所を順に読み、場所は変えない。 -/
theorem copyAll_cons (hc : c.side = .cons) (k : Nat) :
    copyAll g slots c old k = (slots, (List.range k).map fun j => slots (slotIndex g old j)) := by
  induction k with
  | zero => rfl
  | succ k ih =>
    rw [copyAll, ih]
    simp only [copyOne, hc]
    rw [List.range_succ, List.map_append, List.map_singleton]

end

end L3fwd.Ring
