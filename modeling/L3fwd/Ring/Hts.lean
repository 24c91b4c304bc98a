import L3fwd.Infra.Run
import L3fwd.Ring.Defs

/-!
# 一人ずつ使う ring と、途中で止められる呼び出し

`RTE_RING_SYNC_MT_HTS` の ring は、`head` と `tail` をまとめて一つの 64 bit の語として比べて
入れ替える。`head` と `tail` が等しくなるまで待つので、`head` を進めてから `tail` を書くまでの間、
その側を使うのは一人だけである。

この間に呼び出し側へ戻るのが peek API で、`start` で区間を押さえ、`finish` で押さえた区間のうち
先頭の何個かだけを動かし、残りは元に戻す。`zc` の関数は要素を写さず、配列の中の場所を渡す。

1. `head` と `tail` をまとめて読む
2. 等しくなるまで読み直す（`RTE_RING_SYNC_ST` では待たない）
3. 相手の `tail` を読み、動かす個数を決める。0 なら戻る
4. まとめて比べて入れ替える（`ST` では `head` を書くだけ）。負けたら 2 へ戻る
5. 要素を写す。`start` はここで戻り、`finish` が来るまで区間を持ち続ける
6. `tail` を書いて戻る。`finish` は `head` も同じ値にする

`passed` は `tail` を越えた要素を順に並べたもの、`seen` は読んだときのその長さである。
どちらも履歴を残すためのもので、一歩の行き先は読まない。
-/

namespace L3fwd.Ring

open Infra

/-- 一度で終わる呼び出し、`start` と `finish` に分かれた呼び出し、場所を渡す呼び出し。 -/
inductive PeekMode where
  | whole
  | peek
  | zc
deriving DecidableEq

/-- 呼び出しの引数。`single` はその側が `RTE_RING_SYNC_ST` であることを表す。 -/
structure HtsCall (α : Type*) extends Call α where
  single : Bool
  mode : PeekMode

/--
thread の居場所。

`held` は `start` から戻って `finish` を待っているところで、`got` は dequeue が写した要素、
`view` は enqueue の区間の今の中身である。`moved` は動かす要素で、`tail` とともに渡される。
-/
inductive HtsPc (α : Type*) where
  | idle (ret : Option (Result α))
  | load (c : HtsCall α)
  | headWait (c : HtsCall α) (op : RteRingHeadtail)
  | readTail (c : HtsCall α) (op : RteRingHeadtail)
  | moveHead (c : HtsCall α) (op : RteRingHeadtail) (free n : UInt32)
  | copy (c : HtsCall α) (old free n : UInt32) (i : Nat) (got : List α)
  | storeTail (c : HtsCall α) (old free n : UInt32) (got : List α)
  | held (c : HtsCall α) (old free n : UInt32) (got : List α) (view : Nat → α)
  | getTail (c : HtsCall α) (old n : UInt32) (got : List α) (view : Nat → α) (num : UInt32)
      (objs : Nat → α)
  | fill (c : HtsCall α) (tail num : UInt32) (objs : Nat → α) (i : Nat)
  | setHeadTail (c : HtsCall α) (tail num : UInt32) (moved : List α)
  | setTail (c : HtsCall α) (tail num : UInt32) (moved : List α)

namespace HtsPc

variable {α : Type*}

/-- 呼び出しの途中なら、その引数。 -/
def call : HtsPc α → Option (HtsCall α)
  | idle _ => none
  | load c => some c
  | headWait c _ => some c
  | readTail c _ => some c
  | moveHead c _ _ _ => some c
  | copy c _ _ _ _ _ => some c
  | storeTail c _ _ _ _ => some c
  | held c _ _ _ _ _ => some c
  | getTail c _ _ _ _ _ _ => some c
  | fill c _ _ _ _ => some c
  | setHeadTail c _ _ _ => some c
  | setTail c _ _ _ => some c

/-- `head` を進めてから `tail` を書くまでの間、区間を持っている側。 -/
def inside : HtsPc α → Option Side
  | copy c _ _ _ _ _ => some c.side
  | storeTail c _ _ _ _ => some c.side
  | held c _ _ _ _ _ => some c.side
  | getTail c _ _ _ _ _ _ => some c.side
  | fill c _ _ _ _ => some c.side
  | setHeadTail c _ _ _ => some c.side
  | setTail c _ _ _ => some c.side
  | _ => none

end HtsPc

/-- ring と、それを使う thread。 -/
structure HtsSys (ι α : Type*) where
  ring : RteRing α
  pcs : ι → HtsPc α
  passed : Side → List α
  seen : ι → Nat

/--
呼び出しを始める、一歩進む、`finish` を呼ぶ、`zc` で渡された場所に書く。

`objs` は `rte_ring_enqueue_elem_finish` の `obj_table` である。
-/
inductive HtsAct (ι α : Type*) where
  | call (t : ι) (c : HtsCall α)
  | run (t : ι)
  | finish (t : ι) (num : UInt32) (objs : Nat → α)
  | poke (t : ι) (j : Nat) (x : α)

/-- `struct rte_ring_zc_data`。場所は配列の何番目かで表す。`ptr2` が `NULL` のときは `none` である。 -/
structure RteRingZcData where
  ptr1 : Nat
  ptr2 : Option Nat
  n1 : UInt32

/--
`__rte_ring_get_elem_addr`。

番地ではなく、配列の何番目の要素かを求める。`esize` を掛けて番地に直す `idx * scale` は表さない。
-/
def getElemAddr (g : Geometry) (head num : UInt32) : RteRingZcData :=
  let idx := head &&& g.mask
  if g.size < idx + num then ⟨idx.toNat, some 0, g.size - idx⟩ else ⟨idx.toNat, none, num⟩

/-- 渡された場所のうち `j` 番目の要素が置かれるところ。 -/
def RteRingZcData.slot (z : RteRingZcData) (j : Nat) : Nat :=
  if j < z.n1.toNat then z.ptr1 + j else z.ptr2.getD 0 + (j - z.n1.toNat)

/-- 場所にひとつ書く。 -/
def RteRing.setSlot {α : Type*} (r : RteRing α) (p : Nat) (x : α) : RteRing α :=
  { r with slots := Function.update r.slots p x }

theorem RteRing.setSlot_slots {α : Type*} (r : RteRing α) (p : Nat) (x : α) :
    (r.setSlot p x).slots = Function.update r.slots p x := rfl

/-- `__rte_ring_hts_get_tail` と `__rte_ring_st_get_tail` の返す個数。押さえた数を超えていれば 0 である。 -/
def getTailNum (ht : RteRingHeadtail) (num : UInt32) : UInt32 :=
  if num ≤ ht.head - ht.tail then num else 0

namespace HtsSys

variable {ι α : Type*} [DecidableEq ι]

def setPc (s : HtsSys ι α) (t : ι) (pc : HtsPc α) : HtsSys ι α :=
  { s with pcs := Function.update s.pcs t pc }

/-- `head` と `tail` をまとめて読む。 -/
def loadPos (s : HtsSys ι α) (t : ι) (c : HtsCall α) : HtsSys ι α :=
  { s.setPc t (.headWait c (s.ring.ht c.side)) with
    seen := Function.update s.seen t (s.passed c.side).length }

/-- `__rte_ring_hts_head_wait`。`ST` では待たない。 -/
def headWait (s : HtsSys ι α) (t : ι) (c : HtsCall α) (op : RteRingHeadtail) : HtsSys ι α :=
  if c.single = true ∨ op.head = op.tail then s.setPc t (.readTail c op) else s.loadPos t c

/-- 相手の `tail` を読み、動かす個数を決める。 -/
def readTail (g : Geometry) (s : HtsSys ι α) (t : ι) (c : HtsCall α) (op : RteRingHeadtail) :
    HtsSys ι α :=
  let free := entries g c.side (s.ring.ht c.side.opp).tail op.head
  let n := granted c.behavior c.n free
  if n = 0 then s.setPc t (.idle (some ⟨0, free, []⟩)) else s.setPc t (.moveHead c op free n)

/-- 区間を取った後の居場所。要素を写さない `start` はすぐ戻る。 -/
def entered (g : Geometry) (slots : Nat → α) (c : HtsCall α) (old free n : UInt32) : HtsPc α :=
  match c.mode, c.side with
  | .whole, _ => .copy c old free n 0 []
  | .peek, .cons => .copy c old free n 0 []
  | .peek, .prod => .held c old free n [] fun j => slots (slotIndex g old j)
  | .zc, _ => .held c old free n [] fun j => slots (slotIndex g old j)

/-- `__atomic_compare_exchange_n`、`ST` では `head` を書くだけ。負けたときは今の値を読んで待つ。 -/
def moveHead (g : Geometry) (s : HtsSys ι α) (t : ι) (c : HtsCall α) (op : RteRingHeadtail)
    (free n : UInt32) : HtsSys ι α :=
  if c.single = true ∨ s.ring.ht c.side = op then
    { s.setPc t (entered g s.ring.slots c op.head free n) with
      ring := s.ring.setHead c.side (op.head + n) }
  else s.loadPos t c

/-- 要素をひとつ写す。写し終えていれば `tail` を書くか、`start` から戻る。 -/
def copy (g : Geometry) (s : HtsSys ι α) (t : ι) (c : HtsCall α) (old free n : UInt32) (i : Nat)
    (got : List α) : HtsSys ι α :=
  if i < n.toNat then
    let (slots, got) := copyOne g s.ring.slots c.toCall old i got
    { s.setPc t (.copy c old free n (i + 1) got) with ring := { s.ring with slots := slots } }
  else match c.mode with
    | .whole => s.setPc t (.storeTail c old free n got)
    | _ => s.setPc t (.held c old free n got fun j => s.ring.slots (slotIndex g old j))

/-- `tail` を越えた要素を記す。 -/
def pass (s : HtsSys ι α) (σ : Side) (moved : List α) : HtsSys ι α :=
  { s with passed := Function.update s.passed σ (s.passed σ ++ moved) }

/-- `__rte_ring_hts_update_tail` と、呼び出しの終わり。 -/
def storeTail (s : HtsSys ι α) (t : ι) (c : HtsCall α) (old free n : UInt32) (got : List α) :
    HtsSys ι α :=
  { (s.setPc t (.idle (some ⟨n, free - n, got⟩))).pass c.side (c.moved n got) with
    ring := s.ring.setTail c.side (old + n) }

/-- `finish` が動かす要素。`zc` の dequeue は、渡した場所に今ある要素である。 -/
def finished (g : Geometry) (slots : Nat → α) (c : HtsCall α) (old n num : UInt32) (got : List α)
    (view : Nat → α) : List α :=
  match c.side, c.mode with
  | .prod, _ => (List.range num.toNat).map view
  | .cons, .zc => (List.range num.toNat).map fun j => slots ((getElemAddr g old n).slot j)
  | .cons, _ => got.take num.toNat

/-- `__rte_ring_hts_get_tail`。写すものがあれば写しに行く。 -/
def getTail (g : Geometry) (s : HtsSys ι α) (t : ι) (c : HtsCall α) (old n : UInt32)
    (got : List α) (view : Nat → α) (num : UInt32) (objs : Nat → α) : HtsSys ι α :=
  let tail := (s.ring.ht c.side).tail
  let num := getTailNum (s.ring.ht c.side) num
  match c.side, c.mode with
  | .prod, .peek => s.setPc t (.fill c tail num objs 0)
  | _, _ => s.setPc t (.setHeadTail c tail num (finished g s.ring.slots c old n num got view))

/-- `rte_ring_enqueue_elem_finish` の `__rte_ring_enqueue_elems`。 -/
def fill (g : Geometry) (s : HtsSys ι α) (t : ι) (c : HtsCall α) (tail num : UInt32)
    (objs : Nat → α) (i : Nat) : HtsSys ι α :=
  if i < num.toNat then
    { s.setPc t (.fill c tail num objs (i + 1)) with
      ring := s.ring.setSlot (slotIndex g tail i) (objs i) }
  else s.setPc t (.setHeadTail c tail num ((List.range num.toNat).map objs))

/-- `__rte_ring_st_set_head_tail` は `head` と `tail` を順に、`__rte_ring_hts_set_head_tail` は一度に書く。 -/
def setHeadTail (s : HtsSys ι α) (t : ι) (c : HtsCall α) (tail num : UInt32) (moved : List α) :
    HtsSys ι α :=
  if c.single = true then
    { s.setPc t (.setTail c tail num moved) with ring := s.ring.setHead c.side (tail + num) }
  else
    { (s.setPc t (.idle none)).pass c.side moved with
      ring := (s.ring.setHead c.side (tail + num)).setTail c.side (tail + num) }

/-- `__rte_ring_st_set_head_tail` の後半。 -/
def setTail (s : HtsSys ι α) (t : ι) (c : HtsCall α) (tail num : UInt32) (moved : List α) :
    HtsSys ι α :=
  { (s.setPc t (.idle none)).pass c.side moved with
    ring := s.ring.setTail c.side (tail + num) }

/-- `zc` で渡された `j` 番目の場所に書く。 -/
def poke (g : Geometry) (s : HtsSys ι α) (t : ι) (c : HtsCall α) (old free n : UInt32)
    (got : List α) (view : Nat → α) (j : Nat) (x : α) : HtsSys ι α :=
  { s.setPc t (.held c old free n got (Function.update view j x)) with
    ring := s.ring.setSlot ((getElemAddr g old n).slot j) x }

/-- 一歩。`start` から戻った thread は、`finish` を呼ぶまで進まない。 -/
def step (g : Geometry) (s : HtsSys ι α) : HtsAct ι α → Option (HtsSys ι α)
  | .call t c =>
    match s.pcs t with
    | .idle _ => some (s.setPc t (.load c))
    | _ => none
  | .run t =>
    match s.pcs t with
    | .idle _ => none
    | .load c => some (s.loadPos t c)
    | .headWait c op => some (s.headWait t c op)
    | .readTail c op => some (s.readTail g t c op)
    | .moveHead c op free n => some (s.moveHead g t c op free n)
    | .copy c old free n i got => some (s.copy g t c old free n i got)
    | .storeTail c old free n got => some (s.storeTail t c old free n got)
    | .held _ _ _ _ _ _ => none
    | .getTail c old n got view num objs => some (s.getTail g t c old n got view num objs)
    | .fill c tail num objs i => some (s.fill g t c tail num objs i)
    | .setHeadTail c tail num moved => some (s.setHeadTail t c tail num moved)
    | .setTail c tail num moved => some (s.setTail t c tail num moved)
  | .finish t num objs =>
    match s.pcs t with
    | .held c old _ n got view => some (s.setPc t (.getTail c old n got view num objs))
    | _ => none
  | .poke t j x =>
    match s.pcs t with
    | .held c old free n got view =>
      if c.mode = .zc ∧ c.side = .prod ∧ j < n.toNat then
        some (s.poke g t c old free n got view j x)
      else none
    | _ => none

/-- `rte_ring_init` の直後。 -/
def init (slots : Nat → α) : HtsSys ι α where
  ring := ⟨fun _ => ⟨0, 0⟩, slots⟩
  pcs _ := .idle none
  passed _ := []
  seen _ := 0

/--
呼び出す側の約束。

`ST` の側には、ほかに誰もいない。
まとめて比べて等しかったとき、読んでから `tail` を越えた要素は 2^32 に満たない。
-/
def Allowed (s : HtsSys ι α) : HtsAct ι α → Prop
  | .call t c => ∀ u d, u ≠ t → (s.pcs u).call = some d → d.side = c.side →
      c.single = false ∧ d.single = false
  | .run t => ∀ c op free n, s.pcs t = .moveHead c op free n → s.ring.ht c.side = op →
      (s.passed c.side).length - s.seen t < 2 ^ 32
  | .finish _ _ _ => True
  | .poke _ _ _ => True

end HtsSys

end L3fwd.Ring
