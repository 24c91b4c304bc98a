import L3fwd.Infra.Run
import L3fwd.Ring.Defs

/-!
# 何人もの thread が使う ring

`__rte_ring_do_enqueue_elem` と `__rte_ring_do_dequeue_elem` を、共有の場所を触るごとに
一歩として書く。どの thread の一歩も、ほかの thread の一歩の間に入りうる。

1. `head` を読む
2. 相手の `tail` を読み、動かす個数を決める。0 なら戻る
3. `head` を比べて入れ替える（`is_sp`、`is_sc` では書くだけ）。負けたら 1 へ戻る
4. 要素をひとつずつ写す
5. `tail` が自分の始まりに来るのを待つ（`is_sp`、`is_sc` では待たない）
6. `tail` を書いて戻る

`total` と `seen` は折り返さない数で、`published` と `received` は `tail` を書いた順に並べた要素である。
どれも履歴を残すためのもので、一歩の行き先は読まない。
-/

namespace L3fwd.Ring

open Infra

/-- 呼び出しの引数と、`is_sp`（`is_sc`）。 -/
structure MtCall (α : Type*) extends Call α where
  single : Bool

/-- thread の居場所。 -/
inductive MtPc (α : Type*) where
  | idle (ret : Option (Result α))
  | readHead (c : MtCall α)
  | readTail (c : MtCall α) (old : UInt32)
  | moveHead (c : MtCall α) (old free n : UInt32)
  | copy (c : MtCall α) (old free n : UInt32) (i : Nat) (got : List α)
  | waitTail (c : MtCall α) (old free n : UInt32) (got : List α)
  | storeTail (c : MtCall α) (old free n : UInt32) (got : List α)

/-- 呼び出しの途中なら、その引数。 -/
def MtPc.call {α : Type*} : MtPc α → Option (MtCall α)
  | .idle _ => none
  | .readHead c => some c
  | .readTail c _ => some c
  | .moveHead c _ _ _ => some c
  | .copy c _ _ _ _ _ => some c
  | .waitTail c _ _ _ _ => some c
  | .storeTail c _ _ _ _ => some c

/-- ring と、それを使う thread。 -/
structure MtSys (ι α : Type*) where
  ring : RteRing α
  pcs : ι → MtPc α
  total : Side → Nat
  seen : ι → Nat
  published : List α
  received : List α

/-- 呼び出しを始めるか、一歩進む。 -/
inductive MtAct (ι α : Type*) where
  | call (t : ι) (c : MtCall α)
  | run (t : ι)

namespace MtSys

variable {ι α : Type*} [DecidableEq ι]

def setPc (s : MtSys ι α) (t : ι) (pc : MtPc α) : MtSys ι α :=
  { s with pcs := Function.update s.pcs t pc }

@[simp] theorem setPc_pcs_self (s : MtSys ι α) (t : ι) (pc : MtPc α) : (s.setPc t pc).pcs t = pc := by
  simp [setPc]

/-- `*old_head = r->prod.head`。 -/
def readHead (s : MtSys ι α) (t : ι) (c : MtCall α) : MtSys ι α :=
  { s.setPc t (.readTail c (s.ring.ht c.side).head) with
    seen := Function.update s.seen t (s.total c.side) }

/-- 相手の `tail` を読み、動かす個数を決める。 -/
def readTail (g : Geometry) (s : MtSys ι α) (t : ι) (c : MtCall α) (old : UInt32) : MtSys ι α :=
  let free := entries g c.side (s.ring.ht c.side.opp).tail old
  let n := granted c.behavior c.n free
  if n = 0 then s.setPc t (.idle (some ⟨0, free, []⟩)) else s.setPc t (.moveHead c old free n)

/-- `r->prod.head = *new_head`、または `rte_atomic32_cmpset`。 -/
def moveHead (s : MtSys ι α) (t : ι) (c : MtCall α) (old free n : UInt32) : MtSys ι α :=
  if c.single = true ∨ (s.ring.ht c.side).head = old then
    { s.setPc t (.copy c old free n 0 []) with
      ring := s.ring.setHead c.side (old + n)
      total := Function.update s.total c.side (s.total c.side + n.toNat) }
  else s.setPc t (.readHead c)

/-- 要素をひとつ写す。写し終えていれば `__rte_ring_update_tail` に入る。 -/
def copy (g : Geometry) (s : MtSys ι α) (t : ι) (c : MtCall α) (old free n : UInt32) (i : Nat)
    (got : List α) : MtSys ι α :=
  if i < n.toNat then
    let (slots, got) := copyOne g s.ring.slots c.toCall old i got
    { s.setPc t (.copy c old free n (i + 1) got) with ring := { s.ring with slots := slots } }
  else if c.single then s.setPc t (.storeTail c old free n got)
  else s.setPc t (.waitTail c old free n got)

/-- `ht->tail = new_val` と、呼び出しの終わり。 -/
def storeTail (s : MtSys ι α) (t : ι) (c : MtCall α) (old free n : UInt32) (got : List α) :
    MtSys ι α :=
  let s' := { s.setPc t (.idle (some ⟨n, free - n, got⟩)) with
    ring := s.ring.setTail c.side (old + n) }
  match c.side with
  | .prod => { s' with published := s.published ++ c.moved n got }
  | .cons => { s' with received := s.received ++ c.moved n got }

section

variable {s : MtSys ι α} {t : ι} {c : MtCall α} {old free n : UInt32} {got : List α}

theorem storeTail_pcs : (s.storeTail t c old free n got).pcs =
    Function.update s.pcs t (.idle (some ⟨n, free - n, got⟩)) := by
  cases hc : c.side <;> simp only [storeTail, hc] <;> rfl

theorem storeTail_ring :
    (s.storeTail t c old free n got).ring = s.ring.setTail c.side (old + n) := by
  cases hc : c.side <;> simp only [storeTail, hc]

end

/-- 一歩。`rte_wait_until_equal_32` で待っている間は進めない。 -/
def step (g : Geometry) (s : MtSys ι α) : MtAct ι α → Option (MtSys ι α)
  | .call t c =>
    match s.pcs t with
    | .idle _ => some (s.setPc t (.readHead c))
    | _ => none
  | .run t =>
    match s.pcs t with
    | .idle _ => none
    | .readHead c => some (s.readHead t c)
    | .readTail c old => some (s.readTail g t c old)
    | .moveHead c old free n => some (s.moveHead t c old free n)
    | .copy c old free n i got => some (s.copy g t c old free n i got)
    | .waitTail c old free n got =>
      if (s.ring.ht c.side).tail = old then some (s.setPc t (.storeTail c old free n got)) else none
    | .storeTail c old free n got => some (s.storeTail t c old free n got)

/-- `rte_ring_init` の直後。 -/
def init (slots : Nat → α) : MtSys ι α where
  ring := ⟨fun _ => ⟨0, 0⟩, slots⟩
  pcs _ := .idle none
  total _ := 0
  seen _ := 0
  published := []
  received := []

/--
呼び出す側の約束。

`sp` と `sc` の関数を使う側には、ほかに誰もいない。
`head` を比べて等しかったとき、読んでからの動きは 2^32 に満たない。
-/
def Allowed (s : MtSys ι α) : MtAct ι α → Prop
  | .call t c => ∀ u d, u ≠ t → (s.pcs u).call = some d → d.side = c.side →
      c.single = false ∧ d.single = false
  | .run t => ∀ c old free n, s.pcs t = .moveHead c old free n → (s.ring.ht c.side).head = old →
      s.total c.side - s.seen t < 2 ^ 32

end MtSys

end L3fwd.Ring
