import L3fwd.Infra.Run
import L3fwd.Ring.Defs

/-!
# `tail` を待たない ring

`RTE_RING_SYNC_MT_RTS` の ring では、終えた thread が前の thread の終わりを待たない。
`head` と `tail` は位置と回数の組で、終えた thread は `tail` の回数をひとつ進めるだけである。
回数が `head` に追いついたとき、つまり自分が最後の一人だったときだけ、`tail` の位置を
そのとき読んだ `head` の位置まで一度に進める。

1. `head` の組を読む
2. `head` と `tail` の位置の差が `htd_max` を超えていれば読み直す
3. 相手の `tail` を読み、動かす個数を決める。0 なら戻る
4. `head` の組を比べて入れ替える。負けたら 2 へ戻る
5. 要素をひとつずつ写す
6. `tail` の組を読み、`head` の組を読み、`tail` の組を比べて入れ替える。負けたら `head` から読み直す

`ops` と `fin` は折り返さない回数、`sent` は `head` を進めた順に並べた要素、
`taken` は終えた dequeue の始まりの位置とその要素である。
どれも履歴を残すためのもので、一歩の行き先は読まない。
-/

namespace L3fwd.Ring

open Infra

/-- `union __rte_ring_rts_poscnt`。 -/
structure PosCnt where
  cnt : UInt32
  pos : UInt32
deriving DecidableEq

/-- `struct rte_ring_rts_headtail`。 -/
structure RtsHeadtail where
  tail : PosCnt
  head : PosCnt
  htdMax : UInt32

/-- `rts_prod` と `rts_cons`、要素の並び。 -/
structure RtsRing (α : Type*) where
  ht : Side → RtsHeadtail
  slots : Nat → α

namespace RtsRing

variable {α : Type*} (r : RtsRing α)

/-- `ht->head.raw = head.raw`。 -/
def setHead (σ : Side) (head : PosCnt) : RtsRing α :=
  { r with ht := Function.update r.ht σ { r.ht σ with head := head } }

/-- `ht->tail.raw = tail.raw`。 -/
def setTail (σ : Side) (tail : PosCnt) : RtsRing α :=
  { r with ht := Function.update r.ht σ { r.ht σ with tail := tail } }

section

variable (σ : Side) (p : PosCnt)

@[simp] theorem setHead_self : ((r.setHead σ p).ht σ).head = p := by
  simp [setHead]

@[simp] theorem setTail_self : ((r.setTail σ p).ht σ).tail = p := by
  simp [setTail]

@[simp] theorem setHead_tail (τ : Side) : ((r.setHead σ p).ht τ).tail = (r.ht τ).tail := by
  by_cases h : τ = σ
  · subst h
    simp [setHead]
  · simp [setHead, h]

@[simp] theorem setTail_head (τ : Side) : ((r.setTail σ p).ht τ).head = (r.ht τ).head := by
  by_cases h : τ = σ
  · subst h
    simp [setTail]
  · simp [setTail, h]

theorem setHead_of_ne {τ : Side} (h : τ ≠ σ) : (r.setHead σ p).ht τ = r.ht τ := by
  simp [setHead, h]

theorem setTail_of_ne {τ : Side} (h : τ ≠ σ) : (r.setTail σ p).ht τ = r.ht τ := by
  simp [setTail, h]

end

end RtsRing

/-- thread の居場所。 -/
inductive RtsPc (α : Type*) where
  | idle (ret : Option (Result α))
  | load (c : Call α)
  | headWait (c : Call α) (oh : PosCnt)
  | readTail (c : Call α) (oh : PosCnt)
  | moveHead (c : Call α) (oh : PosCnt) (free n : UInt32)
  | copy (c : Call α) (old free n : UInt32) (i : Nat) (got : List α)
  | loadTail (c : Call α) (old free n : UInt32) (got : List α)
  | loadHead (c : Call α) (old free n : UInt32) (got : List α) (ot : PosCnt)
  | casTail (c : Call α) (old free n : UInt32) (got : List α) (ot nt : PosCnt)

/-- `head` を進めてから `tail` の回数を進めるまでの間なら、その側。 -/
def RtsPc.inside {α : Type*} : RtsPc α → Option Side
  | .copy c _ _ _ _ _ => some c.side
  | .loadTail c _ _ _ _ => some c.side
  | .loadHead c _ _ _ _ _ => some c.side
  | .casTail c _ _ _ _ _ _ => some c.side
  | _ => none

/-- ring と、それを使う thread。 -/
structure RtsSys (ι α : Type*) where
  ring : RtsRing α
  pcs : ι → RtsPc α
  ops : Side → Nat
  fin : Side → Nat
  seen : ι → Nat
  sent : List α
  taken : List (UInt32 × List α)

/-- 呼び出しを始めるか、一歩進む。 -/
inductive RtsAct (ι α : Type*) where
  | call (t : ι) (c : Call α)
  | run (t : ι)

/-- `__rte_ring_rts_update_tail` が書こうとする値。回数が `head` に追いつけば、位置も追いつかせる。 -/
def nextTail (ot h : PosCnt) : PosCnt :=
  if ot.cnt + 1 = h.cnt then ⟨ot.cnt + 1, h.pos⟩ else ⟨ot.cnt + 1, ot.pos⟩

namespace RtsSys

variable {ι α : Type*} [DecidableEq ι]

def setPc (s : RtsSys ι α) (t : ι) (pc : RtsPc α) : RtsSys ι α :=
  { s with pcs := Function.update s.pcs t pc }

/-- `head` の組を読む。 -/
def load (s : RtsSys ι α) (t : ι) (c : Call α) : RtsSys ι α :=
  { s.setPc t (.headWait c (s.ring.ht c.side).head) with
    seen := Function.update s.seen t (s.ops c.side) }

/-- `__rte_ring_rts_head_wait`。 -/
def headWait (s : RtsSys ι α) (t : ι) (c : Call α) (oh : PosCnt) : RtsSys ι α :=
  if (s.ring.ht c.side).htdMax < oh.pos - (s.ring.ht c.side).tail.pos then s.load t c
  else s.setPc t (.readTail c oh)

/-- 相手の `tail` を読み、動かす個数を決める。 -/
def readTail (g : Geometry) (s : RtsSys ι α) (t : ι) (c : Call α) (oh : PosCnt) : RtsSys ι α :=
  let free := entries g c.side (s.ring.ht c.side.opp).tail.pos oh.pos
  let n := granted c.behavior c.n free
  if n = 0 then s.setPc t (.idle (some ⟨0, free, []⟩)) else s.setPc t (.moveHead c oh free n)

/-- `head` の組を比べて入れ替える。負けたときは今の値を読んで待つ。 -/
def moveHead (s : RtsSys ι α) (t : ι) (c : Call α) (oh : PosCnt) (free n : UInt32) :
    RtsSys ι α :=
  if (s.ring.ht c.side).head = oh then
    { s.setPc t (.copy c oh.pos free n 0 []) with
      ring := s.ring.setHead c.side ⟨oh.cnt + 1, oh.pos + n⟩
      ops := Function.update s.ops c.side (s.ops c.side + 1)
      sent := match c.side with
        | .prod => s.sent ++ (List.range n.toNat).map c.objs
        | .cons => s.sent }
  else s.load t c

/-- 要素をひとつ写す。写し終えていれば `__rte_ring_rts_update_tail` に入る。 -/
def copy (g : Geometry) (s : RtsSys ι α) (t : ι) (c : Call α) (old free n : UInt32) (i : Nat)
    (got : List α) : RtsSys ι α :=
  if i < n.toNat then
    let (slots, got) := copyOne g s.ring.slots c old i got
    { s.setPc t (.copy c old free n (i + 1) got) with ring := { s.ring with slots := slots } }
  else s.setPc t (.loadTail c old free n got)

/-- `tail` の組を読む。 -/
def loadTail (s : RtsSys ι α) (t : ι) (c : Call α) (old free n : UInt32) (got : List α) :
    RtsSys ι α :=
  { s.setPc t (.loadHead c old free n got (s.ring.ht c.side).tail) with
    seen := Function.update s.seen t (s.fin c.side) }

/-- `tail` の組を比べて入れ替える。負けたときは今の値を読んで `head` から読み直す。 -/
def casTail (s : RtsSys ι α) (t : ι) (c : Call α) (old free n : UInt32) (got : List α)
    (ot nt : PosCnt) : RtsSys ι α :=
  if (s.ring.ht c.side).tail = ot then
    { s.setPc t (.idle (some ⟨n, free - n, got⟩)) with
      ring := s.ring.setTail c.side nt
      fin := Function.update s.fin c.side (s.fin c.side + 1)
      taken := match c.side with
        | .prod => s.taken
        | .cons => s.taken ++ [(old, got)] }
  else s.loadTail t c old free n got

/-- 一歩。 -/
def step (g : Geometry) (s : RtsSys ι α) : RtsAct ι α → Option (RtsSys ι α)
  | .call t c =>
    match s.pcs t with
    | .idle _ => some (s.setPc t (.load c))
    | _ => none
  | .run t =>
    match s.pcs t with
    | .idle _ => none
    | .load c => some (s.load t c)
    | .headWait c oh => some (s.headWait t c oh)
    | .readTail c oh => some (s.readTail g t c oh)
    | .moveHead c oh free n => some (s.moveHead t c oh free n)
    | .copy c old free n i got => some (s.copy g t c old free n i got)
    | .loadTail c old free n got => some (s.loadTail t c old free n got)
    | .loadHead c old free n got ot =>
      some (s.setPc t (.casTail c old free n got ot (nextTail ot (s.ring.ht c.side).head)))
    | .casTail c old free n got ot nt => some (s.casTail t c old free n got ot nt)

/-- `rte_ring_init` の直後。 -/
def init (htdMax : UInt32) (slots : Nat → α) : RtsSys ι α where
  ring := ⟨fun _ => ⟨⟨0, 0⟩, ⟨0, 0⟩, htdMax⟩, slots⟩
  pcs _ := .idle none
  ops _ := 0
  fin _ := 0
  seen _ := 0
  sent := []
  taken := []

/-- 呼び出す側の約束。組を比べて等しかったとき、読んでから進んだ回数は 2^32 に満たない。 -/
def Allowed (s : RtsSys ι α) : RtsAct ι α → Prop
  | .call _ _ => True
  | .run t =>
    (∀ c oh free n, s.pcs t = .moveHead c oh free n → (s.ring.ht c.side).head = oh →
      s.ops c.side - s.seen t < 2 ^ 32) ∧
    ∀ c old free n got ot nt, s.pcs t = .casTail c old free n got ot nt →
      (s.ring.ht c.side).tail = ot → s.fin c.side - s.seen t < 2 ^ 32

end RtsSys

end L3fwd.Ring
