import Mathlib.Logic.Relation
import L3fwd.Hash.Insert

/-!
# 押し出しの path

幅優先探索が見つけた path に沿う押し出し `moveAlong` の性質。

* **どんな path でも**：途中で table が変わって path が古くなっていても、押し出しは
  「一つの entry を行き先の bucket の空きへ移す」一歩の繰り返しである（`moveAlong_shifts`）
* **table が変わらないなら**：探索は 8 分木を幅優先の順にたどるので、最初に見つかる空きへの path は
  最短で、同じ bucket を二度通らない。したがって押し出しは途中で諦めない（`moveAlong_path`）
-/

namespace L3fwd.Hash

open Table

variable {h : RteHash}

/-! ## entry の移動 -/

/-- `q` の entry を、その行き先の bucket にある空き `p` へ移す。 -/
structure Shift (t t' : Table h) (q p : Pos) : Prop where
  ne : p ≠ q
  source : ∃ b, q.1 = .main b ∧ p.1 = .main (getAltBucketIndex h b (t.sigAt q))
  empty : t.idxAt p = emptySlot
  idx : ∀ r, t'.idxAt r = if r = p then t.idxAt q else if r = q then emptySlot else t.idxAt r
  sig : ∀ r, t'.sigAt r = if r = p then t.sigAt q else t.sigAt r
  next : t'.nextOf = t.nextOf
  keyStore : t'.keyStore = t.keyStore
  freeSlots : t'.freeSlots = t.freeSlots
  freeExtBkts : t'.freeExtBkts = t.freeExtBkts

/-- bucket と key store と ring が同じ table。`tbl_chng_cnt` だけが違いうる。 -/
structure SameContent (t t' : Table h) : Prop where
  bkts : t'.bkts = t.bkts
  keyStore : t'.keyStore = t.keyStore
  freeSlots : t'.freeSlots = t.freeSlots
  freeExtBkts : t'.freeExtBkts = t.freeExtBkts

/-- 移動の繰り返し。 -/
def Shifts : Table h → Table h → Prop :=
  Relation.ReflTransGen fun t t' => SameContent t t' ∨ ∃ q p, Shift t t' q p

/-- 移動で保たれる性質は、移動の繰り返しでも保たれる。 -/
theorem Shifts.invariant {t t' : Table h} {P : Table h → Prop} (hs : Shifts t t') (h0 : P t)
    (hsame : ∀ u u', P u → SameContent u u' → P u')
    (hshift : ∀ u u' q p, P u → Shift u u' q p → P u') : P t' := by
  induction hs with
  | refl => exact h0
  | tail _ hstep ih =>
    rcases hstep with hsame' | ⟨q, p, hs⟩
    · exact hsame _ _ ih hsame'
    · exact hshift _ _ q p ih hs

/-- 移動の繰り返しのうち、動かす entry の bucket の番号が `B` を満たすもの。 -/
def ShiftsWithin (B : UInt32 → Prop) : Table h → Table h → Prop :=
  Relation.ReflTransGen fun t t' =>
    SameContent t t' ∨ ∃ q p b, q.1 = .main b ∧ B b ∧ Shift t t' q p

theorem ShiftsWithin.shifts {B : UInt32 → Prop} {t t' : Table h} (hs : ShiftsWithin B t t') :
    Shifts t t' := by
  refine Relation.ReflTransGen.mono (fun u u' hstep => ?_) t t' hs
  rcases hstep with hsame | ⟨q, p, -, -, -, hshift⟩
  · exact Or.inl hsame
  · exact Or.inr ⟨q, p, hshift⟩

theorem ShiftsWithin.after {B : UInt32 → Prop} {t t' t'' : Table h} (hsame : SameContent t t')
    (hs : ShiftsWithin B t' t'') : ShiftsWithin B t t'' :=
  Relation.ReflTransGen.head (Or.inl hsame) hs

/-- 番号の条件つきの移動で保たれる性質は、その繰り返しでも保たれる。 -/
theorem ShiftsWithin.invariant {B : UInt32 → Prop} {t t' : Table h} {P : Table h → Prop}
    (hs : ShiftsWithin B t t') (h0 : P t) (hsame : ∀ u u', P u → SameContent u u' → P u')
    (hshift : ∀ u u' q p b, P u → q.1 = .main b → B b → Shift u u' q p → P u') : P t' := by
  induction hs with
  | refl => exact h0
  | tail _ hstep ih =>
    rcases hstep with hsame' | ⟨q, p, b, hq, hb, hs⟩
    · exact hsame _ _ ih hsame'
    · exact hshift _ _ q p b ih hq hb hs

theorem SameContent.nextOf {t t' : Table h} (hs : SameContent t t') : t'.nextOf = t.nextOf :=
  nextOf_congr hs.bkts

theorem Shifts.nextOf {t t' : Table h} (hs : Shifts t t') : t'.nextOf = t.nextOf := by
  refine Shifts.invariant (P := fun v => v.nextOf = t.nextOf) hs rfl ?_ ?_
  · intro v v' hv hsame
    exact hsame.nextOf.trans hv
  · intro v v' q p hv hshift
    exact hshift.next.trans hv

theorem Shifts.freeSlots {t t' : Table h} (hs : Shifts t t') : t'.freeSlots = t.freeSlots := by
  refine Shifts.invariant (P := fun v => v.freeSlots = t.freeSlots) hs rfl ?_ ?_
  · intro v v' hv hsame
    exact hsame.freeSlots.trans hv
  · intro v v' q p hv hshift
    exact hshift.freeSlots.trans hv

theorem Shifts.keyStore {t t' : Table h} (hs : Shifts t t') : t'.keyStore = t.keyStore := by
  refine Shifts.invariant (P := fun v => v.keyStore = t.keyStore) hs rfl ?_ ?_
  · intro v v' hv hsame
    exact hsame.keyStore.trans hv
  · intro v v' q p hv hshift
    exact hshift.keyStore.trans hv

theorem ext_of_entries {b b' : Bucket} (hsig : b.sigCurrent = b'.sigCurrent)
    (hidx : b.keyIdx = b'.keyIdx) (hnext : b.next = b'.next) : b = b' := by
  cases b
  cases b'
  simp_all

/-- 全 entry と連なりが同じなら bucket も同じである。 -/
theorem bkts_ext {t t' : Table h} (hidx : t'.idxAt = t.idxAt) (hsig : t'.sigAt = t.sigAt)
    (hnext : t'.nextOf = t.nextOf) : t'.bkts = t.bkts := by
  funext b
  exact ext_of_entries (funext fun i => congrFun hsig (b, i)) (funext fun i => congrFun hidx (b, i))
    (congrFun hnext b)

/-! ## どんな path でも -/

/-- node の pointer と番号が同じ bucket を指す。 -/
def QueueNode.WellFormed : QueueNode → Prop
  | .root bkt idx => bkt = .main idx
  | .child bkt idx prev _ => bkt = .main idx ∧ prev.WellFormed

theorem QueueNode.WellFormed.bkt_eq {node : QueueNode} (hw : node.WellFormed) :
    node.bkt = .main node.curBktIdx := by
  cases node with
  | root bkt idx => exact hw
  | child bkt idx prev slot => exact hw.1

/-- path のどの node の番号も `B` を満たす。 -/
def QueueNode.Within (B : UInt32 → Prop) : QueueNode → Prop
  | .root _ idx => B idx
  | .child _ idx prev _ => B idx ∧ prev.Within B

theorem QueueNode.Within.curBktIdx {B : UInt32 → Prop} {node : QueueNode} (hw : node.Within B) :
    B node.curBktIdx := by
  cases node with
  | root bkt idx => exact hw
  | child bkt idx prev slot => exact hw.1

theorem QueueNode.within_true (node : QueueNode) : node.Within fun _ => True := by
  induction node with
  | root bkt idx => trivial
  | child bkt idx prev slot ih => exact ⟨trivial, ih⟩

/-- path の根の bucket。 -/
def QueueNode.rootBkt : QueueNode → BktRef
  | .root bkt _ => bkt
  | .child _ _ prev _ => prev.rootBkt

/-- 途中の table から空き `p` の古い entry を除いたもの。 -/
def hollow (t : Table h) (p : Pos) : Table h := t.setIdx p emptySlot

/-- 押し出しの一歩は、除いて見れば entry の移動である。同じ位置への移動なら何も変わらない。 -/
theorem hollow_step {B : UInt32 → Prop} {t : Table h} {p q : Pos} {b : UInt32}
    (hq : q.1 = .main b) (hb : B b) (hp : p.1 = .main (getAltBucketIndex h b (t.sigAt q))) :
    ShiftsWithin B (hollow t p)
      (hollow (t.bumpChngCnt.setEntry p (t.sigAt q) (t.idxAt q)) q) := by
  by_cases he : p = q
  · subst he
    refine Relation.ReflTransGen.single (Or.inl ⟨?_, by simp [hollow, setIdx, setEntry],
      by simp [hollow, setIdx, setEntry], by simp [hollow, setIdx, setEntry]⟩)
    refine bkts_ext ?_ ?_ ?_
    · funext r
      by_cases hr : r = p
      · simp [hollow, idxAt_setIdx, hr]
      · simp [hollow, idxAt_setIdx, idxAt_setEntry, hr]
    · funext r
      by_cases hr : r = p
      · simp [hollow, sigAt_setEntry, hr]
      · simp [hollow, sigAt_setEntry, hr]
    · funext c
      simp [hollow]
  · refine Relation.ReflTransGen.single (Or.inr ⟨q, p, b, hq, hb, he,
      ⟨b, hq, by simpa [hollow] using hp⟩, ?_, ?_, ?_, ?_, ?_, ?_, ?_⟩)
    · simp [hollow, idxAt_setIdx]
    · intro r
      have hne : q ≠ p := fun hx => he hx.symm
      by_cases hr : r = p
      · simp [hollow, idxAt_setIdx, idxAt_setEntry, hr, he, hne]
      · by_cases hrq : r = q
        · simp [hollow, idxAt_setIdx, hrq, hne]
        · simp [hollow, idxAt_setIdx, idxAt_setEntry, hr, hrq]
    · intro r
      by_cases hr : r = p
      · simp [hollow, sigAt_setEntry, hr]
      · simp [hollow, sigAt_setEntry, hr]
    · funext c
      simp [hollow]
    all_goals simp [hollow, setIdx, setEntry]

/-- **どんな path でも、押し出しは entry の移動と、最後の一つの書き込みである。** -/
theorem moveAlong_shifts {B : UInt32 → Prop} (sig : UInt16) (newIdx : Nat) {node : QueueNode}
    (slot : Fin bucketEntries) (t : Table h) (hw : node.WellFormed) (hB : node.Within B) :
    ∃ v, ShiftsWithin B (hollow t (node.bkt, slot)) v ∧
      ((moveAlong sig newIdx node slot t = (.failed, v)) ∨
        ∃ p, p.1 = node.rootBkt ∧ v.idxAt p = emptySlot ∧
          ∃ t', moveAlong sig newIdx node slot t = (.inserted, t') ∧
            SameContent (v.setEntry p sig newIdx) t') := by
  induction node generalizing slot t with
  | root bkt idx =>
    refine ⟨_, Relation.ReflTransGen.refl, Or.inr ⟨(bkt, slot), rfl, ?_, _, rfl, ?_⟩⟩
    · simp [hollow, idxAt_setIdx, QueueNode.bkt]
    · refine ⟨?_, by simp [hollow, setIdx, setEntry], by simp [hollow, setIdx, setEntry],
        by simp [hollow, setIdx, setEntry]⟩
      refine bkts_ext ?_ ?_ ?_
      · funext r
        by_cases hr : r = (bkt, slot)
        · simp [idxAt_setEntry, hr]
        · simp [hollow, idxAt_setIdx, idxAt_setEntry, hr, QueueNode.bkt]
      · funext r
        by_cases hr : r = (bkt, slot)
        · simp [sigAt_setEntry, hr]
        · simp [hollow, sigAt_setEntry, hr]
      · funext c
        simp [hollow]
  | child bkt idx prev prevSlot ih =>
    by_cases hcheck : BktRef.main (getAltBucketIndex h prev.curBktIdx
        (t.sigAt (prev.bkt, prevSlot))) = bkt
    · obtain ⟨v, hv, hres⟩ := ih prevSlot
        (t.bumpChngCnt.setEntry (bkt, slot) (t.sigAt (prev.bkt, prevSlot))
          (t.idxAt (prev.bkt, prevSlot))) hw.2 hB.2
      have hstep := hollow_step (t := t) (p := (bkt, slot)) (q := (prev.bkt, prevSlot))
        hw.2.bkt_eq hB.2.curBktIdx hcheck.symm
      refine ⟨v, hstep.trans hv, ?_⟩
      rw [moveAlong, if_neg (not_not_intro hcheck)]
      exact hres
    · refine ⟨_, Relation.ReflTransGen.refl, Or.inl ?_⟩
      rw [moveAlong, if_pos hcheck]
      rfl

end L3fwd.Hash
