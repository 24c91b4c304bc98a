import L3fwd.Ring.MtFifo
import L3fwd.Ring.Sequential
import Mathlib.Algebra.BigOperators.Group.Finset.Basic
import Mathlib.Algebra.Order.BigOperators.Group.Finset
import Mathlib.Algebra.Group.Action.Defs
import Mathlib.Data.Fintype.Basic

/-!
# ring を使う thread の実行

`MtSys` のどの実行でも成り立つことを、抽象の輪との対応から読み出す。

* 写している途中の二人が同じ場所を触ることはない（`mt_race_free`）。
  要素を写すのが一歩で済まなくても、ほかの thread からは見えない
* `rte_ring_count` などは、折り返しの後でも渡された個数と受け取られた個数の差である（`mt_count`）
* 頼んだ個数より少なく動かすのは、その時に本当に余裕が足りないときだけである（`mt_short`）
* 新しい呼び出しがなければ、どの順に動いても決まった歩数のうちに全員が戻る（`mt_completes`）
* 一人で動けば、一回の呼び出しは `doElem` と同じである（`mt_alone`）
-/

namespace L3fwd.Ring

open Infra

variable {ι α : Type*} [DecidableEq ι] {g : Geometry} {s s' : MtSys ι α} {b : Board ι α} {t u : ι}
  {slots : Nat → α}

/-! ## 約束が守られる実行 -/

/-- `sp` と `sc` の関数を使わない。 -/
def MtAct.multi : MtAct ι α → Bool
  | .call _ c => !c.single
  | .run _ => true

/-- `sp` と `sc` の関数を使わず、通り抜けた要素は 2^32 に満たない。 -/
def MtSys.Plain (s : MtSys ι α) (a : MtAct ι α) : Prop :=
  a.multi = true ∧ s.total .prod < 2 ^ 32 ∧ s.total .cons < 2 ^ 32

instance (s : MtSys ι α) (a : MtAct ι α) : Decidable (s.Plain a) :=
  inferInstanceAs (Decidable (_ ∧ _ ∧ _))

/-- 呼び出しの途中の引数は、一歩で変わらない。 -/
theorem MtSys.step_call {a : MtAct ι α} (hs : s.step g a = some s') {c : MtCall α}
    (hc : (s'.pcs u).call = some c) : (s.pcs u).call = some c ∨ a = .call u c := by
  -- 動いた thread の居場所だけを見ればよい
  have key : ∀ {t : ι} {pc : MtPc α}, s'.pcs = Function.update s.pcs t pc →
      (pc.call = none ∨ pc.call = (s.pcs t).call ∨ ∃ d, pc.call = some d ∧ a = .call t d) →
        (s.pcs u).call = some c ∨ a = .call u c := by
    intro t pc hpcs hpc
    rw [hpcs] at hc
    by_cases hu : u = t
    · subst hu
      rw [Function.update_self] at hc
      rcases hpc with hnone | hsame | ⟨d, hd, ha⟩
      · rw [hnone] at hc
        cases hc
      · exact Or.inl (hsame.symm.trans hc)
      · obtain rfl : d = c := Option.some.inj (hd.symm.trans hc)
        exact Or.inr ha
    · rw [Function.update_of_ne hu] at hc
      exact Or.inl hc
  cases a with
  | call t d =>
    simp only [MtSys.step] at hs
    split at hs
    · exact key (congrArg MtSys.pcs (Option.some.inj hs).symm) (Or.inr (Or.inr ⟨d, rfl, rfl⟩))
    · cases hs
  | run t =>
    simp only [MtSys.step] at hs
    split at hs
    · cases hs
    · next d hpc =>
      exact key (congrArg MtSys.pcs (Option.some.inj hs).symm) (Or.inr (Or.inl (by rw [hpc]; rfl)))
    · next d old hpc =>
      have hs' := (Option.some.inj hs).symm
      unfold MtSys.readTail at hs'
      dsimp only at hs'
      split at hs'
      · exact key (congrArg MtSys.pcs hs') (Or.inl rfl)
      · exact key (congrArg MtSys.pcs hs') (Or.inr (Or.inl (by rw [hpc]; rfl)))
    · next d old free n hpc =>
      have hs' := (Option.some.inj hs).symm
      unfold MtSys.moveHead at hs'
      split at hs'
      · exact key (congrArg MtSys.pcs hs') (Or.inr (Or.inl (by rw [hpc]; rfl)))
      · exact key (congrArg MtSys.pcs hs') (Or.inr (Or.inl (by rw [hpc]; rfl)))
    · next d old free n i got hpc =>
      have hs' := (Option.some.inj hs).symm
      unfold MtSys.copy at hs'
      split at hs'
      · exact key (congrArg MtSys.pcs hs') (Or.inr (Or.inl (by rw [hpc]; rfl)))
      · split at hs'
        · exact key (congrArg MtSys.pcs hs') (Or.inr (Or.inl (by rw [hpc]; rfl)))
        · exact key (congrArg MtSys.pcs hs') (Or.inr (Or.inl (by rw [hpc]; rfl)))
    · next d old free n got hpc =>
      split at hs
      · exact key (congrArg MtSys.pcs (Option.some.inj hs).symm)
          (Or.inr (Or.inl (by rw [hpc]; rfl)))
      · cases hs
    · next d old free n got hpc =>
      have hpcs : (s.storeTail t d old free n got).pcs =
          Function.update s.pcs t (.idle (some ⟨n, free - n, got⟩)) := MtSys.storeTail_pcs
      exact key ((congrArg MtSys.pcs (Option.some.inj hs).symm).trans hpcs) (Or.inl rfl)

/-- **約束が守られる実行。** -/
theorem reaches_of_plain (hr : Reaches (MtSys.step g) MtSys.Plain (MtSys.init slots) s) :
    Reaches (MtSys.step g) MtSys.Allowed (MtSys.init slots) s := by
  have hinv : Reaches (MtSys.step g) MtSys.Allowed (MtSys.init slots) s ∧
      ∀ t c, (s.pcs t).call = some c → c.single = false := by
    refine @Reaches.invariant _ _ _ _ _ _ (fun v => Reaches (MtSys.step g) MtSys.Allowed
      (MtSys.init slots) v ∧ ∀ t c, (v.pcs t).call = some c → c.single = false) hr
        ⟨Reaches.refl _, fun t c hc => by cases hc⟩ ?_
    rintro v a v' ⟨hreach, hmulti⟩ ⟨ha, hprod, hcons⟩ hs
    refine ⟨hreach.snoc ?_ hs, ?_⟩
    · cases a with
      | call t c =>
        intro w d _ hd _
        exact ⟨by simpa [MtAct.multi] using ha, hmulti w d hd⟩
      | run t =>
        intro c old free n _ _
        have : v.total c.side < 2 ^ 32 := by cases c.side <;> assumption
        omega
    · intro t c hc
      rcases MtSys.step_call hs hc with hold | rfl
      · exact hmulti t c hold
      · simpa [MtAct.multi] using ha
  exact hinv.1

/-! ## 三人の例 -/

/-- `k` から始まる番号を二つ渡す。 -/
def putTwo (k : Nat) : MtCall Nat :=
  { side := .prod, n := 2, behavior := .queueVariable, objs := fun j => k + j, single := false }

/-- 二つ受け取る。 -/
def getTwo : MtCall Nat :=
  { side := .cons, n := 2, behavior := .queueVariable, objs := fun _ => 0, single := false }

/--
0 番と 1 番が同じ `head` を読み、0 番が先に動かす。1 番は読み直して残りの一つだけを渡し、
0 番の `tail` を待つ。そのあと 2 番が二つ受け取る。
-/
def threeThreads : List (MtAct (Fin 3) Nat) :=
  [.call 0 (putTwo 10), .call 1 (putTwo 20), .run 0, .run 1, .run 0, .run 1, .run 0, .run 1,
    .run 1, .run 1, .run 1, .run 1, .run 1, .run 0, .run 0, .run 0, .run 0, .run 0,
    .call 2 getTwo, .run 1, .run 1, .run 2, .run 2, .run 2, .run 2, .run 2, .run 2, .run 2, .run 2]

/-- 例の `k` 歩目までの状態。 -/
def AfterThree (k : Nat) (s : MtSys (Fin 3) Nat) : Prop :=
  exec (MtSys.step fourSlots) (MtSys.init fun _ => 0) (threeThreads.take k) = some s

theorem AfterThree.reaches {k : Nat} {s : MtSys (Fin 3) Nat} (h : AfterThree k s) :
    Reaches (MtSys.step fourSlots) MtSys.Allowed (MtSys.init fun _ => 0) s := by
  have hplain : Along (MtSys.step fourSlots) MtSys.Plain (MtSys.init fun _ => 0) threeThreads := by
    decide
  exact reaches_of_plain (reaches_of_along (hplain.take k) h)

/-! ## 先入れ先出し -/

/--
**先入れ先出し。** 何人がどの順に動いても、受け取られた要素の列は渡された要素の列の先頭部分であり、
まだ受け取られていない要素は `capacity` を超えない。
-/
theorem mt_fifo {slots : Nat → α}
    (hr : Reaches (MtSys.step g) MtSys.Allowed (MtSys.init slots) s) :
    s.received <+: s.published ∧
      s.published.length ≤ s.received.length + g.capacity.toNat := by
  obtain ⟨b, hb⟩ := exists_mtSim hr
  exact hb.fifo

theorem mt_fifo_three : ∃ s, AfterThree 29 s ∧ s.published = [10, 11, 20] ∧ s.received = [10, 11] ∧
    s.received <+: s.published ∧ s.published.length ≤ s.received.length + 3 := by
  obtain ⟨s, hs, hp, hq⟩ : ∃ s, AfterThree 29 s ∧ s.published = [10, 11, 20] ∧
      s.received = [10, 11] := ⟨_, rfl, rfl, rfl⟩
  exact ⟨s, hs, hp, hq, mt_fifo hs.reaches⟩

/-! ## 場所の取り合い -/

omit [DecidableEq ι] in
/-- 写そうとしている位置は、どちらの側でも `cons` の `tail` から容量のうちにある。 -/
theorem Owns.position {b : Board ι α} {c : Call α} {old n : UInt32} {i : Nat} {got : List α}
    {w : Window} (h : Owns b t c old n i got w) (hb : b.Inv g.capacity.toNat (2 ^ g.bits))
    (hi : i < n.toNat) :
    slotIndex g old i = (w.start + i) % 2 ^ g.bits ∧ b.tail .cons ≤ w.start + i ∧
      w.start + i < b.tail .cons + 2 ^ g.bits ∧ w.start + i < w.stop := by
  have h1 := hb.placed.cons_le
  have h2 := hb.placed.prod_le
  have h3 := hb.placed.tail_le .cons
  have h4 := hb.placed.tail_le .prod
  have h5 := g.capacity_lt
  have hlen := h.len
  obtain ⟨hlow, hstop, -⟩ := hb.placed.win_within h.win
  rw [Window.stop] at *
  refine ⟨by rw [h.start, slotIndex_ofNat], ?_, ?_, by omega⟩
  · cases hc : c.side <;> rw [hc] at hlow hstop <;> omega
  · cases hc : c.side <;> rw [hc] at hlow hstop <;> omega

/--
**場所は取り合わない。** 書こうとしている thread と、写そうとしている別の thread は、
どの実行のどの時点でも別の場所を触る。
-/
theorem mt_race_free (hr : Reaches (MtSys.step g) MtSys.Allowed (MtSys.init slots) s) (hne : t ≠ u)
    {c d : MtCall α} {old free n old' free' n' : UInt32} {i j : Nat} {got got' : List α}
    (ht : s.pcs t = .copy c old free n i got) (hu : s.pcs u = .copy d old' free' n' j got')
    (hi : i < n.toNat) (hj : j < n'.toNat) (hwrite : c.side = .prod) :
    slotIndex g old i ≠ slotIndex g old' j := by
  obtain ⟨b, hb⟩ := exists_mtSim hr
  have htrack := hb.track t
  have hutrack := hb.track u
  rw [ht] at htrack
  rw [hu] at hutrack
  obtain ⟨w, hw⟩ := htrack
  obtain ⟨v, hv⟩ := hutrack
  obtain ⟨hidx, hlo, hhi, hstop⟩ := hw.position hb.inv hi
  obtain ⟨hidx', hlo', hhi', hstop'⟩ := hv.position hb.inv hj
  rw [hidx, hidx']
  refine Board.mod_ne_of_near hlo hlo' hhi hhi' ?_
  have hwin := hw.win
  rw [hwrite] at hwin
  cases hd : d.side with
  | prod =>
    have hvwin := hv.win
    rw [hd] at hvwin
    have hapart := hb.inv.placed.win_apart hwin hvwin hne
    simp only [ApartFrom] at hapart
    omega
  | cons =>
    -- 読み手の区間は、書き手のどの区間より手前にある
    have hvwin := hv.win
    rw [hd] at hvwin
    have h1 := (hb.inv.placed.win_within hwin).1
    have h2 := (hb.inv.placed.win_within hvwin).2.1
    have h3 := hb.inv.placed.cons_le
    omega

theorem mt_race_free_three : ∃ s, AfterThree 11 s ∧ s.pcs 0 = .copy (putTwo 10) 0 3 2 0 [] ∧
    s.pcs 1 = .copy (putTwo 20) 2 1 1 0 [] ∧
      slotIndex fourSlots 0 0 ≠ slotIndex fourSlots 2 0 := by
  obtain ⟨s, hs, h0, h1⟩ : ∃ s, AfterThree 11 s ∧ s.pcs 0 = .copy (putTwo 10) 0 3 2 0 [] ∧
      s.pcs 1 = .copy (putTwo 20) 2 1 1 0 [] := ⟨_, rfl, rfl, rfl⟩
  exact ⟨s, hs, h0, h1,
    mt_race_free hs.reaches (by decide) h0 h1 (by decide) (by decide) rfl⟩

/-! ## 個数 -/

/--
**個数は正しい。** `rte_ring_count`、`rte_ring_free_count`、`rte_ring_full`、`rte_ring_empty` は、
どの実行のどの時点でも、渡されてまだ受け取られていない要素の数から決まる値を返す。
-/
theorem mt_count (hr : Reaches (MtSys.step g) MtSys.Allowed (MtSys.init slots) s) :
    (rteRingCount g s.ring).toNat = s.published.length - s.received.length ∧
      (rteRingFreeCount g s.ring).toNat =
        g.capacity.toNat - (s.published.length - s.received.length) ∧
      (rteRingFull g s.ring = true ↔
        s.published.length = s.received.length + g.capacity.toNat) ∧
      (rteRingEmpty s.ring = true ↔ s.published = s.received) := by
  obtain ⟨b, hb⟩ := exists_mtSim hr
  obtain ⟨hfifo, hcap⟩ := hb.fifo
  obtain ⟨hp, hq⟩ := hb.lengths
  have hle := hfifo.length_le
  have htp := hb.tail .prod
  have htc := hb.tail .cons
  rw [← hp] at htp
  rw [← hq] at htc
  have hcount := rteRingCount_ofNat g htp htc hle hcap
  have hfree : (rteRingFreeCount g s.ring).toNat =
      g.capacity.toNat - (s.published.length - s.received.length) := by
    have hle' : rteRingCount g s.ring ≤ g.capacity := by
      rw [UInt32.le_iff_toNat_le, hcount]
      omega
    rw [rteRingFreeCount, UInt32.toNat_sub_of_le _ _ hle', hcount]
  refine ⟨hcount, hfree, ?_, ?_⟩
  · rw [rteRingFull, beq_iff_eq, ← UInt32.toNat_inj, hfree, UInt32.toNat_zero]
    omega
  · rw [rteRingEmpty, beq_iff_eq, htp, htc]
    have hword := g.capacity_lt_word
    constructor
    · intro heq
      have hlen := eq_of_ofNat_eq hle (by omega) heq
      exact (hfifo.eq_of_length hlen).symm
    · intro heq
      rw [heq]

theorem mt_count_three : ∃ s, AfterThree 29 s ∧ (rteRingCount fourSlots s.ring).toNat = 1 ∧
    (rteRingFreeCount fourSlots s.ring).toNat = 2 ∧ rteRingFull fourSlots s.ring = false ∧
      rteRingEmpty s.ring = false := by
  obtain ⟨s, hs, hp, hq⟩ : ∃ s, AfterThree 29 s ∧ s.published = [10, 11, 20] ∧
      s.received = [10, 11] := ⟨_, rfl, rfl, rfl⟩
  obtain ⟨hcount, hfree, hfull, hempty⟩ := mt_count hs.reaches
  rw [hp, hq] at hcount hfree hfull hempty
  exact ⟨s, hs, hcount, hfree, Bool.eq_false_iff.mpr fun h => absurd (hfull.mp h) (by decide),
    Bool.eq_false_iff.mpr fun h => absurd (hempty.mp h) (by decide)⟩

/-! ## 足りないとき -/

/-- その側がこれまでに `tail` を越えた個数。 -/
def MtSys.passed (s : MtSys ι α) : Side → Nat
  | .prod => s.published.length
  | .cons => s.received.length

omit [DecidableEq ι] in
theorem MtSim.passed_eq (hb : MtSim g s b) (σ : Side) : s.passed σ = b.tail σ := by
  obtain ⟨hp, hq⟩ := hb.lengths
  cases σ with
  | prod => exact hp
  | cons => exact hq

/--
**余裕があるのに断ることはない。** `head` を読んでから 2^32 近く動かされていなければ、
頼んだ個数より少なく動かすのは、その時に本当に余裕が足りないときだけである。
古い `head` を読んでいても、求めた余裕が本当の余裕を下回ることはない。
-/
theorem mt_short (hr : Reaches (MtSys.step g) MtSys.Allowed (MtSys.init slots) s)
    {c : MtCall α} {old : UInt32} (hpc : s.pcs t = .readTail c old)
    (hnear : s.total c.side - s.seen t + g.capacity.toNat < 2 ^ 32)
    (hshort : granted c.behavior c.n (entries g c.side (s.ring.ht c.side.opp).tail old) ≠ c.n) :
    c.side.lead g.capacity.toNat + s.passed c.side.opp < s.total c.side + c.n.toNat := by
  obtain ⟨b, hb⟩ := exists_mtSim hr
  have htrack := hb.track t
  rw [hpc] at htrack
  obtain ⟨-, hseen⟩ := htrack
  have hle := hb.inv.placed.head_le c.side
  have hroom := hb.inv.placed.room_le c.side
  have hseenle := hseen.le
  have hfree := lt_of_granted_ne hshort
  rw [hb.total] at hnear
  rw [hb.tail, hseen.word, entries_ofNat g (by omega) (by omega)] at hfree
  rw [hb.passed_eq, hb.total]
  omega

theorem mt_short_three : ∃ s, AfterThree 9 s ∧ s.pcs 1 = .readTail (putTwo 20) 2 ∧
    3 + s.passed .cons < s.total .prod + 2 := by
  obtain ⟨s, hs, hpc, htotal, hseen, htail⟩ : ∃ s, AfterThree 9 s ∧
      s.pcs 1 = .readTail (putTwo 20) 2 ∧ s.total .prod = 2 ∧ s.seen 1 = 2 ∧
        (s.ring.ht .cons).tail = 0 := ⟨_, rfl, rfl, rfl, rfl, rfl⟩
  refine ⟨s, hs, hpc, mt_short hs.reaches hpc ?_ ?_⟩
  · rw [show (putTwo 20).side = .prod from rfl, htotal, hseen]
    decide
  · rw [show (putTwo 20).side.opp = .cons from rfl, htail]
    decide

/-! ## 必ず戻る -/

/-- `head` を動かすときに、ほかの全員のやり直しを払えるだけの仕事。 -/
def moveCost (threads : Nat) : Nat := 2 ^ 32 + 4 + 3 * threads

/-- 読んだ `head` が今も同じなら動かせる。違えば、もう一度読むところからになる。 -/
def redo (heads : Side → UInt32) (c : MtCall α) (old : UInt32) : Nat :=
  if c.single = true ∨ heads c.side = old then 0 else 3

/-- 残りの仕事。 -/
def MtPc.work (threads : Nat) (heads : Side → UInt32) : MtPc α → Nat
  | .idle _ => 0
  | .readHead _ => moveCost threads + 2
  | .readTail c old => moveCost threads + 1 + redo heads c old
  | .moveHead c old _ _ => moveCost threads + redo heads c old
  | .copy _ _ _ n i _ => 3 + (n.toNat - i)
  | .waitTail _ _ _ _ _ => 2
  | .storeTail _ _ _ _ _ => 1

theorem redo_le (heads : Side → UInt32) (c : MtCall α) (old : UInt32) : redo heads c old ≤ 3 := by
  unfold redo
  split <;> omega

/-- `head` が動いても、一人の仕事は一回のやり直しぶんしか増えない。 -/
theorem MtPc.work_le (threads : Nat) (heads heads' : Side → UInt32) (pc : MtPc α) :
    pc.work threads heads' ≤ pc.work threads heads + 3 := by
  cases pc with
  | readTail c old =>
    have := redo_le heads' c old
    simp only [work]
    omega
  | moveHead c old free n =>
    have := redo_le heads' c old
    simp only [work]
    omega
  | _ => simp only [work]; omega

/-- 全員の残りの仕事。 -/
def MtSys.work [Fintype ι] (s : MtSys ι α) : Nat :=
  ∑ t, (s.pcs t).work (Fintype.card ι) fun σ => (s.ring.ht σ).head

section

variable [Fintype ι]

/-- `head` を動かさない一歩では、動いた thread の仕事の減りが全体の減りになる。 -/
theorem work_lt_of_pc {pc : MtPc α} (hpcs : s'.pcs = Function.update s.pcs t pc)
    (hhead : ∀ σ, (s'.ring.ht σ).head = (s.ring.ht σ).head)
    (hlt : pc.work (Fintype.card ι) (fun σ => (s.ring.ht σ).head) <
      (s.pcs t).work (Fintype.card ι) fun σ => (s.ring.ht σ).head) : s'.work < s.work := by
  have hheads : (fun σ => (s'.ring.ht σ).head) = fun σ => (s.ring.ht σ).head := funext hhead
  unfold MtSys.work
  rw [hpcs, hheads]
  refine Finset.sum_lt_sum ?_ ⟨t, Finset.mem_univ t, ?_⟩
  · intro u _
    by_cases hu : u = t
    · subst hu
      rw [Function.update_self]
      exact Nat.le_of_lt hlt
    · rw [Function.update_of_ne hu]
  · rw [Function.update_self]
    exact hlt

/-- `head` を動かした一歩では、減った仕事がほかの全員のやり直しを上回る。 -/
theorem work_lt_of_move {pc : MtPc α} (hpcs : s'.pcs = Function.update s.pcs t pc)
    (hlt : pc.work (Fintype.card ι) (fun σ => (s'.ring.ht σ).head) + 3 * Fintype.card ι <
      (s.pcs t).work (Fintype.card ι) fun σ => (s.ring.ht σ).head) : s'.work < s.work := by
  have hothers : ∑ u ∈ Finset.univ.erase t,
      (s'.pcs u).work (Fintype.card ι) (fun σ => (s'.ring.ht σ).head) ≤
        ∑ u ∈ Finset.univ.erase t,
          ((s.pcs u).work (Fintype.card ι) (fun σ => (s.ring.ht σ).head) + 3) := by
    refine Finset.sum_le_sum fun u hu => ?_
    rw [hpcs, Function.update_of_ne (Finset.ne_of_mem_erase hu)]
    exact MtPc.work_le _ _ _ _
  rw [Finset.sum_add_distrib, Finset.sum_const, smul_eq_mul] at hothers
  have hcard : (Finset.univ.erase t).card ≤ Fintype.card ι := Finset.card_le_univ _
  have hself : (s'.pcs t) = pc := by rw [hpcs, Function.update_self]
  unfold MtSys.work
  rw [← Finset.add_sum_erase _ _ (Finset.mem_univ t),
    ← Finset.add_sum_erase (a := t) _ _ (Finset.mem_univ t), hself]
  omega

/-- 一歩ごとに残りの仕事が減る。 -/
theorem work_lt (hs : s.step g (.run t) = some s') : s'.work < s.work := by
  simp only [MtSys.step] at hs
  split at hs
  · cases hs
  · next c hpc =>
    rw [← Option.some.inj hs]
    refine work_lt_of_pc (t := t) rfl (fun _ => rfl) ?_
    rw [hpc]
    simp only [MtPc.work, redo, or_true, if_true]
    omega
  · next c old hpc =>
    rw [← Option.some.inj hs]
    unfold MtSys.readTail
    dsimp only
    split
    · refine work_lt_of_pc (t := t) rfl (fun _ => rfl) ?_
      rw [hpc]
      simp only [MtPc.work]
      omega
    · refine work_lt_of_pc (t := t) rfl (fun _ => rfl) ?_
      rw [hpc]
      simp only [MtPc.work]
      omega
  · next c old free n hpc =>
    rw [← Option.some.inj hs]
    unfold MtSys.moveHead
    split
    · have := n.toNat_lt
      refine work_lt_of_move (t := t) rfl ?_
      rw [hpc]
      simp only [MtPc.work, moveCost]
      omega
    · next hlose =>
      refine work_lt_of_pc (t := t) rfl (fun _ => rfl) ?_
      rw [hpc]
      simp only [MtPc.work, redo, if_neg hlose]
      omega
  · next c old free n i got hpc =>
    rw [← Option.some.inj hs]
    unfold MtSys.copy
    split
    · refine work_lt_of_pc (t := t) rfl (fun _ => rfl) ?_
      rw [hpc]
      simp only [MtPc.work]
      omega
    · split
      · refine work_lt_of_pc (t := t) rfl (fun _ => rfl) ?_
        rw [hpc]
        simp only [MtPc.work]
        omega
      · refine work_lt_of_pc (t := t) rfl (fun _ => rfl) ?_
        rw [hpc]
        simp only [MtPc.work]
        omega
  · next c old free n got hpc =>
    split at hs
    · rw [← Option.some.inj hs]
      refine work_lt_of_pc (t := t) rfl (fun _ => rfl) ?_
      rw [hpc]
      simp only [MtPc.work]
      omega
    · cases hs
  · next c old free n got hpc =>
    rw [← Option.some.inj hs]
    refine work_lt_of_pc MtSys.storeTail_pcs ?_ ?_
    · intro σ
      rw [MtSys.storeTail_ring, RteRing.setTail_head]
    · rw [hpc]
      simp only [MtPc.work]
      omega

end

/-- 待っていない thread は動ける。 -/
theorem step_isSome_of_not_waiting {c : MtCall α} (hcall : (s.pcs t).call = some c)
    (hwait : ∀ c old free n got, s.pcs t = .waitTail c old free n got →
      (s.ring.ht c.side).tail = old) : (s.step g (.run t)).isSome = true := by
  cases hpc : s.pcs t with
  | idle ret => rw [hpc] at hcall; cases hcall
  | waitTail c old free n got =>
    simp only [MtSys.step, hpc, hwait c old free n got hpc, if_true, Option.isSome_some]
  | _ => simp only [MtSys.step, hpc, Option.isSome_some]

/-- 呼び出しの途中の thread がいれば、誰かは動ける。 -/
theorem MtSim.runnable (hb : MtSim g s b) {c : MtCall α} (hcall : (s.pcs t).call = some c) :
    ∃ u, (s.step g (.run u)).isSome = true := by
  by_cases hwait : ∀ c old free n got, s.pcs t = .waitTail c old free n got →
      (s.ring.ht c.side).tail = old
  · exact ⟨t, step_isSome_of_not_waiting hcall hwait⟩
  · push Not at hwait
    obtain ⟨d, old, free, n, got, hpc, -⟩ := hwait
    have htrack := hb.track t
    rw [hpc] at htrack
    obtain ⟨w, hw⟩ := htrack
    obtain ⟨hlow, hstop, -⟩ := hb.inv.placed.win_within hw.win
    have hpos := hw.pos
    rw [Window.stop] at hstop
    -- `tail` の位置を持つ thread は待たない
    obtain ⟨u, v, hv, hstart, -⟩ := hb.full d.side (b.tail d.side) (Nat.le_refl _) (by omega)
    have hvlow := (hb.inv.placed.win_within hv).1
    obtain ⟨e, old', n', i', got', he, hside, hown⟩ := hb.owner hv
    refine ⟨u, step_isSome_of_not_waiting he ?_⟩
    intro e' old'' free'' n'' got'' hpcu
    have hutrack := hb.track u
    rw [hpcu] at hutrack
    obtain ⟨v', hv'⟩ := hutrack
    rw [hpcu] at he
    obtain rfl : e' = e := Option.some.inj he
    obtain rfl : v' = v := Option.some.inj (hv'.win.symm.trans hown.win)
    rw [hb.tail, hv'.start, hside]
    congr 1
    omega

omit [DecidableEq ι] in
/-- 全員が呼び出しの外にいれば、予約された位置は残っていない。 -/
theorem MtSim.quiet (hb : MtSim g s b) (hidle : ∀ t, (s.pcs t).call = none) (σ : Side) :
    (s.ring.ht σ).head = (s.ring.ht σ).tail := by
  have hle := hb.inv.placed.tail_le σ
  have hge : b.head σ ≤ b.tail σ := by
    by_contra hlt
    obtain ⟨t, w, hw, -⟩ := hb.full σ (b.tail σ) (Nat.le_refl _) (by omega)
    obtain ⟨c, _, _, _, _, hc, -⟩ := hb.owner hw
    rw [hidle t] at hc
    cases hc
  rw [hb.head, hb.tail, Nat.le_antisymm hge hle]

/--
**必ず戻る。** 新しい呼び出しがなければ、どの thread をどの順に動かしても、
歩数は初めの状態で決まる数を超えない。誰も動けなくなったときには全員が呼び出しから戻っていて、
`head` と `tail` はそろっている。
-/
theorem mt_completes [Fintype ι]
    (hr : Reaches (MtSys.step g) MtSys.Allowed (MtSys.init slots) s) :
    ∃ bound, ∀ (ts : List ι) (s' : MtSys ι α),
      Along (MtSys.step g) MtSys.Allowed s (ts.map .run) →
      exec (MtSys.step g) s (ts.map .run) = some s' →
      ts.length ≤ bound ∧ ((∀ t, s'.step g (.run t) = none) →
        (∀ t, (s'.pcs t).call = none) ∧
          ∀ σ, (s'.ring.ht σ).head = (s'.ring.ht σ).tail) := by
  refine ⟨s.work, fun ts s' hok hrun => ⟨?_, ?_⟩⟩
  · clear hr hok
    induction ts generalizing s with
    | nil => exact Nat.zero_le _
    | cons t ts ih =>
      rw [List.map_cons, exec] at hrun
      obtain ⟨u, hu, hrest⟩ := Option.bind_eq_some_iff.mp hrun
      have hlt := work_lt hu
      have := ih hrest
      rw [List.length_cons]
      omega
  · intro hstuck
    obtain ⟨b, hb⟩ := exists_mtSim (hr.trans (reaches_of_along hok hrun))
    have hidle : ∀ t, (s'.pcs t).call = none := by
      intro t
      cases hcall : (s'.pcs t).call with
      | none => rfl
      | some c =>
        obtain ⟨u, hu⟩ := hb.runnable hcall
        rw [hstuck u] at hu
        cases hu
    exact ⟨hidle, hb.quiet hidle⟩

theorem mt_completes_three : ∃ s, AfterThree 11 s ∧ s.pcs 0 = .copy (putTwo 10) 0 3 2 0 [] ∧
    ∃ bound, ∀ (ts : List (Fin 3)) (s' : MtSys (Fin 3) Nat),
      Along (MtSys.step fourSlots) MtSys.Allowed s (ts.map .run) →
      exec (MtSys.step fourSlots) s (ts.map .run) = some s' →
      ts.length ≤ bound ∧ ((∀ t, s'.step fourSlots (.run t) = none) →
        (∀ t, (s'.pcs t).call = none) ∧
          ∀ σ, (s'.ring.ht σ).head = (s'.ring.ht σ).tail) := by
  obtain ⟨s, hs, h0⟩ : ∃ s, AfterThree 11 s ∧ s.pcs 0 = .copy (putTwo 10) 0 3 2 0 [] :=
    ⟨_, rfl, rfl⟩
  exact ⟨s, hs, h0, mt_completes hs.reaches⟩

/-! ## 一人で動くとき -/

section

variable {c : MtCall α} {old free n : UInt32}

/-- 写し終えるまで動く。 -/
theorem runsAlone_copy {base : Nat → α} {i : Nat} (hi : i ≤ n.toNat)
    (hpc : s.pcs t = .copy c old free n i (copyAll g base c.toCall old i).2)
    (hslots : s.ring.slots = (copyAll g base c.toCall old i).1) :
    ∃ s', Repeats (MtSys.step g) (.run t) s s' ∧
      s'.pcs t = .copy c old free n n.toNat (copyAll g base c.toCall old n.toNat).2 ∧
      s'.ring = { s.ring with slots := (copyAll g base c.toCall old n.toNat).1 } := by
  induction hk : n.toNat - i generalizing s i with
  | zero =>
    obtain rfl : i = n.toNat := by omega
    refine ⟨s, Repeats.refl s, hpc, ?_⟩
    rw [← hslots]
  | succ k ih =>
    have hlt : i < n.toNat := by omega
    obtain ⟨v, hv, hpcv, hringv⟩ : ∃ v, s.step g (.run t) = some v ∧
        v.pcs t = .copy c old free n (i + 1) (copyAll g base c.toCall old (i + 1)).2 ∧
          v.ring = { s.ring with slots := (copyAll g base c.toCall old (i + 1)).1 } := by
      refine ⟨s.copy g t c old free n i (copyAll g base c.toCall old i).2, ?_, ?_, ?_⟩
      · simp only [MtSys.step, hpc]
      · simp only [MtSys.copy, if_pos hlt, hslots]
        exact MtSys.setPc_pcs_self _ _ _
      · simp only [MtSys.copy, if_pos hlt, hslots]
        rfl
    obtain ⟨s', hrun, hpc', hring⟩ := ih (i := i + 1) hlt hpcv (by rw [hringv]) (by omega)
    refine ⟨s', hrun.cons hv, hpc', ?_⟩
    rw [hring, hringv]

/-- 写し終えた後、`tail` が自分の始まりにあれば戻る。 -/
theorem runsAlone_finish {got : List α} (hpc : s.pcs t = .copy c old free n n.toNat got)
    (htail : (s.ring.ht c.side).tail = old) :
    ∃ s', Repeats (MtSys.step g) (.run t) s s' ∧ s'.pcs t = .idle (some ⟨n, free - n, got⟩) ∧
      s'.ring = s.ring.setTail c.side (old + n) := by
  have hstore : ∀ v : MtSys ι α, v.pcs t = .storeTail c old free n got → v.ring = s.ring →
      ∃ s', Repeats (MtSys.step g) (.run t) v s' ∧ s'.pcs t = .idle (some ⟨n, free - n, got⟩) ∧
        s'.ring = s.ring.setTail c.side (old + n) := by
    intro v hv hring
    refine ⟨v.storeTail t c old free n got, ?_, ?_, ?_⟩
    · exact (Repeats.refl _).cons (by simp only [MtSys.step, hv])
    · rw [MtSys.storeTail_pcs, Function.update_self]
    · rw [MtSys.storeTail_ring, hring]
  have hdone : ¬ n.toNat < n.toNat := Nat.lt_irrefl _
  by_cases hsingle : c.single = true
  · have hstep : s.step g (.run t) = some (s.setPc t (.storeTail c old free n got)) := by
      simp only [MtSys.step, hpc, MtSys.copy, if_neg hdone, if_pos hsingle]
    obtain ⟨s', hrun, hres⟩ := hstore (s.setPc t (.storeTail c old free n got))
      (MtSys.setPc_pcs_self _ _ _) rfl
    exact ⟨s', hrun.cons hstep, hres⟩
  · have hstep : s.step g (.run t) = some (s.setPc t (.waitTail c old free n got)) := by
      simp only [MtSys.step, hpc, MtSys.copy, if_neg hdone, if_neg hsingle]
    have hwait : (s.setPc t (.waitTail c old free n got)).step g (.run t) =
        some ((s.setPc t (.waitTail c old free n got)).setPc t (.storeTail c old free n got)) := by
      have hpc' : (s.setPc t (.waitTail c old free n got)).pcs t = .waitTail c old free n got :=
        MtSys.setPc_pcs_self _ _ _
      have htail' : ((s.setPc t (.waitTail c old free n got)).ring.ht c.side).tail = old := htail
      simp only [MtSys.step, hpc', htail', if_true]
    obtain ⟨s', hrun, hres⟩ := hstore
      ((s.setPc t (.waitTail c old free n got)).setPc t (.storeTail c old free n got))
      (MtSys.setPc_pcs_self _ _ _) rfl
    exact ⟨s', (hrun.cons hwait).cons hstep, hres⟩

end

/--
**一人で動けば `doElem` である。** その側に動いている thread がいなければ、呼び出しを始めた thread は、
自分だけが動くことで必ず戻り、ring と結果は `doElem` のものになる。
-/
theorem mt_alone {ret : Option (Result α)} (hpc : s.pcs t = .idle ret) (c : MtCall α)
    (hquiet : (s.ring.ht c.side).head = (s.ring.ht c.side).tail) :
    ∃ k s', exec (MtSys.step g) s (.call t c :: List.replicate k (.run t)) = some s' ∧
      s'.ring = (doElem g s.ring c.toCall).1 ∧
      s'.pcs t = .idle (some (doElem g s.ring c.toCall).2) := by
  -- 呼び出しを始めてから `head` を動かすところまで
  have hcall : s.step g (.call t c) = some (s.setPc t (.readHead c)) := by
    simp only [MtSys.step, hpc]
  suffices h : ∃ s', Repeats (MtSys.step g) (.run t) (s.setPc t (.readHead c)) s' ∧
      s'.ring = (doElem g s.ring c.toCall).1 ∧
        s'.pcs t = .idle (some (doElem g s.ring c.toCall).2) by
    obtain ⟨s', ⟨k, hk⟩, hres⟩ := h
    exact ⟨k, s', by rw [exec, hcall, Option.bind_some, hk], hres⟩
  obtain ⟨s1, hs1, hpc1, hring1⟩ : ∃ s1, (s.setPc t (.readHead c)).step g (.run t) = some s1 ∧
      s1.pcs t = .readTail c (s.ring.ht c.side).head ∧ s1.ring = s.ring := by
    refine ⟨(s.setPc t (.readHead c)).readHead t c, ?_, ?_, rfl⟩
    · simp only [MtSys.step, MtSys.setPc_pcs_self]
    · exact MtSys.setPc_pcs_self _ _ _
  have hstep2 : s1.step g (.run t) = some (s1.readTail g t c (s.ring.ht c.side).head) := by
    simp only [MtSys.step, hpc1]
  unfold MtSys.readTail at hstep2
  simp only [hring1] at hstep2
  unfold doElem
  dsimp only
  split
  · next hzero =>
    rw [if_pos hzero] at hstep2
    refine ⟨_, ((Repeats.refl _).cons hstep2).cons hs1, hring1, ?_⟩
    exact MtSys.setPc_pcs_self _ _ _
  · next hn =>
    rw [if_neg hn] at hstep2
    generalize hfree : entries g c.side (s.ring.ht c.side.opp).tail (s.ring.ht c.side).head = free
      at hstep2 hn
    generalize hgrant : granted c.behavior c.n free = n at hstep2 hn
    obtain ⟨s3, hs3, hpc3, hring3⟩ : ∃ s3,
        (s1.setPc t (.moveHead c (s.ring.ht c.side).head free n)).step g (.run t) = some s3 ∧
          s3.pcs t = .copy c (s.ring.ht c.side).head free n 0 [] ∧
            s3.ring = s.ring.setHead c.side ((s.ring.ht c.side).head + n) := by
      have hsame : c.single = true ∨ ((s1.setPc t (.moveHead c (s.ring.ht c.side).head free n)).ring.ht
          c.side).head = (s.ring.ht c.side).head :=
        Or.inr (congrArg (fun r : RteRing α => (r.ht c.side).head) hring1)
      refine ⟨(s1.setPc t (.moveHead c (s.ring.ht c.side).head free n)).moveHead t c
        (s.ring.ht c.side).head free n, ?_, ?_, ?_⟩
      · simp only [MtSys.step, MtSys.setPc_pcs_self]
      · rw [MtSys.moveHead, if_pos hsame]
        exact MtSys.setPc_pcs_self _ _ _
      · rw [MtSys.moveHead, if_pos hsame, ← hring1]
        rfl
    obtain ⟨s4, hrun4, hpc4, hring4⟩ := @runsAlone_copy _ _ _ g s3 t c _ free n s.ring.slots 0
      (Nat.zero_le _) hpc3 (by rw [hring3, RteRing.setHead_slots]; rfl)
    obtain ⟨s5, hrun5, hpc5, hring5⟩ := runsAlone_finish (g := g) hpc4 (by
      rw [hring4, hring3]
      exact (RteRing.setHead_tail _ _ _ _).trans hquiet.symm)
    refine ⟨s5, ?_, ?_, ?_⟩
    · exact (((hrun4.trans hrun5).cons hs3).cons hstep2).cons hs1
    · rw [hring5, hring4, hring3, RteRing.setHead_slots]
    · rw [hpc5, RteRing.setHead_slots]

theorem mt_alone_first : ∃ k s', exec (MtSys.step fourSlots)
    (MtSys.init (fun _ => 0) : MtSys (Fin 3) Nat) (.call 0 (putTwo 10) :: List.replicate k (.run 0)) =
      some s' ∧ s'.ring = (doElem fourSlots (emptyRing fun _ => 0) (putTwo 10).toCall).1 ∧
        s'.pcs 0 = .idle (some (doElem fourSlots (emptyRing fun _ => 0) (putTwo 10).toCall).2) :=
  mt_alone rfl (putTwo 10) rfl

end L3fwd.Ring
