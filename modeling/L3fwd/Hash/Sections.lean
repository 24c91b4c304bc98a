import L3fwd.Hash.Lookup
import L3fwd.Hash.Search
import L3fwd.Hash.Chain

/-!
# 各区間でできること

lock の中の一区間ごとに、table に起こりうることを一度だけ場合分けする。
以後の不変条件の証明は、関数の定義を展開せずにここの補題だけを使う。

* `checkDup_cases`：重複の検査
* `cuckooInsertMw_cases`, `insertExt_cases`：空きへの挿入
* `cuckooMoveInsertMw_cases`：どんな path の押し出しでも
* `cuckooMakeSpaceMw_cases`：他の writer がいないときの、探索と押し出しの全体
* `addKeyWithHash_cases`：他の writer がいないときの、追加の全体
-/

namespace L3fwd.Hash

open Infra Table

variable {h : RteHash} {t t' t'' : Table h} {key : Key} {sig : UInt16} {data : UInt64}

/-! ## 重複の検査 -/

/-- 検査が合う entry を見つけなかったときの table。slot 0 の data だけが書かれうる。 -/
def Touched (data : UInt64) (t t' : Table h) : Prop := t' = t ∨ t' = t.setData emptySlot data

theorem Touched.refl (data : UInt64) (t : Table h) : Touched data t t := Or.inl rfl

theorem Touched.trans (h1 : Touched data t t') (h2 : Touched data t' t'') :
    Touched data t t'' := by
  rcases h1 with rfl | rfl
  · exact h2
  · rcases h2 with rfl | rfl
    · exact Or.inr rfl
    · exact Or.inr (setData_setData t emptySlot data)

theorem Touched.dataOnly (ht : Touched data t t') : DataOnly t t' := by
  rcases ht with rfl | rfl
  · exact DataOnly.refl _
  · exact dataOnly_setData t emptySlot data

theorem DataOnly.hit (hd : DataOnly t t') {bs : List BktRef} {p : Pos} :
    Hit t' key sig bs p ↔ Hit t key sig bs p := by
  rw [Hit, Hit, hd.findEntry, hd.idxAt]

theorem DataOnly.firstEmpty (hd : DataOnly t t') (b : BktRef) :
    t'.firstEmpty b = t.firstEmpty b := by
  rw [Table.firstEmpty, Table.firstEmpty, hd.bkts]

/-- 検査で探される bucket。 -/
def searched (t : Table h) (bkt altBkt : BktRef) : List BktRef :=
  bkt :: t.chain h.numBuckets altBkt

theorem DataOnly.searched (hd : DataOnly t t') (bkt altBkt : BktRef) :
    searched t' bkt altBkt = searched t bkt altBkt := by
  rw [Hash.searched, Hash.searched, hd.chain]

/-- 検査が合う entry を見つけなかった。 -/
def Missed (t : Table h) (key : Key) (sig : UInt16) (bkt altBkt : BktRef) : Prop :=
  ∀ p, ¬ Hit t key sig (searched t bkt altBkt) p

/-- 検査が合う entry を見つけ、その番号を返して data を書いた。 -/
def Present (t : Table h) (key : Key) (data : UInt64) (sig : UInt16) (bkt altBkt : BktRef)
    (ret : Int) (t' : Table h) : Prop :=
  ∃ p t1, Hit t key sig (searched t bkt altBkt) p ∧ Touched data t t1 ∧
    ret = (t.idxAt p : Int) - 1 ∧ t' = t1.setData (t.idxAt p) data

theorem DataOnly.missed (hd : DataOnly t t') {bkt altBkt : BktRef} :
    Missed t' key sig bkt altBkt ↔ Missed t key sig bkt altBkt := by
  simp only [Missed, hd.hit, hd.searched]

theorem Present.of_touched {bkt altBkt : BktRef} {ret : Int} (ht : Touched data t t')
    (hp : Present t' key data sig bkt altBkt ret t'') :
    Present t key data sig bkt altBkt ret t'' := by
  obtain ⟨p, t1, hhit, ht1, hret, heq⟩ := hp
  rw [ht.dataOnly.searched, ht.dataOnly.hit] at hhit
  rw [ht.dataOnly.idxAt] at hret heq
  exact ⟨p, t1, hhit, ht.trans ht1, hret, heq⟩

theorem checkDup_cases (t : Table h) (data : UInt64) (key : Key) (sig : UInt16)
    (bkt altBkt : BktRef) :
    (Missed t key sig bkt altBkt ∧ (checkDup t data key sig bkt altBkt).1 = -1 ∧
      Touched data t (checkDup t data key sig bkt altBkt).2) ∨
    ((checkDup t data key sig bkt altBkt).1 ≠ -1 ∧
      Present t key data sig bkt altBkt (checkDup t data key sig bkt altBkt).1
        (checkDup t data key sig bkt altBkt).2) := by
  rcases searchBuckets_cases data key sig (searched t bkt altBkt) t with
    ⟨hret, hno, hst⟩ | ⟨p, hp, hret, hst⟩
  · exact Or.inl ⟨hno, hret, hst⟩
  · have hne : (t.idxAt p : Int) - 1 ≠ -1 := by
      have : t.idxAt p ≠ 0 := hp.2.2
      omega
    refine Or.inr ⟨fun he => hne (hret.symm.trans he), ?_⟩
    rcases hst with hst | hst
    · exact ⟨p, t, hp, Or.inl rfl, hret, hst⟩
    · exact ⟨p, _, hp, Or.inr rfl, hret, hst⟩

/-- 重複が無ければ、検査は bucket を変えない。 -/
theorem checkDup_bkts {data : UInt64} {sig : UInt16} {bkt altBkt : BktRef}
    (hnew : (checkDup t data key sig bkt altBkt).1 = -1) :
    (checkDup t data key sig bkt altBkt).2.bkts = t.bkts := by
  rcases checkDup_cases t data key sig bkt altBkt with ⟨-, -, ht⟩ | ⟨hne, -⟩
  · exact ht.dataOnly.bkts
  · exact absurd hnew hne

/-! ## 空きへの挿入 -/

theorem cuckooInsertMw_cases (t : Table h) (primBkt secBkt : BktRef) (key : Key) (data : UInt64)
    (sig : UInt16) (newIdx : Nat) :
    (∃ ret t', cuckooInsertMw t primBkt secBkt key data sig newIdx = (.present ret, t') ∧
      Present t key data sig primBkt secBkt ret t') ∨
    (Missed t key sig primBkt secBkt ∧ ∃ t1, Touched data t t1 ∧
      ((∃ i, t.firstEmpty primBkt = some i ∧
          cuckooInsertMw t primBkt secBkt key data sig newIdx
            = (.inserted, t1.setEntry (primBkt, i) sig newIdx)) ∨
        (t.firstEmpty primBkt = none ∧
          cuckooInsertMw t primBkt secBkt key data sig newIdx = (.failed, t1)))) := by
  unfold cuckooInsertMw
  rcases checkDup_cases t data key sig primBkt secBkt with ⟨hmiss, hret, ht1⟩ | ⟨hret, hp⟩
  · refine Or.inr ⟨hmiss, _, ht1, ?_⟩
    simp only [hret, ne_eq, not_true_eq_false, if_false]
    rw [ht1.dataOnly.firstEmpty]
    cases hf : t.firstEmpty primBkt with
    | none => exact Or.inr ⟨rfl, rfl⟩
    | some i => exact Or.inl ⟨i, rfl, rfl⟩
  · refine Or.inl ⟨_, _, ?_, hp⟩
    simp only [ne_eq, hret, not_false_eq_true, if_true]

/-- 途中まで押し出した `v` の空き `p` に、新しい番号を書いた。 -/
def Placed (sig : UInt16) (newIdx : Nat) (t : Table h) (p : Pos) (t' : Table h) : Prop :=
  ∃ v, Shifts t v ∧ v.idxAt p = emptySlot ∧ SameContent (v.setEntry p sig newIdx) t'

/-- 挿入は連なりも ring も変えない。 -/
theorem Placed.frame {newIdx : Nat} {p : Pos} (hp : Placed sig newIdx t p t') :
    t'.nextOf = t.nextOf ∧ t'.freeSlots = t.freeSlots := by
  obtain ⟨v, hv, -, hsame⟩ := hp
  have hnext : (v.setEntry p sig newIdx).nextOf = v.nextOf :=
    funext fun b => nextOf_setEntry v p sig newIdx b
  exact ⟨hsame.nextOf.trans (hnext.trans hv.nextOf), hsame.freeSlots.trans hv.freeSlots⟩

theorem hollow_sameContent {p : Pos} (hp : t.idxAt p = emptySlot) :
    SameContent t (hollow t p) := by
  refine ⟨bkts_ext ?_ ?_ ?_, rfl, rfl, rfl⟩
  · funext q
    rw [hollow, idxAt_setIdx]
    split
    · next he => rw [he, hp]
    · rfl
  · funext q
    exact sigAt_setIdx t p q emptySlot
  · funext b
    exact nextOf_setIdx t p emptySlot b

/--
**どんな path の押し出しでも、できることは三つだけである。**

動かされるのは path の node の bucket の entry だけである。
-/
theorem cuckooMoveInsertMw_within {B : UInt32 → Prop} (t : Table h) (bkt altBkt : BktRef)
    (key : Key) (data : UInt64) {leaf : QueueNode} (hleaf : leaf.WellFormed)
    (hB : leaf.Within B) (leafSlot : Fin bucketEntries) (sig : UInt16) (newIdx : Nat) :
    (∃ t1 v, Touched data t t1 ∧ ShiftsWithin B t1 v ∧
      cuckooMoveInsertMw t bkt altBkt key data leaf leafSlot sig newIdx = (.failed, v)) ∨
    (∃ ret t', cuckooMoveInsertMw t bkt altBkt key data leaf leafSlot sig newIdx
        = (.present ret, t') ∧ Present t key data sig bkt altBkt ret t') ∨
    (Missed t key sig bkt altBkt ∧ t.idxAt (leaf.bkt, leafSlot) = emptySlot ∧
      ∃ t1 v p t', Touched data t t1 ∧ ShiftsWithin B t1 v ∧ p.1 = leaf.rootBkt ∧
        v.idxAt p = emptySlot ∧ SameContent (v.setEntry p sig newIdx) t' ∧
        cuckooMoveInsertMw t bkt altBkt key data leaf leafSlot sig newIdx = (.inserted, t')) := by
  unfold cuckooMoveInsertMw
  by_cases hempty : t.idxAt (leaf.bkt, leafSlot) = emptySlot
  · rw [if_neg (not_not_intro hempty)]
    rcases checkDup_cases t data key sig bkt altBkt with ⟨hmiss, hret, ht1⟩ | ⟨hret, hp⟩
    · simp only [hret, ne_eq, not_true_eq_false, if_false]
      have hempty' := congrFun ht1.dataOnly.idxAt (leaf.bkt, leafSlot)
      rw [hempty] at hempty'
      obtain ⟨v, hv, hres⟩ := moveAlong_shifts sig newIdx leafSlot
        (checkDup t data key sig bkt altBkt).2 hleaf hB
      have hv' := ShiftsWithin.after (hollow_sameContent hempty') hv
      rcases hres with hres | ⟨p, hp, hpe, t', hres, hsame⟩
      · exact Or.inl ⟨_, v, ht1, hv', hres⟩
      · exact Or.inr (Or.inr ⟨hmiss, hempty, _, v, p, t', ht1, hv', hp, hpe, hsame, hres⟩)
    · refine Or.inr (Or.inl ⟨_, _, ?_, hp⟩)
      simp only [ne_eq, hret, not_false_eq_true, if_true]
  · rw [if_pos hempty]
    exact Or.inl ⟨t, t, Touched.refl data t, Relation.ReflTransGen.refl, rfl⟩

/-- 根の bucket から検査する押し出しの場合。 -/
theorem cuckooMoveInsertMw_cases (t : Table h) (altBkt : BktRef) (key : Key) (data : UInt64)
    {leaf : QueueNode} (hleaf : leaf.WellFormed) (leafSlot : Fin bucketEntries) (sig : UInt16)
    (newIdx : Nat) :
    (∃ t1, Touched data t t1 ∧ ∃ v, Shifts t1 v ∧
      cuckooMoveInsertMw t leaf.rootBkt altBkt key data leaf leafSlot sig newIdx = (.failed, v)) ∨
    (∃ ret t', cuckooMoveInsertMw t leaf.rootBkt altBkt key data leaf leafSlot sig newIdx
        = (.present ret, t') ∧ Present t key data sig leaf.rootBkt altBkt ret t') ∨
    (Missed t key sig leaf.rootBkt altBkt ∧ ∃ t1, Touched data t t1 ∧ ∃ p t',
      p.1 = leaf.rootBkt ∧ Placed sig newIdx t1 p t' ∧
      cuckooMoveInsertMw t leaf.rootBkt altBkt key data leaf leafSlot sig newIdx
        = (.inserted, t')) := by
  rcases cuckooMoveInsertMw_within t leaf.rootBkt altBkt key data hleaf leaf.within_true leafSlot
      sig newIdx with ⟨t1, v, ht1, hv, hres⟩ | hpresent |
        ⟨hmiss, -, t1, v, p, t', ht1, hv, hp, hpe, hsame, hres⟩
  · exact Or.inl ⟨t1, ht1, v, hv.shifts, hres⟩
  · exact Or.inr (Or.inl hpresent)
  · exact Or.inr (Or.inr ⟨hmiss, t1, ht1, p, t', hp, ⟨v, hv.shifts, hpe, hsame⟩, hres⟩)

/-! ## 変わらない table の上の探索と押し出し -/

/-- 埋まった entry が、ある bucket の最初の空き一つだけ増えた。 -/
def Filled (t t' : Table h) : Prop :=
  ∃ b i, t.firstEmpty b = some i ∧
    ∀ p, t'.idxAt p ≠ emptySlot ↔ t.idxAt p ≠ emptySlot ∨ p = (b, i)

theorem filled_setEntry {b : BktRef} {i : Fin bucketEntries} (hf : t.firstEmpty b = some i)
    (sig : UInt16) {idx : Nat} (hidx : idx ≠ emptySlot) : Filled t (t.setEntry (b, i) sig idx) := by
  refine ⟨b, i, hf, fun p => ?_⟩
  rw [idxAt_setEntry]
  by_cases hp : p = (b, i)
  · simp [hp, hidx]
  · simp [hp]

theorem DataOnly.filled (hd : DataOnly t t') (hf : Filled t' t'') : Filled t t'' := by
  obtain ⟨b, i, hfirst, hocc⟩ := hf
  rw [hd.firstEmpty] at hfirst
  rw [hd.idxAt] at hocc
  exact ⟨b, i, hfirst, hocc⟩

theorem FirstEmptyAt.firstEmpty {b : UInt32} {m : Nat} (hf : FirstEmptyAt t b m) :
    t.firstEmpty (entryAt t b m).1 = some (entryAt t b m).2 :=
  firstEmpty_eq_some.mpr ⟨hf.1, fun _ hj => hf.before hj⟩

/-- 最初の空きへの押し出しは諦めない。 -/
theorem cuckooMoveInsertMw_firstEmpty {b : UInt32} {m : Nat} (hf : FirstEmptyAt t b m)
    (altBkt : BktRef) (key : Key) (data : UInt64) (sig : UInt16) (newIdx : Nat) :
    (∃ ret t', cuckooMoveInsertMw t (.main b) altBkt key data (nodeAt t b (m / bucketEntries))
        (entryAt t b m).2 sig newIdx = (.present ret, t') ∧
      Present t key data sig (.main b) altBkt ret t') ∨
    (∃ t1, Touched data t t1 ∧ ∃ p t', p.1 = .main b ∧ Placed sig newIdx t1 p t' ∧
      (newIdx ≠ emptySlot → Filled t t') ∧
      cuckooMoveInsertMw t (.main b) altBkt key data (nodeAt t b (m / bucketEntries))
        (entryAt t b m).2 sig newIdx = (.inserted, t')) := by
  have hroot : (nodeAt t b (m / bucketEntries)).rootBkt = .main b := nodeOf_rootBkt _
  have hwf : (nodeAt t b (m / bucketEntries)).WellFormed := nodeOf_wellFormed _
  have hentry : t.idxAt ((nodeAt t b (m / bucketEntries)).bkt, (entryAt t b m).2) = emptySlot := by
    have := hf.1
    rw [← nodeAt_entry] at this
    exact this
  -- path の途中の bucket は空きより前に調べられ、埋まっている
  have hfull : ∀ rest ss', rest ++ ss' = pathAt bucketEntries (m / bucketEntries) → rest ≠ [] →
      ∀ i, t.idxAt (.main (bktIdxOf t b ss'), i) ≠ emptySlot := by
    intro rest ss' hsp hne i
    refine hf.full ?_ i
    have hpos : position (rest ++ ss') = m / bucketEntries := by rw [hsp, position_pathAt]
    rw [← hpos]
    refine position_lt_of_length_lt (by decide) ?_
    have := List.length_pos_of_ne_nil hne
    rw [List.length_append]
    omega
  have hsucc : ∀ t1, Touched data t t1 → ∃ t'', moveAlong sig newIdx
      (nodeAt t b (m / bucketEntries)) (entryAt t b m).2 t1 = (.inserted, t'') ∧
      (newIdx ≠ emptySlot → Filled t t'') := by
    intro t1 ht1
    obtain ⟨t'', hres, hocc⟩ := moveAlong_path sig newIdx
      (pathAt bucketEntries (m / bucketEntries)) (entryAt t b m).2
      (fun rest mid ss' hsp hmid => hf.distinct hmid hsp.symm)
      (show AgreesAbove t t1 b _ from fun _ _ _ _ i =>
        ⟨congrFun ht1.dataOnly.sigAt _, congrFun ht1.dataOnly.idxAt _⟩)
    refine ⟨t'', hres, fun hnew => ⟨_, _, hf.firstEmpty, fun p => ?_⟩⟩
    rw [hocc hnew hfull p, ht1.dataOnly.idxAt]
    rfl
  rcases cuckooMoveInsertMw_cases t altBkt key data hwf (entryAt t b m).2 sig newIdx with
    ⟨t1, ht1, v, -, hres⟩ | hpres | ⟨-, t1, ht1, p, t', hp, hplaced, hres⟩
  · -- 諦めることはない
    exfalso
    rw [hroot, cuckooMoveInsertMw, if_neg (not_not_intro hentry)] at hres
    rcases checkDup_cases t data key sig (.main b) altBkt with ⟨-, hret, ht1'⟩ | ⟨hret, -⟩
    · obtain ⟨t'', hres', -⟩ := hsucc _ ht1'
      simp [hret, hres'] at hres
    · simp [hret] at hres
  · rw [hroot] at hpres
    exact Or.inl hpres
  · rw [hroot] at hp hres
    refine Or.inr ⟨t1, ht1, p, t', hp, hplaced, fun hnew => ?_, hres⟩
    rw [cuckooMoveInsertMw, if_neg (not_not_intro hentry)] at hres
    rcases checkDup_cases t data key sig (.main b) altBkt with ⟨-, hret, ht1'⟩ | ⟨hret, -⟩
    · obtain ⟨t'', hres', hfill⟩ := hsucc _ ht1'
      simp only [hret, ne_eq, not_true_eq_false, if_false, hres', Prod.mk.injEq, true_and] at hres
      rw [← hres]
      exact hfill hnew
    · simp [hret] at hres

/-- **変わらない table の上の探索と押し出しは、合う entry を見つけるか、空きを一つ埋めるか、何もしない。** -/
theorem cuckooMakeSpaceMw_cases (t : Table h) (b : UInt32) (secBkt : BktRef) (key : Key)
    (data : UInt64) (sig : UInt16) (newIdx : Nat) :
    (cuckooMakeSpaceMw t (.main b) secBkt key data sig b newIdx = (.failed, t) ∧
      SearchFull t b) ∨
    (∃ ret t', cuckooMakeSpaceMw t (.main b) secBkt key data sig b newIdx = (.present ret, t') ∧
      Present t key data sig (.main b) secBkt ret t') ∨
    (∃ t1, Touched data t t1 ∧ ∃ p t', p.1 = .main b ∧ Placed sig newIdx t1 p t' ∧
      (newIdx ≠ emptySlot → Filled t t') ∧
      cuckooMakeSpaceMw t (.main b) secBkt key data sig b newIdx = (.inserted, t')) := by
  have hmove : ∀ m, FirstEmptyAt t b m → (cuckooMoveInsertMw t (.main b) secBkt key data
      (nodeAt t b (m / bucketEntries)) (entryAt t b m).2 sig newIdx).1 ≠ .failed := by
    intro m hf
    rcases cuckooMoveInsertMw_firstEmpty hf secBkt key data sig newIdx with
      ⟨ret, t', hres, -⟩ | ⟨-, -, p, t', -, -, -, hres⟩
    · rw [hres]
      nofun
    · rw [hres]
      nofun
  unfold cuckooMakeSpaceMw
  rw [← bfsAt_zero (t := t)]
  rcases makeSpaceLoop_static (fun t node slot =>
    cuckooMoveInsertMw t (.main b) secBkt key data node slot sig newIdx) hmove bfsQueueMaxLen 0
    (fun k hk => absurd hk (Nat.not_lt_zero k)) with ⟨hfail, hfull⟩ | ⟨m, hf, hres⟩
  · exact Or.inl ⟨hfail, hfull (by decide)⟩
  · rw [hres]
    exact Or.inr (cuckooMoveInsertMw_firstEmpty hf secBkt key data sig newIdx)

/-- bucket `b` は一杯で、どの entry も押し出せば `b` に戻る。 -/
structure Crowded (t : Table h) (b : UInt32) : Prop where
  full : ∀ i, t.idxAt (.main b, i) ≠ emptySlot
  back : ∀ i, getAltBucketIndex h b (t.sigAt (.main b, i)) = b

instance (t : Table h) (b : UInt32) : Decidable (Crowded t b) :=
  decidable_of_iff ((∀ i, t.idxAt (.main b, i) ≠ emptySlot) ∧
      ∀ i, getAltBucketIndex h b (t.sigAt (.main b, i)) = b)
    ⟨fun hc => ⟨hc.1, hc.2⟩, fun hc => ⟨hc.full, hc.back⟩⟩

theorem Crowded.congr {b : UInt32} (hc : Crowded t b) (hb : t'.bkts = t.bkts) : Crowded t' b where
  full := by rw [idxAt_congr hb]; exact hc.full
  back := by rw [sigAt_congr hb]; exact hc.back

/-- 探索は `b` から出られないので、どこまで調べても埋まった entry しかない。 -/
theorem Crowded.entryAt {b : UInt32} (hc : Crowded t b) (m : Nat) :
    t.idxAt (entryAt t b m) ≠ emptySlot := by
  have hself (ss : List (Fin bucketEntries)) : bktIdxOf t b ss = b := by
    induction ss with
    | nil => rfl
    | cons s ss ih => rw [bktIdxOf, ih, hc.back]
  rw [Hash.entryAt, hself]
  exact hc.full _

theorem Crowded.makeSpace {b : UInt32} (hc : Crowded t b) (secBkt : BktRef) (key : Key)
    (data : UInt64) (sig : UInt16) (newIdx : Nat) :
    cuckooMakeSpaceMw t (.main b) secBkt key data sig b newIdx = (.failed, t) := by
  unfold cuckooMakeSpaceMw
  rw [← bfsAt_zero (t := t)]
  rcases makeSpaceLoop_static (fun t node slot =>
    cuckooMoveInsertMw t (.main b) secBkt key data node slot sig newIdx)
    (fun m hf => absurd hf.1 (hc.entryAt m)) bfsQueueMaxLen 0
    (fun k _ => hc.entryAt k) with ⟨hfail, -⟩ | ⟨m, hf, -⟩
  · exact hfail
  · exact absurd hf.1 (hc.entryAt m)

/-! ## extendable bucket への挿入 -/

theorem firstEmptyIn_cases (t : Table h) (bs : List BktRef) :
    (∃ p, firstEmptyIn t bs = some p ∧ p.1 ∈ bs ∧ t.firstEmpty p.1 = some p.2) ∨
    (firstEmptyIn t bs = none ∧ ∀ b ∈ bs, ∀ i, t.idxAt (b, i) ≠ emptySlot) := by
  induction bs with
  | nil => exact Or.inr ⟨rfl, fun _ hb => absurd hb List.not_mem_nil⟩
  | cons b bs ih =>
    rw [firstEmptyIn]
    cases hf : t.firstEmpty b with
    | some i => exact Or.inl ⟨(b, i), rfl, List.mem_cons_self, hf⟩
    | none =>
      rcases ih with ⟨p, hp, hmem, hfirst⟩ | ⟨hnone, hfull⟩
      · exact Or.inl ⟨p, hp, List.mem_cons_of_mem b hmem, hfirst⟩
      · refine Or.inr ⟨hnone, fun c hc => ?_⟩
        rcases List.mem_cons.mp hc with rfl | hc
        · exact firstEmpty_eq_none.mp hf
        · exact hfull c hc

/-- 取り出した bucket の先頭に書き、連なりの最後につなぐ。 -/
def linkExt (t : Table h) (secBkt : BktRef) (sig : UInt16) (slotId : Nat) : Table h :=
  let a := allocExtBkt t
  let u := a.2.setEntry (.ext a.1, 0) sig slotId
  u.setNext (getLastBkt u secBkt) a.1

/-- つなぐのは次の番号の bucket である。 -/
theorem Linked.linkExt_eq {c : Nat} (hl : Linked t c) (halloc : (allocExtBkt t).1 ≠ 0)
    (b : UInt32) (sig : UInt16) (slotId : Nat) :
    ∃ q, c < h.numBuckets ∧ q.items = List.range' (c + 2) (h.numBuckets - (c + 1)) ∧
      linkExt t (.main b) sig slotId
        = (({ t with freeExtBkts := q }).setEntry (.ext (c + 1), 0) sig slotId).setNext
            (getLastBkt t (.main b)) (c + 1) := by
  rcases hl.alloc_cases with ⟨-, heq⟩ | ⟨q, hlt, hq, heq⟩
  · rw [heq] at halloc
    exact absurd rfl halloc
  · have hlast : getLastBkt (({ t with freeExtBkts := q }).setEntry (.ext (c + 1), 0) sig slotId)
        (.main b) = getLastBkt t (.main b) := by
      have hnext : (({ t with freeExtBkts := q }).setEntry (.ext (c + 1), 0) sig slotId).nextOf
          = t.nextOf := funext fun x => nextOf_setEntry { t with freeExtBkts := q } _ sig slotId x
      rw [getLastBkt, getLastBkt, chain_congr hnext]
    refine ⟨q, hlt, hq, ?_⟩
    unfold linkExt
    simp only [heq]
    rw [hlast]

/-- 新しい bucket をつないでも、連なりの不変条件は保たれる。 -/
theorem Linked.extend {c : Nat} (hl : Linked t c) (halloc : (allocExtBkt t).1 ≠ 0)
    (b : UInt32) (sig : UInt16) (slotId : Nat) :
    Linked (linkExt t (.main b) sig slotId) (c + 1) := by
  obtain ⟨q, hlt, hq, heq⟩ := hl.linkExt_eq halloc b sig slotId
  obtain ⟨hmem, hlast⟩ := hl.last_bkt b
  rw [heq]
  exact hl.link hlt hq hlast (hl.rank_le (b := .main b) (Nat.zero_le c) hmem) sig slotId

theorem insertExtNew_cases (t : Table h) (secBkt : BktRef) (sig : UInt16) (slotId : Nat) :
    (∃ p, p.1 ∈ t.chain h.numBuckets secBkt ∧ t.firstEmpty p.1 = some p.2 ∧
      insertExtNew t secBkt sig slotId = ((slotId : Int) - 1, t.setEntry p sig slotId)) ∨
    (∀ b ∈ t.chain h.numBuckets secBkt, ∀ i, t.idxAt (b, i) ≠ emptySlot) ∧
      (((allocExtBkt t).1 = 0 ∧
          insertExtNew t secBkt sig slotId = (-enospc, (allocExtBkt t).2)) ∨
        ((allocExtBkt t).1 ≠ 0 ∧ insertExtNew t secBkt sig slotId
          = ((slotId : Int) - 1, linkExt t secBkt sig slotId))) := by
  unfold insertExtNew
  rcases firstEmptyIn_cases t (t.chain h.numBuckets secBkt) with
    ⟨p, hp, hmem, hfirst⟩ | ⟨hnone, hfull⟩
  · rw [hp]
    exact Or.inl ⟨p, hmem, hfirst, rfl⟩
  · rw [hnone]
    refine Or.inr ⟨hfull, ?_⟩
    by_cases ha : (allocExtBkt t).1 = 0
    · exact Or.inl ⟨ha, by simp only [ha, if_true]⟩
    · exact Or.inr ⟨ha, by simp only [ha, if_false]; rfl⟩

theorem insertExt_cases (t : Table h) (primBkt secBkt : BktRef) (key : Key) (data : UInt64)
    (sig : UInt16) (slotId : Nat) :
    (∃ ret t', Present t key data sig primBkt secBkt ret t' ∧
      insertExt t primBkt secBkt key data sig slotId = (ret, t'.enqueueSlotBack slotId)) ∨
    (Missed t key sig primBkt secBkt ∧ ∃ t1, Touched data t t1 ∧
      insertExt t primBkt secBkt key data sig slotId = insertExtNew t1 secBkt sig slotId) := by
  unfold insertExt
  rcases checkDup_cases t data key sig primBkt secBkt with ⟨hmiss, hret, ht1⟩ | ⟨hret, hp⟩
  · refine Or.inr ⟨hmiss, _, ht1, ?_⟩
    simp only [hret, ne_eq, not_true_eq_false, if_false]
  · refine Or.inl ⟨_, _, hp, ?_⟩
    simp only [ne_eq, hret, not_false_eq_true, if_true]

/-! ## 追加の全体 -/

/-- 第二の bucket の番号。 -/
def getSecBucketIndex (h : RteHash) (hash : UInt32) : UInt32 :=
  getAltBucketIndex h (getPrimBucketIndex h hash) (getShortSig hash)

/-- hash の第一の bucket。 -/
def primOf (h : RteHash) (hash : UInt32) : BktRef := .main (getPrimBucketIndex h hash)

/-- hash の第二の bucket。 -/
def secOf (h : RteHash) (hash : UInt32) : BktRef := .main (getSecBucketIndex h hash)

/-- slot を取り、data と key を書く。 -/
def Table.takeSlot (t : Table h) (key : Key) (data : UInt64) : Nat × Table h :=
  let a := t.allocSlot
  (a.1, (a.2.setData a.1 data).setKey a.1 key)

/-- slot に書いた後の追加。 -/
def storeSlot (u : Table h) (slotId : Nat) (key : Key) (hash : UInt32) (data : UInt64) :
    Int × Table h :=
  finishWith slotId
    (fun t => finishWith slotId
      (fun t => finishWith slotId
        (fun t =>
          if h.extTableSupport then
            insertExt t (primOf h hash) (secOf h hash) key data (getShortSig hash) slotId
          else (-enospc, t.enqueueSlotBack slotId))
        (cuckooMakeSpaceMw t (secOf h hash) (primOf h hash) key data (getShortSig hash)
          (getSecBucketIndex h hash) slotId))
      (cuckooMakeSpaceMw t (primOf h hash) (secOf h hash) key data (getShortSig hash)
        (getPrimBucketIndex h hash) slotId))
    (cuckooInsertMw u (primOf h hash) (secOf h hash) key data (getShortSig hash) slotId)

/-- 追加は、最初の検査と、slot を取って書いた後の追加に分かれる。 -/
theorem addKeyWithHash_eq (t : Table h) (key : Key) (hash : UInt32) (data : UInt64) :
    addKeyWithHash t key hash data =
      if (checkDup t data key (getShortSig hash) (primOf h hash) (secOf h hash)).1 ≠ -1 then
        checkDup t data key (getShortSig hash) (primOf h hash) (secOf h hash)
      else
        storeSlot
          (((checkDup t data key (getShortSig hash) (primOf h hash) (secOf h hash)).2.takeSlot key
            data).2)
          (((checkDup t data key (getShortSig hash) (primOf h hash) (secOf h hash)).2.takeSlot key
            data).1) key hash data := by
  unfold addKeyWithHash storeSlot takeSlot
  rfl

/-- hash が 0 の key の bucket は、どちらも 0 番である。 -/
theorem bkts_of_zero (h : RteHash) :
    primOf h 0 = .main 0 ∧ secOf h 0 = .main 0 ∧ getShortSig 0 = 0 := by
  refine ⟨?_, ?_, rfl⟩
  · rw [primOf, getPrimBucketIndex, UInt32.zero_and]
  · rw [secOf, getSecBucketIndex, getPrimBucketIndex, getAltBucketIndex, UInt32.zero_and]
    rw [show (getShortSig 0).toUInt32 = 0 from rfl, UInt32.xor_zero, UInt32.zero_and]

/-- 二つの bucket が一杯で空きを作れなければ、検査の後の table のまま最後の区間に進む。 -/
theorem storeSlot_crowded {u : Table h} {hash : UInt32} (slotId : Nat) (data : UInt64)
    (hprim : Crowded u (getPrimBucketIndex h hash)) (hsec : Crowded u (getSecBucketIndex h hash))
    (hnew : (checkDup u data key (getShortSig hash) (primOf h hash) (secOf h hash)).1 = -1) :
    storeSlot u slotId key hash data =
      if h.extTableSupport then
        insertExt (checkDup u data key (getShortSig hash) (primOf h hash) (secOf h hash)).2
          (primOf h hash) (secOf h hash) key data (getShortSig hash) slotId
      else (-enospc, Table.enqueueSlotBack
        (checkDup u data key (getShortSig hash) (primOf h hash) (secOf h hash)).2 slotId) := by
  have hb := checkDup_bkts hnew
  generalize hu1 : checkDup u data key (getShortSig hash) (primOf h hash) (secOf h hash) = r
    at hnew hb
  obtain ⟨ret, u1⟩ := r
  obtain rfl : ret = -1 := hnew
  have hnone : u1.firstEmpty (primOf h hash) = none :=
    firstEmpty_eq_none.mpr (hprim.congr hb).full
  have hfirst : cuckooMakeSpaceMw u1 (primOf h hash) (secOf h hash) key data (getShortSig hash)
      (getPrimBucketIndex h hash) slotId = (.failed, u1) := (hprim.congr hb).makeSpace ..
  have hsecond : cuckooMakeSpaceMw u1 (secOf h hash) (primOf h hash) key data (getShortSig hash)
      (getSecBucketIndex h hash) slotId = (.failed, u1) := (hsec.congr hb).makeSpace ..
  unfold storeSlot cuckooInsertMw
  rw [hu1]
  dsimp only
  rw [if_neg (not_not_intro rfl), hnone]
  dsimp only [finishWith]
  rw [hfirst]
  dsimp only [finishWith]
  rw [hsecond]

/-- slot に書いた後、他の writer がいないときにできること。 -/
inductive StoreOutcome (u : Table h) (slotId : Nat) (key : Key) (hash : UInt32) (data : UInt64) :
    Int × Table h → Prop
  /-- 検査で見つかり、slot を返した。 -/
  | present {bkt altBkt : BktRef} {ret : Int} {t' : Table h}
      (hroles : bkt = primOf h hash ∧ altBkt = secOf h hash ∨
        bkt = secOf h hash ∧ altBkt = primOf h hash)
      (hpres : Present u key data (getShortSig hash) bkt altBkt ret t') :
      StoreOutcome u slotId key hash data (ret, t'.enqueueSlotBack slotId)
  /-- 空きに入れた。空きは押し出しで作られたものかもしれない。 -/
  | placed {u1 : Table h} {p : Pos} {t' : Table h}
      (hmiss : Missed u key (getShortSig hash) (primOf h hash) (secOf h hash))
      (hu1 : Touched data u u1)
      (hp : p.1 = primOf h hash ∨ p.1 ∈ u.chain h.numBuckets (secOf h hash))
      (hplaced : Placed (getShortSig hash) slotId u1 p t')
      (hfill : slotId ≠ emptySlot → Filled u t') :
      StoreOutcome u slotId key hash data ((slotId : Int) - 1, t')
  /-- 新しい extendable bucket をつないだ。 -/
  | linked {u1 : Table h} (hext : h.extTableSupport = true)
      (hmiss : Missed u key (getShortSig hash) (primOf h hash) (secOf h hash))
      (hu1 : Touched data u u1)
      (hfull : ∀ b ∈ u.chain h.numBuckets (secOf h hash), ∀ i, u.idxAt (b, i) ≠ emptySlot)
      (halloc : (allocExtBkt u1).1 ≠ 0) :
      StoreOutcome u slotId key hash data
        ((slotId : Int) - 1, linkExt u1 (secOf h hash) (getShortSig hash) slotId)
  /-- extendable bucket が尽きていた。 -/
  | noBucket {u1 : Table h} (hext : h.extTableSupport = true)
      (hmiss : Missed u key (getShortSig hash) (primOf h hash) (secOf h hash))
      (hu1 : Touched data u u1)
      (hfull : ∀ b ∈ u.chain h.numBuckets (secOf h hash), ∀ i, u.idxAt (b, i) ≠ emptySlot)
      (halloc : (allocExtBkt u1).1 = 0) :
      StoreOutcome u slotId key hash data (-enospc, (allocExtBkt u1).2)
  /-- 空きが作れず、slot を返した。 -/
  | noSpace {u1 : Table h} (hext : h.extTableSupport = false)
      (hmiss : Missed u key (getShortSig hash) (primOf h hash) (secOf h hash))
      (hu1 : Touched data u u1) :
      StoreOutcome u slotId key hash data (-enospc, u1.enqueueSlotBack slotId)

theorem SameContent.refl (t : Table h) : SameContent t t := ⟨rfl, rfl, rfl, rfl⟩

/-- その場の空きへの書き込み。 -/
theorem placed_setEntry {p : Pos} (hp : t.idxAt p = emptySlot) (sig : UInt16) (newIdx : Nat) :
    Placed sig newIdx t p (t.setEntry p sig newIdx) :=
  ⟨t, Relation.ReflTransGen.refl, hp, SameContent.refl _⟩

/-- 見つけた最初の空きは、検査の後も空いている。 -/
theorem DataOnly.empty_of_firstEmpty {b : BktRef} {i : Fin bucketEntries} (hd : DataOnly t t')
    (hf : t.firstEmpty b = some i) : t'.idxAt (b, i) = emptySlot := by
  rw [hd.idxAt]
  exact (firstEmpty_eq_some.mp hf).1

/-- 探索で空きが作れなかったときの、最後の区間。 -/
theorem insertExt_outcome {u u1 : Table h} {key : Key} {hash : UInt32}
    (hext : h.extTableSupport = true)
    (hmiss : Missed u key (getShortSig hash) (primOf h hash) (secOf h hash))
    (hu1 : Touched data u u1) (slotId : Nat) :
    StoreOutcome u slotId key hash data
      (insertExt u1 (primOf h hash) (secOf h hash) key data (getShortSig hash) slotId) := by
  rcases insertExt_cases u1 (primOf h hash) (secOf h hash) key data (getShortSig hash) slotId with
    ⟨ret, t', hpres, heq⟩ | ⟨-, t1, ht1, heq⟩
  · rw [heq]
    exact .present (Or.inl ⟨rfl, rfl⟩) (hpres.of_touched hu1)
  · have hd := (hu1.trans ht1).dataOnly
    have hchain := hd.chain h.numBuckets (secOf h hash)
    rcases insertExtNew_cases t1 (secOf h hash) (getShortSig hash) slotId with
      ⟨p, hmem, hfirst, hnew⟩ | ⟨hfull, hlink⟩
    · rw [hchain] at hmem
      rw [heq, hnew]
      refine .placed hmiss (hu1.trans ht1) (Or.inr hmem)
        (placed_setEntry (firstEmpty_eq_some.mp hfirst).1 _ _) fun hne => ?_
      exact hd.filled (filled_setEntry hfirst _ hne)
    · rw [hchain, hd.idxAt] at hfull
      rcases hlink with ⟨halloc, hnew⟩ | ⟨halloc, hnew⟩
      · rw [heq, hnew]
        exact .noBucket hext hmiss (hu1.trans ht1) hfull halloc
      · rw [heq, hnew]
        exact .linked hext hmiss (hu1.trans ht1) hfull halloc

/-- 探索と押し出しの結果から、残りの追加へ進む。 -/
theorem finishWith_outcome {u u1 : Table h} {slotId : Nat} {hash : UInt32} {b : UInt32}
    {secBkt : BktRef} {next : Table h → Int × Table h}
    (hmiss : Missed u key (getShortSig hash) (primOf h hash) (secOf h hash))
    (hu1 : Touched data u u1)
    (hroles : BktRef.main b = primOf h hash ∧ secBkt = secOf h hash ∨
      BktRef.main b = secOf h hash ∧ secBkt = primOf h hash)
    (hnext : StoreOutcome u slotId key hash data (next u1)) :
    StoreOutcome u slotId key hash data (finishWith slotId next
      (cuckooMakeSpaceMw u1 (.main b) secBkt key data (getShortSig hash) b slotId)) := by
  rcases cuckooMakeSpaceMw_cases u1 b secBkt key data (getShortSig hash) slotId with
    ⟨heq, -⟩ | ⟨ret, t', heq, hpres⟩ | ⟨t1, ht1, p, t', hp, hplaced, hfill, heq⟩
  · rw [heq]
    exact hnext
  · rw [heq]
    exact .present hroles (hpres.of_touched hu1)
  · rw [heq]
    refine .placed hmiss (hu1.trans ht1) ?_ hplaced fun hne => hu1.dataOnly.filled (hfill hne)
    rcases hroles with ⟨hb, -⟩ | ⟨hb, -⟩
    · exact Or.inl (hp.trans hb)
    · rw [hp, hb]
      exact Or.inr (self_mem_chain u _ _)

/-- **slot に書いた後の追加は、五つのどれかである。** -/
theorem storeSlot_outcome (u : Table h) (slotId : Nat) (key : Key) (hash : UInt32)
    (data : UInt64) :
    StoreOutcome u slotId key hash data (storeSlot u slotId key hash data) := by
  unfold storeSlot
  rcases cuckooInsertMw_cases u (primOf h hash) (secOf h hash) key data (getShortSig hash) slotId
    with ⟨ret, t', heq, hpres⟩ | ⟨hmiss, u1, hu1, ⟨i, hfirst, heq⟩ | ⟨-, heq⟩⟩
  · rw [heq]
    exact .present (Or.inl ⟨rfl, rfl⟩) hpres
  · rw [heq]
    have hd := hu1.dataOnly
    refine .placed hmiss hu1 (Or.inl rfl) (placed_setEntry (hd.empty_of_firstEmpty hfirst) _ _)
      fun hne => hd.filled (filled_setEntry ?_ _ hne)
    rw [hd.firstEmpty]
    exact hfirst
  · rw [heq]
    refine finishWith_outcome hmiss hu1 (Or.inl ⟨rfl, rfl⟩)
      (finishWith_outcome hmiss hu1 (Or.inr ⟨rfl, rfl⟩) ?_)
    by_cases hext : h.extTableSupport = true
    · rw [if_pos hext]
      exact insertExt_outcome hext hmiss hu1 slotId
    · rw [if_neg hext]
      exact .noSpace (by simpa using hext) hmiss hu1

/-- **他の writer がいないときの追加。** 最初の検査で見つかるか、slot に書いて五つのどれかになる。 -/
theorem addKeyWithHash_cases (t : Table h) (key : Key) (hash : UInt32) (data : UInt64) :
    (∃ ret t', addKeyWithHash t key hash data = (ret, t') ∧
      Present t key data (getShortSig hash) (primOf h hash) (secOf h hash) ret t') ∨
    (Missed t key (getShortSig hash) (primOf h hash) (secOf h hash) ∧ ∃ t0, Touched data t t0 ∧
      StoreOutcome (t0.takeSlot key data).2 (t0.takeSlot key data).1 key hash data
        (addKeyWithHash t key hash data)) := by
  rw [addKeyWithHash_eq]
  rcases checkDup_cases t data key (getShortSig hash) (primOf h hash) (secOf h hash) with
    ⟨hmiss, hret, ht0⟩ | ⟨hret, hpres⟩
  · rw [if_neg (not_not_intro hret)]
    exact Or.inr ⟨hmiss, _, ht0, storeSlot_outcome _ _ _ _ _⟩
  · rw [if_pos hret]
    exact Or.inl ⟨_, _, rfl, hpres⟩

/-- 第一の bucket に空きがあれば、その最初の空きに入る。 -/
theorem storeSlot_direct {u : Table h} (slotId : Nat) (data : UInt64) {hash : UInt32}
    {i : Fin bucketEntries}
    (hmiss : Missed u key (getShortSig hash) (primOf h hash) (secOf h hash))
    (hfirst : u.firstEmpty (primOf h hash) = some i) :
    ∃ u1, Touched data u u1 ∧ storeSlot u slotId key hash data
      = ((slotId : Int) - 1, u1.setEntry (primOf h hash, i) (getShortSig hash) slotId) := by
  unfold storeSlot
  rcases cuckooInsertMw_cases u (primOf h hash) (secOf h hash) key data (getShortSig hash) slotId
    with ⟨ret, t', -, p, -, hhit, -⟩ | ⟨-, u1, hu1, ⟨j, hj, heq⟩ | ⟨hnone, -⟩⟩
  · exact absurd hhit (hmiss p)
  · rw [hfirst, Option.some.injEq] at hj
    rw [heq, ← hj]
    exact ⟨u1, hu1, rfl⟩
  · rw [hfirst] at hnone
    cases hnone

end L3fwd.Hash
