import L3fwd.Infra.LevelOrder
import L3fwd.Hash.Path

/-!
# 幅優先探索

他の writer がいないとき、`rte_hash_cuckoo_make_space_mw` は変わらない table の上を探索する。
queue は完全 8 分木を幅優先の順に並べたものになり、`m` 番目の繰り返しが調べる entry は
番号 `m` だけで決まる（`entryAt`）。

最初に見つかる空きの path は最短なので、同じ bucket を二度通らない。
-/

namespace L3fwd.Hash

open Infra Table

variable {h : RteHash}

/-! ## 探索木 -/

/-- 枝の列が指す bucket の番号。 -/
def bktIdxOf (t : Table h) (b : UInt32) : List (Fin bucketEntries) → UInt32
  | [] => b
  | s :: ss =>
    getAltBucketIndex h (bktIdxOf t b ss) (t.sigAt (.main (bktIdxOf t b ss), s))

/-- 枝の列が指す node。 -/
def nodeOf (t : Table h) (b : UInt32) : List (Fin bucketEntries) → QueueNode
  | [] => .root (.main b) b
  | s :: ss => .child (.main (bktIdxOf t b (s :: ss))) (bktIdxOf t b (s :: ss)) (nodeOf t b ss) s

variable {t : Table h} {b : UInt32}

theorem nodeOf_curBktIdx (ss : List (Fin bucketEntries)) :
    (nodeOf t b ss).curBktIdx = bktIdxOf t b ss := by
  cases ss <;> rfl

theorem nodeOf_bkt (ss : List (Fin bucketEntries)) :
    (nodeOf t b ss).bkt = .main (bktIdxOf t b ss) := by
  cases ss <;> rfl

theorem nodeOf_wellFormed (ss : List (Fin bucketEntries)) : (nodeOf t b ss).WellFormed := by
  induction ss with
  | nil => rfl
  | cons s ss ih => exact ⟨rfl, ih⟩

theorem nodeOf_rootBkt (ss : List (Fin bucketEntries)) : (nodeOf t b ss).rootBkt = .main b := by
  induction ss with
  | nil => rfl
  | cons s ss ih => exact ih

/-- 途中の bucket が同じなら、そこから先の bucket も同じである。 -/
theorem bktIdxOf_append {ss ss' : List (Fin bucketEntries)}
    (he : bktIdxOf t b ss = bktIdxOf t b ss') (rest : List (Fin bucketEntries)) :
    bktIdxOf t b (rest ++ ss) = bktIdxOf t b (rest ++ ss') := by
  induction rest with
  | nil => exact he
  | cons s rest ih => rw [List.cons_append, List.cons_append, bktIdxOf, bktIdxOf, ih]

/-- `m` 番目の繰り返しが調べる entry。 -/
def entryAt (t : Table h) (b : UInt32) (m : Nat) : Pos :=
  (.main (bktIdxOf t b (pathAt bucketEntries (m / bucketEntries))),
    ⟨m % bucketEntries, Nat.mod_lt m bucketEntries_pos⟩)

/-- 探索が `m` 番目の繰り返しで初めて空きを見つける。 -/
def FirstEmptyAt (t : Table h) (b : UInt32) (m : Nat) : Prop :=
  t.idxAt (entryAt t b m) = emptySlot ∧ ∀ k, k < m → t.idxAt (entryAt t b k) ≠ emptySlot

/-- 探索の届く entry はどれも埋まっている。queue に残りが 8 個を切る前の entry が調べられる。 -/
def SearchFull (t : Table h) (b : UInt32) : Prop :=
  ∀ k, k < bfsQueueMaxLen - bucketEntries → t.idxAt (entryAt t b k) ≠ emptySlot

/-- 番号 `m` の node。 -/
def nodeAt (t : Table h) (b : UInt32) (m : Nat) : QueueNode :=
  nodeOf t b (pathAt bucketEntries m)

theorem nodeAt_succ (m : Nat) :
    nodeAt t b (m + 1) = .child (.main (getAltBucketIndex h (nodeAt t b (m / bucketEntries)).curBktIdx
        (t.sigAt (entryAt t b m)))) (getAltBucketIndex h (nodeAt t b (m / bucketEntries)).curBktIdx
        (t.sigAt (entryAt t b m))) (nodeAt t b (m / bucketEntries))
      ⟨m % bucketEntries, Nat.mod_lt m bucketEntries_pos⟩ := by
  simp only [nodeAt, pathAt_succ, nodeOf, bktIdxOf, nodeOf_curBktIdx, entryAt]

theorem nodeAt_entry (m : Nat) :
    ((nodeAt t b (m / bucketEntries)).bkt,
      (⟨m % bucketEntries, Nat.mod_lt m (by decide)⟩ : Fin bucketEntries)) = entryAt t b m := by
  rw [entryAt, nodeAt, nodeOf_bkt]

/-! ## 探索の途中の状態 -/

/-- `m` 番目の繰り返しの前の queue。 -/
def bfsAt (t : Table h) (b : UInt32) (m : Nat) : Bfs where
  queue := (List.range' (m / bucketEntries) (m + 1 - m / bucketEntries)).map (nodeAt t b)
  head := m + 1
  slot := ⟨m % bucketEntries, Nat.mod_lt m bucketEntries_pos⟩

theorem bfsAt_zero : bfsAt t b 0 = Bfs.start (.main b) b := by
  simp [bfsAt, Bfs.start, nodeAt, pathAt, nodeOf]

theorem bfsAt_queue (m : Nat) :
    (bfsAt t b m).queue = nodeAt t b (m / bucketEntries) ::
      (List.range' (m / bucketEntries + 1) (m - m / bucketEntries)).map (nodeAt t b) := by
  have hle : m / bucketEntries ≤ m := Nat.div_le_self m _
  rw [bfsAt, show m + 1 - m / bucketEntries = (m - m / bucketEntries) + 1 by omega,
    List.range'_succ]
  rfl

/-- **一つの entry を調べるごとに、番号が一つ進む。** -/
theorem bfsAt_enqueue (m : Nat) :
    (bfsAt t b m).enqueue t (nodeAt t b (m / bucketEntries)) = bfsAt t b (m + 1) := by
  have hle : m / bucketEntries ≤ m := Nat.div_le_self m _
  have hqueue : (bfsAt t b m).queue ++ [nodeAt t b (m + 1)]
      = (List.range' (m / bucketEntries) (m + 2 - m / bucketEntries)).map (nodeAt t b) := by
    rw [show m + 2 - m / bucketEntries = (m + 1 - m / bucketEntries) + 1 by omega,
      List.range'_1_concat, List.map_append, List.map_singleton,
      show m / bucketEntries + (m + 1 - m / bucketEntries) = m + 1 by omega]
    rfl
  have hchild := nodeAt_succ (t := t) (b := b) m
  unfold Bfs.enqueue
  simp only [show (bfsAt t b m).slot = ⟨m % bucketEntries, Nat.mod_lt m (by decide)⟩ from rfl,
    nodeAt_entry]
  rw [← hchild, hqueue]
  by_cases hlast : m % bucketEntries + 1 < bucketEntries
  · rw [dif_pos hlast]
    have hlast' : m % 8 + 1 < 8 := hlast
    have hdiv : (m + 1) / bucketEntries = m / bucketEntries := by
      show (m + 1) / 8 = m / 8
      omega
    have hmod : (m + 1) % bucketEntries = m % bucketEntries + 1 := by
      show (m + 1) % 8 = m % 8 + 1
      omega
    simp only [bfsAt, hdiv, hmod]
  · rw [dif_neg hlast]
    have hlast' : ¬ m % 8 + 1 < 8 := hlast
    have hdiv : (m + 1) / bucketEntries = m / bucketEntries + 1 := by
      show (m + 1) / 8 = m / 8 + 1
      omega
    have hmod : (m + 1) % bucketEntries = 0 := by
      show (m + 1) % 8 = 0
      omega
    simp only [bfsAt, hdiv, hmod]
    rw [show m + 2 - m / bucketEntries = (m + 1 + 1 - (m / bucketEntries + 1)) + 1 by omega,
      List.range'_succ, List.map_cons, List.tail_cons]
    rfl

/-- node を調べ始める余地が無いなら、届く entry はすべて調べ終えている。 -/
theorem bfsAt_noRoom {m : Nat} (hslot : (bfsAt t b m).slot = 0)
    (hroom : (bfsAt t b m).hasRoom = false) : bfsQueueMaxLen - bucketEntries ≤ m := by
  have hmod : m % 8 = 0 := congrArg Fin.val hslot
  have hhead : ¬ m + 1 < 992 := by
    intro hlt
    have hqueue : (bfsAt t b m).queue.isEmpty = false := by
      rw [bfsAt_queue]
      rfl
    have htrue : (bfsAt t b m).hasRoom = true := by
      rw [Bfs.hasRoom, hqueue, Bool.not_false, Bool.true_and]
      exact decide_eq_true hlt
    rw [htrue] at hroom
    cases hroom
  show 992 ≤ m
  omega

/--
**変わらない table の探索は、最初の空きを見つけるか、何も変えずに諦める。**

最後まで繰り返して諦めたなら、探索の届く entry はどれも埋まっている。
-/
theorem makeSpaceLoop_static
    (move : Table h → QueueNode → Fin bucketEntries → CuckooRet × Table h)
    (hmove : ∀ m, FirstEmptyAt t b m →
      (move t (nodeAt t b (m / bucketEntries)) (entryAt t b m).2).1 ≠ .failed)
    (fuel m : Nat) (hbefore : ∀ k, k < m → t.idxAt (entryAt t b k) ≠ emptySlot) :
    (makeSpaceLoop move fuel (bfsAt t b m) t = (.failed, t) ∧
      (bfsQueueMaxLen - bucketEntries ≤ m + fuel → SearchFull t b)) ∨
      ∃ m', FirstEmptyAt t b m' ∧ makeSpaceLoop move fuel (bfsAt t b m) t
        = move t (nodeAt t b (m' / bucketEntries)) (entryAt t b m').2 := by
  induction fuel generalizing m with
  | zero => exact Or.inl ⟨rfl, fun hle k hk => hbefore k (by omega)⟩
  | succ fuel ih =>
    rw [makeSpaceLoop_cons (bfsAt_queue m)]
    split
    · next hstop =>
      have hle := bfsAt_noRoom hstop.1 hstop.2
      exact Or.inl ⟨rfl, fun _ k hk => hbefore k (by omega)⟩
    · split
      · next hempty =>
        have hfirst : FirstEmptyAt t b m := ⟨by rw [← nodeAt_entry]; exact hempty, hbefore⟩
        have hne := hmove m hfirst
        refine Or.inr ⟨m, hfirst, ?_⟩
        have hslot : (bfsAt t b m).slot = (entryAt t b m).2 := rfl
        rw [hslot]
        split
        · next hfail => exact absurd (by rw [hfail]) hne
        · rfl
      · next hfull =>
        rw [bfsAt_enqueue, show m + (fuel + 1) = m + 1 + fuel by omega]
        refine ih (m + 1) fun k hk => ?_
        rcases Nat.lt_succ_iff_lt_or_eq.mp hk with hlt | rfl
        · exact hbefore k hlt
        · rw [← nodeAt_entry]
          exact hfull

/-! ## 最短の path -/

/-- 空きより前の番号の bucket はどれも埋まっている。 -/
theorem FirstEmptyAt.full {m : Nat} (hf : FirstEmptyAt t b m) {ss : List (Fin bucketEntries)}
    (hlt : position ss < m / bucketEntries) (i : Fin bucketEntries) :
    t.idxAt (.main (bktIdxOf t b ss), i) ≠ emptySlot := by
  have hk : bucketEntries * position ss + i.val < m := by
    have hi : i.val < 8 := i.isLt
    have hlt' : position ss < m / 8 := hlt
    show 8 * position ss + i.val < m
    omega
  have hdiv : (bucketEntries * position ss + i.val) / bucketEntries = position ss := by
    rw [Nat.mul_add_div (by decide), Nat.div_eq_of_lt i.isLt, Nat.add_zero]
  have hmod : (bucketEntries * position ss + i.val) % bucketEntries = i.val := by
    rw [Nat.mul_add_mod, Nat.mod_eq_of_lt i.isLt]
  have hfull := hf.2 _ hk
  simp only [entryAt, hdiv, hmod, pathAt_position] at hfull
  exact hfull

/-- 空きの entry より前の entry は埋まっている。 -/
theorem FirstEmptyAt.before {m : Nat} (hf : FirstEmptyAt t b m) {i : Fin bucketEntries}
    (hi : i < (entryAt t b m).2) : t.idxAt ((entryAt t b m).1, i) ≠ emptySlot := by
  have hi' : i.val < m % 8 := hi
  have hk : bucketEntries * (m / bucketEntries) + i.val < m := by
    show 8 * (m / 8) + i.val < m
    omega
  have hdiv : (bucketEntries * (m / bucketEntries) + i.val) / bucketEntries
      = m / bucketEntries := by
    rw [Nat.mul_add_div (by decide), Nat.div_eq_of_lt i.isLt, Nat.add_zero]
  have hmod : (bucketEntries * (m / bucketEntries) + i.val) % bucketEntries = i.val := by
    rw [Nat.mul_add_mod, Nat.mod_eq_of_lt i.isLt]
  have hfull := hf.2 _ hk
  simp only [entryAt, hdiv, hmod] at hfull
  exact hfull

/-- **最初の空きへの path は同じ bucket を二度通らない。** -/
theorem FirstEmptyAt.distinct {m : Nat} (hf : FirstEmptyAt t b m)
    {rest mid ss : List (Fin bucketEntries)} (hmid : mid ≠ [])
    (hpath : pathAt bucketEntries (m / bucketEntries) = rest ++ (mid ++ ss)) :
    bktIdxOf t b (mid ++ ss) ≠ bktIdxOf t b ss := by
  intro he
  -- 二度通るなら、間を飛ばした短い path が同じ bucket に先に着いている
  have hpos : position (rest ++ (mid ++ ss)) = m / bucketEntries := by
    rw [← hpath, position_pathAt]
  have hlt : position (rest ++ ss) < m / bucketEntries := by
    rw [← hpos]
    refine position_lt_of_length_lt (by decide) ?_
    have := List.length_pos_of_ne_nil hmid
    simp only [List.length_append]
    omega
  have hsame := bktIdxOf_append he rest
  have hfull := hf.full hlt (entryAt t b m).2
  rw [← hsame, ← hpath] at hfull
  exact hfull hf.1

/-- path の先頭以外の bucket で、`t'` の signature は `t` と同じである。 -/
def AgreesAbove (t t' : Table h) (b : UInt32) (ss : List (Fin bucketEntries)) : Prop :=
  ∀ rest ss', rest ++ ss' = ss → rest ≠ [] → ∀ i,
    t'.sigAt (.main (bktIdxOf t b ss'), i) = t.sigAt (.main (bktIdxOf t b ss'), i) ∧
      t'.idxAt (.main (bktIdxOf t b ss'), i) = t.idxAt (.main (bktIdxOf t b ss'), i)

/--
**path が同じ bucket を二度通らなければ、押し出しは成功する。**

途中の bucket がすべて埋まっていて新しい番号が 0 でなければ、埋まる entry は
最初の空き一つだけ増える。
-/
theorem moveAlong_path (sig : UInt16) (newIdx : Nat) (ss : List (Fin bucketEntries))
    (slot : Fin bucketEntries) {t' : Table h}
    (hdist : ∀ rest mid ss', rest ++ (mid ++ ss') = ss → mid ≠ [] →
      bktIdxOf t b (mid ++ ss') ≠ bktIdxOf t b ss')
    (hagree : AgreesAbove t t' b ss) :
    ∃ t'', moveAlong sig newIdx (nodeOf t b ss) slot t' = (.inserted, t'') ∧
      (newIdx ≠ emptySlot →
        (∀ rest ss', rest ++ ss' = ss → rest ≠ [] → ∀ i,
          t.idxAt (.main (bktIdxOf t b ss'), i) ≠ emptySlot) →
        ∀ p, t''.idxAt p ≠ emptySlot ↔
          t'.idxAt p ≠ emptySlot ∨ p = (.main (bktIdxOf t b ss), slot)) := by
  -- path を leaf から根へたどる帰納法。一段ごとに、書いた bucket は残りの path から外れる
  induction ss generalizing slot t' with
  | nil =>
    refine ⟨_, rfl, fun hnew _ p => ?_⟩
    rw [idxAt_setEntry]
    by_cases hp : p = (BktRef.main b, slot)
    · simp [hp, hnew, bktIdxOf]
    · simp [hp, bktIdxOf]
  | cons s ss ih =>
    obtain ⟨hsig, hidx⟩ := hagree [s] ss rfl (by simp) s
    have hcheck : BktRef.main (getAltBucketIndex h (nodeOf t b ss).curBktIdx
        (t'.sigAt ((nodeOf t b ss).bkt, s))) = .main (bktIdxOf t b (s :: ss)) := by
      rw [nodeOf_curBktIdx, nodeOf_bkt, hsig]
      rfl
    -- 書いた bucket は残りの path に現れないので、残りの signature は変わらない
    have hagree' : AgreesAbove t (t'.bumpChngCnt.setEntry (.main (bktIdxOf t b (s :: ss)), slot)
        (t'.sigAt ((nodeOf t b ss).bkt, s)) (t'.idxAt ((nodeOf t b ss).bkt, s))) b ss := by
      intro rest ss' hrest hne i
      have hne' : bktIdxOf t b (s :: ss) ≠ bktIdxOf t b ss' := by
        have := hdist [] (s :: rest) ss' (by rw [← hrest]; rfl) (by simp)
        rwa [List.cons_append, hrest] at this
      have hpos : ((BktRef.main (bktIdxOf t b ss'), i) : Pos)
          ≠ (.main (bktIdxOf t b (s :: ss)), slot) := by
        intro hx
        exact hne' (BktRef.main.inj (congrArg Prod.fst hx)).symm
      have hold := hagree (s :: rest) ss' (by rw [← hrest]; rfl) (by simp) i
      rw [sigAt_setEntry, idxAt_setEntry, if_neg hpos, if_neg hpos, sigAt_bumpChngCnt,
        idxAt_bumpChngCnt]
      exact hold
    obtain ⟨t'', hres, hocc⟩ := ih s
      (fun rest mid ss' hsp hmid => hdist (s :: rest) mid ss' (by rw [← hsp]; rfl) hmid) hagree'
    refine ⟨t'', ?_, fun hnew hfull p => ?_⟩
    · rw [nodeOf, moveAlong, if_neg (not_not_intro hcheck)]
      exact hres
    · have hprev : t'.idxAt ((nodeOf t b ss).bkt, s) ≠ emptySlot := by
        rw [nodeOf_bkt, hidx]
        exact hfull [s] ss rfl (by simp) s
      have hocc' := hocc hnew (fun rest ss' hsp hne =>
        hfull (s :: rest) ss' (by rw [← hsp]; rfl) (by simp)) p
      rw [hocc', idxAt_setEntry, idxAt_bumpChngCnt]
      by_cases hp : p = (.main (bktIdxOf t b (s :: ss)), slot)
      · simp [hp, hprev]
      · simp only [hp, if_false, or_false]
        constructor
        · rintro (hx | rfl)
          · exact hx
          · rw [nodeOf_bkt] at hprev
            exact hprev
        · exact Or.inl

end L3fwd.Hash
