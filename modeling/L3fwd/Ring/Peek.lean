import L3fwd.Ring.HtsRun

/-!
# 見てから決める呼び出し

`start` で押さえた区間は、`finish` を呼ぶまで誰にも動かされない（`peek_hold`）。
`finish` は押さえた要素のうち先頭の何個かだけを動かし、残りは元のまま列に残る（`peek_finish`）。
押さえた個数より多く頼まれたときは、何も動かさずに全部を元に戻す。
-/

namespace L3fwd.Ring

open Infra

variable {ι α : Type*} [DecidableEq ι] {g : Geometry} {s s' : HtsSys ι α} {t u : ι}
  {head : Side → Nat} {c : HtsCall α} {old free n num tail : UInt32} {i : Nat}
  {got moved : List α} {view objs : Nat → α} {σ : Side} {slots : Nat → α}

/-! ## 押さえている間 -/

/-- その action で動く thread。 -/
def HtsAct.thread : HtsAct ι α → ι
  | .call t _ => t
  | .run t => t
  | .finish t _ _ => t
  | .poke t _ _ => t

/-- ほかの thread だけが動く。 -/
def Others (t : ι) (s : HtsSys ι α) (a : HtsAct ι α) : Prop := s.Allowed a ∧ a.thread ≠ t

/-- `σ` の側の位置と渡された列、`t` の居場所が同じで、列はどちらの側も縮まない。 -/
structure Keeps (σ : Side) (t : ι) (s s' : HtsSys ι α) : Prop where
  passed : s'.passed σ = s.passed σ
  ht : s'.ring.ht σ = s.ring.ht σ
  pc : s'.pcs t = s.pcs t
  grows : ∀ τ, s.passed τ <+: s'.passed τ

omit [DecidableEq ι] in
theorem Keeps.refl (s : HtsSys ι α) : Keeps σ t s s := ⟨rfl, rfl, rfl, fun _ => List.prefix_rfl⟩

omit [DecidableEq ι] in
theorem Keeps.trans {v : HtsSys ι α} (h : Keeps σ t s v) (h' : Keeps σ t v s') :
    Keeps σ t s s' :=
  ⟨h'.passed.trans h.passed, h'.ht.trans h.ht, h'.pc.trans h.pc,
    fun τ => (h.grows τ).trans (h'.grows τ)⟩

/-- 居場所と要素の置き場だけが変わる一歩。 -/
theorem keeps_setPc (hu : u ≠ t) (pc : HtsPc α) {ring : RteRing α} {seen : ι → Nat}
    (hring : ring.ht σ = s.ring.ht σ) :
    Keeps σ t s { s.setPc u pc with ring := ring, seen := seen } where
  passed := rfl
  ht := hring
  pc := Function.update_of_ne hu.symm _ _
  grows _ := List.prefix_rfl

/-- 別の側で渡して戻る一歩。 -/
theorem keeps_pass (hu : u ≠ t) (ret : Option (Result α)) {ring : RteRing α} (hσ : σ ≠ c.side)
    (hring : ring.ht σ = s.ring.ht σ) :
    Keeps σ t s { (s.setPc u (.idle ret)).pass c.side moved with ring := ring } where
  passed := Function.update_of_ne hσ _ _
  ht := hring
  pc := Function.update_of_ne hu.symm _ _
  grows τ := by
    by_cases hτ : τ = c.side
    · subst hτ
      simp only [HtsSys.pass, HtsSys.setPc, Function.update_self]
      exact List.prefix_append _ _
    · simp only [HtsSys.pass, HtsSys.setPc, Function.update_of_ne hτ]
      exact List.prefix_rfl

theorem setHead_ht_of_ne {r : RteRing α} {τ : Side} {p : UInt32} (hσ : σ ≠ τ) :
    (r.setHead τ p).ht σ = r.ht σ := Function.update_of_ne hσ _ _

theorem setTail_ht_of_ne {r : RteRing α} {τ : Side} {p : UInt32} (hσ : σ ≠ τ) :
    (r.setTail τ p).ht σ = r.ht σ := Function.update_of_ne hσ _ _

/-- **一歩。** `t` が区間を持つ側は、ほかの thread の一歩で変わらない。 -/
theorem HtsInv.keeps (h : HtsInv g s head) (hin : (s.pcs t).inside = some σ) {a : HtsAct ι α}
    (hok : Others t s a) (hs : s.step g a = some s') : Keeps σ t s s' := by
  obtain ⟨hok, hne⟩ := hok
  -- 区間を持って動く thread は、別の側にいる
  have hside : ∀ {u d}, u ≠ t → (s.pcs u).inside = some d → σ ≠ d := by
    rintro u d hu hd rfl
    exact h.quiet hin u hu hd
  cases a with
  | call u c =>
    simp only [HtsSys.step] at hs
    split at hs
    · exact Option.some.inj hs ▸ keeps_setPc hne _ rfl
    · cases hs
  | run u =>
    replace hne : u ≠ t := hne
    simp only [HtsSys.step] at hs
    split at hs
    · cases hs
    · exact Option.some.inj hs ▸ keeps_setPc hne _ rfl
    · next c op hpc =>
      rw [← Option.some.inj hs]
      unfold HtsSys.headWait
      split
      · exact keeps_setPc hne _ rfl
      · exact keeps_setPc hne _ rfl
    · next c op hpc =>
      rw [← Option.some.inj hs]
      unfold HtsSys.readTail
      dsimp only
      split
      · exact keeps_setPc hne _ rfl
      · exact keeps_setPc hne _ rfl
    · next c op free n hpc =>
      rw [← Option.some.inj hs]
      unfold HtsSys.moveHead
      split
      · next hmove =>
        -- `head` を進められるのは、その側に誰もいないときだけである
        have hσ : σ ≠ c.side := by
          rintro rfl
          exact h.quiet_of_eq (by rw [hpc]; rfl) (h.seen_eq hpc hok hmove).2 t hne.symm hin
        exact keeps_setPc hne _ (setHead_ht_of_ne hσ)
      · exact keeps_setPc hne _ rfl
    · next c old free n i got hpc =>
      rw [← Option.some.inj hs]
      unfold HtsSys.copy
      split
      · exact keeps_setPc hne _ rfl
      · split
        · exact keeps_setPc hne _ rfl
        · exact keeps_setPc hne _ rfl
    · next c old free n got hpc =>
      have hσ : σ ≠ c.side := hside hne (by rw [hpc]; rfl)
      exact Option.some.inj hs ▸ keeps_pass hne _ hσ (setTail_ht_of_ne hσ)
    · cases hs
    · next c old n got view num objs hpc =>
      rw [← Option.some.inj hs]
      unfold HtsSys.getTail
      dsimp only
      split
      · exact keeps_setPc hne _ rfl
      · exact keeps_setPc hne _ rfl
    · next c tail num objs i hpc =>
      rw [← Option.some.inj hs]
      unfold HtsSys.fill
      split
      · exact keeps_setPc hne _ rfl
      · exact keeps_setPc hne _ rfl
    · next c tail num moved hpc =>
      have hσ : σ ≠ c.side := hside hne (by rw [hpc]; rfl)
      rw [← Option.some.inj hs]
      unfold HtsSys.setHeadTail
      split
      · exact keeps_setPc hne _ (setHead_ht_of_ne hσ)
      · exact keeps_pass hne _ hσ ((setTail_ht_of_ne hσ).trans (setHead_ht_of_ne hσ))
    · next c tail num moved hpc =>
      have hσ : σ ≠ c.side := hside hne (by rw [hpc]; rfl)
      exact Option.some.inj hs ▸ keeps_pass hne _ hσ (setTail_ht_of_ne hσ)
  | finish u num objs =>
    simp only [HtsSys.step] at hs
    split at hs
    · exact Option.some.inj hs ▸ keeps_setPc hne _ rfl
    · cases hs
  | poke u j x =>
    simp only [HtsSys.step] at hs
    split at hs
    · split at hs
      · exact Option.some.inj hs ▸ keeps_setPc hne _ rfl
      · cases hs
    · cases hs

omit [DecidableEq ι] in
/-- 押さえた `j` 番目の場所の中身。dequeue では列の続き、enqueue では自分が置いたものである。 -/
theorem HtsInv.held_slot {j : Nat} (h : HtsInv g s head)
    (hpc : s.pcs t = .held c old free n got view) (hj : j < n.toNat) :
    some (s.ring.slots ((getElemAddr g old n).slot j)) =
      match c.side with
      | .prod => some (view j)
      | .cons => (s.passed .prod)[(s.passed .cons).length + j]? := by
  have ht := h.track t
  rw [hpc] at ht
  obtain ⟨hr, hv⟩ := ht
  have hstart := hr.start
  have hstop := hr.stop
  rw [getElemAddr_slot (h.region_le hr) hj]
  cases hc : c.side with
  | prod =>
    refine congrArg some (hv.prod hc j (view j) ?_)
    rw [List.getElem?_map, List.getElem?_range hj, Option.map_some]
  | cons =>
    rw [hc] at hstart hstop
    have hread := h.settled.read (i := j) (by omega)
    rw [List.getElem?_drop] at hread
    rw [hstart]
    exact hread.symm

/--
**押さえた区間は動かない。** `start` から戻った thread が `finish` を呼ぶまで、ほかの thread が
どれだけ動いても、その側の `head` と `tail`、`tail` を越えた要素は変わらず、
渡された場所の中身も変わらない。
-/
theorem peek_hold (hr : Reaches (HtsSys.step g) HtsSys.Allowed (HtsSys.init slots) s)
    (hpc : s.pcs t = .held c old free n got view) (hrun : Reaches (HtsSys.step g) (Others t) s s') :
    s'.pcs t = s.pcs t ∧ s'.passed c.side = s.passed c.side ∧
      s'.ring.ht c.side = s.ring.ht c.side ∧
      ∀ j, j < n.toNat → s'.ring.slots ((getElemAddr g old n).slot j) =
        s.ring.slots ((getElemAddr g old n).slot j) := by
  obtain ⟨head, h⟩ := exists_htsInv hr
  have hin : (s.pcs t).inside = some c.side := by rw [hpc]; rfl
  have hkeep : (∃ head', HtsInv g s' head') ∧ Keeps c.side t s s' := by
    refine @Reaches.invariant _ _ _ _ _ _ (fun v => (∃ head', HtsInv g v head') ∧
      Keeps c.side t s v) hrun ⟨⟨head, h⟩, Keeps.refl s⟩ ?_
    rintro v a v' ⟨⟨head', hv⟩, hk⟩ hok hs
    exact ⟨hv.step hok.1 hs, hk.trans (hv.keeps (by rw [hk.pc]; exact hin) hok hs)⟩
  obtain ⟨⟨head', h'⟩, hk⟩ := hkeep
  refine ⟨hk.pc, hk.passed, hk.ht, fun j hj => Option.some.inj ?_⟩
  rw [h'.held_slot (hk.pc.trans hpc) hj, h.held_slot hpc hj]
  have hpassed := hk.passed
  cases hc : c.side with
  | prod => rfl
  | cons =>
    -- 相手が渡しても、もう渡された要素は変わらない
    have ht := h.track t
    rw [hpc] at ht
    have hstop := ht.1.stop
    have hle := h.settled.cons_le
    rw [hc] at hpassed hstop
    obtain ⟨rest, hrest⟩ := hk.grows .prod
    dsimp only
    rw [hpassed, ← hrest, List.getElem?_append_left (by omega)]

instance [Fintype ι] (t : ι) (s : HtsSys ι α) (a : HtsAct ι α) : Decidable (Others t s a) :=
  inferInstanceAs (Decidable (_ ∧ _))

theorem peek_hold_two : ∃ s s' view, AfterTwo 18 s ∧ AfterTwo 21 s' ∧
    s.pcs 1 = .held peekTwo 0 3 2 [10, 11] view ∧ s'.pcs 1 = s.pcs 1 ∧
      s'.passed .cons = s.passed .cons ∧ s'.ring.ht .cons = s.ring.ht .cons ∧
        ∀ j, j < 2 → s'.ring.slots ((getElemAddr fourSlots 0 2).slot j) =
          s.ring.slots ((getElemAddr fourSlots 0 2).slot j) := by
  obtain ⟨s, s', hs, hs', ⟨view, hpc⟩, hok, hrun⟩ : ∃ s s', AfterTwo 18 s ∧ AfterTwo 21 s' ∧
      (∃ view, s.pcs 1 = .held peekTwo 0 3 2 [10, 11] view) ∧
        Along (HtsSys.step fourSlots) (Others 1) s [.call 0 peekTwo, .run 0, .run 0] ∧
          exec (HtsSys.step fourSlots) s [.call 0 peekTwo, .run 0, .run 0] = some s' :=
    ⟨_, _, rfl, rfl, ⟨_, rfl⟩, by decide, rfl⟩
  exact ⟨s, s', view, hs, hs', hpc, peek_hold hs.reaches hpc (reaches_of_along hok hrun)⟩

/-! ## `finish` -/

/-- `finish` で動く要素。 -/
def handed (s : HtsSys ι α) (c : HtsCall α) (view objs : Nat → α) (m : Nat) : List α :=
  match c.side, c.mode with
  | .prod, .peek => (List.range m).map objs
  | .prod, _ => (List.range m).map view
  | .cons, _ => ((s.passed .prod).drop (s.passed .cons).length).take m

/-- 写し終えるまで動く。 -/
theorem repeats_fill (hi : i ≤ num.toNat) (hpc : s.pcs t = .fill c tail num objs i) :
    ∃ s', Repeats (HtsSys.step g) (.run t) s s' ∧
      s'.pcs t = .setHeadTail c tail num ((List.range num.toNat).map objs) ∧
      s'.passed = s.passed ∧ s'.ring.ht = s.ring.ht := by
  induction hk : num.toNat - i generalizing s i with
  | zero =>
    have hdone : ¬ i < num.toNat := by omega
    have hstep : s.step g (.run t) =
        some (s.setPc t (.setHeadTail c tail num ((List.range num.toNat).map objs))) := by
      simp only [HtsSys.step, hpc, HtsSys.fill, if_neg hdone]
    exact ⟨_, (Repeats.refl _).cons hstep, Function.update_self _ _ _, rfl, rfl⟩
  | succ k ih =>
    have hlt : i < num.toNat := by omega
    obtain ⟨v, hv, hpcv, hpassed, hht⟩ : ∃ v, s.step g (.run t) = some v ∧
        v.pcs t = .fill c tail num objs (i + 1) ∧ v.passed = s.passed ∧ v.ring.ht = s.ring.ht := by
      refine ⟨s.fill g t c tail num objs i, by simp only [HtsSys.step, hpc], ?_, ?_, ?_⟩
      · simp only [HtsSys.fill, if_pos hlt]
        exact Function.update_self _ _ _
      · simp only [HtsSys.fill, if_pos hlt]
        rfl
      · simp only [HtsSys.fill, if_pos hlt]
        rfl
    obtain ⟨s', hrun, hpc', hpassed', hht'⟩ := ih (i := i + 1) hlt hpcv (by omega)
    exact ⟨s', hrun.cons hv, hpc', hpassed'.trans hpassed, hht'.trans hht⟩

/-- `head` と `tail` を同じ位置に置いて戻る。 -/
theorem repeats_setHeadTail (hpc : s.pcs t = .setHeadTail c tail num moved) :
    ∃ s', Repeats (HtsSys.step g) (.run t) s s' ∧ s'.pcs t = .idle none ∧
      s'.passed = Function.update s.passed c.side (s.passed c.side ++ moved) ∧
      s'.ring.ht = Function.update s.ring.ht c.side ⟨tail + num, tail + num⟩ := by
  have hstep : s.step g (.run t) = some (s.setHeadTail t c tail num moved) := by
    simp only [HtsSys.step, hpc]
  have hboth : ((s.ring.setHead c.side (tail + num)).setTail c.side (tail + num)).ht =
      Function.update s.ring.ht c.side ⟨tail + num, tail + num⟩ := by
    simp only [RteRing.setHead, RteRing.setTail, Function.update_self, Function.update_idem]
  by_cases hone : c.single = true
  · obtain ⟨v, hv, hpcv, hpassed, hring⟩ : ∃ v, s.step g (.run t) = some v ∧
        v.pcs t = .setTail c tail num moved ∧ v.passed = s.passed ∧
          v.ring = s.ring.setHead c.side (tail + num) := by
      rw [HtsSys.setHeadTail, if_pos hone] at hstep
      exact ⟨_, hstep, Function.update_self _ _ _, rfl, rfl⟩
    have hlast : v.step g (.run t) = some (v.setTail t c tail num moved) := by
      simp only [HtsSys.step, hpcv]
    refine ⟨_, ((Repeats.refl _).cons hlast).cons hv, Function.update_self _ _ _, ?_, ?_⟩
    · rw [← hpassed]
      rfl
    · simp only [HtsSys.setTail, hring, hboth]
  · rw [HtsSys.setHeadTail, if_neg hone] at hstep
    exact ⟨_, (Repeats.refl _).cons hstep, Function.update_self _ _ _, rfl, hboth⟩

/-- `__rte_ring_hts_get_tail` の一歩。押さえた後に読むので、読む値は押さえたときのものである。 -/
theorem step_getTail {pc : HtsPc α} (hget : s.getTail g t c old n got view num objs = s.setPc t pc) :
    (s.setPc t (.getTail c old n got view num objs)).step g (.run t) = some (s.setPc t pc) := by
  have hstep : (s.setPc t (.getTail c old n got view num objs)).step g (.run t) =
      some ((s.setPc t (.getTail c old n got view num objs)).getTail g t c old n got view num
        objs) := by
    simp only [HtsSys.step, HtsSys.setPc, Function.update_self]
  rw [hstep, ← hget]
  unfold HtsSys.getTail HtsSys.setPc
  dsimp only
  split <;> simp only [Function.update_idem]

/-- `finish` を呼んでから、動かす要素が決まるまで動く。 -/
theorem HtsInv.repeats_getTail {m : UInt32} (h : HtsInv g s head) (hr : Region s.passed head c old n)
    (hv : Viewed g s.ring s.passed c old n got view) (hle : m.toNat ≤ n.toNat)
    (hnum : getTailNum (s.ring.ht c.side) num = m) :
    ∃ v, Repeats (HtsSys.step g) (.run t) (s.setPc t (.getTail c old n got view num objs)) v ∧
      v.pcs t = .setHeadTail c old m (handed s c view objs m.toNat) ∧ v.passed = s.passed ∧
        v.ring.ht = s.ring.ht := by
  have htail : (s.ring.ht c.side).tail = old := by rw [h.settled.tailWord, hr.start]
  by_cases hfill : c.side = .prod ∧ c.mode = .peek
  · have hget : s.getTail g t c old n got view num objs = s.setPc t (.fill c old m objs 0) := by
      simp only [HtsSys.getTail, hnum, htail]
      split
      · rfl
      · next hno => exact absurd hfill.2 (hno hfill.1)
    have hat : (s.setPc t (.fill c old m objs 0)).pcs t = .fill c old m objs 0 :=
      Function.update_self _ _ _
    obtain ⟨v, hrun, h1, h2, h3⟩ := repeats_fill (g := g) (Nat.zero_le m.toNat) hat
    refine ⟨v, hrun.cons (step_getTail hget), ?_, h2, h3⟩
    rw [h1]
    simp only [handed, hfill.1, hfill.2]
  · have hget : s.getTail g t c old n got view num objs =
        s.setPc t (.setHeadTail c old m (HtsSys.finished g s.ring.slots c old n m got view)) := by
      simp only [HtsSys.getTail, hnum, htail]
      split
      · next h1 h2 => exact absurd ⟨h1, h2⟩ hfill
      · rfl
    have hsame : HtsSys.finished g s.ring.slots c old n m got view =
        handed s c view objs m.toNat := by
      obtain ⟨hlen, hcar⟩ := h.finished_carries hr hv hle
      cases hc : c.side with
      | prod =>
        cases hmode : c.mode with
        | peek => exact absurd ⟨hc, hmode⟩ hfill
        | whole => simp only [HtsSys.finished, handed, hc, hmode]
        | zc => simp only [HtsSys.finished, handed, hc, hmode]
      | cons =>
        rw [hc] at hcar
        simp only [Carries, hlen] at hcar
        rw [hcar]
        simp only [handed, hc]
    rw [hsame] at hget
    exact ⟨_, (Repeats.refl _).cons (step_getTail hget), Function.update_self _ _ _, rfl, rfl⟩

/--
**`finish` は頼まれた個数だけを動かす。** `start` から戻った thread が `finish` を呼べば、
自分だけが動くことで必ず戻る。動くのは押さえた要素の先頭の `num` 個ちょうどで、
`num` が押さえた個数を超えていれば何も動かない。`head` は `tail` に戻り、相手の側は変わらない。
dequeue の `start` で渡された要素は列の続きそのものなので、動かなかった要素は次の呼び出しが受け取る。
-/
theorem peek_finish (hr : Reaches (HtsSys.step g) HtsSys.Allowed (HtsSys.init slots) s)
    (hpc : s.pcs t = .held c old free n got view) (num : UInt32) (objs : Nat → α) :
    (c.side = .cons → c.mode ≠ .zc →
      got = ((s.passed .prod).drop (s.passed .cons).length).take n.toNat) ∧
    ∃ k s', exec (HtsSys.step g) s (.finish t num objs :: List.replicate k (.run t)) = some s' ∧
      s'.pcs t = .idle none ∧
      s'.passed = Function.update s.passed c.side (s.passed c.side ++
        handed s c view objs (if num ≤ n then num else 0).toNat) ∧
      (s'.ring.ht c.side).head = (s'.ring.ht c.side).tail ∧
      s'.ring.ht c.side.opp = s.ring.ht c.side.opp := by
  obtain ⟨head, h⟩ := exists_htsInv hr
  have ht := h.track t
  rw [hpc] at ht
  obtain ⟨hregion, hview⟩ := ht
  refine ⟨fun hc hz => ?_, ?_⟩
  · obtain ⟨h1, h2⟩ := hview.cons hc hz
    rw [← h1]
    exact h2
  · have hfinish : s.step g (.finish t num objs) =
        some (s.setPc t (.getTail c old n got view num objs)) := by
      simp only [HtsSys.step, hpc]
    obtain ⟨v, hv, hpcv, hpassed, hht⟩ := @HtsInv.repeats_getTail _ _ _ g s t head c old n num got
      view objs _ h hregion hview (ite_num_le num n) (h.getTailNum_eq hregion num)
    obtain ⟨s', hrun, hidle, hpassed', hht'⟩ := repeats_setHeadTail (g := g) hpcv
    obtain ⟨k, hk⟩ := hv.trans hrun
    have hne : c.side.opp ≠ c.side := by cases c.side <;> decide
    refine ⟨k, s', ?_, hidle, ?_, ?_, ?_⟩
    · rw [exec, hfinish, Option.bind_some, hk]
    · rw [hpassed', hpassed]
    · rw [hht', Function.update_self]
    · rw [hht', hht, Function.update_of_ne hne]

theorem peek_finish_two : ∃ s, AfterTwo 21 s ∧ s.passed .cons = [] ∧
    ∃ k s', exec (HtsSys.step fourSlots) s
      (.finish 1 1 (fun _ => 0) :: List.replicate k (.run 1)) = some s' ∧
        s'.pcs 1 = .idle none ∧ s'.passed .cons = [10] := by
  obtain ⟨s, hs, ⟨view, hpc⟩, hp, hc⟩ : ∃ s, AfterTwo 21 s ∧
      (∃ view, s.pcs 1 = .held peekTwo 0 3 2 [10, 11] view) ∧ s.passed .prod = [10, 11, 12] ∧
        s.passed .cons = [] := ⟨_, rfl, ⟨_, rfl⟩, rfl, rfl⟩
  obtain ⟨-, k, s', hrun, hidle, hpassed, -⟩ := peek_finish hs.reaches hpc 1 fun _ => 0
  refine ⟨s, hs, hc, k, s', hrun, hidle, ?_⟩
  have hcons := congrFun hpassed .cons
  rw [show peekTwo.side = .cons from rfl, Function.update_self, hc] at hcons
  rw [hcons]
  simp only [handed, peekTwo, hp, hc]
  decide

end L3fwd.Ring
