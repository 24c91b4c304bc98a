import L3fwd.Ring.RtsSim

/-!
# `tail` を待たない ring の実行

どの一歩も抽象の輪の何歩かに当たることを示し、実行全体について読み出す。

* 終えた dequeue が渡した要素は、書いた列の続いた一部であり、どの要素も二度は渡らない。
  読んでいる途中の者がいなければ、隙間もない（`rts_delivers`）
* その側に誰もいなくなれば、`tail` は `head` に追いついている（`rts_settles`）
-/

namespace L3fwd.Ring

open Infra

variable {ι α : Type*} [DecidableEq ι] [Fintype ι] {g : Geometry} {s s' : RtsSys ι α}
  {b b' : Board ι α} {t : ι} {c : Call α} {old free n htdMax : UInt32} {i seen : Nat}
  {got : List α} {w : Window} {ot nt oh : PosCnt} {pc : RtsPc α} {slots : Nat → α} {σ : Side}

/-! ## 居場所だけが変わる一歩 -/

theorem RtsSim.setPc (h : RtsSim g s b) (ht : RtsTrack g b s.ops s.fin seen t pc) :
    RtsSim g { s.setPc t pc with seen := Function.update s.seen t seen } b := by
  refine ⟨h.inv, h.head, h.tail, h.slots, h.sent, h.taken, fun u => ?_, h.count, h.settled⟩
  by_cases hu : u = t
  · subst hu
    simpa only [RtsSys.setPc, Function.update_self] using ht
  · simpa only [RtsSys.setPc, Function.update_of_ne hu] using h.track u

theorem RtsSim.setPc_same (h : RtsSim g s b) (ht : RtsTrack g b s.ops s.fin (s.seen t) t pc) :
    RtsSim g (s.setPc t pc) b := by
  have := h.setPc ht
  rwa [Function.update_eq_self] at this

theorem RtsSim.load (h : RtsSim g s b) (hnone : ∀ σ, b.win σ t = none) : RtsSim g (s.load t c) b := by
  refine h.setPc ⟨hnone, ?_, Nat.le_refl _, fun _ => ?_⟩
  · rw [h.head]
  · rw [h.head]

theorem RtsSim.headWait (h : RtsSim g s b) (hpc : s.pcs t = .headWait c oh) :
    RtsSim g (s.headWait t c oh) b := by
  have ht := h.track t
  rw [hpc] at ht
  unfold RtsSys.headWait
  split
  · exact h.load ht.1
  · exact h.setPc_same ht

theorem RtsSim.readTail (h : RtsSim g s b) (hpc : s.pcs t = .readTail c oh) :
    RtsSim g (s.readTail g t c oh) b := by
  have ht := h.track t
  rw [hpc] at ht
  obtain ⟨hnone, hsnap⟩ := ht
  unfold RtsSys.readTail
  dsimp only
  split
  · exact h.setPc_same hnone
  · next hn =>
    refine h.setPc_same ⟨hnone, hsnap, ?_, fun heq => ?_⟩
    · exact Nat.pos_of_ne_zero fun h0 => hn (UInt32.toNat_inj.mp h0)
    · have hle := h.inv.placed.head_le c.side
      have hroom := h.inv.placed.room_le c.side
      have hcap := g.capacity_lt_word
      have hgrant := granted_le c.behavior c.n
        (entries g c.side (s.ring.ht c.side.opp).tail.pos oh.pos)
      rw [hsnap.pos heq, h.tail, entries_ofNat g hle (by omega)] at hgrant
      rw [hsnap.pos heq, h.tail]
      omega

theorem RtsSim.loadTail (h : RtsSim g s b) (hown : Owns b t c old n n.toNat got w) :
    RtsSim g (s.loadTail t c old free n got) b := by
  refine h.setPc ⟨⟨w, hown⟩, ?_, Nat.le_refl _, fun _ => ?_⟩
  · rw [h.tail]
  · rw [h.tail]

omit [DecidableEq ι] in
/-- 進めた回数の差が一なら、区間を持つ者はほかにいない。 -/
theorem RtsSim.alone (h : RtsSim g s b) (hw : b.win σ t = some w) (hone : s.ops σ = s.fin σ + 1)
    {u : ι} (hu : u ≠ t) : b.win σ u = none := by
  have hcount := h.count σ
  have hcard : (b.holders σ).card = 1 := by omega
  obtain ⟨x, hx⟩ := Finset.card_eq_one.mp hcard
  cases hv : b.win σ u with
  | none => rfl
  | some v =>
    have ht : t ∈ b.holders σ := Board.mem_holders.mpr ⟨w, hw⟩
    have hu' : u ∈ b.holders σ := Board.mem_holders.mpr ⟨v, hv⟩
    rw [hx, Finset.mem_singleton] at ht hu'
    exact absurd (hu'.trans ht.symm) hu

/-- `head` の組を読み、書く値を決める。 -/
theorem RtsSim.loadHead (h : RtsSim g s b) (hpc : s.pcs t = .loadHead c old free n got ot) :
    RtsSim g (s.setPc t (.casTail c old free n got ot (nextTail ot (s.ring.ht c.side).head))) b := by
  have ht := h.track t
  rw [hpc] at ht
  obtain ⟨⟨w, hown⟩, hsnap⟩ := ht
  have hcount := h.count c.side
  have hpos : 0 < (b.holders c.side).card :=
    Finset.card_pos.mpr ⟨t, Board.mem_holders.mpr ⟨w, hown.win⟩⟩
  have hle := h.holders_le c.side
  refine h.setPc_same ⟨⟨w, hown⟩, hsnap, s.ops c.side, b.head c.side, ?_, Nat.le_refl _,
    fun _ => rfl, ?_, ?_, ?_⟩
  · rw [h.head]
  · intro heq
    omega
  · intro _
    exact ⟨h.inv.placed.tail_le c.side, Nat.le_refl _⟩
  · intro heq hlast u v hu hv
    rw [h.alone hown.win (by omega) hu] at hv
    cases hv

/-! ## `head` を動かす -/

omit [Fintype ι] in
theorem take_win_cases {u : ι} {v : Window} (hv : (take b t c n).win σ u = some v) :
    (σ = c.side ∧ u = t ∧ v = ⟨b.head c.side, n.toNat, 0⟩) ∨ b.win σ u = some v := by
  rw [take_win] at hv
  by_cases hσ : σ = c.side
  · subst hσ
    rw [Function.update_self] at hv
    by_cases hu : u = t
    · subst hu
      rw [Function.update_self] at hv
      exact Or.inl ⟨rfl, rfl, (Option.some.inj hv).symm⟩
    · rw [Function.update_of_ne hu] at hv
      exact Or.inr hv
  · rw [Function.update_of_ne hσ] at hv
    exact Or.inr hv

omit [Fintype ι] in
/-- 一つの thread の居場所だけを置き換える。 -/
theorem forall_rtsTrack_update {b : Board ι α} {ops fin : Side → Nat} {seen : ι → Nat}
    {pcs : ι → RtsPc α} (ht : RtsTrack g b ops fin (seen t) t pc)
    (hother : ∀ u, u ≠ t → RtsTrack g b ops fin (seen u) u (pcs u)) :
    ∀ u, RtsTrack g b ops fin (seen u) u (Function.update pcs t pc u) := by
  intro u
  by_cases hu : u = t
  · subst hu
    rw [Function.update_self]
    exact ht
  · rw [Function.update_of_ne hu]
    exact hother u hu

/-- 区間を取った後の、ほかの thread の居場所。 -/
theorem RtsSim.track_take (h : RtsSim g s b) {u : ι} (hu : u ≠ t) :
    RtsTrack g (take b t c n) (Function.update s.ops c.side (s.ops c.side + 1)) s.fin (s.seen u) u
      (s.pcs u) := by
  refine (h.track u).frame ?_ (take_buf_of_ne hu) take_sent ?_ (fun _ => Nat.le_refl _) ?_ ?_ ?_ ?_ ?_
  · intro σ
    rw [take_win, update_win_of_ne hu]
  · intro σ
    by_cases hσ : σ = c.side
    · subst hσ
      rw [Function.update_self]
      omega
    · rw [Function.update_of_ne hσ]
  · intro σ hsame
    rw [take_head]
    by_cases hσ : σ = c.side
    · subst hσ
      rw [Function.update_self] at hsame
      omega
    · rw [Function.update_of_ne hσ]
  · intro σ
    rw [take_head]
    by_cases hσ : σ = c.side
    · subst hσ
      rw [Function.update_self]
      omega
    · rw [Function.update_of_ne hσ]
  · intro σ _
    rw [take_tail]
  · intro σ
    rw [take_tail]
  · intro σ v x hx
    rcases take_win_cases hx with ⟨rfl, -, rfl⟩ | hold
    · exact Or.inr (Nat.le_refl _)
    · exact Or.inl ⟨x, hold, rfl⟩

theorem RtsSim.moveHead (h : RtsSim g s b) (hpc : s.pcs t = .moveHead c oh free n)
    (hok : s.Allowed (.run t)) :
    ∃ b', Board.Steps g.capacity.toNat (2 ^ g.bits) b b' ∧ RtsSim g (s.moveHead t c oh free n) b' := by
  have ht := h.track t
  rw [hpc] at ht
  obtain ⟨hnone, hsnap, hn, hroom⟩ := ht
  unfold RtsSys.moveHead
  split
  · next hmove =>
    have hnow := hsnap.eq ((h.head c.side).symm.trans hmove) (hok.1 c oh free n hpc hmove)
    have hpos := hsnap.pos hnow
    have hstep : Board.Step g.capacity.toNat (2 ^ g.bits) b (take b t c n) :=
      take_step (hnone c.side) (hroom hnow)
    have hown : Owns (take b t c n) t c (UInt32.ofNat (b.head c.side)) n 0 []
        ⟨b.head c.side, n.toNat, 0⟩ := take_owns hnone h.inv.counted hn
    refine ⟨take b t c n, Relation.ReflTransGen.single hstep,
      h.inv.step g.capacity_le_size hstep, ?_, ?_, ?_, ?_, ?_, ?_, ?_, ?_⟩
    · intro σ
      dsimp only
      rw [take_head]
      by_cases hσ : σ = c.side
      · subst hσ
        rw [RtsRing.setHead_self, Function.update_self, Function.update_self, hsnap.cnt, hpos, hnow,
          ofNat_add_word, UInt32.ofNat_add]
        rfl
      · rw [RtsRing.setHead_of_ne _ _ _ hσ, Function.update_of_ne hσ, Function.update_of_ne hσ, h.head]
    · intro σ
      dsimp only
      rw [take_tail, RtsRing.setHead_tail, h.tail]
      rfl
    · rw [take_slots, ← h.slots]
      rfl
    · dsimp only
      rw [h.sent]
      cases hc : c.side with
      | prod => simp only [take, hc]
      | cons =>
        simp only [take, hc]
        rfl
    · have htaken : (take b t c n).taken = b.taken := by
        cases hc : c.side <;> simp only [take, hc] <;> rfl
      rw [htaken]
      exact h.taken
    · refine forall_rtsTrack_update ⟨⟨b.head c.side, n.toNat, 0⟩, ?_⟩ fun u hu => h.track_take hu
      rw [hpos]
      exact hown
    · intro σ
      dsimp only
      by_cases hσ : σ = c.side
      · subst hσ
        have hnot : t ∉ b.holders c.side := fun hmem => by
          obtain ⟨v, hv⟩ := Board.mem_holders.mp hmem
          rw [hnone] at hv
          cases hv
        have hholders : (take b t c n).holders c.side = insert t (b.holders c.side) :=
          Board.holders_insert (fun u hu => by rw [take_win, update_win_of_ne hu]) hown.win
        rw [Function.update_self, hholders, Finset.card_insert_of_notMem hnot, h.count]
        rfl
      · have hholders : (take b t c n).holders σ = b.holders σ :=
          Board.holders_congr fun u => by rw [take_win, Function.update_of_ne hσ]
        rw [Function.update_of_ne hσ, hholders]
        exact h.count σ
    · intro σ hsame
      dsimp only at hsame
      rw [take_tail, take_head]
      by_cases hσ : σ = c.side
      · subst hσ
        have hcount := h.count c.side
        rw [Function.update_self] at hsame
        replace hsame : s.ops c.side + 1 = s.fin c.side := hsame
        omega
      · rw [Function.update_of_ne hσ] at hsame ⊢
        exact h.settled σ hsame
  · exact ⟨b, Relation.ReflTransGen.refl, h.load hnone⟩

/-! ## 要素を写す -/

theorem RtsSim.copy (h : RtsSim g s b) (hpc : s.pcs t = .copy c old free n i got) :
    ∃ b', Board.Steps g.capacity.toNat (2 ^ g.bits) b b' ∧
      RtsSim g (s.copy g t c old free n i got) b' := by
  have ht := h.track t
  rw [hpc] at ht
  obtain ⟨w, hown⟩ := ht
  unfold RtsSys.copy
  split
  · next hi =>
    have hstep : Board.Step g.capacity.toNat (2 ^ g.bits) b (touch g b t c w) := touch_step hown hi
    have hwin : ∀ σ u, u ≠ t → (touch g b t c w).win σ u = b.win σ u := by
      intro σ u hu
      rw [touch_win, update_win_of_ne hu]
    -- 区間は取ったときのままで、写した個数だけが増える
    have hstart : ∀ σ u v, (touch g b t c w).win σ u = some v →
        ∃ v0, b.win σ u = some v0 ∧ v0.start = v.start := by
      intro σ u v hv
      by_cases hu : u = t
      · subst hu
        by_cases hσ : σ = c.side
        · subst hσ
          obtain rfl : w.advance = v := Option.some.inj ((touch_owns hown).win.symm.trans hv)
          exact ⟨w, hown.win, rfl⟩
        · rw [touch_win, Function.update_of_ne hσ] at hv
          exact ⟨v, hv, rfl⟩
      · exact ⟨v, (hwin σ u hu).symm.trans hv, rfl⟩
    refine ⟨touch g b t c w, Relation.ReflTransGen.single hstep, ?_⟩
    dsimp only
    refine ⟨h.inv.step g.capacity_le_size hstep, ?_, ?_, ?_, ?_, ?_, ?_, ?_, ?_⟩
    · rw [touch_head]; exact h.head
    · rw [touch_tail]; exact h.tail
    · rw [touch_slots hown, h.slots]
    · rw [touch_sent]; exact h.sent
    · have htaken : (touch g b t c w).taken = b.taken := by
        cases hc : c.side <;> simp only [touch, hc] <;> rfl
      rw [htaken]
      exact h.taken
    · refine forall_rtsTrack_update ⟨w.advance, ?_⟩ fun u hu => ?_
      · rw [h.slots]
        exact touch_owns hown
      · refine (h.track u).frame (fun σ => hwin σ u hu) (touch_buf_of_ne hu) ?_ ?_ ?_ ?_ ?_ ?_ ?_ ?_
        · rw [touch_sent]
        · exact fun _ => Nat.le_refl _
        · exact fun _ => Nat.le_refl _
        · rw [touch_head]; exact fun _ _ => rfl
        · rw [touch_head]; exact fun _ => Nat.le_refl _
        · rw [touch_tail]; exact fun _ _ => rfl
        · rw [touch_tail]; exact fun _ => Nat.le_refl _
        · exact fun σ v x hx => Or.inl (hstart σ v x hx)
    · intro σ
      have hholders : (touch g b t c w).holders σ = b.holders σ := by
        refine Board.holders_congr fun u => ?_
        by_cases hu : u = t
        · subst hu
          by_cases hσ : σ = c.side
          · subst hσ
            rw [(touch_owns hown).win, hown.win]
            rfl
          · rw [touch_win, Function.update_of_ne hσ]
        · rw [hwin σ u hu]
      rw [hholders]
      exact h.count σ
    · rw [touch_tail, touch_head]
      exact h.settled
  · next hi =>
    have hle := (h.inv.placed.win_within hown.win).2.2
    rw [hown.done, hown.len] at hle
    obtain rfl : i = n.toNat := by omega
    exact ⟨b, Relation.ReflTransGen.refl, h.setPc_same ⟨w, hown⟩⟩

/-! ## `tail` を動かす -/

/-- 書く値は、追いついたなら読んだ `head` の位置、そうでなければ今の `tail` の位置である。 -/
theorem nextTail_eq {fin oph hp tail cap : Nat} (hcap : cap < 2 ^ 31) (hlo : fin + 1 ≤ oph)
    (hhi : oph ≤ fin + cap) :
    nextTail ⟨UInt32.ofNat fin, UInt32.ofNat tail⟩ ⟨UInt32.ofNat oph, UInt32.ofNat hp⟩ =
      ⟨UInt32.ofNat (fin + 1), UInt32.ofNat (if oph = fin + 1 then hp else tail)⟩ := by
  have hnext : UInt32.ofNat fin + 1 = UInt32.ofNat (fin + 1) := by
    rw [UInt32.ofNat_add]
    rfl
  unfold nextTail
  dsimp only
  rw [hnext]
  by_cases heq : oph = fin + 1
  · rw [if_pos (by rw [heq]), if_pos heq]
  · have hne : UInt32.ofNat (fin + 1) ≠ UInt32.ofNat oph := fun hw =>
      heq (eq_of_ofNat_eq hlo (by omega) hw).symm
    rw [if_neg hne, if_neg heq]

/-- 区間を返した後の、ほかの thread の居場所。 -/
theorem RtsSim.track_finishAt (h : RtsSim g s b) {k : Nat} (hle : b.tail c.side ≤ k) {u : ι}
    (hu : u ≠ t) :
    RtsTrack g (finishAt b t c w k) s.ops (Function.update s.fin c.side (s.fin c.side + 1))
      (s.seen u) u (s.pcs u) := by
  refine (h.track u).frame ?_ ?_ ?_ (fun _ => Nat.le_refl _) ?_ ?_ ?_ ?_ ?_ ?_
  · intro σ
    rw [finishAt_win, update_win_of_ne hu]
  · rw [finishAt_buf]
  · rw [finishAt_sent]
  · intro σ
    by_cases hσ : σ = c.side
    · subst hσ
      rw [Function.update_self]
      omega
    · rw [Function.update_of_ne hσ]
  · rw [finishAt_head]; exact fun _ _ => rfl
  · rw [finishAt_head]; exact fun _ => Nat.le_refl _
  · intro σ hsame
    by_cases hσ : σ = c.side
    · subst hσ
      rw [Function.update_self] at hsame
      omega
    · exact Function.update_of_ne hσ _ _
  · intro σ
    by_cases hσ : σ = c.side
    · subst hσ
      simp only [finishAt, Function.update_self]
      exact hle
    · simp only [finishAt, Function.update_of_ne hσ]
      exact Nat.le_refl _
  · intro σ v x hx
    left
    by_cases hv : v = t
    · subst hv
      by_cases hσ : σ = c.side
      · subst hσ
        rw [finishAt_win, Function.update_self, Function.update_self] at hx
        cases hx
      · rw [finishAt_win, Function.update_of_ne hσ] at hx
        exact ⟨x, hx, rfl⟩
    · rw [finishAt_win, update_win_of_ne hv] at hx
      exact ⟨x, hx, rfl⟩

theorem RtsSim.casTail (h : RtsSim g s b) (hpc : s.pcs t = .casTail c old free n got ot nt)
    (hok : s.Allowed (.run t)) :
    ∃ b', Board.Steps g.capacity.toNat (2 ^ g.bits) b b' ∧
      RtsSim g (s.casTail t c old free n got ot nt) b' := by
  have ht := h.track t
  rw [hpc] at ht
  obtain ⟨⟨w, hown⟩, hsnap, oph, hp, htarget⟩ := ht
  unfold RtsSys.casTail
  split
  · next hmove =>
    have hnow := hsnap.eq ((h.tail c.side).symm.trans hmove) (hok.2 c old free n got ot nt hpc hmove)
    obtain ⟨hlo, hhi⟩ := htarget.counted hnow
    obtain ⟨htp, hhp⟩ := htarget.within hnow
    have hlast := htarget.last hnow
    have htail := h.inv.placed.tail_le c.side
    have hcap := g.capacity_lt_word
    rw [hnow] at hlo hhi hlast
    generalize hk : (if oph = s.fin c.side + 1 then hp else b.tail c.side) = k
    have hnt : nt = ⟨UInt32.ofNat (s.fin c.side + 1), UInt32.ofNat k⟩ := by
      rw [htarget.value, ← hmove, h.tail, nextTail_eq hcap hlo hhi, hk]
    have hbounds : b.tail c.side ≤ k ∧ k ≤ b.head c.side ∧
        ∀ u v, u ≠ t → b.win c.side u = some v → k ≤ v.start := by
      rw [← hk]
      split
      · next hcaught => exact ⟨htp, hhp, hlast hcaught⟩
      · exact ⟨Nat.le_refl _, htail, fun u v _ hv => (h.inv.placed.win_within hv).1⟩
    obtain ⟨hle, hkhead, hfree⟩ := hbounds
    have hsteps : Board.Steps g.capacity.toNat (2 ^ g.bits) b (finishAt b t c w k) :=
      finishAt_steps hown hle hkhead hfree
    have hmem : t ∈ b.holders c.side := Board.mem_holders.mpr ⟨w, hown.win⟩
    refine ⟨finishAt b t c w k, hsteps, h.inv.steps g.capacity_le_size hsteps, ?_, ?_, ?_, ?_, ?_, ?_,
      ?_, ?_⟩
    · intro σ
      rw [finishAt_head]
      dsimp only
      rw [RtsRing.setTail_head]
      exact h.head σ
    · intro σ
      dsimp only [finishAt]
      by_cases hσ : σ = c.side
      · subst hσ
        rw [RtsRing.setTail_self, Function.update_self, Function.update_self, hnt]
      · rw [RtsRing.setTail_of_ne _ _ _ hσ, Function.update_of_ne hσ, Function.update_of_ne hσ, h.tail]
    · rw [finishAt_slots, ← h.slots]
      rfl
    · rw [finishAt_sent]
      exact h.sent
    · rw [finishAt_taken hown]
      dsimp only
      cases hc : c.side with
      | prod => exact h.taken
      | cons =>
        dsimp only
        rw [List.map_append, List.map_singleton, h.taken, hown.start]
    · refine forall_rtsTrack_update ?_ fun u hu => h.track_finishAt hle hu
      intro σ
      rw [finishAt_win]
      by_cases hσ : σ = c.side
      · subst hσ
        rw [Function.update_self, Function.update_self]
      · rw [Function.update_of_ne hσ]
        have hopp : c.side.opp = σ := by cases hc : c.side <;> cases σ <;> simp_all
        exact hopp ▸ hown.other
    · intro σ
      dsimp only
      by_cases hσ : σ = c.side
      · subst hσ
        have hholders : (finishAt b t c w k).holders c.side = (b.holders c.side).erase t :=
          Board.holders_erase (fun u hu => by rw [finishAt_win, update_win_of_ne hu])
            (by rw [finishAt_win, Function.update_self, Function.update_self])
        have hcount := h.count c.side
        have hpos := Finset.card_pos.mpr ⟨t, hmem⟩
        rw [Function.update_self, hholders, Finset.card_erase_of_mem hmem]
        change s.ops c.side = _
        omega
      · have hholders : (finishAt b t c w k).holders σ = b.holders σ :=
          Board.holders_congr fun u => by rw [finishAt_win, Function.update_of_ne hσ]
        rw [Function.update_of_ne hσ, hholders]
        exact h.count σ
    · -- 最後の一人なら、読んだ `head` は今の `head` である
      intro σ hsame
      rw [finishAt_head]
      dsimp only [finishAt] at hsame ⊢
      by_cases hσ : σ = c.side
      · subst hσ
        rw [Function.update_self] at hsame ⊢
        replace hsame : s.ops c.side = s.fin c.side + 1 := hsame
        have hoph := htarget.le
        have heq : oph = s.ops c.side := by omega
        rw [← hk, if_pos (by omega), htarget.now heq]
      · rw [Function.update_of_ne hσ] at hsame ⊢
        exact h.settled σ hsame
  · exact ⟨b, Relation.ReflTransGen.refl, h.loadTail hown⟩

/-! ## 実行 -/

/-- **一歩の模倣。** -/
theorem RtsSim.step (h : RtsSim g s b) {a : RtsAct ι α} (hok : s.Allowed a)
    (hs : s.step g a = some s') :
    ∃ b', Board.Steps g.capacity.toNat (2 ^ g.bits) b b' ∧ RtsSim g s' b' := by
  cases a with
  | call t c =>
    simp only [RtsSys.step] at hs
    split at hs
    · next ret hpc =>
      have ht := h.track t
      rw [hpc] at ht
      rw [← Option.some.inj hs]
      exact ⟨b, Relation.ReflTransGen.refl, h.setPc_same ht⟩
    · cases hs
  | run t =>
    have ht := h.track t
    simp only [RtsSys.step] at hs
    split at hs
    · cases hs
    · next c hpc =>
      rw [hpc] at ht
      rw [← Option.some.inj hs]
      exact ⟨b, Relation.ReflTransGen.refl, h.load ht⟩
    · next c oh hpc =>
      rw [← Option.some.inj hs]
      exact ⟨b, Relation.ReflTransGen.refl, h.headWait hpc⟩
    · next c oh hpc =>
      rw [← Option.some.inj hs]
      exact ⟨b, Relation.ReflTransGen.refl, h.readTail hpc⟩
    · next c oh free n hpc =>
      rw [← Option.some.inj hs]
      exact h.moveHead hpc hok
    · next c old free n i got hpc =>
      rw [← Option.some.inj hs]
      exact h.copy hpc
    · next c old free n got hpc =>
      rw [hpc] at ht
      obtain ⟨w, hown⟩ := ht
      rw [← Option.some.inj hs]
      exact ⟨b, Relation.ReflTransGen.refl, h.loadTail hown⟩
    · next c old free n got ot hpc =>
      rw [← Option.some.inj hs]
      exact ⟨b, Relation.ReflTransGen.refl, h.loadHead hpc⟩
    · next c old free n got ot nt hpc =>
      rw [← Option.some.inj hs]
      exact h.casTail hpc hok

omit [DecidableEq ι] in
theorem rtsSim_init (htdMax : UInt32) (slots : Nat → α) :
    RtsSim g (RtsSys.init htdMax slots : RtsSys ι α) (Board.fresh slots) where
  inv := Board.fresh_inv slots
  head _ := rfl
  tail _ := rfl
  slots := rfl
  sent := rfl
  taken := rfl
  track _ _ := rfl
  count σ := by
    have hnone : (Board.fresh slots : Board ι α).holders σ = ∅ := by
      simp [Board.holders, Board.fresh]
    rw [hnone]
    rfl
  settled _ _ := rfl

/-- **実行の模倣。** -/
theorem exists_rtsSim
    (hr : Reaches (RtsSys.step g) RtsSys.Allowed (RtsSys.init htdMax slots) s) :
    ∃ b, RtsSim g s b := by
  obtain ⟨b, -, hb⟩ := hr.simulates (rtsSim_init htdMax slots) fun u a u' b hb hok hs =>
    hb.step hok hs
  exact ⟨b, hb⟩

/-! ## 二人の例 -/

/-- 進んだ回数が 2^32 に満たない。 -/
def RtsSys.Few (s : RtsSys ι α) (_ : RtsAct ι α) : Prop :=
  (s.ops .prod < 2 ^ 32 ∧ s.ops .cons < 2 ^ 32) ∧ s.fin .prod < 2 ^ 32 ∧ s.fin .cons < 2 ^ 32

instance (s : RtsSys ι α) (a : RtsAct ι α) : Decidable (s.Few a) :=
  inferInstanceAs (Decidable ((_ ∧ _) ∧ _ ∧ _))

omit [DecidableEq ι] [Fintype ι] in
theorem RtsSys.allowed_of_few (s : RtsSys ι α) (a : RtsAct ι α) (h : s.Few a) : s.Allowed a := by
  obtain ⟨⟨h1, h2⟩, h3, h4⟩ := h
  cases a with
  | call t c => trivial
  | run t =>
    constructor
    · intro c oh free n _ _
      have : s.ops c.side < 2 ^ 32 := by cases c.side <;> assumption
      omega
    · intro c old free n got ot nt _ _
      have : s.fin c.side < 2 ^ 32 := by cases c.side <;> assumption
      omega

/-- 三つの番号を渡す。 -/
def giveThree : Call Nat :=
  { side := .prod, n := 3, behavior := .queueFixed, objs := fun j => 10 + j }

/-- 一つ受け取る。 -/
def takeOne : Call Nat :=
  { side := .cons, n := 1, behavior := .queueVariable, objs := fun _ => 0 }

/--
`false` が三つ渡してから、二人が一つずつ受け取る。`true` が先に終わるが、`false` を待たずに戻る。
-/
def outOfOrder : List (RtsAct Bool Nat) :=
  .call false giveThree :: List.replicate 11 (.run false) ++
    .call false takeOne :: List.replicate 4 (.run false) ++
    .call true takeOne :: List.replicate 9 (.run true) ++ List.replicate 5 (.run false)

/-- 例の `k` 歩目までの状態。 -/
def AfterOut (k : Nat) (s : RtsSys Bool Nat) : Prop :=
  exec (RtsSys.step fourSlots) (RtsSys.init 1 fun _ => 0) (outOfOrder.take k) = some s

theorem AfterOut.reaches {k : Nat} {s : RtsSys Bool Nat} (h : AfterOut k s) :
    Reaches (RtsSys.step fourSlots) RtsSys.Allowed (RtsSys.init 1 fun _ => 0) s := by
  have hok : Along (RtsSys.step fourSlots) RtsSys.Few (RtsSys.init 1 fun _ => 0) outOfOrder := by
    decide
  exact (reaches_of_along (hok.take k) h).mono RtsSys.allowed_of_few

/-! ## 渡された要素 -/

omit [DecidableEq ι] in
/-- 区間を持つ者がいなければ、進めた回数は等しい。 -/
theorem RtsSim.ops_eq (h : RtsSim g s b) (hidle : ∀ t, (s.pcs t).inside ≠ some σ) :
    s.ops σ = s.fin σ ∧ ∀ t, b.win σ t = none := by
  have hnone : ∀ t, b.win σ t = none := by
    intro t
    cases hw : b.win σ t with
    | none => rfl
    | some w => exact absurd (h.owner hw).1 (hidle t)
  have hempty : b.holders σ = ∅ := by
    refine Finset.eq_empty_of_forall_notMem fun t ht => ?_
    obtain ⟨w, hw⟩ := Board.mem_holders.mp ht
    rw [hnone t] at hw
    cases hw
  have hcount := h.count σ
  rw [hempty, Finset.card_empty] at hcount
  exact ⟨hcount, hnone⟩

/--
**なくさず、増やさず渡す。** 何人がどの順に動いても、終えた dequeue が渡した要素は、渡された列の
続いた一部である。全部を合わせても、どの要素も渡された回数より多くは渡らず、
残っている個数は `capacity` を超えない。読んでいる途中の者がいなければ、
渡った要素は、渡された列の先頭部分の並べ替えである。
-/
theorem rts_delivers
    (hr : Reaches (RtsSys.step g) RtsSys.Allowed (RtsSys.init htdMax slots) s) :
    (∀ e ∈ s.taken, e.2 <:+: s.sent) ∧
      (s.taken.flatMap Prod.snd).Subperm s.sent ∧
      s.sent.length ≤ (s.taken.flatMap Prod.snd).length + g.capacity.toNat ∧
      ((∀ t, (s.pcs t).inside ≠ some .cons) → (s.taken.flatMap Prod.snd).Perm
        (s.sent.take (s.taken.flatMap Prod.snd).length)) := by
  obtain ⟨b, h⟩ := exists_rtsSim hr
  have hdel := h.inv.delivered
  have hflat : s.taken.flatMap Prod.snd = b.taken.flatMap Prod.snd := by
    rw [h.taken, List.flatMap_map]
  rw [hflat, h.sent]
  refine ⟨?_, hdel.subperm, ?_, ?_⟩
  · intro e he
    rw [h.taken] at he
    obtain ⟨e', he', rfl⟩ := List.mem_map.mp he
    have hcontent := hdel.content e' he'
    dsimp only
    rw [hcontent]
    exact (List.take_prefix _ _).isInfix.trans (List.drop_suffix _ _).isInfix
  · have htail := hdel.tail_le h.inv.placed
    have hroom := h.inv.placed.prod_le
    rw [Board.length_flatMap_batchRange] at htail
    rw [h.inv.counted]
    omega
  · intro hidle
    have hperm := hdel.perm (h.ops_eq hidle).2
    have h1 := h.inv.placed.cons_le
    have h2 := h.inv.placed.tail_le .prod
    have hlen : (b.taken.flatMap Prod.snd).length = b.head .cons := by
      rw [hperm.length_eq, List.length_take, h.inv.counted]
      omega
    rw [hlen]
    exact hperm

theorem rts_delivers_out : ∃ s, AfterOut 32 s ∧ s.sent = [10, 11, 12] ∧
    s.taken = [(1, [11]), (0, [10])] ∧ (s.taken.flatMap Prod.snd).Subperm s.sent ∧
      (s.taken.flatMap Prod.snd).Perm (s.sent.take (s.taken.flatMap Prod.snd).length) := by
  obtain ⟨s, hs, hsent, htaken, hout⟩ : ∃ s, AfterOut 32 s ∧ s.sent = [10, 11, 12] ∧
      s.taken = [(1, [11]), (0, [10])] ∧ ∀ t, (s.pcs t).inside = none :=
    ⟨_, rfl, rfl, rfl, Bool.forall_bool.mpr ⟨rfl, rfl⟩⟩
  obtain ⟨-, hsub, -, hperm⟩ := rts_delivers hs.reaches
  exact ⟨s, hs, hsent, htaken, hsub, hperm fun t => by rw [hout t]; decide⟩

/-! ## 追いつく -/

/--
**追いつく。** その側で `head` を進めて終えていない者がいなければ、`tail` は位置も回数も
`head` に等しい。待たずに戻った者の分も、最後の者がまとめて見えるようにしている。
-/
theorem rts_settles
    (hr : Reaches (RtsSys.step g) RtsSys.Allowed (RtsSys.init htdMax slots) s)
    (hidle : ∀ t, (s.pcs t).inside ≠ some σ) : (s.ring.ht σ).tail = (s.ring.ht σ).head := by
  obtain ⟨b, h⟩ := exists_rtsSim hr
  have heq := (h.ops_eq hidle).1
  rw [h.head, h.tail, heq, h.settled σ heq]

theorem rts_settles_out : ∃ s, AfterOut 32 s ∧ (s.ring.ht .cons).head = ⟨2, 2⟩ ∧
    (s.ring.ht .cons).tail = (s.ring.ht .cons).head := by
  obtain ⟨s, hs, hhead, hout⟩ : ∃ s, AfterOut 32 s ∧ (s.ring.ht .cons).head = ⟨2, 2⟩ ∧
      ∀ t, (s.pcs t).inside = none := ⟨_, rfl, rfl, Bool.forall_bool.mpr ⟨rfl, rfl⟩⟩
  exact ⟨s, hs, hhead, rts_settles hs.reaches fun t => by rw [hout t]; decide⟩

end L3fwd.Ring
