import L3fwd.Ring.HtsFifo

/-!
# 一人ずつ使う ring の実行

どの一歩も不変条件を保つことを示し、実行全体について読み出す。

* 区間を持つ thread は側ごとに高々一人である（`hts_exclusive`）
* 受け取られた列は渡された列の先頭部分である（`hts_fifo`）
* `finish` は、押さえた要素のうち頼まれた個数だけをちょうど動かし、残りを元に戻す（`peek_finish`）
-/

namespace L3fwd.Ring

open Infra

variable {ι α : Type*} [DecidableEq ι] {g : Geometry} {s s' : HtsSys ι α} {t u : ι}
  {head head' : Side → Nat} {c : HtsCall α} {op : RteRingHeadtail} {old free n num tail : UInt32}
  {i j : Nat} {got xs moved : List α} {view objs : Nat → α} {pc : HtsPc α} {σ : Side}
  {slots : Nat → α}

/-! ## 区間を取る -/

omit [DecidableEq ι] in
theorem entered_track {r : RteRing α} {passed : Side → List α} {seen : Nat}
    (h : Region passed head c old n) :
    HtsTrack g r passed head seen (HtsSys.entered g r.slots c old free n) := by
  have hcopy : HtsTrack g r passed head seen (.copy c old free n 0 []) := by
    have hnil : copied c 0 [] = [] := by
      unfold copied
      split <;> rfl
    refine ⟨h, Nat.zero_le _, by rw [hnil]; rfl, ?_⟩
    rw [hnil]
    cases c.side with
    | prod =>
      intro j x hx
      cases hx
    | cons => simp [Carries]
  cases hm : c.mode with
  | whole => simpa only [HtsSys.entered, hm] using hcopy
  | peek =>
    cases hc : c.side with
    | prod =>
      simp only [HtsSys.entered, hm, hc]
      refine ⟨h, fun _ => carries_slots _, fun hs => ?_⟩
      rw [hc] at hs
      cases hs
    | cons => simpa only [HtsSys.entered, hm, hc] using hcopy
  | zc =>
    simp only [HtsSys.entered, hm]
    exact ⟨h, fun _ => carries_slots _, fun _ hne => absurd hm hne⟩

omit [DecidableEq ι] in
theorem entered_inside (slots : Nat → α) :
    (HtsSys.entered g slots c old free n).inside = some c.side ∧
      (HtsSys.entered g slots c old free n).call = some c := by
  cases hm : c.mode <;> cases hc : c.side <;> simp only [HtsSys.entered, hm, hc] <;>
    exact ⟨by simp only [HtsPc.inside, hc], rfl⟩

theorem HtsInv.moveHead (h : HtsInv g s head) (hpc : s.pcs t = .moveHead c op free n)
    (hok : s.Allowed (.run t)) : ∃ head', HtsInv g (s.moveHead g t c op free n) head' := by
  have ht := h.track t
  rw [hpc] at ht
  obtain ⟨hseen, hsame, hn, hroom⟩ := ht
  have hcall : (s.pcs t).call = some c := by rw [hpc]; rfl
  unfold HtsSys.moveHead
  split
  · next hmove =>
    obtain ⟨hnow, hhead⟩ := h.seen_eq hpc hok hmove
    have hold : op.head = UInt32.ofNat (s.passed c.side).length := by
      rw [hsame, hseen.tail, hnow]
    have hword : op.head + n = UInt32.ofNat ((s.passed c.side).length + n.toNat) := by
      rw [ofNat_add_word, hold]
    have hregion : Region s.passed
        (Function.update head c.side ((s.passed c.side).length + n.toNat)) c op.head n :=
      ⟨hold, by rw [Function.update_self], Or.inr hn⟩
    obtain ⟨hin, hkeep⟩ := @entered_inside _ g c op.head free n s.ring.slots
    refine ⟨Function.update head c.side ((s.passed c.side).length + n.toNat),
      h.own hcall rfl (fun _ _ => rfl) ?_ ?_ (h.quiet_of_eq hcall hhead)
        (fun σ => List.prefix_rfl) ?_ (fun _ => rfl) (Or.inl hin) (Or.inr hkeep)⟩
    · rw [hword]
      exact h.settled.setHead (hroom hnow)
    · exact entered_track hregion
    · intro σ hσ
      exact ⟨rfl, Function.update_of_ne hσ _ _⟩
  · exact ⟨head, h.loadPos hcall (by rw [hpc]; rfl)⟩

/-! ## 要素を写す -/

omit [DecidableEq ι] in
/-- 区間は ring の段数を超えない。 -/
theorem HtsInv.region_le (h : HtsInv g s head) (hr : Region s.passed head c old n) :
    n.toNat ≤ 2 ^ g.bits := by
  have hspan := h.settled.span_le c.side
  have hcap := g.capacity_lt
  have hstop := hr.stop
  omega

/-- 区間の中の場所に書く。 -/
theorem HtsInv.write (h : HtsInv g s head) (hcall : (s.pcs t).call = some c)
    (hin : (s.pcs t).inside = some c.side) (hc : c.side = .prod) (hr : Region s.passed head c old n)
    (hi : i < n.toNat) {x : α}
    (hpc : pc.inside = some c.side ∧ pc.call = some c)
    (htrack : HtsTrack g (s.ring.setSlot (slotIndex g old i) x) s.passed head (s.seen t) pc) :
    HtsInv g { s.setPc t pc with ring := s.ring.setSlot (slotIndex g old i) x } head := by
  have hstart := hr.start
  have hstop := hr.stop
  rw [hc] at hstart hstop
  refine h.own hcall rfl (fun _ _ => rfl) ?_ htrack (h.quiet hin) (fun _ => List.prefix_rfl)
    (fun _ _ => ⟨rfl, rfl⟩) ?_ (Or.inl hpc.1) (Or.inr hpc.2)
  · rw [hstart]
    exact h.settled.write (by omega) x
  · intro hcons
    rw [hc] at hcons
    cases hcons

theorem HtsInv.copy (h : HtsInv g s head) (hpc : s.pcs t = .copy c old free n i got) :
    HtsInv g (s.copy g t c old free n i got) head := by
  have ht := h.track t
  rw [hpc] at ht
  obtain ⟨hr, hile, hlen, hcar⟩ := ht
  have hcall : (s.pcs t).call = some c := by rw [hpc]; rfl
  have hin : (s.pcs t).inside = some c.side := by rw [hpc]; rfl
  by_cases hi : i < n.toNat
  · cases hc : c.side with
    | prod =>
      have hs : s.copy g t c old free n i got =
          { s.setPc t (.copy c old free n (i + 1) got) with
            ring := s.ring.setSlot (slotIndex g old i) (c.objs i) } := by
        simp only [HtsSys.copy, if_pos hi, copyOne, hc]
        rfl
      have hnext : copied c (i + 1) got = copied c i got ++ [c.objs i] := by
        simp only [copied, hc, List.range_succ, List.map_append, List.map_singleton]
      rw [hs]
      refine h.write hcall hin hc hr hi ⟨rfl, rfl⟩ ⟨hr, hi, ?_, ?_⟩
      · rw [hnext, List.length_append, hlen, List.length_singleton]
      · rw [hc] at hcar
        have hsize := h.region_le hr
        have hwrite := hcar.write (x := c.objs i) (by omega)
        rw [hlen] at hwrite
        rw [hc, hnext]
        exact hwrite
    | cons =>
      have hs : s.copy g t c old free n i got =
          s.setPc t (.copy c old free n (i + 1) (got ++ [s.ring.slots (slotIndex g old i)])) := by
        simp only [HtsSys.copy, if_pos hi, copyOne, hc]
        rfl
      have hcop : ∀ k ys, copied c k ys = ys := by
        intro k ys
        simp only [copied, hc]
      have hstart := hr.start
      have hstop := hr.stop
      rw [hcop, hc] at hcar
      rw [hcop] at hlen
      rw [hc] at hstart hstop
      rw [hs]
      refine h.setPc_same ⟨hr, hi, ?_, ?_⟩ hin.symm (Or.inr hcall.symm)
      · rw [hcop, List.length_append, hlen, List.length_singleton]
      · rw [hcop, hc, hstart]
        rw [hstart] at hcar
        exact hcar.read (by rw [hlen]; exact h.settled.read (by omega))
  · obtain rfl : i = n.toNat := by omega
    simp only [HtsSys.copy, if_neg hi]
    have hheld : HtsTrack g s.ring s.passed head (s.seen t)
        (.held c old free n got fun j => s.ring.slots (slotIndex g old j)) := by
      refine ⟨hr, fun _ => carries_slots _, fun hc _ => ?_⟩
      have hcop : copied c n.toNat got = got := by simp only [copied, hc]
      rw [hcop] at hlen hcar
      rw [hc] at hcar
      exact ⟨hlen, hcar⟩
    cases c.mode with
    | whole => exact h.setPc_same ⟨hr, hlen, hcar⟩ hin.symm (Or.inr hcall.symm)
    | peek => exact h.setPc_same hheld hin.symm (Or.inr hcall.symm)
    | zc => exact h.setPc_same hheld hin.symm (Or.inr hcall.symm)

/-! ## 渡す -/

/-- 要素を渡して戻る。 -/
theorem HtsInv.leave (h : HtsInv g s head) (hcall : (s.pcs t).call = some c)
    (hin : (s.pcs t).inside = some c.side) {ring : RteRing α} {ret : Option (Result α)}
    (hsettled : Settled g ring (Function.update s.passed c.side (s.passed c.side ++ xs)) head')
    (hhead : head' c.side = (s.passed c.side).length + xs.length)
    (hother : ∀ σ, σ ≠ c.side → head' σ = head σ) (hslots : ring.slots = s.ring.slots) :
    HtsInv g { (s.setPc t (.idle ret)).pass c.side xs with ring := ring } head' := by
  refine h.own hcall rfl (fun _ _ => rfl) hsettled trivial (h.quiet hin) ?_ ?_ (fun _ => hslots) ?_
    (Or.inl rfl)
  · intro σ
    by_cases hσ : σ = c.side
    · subst hσ
      simp only [HtsSys.pass, HtsSys.setPc, Function.update_self]
      exact List.prefix_append _ _
    · simp only [HtsSys.pass, HtsSys.setPc, Function.update_of_ne hσ]
      exact List.prefix_rfl
  · intro σ hσ
    refine ⟨?_, hother σ hσ⟩
    simp only [HtsSys.pass, HtsSys.setPc, Function.update_of_ne hσ]
  · refine Or.inr ⟨rfl, ?_⟩
    simp only [HtsSys.pass, HtsSys.setPc, Function.update_self, List.length_append]
    exact hhead

/-- 区間の全部を渡す。 -/
theorem HtsInv.commit (h : HtsInv g s head) (hcall : (s.pcs t).call = some c)
    (hin : (s.pcs t).inside = some c.side) (hr : Region s.passed head c old n)
    (hlen : xs.length = n.toNat) (hxs : Carries g s.ring s.passed c.side old xs)
    {ret : Option (Result α)} :
    HtsInv g { (s.setPc t (.idle ret)).pass c.side xs with
      ring := s.ring.setTail c.side (old + n) } head := by
  have hstop := hr.stop
  have hword : old + n = UInt32.ofNat ((s.passed c.side).length + xs.length) := by
    rw [hlen, ofNat_add_word, hr.start]
  refine h.leave hcall hin ?_ (by omega) (fun _ _ => rfl) rfl
  rw [hword]
  exact h.settled.commit (by omega) (hr.start ▸ hxs)

theorem HtsInv.storeTail (h : HtsInv g s head) (hpc : s.pcs t = .storeTail c old free n got) :
    HtsInv g (s.storeTail t c old free n got) head := by
  have ht := h.track t
  rw [hpc] at ht
  obtain ⟨hr, hlen, hcar⟩ := ht
  exact h.commit (by rw [hpc]; rfl) (by rw [hpc]; rfl) hr hlen hcar

theorem HtsInv.setTail (h : HtsInv g s head) (hpc : s.pcs t = .setTail c tail num moved) :
    HtsInv g (s.setTail t c tail num moved) head := by
  have ht := h.track t
  rw [hpc] at ht
  obtain ⟨hlen, hcar, hr, -⟩ := ht
  exact h.commit (by rw [hpc]; rfl) (by rw [hpc]; rfl) hr hlen hcar

/-- `head` を戻し、`ST` でなければ同時に `tail` を書く。 -/
theorem HtsInv.setHeadTail (h : HtsInv g s head) (hpc : s.pcs t = .setHeadTail c tail num moved) :
    ∃ head', HtsInv g (s.setHeadTail t c tail num moved) head' := by
  have ht := h.track t
  rw [hpc] at ht
  obtain ⟨hlen, hcar, n, hr, hle⟩ := ht
  have hcall : (s.pcs t).call = some c := by rw [hpc]; rfl
  have hin : (s.pcs t).inside = some c.side := by rw [hpc]; rfl
  have hstop := hr.stop
  have hroom := h.settled.head_le c.side
  have hword : tail + num = UInt32.ofNat ((s.passed c.side).length + num.toNat) := by
    rw [ofNat_add_word, hr.start]
  have hshrink : Settled g (s.ring.setHead c.side (tail + num)) s.passed
      (Function.update head c.side ((s.passed c.side).length + num.toNat)) := by
    rw [hword]
    exact h.settled.setHead (by omega)
  refine ⟨Function.update head c.side ((s.passed c.side).length + num.toNat), ?_⟩
  unfold HtsSys.setHeadTail
  split
  · next hone =>
    have hregion : Region s.passed
        (Function.update head c.side ((s.passed c.side).length + num.toNat)) c tail num :=
      ⟨hr.start, by rw [Function.update_self], Or.inl hone⟩
    refine h.own hcall rfl (fun _ _ => rfl) hshrink ⟨hlen, ?_, hregion, hone⟩ (h.quiet hin)
      (fun _ => List.prefix_rfl) ?_ (fun _ => rfl) (Or.inl rfl) (Or.inr rfl)
    · exact hcar.frame (fun _ => rfl) fun hs => by
        have := h.settled.cons_le
        rw [hs] at hstop
        exact ⟨rfl, by omega, List.prefix_rfl⟩
    · intro σ hσ
      exact ⟨rfl, Function.update_of_ne hσ _ _⟩
  · refine h.leave hcall hin ?_ ?_ (fun σ hσ => Function.update_of_ne hσ _ _) rfl
    · have hcarry : Carries g (s.ring.setHead c.side (tail + num)) s.passed c.side
          (UInt32.ofNat (s.passed c.side).length) moved := hr.start ▸ hcar
      have hcommit := hshrink.commit (by rw [Function.update_self, hlen]) hcarry
      rwa [hlen, ← hword] at hcommit
    · rw [Function.update_self, hlen]

/-! ## `finish` -/

omit [DecidableEq ι] in
/-- `finish` が使う個数は、押さえた個数を超えなければ頼まれた個数で、超えていれば 0 である。 -/
theorem HtsInv.getTailNum_eq (h : HtsInv g s head) (hr : Region s.passed head c old n)
    (num : UInt32) : getTailNum (s.ring.ht c.side) num = if num ≤ n then num else 0 := by
  have hsub : (s.ring.ht c.side).head - (s.ring.ht c.side).tail = n := by
    rw [h.settled.headWord, h.settled.tailWord, hr.stop, ofNat_add_word, add_sub_cancel_left]
  rw [getTailNum, hsub]

/-- 押さえた個数を超えて動かすことはない。 -/
theorem ite_num_le (num n : UInt32) : (if num ≤ n then num else 0).toNat ≤ n.toNat := by
  split
  · next hle => exact UInt32.le_iff_toNat_le.mp hle
  · simp

omit [DecidableEq ι] in
/-- `finish` が動かす要素は、区間の先頭の `num` 個である。 -/
theorem HtsInv.finished_carries (h : HtsInv g s head) (hr : Region s.passed head c old n)
    (hv : Viewed g s.ring s.passed c old n got view) (hle : num.toNat ≤ n.toNat) :
    (HtsSys.finished g s.ring.slots c old n num got view).length = num.toNat ∧
      Carries g s.ring s.passed c.side old
        (HtsSys.finished g s.ring.slots c old n num got view) := by
  have hsize := h.region_le hr
  have hstart := hr.start
  have hstop := hr.stop
  have htake : ∀ f : Nat → α, (List.range num.toNat).map f =
      ((List.range n.toNat).map f).take num.toNat := by
    intro f
    rw [← List.map_take, List.take_range, Nat.min_eq_left hle]
  cases hc : c.side with
  | prod =>
    simp only [HtsSys.finished, hc]
    refine ⟨by simp, ?_⟩
    rw [htake]
    exact (hv.prod hc).take _
  | cons =>
    rw [hc] at hstart hstop
    by_cases hm : c.mode = .zc
    · have hslot : (List.range num.toNat).map (fun j => s.ring.slots ((getElemAddr g old n).slot j)) =
          (List.range num.toNat).map fun j => s.ring.slots (slotIndex g old j) := by
        refine List.map_congr_left fun j hj => ?_
        rw [getElemAddr_slot hsize (Nat.lt_of_lt_of_le (List.mem_range.mp hj) hle)]
      simp only [HtsSys.finished, hc, hm]
      refine ⟨by simp, ?_⟩
      rw [hslot, hstart]
      exact h.settled.carries (by omega)
    · obtain ⟨hlen, hcar⟩ := hv.cons hc hm
      have hfin : HtsSys.finished g s.ring.slots c old n num got view = got.take num.toNat := by
        cases hm' : c.mode with
        | whole => simp only [HtsSys.finished, hc, hm']
        | peek => simp only [HtsSys.finished, hc, hm']
        | zc => exact absurd hm' hm
      rw [hfin]
      refine ⟨?_, hcar.take _⟩
      rw [List.length_take, hlen, Nat.min_eq_left hle]

theorem HtsInv.getTail (h : HtsInv g s head)
    (hpc : s.pcs t = .getTail c old n got view num objs) :
    HtsInv g (s.getTail g t c old n got view num objs) head := by
  have ht := h.track t
  rw [hpc] at ht
  obtain ⟨hr, hv⟩ := ht
  have hcall : (s.pcs t).call = some c := by rw [hpc]; rfl
  have hin : (s.pcs t).inside = some c.side := by rw [hpc]; rfl
  have htail : (s.ring.ht c.side).tail = old := by rw [h.settled.tailWord, hr.start]
  have hle := ite_num_le num n
  have hmove : HtsInv g (s.setPc t (.setHeadTail c old (if num ≤ n then num else 0)
      (HtsSys.finished g s.ring.slots c old n (if num ≤ n then num else 0) got view))) head := by
    obtain ⟨hlen, hcar⟩ := h.finished_carries hr hv hle
    exact h.setPc_same ⟨hlen, hcar, n, hr, hle⟩ hin.symm (Or.inr hcall.symm)
  unfold HtsSys.getTail
  simp only [h.getTailNum_eq hr, htail]
  split
  · next hc _ =>
    refine h.setPc_same ⟨hc, Nat.zero_le _, ?_, n, hr, hle⟩ hin.symm (Or.inr hcall.symm)
    intro j x hx
    cases hx
  · exact hmove

theorem HtsInv.fill (h : HtsInv g s head) (hpc : s.pcs t = .fill c tail num objs i) :
    HtsInv g (s.fill g t c tail num objs i) head := by
  have ht := h.track t
  rw [hpc] at ht
  obtain ⟨hc, hi, hcar, n, hr, hle⟩ := ht
  have hcall : (s.pcs t).call = some c := by rw [hpc]; rfl
  have hin : (s.pcs t).inside = some c.side := by rw [hpc]; rfl
  have hsize := h.region_le hr
  unfold HtsSys.fill
  split
  · next hlt =>
    refine h.write hcall hin hc hr (by omega) ⟨rfl, rfl⟩ ⟨hc, hlt, ?_, n, hr, hle⟩
    have hlen : ((List.range i).map objs).length = i := by simp
    have hwrite : Carries g (s.ring.setSlot (slotIndex g tail ((List.range i).map objs).length)
        (objs i)) s.passed .prod tail ((List.range i).map objs ++ [objs i]) :=
      hcar.write (by omega)
    rw [hlen] at hwrite
    rw [List.range_succ, List.map_append, List.map_singleton]
    exact hwrite
  · obtain rfl : i = num.toNat := by omega
    refine h.setPc_same ⟨by simp, ?_, n, hr, hle⟩ hin.symm (Or.inr hcall.symm)
    rw [hc]
    exact hcar

theorem HtsInv.poke (h : HtsInv g s head) (hpc : s.pcs t = .held c old free n got view)
    (hc : c.side = .prod) (hj : j < n.toNat) (x : α) :
    HtsInv g (s.poke g t c old free n got view j x) head := by
  have ht := h.track t
  rw [hpc] at ht
  obtain ⟨hr, hv⟩ := ht
  have hsize := h.region_le hr
  unfold HtsSys.poke
  rw [getElemAddr_slot hsize hj]
  refine h.write (by rw [hpc]; rfl) (by rw [hpc]; rfl) hc hr hj ⟨rfl, rfl⟩ ⟨hr, ?_, ?_⟩
  · exact fun _ => (hv.prod hc).poke hsize hj
  · intro hcons
    rw [hc] at hcons
    cases hcons

/-! ## 実行 -/

/-- **一歩の不変条件。** -/
theorem HtsInv.step (h : HtsInv g s head) {a : HtsAct ι α} (hok : s.Allowed a)
    (hs : s.step g a = some s') : ∃ head', HtsInv g s' head' := by
  cases a with
  | call t c =>
    simp only [HtsSys.step] at hs
    split at hs
    · next ret hpc => exact ⟨head, Option.some.inj hs ▸ h.call hpc hok⟩
    · cases hs
  | run t =>
    simp only [HtsSys.step] at hs
    split at hs
    · cases hs
    · next c hpc =>
      exact ⟨head, Option.some.inj hs ▸ h.loadPos (by rw [hpc]; rfl) (by rw [hpc]; rfl)⟩
    · next c op hpc => exact ⟨head, Option.some.inj hs ▸ h.headWait hpc⟩
    · next c op hpc => exact ⟨head, Option.some.inj hs ▸ h.readTail hpc⟩
    · next c op free n hpc => exact Option.some.inj hs ▸ h.moveHead hpc hok
    · next c old free n i got hpc => exact ⟨head, Option.some.inj hs ▸ h.copy hpc⟩
    · next c old free n got hpc => exact ⟨head, Option.some.inj hs ▸ h.storeTail hpc⟩
    · cases hs
    · next c old n got view num objs hpc => exact ⟨head, Option.some.inj hs ▸ h.getTail hpc⟩
    · next c tail num objs i hpc => exact ⟨head, Option.some.inj hs ▸ h.fill hpc⟩
    · next c tail num moved hpc => exact Option.some.inj hs ▸ h.setHeadTail hpc
    · next c tail num moved hpc => exact ⟨head, Option.some.inj hs ▸ h.setTail hpc⟩
  | finish t num objs =>
    simp only [HtsSys.step] at hs
    split at hs
    · next c old free n got view hpc =>
      have ht := h.track t
      rw [hpc] at ht
      exact ⟨head, Option.some.inj hs ▸
        h.setPc_same ht (by rw [hpc]; rfl) (Or.inr (by rw [hpc]; rfl))⟩
    · cases hs
  | poke t j x =>
    simp only [HtsSys.step] at hs
    split at hs
    · next c old free n got view hpc =>
      split at hs
      · next hz => exact ⟨head, Option.some.inj hs ▸ h.poke hpc hz.2.1 hz.2.2 x⟩
      · cases hs
    · cases hs

omit [DecidableEq ι] in
theorem htsInv_init (slots : Nat → α) :
    HtsInv g (HtsSys.init slots : HtsSys ι α) fun _ => 0 where
  settled := ⟨fun _ => rfl, fun _ => rfl, fun _ => Nat.le_refl 0, fun _ => Nat.zero_le _,
    List.prefix_rfl, fun p _ hp => absurd hp (Nat.not_lt_zero p)⟩
  track _ := trivial
  exclusive := fun h => by cases h
  vacant := fun _ => rfl
  alone := fun t u c d _ hc => by cases hc

/-- **実行の不変条件。** -/
theorem exists_htsInv (hr : Reaches (HtsSys.step g) HtsSys.Allowed (HtsSys.init slots) s) :
    ∃ head, HtsInv g s head := by
  refine @Reaches.invariant _ _ _ _ _ _ (fun v => ∃ head, HtsInv g v head) hr
    ⟨_, htsInv_init slots⟩ ?_
  rintro v a v' ⟨head, hv⟩ hok hs
  exact hv.step hok hs

/-! ## 二人の例 -/

/-- `head` を比べようとしている呼び出しと、読んだ位置。 -/
def HtsPc.comparing : HtsPc α → Option (HtsCall α × RteRingHeadtail)
  | .moveHead c op _ _ => some (c, op)
  | _ => none

/-- 約束は実行しながら判定できる。 -/
instance decidableHtsAllowed [Fintype ι] (s : HtsSys ι α) :
    (a : HtsAct ι α) → Decidable (s.Allowed a)
  | .call t c => decidable_of_iff (∀ u, u ≠ t → ∀ d ∈ (s.pcs u).call, d.side = c.side →
      c.single = false ∧ d.single = false)
        ⟨fun h u d hu hd => h u hu d hd, fun h u hu d hd => h u d hu hd⟩
  | .run t => decidable_of_iff (∀ x ∈ (s.pcs t).comparing, s.ring.ht x.1.side = x.2 →
      (s.passed x.1.side).length - s.seen t < 2 ^ 32) (by
        constructor
        · intro h c op free n hpc
          exact h (c, op) (by rw [hpc]; rfl)
        · rintro h ⟨c, op⟩ hx
          cases hpc : s.pcs t <;> rw [hpc] at hx <;> cases hx
          exact h _ _ _ _ hpc)
  | .finish _ _ _ => isTrue trivial
  | .poke _ _ _ => isTrue trivial

/-- 三つの番号を一度に渡す。 -/
def putThree : HtsCall Nat :=
  { side := .prod, n := 3, behavior := .queueFixed, objs := fun j => 10 + j, single := false,
    mode := .whole }

/-- 二つを見てから、受け取る個数を決める。 -/
def peekTwo : HtsCall Nat :=
  { side := .cons, n := 2, behavior := .queueVariable, objs := fun _ => 0, single := false,
    mode := .peek }

/--
0 番が三つ渡し、1 番が二つを見て一つだけ受け取る。
その間に 0 番も受け取ろうとするが、1 番が `finish` を呼ぶまで待たされる。
-/
def twoThreads : List (HtsAct (Fin 2) Nat) :=
  [.call 0 putThree, .run 0, .run 0, .run 0, .run 0, .run 0, .run 0, .run 0, .run 0, .run 0,
    .call 1 peekTwo, .run 1, .run 1, .run 1, .run 1, .run 1, .run 1, .run 1,
    .call 0 peekTwo, .run 0, .run 0,
    .finish 1 1 (fun _ => 0), .run 1, .run 1, .run 0, .run 0, .run 0, .run 0, .run 0, .run 0, .run 0]

/-- 例の `k` 歩目までの状態。 -/
def AfterTwo (k : Nat) (s : HtsSys (Fin 2) Nat) : Prop :=
  exec (HtsSys.step fourSlots) (HtsSys.init fun _ => 0) (twoThreads.take k) = some s

theorem AfterTwo.reaches {k : Nat} {s : HtsSys (Fin 2) Nat} (h : AfterTwo k s) :
    Reaches (HtsSys.step fourSlots) HtsSys.Allowed (HtsSys.init fun _ => 0) s := by
  have hok : Along (HtsSys.step fourSlots) HtsSys.Allowed (HtsSys.init fun _ => 0) twoThreads := by
    decide
  exact reaches_of_along (hok.take k) h

/-! ## 先入れ先出し -/

/--
**先入れ先出し。** 一度で終わる呼び出し、`start` と `finish` に分かれた呼び出し、`zc` の呼び出しが
どの順に混ざっても、受け取られた要素の列は渡された要素の列の先頭部分である。
残っている個数は `capacity` を超えず、`rte_ring_count` はその個数を返す。
-/
theorem hts_fifo (hr : Reaches (HtsSys.step g) HtsSys.Allowed (HtsSys.init slots) s) :
    s.passed .cons <+: s.passed .prod ∧
      (s.passed .prod).length ≤ (s.passed .cons).length + g.capacity.toNat ∧
      (rteRingCount g s.ring).toNat = (s.passed .prod).length - (s.passed .cons).length := by
  obtain ⟨head, h⟩ := exists_htsInv hr
  have h1 := h.settled.prod_le
  have h2 := h.settled.tail_le .prod
  have hcap : (s.passed .prod).length ≤ (s.passed .cons).length + g.capacity.toNat := by omega
  exact ⟨h.settled.order, hcap, rteRingCount_ofNat g (h.settled.tailWord .prod)
    (h.settled.tailWord .cons) h.settled.order.length_le hcap⟩

theorem hts_fifo_two : ∃ s, AfterTwo 31 s ∧ s.passed .prod = [10, 11, 12] ∧ s.passed .cons = [10] ∧
    s.passed .cons <+: s.passed .prod ∧
      (s.passed .prod).length ≤ (s.passed .cons).length + 3 ∧
      (rteRingCount fourSlots s.ring).toNat =
        (s.passed .prod).length - (s.passed .cons).length := by
  obtain ⟨s, hs, hp, hc⟩ : ∃ s, AfterTwo 31 s ∧ s.passed .prod = [10, 11, 12] ∧
      s.passed .cons = [10] := ⟨_, rfl, rfl, rfl⟩
  exact ⟨s, hs, hp, hc, hts_fifo hs.reaches⟩

/-! ## 一人ずつ -/

/--
**一人ずつ。** `head` を進めてから `tail` を書くまでの間に、同じ側で同じところにいる thread は
ほかにいない。`start` から戻って `finish` を呼ぶまでの間も、誰も入れない。
-/
theorem hts_exclusive (hr : Reaches (HtsSys.step g) HtsSys.Allowed (HtsSys.init slots) s)
    (hne : u ≠ t) (ht : (s.pcs t).inside = some σ) : (s.pcs u).inside ≠ some σ := by
  obtain ⟨head, h⟩ := exists_htsInv hr
  exact h.quiet ht u hne

theorem hts_exclusive_two : ∃ s, AfterTwo 21 s ∧ (s.pcs 1).inside = some .cons ∧
    s.pcs 0 = .headWait peekTwo ⟨2, 0⟩ ∧ (s.pcs 0).inside ≠ some .cons := by
  obtain ⟨s, hs, h1, h0⟩ : ∃ s, AfterTwo 21 s ∧ (s.pcs 1).inside = some .cons ∧
      s.pcs 0 = .headWait peekTwo ⟨2, 0⟩ := ⟨_, rfl, rfl, rfl⟩
  exact ⟨s, hs, h1, h0, hts_exclusive hs.reaches (by decide) h1⟩

end L3fwd.Ring
