import L3fwd.Ring.Defs

/-!
# 呼び出しと区間

ring の三つの動かし方（`MT`、`RTS`、`HTS`）は、`head` と `tail` の進め方だけが違う。
`head` を進めたあとの thread は、どれでも同じように区間を持ち、要素を写し、区間を返す。
その三つの動きを抽象の輪の一歩として書き、実装の側の値との対応 `Owns` を示す。
-/

namespace L3fwd.Ring

open Infra

variable {ι α : Type*}

/--
呼び出し `c` の thread が、抽象の区間 `w` を持っている。

`i` は写した個数、`got` は dequeue が読み出した要素である。
-/
structure Owns (b : Board ι α) (t : ι) (c : Call α) (old n : UInt32) (i : Nat) (got : List α)
    (w : Window) : Prop where
  win : b.win c.side t = some w
  other : b.win c.side.opp t = none
  start : old = UInt32.ofNat w.start
  len : w.len = n.toNat
  done : w.done = i
  pos : 0 < w.len
  objs : c.side = .prod → ∀ j, j < w.len → b.sent[w.start + j]? = some (c.objs j)
  got : c.side = .cons → b.buf t = got

variable {b b' : Board ι α} {t : ι} {c : Call α} {old n : UInt32} {i : Nat} {got : List α}
  {w : Window}

/-- ほかの thread の一歩で、持っている区間は変わらない。 -/
theorem Owns.frame (h : Owns b t c old n i got w) (hwin : ∀ σ, b'.win σ t = b.win σ t)
    (hbuf : b'.buf t = b.buf t) (hsent : b.sent <+: b'.sent) : Owns b' t c old n i got w where
  win := (hwin _).trans h.win
  other := (hwin _).trans h.other
  start := h.start
  len := h.len
  done := h.done
  pos := h.pos
  objs := by
    intro hc j hj
    have hget := h.objs hc j hj
    have hlt := (List.getElem?_eq_some_iff.mp hget).1
    obtain ⟨rest, hrest⟩ := hsent
    rw [← hrest, List.getElem?_append_left hlt]
    exact hget
  got := fun hc => hbuf.trans (h.got hc)

/-- 写し終えた区間の要素は、動かした要素である。 -/
theorem Owns.moved_eq {cap size : Nat} (h : Owns b t c old n n.toNat got w)
    (hb : b.Inv cap size) : c.moved n got = (b.sent.drop w.start).take w.len := by
  cases hc : c.side with
  | prod =>
    have hobjs := h.objs hc
    have hmoved : c.moved n got = (List.range w.len).map c.objs := by
      rw [Call.moved, hc, h.len]
    rw [hmoved]
    refine List.ext_getElem? fun j => ?_
    by_cases hj : j < w.len
    · rw [List.getElem?_map, List.getElem?_range hj, List.getElem?_take_of_lt hj,
        List.getElem?_drop, hobjs j hj, Option.map_some]
    · rw [List.getElem?_eq_none (by simpa using Nat.le_of_not_lt hj),
        List.getElem?_eq_none (Nat.le_trans (List.length_take_le _ _) (Nat.le_of_not_lt hj))]
  | cons =>
    have hw : b.win .cons t = some w := hc ▸ h.win
    have hmoved : c.moved n got = got := by rw [Call.moved, hc]
    rw [hmoved, ← h.got hc, hb.held t w hw, h.done, h.len]

/-! ## 区間を取る -/

section

variable [DecidableEq ι]

/-- `head` を進めて区間を取る。 -/
def take (b : Board ι α) (t : ι) (c : Call α) (n : UInt32) : Board ι α :=
  match c.side with
  | .prod => { b.reserve .prod t n.toNat with sent := b.sent ++ (List.range n.toNat).map c.objs }
  | .cons => { b.reserve .cons t n.toNat with buf := Function.update b.buf t [] }

/-- 要素をひとつ写す。 -/
def touch (g : Geometry) (b : Board ι α) (t : ι) (c : Call α) (w : Window) : Board ι α :=
  match c.side with
  | .prod => { b.setWin .prod t (some w.advance) with
      slots := Function.update b.slots ((w.start + w.done) % 2 ^ g.bits) (c.objs w.done) }
  | .cons => { b.setWin .cons t (some w.advance) with
      buf := Function.update b.buf t (b.buf t ++ [b.slots ((w.start + w.done) % 2 ^ g.bits)]) }

/-- 区間を返す。 -/
def release (b : Board ι α) (t : ι) (c : Call α) (w : Window) : Board ι α :=
  match c.side with
  | .prod => b.setWin .prod t none
  | .cons => { b.setWin .cons t none with taken := b.taken ++ [(w.start, b.buf t)] }

theorem take_head : (take b t c n).head =
    Function.update b.head c.side (b.head c.side + n.toNat) := by
  cases hc : c.side <;> simp only [take, hc] <;> rfl

theorem take_tail : (take b t c n).tail = b.tail := by
  cases hc : c.side <;> simp only [take, hc] <;> rfl

theorem take_slots : (take b t c n).slots = b.slots := by
  cases hc : c.side <;> simp only [take, hc] <;> rfl

theorem take_win : (take b t c n).win = Function.update b.win c.side
    (Function.update (b.win c.side) t (some ⟨b.head c.side, n.toNat, 0⟩)) := by
  cases hc : c.side <;> simp only [take, hc] <;> rfl

theorem take_sent : b.sent <+: (take b t c n).sent := by
  cases hc : c.side with
  | prod => simp only [take, hc]; exact List.prefix_append _ _
  | cons => simp only [take, hc]; exact List.prefix_rfl

theorem take_sent_take {k : Nat} (hk : k ≤ b.sent.length) :
    (take b t c n).sent.take k = b.sent.take k := by
  obtain ⟨rest, hrest⟩ := @take_sent _ _ b t c n _
  rw [← hrest, List.take_append_of_le_length hk]

theorem take_buf_of_ne {u : ι} (hu : u ≠ t) : (take b t c n).buf u = b.buf u := by
  cases hc : c.side with
  | prod => simp only [take, hc]; rfl
  | cons => simp only [take, hc, Function.update_of_ne hu]

theorem take_step {cap size : Nat} (hnone : b.win c.side t = none)
    (hroom : b.head c.side + n.toNat ≤ c.side.lead cap + b.tail c.side.opp) :
    Board.Step cap size b (take b t c n) := by
  cases hc : c.side with
  | prod =>
    rw [hc] at hnone hroom
    have hlen : ((List.range n.toNat).map c.objs).length = n.toNat := by simp
    have hstep : Board.Step cap size b _ :=
      Board.Step.put ((List.range n.toNat).map c.objs) hnone (by rw [hlen]; exact hroom)
    simpa only [take, hc, hlen] using hstep
  | cons =>
    rw [hc] at hnone hroom
    simp only [Side.lead_cons, Side.opp_cons, Nat.zero_add] at hroom
    have hstep : Board.Step cap size b _ := Board.Step.get n.toNat hnone hroom
    simpa only [take, hc] using hstep

/-- 取った区間は自分のものである。 -/
theorem take_owns (hnone : ∀ σ, b.win σ t = none) (hlen : b.sent.length = b.head .prod)
    (hn : 0 < n.toNat) : Owns (take b t c n) t c (UInt32.ofNat (b.head c.side)) n 0 []
      ⟨b.head c.side, n.toNat, 0⟩ where
  win := by rw [take_win, Function.update_self, Function.update_self]
  other := by
    have hne : c.side.opp ≠ c.side := by cases c.side <;> decide
    rw [take_win, Function.update_of_ne hne]
    exact hnone _
  start := rfl
  len := rfl
  done := rfl
  pos := hn
  objs := by
    intro hc j hj
    have hsent : (take b t c n).sent = b.sent ++ (List.range n.toNat).map c.objs := by
      simp only [take, hc]
    rw [hsent, hc, List.getElem?_append_right (by simp [hlen]), hlen, Nat.add_sub_cancel_left,
      List.getElem?_map, List.getElem?_range hj, Option.map_some]
  got := by
    intro hc
    simp only [take, hc, Function.update_self]

/-! ## 要素を写す -/

variable {g : Geometry}

theorem touch_head : (touch g b t c w).head = b.head := by
  cases hc : c.side <;> simp only [touch, hc] <;> rfl

theorem touch_tail : (touch g b t c w).tail = b.tail := by
  cases hc : c.side <;> simp only [touch, hc] <;> rfl

theorem touch_sent : (touch g b t c w).sent = b.sent := by
  cases hc : c.side <;> simp only [touch, hc] <;> rfl

theorem touch_win : (touch g b t c w).win = Function.update b.win c.side
    (Function.update (b.win c.side) t (some w.advance)) := by
  cases hc : c.side <;> simp only [touch, hc] <;> rfl

theorem touch_buf_of_ne {u : ι} (hu : u ≠ t) : (touch g b t c w).buf u = b.buf u := by
  cases hc : c.side with
  | prod => simp only [touch, hc]; rfl
  | cons => simp only [touch, hc, Function.update_of_ne hu]

theorem touch_slots (h : Owns b t c old n i got w) :
    (touch g b t c w).slots = (copyOne g b.slots c old i got).1 := by
  cases hc : c.side with
  | prod => simp only [touch, copyOne, hc, h.start, h.done, slotIndex_ofNat]
  | cons => simp only [touch, copyOne, hc, Board.setWin_slots]

theorem touch_step {cap : Nat} (h : Owns b t c old n i got w) (hi : i < n.toNat) :
    Board.Step cap (2 ^ g.bits) b (touch g b t c w) := by
  have hmore : w.done < w.len := by rw [h.done, h.len]; exact hi
  have hwin := h.win
  cases hc : c.side with
  | prod =>
    rw [hc] at hwin
    have hstep : Board.Step cap (2 ^ g.bits) b _ :=
      Board.Step.write hwin hmore (h.objs hc w.done hmore)
    simpa only [touch, hc] using hstep
  | cons =>
    rw [hc] at hwin
    have hstep : Board.Step cap (2 ^ g.bits) b _ := Board.Step.read hwin hmore
    simpa only [touch, hc] using hstep

theorem touch_owns (h : Owns b t c old n i got w) :
    Owns (touch g b t c w) t c old n (i + 1) (copyOne g b.slots c old i got).2 w.advance where
  win := by rw [touch_win, Function.update_self, Function.update_self]
  other := by
    have hne : c.side.opp ≠ c.side := by cases c.side <;> decide
    rw [touch_win, Function.update_of_ne hne]
    exact h.other
  start := h.start
  len := h.len
  done := by rw [Window.advance, h.done]
  pos := h.pos
  objs := by rw [touch_sent]; exact h.objs
  got := by
    intro hc
    simp only [touch, copyOne, hc, Function.update_self, h.got hc, h.start, h.done,
      slotIndex_ofNat]

/-! ## 区間を返す -/

theorem release_head : (release b t c w).head = b.head := by
  cases hc : c.side <;> simp only [release, hc] <;> rfl

theorem release_tail : (release b t c w).tail = b.tail := by
  cases hc : c.side <;> simp only [release, hc] <;> rfl

theorem release_sent : (release b t c w).sent = b.sent := by
  cases hc : c.side <;> simp only [release, hc] <;> rfl

theorem release_slots : (release b t c w).slots = b.slots := by
  cases hc : c.side <;> simp only [release, hc] <;> rfl

theorem release_buf : (release b t c w).buf = b.buf := by
  cases hc : c.side <;> simp only [release, hc] <;> rfl

theorem release_win : (release b t c w).win = Function.update b.win c.side
    (Function.update (b.win c.side) t none) := by
  cases hc : c.side <;> simp only [release, hc] <;> rfl

theorem release_step {cap size : Nat} (h : Owns b t c old n n.toNat got w) :
    Board.Step cap size b (release b t c w) := by
  have hdone : w.done = w.len := by rw [h.done, h.len]
  have hwin := h.win
  cases hc : c.side with
  | prod =>
    rw [hc] at hwin
    have hstep : Board.Step cap size b _ := Board.Step.written hwin hdone
    simpa only [release, hc] using hstep
  | cons =>
    rw [hc] at hwin
    have hstep : Board.Step cap size b _ := Board.Step.finished hwin hdone
    simpa only [release, hc] using hstep

/-- 一つの側の一人の区間だけを置き換えたとき、ほかの区間はそのままである。 -/
theorem update_win_of_ne {win : Side → ι → Option Window} {σ τ : Side} {v : Option Window} {u : ι}
    (hu : u ≠ t) : Function.update win σ (Function.update (win σ) t v) τ u = win τ u := by
  by_cases hτ : τ = σ
  · subst hτ
    rw [Function.update_self, Function.update_of_ne hu]
  · rw [Function.update_of_ne hτ]

/-! ## 区間を返して `tail` を進める -/

/-- 区間を返し、`tail` を `k` に置く。 -/
def finishAt (b : Board ι α) (t : ι) (c : Call α) (w : Window) (k : Nat) : Board ι α :=
  { release b t c w with tail := Function.update b.tail c.side k }

section

variable {k : Nat}

theorem finishAt_head : (finishAt b t c w k).head = b.head := release_head

theorem finishAt_tail : (finishAt b t c w k).tail = Function.update b.tail c.side k := rfl

theorem finishAt_sent : (finishAt b t c w k).sent = b.sent := release_sent

theorem finishAt_slots : (finishAt b t c w k).slots = b.slots := release_slots

theorem finishAt_buf : (finishAt b t c w k).buf = b.buf := release_buf

theorem finishAt_win : (finishAt b t c w k).win = Function.update b.win c.side
    (Function.update (b.win c.side) t none) := release_win

theorem finishAt_taken (h : Owns b t c old n n.toNat got w) :
    (finishAt b t c w k).taken = match c.side with
      | .prod => b.taken
      | .cons => b.taken ++ [(w.start, got)] := by
  cases hc : c.side with
  | prod =>
    simp only [finishAt, release, hc]
    rfl
  | cons => simp only [finishAt, release, hc, h.got hc]

/-- 残った区間を追い越さなければ、区間を返してから `tail` を進めてよい。 -/
theorem finishAt_steps {cap size : Nat} (h : Owns b t c old n n.toNat got w)
    (hle : b.tail c.side ≤ k) (hk : k ≤ b.head c.side)
    (hfree : ∀ u v, u ≠ t → b.win c.side u = some v → k ≤ v.start) :
    Board.Steps cap size b (finishAt b t c w k) := by
  have hfree' : ∀ u v, (release b t c w).win c.side u = some v → k ≤ v.start := by
    intro u v hv
    have hu : u ≠ t := by
      rintro rfl
      rw [release_win, Function.update_self, Function.update_self] at hv
      cases hv
    rw [release_win, update_win_of_ne hu] at hv
    exact hfree u v hu hv
  have hadvance : Board.Step cap size (release b t c w) _ :=
    Board.Step.advance c.side k (by rw [release_tail]; exact hle)
      (by rw [release_head]; exact hk) hfree'
  rw [release_tail] at hadvance
  exact (Relation.ReflTransGen.single (release_step h)).tail hadvance

end

/-- 区間が `tail` から始まっていれば、返してから `tail` をその終わりまで進めてよい。 -/
theorem finishAt_stop_steps {cap size : Nat} (hb : b.Inv cap size) (h : Owns b t c old n n.toNat got w)
    (hstart : b.tail c.side = w.start)
    (hpos : ∀ u v, b.win c.side u = some v → 0 < v.len) :
    Board.Steps cap size b (finishAt b t c w w.stop) := by
  obtain ⟨-, hstop, -⟩ := hb.placed.win_within h.win
  have hle : b.tail c.side ≤ w.stop := by
    rw [Window.stop]
    omega
  -- 残った区間は、どれも返した区間より後ろにある
  refine finishAt_steps h hle hstop fun u v hu hv => ?_
  have hlen := hpos u v hv
  have hlow := (hb.placed.win_within hv).1
  have hapart := hb.placed.win_apart h.win hv (Ne.symm hu)
  simp only [ApartFrom, Window.stop] at hapart
  rw [Window.stop]
  omega

end

end L3fwd.Ring
