import L3fwd.Ring.Hts

/-!
# 一人ずつ使う ring の不変条件

`head` と `tail` を一度に比べるので、`head` を進められるのは両方が等しいときだけである。
そのとき同じ側で区間を持つ thread はいない。したがって区間は側ごとに高々ひとつで、
その区間は `tail` から `head` までの全部である。

この事実があるので、要素の列は `tail` を越えたものだけを数えればよい。
`start` で押さえた区間は、`finish` で縮めても、ほかの誰にも見えていない。
-/

namespace L3fwd.Ring

open Infra

variable {ι α : Type*} {g : Geometry} {r : RteRing α} {passed passed' : Side → List α}
  {head head' : Side → Nat} {seen : Nat} {c : HtsCall α} {op : RteRingHeadtail}
  {old free n num tail : UInt32} {i j : Nat} {got xs moved : List α} {view objs : Nat → α}
  {pc : HtsPc α} {σ : Side}

/-! ## 渡された場所 -/

/-- `zc` で渡される場所は、写すときに触る場所と同じである。 -/
theorem getElemAddr_slot (hn : n.toNat ≤ 2 ^ g.bits) (hj : j < n.toNat) :
    (getElemAddr g old n).slot j = slotIndex g old j := by
  have hword := g.two_pow_bits_le
  have hsize := g.size_toNat
  obtain ⟨a, ha⟩ : ∃ a, old.toNat % 2 ^ g.bits = a := ⟨_, rfl⟩
  have hlt : a < 2 ^ g.bits := ha ▸ Nat.mod_lt _ (Nat.two_pow_pos _)
  have hidx : (old &&& g.mask).toNat = a := by
    have := g.and_mask old.toNat
    rwa [UInt32.ofNat_toNat, ha] at this
  have hsum : ((old &&& g.mask) + n).toNat = a + n.toNat := by
    rw [UInt32.toNat_add, hidx, Nat.mod_eq_of_lt (by omega)]
  have hslot : slotIndex g old j = (a + j) % 2 ^ g.bits := by
    rw [slotIndex_eq, ← Nat.mod_add_mod, ha]
  rw [hslot]
  unfold getElemAddr
  dsimp only
  split
  · next hwrap =>
    rw [UInt32.lt_iff_toNat_lt, hsize, hsum] at hwrap
    have hle : old &&& g.mask ≤ g.size := by
      rw [UInt32.le_iff_toNat_le, hidx, hsize]
      omega
    have hn1 : (g.size - (old &&& g.mask)).toNat = 2 ^ g.bits - a := by
      rw [UInt32.toNat_sub_of_le _ _ hle, hsize, hidx]
    simp only [RteRingZcData.slot, hn1, hidx, Option.getD_some, Nat.zero_add]
    split
    · rw [Nat.mod_eq_of_lt (by omega)]
    · rw [Nat.mod_eq_sub_mod (by omega), Nat.mod_eq_of_lt (by omega)]
      omega
  · next hfit =>
    rw [UInt32.lt_iff_toNat_lt, hsize, hsum] at hfit
    simp only [RteRingZcData.slot, hidx, if_pos hj]
    rw [Nat.mod_eq_of_lt (by omega)]

/-! ## 共有の部分 -/

/-- 語は折り返さない位置の下位 32 bit であり、`tail` の間には渡された要素が残っている。 -/
structure Settled (g : Geometry) (r : RteRing α) (passed : Side → List α) (head : Side → Nat) :
    Prop where
  headWord : ∀ σ, (r.ht σ).head = UInt32.ofNat (head σ)
  tailWord : ∀ σ, (r.ht σ).tail = UInt32.ofNat (passed σ).length
  tail_le : ∀ σ, (passed σ).length ≤ head σ
  head_le : ∀ σ, head σ ≤ σ.lead g.capacity.toNat + (passed σ.opp).length
  order : passed .cons <+: passed .prod
  stored : ∀ p, (passed .cons).length ≤ p → p < (passed .prod).length →
    (passed .prod)[p]? = some (r.slots (p % 2 ^ g.bits))

theorem Settled.cons_le (h : Settled g r passed head) : head .cons ≤ (passed .prod).length := by
  have := h.head_le .cons
  simpa using this

theorem Settled.prod_le (h : Settled g r passed head) :
    head .prod ≤ g.capacity.toNat + (passed .cons).length := h.head_le .prod

/-- どちらの側も、押さえている位置は容量を超えない。 -/
theorem Settled.span_le (h : Settled g r passed head) (σ : Side) :
    head σ ≤ (passed σ).length + g.capacity.toNat := by
  have h1 := h.cons_le
  have h2 := h.prod_le
  have h3 := h.tail_le .cons
  have h4 := h.tail_le .prod
  cases σ <;> omega

/-- `head` と `tail` の語が等しければ、位置も等しい。 -/
theorem Settled.head_eq (h : Settled g r passed head) (heq : (r.ht σ).head = (r.ht σ).tail) :
    head σ = (passed σ).length := by
  rw [h.headWord, h.tailWord] at heq
  have hspan := h.span_le σ
  have hcap := g.capacity_lt_word
  exact (eq_of_ofNat_eq (h.tail_le σ) (by omega) heq.symm).symm

/-- 押さえている間に `head` を動かす。 -/
theorem Settled.setHead (h : Settled g r passed head) {k : Nat}
    (hroom : (passed σ).length + k ≤ σ.lead g.capacity.toNat + (passed σ.opp).length) :
    Settled g (r.setHead σ (UInt32.ofNat ((passed σ).length + k))) passed
      (Function.update head σ ((passed σ).length + k)) where
  headWord τ := by
    have := congrFun (r.setHead_head σ (UInt32.ofNat ((passed σ).length + k))) τ
    rw [this]
    by_cases hτ : τ = σ
    · subst hτ
      rw [Function.update_self, Function.update_self]
    · rw [Function.update_of_ne hτ, Function.update_of_ne hτ, h.headWord]
  tailWord τ := by rw [RteRing.setHead_tail, h.tailWord]
  tail_le τ := by
    by_cases hτ : τ = σ
    · subst hτ
      rw [Function.update_self]
      omega
    · rw [Function.update_of_ne hτ]
      exact h.tail_le τ
  head_le τ := by
    by_cases hτ : τ = σ
    · subst hτ
      rw [Function.update_self]
      exact hroom
    · rw [Function.update_of_ne hτ]
      exact h.head_le τ
  order := h.order
  stored := h.stored

/-- 動かした要素。enqueue では区間に書いたもの、dequeue では列の先頭に残っているものである。 -/
def Carries (g : Geometry) (r : RteRing α) (passed : Side → List α) (σ : Side) (old : UInt32)
    (xs : List α) : Prop :=
  match σ with
  | .prod => ∀ j x, xs[j]? = some x → r.slots (slotIndex g old j) = x
  | .cons => xs = ((passed .prod).drop (passed .cons).length).take xs.length

/-- 先頭の一部だけを動かしてもよい。 -/
theorem Carries.take (h : Carries g r passed σ old xs) (k : Nat) :
    Carries g r passed σ old (xs.take k) := by
  cases σ with
  | prod =>
    intro j x hx
    refine h j x ?_
    rw [List.getElem?_take] at hx
    split at hx
    · exact hx
    · cases hx
  | cons =>
    simp only [Carries] at h ⊢
    rw [List.length_take, ← List.take_take, ← h]

/-- `tail` を書いて、動かした要素を渡す。 -/
theorem Settled.commit (h : Settled g r passed head) (hle : (passed σ).length + xs.length ≤ head σ)
    (hxs : Carries g r passed σ (UInt32.ofNat (passed σ).length) xs) :
    Settled g (r.setTail σ (UInt32.ofNat ((passed σ).length + xs.length)))
      (Function.update passed σ (passed σ ++ xs)) head where
  headWord τ := by rw [RteRing.setTail_head, h.headWord]
  tailWord τ := by
    have := congrFun (r.setTail_tail σ (UInt32.ofNat ((passed σ).length + xs.length))) τ
    rw [this]
    by_cases hτ : τ = σ
    · subst hτ
      rw [Function.update_self, Function.update_self, List.length_append]
    · rw [Function.update_of_ne hτ, Function.update_of_ne hτ, h.tailWord]
  tail_le τ := by
    by_cases hτ : τ = σ
    · subst hτ
      rw [Function.update_self, List.length_append]
      exact hle
    · rw [Function.update_of_ne hτ]
      exact h.tail_le τ
  head_le τ := by
    refine Nat.le_trans (h.head_le τ) (Nat.add_le_add_left ?_ _)
    by_cases hτ : τ.opp = σ
    · rw [hτ, Function.update_self, List.length_append]
      omega
    · rw [Function.update_of_ne hτ]
  order := by
    cases σ with
    | prod =>
      rw [Function.update_self, Function.update_of_ne (by decide)]
      exact h.order.trans (List.prefix_append _ _)
    | cons =>
      rw [Function.update_self, Function.update_of_ne (by decide)]
      have hpre := List.prefix_iff_eq_take.mp h.order
      have htake : passed .cons ++ xs =
          (passed .prod).take ((passed .cons).length + xs.length) := by
        simp only [Carries] at hxs
        rw [List.take_add, ← hpre, ← hxs]
      rw [htake]
      exact List.take_prefix _ _
  stored := by
    cases σ with
    | prod =>
      intro p hlo hhi
      rw [Function.update_of_ne (by decide)] at hlo
      rw [Function.update_self, List.length_append] at hhi
      rw [Function.update_self, RteRing.setTail_slots]
      by_cases hp : p < (passed .prod).length
      · rw [List.getElem?_append_left hp]
        exact h.stored p hlo hp
      · -- 新しく渡した要素は、区間に書いたものである
        rw [List.getElem?_append_right (Nat.le_of_not_lt hp)]
        have hlt : p - (passed .prod).length < xs.length := by omega
        have hslot := hxs _ _ (List.getElem?_eq_getElem hlt)
        rw [slotIndex_ofNat, Nat.add_sub_cancel' (Nat.le_of_not_lt hp)] at hslot
        rw [hslot, List.getElem?_eq_getElem hlt]
    | cons =>
      intro p hlo hhi
      rw [Function.update_of_ne (by decide)] at hhi ⊢
      rw [Function.update_self, List.length_append] at hlo
      exact h.stored p (by omega) hhi

/-- enqueue の区間に書いても、渡された要素は変わらない。 -/
theorem Settled.write (h : Settled g r passed head)
    (hi : (passed .prod).length + i < head .prod) (x : α) :
    Settled g (r.setSlot (slotIndex g (UInt32.ofNat (passed .prod).length) i) x) passed head where
  headWord := h.headWord
  tailWord := h.tailWord
  tail_le := h.tail_le
  head_le := h.head_le
  order := h.order
  stored p hlo hhi := by
    have hcap := g.capacity_lt
    have hroom := h.prod_le
    have hle := h.order.length_le
    have hne : p % 2 ^ g.bits ≠ slotIndex g (UInt32.ofNat (passed .prod).length) i := by
      rw [slotIndex_ofNat]
      exact Board.mod_ne_of_near hlo (by omega) (by omega) (by omega) (by omega)
    rw [RteRing.setSlot_slots, Function.update_of_ne hne]
    exact h.stored p hlo hhi

/-- dequeue の区間の要素は、列の続きである。 -/
theorem Settled.read (h : Settled g r passed head) (hi : (passed .cons).length + i < head .cons) :
    ((passed .prod).drop (passed .cons).length)[i]? =
      some (r.slots (slotIndex g (UInt32.ofNat (passed .cons).length) i)) := by
  have hle := h.cons_le
  rw [List.getElem?_drop, slotIndex_ofNat]
  exact h.stored _ (by omega) (by omega)

/-! ## 写した要素 -/

/-- `i` 個まで写した要素。 -/
def copied (c : HtsCall α) (i : Nat) (got : List α) : List α :=
  match c.side with
  | .prod => (List.range i).map c.objs
  | .cons => got

/-- 区間の次の場所に書けば、動かす要素がひとつ増える。 -/
theorem Carries.write {x : α} (h : Carries g r passed .prod old xs) (hlen : xs.length < 2 ^ g.bits) :
    Carries g (r.setSlot (slotIndex g old xs.length) x) passed .prod old (xs ++ [x]) := by
  intro j y hy
  rw [RteRing.setSlot_slots]
  rcases Nat.lt_trichotomy j xs.length with hlt | rfl | hgt
  · have hne : slotIndex g old j ≠ slotIndex g old xs.length := by
      intro heq
      have := slotIndex_inj hlen (Nat.lt_succ_of_lt hlt) (Nat.lt_succ_self _) heq
      omega
    rw [List.getElem?_append_left hlt] at hy
    rw [Function.update_of_ne hne]
    exact h j y hy
  · rw [List.getElem?_concat_length, Option.some.injEq] at hy
    rw [Function.update_self, hy]
  · rw [List.getElem?_eq_none (by simp; omega)] at hy
    cases hy

/-- 押さえた場所のひとつを書き換える。 -/
theorem Carries.poke {x : α} (h : Carries g r passed .prod old ((List.range n.toNat).map view))
    (hn : n.toNat ≤ 2 ^ g.bits) (hj : j < n.toNat) :
    Carries g (r.setSlot (slotIndex g old j) x) passed .prod old
      ((List.range n.toNat).map (Function.update view j x)) := by
  intro k y hy
  rw [RteRing.setSlot_slots]
  by_cases hk : k < n.toNat
  · rw [List.getElem?_map, List.getElem?_range hk, Option.map_some, Option.some.injEq] at hy
    by_cases hkj : k = j
    · subst hkj
      rw [Function.update_self] at hy ⊢
      exact hy
    · have hne : slotIndex g old k ≠ slotIndex g old j := fun heq =>
        hkj (slotIndex_inj hn hk hj heq)
      rw [Function.update_of_ne hkj] at hy
      rw [Function.update_of_ne hne]
      refine h k y ?_
      rw [List.getElem?_map, List.getElem?_range hk, Option.map_some, hy]
  · rw [List.getElem?_eq_none (by simpa using Nat.le_of_not_lt hk)] at hy
    cases hy

/-- 列の続きをひとつ読めば、動かす要素がひとつ増える。 -/
theorem Carries.read {x : α} (h : Carries g r passed .cons old xs)
    (hx : ((passed .prod).drop (passed .cons).length)[xs.length]? = some x) :
    Carries g r passed .cons old (xs ++ [x]) := by
  simp only [Carries] at h ⊢
  rw [List.length_append, List.length_singleton, List.take_add_one, hx, Option.toList_some, ← h]

/-- 区間に今ある中身は、いつでも動かせる。 -/
theorem carries_slots (k : Nat) :
    Carries g r passed .prod old ((List.range k).map fun j => r.slots (slotIndex g old j)) := by
  intro j x hx
  by_cases hj : j < k
  · rw [List.getElem?_map, List.getElem?_range hj, Option.map_some, Option.some.injEq] at hx
    exact hx
  · rw [List.getElem?_eq_none (by simpa using Nat.le_of_not_lt hj)] at hx
    cases hx

/-- dequeue の区間に今ある中身は、列の続きである。 -/
theorem Settled.carries (h : Settled g r passed head) {k : Nat}
    (hk : (passed .cons).length + k ≤ head .cons) :
    Carries g r passed .cons old ((List.range k).map fun j =>
      r.slots (slotIndex g (UInt32.ofNat (passed .cons).length) j)) := by
  simp only [Carries, List.length_map, List.length_range]
  refine List.ext_getElem? fun j => ?_
  by_cases hj : j < k
  · rw [List.getElem?_map, List.getElem?_range hj, List.getElem?_take_of_lt hj,
      h.read (by omega), Option.map_some]
  · rw [List.getElem?_eq_none (by simpa using Nat.le_of_not_lt hj),
      List.getElem?_eq_none (Nat.le_trans (List.length_take_le _ _) (Nat.le_of_not_lt hj))]

/-! ## 居場所ごとの不変条件 -/

/-- 読んだ位置。`ST` の側では今も動いていない。 -/
structure Seen (passed : Side → List α) (head : Side → Nat) (seen : Nat) (c : HtsCall α)
    (op : RteRingHeadtail) : Prop where
  tail : op.tail = UInt32.ofNat seen
  le : seen ≤ (passed c.side).length
  single : c.single = true → seen = (passed c.side).length ∧
    head c.side = (passed c.side).length ∧ op.head = op.tail

/-- 区間は `tail` から `head` までの全部である。 -/
structure Region (passed : Side → List α) (head : Side → Nat) (c : HtsCall α) (old n : UInt32) :
    Prop where
  start : old = UInt32.ofNat (passed c.side).length
  stop : head c.side = (passed c.side).length + n.toNat
  pos : c.single = true ∨ 0 < n.toNat

/-- `start` から戻ったときに渡したもの。 -/
structure Viewed (g : Geometry) (r : RteRing α) (passed : Side → List α) (c : HtsCall α)
    (old n : UInt32) (got : List α) (view : Nat → α) : Prop where
  prod : c.side = .prod → Carries g r passed .prod old ((List.range n.toNat).map view)
  cons : c.side = .cons → c.mode ≠ .zc → got.length = n.toNat ∧ Carries g r passed .cons old got

/-- thread の居場所の不変条件。 -/
def HtsTrack (g : Geometry) (r : RteRing α) (passed : Side → List α) (head : Side → Nat)
    (seen : Nat) : HtsPc α → Prop
  | .idle _ => True
  | .load _ => True
  | .headWait c op => Seen passed head seen c op
  | .readTail c op => Seen passed head seen c op ∧ op.head = op.tail
  | .moveHead c op _ n => Seen passed head seen c op ∧ op.head = op.tail ∧ 0 < n.toNat ∧
      (seen = (passed c.side).length → (passed c.side).length + n.toNat ≤
        c.side.lead g.capacity.toNat + (passed c.side.opp).length)
  | .copy c old _ n i got => Region passed head c old n ∧ i ≤ n.toNat ∧
      (copied c i got).length = i ∧ Carries g r passed c.side old (copied c i got)
  | .storeTail c old _ n got => Region passed head c old n ∧
      (copied c n.toNat got).length = n.toNat ∧
        Carries g r passed c.side old (copied c n.toNat got)
  | .held c old _ n got view => Region passed head c old n ∧ Viewed g r passed c old n got view
  | .getTail c old n got view _ _ => Region passed head c old n ∧ Viewed g r passed c old n got view
  | .fill c tail num objs i => c.side = .prod ∧ i ≤ num.toNat ∧
      Carries g r passed .prod tail ((List.range i).map objs) ∧
        ∃ n : UInt32, Region passed head c tail n ∧ num.toNat ≤ n.toNat
  | .setHeadTail c tail num moved => moved.length = num.toNat ∧
      Carries g r passed c.side tail moved ∧
        ∃ n : UInt32, Region passed head c tail n ∧ num.toNat ≤ n.toNat
  | .setTail c tail num moved => moved.length = num.toNat ∧
      Carries g r passed c.side tail moved ∧ Region passed head c tail num ∧ c.single = true

/-- `ST` の呼び出しの側には、ほかに誰もいない。 -/
def HtsAlone (pcs : ι → HtsPc α) : Prop :=
  ∀ t u c d, t ≠ u → (pcs t).call = some c → (pcs u).call = some d → c.side = d.side →
    c.single = false

/-- 全体の不変条件。 -/
structure HtsInv (g : Geometry) (s : HtsSys ι α) (head : Side → Nat) : Prop where
  settled : Settled g s.ring s.passed head
  track : ∀ t, HtsTrack g s.ring s.passed head (s.seen t) (s.pcs t)
  exclusive : ∀ {t u σ}, (s.pcs t).inside = some σ → (s.pcs u).inside = some σ → t = u
  vacant : ∀ {σ}, (∀ t, (s.pcs t).inside ≠ some σ) → head σ = (s.passed σ).length
  alone : HtsAlone s.pcs

/-- 区間を持つ thread は、その側の呼び出しの途中である。 -/
theorem HtsPc.call_of_inside (h : pc.inside = some σ) : ∃ c, pc.call = some c ∧ c.side = σ := by
  cases pc <;> simp only [inside, call, Option.some.injEq, reduceCtorEq] at h ⊢ <;>
    exact ⟨_, rfl, h⟩

/-- 区間を持つ thread の区間。 -/
theorem HtsTrack.region {c : HtsCall α} (h : HtsTrack g r passed head seen pc)
    (hin : pc.inside = some σ) (hc : pc.call = some c) :
    ∃ old n : UInt32, Region passed head c old n := by
  cases pc with
  | copy d old free n i got => cases hc; exact ⟨old, n, h.1⟩
  | storeTail d old free n got => cases hc; exact ⟨old, n, h.1⟩
  | held d old free n got view => cases hc; exact ⟨old, n, h.1⟩
  | getTail d old n got view num objs => cases hc; exact ⟨old, n, h.1⟩
  | fill d tail num objs i =>
    cases hc
    obtain ⟨-, -, -, n, hn, -⟩ := h
    exact ⟨tail, n, hn⟩
  | setHeadTail d tail num moved =>
    cases hc
    obtain ⟨-, -, n, hn, -⟩ := h
    exact ⟨tail, n, hn⟩
  | setTail d tail num moved => cases hc; exact ⟨tail, num, h.2.2.1⟩
  | _ => cases hin

/-! ## ほかの thread の一歩 -/

theorem Carries.frame {r' : RteRing α} (h : Carries g r passed σ old xs)
    (hprod : σ = .prod → r'.slots = r.slots)
    (hcons : σ = .cons → (passed' .cons).length = (passed .cons).length ∧
      (passed .cons).length + xs.length ≤ (passed .prod).length ∧
        passed .prod <+: passed' .prod) : Carries g r' passed' σ old xs := by
  cases σ with
  | prod =>
    intro j x hx
    rw [hprod rfl]
    exact h j x hx
  | cons =>
    obtain ⟨hlen, hle, rest, hrest⟩ := hcons rfl
    simp only [Carries] at h ⊢
    rw [hlen, ← hrest, Board.take_drop_append hle]
    exact h

/-- ほかの thread の一歩で、居場所の不変条件は崩れない。 -/
theorem HtsTrack.frame {r' : RteRing α} (h : HtsTrack g r passed head seen pc)
    (hcons : head .cons ≤ (passed .prod).length) (hpre : passed .prod <+: passed' .prod)
    (hlen : ∀ σ, (passed σ).length ≤ (passed' σ).length)
    (hin : ∀ σ, pc.inside = some σ → (passed' σ).length = (passed σ).length ∧ head' σ = head σ ∧
      (σ = .prod → r'.slots = r.slots))
    (hsingle : ∀ c, pc.call = some c → c.single = true →
      (passed' c.side).length = (passed c.side).length ∧ head' c.side = head c.side) :
    HtsTrack g r' passed' head' seen pc := by
  have hseen : ∀ {c op}, pc.call = some c → Seen passed head seen c op →
      Seen passed' head' seen c op := by
    intro c op hc hs
    refine ⟨hs.tail, Nat.le_trans hs.le (hlen _), fun h1 => ?_⟩
    obtain ⟨h2, h3⟩ := hsingle c hc h1
    rw [h2, h3]
    exact hs.single h1
  have hregion : ∀ {c old n}, pc.inside = some c.side → Region passed head c old n →
      Region passed' head' c old n := by
    intro c old n hc hr
    obtain ⟨h1, h2, -⟩ := hin _ hc
    exact ⟨by rw [h1]; exact hr.start, by rw [h1, h2]; exact hr.stop, hr.pos⟩
  -- 区間より短い列は、相手の側が進んでも変わらない
  have hcarry : ∀ {c old n xs}, pc.inside = some c.side → Region passed head c old n →
      xs.length ≤ n.toNat → Carries g r passed c.side old xs →
        Carries g r' passed' c.side old xs := by
    intro c old n xs hc hr hxs hcar
    obtain ⟨h1, -, h3⟩ := hin _ hc
    refine hcar.frame h3 fun hs => ?_
    have hstop := hr.stop
    rw [hs] at h1 hstop
    exact ⟨h1, by omega, hpre⟩
  have hview : ∀ {c old n got view}, pc.inside = some c.side → Region passed head c old n →
      Viewed g r passed c old n got view → Viewed g r' passed' c old n got view := by
    intro c old n got view hc hr hv
    refine ⟨fun hs => ?_, fun hs hm => ?_⟩
    · have := hcarry hc hr (by simp) (hs ▸ hv.prod hs)
      rwa [hs] at this
    · obtain ⟨h1, h2⟩ := hv.cons hs hm
      have := hcarry hc hr (Nat.le_of_eq h1) (hs ▸ h2)
      rw [hs] at this
      exact ⟨h1, this⟩
  cases pc with
  | idle ret => trivial
  | load c => trivial
  | headWait c op => exact hseen rfl h
  | readTail c op => exact ⟨hseen rfl h.1, h.2⟩
  | moveHead c op free n =>
    obtain ⟨h1, h2, h3, h4⟩ := h
    refine ⟨hseen rfl h1, h2, h3, fun heq => ?_⟩
    -- 今も `tail` が同じなら、間に誰も渡していない
    have hle := h1.le
    have hle' := hlen c.side
    have hroom := h4 (by omega)
    have hopp := hlen c.side.opp
    omega
  | copy c old free n i got =>
    obtain ⟨h1, h2, h3, h4⟩ := h
    exact ⟨hregion rfl h1, h2, h3, hcarry rfl h1 (by omega) h4⟩
  | storeTail c old free n got =>
    obtain ⟨h1, h2, h3⟩ := h
    exact ⟨hregion rfl h1, h2, hcarry rfl h1 (Nat.le_of_eq h2) h3⟩
  | held c old free n got view => exact ⟨hregion rfl h.1, hview rfl h.1 h.2⟩
  | getTail c old n got view num objs => exact ⟨hregion rfl h.1, hview rfl h.1 h.2⟩
  | fill c tail num objs i =>
    obtain ⟨h1, h2, h3, n, h4, h5⟩ := h
    have hcar := hcarry rfl h4 (by simp; omega) (h1.symm ▸ h3)
    rw [h1] at hcar
    exact ⟨h1, h2, hcar, n, hregion rfl h4, h5⟩
  | setHeadTail c tail num moved =>
    obtain ⟨h1, h2, n, h3, h4⟩ := h
    exact ⟨h1, hcarry rfl h3 (by omega) h2, n, hregion rfl h3, h4⟩
  | setTail c tail num moved =>
    obtain ⟨h1, h2, h3, h4⟩ := h
    exact ⟨h1, hcarry rfl h3 (Nat.le_of_eq h1) h2, hregion rfl h3, h4⟩

/-! ## 一歩 -/

section

variable [DecidableEq ι] {s s' : HtsSys ι α} {t : ι}

theorem HtsAlone.update {pcs : ι → HtsPc α} (h : HtsAlone pcs)
    (hcall : pc.call = none ∨ pc.call = (pcs t).call) : HtsAlone (Function.update pcs t pc) := by
  have hold : ∀ u c, ((Function.update pcs t pc) u).call = some c → (pcs u).call = some c := by
    intro u c hc
    by_cases hu : u = t
    · subst hu
      rw [Function.update_self] at hc
      rcases hcall with hnone | hsame
      · rw [hnone] at hc
        cases hc
      · rw [← hsame]
        exact hc
    · rwa [Function.update_of_ne hu] at hc
  intro u v c d hne hc hd
  exact h u v c d hne (hold u c hc) (hold v d hd)

/--
動いた thread の居場所と、ほかの thread に見える変化から、全体の不変条件を組み立てる。

`hquiet` は、変化のある側でほかに区間を持つ thread がいないことを言う。
-/
theorem HtsInv.own (h : HtsInv g s head) (hcall : (s.pcs t).call = some c)
    (hpcs : s'.pcs = Function.update s.pcs t pc) (hseen : ∀ u, u ≠ t → s'.seen u = s.seen u)
    (hsettled : Settled g s'.ring s'.passed head')
    (htrack : HtsTrack g s'.ring s'.passed head' (s'.seen t) pc)
    (hquiet : ∀ u, u ≠ t → (s.pcs u).inside ≠ some c.side)
    (hpre : ∀ σ, s.passed σ <+: s'.passed σ)
    (hother : ∀ σ, σ ≠ c.side → s'.passed σ = s.passed σ ∧ head' σ = head σ)
    (hslots : c.side = .cons → s'.ring.slots = s.ring.slots)
    (hin : pc.inside = some c.side ∨
      pc.inside = none ∧ head' c.side = (s'.passed c.side).length)
    (hkeep : pc.call = none ∨ pc.call = some c) : HtsInv g s' head' := by
  have hinside : ∀ {u σ}, (s'.pcs u).inside = some σ →
      (u = t ∧ σ = c.side) ∨ (u ≠ t ∧ σ ≠ c.side ∧ (s.pcs u).inside = some σ) := by
    intro u σ hu
    rw [hpcs] at hu
    by_cases hut : u = t
    · subst hut
      rw [Function.update_self] at hu
      rcases hin with hsome | ⟨hnone, -⟩
      · exact Or.inl ⟨rfl, Option.some.inj (hu.symm.trans hsome)⟩
      · rw [hnone] at hu
        cases hu
    · rw [Function.update_of_ne hut] at hu
      refine Or.inr ⟨hut, ?_, hu⟩
      rintro rfl
      exact hquiet u hut hu
  refine ⟨hsettled, fun u => ?_, ?_, ?_, ?_⟩
  · by_cases hu : u = t
    · subst hu
      rw [hpcs, Function.update_self]
      exact htrack
    · rw [hpcs, Function.update_of_ne hu, hseen u hu]
      refine (h.track u).frame h.settled.cons_le (hpre _) (fun σ => (hpre σ).length_le) ?_ ?_
      · intro σ hσ
        have hne : σ ≠ c.side := by
          rintro rfl
          exact hquiet u hu hσ
        obtain ⟨h1, h2⟩ := hother σ hne
        refine ⟨by rw [h1], h2, fun hp => hslots ?_⟩
        subst hp
        cases hc : c.side with
        | prod => exact absurd hc.symm hne
        | cons => rfl
      · intro d hd hone
        have hne : d.side ≠ c.side := by
          intro hside
          have := h.alone u t d c hu hd hcall hside
          rw [hone] at this
          cases this
        obtain ⟨h1, h2⟩ := hother _ hne
        exact ⟨by rw [h1], h2⟩
  · intro u v σ hu hv
    rcases hinside hu with ⟨rfl, rfl⟩ | ⟨-, hne, hu'⟩
    · rcases hinside hv with ⟨rfl, -⟩ | ⟨-, hne, -⟩
      · rfl
      · exact absurd rfl hne
    · rcases hinside hv with ⟨-, rfl⟩ | ⟨-, -, hv'⟩
      · exact absurd rfl hne
      · exact h.exclusive hu' hv'
  · intro σ hnone
    by_cases hσ : σ = c.side
    · subst hσ
      rcases hin with hsome | ⟨-, hhead⟩
      · exact absurd (by rw [hpcs, Function.update_self]; exact hsome) (hnone t)
      · exact hhead
    · obtain ⟨h1, h2⟩ := hother σ hσ
      rw [h1, h2]
      refine h.vacant fun u hu => ?_
      by_cases hut : u = t
      · subst hut
        obtain ⟨d, hd, hside⟩ := HtsPc.call_of_inside hu
        obtain rfl : c = d := Option.some.inj (hcall.symm.trans hd)
        exact hσ hside.symm
      · exact hnone u (by rw [hpcs, Function.update_of_ne hut]; exact hu)
  · rw [hpcs]
    exact h.alone.update (by rw [hcall]; exact hkeep)

/-- 居場所だけが変わる一歩。 -/
theorem HtsInv.setPc (h : HtsInv g s head)
    (htrack : HtsTrack g s.ring s.passed head seen pc) (hin : pc.inside = (s.pcs t).inside)
    (halone : HtsAlone (Function.update s.pcs t pc)) :
    HtsInv g { s.setPc t pc with seen := Function.update s.seen t seen } head := by
  have hinside : ∀ u, ((Function.update s.pcs t pc) u).inside = (s.pcs u).inside := by
    intro u
    by_cases hu : u = t
    · subst hu
      rw [Function.update_self, hin]
    · rw [Function.update_of_ne hu]
  refine ⟨h.settled, fun u => ?_, ?_, ?_, halone⟩
  · by_cases hu : u = t
    · subst hu
      simpa only [HtsSys.setPc, Function.update_self] using htrack
    · simpa only [HtsSys.setPc, Function.update_of_ne hu] using h.track u
  · intro u v σ hu hv
    exact h.exclusive ((hinside u).symm.trans hu) ((hinside v).symm.trans hv)
  · intro σ hnone
    exact h.vacant fun u hu => hnone u ((hinside u).trans hu)

/-- 読んだ位置も変わらない一歩。 -/
theorem HtsInv.setPc_same (h : HtsInv g s head)
    (htrack : HtsTrack g s.ring s.passed head (s.seen t) pc)
    (hin : pc.inside = (s.pcs t).inside)
    (hkeep : pc.call = none ∨ pc.call = (s.pcs t).call) : HtsInv g (s.setPc t pc) head := by
  have := h.setPc (t := t) htrack hin (h.alone.update hkeep)
  rwa [Function.update_eq_self] at this

omit [DecidableEq ι] in
/-- 区間を持つ thread のほかには、その側に区間を持つ thread はいない。 -/
theorem HtsInv.quiet (h : HtsInv g s head) (hin : (s.pcs t).inside = some σ) (u : ι) (hu : u ≠ t) :
    (s.pcs u).inside ≠ some σ := fun h' => hu (h.exclusive h' hin)

omit [DecidableEq ι] in
/-- `head` と `tail` がそろっていれば、その側の呼び出しをしている thread のほかに区間を持つ者はいない。 -/
theorem HtsInv.quiet_of_eq (h : HtsInv g s head) (hcall : (s.pcs t).call = some c)
    (heq : head c.side = (s.passed c.side).length) (u : ι) (hu : u ≠ t) :
    (s.pcs u).inside ≠ some c.side := by
  intro hin
  obtain ⟨d, hd, hside⟩ := HtsPc.call_of_inside hin
  obtain ⟨old, n, hr⟩ := (h.track u).region hin hd
  have hstop := hr.stop
  rw [hside] at hstop
  rcases hr.pos with hone | hpos
  · have := h.alone u t d c hu hd hcall hside
    rw [hone] at this
    cases this
  · omega

theorem HtsInv.call (h : HtsInv g s head) {ret : Option (Result α)} (hpc : s.pcs t = .idle ret)
    (hok : s.Allowed (.call t c)) : HtsInv g (s.setPc t (.load c)) head := by
  -- 始める thread とほかの thread の組は、約束から従う
  have hnew : ∀ u d, ((Function.update s.pcs t (.load c)) u).call = some d →
      (u = t ∧ d = c) ∨ (u ≠ t ∧ (s.pcs u).call = some d) := by
    intro u d hd
    by_cases hu : u = t
    · subst hu
      rw [Function.update_self] at hd
      exact Or.inl ⟨rfl, (Option.some.inj hd).symm⟩
    · rw [Function.update_of_ne hu] at hd
      exact Or.inr ⟨hu, hd⟩
  have halone : HtsAlone (Function.update s.pcs t (.load c)) := by
    intro u v d e hne hd he hside
    rcases hnew u d hd with ⟨rfl, rfl⟩ | ⟨hu, hd'⟩
    · rcases hnew v e he with ⟨rfl, -⟩ | ⟨hv, he'⟩
      · exact absurd rfl hne
      · exact (hok v e hv he' hside.symm).1
    · rcases hnew v e he with ⟨rfl, rfl⟩ | ⟨hv, he'⟩
      · exact (hok u d hu hd' hside).2
      · exact h.alone u v d e hne hd' he' hside
  have hin : (HtsPc.load c).inside = (s.pcs t).inside := by rw [hpc]; rfl
  have htrack : HtsTrack g s.ring s.passed head (s.seen t) (.load c) := trivial
  have := h.setPc (t := t) htrack hin halone
  rwa [Function.update_eq_self] at this

/-- まとめて読む。 -/
theorem HtsInv.loadPos (h : HtsInv g s head) (hcall : (s.pcs t).call = some c)
    (hout : (s.pcs t).inside = none) : HtsInv g (s.loadPos t c) head := by
  refine h.setPc ⟨h.settled.tailWord _, Nat.le_refl _, fun hone => ?_⟩ hout.symm
    (h.alone.update (Or.inr hcall.symm))
  -- ほかに誰もいないので、その側で区間を持つ thread はいない
  have heq : head c.side = (s.passed c.side).length := by
    refine h.vacant fun u hu => ?_
    have hut : u ≠ t := by
      rintro rfl
      rw [hout] at hu
      cases hu
    obtain ⟨d, hd, hside⟩ := HtsPc.call_of_inside hu
    have := h.alone t u c d (Ne.symm hut) hcall hd hside.symm
    rw [hone] at this
    cases this
  exact ⟨rfl, heq, by rw [h.settled.headWord, h.settled.tailWord, heq]⟩

theorem HtsInv.headWait (h : HtsInv g s head) (hpc : s.pcs t = .headWait c op) :
    HtsInv g (s.headWait t c op) head := by
  have ht := h.track t
  rw [hpc] at ht
  unfold HtsSys.headWait
  split
  · next hgo =>
    refine h.setPc_same ⟨ht, ?_⟩ (by rw [hpc]; rfl) (Or.inr (by rw [hpc]; rfl))
    rcases hgo with hone | heq
    · exact (ht.single hone).2.2
    · exact heq
  · exact h.loadPos (by rw [hpc]; rfl) (by rw [hpc]; rfl)

theorem HtsInv.readTail (h : HtsInv g s head) (hpc : s.pcs t = .readTail c op) :
    HtsInv g (s.readTail g t c op) head := by
  have ht := h.track t
  rw [hpc] at ht
  obtain ⟨hseen, hsame⟩ := ht
  unfold HtsSys.readTail
  dsimp only
  split
  · exact h.setPc_same trivial (by rw [hpc]; rfl) (Or.inl rfl)
  · next hn =>
    refine h.setPc_same ⟨hseen, hsame, ?_, ?_⟩ (by rw [hpc]; rfl) (Or.inr (by rw [hpc]; rfl))
    · exact Nat.pos_of_ne_zero fun h0 => hn (UInt32.toNat_inj.mp h0)
    · intro heq
      have htail := h.settled.tail_le c.side
      have hle := h.settled.head_le c.side
      have hspan : c.side.lead g.capacity.toNat + (s.passed c.side.opp).length ≤
          (s.passed c.side).length + g.capacity.toNat := by
        have h1 := h.settled.cons_le
        have h2 := h.settled.prod_le
        have h3 := h.settled.tail_le .cons
        have h4 := h.settled.tail_le .prod
        cases c.side with
        | prod => simp only [Side.lead_prod, Side.opp_prod]; omega
        | cons => simp only [Side.lead_cons, Side.opp_cons]; omega
      have hcap := g.capacity_lt_word
      have hgrant := granted_le c.behavior c.n
        (entries g c.side (s.ring.ht c.side.opp).tail op.head)
      rw [hsame, hseen.tail, heq, h.settled.tailWord, entries_ofNat g (by omega) (by omega)] at hgrant
      rw [hsame, hseen.tail, heq, h.settled.tailWord]
      omega

omit [DecidableEq ι] in
/-- 読んだ位置と今の位置が同じである。 -/
theorem HtsInv.seen_eq (h : HtsInv g s head) (hpc : s.pcs t = .moveHead c op free n)
    (hok : s.Allowed (.run t)) (hmove : c.single = true ∨ s.ring.ht c.side = op) :
    s.seen t = (s.passed c.side).length ∧ head c.side = (s.passed c.side).length := by
  have ht := h.track t
  rw [hpc] at ht
  obtain ⟨hseen, hsame, -, -⟩ := ht
  by_cases hone : c.single = true
  · obtain ⟨h1, h2, -⟩ := hseen.single hone
    exact ⟨h1, h2⟩
  · have hword : s.ring.ht c.side = op := hmove.resolve_left hone
    refine ⟨?_, h.settled.head_eq (by rw [hword, hsame])⟩
    have htail := h.settled.tailWord c.side
    rw [hword, hseen.tail] at htail
    exact eq_of_ofNat_eq hseen.le (hok c op free n hpc hword) htail

end

end L3fwd.Ring
