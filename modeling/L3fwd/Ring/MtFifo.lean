import L3fwd.Ring.Mt
import L3fwd.Ring.Windows

/-!
# ring と抽象の輪の対応

`MtSys` のどの一歩も、区間を予約して使う輪（`Infra.Board`）の何歩かに当たる。
対応 `MtSim` は、語がどれも折り返さない位置の下位 32 bit であること、
写している途中の thread がちょうど自分の区間を持つことを言う。

`head` を読んでから比べるまでの間は、まだ何も持たない。
比べて等しく、その間の動きが 2^32 に満たなければ、誰も動かしていないので、
そのとき求めた余裕は今も正しい。
-/

namespace L3fwd.Ring

open Infra

variable {ι α : Type*} [DecidableEq ι] {g : Geometry} {s s' : MtSys ι α} {b b' : Board ι α} {t : ι}
  {c : MtCall α} {old free n : UInt32} {got : List α} {pc : MtPc α} {w : Window}

/-! ## 対応 -/

/-- 読んだ `head` は、折り返さない位置 `seen` の語である。一人だけの側では今も動いていない。 -/
structure SeenHead (b : Board ι α) (seen : Nat) (c : MtCall α) (old : UInt32) : Prop where
  word : old = UInt32.ofNat seen
  le : seen ≤ b.head c.side
  single : c.single = true → seen = b.head c.side

/-- thread の居場所と抽象の区間の対応。 -/
def Track (g : Geometry) (b : Board ι α) (seen : Nat) (t : ι) : MtPc α → Prop
  | .idle _ => ∀ σ, b.win σ t = none
  | .readHead _ => ∀ σ, b.win σ t = none
  | .readTail c old => (∀ σ, b.win σ t = none) ∧ SeenHead b seen c old
  | .moveHead c old _ n => (∀ σ, b.win σ t = none) ∧ SeenHead b seen c old ∧ 0 < n.toNat ∧
      (seen = b.head c.side →
        b.head c.side + n.toNat ≤ c.side.lead g.capacity.toNat + b.tail c.side.opp)
  | .copy c old _ n i got => ∃ w, Owns b t c.toCall old n i got w
  | .waitTail c old _ n got => ∃ w, Owns b t c.toCall old n n.toNat got w
  | .storeTail c old _ n got => ∃ w, Owns b t c.toCall old n n.toNat got w ∧
      b.tail c.side = w.start

/-- `sp` や `sc` の呼び出しの側には、ほかに誰もいない。 -/
def Alone (pcs : ι → MtPc α) : Prop :=
  ∀ t u c d, t ≠ u → (pcs t).call = some c → (pcs u).call = some d → c.side = d.side →
    c.single = false

/-- 実装の状態と抽象の状態の対応。 -/
structure MtSim (g : Geometry) (s : MtSys ι α) (b : Board ι α) : Prop where
  inv : b.Inv g.capacity.toNat (2 ^ g.bits)
  head : ∀ σ, (s.ring.ht σ).head = UInt32.ofNat (b.head σ)
  tail : ∀ σ, (s.ring.ht σ).tail = UInt32.ofNat (b.tail σ)
  slots : s.ring.slots = b.slots
  total : s.total = b.head
  track : ∀ t, Track g b (s.seen t) t (s.pcs t)
  alone : Alone s.pcs
  full : ∀ σ p, b.tail σ ≤ p → p < b.head σ →
    ∃ t w, b.win σ t = some w ∧ w.start ≤ p ∧ p < w.stop
  published : s.published = b.sent.take (b.tail .prod)
  received : s.received = b.sent.take (b.tail .cons)

omit [DecidableEq ι] in
/-- ほかの thread の一歩で、居場所の対応は崩れない。 -/
theorem Track.frame {seen : Nat} (h : Track g b seen t pc) (hwin : ∀ σ, b'.win σ t = b.win σ t)
    (hbuf : b'.buf t = b.buf t) (hsent : b.sent <+: b'.sent)
    (hhead : ∀ σ, b.head σ ≤ b'.head σ) (htail : ∀ σ, b.tail σ ≤ b'.tail σ)
    (hsingle : ∀ c, pc.call = some c → c.single = true → b'.head c.side = b.head c.side)
    (hstore : ∀ c old free n got, pc = .storeTail c old free n got →
      b'.tail c.side = b.tail c.side) : Track g b' seen t pc := by
  have hnone : (∀ σ, b.win σ t = none) → ∀ σ, b'.win σ t = none := fun hw σ =>
    (hwin σ).trans (hw σ)
  have hseen : ∀ {c old}, pc.call = some c → SeenHead b seen c old → SeenHead b' seen c old := by
    intro c old hc hs
    exact ⟨hs.word, Nat.le_trans hs.le (hhead _),
      fun h1 => (hs.single h1).trans (hsingle c hc h1).symm⟩
  cases pc with
  | idle ret => exact hnone h
  | readHead c => exact hnone h
  | readTail c old => exact ⟨hnone h.1, hseen rfl h.2⟩
  | moveHead c old free n =>
    obtain ⟨h1, h2, h3, h4⟩ := h
    refine ⟨hnone h1, hseen rfl h2, h3, fun heq => ?_⟩
    -- 今の `head` と一致するなら、間に誰も動かしていない
    have hle := h2.le
    have hle' := hhead c.side
    have := h4 (by omega)
    have := htail c.side.opp
    omega
  | copy c old free n i got =>
    obtain ⟨w, hw⟩ := h
    exact ⟨w, hw.frame hwin hbuf hsent⟩
  | waitTail c old free n got =>
    obtain ⟨w, hw⟩ := h
    exact ⟨w, hw.frame hwin hbuf hsent⟩
  | storeTail c old free n got =>
    obtain ⟨w, hw, hstart⟩ := h
    exact ⟨w, hw.frame hwin hbuf hsent, (hstore c old free n got rfl).trans hstart⟩

/-- 一つの thread の居場所だけを置き換える。 -/
theorem forall_track_update {seen : ι → Nat} {pcs : ι → MtPc α} (ht : Track g b (seen t) t pc)
    (hother : ∀ u, u ≠ t → Track g b (seen u) u (pcs u)) :
    ∀ u, Track g b (seen u) u (Function.update pcs t pc u) := by
  intro u
  by_cases hu : u = t
  · subst hu
    rw [Function.update_self]
    exact ht
  · rw [Function.update_of_ne hu]
    exact hother u hu

/-- 呼び出しが変わらないか終わるなら、一人だけであることは保たれる。 -/
theorem Alone.update {pcs : ι → MtPc α} (h : Alone pcs)
    (hcall : pc.call = none ∨ pc.call = (pcs t).call) : Alone (Function.update pcs t pc) := by
  have hold : ∀ u c, ((Function.update pcs t pc) u).call = some c → (pcs u).call = some c := by
    intro u c hc
    by_cases hu : u = t
    · subst hu
      rw [Function.update_self] at hc
      rcases hcall with hnone | hsame
      · rw [hnone] at hc
        cases hc
      · rw [← hsame]
        exact hc
    · rwa [Function.update_of_ne hu] at hc
  intro u v c d hne hc hd
  exact h u v c d hne (hold u c hc) (hold v d hd)

/-- 居場所だけが変わる一歩。 -/
theorem MtSim.setPc (h : MtSim g s b) (ht : Track g b (s.seen t) t pc)
    (hcall : pc.call = none ∨ pc.call = (s.pcs t).call) : MtSim g (s.setPc t pc) b where
  inv := h.inv
  head := h.head
  tail := h.tail
  slots := h.slots
  total := h.total
  track := forall_track_update ht fun u _ => h.track u
  alone := h.alone.update hcall
  full := h.full
  published := h.published
  received := h.received

omit [DecidableEq ι] in
/-- 区間を持つ thread は、その側の呼び出しの中で写しているか、`tail` を書こうとしている。 -/
theorem MtSim.owner (h : MtSim g s b) {σ : Side} {w : Window} (hw : b.win σ t = some w) :
    ∃ c old n i got, (s.pcs t).call = some c ∧ c.side = σ ∧ Owns b t c.toCall old n i got w := by
  have key : ∀ {c : MtCall α} {old n i got v}, (s.pcs t).call = some c →
      Owns b t c.toCall old n i got v → ∃ c old n i got, (s.pcs t).call = some c ∧ c.side = σ ∧
        Owns b t c.toCall old n i got w := by
    intro c old n i got v hc hv
    have hside : c.side = σ := by
      by_contra hne
      have hopp : c.side.opp = σ := by
        cases hc' : c.side <;> cases σ <;> simp_all
      have := hv.other
      rw [hopp, hw] at this
      cases this
    have hv' := hv.win
    rw [hside, hw] at hv'
    obtain rfl := Option.some.inj hv'
    exact ⟨c, old, n, i, got, hc, hside, hv⟩
  have ht := h.track t
  cases hpc : s.pcs t with
  | idle ret => rw [hpc] at ht; rw [ht σ] at hw; cases hw
  | readHead c => rw [hpc] at ht; rw [ht σ] at hw; cases hw
  | readTail c old => rw [hpc] at ht; rw [ht.1 σ] at hw; cases hw
  | moveHead c old free n => rw [hpc] at ht; rw [ht.1 σ] at hw; cases hw
  | copy c old free n i got =>
    rw [hpc] at ht
    obtain ⟨v, hv⟩ := ht
    rw [← hpc]
    exact key (by rw [hpc]; rfl) hv
  | waitTail c old free n got =>
    rw [hpc] at ht
    obtain ⟨v, hv⟩ := ht
    rw [← hpc]
    exact key (by rw [hpc]; rfl) hv
  | storeTail c old free n got =>
    rw [hpc] at ht
    obtain ⟨v, hv, -⟩ := ht
    rw [← hpc]
    exact key (by rw [hpc]; rfl) hv

/-! ## 一歩ごとの対応 -/

/-- 呼び出しを始める。 -/
theorem MtSim.call (h : MtSim g s b) {ret : Option (Result α)} (hpc : s.pcs t = .idle ret)
    (hok : s.Allowed (.call t c)) : MtSim g (s.setPc t (.readHead c)) b := by
  have ht := h.track t
  rw [hpc] at ht
  refine ⟨h.inv, h.head, h.tail, h.slots, h.total, ?_, ?_, h.full, h.published, h.received⟩
  · exact forall_track_update ht fun u _ => h.track u
  · -- 始める thread とほかの thread の組は、約束から従う
    have hnew : ∀ u d, ((s.setPc t (.readHead c)).pcs u).call = some d →
        (u = t ∧ d = c) ∨ (u ≠ t ∧ (s.pcs u).call = some d) := by
      intro u d hd
      by_cases hu : u = t
      · subst hu
        simp only [MtSys.setPc, Function.update_self, MtPc.call, Option.some.injEq] at hd
        exact Or.inl ⟨rfl, hd.symm⟩
      · simp only [MtSys.setPc, Function.update_of_ne hu] at hd
        exact Or.inr ⟨hu, hd⟩
    intro u v d e hne hd he hside
    rcases hnew u d hd with ⟨rfl, rfl⟩ | ⟨hu, hd'⟩
    · rcases hnew v e he with ⟨rfl, -⟩ | ⟨hv, he'⟩
      · exact absurd rfl hne
      · exact (hok v e hv he' hside.symm).1
    · rcases hnew v e he with ⟨rfl, rfl⟩ | ⟨hv, he'⟩
      · exact (hok u d hu hd' hside).2
      · exact h.alone u v d e hne hd' he' hside

theorem MtSim.readHead (h : MtSim g s b) (hpc : s.pcs t = .readHead c) :
    MtSim g (s.readHead t c) b := by
  have ht := h.track t
  rw [hpc] at ht
  refine ⟨h.inv, h.head, h.tail, h.slots, h.total, ?_, ?_, h.full, h.published, h.received⟩
  · refine forall_track_update ?_ ?_
    · have hnew : (s.readHead t c).seen t = b.head c.side := by
        simp [MtSys.readHead, h.total]
      rw [hnew]
      exact ⟨ht, h.head c.side, Nat.le_refl _, fun _ => rfl⟩
    · intro u hu
      have hold : (s.readHead t c).seen u = s.seen u := by
        simp [MtSys.readHead, hu]
      rw [hold]
      exact h.track u
  · exact h.alone.update (Or.inr (by rw [hpc]; rfl))

theorem MtSim.readTail (h : MtSim g s b) (hpc : s.pcs t = .readTail c old) :
    MtSim g (s.readTail g t c old) b := by
  have ht := h.track t
  rw [hpc] at ht
  obtain ⟨hnone, hseen⟩ := ht
  unfold MtSys.readTail
  dsimp only
  split
  · exact h.setPc hnone (Or.inl rfl)
  · next hn =>
    refine h.setPc ⟨hnone, hseen, ?_, ?_⟩ (Or.inr (by rw [hpc]; rfl))
    · exact Nat.pos_of_ne_zero fun h0 => hn (UInt32.toNat_inj.mp h0)
    · intro heq
      have hle := h.inv.placed.head_le c.side
      have hroom := h.inv.placed.room_le c.side
      have hcap := g.capacity_lt_word
      have hgrant := granted_le c.behavior c.n
        (entries g c.side (s.ring.ht c.side.opp).tail old)
      rw [hseen.word, h.tail, heq, entries_ofNat g hle (by omega)] at hgrant
      rw [hseen.word, h.tail, heq]
      omega

omit [DecidableEq ι] in
/-- `head` を動かした thread の読んだ位置は、今の位置である。 -/
theorem MtSim.seen_eq (h : MtSim g s b) (hpc : s.pcs t = .moveHead c old free n)
    (hok : s.Allowed (.run t)) (hmove : c.single = true ∨ (s.ring.ht c.side).head = old) :
    s.seen t = b.head c.side := by
  have ht := h.track t
  rw [hpc] at ht
  obtain ⟨-, hseen, -, -⟩ := ht
  rcases hmove with hsingle | heq
  · exact hseen.single hsingle
  · have hnear := hok c old free n hpc heq
    rw [h.total] at hnear
    rw [h.head, hseen.word] at heq
    exact eq_of_ofNat_eq hseen.le hnear heq.symm

omit [DecidableEq ι] in
/-- 動かした側の `head` だけが進む。ほかの thread の対応は崩れない。 -/
theorem MtSim.track_reserve (h : MtSim g s b) (hpc : (s.pcs t).call = some c)
    (hwin : ∀ σ u, u ≠ t → b'.win σ u = b.win σ u) (hbuf : ∀ u, u ≠ t → b'.buf u = b.buf u)
    (hsent : b.sent <+: b'.sent) (hhead : b'.head = Function.update b.head c.side
      (b.head c.side + n.toNat)) (htail : b'.tail = b.tail) {u : ι} (hu : u ≠ t) :
    Track g b' (s.seen u) u (s.pcs u) := by
  refine (h.track u).frame (fun σ => hwin σ u hu) (hbuf u hu) hsent ?_ ?_ ?_ ?_
  · intro σ
    rw [hhead]
    by_cases hσ : σ = c.side
    · subst hσ
      rw [Function.update_self]
      omega
    · rw [Function.update_of_ne hσ]
  · intro σ
    rw [htail]
  · intro d hd hsingle
    rw [hhead]
    by_cases hside : d.side = c.side
    · have := h.alone u t d c hu hd hpc hside
      rw [hsingle] at this
      cases this
    · rw [Function.update_of_ne hside]
  · intro d old free n got _
    rw [htail]

/-- `head` を動かす。負けたときは居場所だけが変わる。 -/
theorem MtSim.moveHead (h : MtSim g s b) (hpc : s.pcs t = .moveHead c old free n)
    (hok : s.Allowed (.run t)) :
    ∃ b', Board.Steps g.capacity.toNat (2 ^ g.bits) b b' ∧ MtSim g (s.moveHead t c old free n) b' := by
  have ht := h.track t
  rw [hpc] at ht
  obtain ⟨hnone, hseen, hn, hroom⟩ := ht
  unfold MtSys.moveHead
  split
  · next hmove =>
    have heq := h.seen_eq hpc hok hmove
    have hword : old = UInt32.ofNat (b.head c.side) := by rw [hseen.word, heq]
    have hstep : Board.Step g.capacity.toNat (2 ^ g.bits) b (take b t c.toCall n) :=
      take_step (hnone c.side) (hroom heq)
    refine ⟨take b t c.toCall n, Relation.ReflTransGen.single hstep, ?_⟩
    refine ⟨h.inv.step g.capacity_le_size hstep, ?_, ?_, ?_, ?_, ?_, ?_, ?_, ?_, ?_⟩
    · intro σ
      have := congrFun (s.ring.setHead_head c.side (old + n)) σ
      rw [this, take_head]
      by_cases hσ : σ = c.side
      · subst hσ
        rw [Function.update_self, Function.update_self, ofNat_add_word, hword]
      · rw [Function.update_of_ne hσ, Function.update_of_ne hσ, h.head]
    · intro σ
      rw [take_tail, RteRing.setHead_tail, h.tail]
    · rw [take_slots, RteRing.setHead_slots, h.slots]
    · rw [take_head, h.total]
    · refine forall_track_update ?_ ?_
      · refine ⟨⟨b.head c.side, n.toNat, 0⟩, ?_⟩
        rw [hword]
        exact take_owns hnone h.inv.counted hn
      · intro u hu
        refine h.track_reserve (by rw [hpc]; rfl) ?_ ?_ take_sent take_head take_tail hu
        · intro σ u hu
          rw [take_win, update_win_of_ne hu]
        · exact fun u hu => take_buf_of_ne hu
    · exact h.alone.update (Or.inr (by rw [hpc]; rfl))
    · -- 増えた位置は、今取った区間の中にある
      intro σ p hlo hhi
      rw [take_tail] at hlo
      rw [take_head] at hhi
      by_cases hp : p < b.head σ
      · obtain ⟨u, v, hv, hin⟩ := h.full σ p hlo hp
        have hu : u ≠ t := by
          rintro rfl
          rw [hnone σ] at hv
          cases hv
        exact ⟨u, v, by rw [take_win, update_win_of_ne hu, hv], hin⟩
      · by_cases hσ : σ = c.side
        · subst hσ
          rw [Function.update_self] at hhi
          exact ⟨t, ⟨b.head c.side, n.toNat, 0⟩,
            (take_owns hnone h.inv.counted hn).win, Nat.le_of_not_lt hp, hhi⟩
        · rw [Function.update_of_ne hσ] at hhi
          exact absurd hhi hp
    · rw [take_tail, take_sent_take (h.inv.tail_le_length .prod)]
      exact h.published
    · rw [take_tail, take_sent_take (h.inv.tail_le_length .cons)]
      exact h.received
  · exact ⟨b, Relation.ReflTransGen.refl, h.setPc hnone (Or.inr (by rw [hpc]; rfl))⟩

theorem MtSim.copy (h : MtSim g s b) {i : Nat} (hpc : s.pcs t = .copy c old free n i got) :
    ∃ b', Board.Steps g.capacity.toNat (2 ^ g.bits) b b' ∧
      MtSim g (s.copy g t c old free n i got) b' := by
  have ht := h.track t
  rw [hpc] at ht
  obtain ⟨w, hown⟩ := ht
  have hcall : (s.pcs t).call = some c := by rw [hpc]; rfl
  unfold MtSys.copy
  split
  · next hi =>
    have hstep : Board.Step g.capacity.toNat (2 ^ g.bits) b (touch g b t c.toCall w) :=
      touch_step hown hi
    have hwin : ∀ σ u, u ≠ t → (touch g b t c.toCall w).win σ u = b.win σ u := by
      intro σ u hu
      rw [touch_win, update_win_of_ne hu]
    refine ⟨touch g b t c.toCall w, Relation.ReflTransGen.single hstep, ?_⟩
    dsimp only
    refine ⟨h.inv.step g.capacity_le_size hstep, ?_, ?_, ?_, ?_, ?_, ?_, ?_, ?_, ?_⟩
    · rw [touch_head]; exact h.head
    · rw [touch_tail]; exact h.tail
    · rw [touch_slots hown, h.slots]
    · rw [touch_head]; exact h.total
    · refine forall_track_update ⟨w.advance, ?_⟩ ?_
      · rw [h.slots]
        exact touch_owns hown
      · intro u hu
        refine (h.track u).frame (fun σ => hwin σ u hu) (touch_buf_of_ne hu) ?_ ?_ ?_ ?_ ?_
        · rw [touch_sent]
        · rw [touch_head]; exact fun _ => Nat.le_refl _
        · rw [touch_tail]; exact fun _ => Nat.le_refl _
        · rw [touch_head]; exact fun _ _ _ => rfl
        · rw [touch_tail]; exact fun _ _ _ _ _ _ => rfl
    · exact h.alone.update (Or.inr hcall.symm)
    · intro σ p hlo hhi
      rw [touch_tail] at hlo
      rw [touch_head] at hhi
      obtain ⟨u, v, hv, hin⟩ := h.full σ p hlo hhi
      by_cases hu : u = t
      · subst hu
        obtain ⟨d, old', n', i', got', hd, rfl, hown'⟩ := h.owner hv
        obtain rfl : c = d := Option.some.inj (hcall.symm.trans hd)
        obtain rfl : w = v := Option.some.inj (hown.win.symm.trans hv)
        exact ⟨u, w.advance, (touch_owns hown).win, hin⟩
      · exact ⟨u, v, (hwin σ u hu).trans hv, hin⟩
    · rw [touch_sent, touch_tail]; exact h.published
    · rw [touch_sent, touch_tail]; exact h.received
  · next hi =>
    have hdone : Owns b t c.toCall old n n.toNat got w := by
      have hle := (h.inv.placed.win_within hown.win).2.2
      rw [hown.done, hown.len] at hle
      obtain rfl : i = n.toNat := by omega
      exact hown
    refine ⟨b, Relation.ReflTransGen.refl, ?_⟩
    split
    · next hsingle =>
      refine h.setPc ⟨w, hdone, ?_⟩ (Or.inr hcall.symm)
      -- ほかに誰もいないので、`tail` の位置を持つのは自分である
      have hpos := hown.pos
      obtain ⟨hlow, hstop, -⟩ := h.inv.placed.win_within hown.win
      rw [Window.stop] at hstop
      obtain ⟨u, v, hv, hstart, -⟩ := h.full c.side (b.tail c.side) (Nat.le_refl _) (by omega)
      obtain ⟨d, old', n', i', got', hd, hside, -⟩ := h.owner hv
      obtain rfl : u = t := by
        by_contra hne
        have := h.alone t u c d (Ne.symm hne) hcall hd hside.symm
        rw [hsingle] at this
        cases this
      obtain rfl : w = v := Option.some.inj (hown.win.symm.trans hv)
      omega
    · exact h.setPc ⟨w, hdone⟩ (Or.inr hcall.symm)

omit [DecidableEq ι] in
/-- 区間は空でない。 -/
theorem MtSim.win_pos (h : MtSim g s b) {σ : Side} (hw : b.win σ t = some w) : 0 < w.len := by
  obtain ⟨c, old, n, i, got, -, -, hown⟩ := h.owner hw
  exact hown.pos

theorem MtSim.waitTail (h : MtSim g s b) (hpc : s.pcs t = .waitTail c old free n got)
    (htail : (s.ring.ht c.side).tail = old) : MtSim g (s.setPc t (.storeTail c old free n got)) b := by
  have ht := h.track t
  rw [hpc] at ht
  obtain ⟨w, hown⟩ := ht
  refine h.setPc ⟨w, hown, ?_⟩ (Or.inr (by rw [hpc]; rfl))
  -- 区間の始まりは `tail` から容量より近いので、語が等しければ位置も等しい
  obtain ⟨hlow, hstop, -⟩ := h.inv.placed.win_within hown.win
  have hroom := h.inv.placed.span_le c.side
  have hcap := g.capacity_lt_word
  rw [Window.stop] at hstop
  rw [h.tail, hown.start] at htail
  exact eq_of_ofNat_eq hlow (by omega) htail

/-- `tail` を書いて戻る。 -/
theorem MtSim.storeTail (h : MtSim g s b) (hpc : s.pcs t = .storeTail c old free n got) :
    ∃ b', Board.Steps g.capacity.toNat (2 ^ g.bits) b b' ∧
      MtSim g (s.storeTail t c old free n got) b' := by
  have ht := h.track t
  rw [hpc] at ht
  obtain ⟨w, hown, hstart⟩ := ht
  have hcall : (s.pcs t).call = some c := by rw [hpc]; rfl
  obtain ⟨hlow, hstop, -⟩ := h.inv.placed.win_within hown.win
  have hsteps : Board.Steps g.capacity.toNat (2 ^ g.bits) b (finishAt b t c.toCall w w.stop) :=
    finishAt_stop_steps h.inv hown hstart fun u v hv => h.win_pos hv
  have hstopWord : old + n = UInt32.ofNat w.stop := by
    rw [Window.stop, hown.len, ofNat_add_word, hown.start]
  have hother : ∀ u, u ≠ t → Track g (finishAt b t c.toCall w w.stop) (s.seen u) u (s.pcs u) := by
    intro u hu
    refine (h.track u).frame ?_ ?_ ?_ ?_ ?_ ?_ ?_
    · intro σ
      rw [finishAt_win, update_win_of_ne hu]
    · rw [finishAt_buf]
    · rw [finishAt_sent]
    · rw [finishAt_head]; exact fun _ => Nat.le_refl _
    · intro σ
      rw [finishAt_tail]
      by_cases hσ : σ = c.side
      · subst hσ
        rw [Function.update_self, hstart, Window.stop]
        omega
      · rw [Function.update_of_ne hσ]
    · rw [finishAt_head]; exact fun _ _ _ => rfl
    · -- 同じ側で `tail` を書こうとしている thread はほかにいない
      intro d old' free' n' got' hd
      have htrack := h.track u
      rw [hd] at htrack
      obtain ⟨v, hv, hvstart⟩ := htrack
      rw [finishAt_tail]
      by_cases hside : d.side = c.side
      · have hvwin := hv.win
        rw [hside] at hvwin hvstart
        have hapart := h.inv.placed.win_apart hown.win hvwin (Ne.symm hu)
        have := hown.pos
        have := hv.pos
        simp only [ApartFrom, Window.stop] at hapart
        omega
      · rw [Function.update_of_ne hside]
  have hidle : Track g (finishAt b t c.toCall w w.stop) (s.seen t) t
      (.idle (some ⟨n, free - n, got⟩)) := by
    intro σ
    rw [finishAt_win]
    by_cases hσ : σ = c.side
    · subst hσ
      rw [Function.update_self, Function.update_self]
    · rw [Function.update_of_ne hσ]
      have hopp : c.side.opp = σ := by cases hc : c.side <;> cases σ <;> simp_all
      exact hopp ▸ hown.other
  have htail : ∀ σ, ((s.ring.setTail c.side (old + n)).ht σ).tail =
      UInt32.ofNat ((finishAt b t c.toCall w w.stop).tail σ) := by
    intro σ
    have := congrFun (s.ring.setTail_tail c.side (old + n)) σ
    rw [this, finishAt_tail]
    by_cases hσ : σ = c.side
    · subst hσ
      rw [Function.update_self, Function.update_self, hstopWord]
    · rw [Function.update_of_ne hσ, Function.update_of_ne hσ, h.tail]
  have hfull : ∀ σ p, (finishAt b t c.toCall w w.stop).tail σ ≤ p →
      p < (finishAt b t c.toCall w w.stop).head σ → ∃ u v,
        (finishAt b t c.toCall w w.stop).win σ u = some v ∧ v.start ≤ p ∧ p < v.stop := by
    intro σ p hlo hhi
    rw [finishAt_tail] at hlo
    rw [finishAt_head] at hhi
    by_cases hσ : σ = c.side
    · subst hσ
      rw [Function.update_self] at hlo
      obtain ⟨u, v, hv, hin⟩ := h.full c.side p (by rw [Window.stop] at hlo; omega) hhi
      have hu : u ≠ t := by
        rintro rfl
        obtain rfl : w = v := Option.some.inj (hown.win.symm.trans hv)
        omega
      exact ⟨u, v, by rw [finishAt_win, update_win_of_ne hu, hv], hin⟩
    · rw [Function.update_of_ne hσ] at hlo
      obtain ⟨u, v, hv, hin⟩ := h.full σ p hlo hhi
      exact ⟨u, v, by rw [finishAt_win, Function.update_of_ne hσ, hv], hin⟩
  have hmoved : b.sent.take (b.tail c.side) ++ c.moved n got = b.sent.take w.stop := by
    rw [hown.moved_eq h.inv, hstart, Window.stop, List.take_add]
  have halone : Alone (Function.update s.pcs t (.idle (some ⟨n, free - n, got⟩))) :=
    h.alone.update (Or.inl rfl)
  refine ⟨finishAt b t c.toCall w w.stop, hsteps, ?_⟩
  have hinv := h.inv.steps g.capacity_le_size hsteps
  cases hc : c.side with
  | prod =>
    have hs : s.storeTail t c old free n got =
        { s.setPc t (.idle (some ⟨n, free - n, got⟩)) with
          ring := s.ring.setTail c.side (old + n)
          published := s.published ++ c.moved n got } := by
      simp only [MtSys.storeTail, hc]
    rw [hs]
    refine ⟨hinv, ?_, htail, ?_, ?_, forall_track_update hidle hother, halone, hfull, ?_, ?_⟩
    · intro σ
      rw [RteRing.setTail_head, finishAt_head, h.head]
    · rw [RteRing.setTail_slots, finishAt_slots, h.slots]
    · rw [finishAt_head]; exact h.total
    · rw [finishAt_sent, finishAt_tail, hc, Function.update_self, ← hmoved, hc, ← h.published]
    · rw [finishAt_sent, finishAt_tail, hc, Function.update_of_ne (by decide)]
      exact h.received
  | cons =>
    have hs : s.storeTail t c old free n got =
        { s.setPc t (.idle (some ⟨n, free - n, got⟩)) with
          ring := s.ring.setTail c.side (old + n)
          received := s.received ++ c.moved n got } := by
      simp only [MtSys.storeTail, hc]
    rw [hs]
    refine ⟨hinv, ?_, htail, ?_, ?_, forall_track_update hidle hother, halone, hfull, ?_, ?_⟩
    · intro σ
      rw [RteRing.setTail_head, finishAt_head, h.head]
    · rw [RteRing.setTail_slots, finishAt_slots, h.slots]
    · rw [finishAt_head]; exact h.total
    · rw [finishAt_sent, finishAt_tail, hc, Function.update_of_ne (by decide)]
      exact h.published
    · rw [finishAt_sent, finishAt_tail, hc, Function.update_self, ← hmoved, hc, ← h.received]

/-! ## 実行 -/

/-- **一歩の模倣。** 約束を守った一歩は、抽象の輪の何歩かに当たる。 -/
theorem MtSim.step (h : MtSim g s b) {a : MtAct ι α} (hok : s.Allowed a)
    (hs : s.step g a = some s') :
    ∃ b', Board.Steps g.capacity.toNat (2 ^ g.bits) b b' ∧ MtSim g s' b' := by
  cases a with
  | call t c =>
    simp only [MtSys.step] at hs
    split at hs
    · next ret hpc =>
      rw [← Option.some.inj hs]
      exact ⟨b, Relation.ReflTransGen.refl, h.call hpc hok⟩
    · cases hs
  | run t =>
    simp only [MtSys.step] at hs
    split at hs
    · cases hs
    · next c hpc =>
      rw [← Option.some.inj hs]
      exact ⟨b, Relation.ReflTransGen.refl, h.readHead hpc⟩
    · next c old hpc =>
      rw [← Option.some.inj hs]
      exact ⟨b, Relation.ReflTransGen.refl, h.readTail hpc⟩
    · next c old free n hpc =>
      rw [← Option.some.inj hs]
      exact h.moveHead hpc hok
    · next c old free n i got hpc =>
      rw [← Option.some.inj hs]
      exact h.copy hpc
    · next c old free n got hpc =>
      split at hs
      · next htail =>
        rw [← Option.some.inj hs]
        exact ⟨b, Relation.ReflTransGen.refl, h.waitTail hpc htail⟩
      · cases hs
    · next c old free n got hpc =>
      rw [← Option.some.inj hs]
      exact h.storeTail hpc

omit [DecidableEq ι] in
theorem mtSim_init (slots : Nat → α) :
    MtSim g (MtSys.init slots : MtSys ι α) (Board.fresh slots) where
  inv := Board.fresh_inv slots
  head _ := rfl
  tail _ := rfl
  slots := rfl
  total := rfl
  track _ _ := rfl
  alone := by
    intro t u c d _ hc
    cases hc
  full := fun σ p _ hp => absurd hp (Nat.not_lt_zero p)
  published := rfl
  received := rfl

/-- **実行の模倣。** -/
theorem exists_mtSim {slots : Nat → α}
    (hr : Reaches (MtSys.step g) MtSys.Allowed (MtSys.init slots) s) : ∃ b, MtSim g s b := by
  obtain ⟨b, -, hb⟩ := hr.simulates (mtSim_init slots) fun u a u' b hb hok hs => hb.step hok hs
  exact ⟨b, hb⟩

omit [DecidableEq ι] in
/-- `tail` は、渡された個数と受け取られた個数である。 -/
theorem MtSim.lengths (hb : MtSim g s b) :
    s.published.length = b.tail .prod ∧ s.received.length = b.tail .cons := by
  have hprod := hb.inv.tail_le_length .prod
  have hcons := hb.inv.tail_le_length .cons
  rw [hb.published, hb.received, List.length_take, List.length_take]
  omega

omit [DecidableEq ι] in
theorem MtSim.fifo (hb : MtSim g s b) :
    s.received <+: s.published ∧ s.published.length ≤ s.received.length + g.capacity.toNat := by
  have h1 := hb.inv.placed.cons_le
  have h2 := hb.inv.placed.prod_le
  have h3 := hb.inv.placed.tail_le .cons
  have h4 := hb.inv.placed.tail_le .prod
  obtain ⟨hp, hq⟩ := hb.lengths
  constructor
  · rw [hb.published, hb.received]
    exact List.take_prefix_take_left (by omega)
  · omega

end L3fwd.Ring
