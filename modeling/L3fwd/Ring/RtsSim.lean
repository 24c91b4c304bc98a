import L3fwd.Infra.Batches
import L3fwd.Ring.Rts
import L3fwd.Ring.Windows

/-!
# `tail` を待たない ring と抽象の輪の対応

区間を持つ人数は、`head` を進めた回数から `tail` を進めた回数を引いたものである。
読んだ `head` の回数が読んだ `tail` の回数よりちょうど一つ多く、`tail` がそのあと動いていなければ、
`head` を読んだ時に区間を持っていたのは自分だけである。ほかの区間はその後に取られたので、
読んだ `head` の位置より後ろから始まる。だから `tail` をその位置まで進めてよい。

回数は 32 bit で折り返すが、区間を持つ人数は容量を超えないので、比べて取り違えることはない。
-/

namespace L3fwd.Ring

open Infra

variable {ι α : Type*} {g : Geometry} {b b' : Board ι α} {t : ι} {c : Call α}
  {old free n : UInt32} {i seen : Nat} {got : List α} {w : Window} {ot nt oh : PosCnt}
  {ops fin ops' fin' : Side → Nat} {pc : RtsPc α}

/-! ## 対応 -/

/-- 読んだ組 `p` は `seen` 回目のものである。今も同じ回数なら、位置も今のものである。 -/
structure Snap (now pos seen : Nat) (p : PosCnt) : Prop where
  cnt : p.cnt = UInt32.ofNat seen
  le : seen ≤ now
  pos : seen = now → p.pos = UInt32.ofNat pos

theorem Snap.mono {now pos now' pos' : Nat} {p : PosCnt} (h : Snap now pos seen p)
    (hle : now ≤ now') (hpos : now' = now → pos' = pos) : Snap now' pos' seen p := by
  have hseen := h.le
  refine ⟨h.cnt, by omega, fun heq => ?_⟩
  rw [hpos (by omega)]
  exact h.pos (by omega)

/-- 今の組と等しく、その間の回数が 2^32 に満たなければ、間に誰も動かしていない。 -/
theorem Snap.eq {now pos : Nat} {p : PosCnt} (h : Snap now pos seen p)
    (heq : (⟨UInt32.ofNat now, UInt32.ofNat pos⟩ : PosCnt) = p) (hnear : now - seen < 2 ^ 32) :
    seen = now := by
  have hcnt := h.cnt
  rw [← heq] at hcnt
  exact eq_of_ofNat_eq h.le hnear hcnt.symm

/--
書こうとしている `tail` の値 `nt` は、`oph` 回目の位置 `hp` の `head` を見て決めたものである。

`tail` がまだ動いていなければ、`oph` は自分を数えに入れている。
`oph` が `seen` の次なら、ほかの区間はどれも `hp` より後ろにある。
-/
structure Target (cap : Nat) (b : Board ι α) (ops fin : Side → Nat) (seen : Nat) (t : ι)
    (σ : Side) (ot nt : PosCnt) (oph hp : Nat) : Prop where
  value : nt = nextTail ot ⟨UInt32.ofNat oph, UInt32.ofNat hp⟩
  le : oph ≤ ops σ
  now : oph = ops σ → hp = b.head σ
  counted : seen = fin σ → seen + 1 ≤ oph ∧ oph ≤ seen + cap
  within : seen = fin σ → b.tail σ ≤ hp ∧ hp ≤ b.head σ
  last : seen = fin σ → oph = seen + 1 → ∀ u v, u ≠ t → b.win σ u = some v → hp ≤ v.start

/-- thread の居場所と抽象の区間の対応。 -/
def RtsTrack (g : Geometry) (b : Board ι α) (ops fin : Side → Nat) (seen : Nat) (t : ι) :
    RtsPc α → Prop
  | .idle _ => ∀ σ, b.win σ t = none
  | .load _ => ∀ σ, b.win σ t = none
  | .headWait c oh => (∀ σ, b.win σ t = none) ∧ Snap (ops c.side) (b.head c.side) seen oh
  | .readTail c oh => (∀ σ, b.win σ t = none) ∧ Snap (ops c.side) (b.head c.side) seen oh
  | .moveHead c oh _ n => (∀ σ, b.win σ t = none) ∧ Snap (ops c.side) (b.head c.side) seen oh ∧
      0 < n.toNat ∧ (seen = ops c.side →
        b.head c.side + n.toNat ≤ c.side.lead g.capacity.toNat + b.tail c.side.opp)
  | .copy c old _ n i got => ∃ w, Owns b t c old n i got w
  | .loadTail c old _ n got => ∃ w, Owns b t c old n n.toNat got w
  | .loadHead c old _ n got ot => (∃ w, Owns b t c old n n.toNat got w) ∧
      Snap (fin c.side) (b.tail c.side) seen ot
  | .casTail c old _ n got ot nt => (∃ w, Owns b t c old n n.toNat got w) ∧
      Snap (fin c.side) (b.tail c.side) seen ot ∧
        ∃ oph hp, Target g.capacity.toNat b ops fin seen t c.side ot nt oph hp

/-- ほかの thread の一歩で、居場所の対応は崩れない。 -/
theorem RtsTrack.frame (h : RtsTrack g b ops fin seen t pc) (hwin : ∀ σ, b'.win σ t = b.win σ t)
    (hbuf : b'.buf t = b.buf t) (hsent : b.sent <+: b'.sent)
    (hops : ∀ σ, ops σ ≤ ops' σ) (hfin : ∀ σ, fin σ ≤ fin' σ)
    (hhead : ∀ σ, ops' σ = ops σ → b'.head σ = b.head σ) (hheadle : ∀ σ, b.head σ ≤ b'.head σ)
    (htail : ∀ σ, fin' σ = fin σ → b'.tail σ = b.tail σ) (htaille : ∀ σ, b.tail σ ≤ b'.tail σ)
    (hnew : ∀ σ u v, b'.win σ u = some v →
      (∃ v0, b.win σ u = some v0 ∧ v0.start = v.start) ∨ b.head σ ≤ v.start) :
    RtsTrack g b' ops' fin' seen t pc := by
  have hnone : (∀ σ, b.win σ t = none) → ∀ σ, b'.win σ t = none := fun hw σ =>
    (hwin σ).trans (hw σ)
  have hheadSnap : ∀ {σ p}, Snap (ops σ) (b.head σ) seen p → Snap (ops' σ) (b'.head σ) seen p :=
    fun hs => hs.mono (hops _) (hhead _)
  have htailSnap : ∀ {σ p}, Snap (fin σ) (b.tail σ) seen p → Snap (fin' σ) (b'.tail σ) seen p :=
    fun hs => hs.mono (hfin _) (htail _)
  cases pc with
  | idle ret => exact hnone h
  | load c => exact hnone h
  | headWait c oh => exact ⟨hnone h.1, hheadSnap h.2⟩
  | readTail c oh => exact ⟨hnone h.1, hheadSnap h.2⟩
  | moveHead c oh free n =>
    obtain ⟨h1, h2, h3, h4⟩ := h
    refine ⟨hnone h1, hheadSnap h2, h3, fun heq => ?_⟩
    -- 今も同じ回数なら、間に誰も `head` を動かしていない
    have hle := h2.le
    have hle' := hops c.side
    have hroom := h4 (by omega)
    have hsame := hhead c.side (by omega)
    have hopp := htaille c.side.opp
    omega
  | copy c old free n i got =>
    obtain ⟨w, hw⟩ := h
    exact ⟨w, hw.frame hwin hbuf hsent⟩
  | loadTail c old free n got =>
    obtain ⟨w, hw⟩ := h
    exact ⟨w, hw.frame hwin hbuf hsent⟩
  | loadHead c old free n got ot =>
    obtain ⟨⟨w, hw⟩, h2⟩ := h
    exact ⟨⟨w, hw.frame hwin hbuf hsent⟩, htailSnap h2⟩
  | casTail c old free n got ot nt =>
    obtain ⟨⟨w, hw⟩, h2, oph, hp, h3⟩ := h
    have hle := h2.le
    have hle' := hfin c.side
    have hle'' := h3.le
    have hops' := hops c.side
    have hstill : seen = fin' c.side → seen = fin c.side ∧ b'.tail c.side = b.tail c.side := by
      intro heq
      exact ⟨by omega, htail c.side (by omega)⟩
    refine ⟨⟨w, hw.frame hwin hbuf hsent⟩, htailSnap h2, oph, hp, h3.value, by omega, ?_, ?_, ?_, ?_⟩
    · intro heq
      rw [hhead c.side (by omega)]
      exact h3.now (by omega)
    · intro heq
      exact h3.counted (hstill heq).1
    · intro heq
      obtain ⟨h4, h5⟩ := hstill heq
      obtain ⟨h6, h7⟩ := h3.within h4
      have h8 := hheadle c.side
      rw [h5]
      omega
    · -- あとから取られた区間は、どれも今の `head` より後ろから始まる
      intro heq hlast u v hu hv
      obtain ⟨h4, -⟩ := hstill heq
      rcases hnew _ u v hv with ⟨v0, hv0, hstart⟩ | hge
      · rw [← hstart]
        exact h3.last h4 hlast u v0 hu hv0
      · exact Nat.le_trans (h3.within h4).2 hge

/-- 実装の状態と抽象の状態の対応。 -/
structure RtsSim [Fintype ι] (g : Geometry) (s : RtsSys ι α) (b : Board ι α) : Prop where
  inv : b.Inv g.capacity.toNat (2 ^ g.bits)
  head : ∀ σ, (s.ring.ht σ).head = ⟨UInt32.ofNat (s.ops σ), UInt32.ofNat (b.head σ)⟩
  tail : ∀ σ, (s.ring.ht σ).tail = ⟨UInt32.ofNat (s.fin σ), UInt32.ofNat (b.tail σ)⟩
  slots : s.ring.slots = b.slots
  sent : s.sent = b.sent
  taken : s.taken = b.taken.map fun e => (UInt32.ofNat e.1, e.2)
  track : ∀ t, RtsTrack g b s.ops s.fin (s.seen t) t (s.pcs t)
  count : ∀ σ, s.ops σ = s.fin σ + (b.holders σ).card
  settled : ∀ σ, s.ops σ = s.fin σ → b.tail σ = b.head σ

section

variable [Fintype ι] {s s' : RtsSys ι α}

/-- 区間を持つ thread は、その側の呼び出しの中にいる。 -/
theorem RtsSim.owner (h : RtsSim g s b) {σ : Side} (hw : b.win σ t = some w) :
    (s.pcs t).inside = some σ ∧ 0 < w.len := by
  -- 区間の持ち主の側は、区間の側である
  have key : ∀ {c : Call α} {old n i got v}, Owns b t c old n i got v → c.side = σ ∧ 0 < w.len := by
    intro c old n i got v hv
    have hside : c.side = σ := by
      by_contra hne
      have hopp : c.side.opp = σ := by cases hc : c.side <;> cases σ <;> simp_all
      have hnone := hv.other
      rw [hopp, hw] at hnone
      cases hnone
    have hvwin := hv.win
    rw [hside, hw] at hvwin
    obtain rfl := Option.some.inj hvwin
    exact ⟨hside, hv.pos⟩
  have ht := h.track t
  cases hpc : s.pcs t with
  | idle ret => rw [hpc] at ht; rw [ht σ] at hw; cases hw
  | load c => rw [hpc] at ht; rw [ht σ] at hw; cases hw
  | headWait c oh => rw [hpc] at ht; rw [ht.1 σ] at hw; cases hw
  | readTail c oh => rw [hpc] at ht; rw [ht.1 σ] at hw; cases hw
  | moveHead c oh free n => rw [hpc] at ht; rw [ht.1 σ] at hw; cases hw
  | copy c old free n i got =>
    rw [hpc] at ht
    obtain ⟨v, hv⟩ := ht
    exact ⟨congrArg some (key hv).1, (key hv).2⟩
  | loadTail c old free n got =>
    rw [hpc] at ht
    obtain ⟨v, hv⟩ := ht
    exact ⟨congrArg some (key hv).1, (key hv).2⟩
  | loadHead c old free n got ot =>
    rw [hpc] at ht
    obtain ⟨⟨v, hv⟩, -⟩ := ht
    exact ⟨congrArg some (key hv).1, (key hv).2⟩
  | casTail c old free n got ot nt =>
    rw [hpc] at ht
    obtain ⟨⟨v, hv⟩, -⟩ := ht
    exact ⟨congrArg some (key hv).1, (key hv).2⟩

/-- 区間を持つ人数は容量を超えない。 -/
theorem RtsSim.holders_le (h : RtsSim g s b) (σ : Side) :
    (b.holders σ).card ≤ g.capacity.toNat := by
  have hle := h.inv.placed.holders_le fun t w hw => (h.owner (σ := σ) hw).2
  have hspan := h.inv.placed.span_le σ
  omega

end

end L3fwd.Ring
