import L3fwd.Hash.Path

/-!
# extendable bucket の連なり

`free_ext_bkts` は FIFO で、つないだ bucket は返されない。したがって番号は 1 から順につながれ、
連なりの中の番号は先へ行くほど大きい。この順位から次のことが分かる。

* 連なりは閉路を持たず、`chain` の `fuel` は `num_buckets` で足りる
* 連なりの最後に新しい bucket をつないでも、今までの連なりの bucket は連なりに残る
-/

namespace L3fwd.Hash

open Infra Table

variable {h : RteHash} {t t' : Table h} {c : Nat}

/-! ## 連なりの順位 -/

/-- bucket の順位。extendable bucket の順位はその番号である。 -/
def BktRef.rank : BktRef → Nat
  | .main _ => 0
  | .ext id => id

/-- 番号 `c` までの extendable bucket がつながれ、残りは ring にあって手つかずである。 -/
structure Linked (t : Table h) (c : Nat) : Prop where
  le : c ≤ h.numBuckets
  ring : t.freeExtBkts.items = List.range' (c + 1) (h.numBuckets - c)
  next : ∀ b id, t.nextOf b = some id → b.rank < id ∧ id ≤ c
  onto : ∀ id, 1 ≤ id → id ≤ c → ∃ b, t.nextOf b = some id
  fresh : ∀ id, c < id → t.nextOf (.ext id) = none ∧ ∀ i, t.idxAt (.ext id, i) = emptySlot

theorem Linked.init (h : RteHash) (keyStore : Mem) : Linked (Table.init h keyStore) 0 where
  le := Nat.zero_le _
  ring := rfl
  next := fun _ _ hn => nomatch hn
  onto := fun id h1 h2 => absurd h1 (by omega)
  fresh := fun _ _ => ⟨rfl, fun _ => rfl⟩

/-- つながりと、手つかずの bucket の entry が同じなら、不変条件も同じである。 -/
theorem Linked.congr (hl : Linked t c) (hnext : t'.nextOf = t.nextOf)
    (hring : t'.freeExtBkts = t.freeExtBkts)
    (hidx : ∀ id i, c < id → t'.idxAt (.ext id, i) = t.idxAt (.ext id, i)) : Linked t' c where
  le := hl.le
  ring := by rw [hring]; exact hl.ring
  next := by rw [hnext]; exact hl.next
  onto := by rw [hnext]; exact hl.onto
  fresh := by
    intro id hid
    rw [hnext]
    exact ⟨(hl.fresh id hid).1, fun i => (hidx id i hid).trans ((hl.fresh id hid).2 i)⟩

theorem Linked.of_bkts (hl : Linked t c) (hb : t'.bkts = t.bkts)
    (hring : t'.freeExtBkts = t.freeExtBkts) : Linked t' c :=
  hl.congr (nextOf_congr hb) hring fun id i _ => congrFun (idxAt_congr hb) (.ext id, i)

theorem self_mem_chain (t : Table h) (fuel : Nat) (b : BktRef) : b ∈ t.chain fuel b := by
  cases fuel with
  | zero => exact List.mem_singleton.mpr rfl
  | succ fuel =>
    rw [chain]
    split
    · exact List.mem_singleton.mpr rfl
    · exact List.mem_cons_self

/-- 連なりは、始まりの bucket か、その次からの連なりである。 -/
theorem mem_chain_succ {fuel : Nat} {b x : BktRef} :
    x ∈ t.chain (fuel + 1) b ↔
      x = b ∨ ∃ id, t.nextOf b = some id ∧ x ∈ t.chain fuel (.ext id) := by
  rw [chain, nextOf]
  cases (t.bkts b).next with
  | none => simp
  | some id => simp

/-- 次の無い bucket の連なりは、その bucket だけである。 -/
theorem mem_chain_of_next_none {b x : BktRef} (hn : t.nextOf b = none) {fuel : Nat}
    (hx : x ∈ t.chain fuel b) : x = b := by
  cases fuel with
  | zero => exact List.mem_singleton.mp hx
  | succ fuel =>
    rcases mem_chain_succ.mp hx with he | ⟨id, hid, -⟩
    · exact he
    · rw [hn] at hid
      cases hid

/-- 手つかずでない bucket の entry は書いてよい。 -/
theorem Linked.setEntry {p : Pos} (hl : Linked t c) (hp : p.1.rank ≤ c) (sig : UInt16)
    (idx : Nat) : Linked (t.setEntry p sig idx) c := by
  refine hl.congr (funext fun b => nextOf_setEntry t p sig idx b) rfl fun id i hid => ?_
  have hne : ((BktRef.ext id, i) : Pos) ≠ p := by
    rintro rfl
    exact absurd hp (Nat.not_le.mpr hid)
  rw [idxAt_setEntry, if_neg hne]

theorem Linked.shift {q p : Pos} (hl : Linked t c) (hs : Shift t t' q p) : Linked t' c := by
  obtain ⟨b, hq, hp⟩ := hs.source
  refine hl.congr hs.next hs.freeExtBkts fun id i _ => ?_
  have hnp : ((BktRef.ext id, i) : Pos) ≠ p := by
    rintro rfl
    cases hp
  have hnq : ((BktRef.ext id, i) : Pos) ≠ q := by
    rintro rfl
    cases hq
  rw [hs.idx, if_neg hnp, if_neg hnq]

theorem Linked.shifts (hl : Linked t c) (hs : Shifts t t') : Linked t' c := by
  refine Shifts.invariant (P := fun u => Linked u c) hs hl ?_ ?_
  · intro u u' hu hsame
    exact hu.of_bkts hsame.bkts hsame.freeExtBkts
  · intro u u' q p hu hshift
    exact hu.shift hshift

/-! ## 連なりの中の bucket -/

theorem Linked.rank_le (hl : Linked t c) {fuel : Nat} {b x : BktRef} (hb : b.rank ≤ c)
    (hx : x ∈ t.chain fuel b) : x.rank ≤ c := by
  induction fuel generalizing b with
  | zero =>
    rw [chain, List.mem_singleton] at hx
    rw [hx]
    exact hb
  | succ fuel ih =>
    rcases mem_chain_succ.mp hx with rfl | ⟨id, hid, hx⟩
    · exact hb
    · exact ih (b := .ext id) (hl.next b id hid).2 hx

/-- 連なりは途中で切れない。連なりの bucket の次も連なりにある。 -/
theorem Linked.mem_chain_next (hl : Linked t c) {fuel : Nat} {b x : BktRef} {id : Nat}
    (hfuel : h.numBuckets ≤ b.rank + fuel) (hx : x ∈ t.chain fuel b)
    (hid : t.nextOf x = some id) : .ext id ∈ t.chain fuel b := by
  induction fuel generalizing b with
  | zero =>
    rw [chain, List.mem_singleton] at hx
    subst hx
    have hnext := hl.next x id hid
    have hle := hl.le
    omega
  | succ fuel ih =>
    rcases mem_chain_succ.mp hx with rfl | ⟨id', hid', hx⟩
    · exact mem_chain_succ.mpr (Or.inr ⟨id, hid, self_mem_chain t fuel _⟩)
    · have hlt := (hl.next b id' hid').1
      refine mem_chain_succ.mpr (Or.inr ⟨id', hid', ih ?_ hx⟩)
      show h.numBuckets ≤ id' + fuel
      omega

/-- `rte_hash_get_last_bkt` は連なりの中の、次の無い bucket を返す。 -/
theorem Linked.last (hl : Linked t c) (fuel : Nat) {b d : BktRef}
    (hfuel : h.numBuckets ≤ b.rank + fuel) :
    (t.chain fuel b).getLastD d ∈ t.chain fuel b ∧
      t.nextOf ((t.chain fuel b).getLastD d) = none := by
  induction fuel generalizing b d with
  | zero =>
    refine ⟨List.mem_singleton.mpr rfl, ?_⟩
    cases hn : t.nextOf b with
    | none => exact hn
    | some id =>
      have hnext := hl.next b id hn
      have hle := hl.le
      omega
  | succ fuel ih =>
    rw [chain]
    cases hn : (t.bkts b).next with
    | none => exact ⟨List.mem_singleton.mpr rfl, hn⟩
    | some id =>
      have hlt := (hl.next b id hn).1
      have hrest := ih (b := .ext id) (d := b) (show h.numBuckets ≤ id + fuel by omega)
      simp only [List.getLastD_cons]
      exact ⟨List.mem_cons_of_mem _ hrest.1, hrest.2⟩

theorem Linked.last_bkt (hl : Linked t c) (b : UInt32) :
    getLastBkt t (.main b) ∈ t.chain h.numBuckets (.main b) ∧
      t.nextOf (getLastBkt t (.main b)) = none :=
  hl.last h.numBuckets (show h.numBuckets ≤ 0 + h.numBuckets by omega)

/-- 最後の bucket に次をつないでも、連なりの bucket は連なりに残る。 -/
theorem mem_chain_setNext {last : BktRef} {id : Nat} (hlast : t.nextOf last = none) {fuel : Nat}
    {b x : BktRef} (hx : x ∈ t.chain fuel b) : x ∈ (t.setNext last id).chain fuel b := by
  induction fuel generalizing b with
  | zero => exact hx
  | succ fuel ih =>
    rcases mem_chain_succ.mp hx with rfl | ⟨id', hid', hx⟩
    · exact self_mem_chain _ _ _
    · have hne : b ≠ last := by
        rintro rfl
        rw [hlast] at hid'
        cases hid'
      refine mem_chain_succ.mpr (Or.inr ⟨id', ?_, ih hx⟩)
      rw [nextOf_setNext, if_neg hne]
      exact hid'

/-! ## 新しい bucket をつなぐ -/

/-- ring からは次の番号が出る。すべてつないだ後は失敗する。 -/
theorem Linked.alloc_cases (hl : Linked t c) :
    (c = h.numBuckets ∧ allocExtBkt t = (0, t)) ∨
    ∃ q, c < h.numBuckets ∧ q.items = List.range' (c + 2) (h.numBuckets - (c + 1)) ∧
      allocExtBkt t = (c + 1, { t with freeExtBkts := q }) := by
  have hle := hl.le
  unfold allocExtBkt
  cases hpop : t.freeExtBkts.pop with
  | none =>
    have hnil := Fifo.pop_eq_none_iff.mp hpop
    rw [hl.ring, List.range'_eq_nil_iff] at hnil
    exact Or.inl ⟨by omega, rfl⟩
  | some r =>
    obtain ⟨id, q⟩ := r
    have hitems := Fifo.pop_items hpop
    have hlt : c < h.numBuckets := by
      by_contra hge
      rw [hl.ring, show h.numBuckets - c = 0 by omega] at hitems
      cases hitems
    rw [hl.ring, show h.numBuckets - c = (h.numBuckets - (c + 1)) + 1 by omega,
      List.range'_succ, List.cons.injEq] at hitems
    obtain ⟨rfl, hq⟩ := hitems
    exact Or.inr ⟨q, hlt, hq.symm, rfl⟩

/-- **次の番号の bucket を連なりの最後につなぐと、つながれた bucket が一つ増える。** -/
theorem Linked.link {q : Fifo Nat h.extRing} {last : BktRef} (hl : Linked t c)
    (hlt : c < h.numBuckets) (hq : q.items = List.range' (c + 2) (h.numBuckets - (c + 1)))
    (hlast : t.nextOf last = none) (hrank : last.rank ≤ c) (sig : UInt16) (slotId : Nat) :
    Linked ((({ t with freeExtBkts := q }).setEntry (.ext (c + 1), 0) sig slotId).setNext
      last (c + 1)) (c + 1) where
  le := hlt
  ring := hq
  next := by
    intro b id hid
    rw [nextOf_setNext, nextOf_setEntry] at hid
    split at hid
    · next hb =>
      obtain rfl := Option.some.inj hid
      rw [hb]
      exact ⟨by omega, Nat.le_refl _⟩
    · have hold := hl.next b id hid
      exact ⟨hold.1, by omega⟩
  onto := by
    intro id h1 h2
    simp only [nextOf_setNext, nextOf_setEntry]
    rcases Nat.lt_succ_iff_lt_or_eq.mp (Nat.lt_succ_of_le h2) with hid | rfl
    · obtain ⟨b, hb⟩ := hl.onto id h1 (by omega)
      have hne : b ≠ last := by
        rintro rfl
        rw [hlast] at hb
        cases hb
      exact ⟨b, by rw [if_neg hne]; exact hb⟩
    · exact ⟨last, by rw [if_pos rfl]⟩
  fresh := by
    intro id hid
    have hold := hl.fresh id (by omega)
    have hne : BktRef.ext id ≠ last := by
      rintro rfl
      exact absurd hrank (by show ¬ id ≤ c; omega)
    refine ⟨?_, fun i => ?_⟩
    · rw [nextOf_setNext, if_neg hne, nextOf_setEntry]
      exact hold.1
    · have hpos : ((BktRef.ext id, i) : Pos) ≠ (.ext (c + 1), 0) := by
        intro he
        have := BktRef.ext.inj (congrArg Prod.fst he)
        omega
      rw [idxAt_setNext, idxAt_setEntry, if_neg hpos]
      exact hold.2 i

end L3fwd.Hash
