import Mathlib.Data.Fintype.Prod
import L3fwd.Infra.Run
import L3fwd.Hash.Slots

/-!
# extendable bucket のある table の容量

`ext_table_support` の立った table では、`free_slots` に番号がある限り追加は失敗しない。

slot 0 が使われるまでの table は次を保つ（`Intact`）。

* slot の番号はどれも一か所にあり、`free_slots` に 0 は無い
* 次のある bucket はすべて埋まっている。押し出しは空きを作らない
* 埋まった entry は bucket の前に詰まっている

extendable bucket が尽きたなら、次のある bucket が `num_buckets` 個あり、連なりの最後も埋まっている。
埋まった entry は `8 * (num_buckets + 1)` 個になり、`entries` を超える。

`free_slots` が空になると、追加は番号 0 のまま進む。その後は `free_slots` に 0 しか入らない。
-/

namespace L3fwd.Hash

open Infra Table

variable {h : RteHash} {t t' u : Table h} {c slotId : Nat} {key : Key} {hash : UInt32}
  {data : UInt64} {ret : Int}

/-! ## slot 0 が使われるまで -/

/-- 逐次の追加の途中の table。`slotId` は手にしている番号で、無ければ 0 である。 -/
structure Intact (t : Table h) (slotId : Nat) : Prop where
  owned : Owned t (fun _ : Unit => slotId)
  nonzero : emptySlot ∉ t.freeSlots.items
  full : ∀ b id, t.nextOf b = some id → ∀ i, t.idxAt (b, i) ≠ emptySlot
  packed : ∀ b i j, i < j → t.idxAt (b, j) ≠ emptySlot → t.idxAt (b, i) ≠ emptySlot

theorem update_unit (a b : Nat) : Function.update (fun _ : Unit => a) () b = fun _ => b := by
  funext x
  rw [Function.update_self]

theorem Intact.init (h : RteHash) (keyStore : Mem) : Intact (Table.init h keyStore) 0 where
  owned := Owned.init h keyStore
  nonzero := by
    intro hmem
    exact absurd (List.mem_range'_1.mp hmem).1 (by decide)
  full := fun _ _ hn => nomatch hn
  packed := fun _ _ _ _ hne => absurd rfl hne

theorem Intact.congr (hi : Intact t slotId) (hb : t'.bkts = t.bkts)
    (hring : t'.freeSlots = t.freeSlots) : Intact t' slotId where
  owned := hi.owned.congr hb hring
  nonzero := by rw [hring]; exact hi.nonzero
  full := by rw [nextOf_congr hb, idxAt_congr hb]; exact hi.full
  packed := by rw [idxAt_congr hb]; exact hi.packed

theorem Intact.dataOnly (hi : Intact t slotId) (hd : DataOnly t t') : Intact t' slotId :=
  hi.congr hd.bkts hd.freeSlots

/-- slot を取って書く。空なら 0 のまま進む。 -/
theorem takeSlot_cases (t : Table h) (key : Key) (data : UInt64) :
    (t.takeSlot key data).2.bkts = t.bkts ∧
      (t.takeSlot key data).2.freeExtBkts = t.freeExtBkts ∧
      ((t.freeSlots.items = [] ∧ (t.takeSlot key data).1 = emptySlot ∧
          (t.takeSlot key data).2.freeSlots.items = []) ∨
        t.freeSlots.items
          = (t.takeSlot key data).1 :: (t.takeSlot key data).2.freeSlots.items) := by
  unfold takeSlot
  rcases allocSlot_cases t with ⟨hnil, heq⟩ | ⟨id, q, hitems, heq⟩
  · rw [heq]
    exact ⟨rfl, rfl, Or.inl ⟨hnil, rfl, hnil⟩⟩
  · rw [heq]
    exact ⟨rfl, rfl, Or.inr hitems⟩

/-- 一杯の二つの bucket への新しい key の追加は、探索に失敗して最後の区間に進む。 -/
theorem addKeyWithHash_crowded {hash : UInt32} (hprim : Crowded t (getPrimBucketIndex h hash))
    (hsec : Crowded t (getSecBucketIndex h hash))
    (hnew : (checkDup t data key (getShortSig hash) (primOf h hash) (secOf h hash)).1 = -1)
    (hu : (checkDup t data key (getShortSig hash) (primOf h hash) (secOf h hash)).2.takeSlot key
      data = (slotId, u))
    (hstill : (checkDup u data key (getShortSig hash) (primOf h hash) (secOf h hash)).1 = -1) :
    addKeyWithHash t key hash data =
      if h.extTableSupport then
        insertExt (checkDup u data key (getShortSig hash) (primOf h hash) (secOf h hash)).2
          (primOf h hash) (secOf h hash) key data (getShortSig hash) slotId
      else (-enospc, Table.enqueueSlotBack
        (checkDup u data key (getShortSig hash) (primOf h hash) (secOf h hash)).2 slotId) := by
  have hslot := (takeSlot_cases (checkDup t data key (getShortSig hash) (primOf h hash)
    (secOf h hash)).2 key data).1
  rw [hu] at hslot
  have hb : u.bkts = t.bkts := hslot.trans (checkDup_bkts hnew)
  rw [addKeyWithHash_eq, if_neg (not_not_intro hnew), hu]
  exact storeSlot_crowded slotId data (hprim.congr hb) (hsec.congr hb) hstill

theorem Intact.takeSlot (hi : Intact t 0) (key : Key) (data : UInt64) :
    Intact (t.takeSlot key data).2 (t.takeSlot key data).1 := by
  obtain ⟨hb, -, hring⟩ := takeSlot_cases t key data
  have howned : Owned (t.takeSlot key data).2 (fun _ : Unit => (t.takeSlot key data).1) := by
    have := Owned.allocSlot (i := ()) hi.owned rfl
    rw [update_unit] at this
    exact this.congr rfl rfl
  refine ⟨howned, fun hmem => hi.nonzero ?_, ?_, ?_⟩
  · rcases hring with ⟨-, -, hnil⟩ | hcons
    · rw [hnil] at hmem
      exact absurd hmem List.not_mem_nil
    · rw [hcons]
      exact List.mem_cons_of_mem _ hmem
  · rw [nextOf_congr hb, idxAt_congr hb]
    exact hi.full
  · rw [idxAt_congr hb]
    exact hi.packed

theorem Intact.giveBack (hi : Intact t slotId) (hslot : slotId ≠ emptySlot) :
    Intact (t.enqueueSlotBack slotId) 0 := by
  have howned := hi.owned.enqueueSlotBack ()
  rw [update_unit] at howned
  rcases enqueueSlotBack_cases t slotId with heq | ⟨q, hitems, heq⟩
  · rw [heq] at howned ⊢
    exact { hi with owned := howned }
  · rw [heq] at howned ⊢
    refine { hi with owned := howned, nonzero := ?_ }
    rw [hitems]
    intro hmem
    rcases List.mem_append.mp hmem with hmem | hmem
    · exact hi.nonzero hmem
    · exact hslot (List.mem_singleton.mp hmem).symm

/-- 空きを一つ埋めるだけなら、次のある bucket は埋まったままで、entry は前に詰まったままである。 -/
theorem Intact.filled (hi : Intact u slotId) (hf : Filled u t') (howned : Owned t' fun _ : Unit => 0)
    (hnext : t'.nextOf = u.nextOf) (hring : t'.freeSlots = u.freeSlots) : Intact t' 0 := by
  obtain ⟨b, i, hfirst, hocc⟩ := hf
  obtain ⟨-, hbefore⟩ := firstEmpty_eq_some.mp hfirst
  refine ⟨howned, by rw [hring]; exact hi.nonzero, ?_, ?_⟩
  · intro d id hd j
    rw [hnext] at hd
    exact (hocc (d, j)).mpr (Or.inl (hi.full d id hd j))
  · intro d j k hjk hk
    refine (hocc (d, j)).mpr (Or.inl ?_)
    rcases (hocc (d, k)).mp hk with hk | hk
    · exact hi.packed d j k hjk hk
    · obtain ⟨rfl, rfl⟩ := Prod.mk.inj hk
      exact hbefore j hjk

theorem Intact.linkExt (hi : Intact t slotId) (hslot : slotId ≠ emptySlot) (hl : Linked t c)
    (halloc : (allocExtBkt t).1 ≠ 0) {b : UInt32}
    (hfull : ∀ d ∈ t.chain h.numBuckets (.main b), ∀ i, t.idxAt (d, i) ≠ emptySlot)
    (sig : UInt16) : Intact (linkExt t (.main b) sig slotId) 0 := by
  have howned := hi.owned.linkExt () (.main b) sig
  rw [update_unit] at howned
  obtain ⟨q, -, -, heq⟩ := hl.linkExt_eq halloc b sig slotId
  obtain ⟨hmem, -⟩ := hl.last_bkt b
  have hfresh := (hl.fresh (c + 1) (Nat.lt_succ_self c)).2
  rw [heq] at howned ⊢
  have hkeep : ∀ r, t.idxAt r ≠ emptySlot → ((({ t with freeExtBkts := q }).setEntry
      (.ext (c + 1), 0) sig slotId).setNext (getLastBkt t (.main b)) (c + 1)).idxAt r
        ≠ emptySlot := by
    intro r hr
    rw [idxAt_setNext, idxAt_setEntry]
    split
    · exact hslot
    · exact hr
  refine ⟨howned, hi.nonzero, ?_, ?_⟩
  · intro d id hd i
    refine hkeep (d, i) ?_
    rw [nextOf_setNext, nextOf_setEntry] at hd
    split at hd
    · next hlast =>
      rw [hlast]
      exact hfull _ hmem i
    · exact hi.full d id hd i
  · intro d i j hij hj
    refine hkeep (d, i) ?_
    rw [idxAt_setNext, idxAt_setEntry] at hj
    split at hj
    · next he =>
      have hj0 : j = 0 := (Prod.mk.inj he).2
      rw [hj0] at hij
      exact absurd hij (Fin.not_lt_zero i)
    · exact hi.packed d i j hij hj

/-! ## 一回の追加 -/

/-- **slot に書いた後の追加は、連なりの不変条件を保つ。** -/
theorem StoreOutcome.linked_inv (ho : StoreOutcome u slotId key hash data (ret, t'))
    (hl : Linked u c) : ∃ c', Linked t' c' := by
  cases ho with
  | present hroles hpres =>
    have hd := hpres.dataOnly
    exact ⟨c, (ringOnly_enqueueSlotBack _ slotId).linked (hd.linked hl)⟩
  | placed hmiss hu1 hp hplaced hfill =>
    have hd := hu1.dataOnly
    refine ⟨c, (hd.linked hl).placed ?_ hplaced⟩
    rcases hp with hp | hp
    · rw [hp]
      exact Nat.zero_le c
    · exact hl.rank_le (b := secOf h hash) (Nat.zero_le c) hp
  | linked hext hmiss hu1 hfull halloc =>
    have hd := hu1.dataOnly
    exact ⟨c + 1, (hd.linked hl).extend halloc _ _ _⟩
  | noBucket hext hmiss hu1 hfull halloc =>
    have hd := hu1.dataOnly
    have hl1 := hd.linked hl
    rcases hl1.alloc_cases with ⟨-, heq⟩ | ⟨q, -, -, heq⟩
    · rw [heq]
      exact ⟨c, hl1⟩
    · rw [heq] at halloc
      exact absurd halloc (Nat.succ_ne_zero c)
  | noSpace hext hmiss hu1 =>
    have hd := hu1.dataOnly
    exact ⟨c, (ringOnly_enqueueSlotBack _ slotId).linked (hd.linked hl)⟩

/-- slot に書いた後の追加で、手にした番号は entry か `free_slots` に移るか、失われる。 -/
theorem StoreOutcome.owned (ho : StoreOutcome u slotId key hash data (ret, t'))
    (hown : Owned u (fun _ : Unit => slotId)) : Owned t' (fun _ : Unit => 0) := by
  cases ho with
  | present hroles hpres =>
    have hd := hpres.dataOnly
    have howned := (hd.owned hown).enqueueSlotBack ()
    rwa [update_unit] at howned
  | placed hmiss hu1 hp hplaced hfill =>
    have hd := hu1.dataOnly
    have howned := (hd.owned hown).placed () hplaced
    rwa [update_unit] at howned
  | linked hext hmiss hu1 hfull halloc =>
    have hd := hu1.dataOnly
    have howned := (hd.owned hown).linkExt () (secOf h hash)
      (getShortSig hash)
    rwa [update_unit] at howned
  | @noBucket u1 hext hmiss hu1 hfull halloc =>
    obtain ⟨hb, hring, -⟩ := allocExtBkt_bkts u1
    have hd := hu1.dataOnly
    have howned := Tokens.drop () ((hd.owned hown).congr hb hring)
    rwa [update_unit] at howned
  | noSpace hext hmiss hu1 =>
    have hd := hu1.dataOnly
    have howned := (hd.owned hown).enqueueSlotBack ()
    rwa [update_unit] at howned

/-- **番号が 0 でなければ、slot に書いた後の追加は `Intact` を保つ。** -/
theorem StoreOutcome.intact (ho : StoreOutcome u slotId key hash data (ret, t'))
    (hi : Intact u slotId) (hslot : slotId ≠ emptySlot) (hl : Linked u c) : Intact t' 0 := by
  have howned := ho.owned hi.owned
  cases ho with
  | present hroles hpres => exact (hi.dataOnly hpres.dataOnly).giveBack hslot
  | placed hmiss hu1 hp hplaced hfill =>
    have hd := hu1.dataOnly
    obtain ⟨hnext, hring⟩ := hplaced.frame
    exact hi.filled (hfill hslot) howned (hnext.trans hd.nextOf) (hring.trans hd.freeSlots)
  | linked hext hmiss hu1 hfull halloc =>
    have hd := hu1.dataOnly
    refine (hi.dataOnly hd).linkExt hslot (hd.linked hl) halloc ?_ _
    rw [← secOf, hd.chain, hd.idxAt]
    exact hfull
  | @noBucket u1 hext hmiss hu1 hfull halloc =>
    obtain ⟨hb, hring, -⟩ := allocExtBkt_bkts u1
    exact { (hi.dataOnly hu1.dataOnly).congr hb hring with owned := howned }
  | noSpace hext hmiss hu1 => exact (hi.dataOnly hu1.dataOnly).giveBack hslot

/-- 追加の後の `free_slots` にあるのは、前からあった番号か、返した番号である。 -/
theorem StoreOutcome.mem_freeSlots (ho : StoreOutcome u slotId key hash data (ret, t')) {id : Nat}
    (hid : id ∈ t'.freeSlots.items) : id ∈ u.freeSlots.items ∨ id = slotId := by
  have hback : ∀ v : Table h, v.freeSlots = u.freeSlots →
      id ∈ (v.enqueueSlotBack slotId).freeSlots.items → id ∈ u.freeSlots.items ∨ id = slotId := by
    intro v hv hmem
    rcases enqueueSlotBack_cases v slotId with heq | ⟨q, hitems, heq⟩
    · rw [heq, hv] at hmem
      exact Or.inl hmem
    · rw [heq, hitems, hv] at hmem
      rcases List.mem_append.mp hmem with hmem | hmem
      · exact Or.inl hmem
      · exact Or.inr (List.mem_singleton.mp hmem)
  cases ho with
  | present hroles hpres => exact hback _ hpres.dataOnly.freeSlots hid
  | placed hmiss hu1 hp hplaced hfill =>
    rw [hplaced.frame.2, hu1.dataOnly.freeSlots] at hid
    exact Or.inl hid
  | @linked u1 hext hmiss hu1 hfull halloc =>
    rw [show (linkExt u1 (secOf h hash) (getShortSig hash) slotId).freeSlots
      = (allocExtBkt u1).2.freeSlots from rfl, (allocExtBkt_bkts u1).2.1,
      hu1.dataOnly.freeSlots] at hid
    exact Or.inl hid
  | @noBucket u1 hext hmiss hu1 hfull halloc =>
    rw [(allocExtBkt_bkts u1).2.1, hu1.dataOnly.freeSlots] at hid
    exact Or.inl hid
  | noSpace hext hmiss hu1 => exact hback _ hu1.dataOnly.freeSlots hid

/-! ## 数え上げ -/

/--
**extendable bucket は、連なりが一杯のときには尽きていない。**

次のある bucket は番号ごとに違い、連なりの最後には次が無い。
これらの `num_buckets + 1` 個の bucket の entry に、違う番号が入っている。
-/
theorem Intact.ext_left (hi : Intact t slotId) (hl : Linked t c) {b : UInt32}
    (hfull : ∀ d ∈ t.chain h.numBuckets (.main b), ∀ i, t.idxAt (d, i) ≠ emptySlot) :
    c < h.numBuckets := by
  by_contra hge
  have hc : c = h.numBuckets := Nat.le_antisymm hl.le (Nat.not_lt.mp hge)
  obtain ⟨hmem, hnone⟩ := hl.last_bkt b
  -- 番号 `k + 1` の前の bucket。最後の番号には連なりの最後を当てる
  have hbkt : ∀ k : Fin (h.numBuckets + 1), ∃ d,
      (t.nextOf d = if k.val < h.numBuckets then some (k.val + 1) else none) ∧
        ∀ i, t.idxAt (d, i) ≠ emptySlot := by
    intro k
    by_cases hk : k.val < h.numBuckets
    · obtain ⟨d, hd⟩ := hl.onto (k.val + 1) (Nat.succ_pos _) (by omega)
      exact ⟨d, by rw [if_pos hk, hd], hi.full d _ hd⟩
    · exact ⟨_, by rw [if_neg hk, hnone], hfull _ hmem⟩
  choose bkt hnext hocc using hbkt
  let place : Fin (h.numBuckets + 1) × Fin bucketEntries → Fin h.entries := fun x =>
    ⟨t.idxAt (bkt x.1, x.2) - 1, by
      have hne : t.idxAt (bkt x.1, x.2) ≠ 0 := hocc x.1 x.2
      have hle := hi.owned.entry_le (bkt x.1, x.2)
      omega⟩
  have hinj : Function.Injective place := by
    rintro ⟨k, i⟩ ⟨k', i'⟩ he
    have hne : t.idxAt (bkt k, i) ≠ 0 := hocc k i
    have hne' : t.idxAt (bkt k', i') ≠ 0 := hocc k' i'
    have hidx : t.idxAt (bkt k, i) = t.idxAt (bkt k', i') := by
      have hval : t.idxAt (bkt k, i) - 1 = t.idxAt (bkt k', i') - 1 := congrArg Fin.val he
      omega
    obtain ⟨hb, hi'⟩ := Prod.mk.inj (hi.owned.entry_once _ _ hidx hne)
    have hk := hnext k
    rw [hb, hnext k'] at hk
    have hkk : k = k' := by
      refine Fin.ext ?_
      have hlt := k.isLt
      have hlt' := k'.isLt
      by_cases h1 : k.val < h.numBuckets
      · rw [if_pos h1] at hk
        by_cases h2 : k'.val < h.numBuckets
        · rw [if_pos h2, Option.some.injEq] at hk
          omega
        · rw [if_neg h2] at hk
          cases hk
      · rw [if_neg h1] at hk
        by_cases h2 : k'.val < h.numBuckets
        · rw [if_pos h2] at hk
          cases hk
        · omega
    rw [hkk, hi']
  have hcard := Fintype.card_le_of_injective place hinj
  simp only [Fintype.card_prod, Fintype.card_fin] at hcard
  have hentries : h.entries ≤ 8 * h.numBuckets := h.entries_le_buckets
  have hcard' : (h.numBuckets + 1) * 8 ≤ h.entries := hcard
  omega

/-- 連なりが一杯でも、取り出せる extendable bucket がある。 -/
theorem Intact.allocExtBkt_ne (hi : Intact u slotId) (hl : Linked u c) {u1 : Table h}
    (hu1 : Touched data u u1) {b : UInt32}
    (hfull : ∀ d ∈ u.chain h.numBuckets (.main b), ∀ i, u.idxAt (d, i) ≠ emptySlot) :
    (allocExtBkt u1).1 ≠ 0 := by
  have hlt := hi.ext_left hl hfull
  rcases (hu1.dataOnly.linked hl).alloc_cases with ⟨hc, -⟩ | ⟨q, -, -, heq⟩
  · omega
  · rw [heq]
    exact Nat.succ_ne_zero c

/-- 番号を取れた追加が失敗するのは、extendable bucket の無い table だけである。 -/
theorem StoreOutcome.nonneg (ho : StoreOutcome u slotId key hash data (ret, t'))
    (hi : Intact u slotId) (hl : Linked u c) (hslot : slotId ≠ emptySlot) :
    0 ≤ ret ∨ h.extTableSupport = false := by
  have hpos : (0 : Int) ≤ (slotId : Int) - 1 := by
    have : slotId ≠ 0 := hslot
    omega
  cases ho with
  | present hroles hpres => exact Or.inl hpres.ret_nonneg
  | placed hmiss hu1 hp hplaced hfill => exact Or.inl hpos
  | linked hext hmiss hu1 hfull halloc => exact Or.inl hpos
  | noBucket hext hmiss hu1 hfull halloc => exact absurd halloc (hi.allocExtBkt_ne hl hu1 hfull)
  | noSpace hext hmiss hu1 => exact Or.inr hext

/-! ## 逐次の追加 -/

/-- 一回の追加の引数。 -/
structure AddOp where
  key : Key
  hash : UInt32
  data : UInt64

/-- 逐次の追加。 -/
def addStep (t : Table h) (op : AddOp) : Option (Table h) :=
  some (addKeyWithHash t op.key op.hash op.data).2

/-- slot 0 が使われるまでの table か、`free_slots` に 0 しか無い table である。 -/
def CapacityInv (t : Table h) : Prop :=
  (∃ c, Linked t c) ∧ (Intact t 0 ∨ ∀ id ∈ t.freeSlots.items, id = emptySlot)

theorem CapacityInv.dataOnly (hi : CapacityInv t) (hd : DataOnly t t') : CapacityInv t' := by
  obtain ⟨⟨c, hl⟩, hphase⟩ := hi
  refine ⟨⟨c, hd.linked hl⟩, ?_⟩
  rcases hphase with hi | hzero
  · exact Or.inl (hi.dataOnly hd)
  · rw [hd.freeSlots]
    exact Or.inr hzero

theorem Linked.takeSlot (hl : Linked t c) (key : Key) (data : UInt64) :
    Linked (t.takeSlot key data).2 c := by
  obtain ⟨hb, hext, -⟩ := takeSlot_cases t key data
  exact hl.of_bkts hb hext

/-- 一回の追加で不変条件が保たれる。 -/
theorem CapacityInv.add (hi : CapacityInv t) (key : Key) (hash : UInt32) (data : UInt64) :
    CapacityInv (addKeyWithHash t key hash data).2 := by
  rcases addKeyWithHash_cases t key hash data with ⟨ret, t', heq, hpres⟩ | ⟨-, t0, ht0, hout⟩
  · rw [heq]
    exact hi.dataOnly hpres.dataOnly
  · obtain ⟨⟨c, hl⟩, hphase⟩ := hi.dataOnly ht0.dataOnly
    obtain ⟨-, -, hring⟩ := takeSlot_cases t0 key data
    have hlu := hl.takeSlot key data
    refine ⟨hout.linked_inv hlu, ?_⟩
    by_cases hslot : (t0.takeSlot key data).1 = emptySlot
    · -- 番号 0 で進むのは、`free_slots` が空か 0 しか無いときである
      refine Or.inr fun id hid => ?_
      rcases hout.mem_freeSlots hid with hmem | rfl
      · rcases hring with ⟨-, -, hnil⟩ | hcons
        · rw [hnil] at hmem
          exact absurd hmem List.not_mem_nil
        · rcases hphase with hi0 | hzero
          · refine absurd ?_ hi0.nonzero
            rw [hcons, hslot]
            exact List.mem_cons_self
          · exact hzero id (by rw [hcons]; exact List.mem_cons_of_mem _ hmem)
      · exact hslot
    · rcases hphase with hi0 | hzero
      · exact Or.inl (hout.intact (hi0.takeSlot key data) hslot hlu)
      · rcases hring with ⟨-, hslot', -⟩ | hcons
        · exact absurd hslot' hslot
        · exact absurd (hzero _ (by rw [hcons]; exact List.mem_cons_self)) hslot

theorem capacityInv_of_reaches {keyStore : Mem}
    (hr : Reaches addStep Always (Table.init h keyStore) t) : CapacityInv t := by
  refine hr.invariant ⟨⟨0, Linked.init h keyStore⟩, Or.inl (Intact.init h keyStore)⟩ ?_
  rintro u op u' hu - hstep
  obtain rfl := Option.some.inj hstep
  exact hu.add op.key op.hash op.data

/--
**`ext_table_support` の立った table では、`free_slots` の先頭が 0 でない限り、追加は成功する。**

key の長さも hash も任意である。
-/
theorem addKeyWithHash_succeeds (hext : h.extTableSupport = true) {keyStore : Mem}
    (hr : Reaches addStep Always (Table.init h keyStore) t) {id : Nat} {rest : List Nat}
    (hring : t.freeSlots.items = id :: rest) (hid : id ≠ emptySlot) (key : Key) (hash : UInt32)
    (data : UInt64) : 0 ≤ (addKeyWithHash t key hash data).1 := by
  obtain ⟨⟨c, hl⟩, hphase⟩ := capacityInv_of_reaches hr
  have hi : Intact t 0 := by
    rcases hphase with hi | hzero
    · exact hi
    · exact absurd (hzero id (by rw [hring]; exact List.mem_cons_self)) hid
  rcases addKeyWithHash_cases t key hash data with ⟨ret, t', heq, hpres⟩ | ⟨-, t0, ht0, hout⟩
  · rw [heq]
    exact hpres.ret_nonneg
  · have hi0 := hi.dataOnly ht0.dataOnly
    have hl0 := ht0.dataOnly.linked hl
    have hslot : (t0.takeSlot key data).1 ≠ 0 := by
      obtain ⟨-, -, ⟨hnil, -⟩ | hcons⟩ := takeSlot_cases t0 key data
      · rw [ht0.dataOnly.freeSlots, hring] at hnil
        cases hnil
      · rw [ht0.dataOnly.freeSlots, hring] at hcons
        rw [← (List.cons.inj hcons).1]
        exact hid
    generalize addKeyWithHash t key hash data = r at hout
    obtain ⟨ret, t'⟩ := r
    rcases hout.nonneg (hi0.takeSlot key data) (hl0.takeSlot key data) hslot with hpos | hoff
    · exact hpos
    · rw [hext] at hoff
      cases hoff

/-! ## 具体例 -/

/-- entry が 8 個で、key store の一つの slot が 2^29 byte の table。slot 8 は slot 0 と同じ位置になる。 -/
def wideKeys : RteHash :=
  { eightKeys with
    keyLen := 2 ^ 29 - 8
    keyLen_pos := by decide
    keyLen_lt := by decide }

/-- 最初の byte が `n` の key。 -/
def keyOf (n : Nat) : Key := fun j => if j = 0 then UInt8.ofNat n else 0

/-- hash が 0 の八個の key の追加。 -/
def eightAdds : List AddOp := (List.range' 1 8).map fun n => ⟨keyOf n, 0, 0⟩

/-- 八個の key で 0 番の bucket が一杯になった table。 -/
def packed (h : RteHash) : Table h :=
  eightAdds.foldl (fun t op => (addKeyWithHash t op.key op.hash op.data).2)
    (Table.init h fun _ => 0)

/-- 九個目の key は、一杯の bucket の後ろに extendable bucket をつないで入る。 -/
theorem packed_ninth : (addKeyWithHash (packed tenKeys) (keyOf 9) 0 0).2.freeSlots.items = [10] ∧
    (∀ i, (addKeyWithHash (packed tenKeys) (keyOf 9) 0 0).2.idxAt (.main 0, i) ≠ emptySlot) ∧
      (addKeyWithHash (packed tenKeys) (keyOf 9) 0 0).2.nextOf (.main 0) = some 1 := by
  have hcrowd : Crowded (packed tenKeys) 0 := by decide +kernel
  rw [addKeyWithHash_crowded hcrowd hcrowd (by decide +kernel) rfl (by decide +kernel)]
  decide +kernel

/-- 一杯の bucket とその後ろの extendable bucket のある table への、十個目の key の追加。 -/
theorem addKeyWithHash_succeeds_chained : ∃ t : Table tenKeys,
    Reaches addStep Always (Table.init tenKeys fun _ => 0) t ∧ t.freeSlots.items = [10] ∧
      (∀ i, t.idxAt (.main 0, i) ≠ emptySlot) ∧ t.nextOf (.main 0) = some 1 ∧
      0 ≤ (addKeyWithHash t (keyOf 10) 0 0).1 := by
  obtain ⟨hring, hfull, hnext⟩ := packed_ninth
  have hr : Reaches addStep Always (Table.init tenKeys fun _ => 0)
      (addKeyWithHash (packed tenKeys) (keyOf 9) 0 0).2 :=
    (reaches_of_exec (fun _ _ _ => trivial) (show exec addStep _ eightAdds = some _ from rfl)).snoc
      (a := ⟨keyOf 9, 0, 0⟩) trivial rfl
  exact ⟨_, hr, hring, hfull, hnext,
    addKeyWithHash_succeeds rfl hr hring (by decide) (keyOf 10) 0 0⟩

/-- 九個の key は同じ bucket に、十個目は別の bucket に入る。 -/
def nineAndOne (key : Key) : UInt32 := if key 0 = 10 then 0x10000 else 0

def nineAdds : List AddOp :=
  (List.range' 1 9).map fun n => ⟨keyOf n, nineAndOne (keyOf n), 0⟩

theorem nineAdds_ring : (exec addStep (Table.init wideKeys fun _ => 0) nineAdds).map
    (fun t => (t.freeSlots.items, t.nextOf (.main 0),
      (List.finRange bucketEntries).map fun i => t.sigAt (.main 0, i)))
        = some ([0], none, List.replicate bucketEntries 0) := by decide +kernel

/-- 番号 0 のまま進んだ追加は、検査で見つからなければ負の値を返す。 -/
theorem StoreOutcome.neg_of_zero (ho : StoreOutcome u emptySlot key hash data (ret, t'))
    (hprim : Missed u key (getShortSig hash) (primOf h hash) (secOf h hash))
    (hsec : Missed u key (getShortSig hash) (secOf h hash) (primOf h hash)) : ret < 0 := by
  cases ho with
  | present hroles hpres =>
    obtain ⟨p, -, hhit, -⟩ := hpres
    rcases hroles with ⟨rfl, rfl⟩ | ⟨rfl, rfl⟩
    · exact absurd hhit (hprim p)
    · exact absurd hhit (hsec p)
  | placed => decide
  | linked => decide
  | noBucket => decide
  | noSpace => decide

/--
`free_slots` が空でないのに失敗する追加。

九個目の追加は番号 0 のまま slot 0 に key を書き、同じ位置の slot 8 の key を上書きする。
直後の検査が slot 8 の entry に合い、番号 0 が `free_slots` に入る。
-/
theorem addKeyWithHash_fails_nonempty : ∃ t : Table wideKeys,
    Reaches addStep Always (Table.init wideKeys fun _ => 0) t ∧ t.freeSlots.items ≠ [] ∧
      (addKeyWithHash t (keyOf 10) (nineAndOne (keyOf 10)) 0).1 < 0 := by
  obtain ⟨t, hrun, hres⟩ := Option.map_eq_some_iff.mp nineAdds_ring
  obtain ⟨hring, hres⟩ := Prod.mk.inj hres
  obtain ⟨hnext, hsigs⟩ := Prod.mk.inj hres
  refine ⟨t, reaches_of_exec (fun _ _ _ => trivial) hrun, ?_, ?_⟩
  · rw [hring]
    exact List.cons_ne_nil 0 []
  -- 十個目の key の signature は 1 で、0 番の bucket のどの entry とも合わない
  have hsig : ∀ i, t.sigAt (.main 0, i) = 0 := fun i =>
    List.eq_of_mem_replicate (hsigs ▸ List.mem_map_of_mem (List.mem_finRange i))
  have hmiss : ∀ u : Table wideKeys, u.bkts = t.bkts →
      Missed u (keyOf 10) (getShortSig 0x10000) (.main 0) (.main 0) := by
    intro u hu p hhit
    have hp : p.1 = .main 0 := by
      rcases List.mem_cons.mp hhit.1 with hp | hp
      · exact hp
      · exact mem_chain_of_next_none (by rw [nextOf_congr hu]; exact hnext) hp
    have hone := hhit.sig
    rw [sigAt_congr hu, ← Prod.mk.eta (p := p), hp, hsig] at hone
    exact absurd hone (by decide)
  show (addKeyWithHash t (keyOf 10) 0x10000 0).1 < 0
  rcases addKeyWithHash_cases t (keyOf 10) 0x10000 0 with
    ⟨ret, t', -, p, -, hhit, -⟩ | ⟨-, t0, ht0, hout⟩
  · exact absurd hhit (hmiss t rfl p)
  · obtain ⟨hub, -, ⟨hnil, -⟩ | hcons⟩ := takeSlot_cases t0 (keyOf 10) 0
    · rw [ht0.dataOnly.freeSlots, hring] at hnil
      cases hnil
    · rw [ht0.dataOnly.freeSlots, hring] at hcons
      rw [← (List.cons.inj hcons).1] at hout
      have hu := hub.trans ht0.dataOnly.bkts
      exact hout.neg_of_zero (hmiss _ hu) (hmiss _ hu)

end L3fwd.Hash
