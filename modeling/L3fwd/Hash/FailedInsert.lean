import L3fwd.Hash.KeyLength

/-!
# 失敗した追加

負の値を返した追加は、table をもとのまま残すか。slot 0 は使われないか。

* `alloc_slot` の失敗を受ける `return -ENOSPC` は注釈にされている。`free_slots` が空でも追加は
  番号 0 のまま進み、-1 を返したときにも bucket や ring を変えている
* 空きを作れなかった追加は、取った番号を `free_slots` の先頭ではなく末尾に返し、slot に写した key も
  そのまま残す

新しい key の追加のたびに `free_slots` に番号があった実行では、番号は失われず、
`free_slots` と entry が `1, …, entries` を分ける（`Partitioned`）。
その上で、key の入る空きがあるか、書き込みが跡を残さない追加（`Harmless`）は、
失敗しても何も変えない。失敗した追加が何も変えないのは、このときに限る（`failed_insert_clean`）。
-/

namespace L3fwd.Hash

open Infra Table

variable {h : RteHash} {t t' u : Table h} {c slotId : Nat} {key : Key} {hash : UInt32}
  {data : UInt64} {ret : Int} {op : AddOp}

/-! ## 求めること -/

/-- `free_slots` と空でない entry の番号は、`1, …, entries` を分ける。 -/
structure Partitioned (t : Table h) : Prop where
  ring_nodup : t.freeSlots.items.Nodup
  entry_once : ∀ p q, t.idxAt p = t.idxAt q → t.idxAt p ≠ emptySlot → p = q
  apart : ∀ id, InUse t id → id ∉ t.freeSlots.items
  cover : ∀ id, (id ∈ t.freeSlots.items ∨ InUse t id) ↔ 1 ≤ id ∧ id ≤ h.entries

/-- 最初の検査で、key が見つからない。 -/
def MissedBy (t : Table h) (op : AddOp) : Prop :=
  Missed t op.key (getShortSig op.hash) (primOf h op.hash) (secOf h op.hash)

/-- 一回の追加に求めること。 -/
structure FailsClean (t : Table h) (op : AddOp) : Prop where
  /-- slot が残っていなければ、格納されていない key の追加は `-ENOSPC` を返す。 -/
  noSlot : t.freeSlots.items = [] → (∀ id, InUse t id → t.keyBytes id ≠ h.keyBytesOf op.key) →
    (addKeyWithHash t op.key op.hash op.data).1 = -enospc
  /-- 負の値を返した追加は、何も変えない。 -/
  unchanged : (addKeyWithHash t op.key op.hash op.data).1 < 0 →
    (addKeyWithHash t op.key op.hash op.data).2.bkts = t.bkts ∧
      (addKeyWithHash t op.key op.hash op.data).2.keyStore = t.keyStore ∧
      (addKeyWithHash t op.key op.hash op.data).2.freeSlots = t.freeSlots ∧
      (addKeyWithHash t op.key op.hash op.data).2.freeExtBkts = t.freeExtBkts
  /-- slot を取る追加に、slot 0 は渡らない。 -/
  nonzero : MissedBy t op → t.allocSlot.1 ≠ emptySlot

/-! ## 条件 -/

/-- 最初の検査で見つからない key の追加では、`free_slots` に番号がある。 -/
def SlotLeft (t : Table h) (op : AddOp) : Prop := MissedBy t op → t.freeSlots.items ≠ []

/-- 新しい key の入る空きがある。 -/
def HasRoom (t : Table h) (hash : UInt32) : Prop :=
  h.extTableSupport = true ∨ ¬ SearchFull t (getPrimBucketIndex h hash) ∨
    ¬ SearchFull t (getSecBucketIndex h hash)

/-- 列のどれかの bucket で、最初に合う entry が空である。検査は slot 0 の data を書く。 -/
def DummyHit (t : Table h) (key : Key) (sig : UInt16) (bs : List BktRef) : Prop :=
  ∃ b ∈ bs, ∃ i, findEntry t key b sig = some i ∧ t.idxAt (b, i) = emptySlot

/-- 残った番号は一つで、その slot にはもう同じ key と data がある。検査が書く slot 0 の data も同じである。 -/
structure AlreadyWritten (t : Table h) (op : AddOp) : Prop where
  slot : ∃ id, t.freeSlots.items = [id] ∧ t.keyBytes id = h.keyBytesOf op.key ∧
    t.storedData id = op.data
  dummy : DummyHit t op.key (getShortSig op.hash)
      (searched t (primOf h op.hash) (secOf h op.hash)) → t.storedData emptySlot = op.data

/-- 追加は失敗の経路に入らないか、入っても跡を残さない。 -/
def Harmless (t : Table h) (op : AddOp) : Prop :=
  (¬ MissedBy t op ∧
    (t.freeSlots.items = [] → ∃ id, InUse t id ∧ t.keyBytes id = h.keyBytesOf op.key)) ∨
  (t.freeSlots.items ≠ [] ∧ (HasRoom t op.hash ∨ AlreadyWritten t op))

/-! ## 番号は失われない -/

/-- slot 0 の使われていない、番号の失われていない table。 -/
structure Settled (t : Table h) : Prop where
  intact : Intact t 0
  linked : ∃ c, Linked t c
  covered : ∀ id, 1 ≤ id → id ≤ h.entries → id ∈ t.freeSlots.items ∨ InUse t id

theorem Settled.init (h : RteHash) (keyStore : Mem) : Settled (Table.init h keyStore) where
  intact := Intact.init h keyStore
  linked := ⟨0, Linked.init h keyStore⟩
  covered := by
    intro id hge hle
    refine Or.inl (List.mem_range'_1.mpr ⟨hge, ?_⟩)
    omega

theorem Settled.partitioned (hs : Settled t) : Partitioned t where
  ring_nodup := by
    rw [List.nodup_iff_count_le_one]
    intro id
    by_cases hid : id = emptySlot
    · rw [hid, List.count_eq_zero_of_not_mem hs.intact.nonzero]
      exact Nat.zero_le 1
    · exact hs.intact.owned.ring_once id hid
  entry_once := hs.intact.owned.entry_once
  apart := by
    rintro id ⟨hne, p, rfl⟩
    exact hs.intact.owned.ring_entry p hne
  cover := by
    intro id
    constructor
    · rintro (hid | ⟨hne, p, rfl⟩)
      · refine ⟨Nat.pos_of_ne_zero fun he => ?_, hs.intact.owned.ring_le id hid⟩
        rw [he] at hid
        exact hs.intact.nonzero hid
      · exact ⟨Nat.pos_of_ne_zero hne, hs.intact.owned.entry_le p⟩
    · rintro ⟨hge, hle⟩
      exact hs.covered id hge hle

theorem Settled.dataOnly (hs : Settled t) (hd : DataOnly t t') : Settled t' where
  intact := hs.intact.dataOnly hd
  linked := by
    obtain ⟨c, hl⟩ := hs.linked
    exact ⟨c, hd.linked hl⟩
  covered := by
    intro id hge hle
    rw [hd.freeSlots, InUse.of_idxAt hd.idxAt]
    exact hs.covered id hge hle

/-- 空きのある ring には、番号を返せる。 -/
theorem enqueueSlotBack_of_lt (hlt : t.freeSlots.items.length < h.slotRing) (slotId : Nat) :
    ∃ q, q.items = t.freeSlots.items ++ [slotId] ∧
      t.enqueueSlotBack slotId = { t with freeSlots := q } := by
  unfold enqueueSlotBack
  cases hpush : t.freeSlots.push slotId with
  | none =>
    have := Fifo.push_eq_none_iff.mp hpush
    omega
  | some q => exact ⟨q, Fifo.push_items hpush, rfl⟩

/-- 手にした番号は、`free_slots` に返るか、entry に入る。 -/
theorem StoreOutcome.covered (ho : StoreOutcome u slotId key hash data (ret, t'))
    (hi : Intact u slotId) (hl : Linked u c) (hslot : slotId ≠ emptySlot)
    (hlt : u.freeSlots.items.length < h.slotRing)
    (hcov : ∀ id, 1 ≤ id → id ≤ h.entries → id ∈ u.freeSlots.items ∨ InUse u id ∨ id = slotId) :
    ∀ id, 1 ≤ id → id ≤ h.entries → id ∈ t'.freeSlots.items ∨ InUse t' id := by
  have hback : ∀ v, DataOnly u v → ∀ id, 1 ≤ id → id ≤ h.entries →
      id ∈ (v.enqueueSlotBack slotId).freeSlots.items ∨ InUse (v.enqueueSlotBack slotId) id := by
    intro v hd id hge hle
    rw [← hd.freeSlots] at hlt
    obtain ⟨q, hitems, heq⟩ := enqueueSlotBack_of_lt hlt slotId
    have hin : InUse (v.enqueueSlotBack slotId) id ↔ InUse u id :=
      (InUse.of_idxAt (idxAt_congr (ringOnly_enqueueSlotBack v slotId).bkts)).trans
        (InUse.of_idxAt hd.idxAt)
    rw [hin, heq]
    show id ∈ q.items ∨ _
    rw [hitems, hd.freeSlots, List.mem_append, List.mem_singleton]
    rcases hcov id hge hle with hid | hid | hid
    · exact Or.inl (Or.inl hid)
    · exact Or.inr hid
    · exact Or.inl (Or.inr hid)
  have hentry : t'.freeSlots = u.freeSlots →
      (∀ id, InUse t' id ↔ InUse u id ∨ (id = slotId ∧ slotId ≠ emptySlot)) →
      ∀ id, 1 ≤ id → id ≤ h.entries → id ∈ t'.freeSlots.items ∨ InUse t' id := by
    intro hring hin id hge hle
    rw [hring, hin]
    rcases hcov id hge hle with hid | hid | hid
    · exact Or.inl hid
    · exact Or.inr (Or.inl hid)
    · exact Or.inr (Or.inr ⟨hid, hslot⟩)
  cases ho with
  | present hroles hpres => exact hback _ hpres.dataOnly
  | placed hmiss hu1 hp hplaced hfill =>
    have hd := hu1.dataOnly
    refine hentry (hplaced.frame.2.trans hd.freeSlots) fun id => ?_
    rw [hplaced.inUse, InUse.of_idxAt hd.idxAt]
  | @linked u1 hext hmiss hu1 hfull halloc =>
    have hd := hu1.dataOnly
    refine hentry ((allocExtBkt_bkts u1).2.1.trans hd.freeSlots) fun id => ?_
    rw [inUse_linkExt (hd.linked hl) halloc, InUse.of_idxAt hd.idxAt]
  | noBucket hext hmiss hu1 hfull halloc => exact absurd halloc (hi.allocExtBkt_ne hl hu1 hfull)
  | noSpace hext hmiss hu1 => exact hback _ hu1.dataOnly

/-- 番号の残った `free_slots` から取る。 -/
theorem Settled.take (hs : Settled t) {t0 : Table h} (ht0 : Touched data t t0)
    (hne : t.freeSlots.items ≠ []) (key : Key) :
    t.freeSlots.items
        = (t0.takeSlot key data).1 :: (t0.takeSlot key data).2.freeSlots.items ∧
      (t0.takeSlot key data).1 ≠ emptySlot ∧
      Intact (t0.takeSlot key data).2 (t0.takeSlot key data).1 ∧
      ∃ c, Linked (t0.takeSlot key data).2 c := by
  have hs0 := hs.dataOnly ht0.dataOnly
  obtain ⟨c, hl⟩ := hs0.linked
  obtain ⟨-, -, ⟨hnil, -⟩ | hcons⟩ := takeSlot_cases t0 key data
  · rw [ht0.dataOnly.freeSlots] at hnil
    exact absurd hnil hne
  · refine ⟨by rw [← ht0.dataOnly.freeSlots]; exact hcons, fun hzero => ?_,
      hs0.intact.takeSlot key data, c, hl.takeSlot key data⟩
    refine hs0.intact.nonzero ?_
    rw [hcons, hzero]
    exact List.mem_cons_self

/-- **一回の追加で、番号は失われない。** -/
theorem Settled.add (hs : Settled t) (hleft : SlotLeft t op) :
    Settled (addKeyWithHash t op.key op.hash op.data).2 := by
  rcases addKeyWithHash_cases t op.key op.hash op.data with
    ⟨ret, t', heq, hpres⟩ | ⟨hmiss, t0, ht0, hout⟩
  · rw [heq]
    exact hs.dataOnly hpres.dataOnly
  · obtain ⟨hring, hslot, hi, c, hl⟩ := hs.take ht0 (hleft hmiss) op.key
    have hbkts : (t0.takeSlot op.key op.data).2.bkts = t.bkts :=
      (takeSlot_cases t0 op.key op.data).1.trans ht0.dataOnly.bkts
    generalize addKeyWithHash t op.key op.hash op.data = r at hout
    generalize t0.takeSlot op.key op.data = a at hout hring hslot hi hl hbkts
    obtain ⟨ret, t'⟩ := r
    obtain ⟨slotId, u⟩ := a
    refine ⟨hout.intact hi hslot hl, hout.linked_inv hl, hout.covered hi hl hslot ?_ ?_⟩
    · have hle := t.freeSlots.length_le
      rw [hring, List.length_cons] at hle
      exact hle
    · intro id hge hle
      have hin : InUse u id ↔ InUse t id := InUse.of_idxAt (idxAt_congr hbkts)
      rw [hin]
      rcases hs.covered id hge hle with hid | hid
      · rw [hring] at hid
        rcases List.mem_cons.mp hid with hid | hid
        · exact Or.inr (Or.inr hid)
        · exact Or.inl hid
      · exact Or.inr (Or.inl hid)

theorem settled_of_reaches {keyStore : Mem}
    (hr : Reaches addStep SlotLeft (Table.init h keyStore) t) : Settled t := by
  refine hr.invariant (Settled.init h keyStore) ?_
  intro u op u' hu hleft hstep
  obtain rfl := Option.some.inj hstep
  exact hu.add hleft

/-! ## 空きの探索 -/

theorem bktIdxOf_congr (hb : t'.bkts = t.bkts) (b : UInt32) (ss : List (Fin bucketEntries)) :
    bktIdxOf t' b ss = bktIdxOf t b ss := by
  induction ss with
  | nil => rfl
  | cons s ss ih => rw [bktIdxOf, bktIdxOf, ih, sigAt_congr hb]

theorem searchFull_congr (hb : t'.bkts = t.bkts) {b : UInt32} :
    SearchFull t' b ↔ SearchFull t b := by
  unfold SearchFull entryAt
  simp only [bktIdxOf_congr hb, idxAt_congr hb]

/-- 探索が空きを見つければ追加は終わり、見つけなければ次の区間へ同じ table で進む。 -/
theorem finishWith_makeSpace (hslot : slotId ≠ emptySlot) (next : Table h → Int × Table h)
    {bkt : BktRef} {b : UInt32} (hbkt : bkt = .main b) (secBkt : BktRef) (key : Key)
    (data : UInt64) (sig : UInt16) :
    0 ≤ (finishWith slotId next (cuckooMakeSpaceMw t bkt secBkt key data sig b slotId)).1 ∨
      (SearchFull t b ∧
        finishWith slotId next (cuckooMakeSpaceMw t bkt secBkt key data sig b slotId)
          = next t) := by
  subst hbkt
  rcases cuckooMakeSpaceMw_cases t b secBkt key data sig slotId with
    ⟨heq, hfull⟩ | ⟨ret, t', heq, hpres⟩ | ⟨t1, -, p, t', -, -, -, heq⟩
  · rw [heq]
    exact Or.inr ⟨hfull, rfl⟩
  · rw [heq]
    exact Or.inl hpres.ret_nonneg
  · rw [heq]
    refine Or.inl ?_
    have : slotId ≠ 0 := hslot
    show (0 : Int) ≤ (slotId : Int) - 1
    omega

/--
**extendable bucket の無い table で失敗する追加。**

探索の届く entry はどれも埋まっていて、検査のほかには、取った番号を返すだけである。
-/
theorem storeSlot_failed (hext : h.extTableSupport = false) (hslot : slotId ≠ emptySlot)
    (key : Key) (hash : UInt32) (data : UInt64) :
    0 ≤ (storeSlot u slotId key hash data).1 ∨
      (SearchFull u (getPrimBucketIndex h hash) ∧ SearchFull u (getSecBucketIndex h hash) ∧
        (checkDup u data key (getShortSig hash) (primOf h hash) (secOf h hash)).1 = -1 ∧
        storeSlot u slotId key hash data = (-enospc, Table.enqueueSlotBack
          (checkDup u data key (getShortSig hash) (primOf h hash) (secOf h hash)).2 slotId)) := by
  have hpos : (0 : Int) ≤ (slotId : Int) - 1 := by
    have : slotId ≠ 0 := hslot
    omega
  unfold storeSlot cuckooInsertMw
  rcases checkDup_cases u data key (getShortSig hash) (primOf h hash) (secOf h hash) with
    ⟨-, hret, hu1⟩ | ⟨hret, hpres⟩
  · generalize checkDup u data key (getShortSig hash) (primOf h hash) (secOf h hash) = r at hret hu1
    obtain ⟨ret, u1⟩ := r
    obtain rfl : ret = -1 := hret
    dsimp only
    rw [if_neg (by decide)]
    have hb := hu1.dataOnly.bkts
    cases u1.firstEmpty (primOf h hash) with
    | some i => exact Or.inl hpos
    | none =>
      rw [finishWith]
      rcases finishWith_makeSpace hslot _ (show primOf h hash = _ from rfl) (secOf h hash) key data
        (getShortSig hash) with hdone | ⟨hprim, heq⟩
      · exact Or.inl hdone
      · rw [heq]
        rcases finishWith_makeSpace hslot _ (show secOf h hash = _ from rfl) (primOf h hash) key data
          (getShortSig hash) with hdone | ⟨hsec, heq⟩
        · exact Or.inl hdone
        · rw [heq, hext]
          exact Or.inr ⟨(searchFull_congr hb).mp hprim, (searchFull_congr hb).mp hsec, rfl, rfl⟩
  · dsimp only
    rw [if_pos hret]
    exact Or.inl hpres.ret_nonneg

/-! ## 跡を残さない書き込み -/

/-- すでにある data を書いても、table は変わらない。 -/
theorem setData_same {id : Nat} (hd : t.storedData id = data) : t.setData id data = t := by
  have hload : data.toNat = t.keyStore.load (h.slotOffset id) 8 := by
    rw [← hd, storedData, UInt64.toNat_ofNat']
    exact Nat.mod_eq_of_lt Mem.load_lt
  unfold setData
  rw [hload, Mem.store_same]

theorem setKey_same {id : Nat} (hk : t.keyBytes id = h.keyBytesOf key) : t.setKey id key = t := by
  unfold setKey
  rw [Mem.write_same fun j hj => (List.map_inj_left.mp hk j (List.mem_range.mpr hj)).symm]

/-- 見つからなかった検査は、最初に合う entry が空である bucket があれば slot 0 の data を書く。 -/
theorem searchBuckets_missed (data : UInt64) (key : Key) (sig : UInt16) (bs : List BktRef) :
    ∀ {t : Table h}, (searchBuckets data key sig bs t).1 = -1 →
      (DummyHit t key sig bs ∧ (searchBuckets data key sig bs t).2 = t.setData emptySlot data) ∨
      (¬ DummyHit t key sig bs ∧ (searchBuckets data key sig bs t).2 = t) := by
  induction bs with
  | nil =>
    intro t _
    refine Or.inr ⟨?_, rfl⟩
    rintro ⟨b, hb, -⟩
    exact List.not_mem_nil hb
  | cons b bs ih =>
    intro t hret
    rcases searchAndUpdate_cases t data key b sig with ⟨hr, hnone⟩ | ⟨i, hsome, hr⟩
    · -- この bucket に合う entry は無い
      have hhit : DummyHit t key sig (b :: bs) ↔ DummyHit t key sig bs := by
        constructor
        · rintro ⟨d, hd, i, hfind, hidx⟩
          rcases List.mem_cons.mp hd with rfl | hd
          · rw [hnone] at hfind
            cases hfind
          · exact ⟨d, hd, i, hfind, hidx⟩
        · rintro ⟨d, hd, hfind⟩
          exact ⟨d, List.mem_cons_of_mem b hd, hfind⟩
      rw [searchBuckets, hr, if_neg (by simp)] at hret ⊢
      rw [hhit]
      exact ih hret
    · by_cases hzero : t.idxAt (b, i) = emptySlot
      · rw [searchBuckets, hr, hzero, if_neg (by simp)] at hret ⊢
        refine Or.inl ⟨⟨b, List.mem_cons_self, i, hsome, hzero⟩, ?_⟩
        rcases ih hret with ⟨-, heq⟩ | ⟨-, heq⟩
        · rw [heq]
          exact setData_setData t emptySlot data
        · exact heq
      · have hne : (t.idxAt (b, i) : Int) - 1 ≠ -1 := by
          have : t.idxAt (b, i) ≠ 0 := hzero
          omega
        rw [searchBuckets, hr, if_pos hne] at hret
        exact absurd hret hne

/-- 見つからなかった検査は、slot 0 に新しい data を書かない限り、table を変えない。 -/
theorem searchBuckets_same {sig : UInt16} {bs : List BktRef}
    (hdummy : DummyHit t key sig bs → t.storedData emptySlot = data)
    (hret : (searchBuckets data key sig bs t).1 = -1) :
    (searchBuckets data key sig bs t).2 = t := by
  rcases searchBuckets_missed data key sig bs hret with ⟨hhit, heq⟩ | ⟨-, heq⟩
  · rw [heq]
    exact setData_same (hdummy hhit)
  · exact heq

theorem MissedBy.checkDup_ret (hmiss : MissedBy t op) :
    (checkDup t op.data op.key (getShortSig op.hash) (primOf h op.hash) (secOf h op.hash)).1
      = -1 := by
  rcases checkDup_cases t op.data op.key (getShortSig op.hash) (primOf h op.hash)
    (secOf h op.hash) with ⟨-, hret, -⟩ | ⟨-, p, -, hhit, -⟩
  · exact hret
  · exact absurd hhit (hmiss p)

/-- 同じ key と data がもう書かれていれば、番号を取って書いても、減るのは `free_slots` だけである。 -/
theorem takeSlot_same {id : Nat} {rest : List Nat} (hring : t.freeSlots.items = id :: rest)
    (hkey : t.keyBytes id = h.keyBytesOf key) (hdata : t.storedData id = data) :
    ∃ q : Fifo Nat h.slotRing, q.items = rest ∧
      t.takeSlot key data = (id, { t with freeSlots := q }) := by
  rcases allocSlot_cases t with ⟨hnil, -⟩ | ⟨id', q, hitems, heq⟩
  · rw [hring] at hnil
    cases hnil
  · rw [hring] at hitems
    obtain ⟨rfl, hq⟩ := List.cons.inj hitems
    have hset : ({ t with freeSlots := q } : Table h).setData id data
        = { t with freeSlots := q } := setData_same hdata
    have hput : ({ t with freeSlots := q } : Table h).setKey id key
        = { t with freeSlots := q } := setKey_same hkey
    refine ⟨q, hq.symm, ?_⟩
    unfold Table.takeSlot
    rw [heq]
    dsimp only
    rw [hset, hput]

/-- **残った番号が一つで、同じ key と data がもう書かれていれば、失敗した追加は跡を残さない。** -/
theorem AlreadyWritten.same (hw : AlreadyWritten t op) (hext : h.extTableSupport = false)
    (hmiss : MissedBy t op) (hzero : emptySlot ∉ t.freeSlots.items)
    (hneg : (addKeyWithHash t op.key op.hash op.data).1 < 0) :
    (addKeyWithHash t op.key op.hash op.data).2 = t := by
  obtain ⟨⟨id, hring, hkey, hdata⟩, hdummy⟩ := hw
  have hslot : id ≠ emptySlot := by
    rintro rfl
    exact hzero (by rw [hring]; exact List.mem_cons_self)
  -- 番号を取った後の検査も、最初の検査と同じものを見る
  have hcheck : ∀ q, (checkDup { t with freeSlots := q } op.data op.key (getShortSig op.hash)
        (primOf h op.hash) (secOf h op.hash)).1 = -1 →
      (checkDup { t with freeSlots := q } op.data op.key (getShortSig op.hash) (primOf h op.hash)
        (secOf h op.hash)).2 = { t with freeSlots := q } := by
    intro q hret
    have hb : ({ t with freeSlots := q } : Table h).bkts = t.bkts := rfl
    have hchain := chain_congr (nextOf_congr hb) h.numBuckets (secOf h op.hash)
    unfold checkDup at hret ⊢
    rw [hchain] at hret ⊢
    exact searchBuckets_same hdummy hret
  obtain ⟨q, hq, htake⟩ := takeSlot_same hring hkey hdata
  have hret := hmiss.checkDup_ret
  rw [addKeyWithHash_eq, if_neg (not_not_intro hret), hcheck t.freeSlots hret, htake] at hneg ⊢
  rcases storeSlot_failed (u := { t with freeSlots := q }) hext hslot op.key op.hash op.data with
    hpos | ⟨-, -, hret', heq⟩
  · exact absurd hneg (Int.not_lt.mpr hpos)
  · have hlt : q.items.length < h.slotRing := by
      have hge : 8 ≤ h.entries := h.entries_ge
      have hle := h.entries_le_slotRing
      rw [hq, List.length_nil]
      omega
    obtain ⟨q', hitems, hback⟩ := enqueueSlotBack_of_lt (t := { t with freeSlots := q }) hlt id
    have hsame : q' = t.freeSlots := by
      refine Fifo.ext ?_
      rw [hitems, hring]
      show q.items ++ [id] = [id]
      rw [hq, List.nil_append]
    rw [heq, hcheck q hret', hback, hsame]

/-! ## 追加の全体 -/

/-- 空きがあれば、番号を取った追加は成功する。 -/
theorem HasRoom.nonneg (hroom : HasRoom t op.hash) (hs : Settled t) (hmiss : MissedBy t op)
    (hne : t.freeSlots.items ≠ []) : 0 ≤ (addKeyWithHash t op.key op.hash op.data).1 := by
  obtain ⟨t0, ht0, heq⟩ := addKeyWithHash_missed op.data hmiss
  obtain ⟨-, hslot, hi, c, hl⟩ := hs.take ht0 hne op.key
  have hbkts : (t0.takeSlot op.key op.data).2.bkts = t.bkts :=
    (takeSlot_cases t0 op.key op.data).1.trans ht0.dataOnly.bkts
  rw [heq]
  generalize t0.takeSlot op.key op.data = a at hslot hi hl hbkts
  obtain ⟨slotId, u⟩ := a
  have hout := storeSlot_outcome u slotId op.key op.hash op.data
  rcases hout.nonneg hi hl hslot with hpos | hext
  · exact hpos
  · rcases storeSlot_failed (u := u) hext hslot op.key op.hash op.data with
      hpos | ⟨hprim, hsec, -⟩
    · exact hpos
    · rw [searchFull_congr hbkts] at hprim hsec
      rcases hroom with hon | hroom | hroom
      · rw [hext] at hon
        cases hon
      · exact absurd hprim hroom
      · exact absurd hsec hroom

/-- 最初の検査で見つかる key の追加。 -/
theorem failsClean_of_found (hfound : ¬ MissedBy t op)
    (hstored : t.freeSlots.items = [] → ∃ id, InUse t id ∧ t.keyBytes id = h.keyBytesOf op.key) :
    FailsClean t op := by
  have hpos : 0 ≤ (addKeyWithHash t op.key op.hash op.data).1 := by
    rcases addKeyWithHash_cases t op.key op.hash op.data with ⟨ret, t', heq, hpres⟩ | ⟨hmiss, -⟩
    · rw [heq]
      exact hpres.ret_nonneg
    · exact absurd hmiss hfound
  refine ⟨fun hnil hnone => ?_, fun hneg => ?_, fun hmiss => absurd hmiss hfound⟩
  · obtain ⟨id, hid, hkey⟩ := hstored hnil
    exact absurd hkey (hnone id hid)
  · exact absurd hneg (Int.not_lt.mpr hpos)

/-! ### 失敗した追加が残す跡 -/

/-- 写した key は、その slot にある。 -/
theorem keyBytes_takeSlot (t : Table h) (key : Key) (data : UInt64) :
    (t.takeSlot key data).2.keyBytes (t.takeSlot key data).1 = h.keyBytesOf key :=
  List.map_congr_left fun _ hj => Mem.write_inside (List.mem_range.mp hj)

/-- key の書き込みは、その slot の data も slot 0 の data も変えない。 -/
theorem storedData_setKey_before {id id' : Nat} (hle : h.slotOffset id' ≤ h.slotOffset id) :
    (t.setKey id key).storedData id' = t.storedData id' := by
  unfold storedData
  exact congrArg UInt64.ofNat (Mem.load_write_of_disjoint (Or.inr (by omega)))

/-- 一度書かれた data は、同じ data をほかの slot に書いても残る。 -/
theorem storedData_setData_again {id id' : Nat} (hd : t.storedData id' = data) :
    (t.setData id data).storedData id' = data := by
  by_cases he : h.slotOffset id = h.slotOffset id'
  · have hself := storedData_setData_self t id data
    unfold storedData at hself ⊢
    rwa [he] at hself
  · rw [storedData_setData_of_ne t data he]
    exact hd

/-- slot を取って書いた後も、slot 0 にあった同じ data は残る。 -/
theorem storedData_takeSlot (hd : t.storedData emptySlot = data) (key : Key) :
    (t.takeSlot key data).2.storedData emptySlot = data := by
  refine (storedData_setKey_before ?_).trans (storedData_setData_again ?_)
  · rw [slotOffset_emptySlot]
    exact Nat.zero_le _
  · rw [storedData_congr (ringOnly_allocSlot t).keyStore]
    exact hd

theorem storedData_takeSlot_self (t : Table h) (key : Key) (data : UInt64) :
    (t.takeSlot key data).2.storedData (t.takeSlot key data).1 = data :=
  (storedData_setKey_before (Nat.le_refl _)).trans (storedData_setData_self _ _ data)

theorem Touched.storedData_kept (ht : Touched data t t') {id : Nat} (hd : t.storedData id = data) :
    t'.storedData id = data := by
  rcases ht with rfl | rfl
  · exact hd
  · exact storedData_setData_again hd

/-- 先頭を末尾に回しても同じ列は、一つの要素しか持たない。 -/
theorem rotate_eq_self {id : Nat} {rest : List Nat} (hnodup : (id :: rest).Nodup)
    (he : rest ++ [id] = id :: rest) : rest = [] := by
  cases rest with
  | nil => rfl
  | cons x xs =>
    obtain ⟨rfl, -⟩ := List.cons.inj he
    exact absurd List.mem_cons_self (List.nodup_cons.mp hnodup).1

/-- 見つからなかった最初の検査の後の table。 -/
theorem MissedBy.checked (hmiss : MissedBy t op) : ∃ t0, Touched op.data t t0 ∧
    (DummyHit t op.key (getShortSig op.hash) (searched t (primOf h op.hash) (secOf h op.hash)) →
      t0.storedData emptySlot = op.data) ∧
    addKeyWithHash t op.key op.hash op.data
      = storeSlot (t0.takeSlot op.key op.data).2 (t0.takeSlot op.key op.data).1 op.key op.hash
          op.data := by
  have hret := hmiss.checkDup_ret
  rw [addKeyWithHash_eq, if_neg (not_not_intro hret)]
  rcases searchBuckets_missed op.data op.key (getShortSig op.hash)
    (searched t (primOf h op.hash) (secOf h op.hash)) hret with ⟨-, heq⟩ | ⟨hno, heq⟩
  · refine ⟨_, Or.inr heq, fun _ => ?_, rfl⟩
    show storedData (searchBuckets _ _ _ _ t).2 _ = _
    rw [heq]
    exact storedData_setData_self t emptySlot op.data
  · exact ⟨_, Or.inl heq, fun hhit => absurd hhit hno, rfl⟩

/--
失敗した追加の後の table。

取った番号は `free_slots` の末尾に返り、slot には key と data が残る。
-/
theorem Settled.trace (hs : Settled t) (hext : h.extTableSupport = false) (hmiss : MissedBy t op)
    (hne : t.freeSlots.items ≠ []) (hneg : (addKeyWithHash t op.key op.hash op.data).1 < 0) :
    ∃ id rest, t.freeSlots.items = id :: rest ∧
      (addKeyWithHash t op.key op.hash op.data).2.freeSlots.items = rest ++ [id] ∧
      (addKeyWithHash t op.key op.hash op.data).2.keyBytes id = h.keyBytesOf op.key ∧
      (addKeyWithHash t op.key op.hash op.data).2.storedData id = op.data ∧
      (DummyHit t op.key (getShortSig op.hash) (searched t (primOf h op.hash) (secOf h op.hash)) →
        (addKeyWithHash t op.key op.hash op.data).2.storedData emptySlot = op.data) := by
  obtain ⟨t0, ht0, hdummy, heq⟩ := hmiss.checked
  obtain ⟨hitems, hslot, -⟩ := hs.take ht0 hne op.key
  rw [heq] at hneg ⊢
  rcases storeSlot_failed (u := (t0.takeSlot op.key op.data).2) hext hslot op.key op.hash op.data
    with hpos | ⟨-, -, hret, hres⟩
  · exact absurd hneg (Int.not_lt.mpr hpos)
  rcases checkDup_cases (t0.takeSlot op.key op.data).2 op.data op.key (getShortSig op.hash)
    (primOf h op.hash) (secOf h op.hash) with ⟨-, -, hu1⟩ | ⟨hne', -⟩
  · generalize (checkDup (t0.takeSlot op.key op.data).2 op.data op.key (getShortSig op.hash)
      (primOf h op.hash) (secOf h op.hash)).2 = u1 at hres hu1
    have hlt : u1.freeSlots.items.length < h.slotRing := by
      have hle := t.freeSlots.length_le
      rw [hitems, List.length_cons] at hle
      rw [hu1.dataOnly.freeSlots]
      exact hle
    obtain ⟨q, hq, hback⟩ := enqueueSlotBack_of_lt hlt (t0.takeSlot op.key op.data).1
    rw [hu1.dataOnly.freeSlots] at hq
    rw [hres, hback]
    refine ⟨_, _, hitems, hq, ?_, ?_, fun hhit => ?_⟩
    · exact (hu1.keyBytes _).trans (keyBytes_takeSlot t0 op.key op.data)
    · exact hu1.storedData_kept (storedData_takeSlot_self t0 op.key op.data)
    · exact hu1.storedData_kept (storedData_takeSlot (hdummy hhit) op.key)
  · exact absurd hret hne'

/-- **失敗した追加が何も変えなかったなら、書いたものはもうあった。** -/
theorem Settled.alreadyWritten (hs : Settled t) (hext : h.extTableSupport = false)
    (hmiss : MissedBy t op) (hne : t.freeSlots.items ≠ [])
    (hneg : (addKeyWithHash t op.key op.hash op.data).1 < 0) (hclean : FailsClean t op) :
    AlreadyWritten t op := by
  obtain ⟨-, hks, hring, -⟩ := hclean.unchanged hneg
  obtain ⟨id, rest, hitems, hback, hkey, hdata, hdummy⟩ := hs.trace hext hmiss hne hneg
  rw [hring, hitems] at hback
  have hnodup := hs.partitioned.ring_nodup
  rw [hitems] at hnodup
  refine ⟨⟨id, ?_, ?_, ?_⟩, fun hhit => ?_⟩
  · rw [hitems, rotate_eq_self hnodup hback.symm]
  · rw [← hkey]
    exact keyBytes_congr fun _ _ => by rw [hks]
  · rw [← hdata]
    exact storedData_congr hks.symm id
  · rw [← hdummy hhit]
    exact storedData_congr hks.symm emptySlot

theorem Settled.harmless (hs : Settled t)
    (hneg : (addKeyWithHash t op.key op.hash op.data).1 < 0) (hclean : FailsClean t op) :
    Harmless t op := by
  have hmiss : MissedBy t op := by
    rcases addKeyWithHash_cases t op.key op.hash op.data with ⟨ret, t', heq, hpres⟩ | ⟨hmiss, -⟩
    · rw [heq] at hneg
      exact absurd hneg (Int.not_lt.mpr hpres.ret_nonneg)
    · exact hmiss
  have hne : t.freeSlots.items ≠ [] := by
    intro hnil
    refine hclean.nonzero hmiss ?_
    rcases allocSlot_cases t with ⟨-, heq⟩ | ⟨id, q, hitems, -⟩
    · rw [heq]
    · rw [hnil] at hitems
      cases hitems
  refine Or.inr ⟨hne, ?_⟩
  by_cases hext : h.extTableSupport = true
  · exact Or.inl (Or.inl hext)
  · exact Or.inr (hs.alreadyWritten (by simpa using hext) hmiss hne hneg hclean)

theorem Settled.failsClean (hs : Settled t) (hop : Harmless t op) : FailsClean t op := by
  by_cases hmiss : MissedBy t op
  · rcases hop with ⟨hfound, -⟩ | ⟨hne, hroom⟩
    · exact absurd hmiss hfound
    · refine ⟨fun hnil => absurd hnil hne, fun hneg => ?_, fun _ hzero => ?_⟩
      · rcases hroom with hroom | hwritten
        · exact absurd hneg (Int.not_lt.mpr (hroom.nonneg hs hmiss hne))
        · by_cases hext : h.extTableSupport = true
          · have hroom : HasRoom t op.hash := Or.inl hext
            exact absurd hneg (Int.not_lt.mpr (hroom.nonneg hs hmiss hne))
          · have hsame := hwritten.same (by simpa using hext) hmiss hs.intact.nonzero hneg
            rw [hsame]
            exact ⟨rfl, rfl, rfl, rfl⟩
      · rcases allocSlot_cases t with ⟨hnil, -⟩ | ⟨id, q, hitems, heq⟩
        · exact hne hnil
        · rw [heq] at hzero
          refine hs.intact.nonzero ?_
          rw [hitems, ← hzero]
          exact List.mem_cons_self
  · refine failsClean_of_found hmiss ?_
    rcases hop with ⟨-, hstored⟩ | ⟨hne, -⟩
    · exact hstored
    · exact fun hnil => absurd hnil hne

/--
**失敗した追加が何も変えないための条件。**

新しい key の追加のたびに `free_slots` に番号があった実行では、番号は失われず、slot 0 は現れない。
そこからの追加は、key の入る空きがあるか、書き込みが跡を残さなければ、失敗しても何も変えない。
逆に、負の値を返して何も変えないのは、このときに限る。
-/
theorem failed_insert_clean {keyStore : Mem}
    (hr : Reaches addStep SlotLeft (Table.init h keyStore) t) :
    Partitioned t ∧ (∀ op, Harmless t op → FailsClean t op) ∧
      ∀ op, (addKeyWithHash t op.key op.hash op.data).1 < 0 → FailsClean t op → Harmless t op := by
  have hs := settled_of_reaches hr
  exact ⟨hs.partitioned, fun _ hop => hs.failsClean hop, fun _ hneg hc => hs.harmless hneg hc⟩

/-- extendable bucket の無い、entry が 9 個の table。bucket は二つある。 -/
def nineKeys : RteHash :=
  { eightKeys with
    entries := bucketEntries + 1
    extTableSupport := false
    entries_ge := by decide
    entries_le := by decide }

/-- 残った一つの slot には、0 の並ぶ key と data がもうある。 -/
theorem packed_zeroKey : (packed nineKeys).freeSlots.items = [9] ∧
    (packed nineKeys).keyBytes 9 = nineKeys.keyBytesOf (keyOf 0) ∧
    (packed nineKeys).storedData 9 = 0 ∧ (packed nineKeys).storedData emptySlot = 0 := by
  decide +kernel

theorem packed_zeroKey_fails : (addKeyWithHash (packed nineKeys) (keyOf 0) 0 0).1 = -enospc := by
  have hcrowd : Crowded (packed nineKeys) 0 := by decide +kernel
  rw [addKeyWithHash_crowded hcrowd hcrowd (by decide +kernel) rfl (by decide +kernel)]
  rfl

/-- 一杯の bucket への 0 の並ぶ key の追加は、`-ENOSPC` を返し、何も変えない。 -/
theorem failed_insert_clean_zeroKey : ∃ t : Table nineKeys,
    Reaches addStep SlotLeft (Table.init nineKeys fun _ => 0) t ∧ Partitioned t ∧
      (addKeyWithHash t (keyOf 0) 0 0).1 = -enospc ∧ FailsClean t ⟨keyOf 0, 0, 0⟩ := by
  have hok : Along addStep (fun t _ => t.freeSlots.items ≠ []) (Table.init nineKeys fun _ => 0)
      eightAdds := by decide +kernel
  have hr : Reaches addStep SlotLeft (Table.init nineKeys fun _ => 0) (packed nineKeys) :=
    (reaches_of_along hok rfl).mono fun u a hne _ => hne
  obtain ⟨hitems, hkey, hdata, hdummy⟩ := packed_zeroKey
  obtain ⟨hpart, hclean, -⟩ := failed_insert_clean hr
  refine ⟨_, hr, hpart, packed_zeroKey_fails, hclean _ (Or.inr ⟨?_, Or.inr ⟨?_, ?_⟩⟩)⟩
  · rw [hitems]
    exact List.cons_ne_nil 9 []
  · exact ⟨9, hitems, hkey, hdata⟩
  · exact fun _ => hdummy

/-! ## slot の尽きた追加 -/

/-- 八個の key は 0 番の bucket に、残りは 1 番の bucket に入る。 -/
def spill (n : Nat) : UInt32 := if n ≤ 8 then 0 else 1

def tenSpilled : List AddOp := (List.range' 1 10).map fun n => ⟨keyOf n, spill n, 0⟩

theorem tenSpilled_full : (exec addStep (Table.init tenKeys fun _ => 0) tenSpilled).map
    (fun t => (t.freeSlots.items, t.keyStore 8, (addKeyWithHash t (keyOf 11) (spill 11) 0).1,
      (addKeyWithHash t (keyOf 11) (spill 11) 0).2.keyStore 8)) = some ([], 0, -1, 11) := by
  decide +kernel

/--
`free_slots` が空のときの、十一個目の key の追加。

`-ENOSPC` ではなく -1 を返し、slot 0 に key を写してしまう。
-/
theorem failed_insert_dirty : ∃ t : Table tenKeys,
    Reaches addStep Always (Table.init tenKeys fun _ => 0) t ∧ t.freeSlots.items = [] ∧
      (addKeyWithHash t (keyOf 11) (spill 11) 0).1 = -1 ∧
      ¬ FailsClean t ⟨keyOf 11, spill 11, 0⟩ := by
  obtain ⟨t, hrun, hres⟩ := Option.map_eq_some_iff.mp tenSpilled_full
  obtain ⟨hring, hres⟩ := Prod.mk.inj hres
  obtain ⟨hbefore, hres⟩ := Prod.mk.inj hres
  obtain ⟨hret, hafter⟩ := Prod.mk.inj hres
  refine ⟨t, reaches_of_exec (fun _ _ _ => trivial) hrun, hring, hret, fun hclean => ?_⟩
  have hneg : (addKeyWithHash t (keyOf 11) (spill 11) 0).1 < 0 := by
    rw [hret]
    decide
  have hsame := (hclean.unchanged hneg).2.1
  rw [hsame, hbefore] at hafter
  exact absurd hafter (by decide)

end L3fwd.Hash
