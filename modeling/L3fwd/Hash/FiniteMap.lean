import L3fwd.Hash.Capacity
import L3fwd.Hash.Stored

/-!
# 有限写像としての table

key の長さが 8 の table への逐次の追加は、有限写像への書き込みである。

`log` は、0 以上を返した追加の記録で、key ごとに返り値と最後の data を持つ。
`Represents` は、table がちょうどこの記録を持つことを言う。

新しい slot の位置が 32 bit に収まる追加だけの実行では、いつも `Represents` が成り立つ。
収まらない追加では、積が折り返して他の slot の key を上書きする。
-/

namespace L3fwd.Hash

open Infra Table

variable {h : RteHash} {t t' u : Table h} {c slotId : Nat} {key : Key} {data : UInt64} {ret : Int}
  {hash : Key8 → UInt32}

/-- 0 以上を返した追加の記録。返り値と最後の data である。 -/
abbrev AddLog := Key8 → Option (Int × UInt64)

/-! ## 記録と table -/

/-- table は記録のとおりの key を、それぞれ一つの entry に持つ。 -/
structure Represents (hash : Key8 → UInt32) (t : Table h) (log : AddLog) : Prop where
  absent : ∀ k, log k = none → ∀ p, t.idxAt p ≠ emptySlot → t.storedKey (t.idxAt p) ≠ k
  entry : ∀ k v d, log k = some (v, d) → ∃ p, t.idxAt p ≠ emptySlot ∧
    t.storedKey (t.idxAt p) = k ∧
    (∀ q, t.idxAt q ≠ emptySlot → t.storedKey (t.idxAt q) = k → q = p) ∧
    Home t (hash k) p.1 ∧ t.sigAt p = getShortSig (hash k) ∧
    v = (t.idxAt p : Int) - 1 ∧ t.storedData (t.idxAt p) = d
  range : ∀ k v d, log k = some (v, d) → 0 ≤ v ∧ v < h.entries
  distinct : ∀ k v d k' v' d', log k = some (v, d) → log k' = some (v', d') → k ≠ k' → v ≠ v'

/-- 使われている slot の key と data が、ちょうど記録である。 -/
def Logged (t : Table h) (log : AddLog) : Prop :=
  ∀ k v d, log k = some (v, d) ↔
    ∃ id, InUse t id ∧ t.storedKey id = k ∧ v = (id : Int) - 1 ∧ t.storedData id = d

theorem Logged.eq_none {log : AddLog} (hl : Logged t log) {k : Key8} :
    log k = none ↔ ∀ id, InUse t id → t.storedKey id ≠ k := by
  constructor
  · intro hnone id hid hkey
    have := (hl k _ _).mpr ⟨id, hid, hkey, rfl, rfl⟩
    rw [hnone] at this
    cases this
  · intro hno
    cases hk : log k with
    | none => rfl
    | some vd =>
      obtain ⟨v, d⟩ := vd
      obtain ⟨id, hid, hkey, -⟩ := (hl k v d).mp hk
      exact absurd hkey (hno id hid)

/-- 使われている slot が変わらなければ、記録も変わらない。 -/
theorem Logged.same {log : AddLog} (hl : Logged t log) (hin : ∀ id, InUse t' id ↔ InUse t id)
    (hkey : ∀ id, InUse t id → t'.storedKey id = t.storedKey id)
    (hdata : ∀ id, InUse t id → t'.storedData id = t.storedData id) : Logged t' log := by
  intro k v d
  rw [hl k v d]
  constructor
  · rintro ⟨id, hid, hk, hv, hd⟩
    exact ⟨id, (hin id).mpr hid, (hkey id hid).trans hk, hv, (hdata id hid).trans hd⟩
  · rintro ⟨id, hid, hk, hv, hd⟩
    have hid' := (hin id).mp hid
    exact ⟨id, hid', (hkey id hid').symm.trans hk, hv, (hdata id hid').symm.trans hd⟩

/-- 一つの slot に新しい key と data が加わるか、その data だけが書き換わる。 -/
theorem Logged.record {log : AddLog} (hl : Logged t log) {k : Key8} {id : Nat} {d : UInt64}
    (hin : ∀ j, InUse t' j ↔ InUse t j ∨ j = id) (hid : InUse t' id)
    (hself : t'.storedKey id = k ∧ t'.storedData id = d)
    (hkey : ∀ j, InUse t j → t'.storedKey j = t.storedKey j)
    (hdata : ∀ j, InUse t j → j ≠ id → t'.storedData j = t.storedData j)
    (hfresh : ∀ j, InUse t j → t.storedKey j = k → j = id) :
    Logged t' (Function.update log k (some ((id : Int) - 1, d))) := by
  intro k' v d'
  by_cases hk : k' = k
  · subst hk
    rw [Function.update_self, Option.some.injEq, Prod.mk.injEq]
    constructor
    · rintro ⟨rfl, rfl⟩
      exact ⟨id, hid, hself.1, rfl, hself.2⟩
    · rintro ⟨j, hj, hjk, rfl, hjd⟩
      have hji : j = id := by
        rcases (hin j).mp hj with hj | hj
        · exact hfresh j hj ((hkey j hj).symm.trans hjk)
        · exact hj
      subst hji
      exact ⟨rfl, hself.2.symm.trans hjd⟩
  · rw [Function.update_of_ne hk, hl k' v d']
    have hne : ∀ j, t'.storedKey j = k' → j ≠ id := by
      rintro j hj rfl
      exact hk (hj.symm.trans hself.1)
    constructor
    · rintro ⟨j, hj, hjk, hv, hd⟩
      have hjk' := (hkey j hj).trans hjk
      exact ⟨j, (hin j).mpr (Or.inl hj), hjk', hv, (hdata j hj (hne j hjk')).trans hd⟩
    · rintro ⟨j, hj, hjk, hv, hd⟩
      rcases (hin j).mp hj with hj | hj
      · exact ⟨j, hj, (hkey j hj).symm.trans hjk, hv, (hdata j hj (hne j hjk)).symm.trans hd⟩
      · exact absurd hj (hne j hjk)

/-! ## slot に書いた後 -/

/--
**まだ格納されていない key の追加。**

番号 `slotId` の entry が一つ増えるか、使われている slot は変わらない。
key store は slot 0 の data のほかは変わらない。
-/
theorem StoreOutcome.contents (ho : StoreOutcome u slotId key (hash (key8 key)) data (ret, t'))
    (hl : Linked u c) (hs : Stored hash u)
    (hfresh : ∀ id, InUse u id → u.storedKey id ≠ key8 key)
    (hslot : slotId ≠ emptySlot → u.storedKey slotId = key8 key) :
    Stored hash t' ∧ (∃ u1, Touched data u u1 ∧ t'.keyStore = u1.keyStore) ∧
      ((ret = (slotId : Int) - 1 ∧
          ∀ id, InUse t' id ↔ InUse u id ∨ (id = slotId ∧ slotId ≠ emptySlot)) ∨
        (ret = -enospc ∧ ∀ id, InUse t' id ↔ InUse u id)) := by
  have hnew : ∀ u1, Touched data u u1 → slotId ≠ emptySlot →
      u1.storedKey slotId = key8 key ∧ Fresh u1 slotId := by
    intro u1 hu1 hne
    have hkey : u1.storedKey slotId = key8 key := (hu1.dataOnly.storedKey slotId).trans (hslot hne)
    refine ⟨hkey, fun id hid => ?_⟩
    rw [hkey, hu1.dataOnly.storedKey]
    exact hfresh id ((InUse.of_idxAt hu1.dataOnly.idxAt).mp hid)
  cases ho with
  | present hroles hpres =>
    -- 検査で見つかるなら、その key は格納されていたことになる
    obtain ⟨p, -, hhit, -⟩ := hpres
    exact absurd hhit.storedKey (hfresh _ ⟨hhit.2.2, p, rfl⟩)
  | @placed u1 p t' hmiss hu1 hp hplaced hfill =>
    refine ⟨?_, ⟨u1, hu1, hplaced.keyStore⟩, Or.inl ⟨rfl, fun id => ?_⟩⟩
    · refine (hs.dataOnly hu1.dataOnly).placed hplaced fun hne => ?_
      obtain ⟨hkey, hfr⟩ := hnew u1 hu1 hne
      rw [hkey]
      refine ⟨rfl, ?_, hfr⟩
      rw [Home, hu1.dataOnly.chain]
      exact hp
    · rw [hplaced.inUse, InUse.of_idxAt hu1.dataOnly.idxAt]
  | @linked u1 hext hmiss hu1 hfull halloc =>
    have hd := hu1.dataOnly
    have hl1 := hd.linked hl
    refine ⟨?_, ⟨u1, hu1, linkExt_keyStore⟩, Or.inl ⟨rfl, fun id => ?_⟩⟩
    · refine (hs.dataOnly hd).linkExt hl1 halloc fun hne => ?_
      obtain ⟨hkey, hfr⟩ := hnew u1 hu1 hne
      rw [hkey]
      exact ⟨rfl, hfr⟩
    · rw [inUse_linkExt hl1 halloc, InUse.of_idxAt hd.idxAt]
  | @noBucket u1 hext hmiss hu1 hfull halloc =>
    obtain ⟨hb, -, hk⟩ := allocExtBkt_bkts u1
    have hd := hu1.dataOnly
    refine ⟨?_, ⟨u1, hu1, hk⟩, Or.inr ⟨rfl, fun id => ?_⟩⟩
    · exact (hs.dataOnly hd).congr hb fun id _ => storedKey_congr hk id
    · rw [InUse.of_idxAt (idxAt_congr hb), InUse.of_idxAt hd.idxAt]
  | @noSpace u1 hext hmiss hu1 =>
    have hring := ringOnly_enqueueSlotBack u1 slotId
    have hd := hu1.dataOnly
    refine ⟨(hs.dataOnly hd).ringOnly hring, ⟨u1, hu1, hring.keyStore⟩,
      Or.inr ⟨rfl, fun id => ?_⟩⟩
    rw [InUse.of_idxAt (idxAt_congr hring.bkts), InUse.of_idxAt hd.idxAt]

/-! ## slot の中身 -/

theorem storedData_congr (hk : t'.keyStore = t.keyStore) (id : Nat) :
    t'.storedData id = t.storedData id := by
  unfold storedData
  rw [hk]

section

variable (hlen : h.keyLen = 8)
include hlen

/-- 取った slot には、追加する key と data がある。 -/
theorem takeSlot_self (t : Table h) (key : Key) (data : UInt64) :
    (t.takeSlot key data).2.storedKey (t.takeSlot key data).1 = key8 key ∧
      (t.takeSlot key data).2.storedData (t.takeSlot key data).1 = data := by
  refine ⟨storedKey_setKey_self hlen _ _ key, ?_⟩
  exact (storedData_setKey hlen _ _ key _).trans (storedData_setData_self _ _ data)

/-- 位置の違う slot は変わらない。 -/
theorem takeSlot_other (t : Table h) (key : Key) (data : UInt64) {id : Nat}
    (hne : h.slotOffset (t.takeSlot key data).1 ≠ h.slotOffset id) :
    (t.takeSlot key data).2.storedKey id = t.storedKey id ∧
      (t.takeSlot key data).2.storedData id = t.storedData id := by
  constructor
  · refine (storedKey_setKey_of_ne hlen _ key hne).trans ?_
    rw [storedKey_setData]
    exact storedKey_congr (ringOnly_allocSlot t).keyStore id
  · refine (storedData_setKey hlen _ _ key _).trans ((storedData_setData_of_ne _ data hne).trans ?_)
    exact storedData_congr (ringOnly_allocSlot t).keyStore id

/-- 検査は、使われている slot の data を変えない。 -/
theorem Touched.storedData (ht : Touched data t t') {id : Nat} (hid : Fits h id)
    (hne : id ≠ emptySlot) : t'.storedData id = t.storedData id := by
  rcases ht with rfl | rfl
  · rfl
  · exact storedData_setData_of_ne t data (slotOffset_ne hlen (fits_zero h) hid hne.symm)

end

/-! ## 逐次の追加 -/

/-- table と、今までの追加の記録。 -/
structure MapState (h : RteHash) where
  table : Table h
  log : AddLog

namespace MapState

def init (h : RteHash) (keyStore : Mem) : MapState h where
  table := Table.init h keyStore
  log := fun _ => none

/-- 一回の追加。0 以上を返したときに記録する。 -/
def add (hash : Key8 → UInt32) (s : MapState h) (op : Key × UInt64) : MapState h :=
  let r := addKeyWithHash s.table op.1 (hash (key8 op.1)) op.2
  { table := r.2
    log := if 0 ≤ r.1 then Function.update s.log (key8 op.1) (some (r.1, op.2)) else s.log }

def step (hash : Key8 → UInt32) (s : MapState h) (op : Key × UInt64) : Option (MapState h) :=
  some (s.add hash op)

end MapState

/-- 新しい key の追加では、`free_slots` の先頭の slot の位置が 32 bit に収まる。 -/
def SlotFits (s : MapState h) (op : Key × UInt64) : Prop :=
  s.log (key8 op.1) = none → ∀ id ∈ s.table.freeSlots.items.head?, Fits h id

/-- 逐次の追加の不変条件。slot 0 が使われた後は、slot 0 の key は格納されていない。 -/
structure MapInv (hash : Key8 → UInt32) (s : MapState h) : Prop where
  capacity : CapacityInv s.table
  owned : Owned s.table (fun _ : Unit => 0)
  stored : Stored hash s.table
  fits : ∀ id, InUse s.table id → Fits h id
  dummy : Intact s.table 0 ∨
    ∀ id, InUse s.table id → s.table.storedKey id ≠ s.table.storedKey emptySlot
  logged : Logged s.table s.log

theorem MapInv.init (hash : Key8 → UInt32) (h : RteHash) (keyStore : Mem) :
    MapInv hash (MapState.init h keyStore) where
  capacity := ⟨⟨0, Linked.init h keyStore⟩, Or.inl (Intact.init h keyStore)⟩
  owned := Owned.init h keyStore
  stored := Stored.init hash h keyStore
  fits := by
    rintro id ⟨hne, p, hp⟩
    exact absurd hp.symm hne
  dummy := Or.inl (Intact.init h keyStore)
  logged := by
    intro k v d
    constructor
    · intro hk
      cases hk
    · rintro ⟨id, ⟨hne, p, hp⟩, -⟩
      exact absurd hp.symm hne

variable {s : MapState h}

/-- 格納された key が隠れることはない。 -/
theorem MapInv.not_masked (hi : MapInv hash s) {k : Key8} {sig : UInt16} {b : BktRef} :
    ¬ Masked s.table k sig b := by
  rintro ⟨i, j, hij, hzero, -, hdummy, hne, -, hkey⟩
  rcases hi.dummy with hint | hdis
  · exact hint.packed b i j hij hne hzero
  · exact hdis _ ⟨hne, _, rfl⟩ (hkey.trans hdummy.symm)

/-- 検査で見つからなかった key は格納されていない。 -/
theorem MapInv.fresh (hi : MapInv hash s)
    (hm : Missed s.table key (getShortSig (hash (key8 key))) (primOf h (hash (key8 key)))
      (secOf h (hash (key8 key)))) {id : Nat} (hid : InUse s.table id) :
    s.table.storedKey id ≠ key8 key :=
  hi.stored.missed hm (fun _ _ => hi.not_masked) hid

/-- 使われている slot が変わらなければ、記録もそのままである。 -/
theorem MapInv.kept (hi : MapInv hash s) (hcap : CapacityInv t')
    (howned : Owned t' (fun _ : Unit => 0)) (hstored : Stored hash t')
    (hin : ∀ id, InUse t' id ↔ InUse s.table id)
    (hsame : ∀ id, InUse s.table id →
      t'.storedKey id = s.table.storedKey id ∧ t'.storedData id = s.table.storedData id)
    (hdummy : Intact t' 0 ∨ ∀ id, InUse t' id → t'.storedKey id ≠ t'.storedKey emptySlot) :
    MapInv hash ⟨t', s.log⟩ :=
  ⟨hcap, howned, hstored, fun id hid => hi.fits id ((hin id).mp hid), hdummy,
    hi.logged.same hin (fun id hid => (hsame id hid).1) fun id hid => (hsame id hid).2⟩

/-- 0 でない番号を取った追加の後も、slot 0 は使われていない。 -/
theorem MapInv.intact_insert {t0 : Table h} {hv : UInt32} (hi : MapInv hash s)
    (ht0 : Touched data s.table t0)
    (hout : StoreOutcome (t0.takeSlot key data).2 (t0.takeSlot key data).1 key hv data (ret, t'))
    (hslot : (t0.takeSlot key data).1 ≠ emptySlot) : Intact t' 0 := by
  obtain ⟨⟨c, hl⟩, hphase⟩ := hi.capacity
  have hd := ht0.dataOnly
  obtain ⟨-, -, hring⟩ := takeSlot_cases t0 key data
  rw [hd.freeSlots] at hring
  have hint : Intact s.table 0 := by
    rcases hphase with hint | hall
    · exact hint
    · rcases hring with ⟨-, hzero, -⟩ | hcons
      · exact absurd hzero hslot
      · exact absurd (hall _ (by rw [hcons]; exact List.mem_cons_self)) hslot
  exact hout.intact ((hint.dataOnly hd).takeSlot key data) hslot ((hd.linked hl).takeSlot key data)

section

variable (hlen : h.keyLen = 8)
include hlen

/-- 格納された key の追加は、その data だけを書き換える。 -/
theorem MapInv.update {bkt altBkt : BktRef} {sig : UInt16} (hi : MapInv hash s)
    (hpres : Present s.table key data sig bkt altBkt ret t') :
    MapInv hash ⟨t', Function.update s.log (key8 key) (some (ret, data))⟩ := by
  have hd := hpres.dataOnly
  have hin : ∀ id, InUse t' id ↔ InUse s.table id := fun id => InUse.of_idxAt hd.idxAt
  obtain ⟨p, t1, hhit, ht1, rfl, rfl⟩ := hpres
  have huse : InUse s.table (s.table.idxAt p) := ⟨hhit.2.2, p, rfl⟩
  refine ⟨hi.capacity.dataOnly hd, hd.owned hi.owned, hi.stored.dataOnly hd,
    fun id hid => hi.fits id ((hin id).mp hid), ?_, ?_⟩
  · rcases hi.dummy with hint | hdis
    · exact Or.inl (hint.dataOnly hd)
    · refine Or.inr fun id hid => ?_
      rw [hd.storedKey, hd.storedKey]
      exact hdis id ((hin id).mp hid)
  · refine hi.logged.record (fun j => ?_) ((hin _).mpr huse) ⟨?_, ?_⟩ (fun j _ => hd.storedKey j)
      ?_ ?_
    · rw [hin]
      constructor
      · exact Or.inl
      · rintro (hj | rfl)
        · exact hj
        · exact huse
    · exact (hd.storedKey _).trans hhit.storedKey
    · exact storedData_setData_self _ _ data
    · intro j hj hne
      have hoff := slotOffset_ne hlen (hi.fits _ huse) (hi.fits j hj) hne.symm
      exact (storedData_setData_of_ne t1 data hoff).trans
        (ht1.storedData hlen (hi.fits j hj) hj.1)
    · intro j hj hjk
      exact hi.stored.unique _ _ hj huse (hjk.trans hhit.storedKey.symm)

/-- slot を取って書いた後の table。番号は 32 bit に収まり、使われている slot は変わらない。 -/
structure SlotTaken (s : MapState h) (key : Key) (data : UInt64) (slotId : Nat) (u : Table h) :
    Prop where
  bkts : u.bkts = s.table.bkts
  freeExtBkts : u.freeExtBkts = s.table.freeExtBkts
  owned : Owned u (fun _ : Unit => slotId)
  fits : Fits h slotId
  key : u.storedKey slotId = key8 key
  data : u.storedData slotId = data
  other : ∀ id, InUse s.table id →
    u.storedKey id = s.table.storedKey id ∧ u.storedData id = s.table.storedData id

theorem MapInv.slotTaken {t0 : Table h} (hi : MapInv hash s)
    (hfit : ∀ id ∈ s.table.freeSlots.items.head?, Fits h id) (ht0 : Touched data s.table t0)
    (key : Key) :
    SlotTaken s key data (t0.takeSlot key data).1 (t0.takeSlot key data).2 := by
  have hd := ht0.dataOnly
  obtain ⟨hub, hext, hring⟩ := takeSlot_cases t0 key data
  rw [hd.freeSlots] at hring
  obtain ⟨hkey, hdata⟩ := takeSlot_self hlen t0 key data
  have hbkts : (t0.takeSlot key data).2.bkts = s.table.bkts := hub.trans hd.bkts
  have howned : Owned (t0.takeSlot key data).2 (fun _ : Unit => (t0.takeSlot key data).1) := by
    have := Owned.allocSlot (i := ()) (hd.owned hi.owned) rfl
    rw [update_unit] at this
    exact this.congr rfl rfl
  have hfits : Fits h (t0.takeSlot key data).1 := by
    rcases hring with ⟨-, hzero, -⟩ | hcons
    · rw [hzero]
      exact fits_zero h
    · exact hfit _ (by rw [hcons]; rfl)
  refine ⟨hbkts, hext.trans hd.freeExtBkts, howned, hfits, hkey, hdata, fun id hid => ?_⟩
  -- 取った番号は使われていないので、書き込みは使われている slot に重ならない
  have hne : (t0.takeSlot key data).1 ≠ id := by
    intro he
    obtain ⟨hne, p, hp⟩ := (InUse.of_idxAt (idxAt_congr hbkts)).mpr hid
    exact hne (hp ▸ howned.entry_held p () (hp.trans he.symm))
  obtain ⟨hk, hdt⟩ := takeSlot_other hlen t0 key data (slotOffset_ne hlen hfits (hi.fits id hid) hne)
  exact ⟨hk.trans (hd.storedKey id), hdt.trans (ht0.storedData hlen (hi.fits id hid) hid.1)⟩

/-- 取った slot への追加の後の key store と、使われている slot。 -/
theorem SlotTaken.stored {u : Table h} (hk : SlotTaken s key data slotId u) (hi : MapInv hash s)
    (hfresh : ∀ id, InUse s.table id → s.table.storedKey id ≠ key8 key)
    (hout : StoreOutcome u slotId key (hash (key8 key)) data (ret, t')) :
    Stored hash t' ∧ (∀ id, t'.storedKey id = u.storedKey id) ∧
      (∀ id, Fits h id → id ≠ emptySlot → t'.storedData id = u.storedData id) ∧
      ((ret = (slotId : Int) - 1 ∧
          ∀ id, InUse t' id ↔ InUse s.table id ∨ (id = slotId ∧ slotId ≠ emptySlot)) ∨
        (ret = -enospc ∧ ∀ id, InUse t' id ↔ InUse s.table id)) := by
  obtain ⟨⟨c, hl⟩, -⟩ := hi.capacity
  have hin : ∀ id, InUse u id ↔ InUse s.table id := fun id => InUse.of_idxAt (idxAt_congr hk.bkts)
  have hfreshu : ∀ id, InUse u id → u.storedKey id ≠ key8 key := by
    intro id hid
    have hid' := (hin id).mp hid
    rw [(hk.other id hid').1]
    exact hfresh id hid'
  obtain ⟨hstored, ⟨u1, hu1, hks⟩, hres⟩ := hout.contents (hl.of_bkts hk.bkts hk.freeExtBkts)
    (hi.stored.congr hk.bkts fun id hid => (hk.other id hid).1) hfreshu fun _ => hk.key
  simp only [hin] at hres
  refine ⟨hstored, fun id => ?_, fun id hf h0 => ?_, hres⟩
  · exact (storedKey_congr hks id).trans (hu1.dataOnly.storedKey id)
  · exact (storedData_congr hks id).trans (hu1.storedData hlen hf h0)

/-- slot を取って書いた後の追加。 -/
theorem MapInv.insert {t0 : Table h} (hi : MapInv hash s)
    (hfit : ∀ id ∈ s.table.freeSlots.items.head?, Fits h id)
    (hfresh : ∀ id, InUse s.table id → s.table.storedKey id ≠ key8 key)
    (ht0 : Touched data s.table t0)
    (hout : StoreOutcome (t0.takeSlot key data).2 (t0.takeSlot key data).1 key (hash (key8 key))
      data (ret, t')) (hcap : CapacityInv t') :
    MapInv hash ⟨t', if 0 ≤ ret then Function.update s.log (key8 key) (some (ret, data))
      else s.log⟩ := by
  have hk := hi.slotTaken hlen hfit ht0 key
  obtain ⟨hstored, hkey', hdata', hres⟩ := hk.stored hlen hi hfresh hout
  have hsame : ∀ id, InUse s.table id → t'.storedKey id = s.table.storedKey id ∧
      t'.storedData id = s.table.storedData id := fun id hid =>
    ⟨(hkey' id).trans (hk.other id hid).1,
      (hdata' id (hi.fits id hid) hid.1).trans (hk.other id hid).2⟩
  have howned := hout.owned hk.owned
  by_cases hzero : (t0.takeSlot key data).1 = emptySlot
  · -- 番号 0 のまま進んだ。使われている slot は変わらず、返り値は負である
    have hneg : ¬ 0 ≤ ret := by
      rcases hres with ⟨rfl, -⟩ | ⟨rfl, -⟩
      · rw [hzero]
        decide
      · decide
    have hin' : ∀ id, InUse t' id ↔ InUse s.table id := by
      intro id
      rcases hres with ⟨-, hiff⟩ | ⟨-, hiff⟩
      · rw [hiff id]
        constructor
        · rintro (hid | ⟨-, hne0⟩)
          · exact hid
          · exact absurd hzero hne0
        · exact Or.inl
      · exact hiff id
    rw [if_neg hneg]
    refine hi.kept hcap howned hstored hin' hsame (Or.inr fun id hid => ?_)
    have hid' := (hin' id).mp hid
    rw [(hsame id hid').1, hkey', ← hzero, hk.key]
    exact hfresh id hid'
  · have hint' : Intact t' 0 := hi.intact_insert ht0 hout hzero
    rcases hres with ⟨rfl, hiff⟩ | ⟨rfl, hiff⟩
    · -- 新しい entry が一つ増えた
      have hpos : (0 : Int) ≤ ((t0.takeSlot key data).1 : Int) - 1 := by
        have : (t0.takeSlot key data).1 ≠ 0 := hzero
        omega
      have hin' : ∀ id, InUse t' id ↔ InUse s.table id ∨ id = (t0.takeSlot key data).1 := by
        intro id
        rw [hiff id]
        simp only [hzero, ne_eq, not_false_eq_true, and_true]
      rw [if_pos hpos]
      refine ⟨hcap, howned, hstored, ?_, Or.inl hint', ?_⟩
      · intro id hid
        rcases (hin' id).mp hid with hid | rfl
        · exact hi.fits id hid
        · exact hk.fits
      · exact hi.logged.record hin' ((hin' _).mpr (Or.inr rfl))
          ⟨(hkey' _).trans hk.key, (hdata' _ hk.fits hzero).trans hk.data⟩
          (fun j hj => (hsame j hj).1) (fun j hj _ => (hsame j hj).2)
          fun j hj hjk => absurd hjk (hfresh j hj)
    · rw [if_neg (by decide)]
      exact hi.kept hcap howned hstored hiff hsame (Or.inl hint')

/-- **一回の追加で不変条件が保たれる。** -/
theorem MapInv.add (hi : MapInv hash s) (op : Key × UInt64) (hfit : SlotFits s op) :
    MapInv hash (s.add hash op) := by
  obtain ⟨key, data⟩ := op
  have hcap := hi.capacity.add key (hash (key8 key)) data
  unfold MapState.add
  rcases addKeyWithHash_cases s.table key (hash (key8 key)) data with
    ⟨ret, t', heq, hpres⟩ | ⟨hmiss, t0, ht0, hout⟩
  · simp only [heq, if_pos hpres.ret_nonneg]
    exact hi.update hlen hpres
  · generalize addKeyWithHash s.table key (hash (key8 key)) data = r at hout hcap
    obtain ⟨ret, t'⟩ := r
    have hfresh : ∀ id, InUse s.table id → s.table.storedKey id ≠ key8 key :=
      fun id hid => hi.fresh hmiss hid
    exact hi.insert hlen (hfit (hi.logged.eq_none.mpr hfresh)) hfresh ht0 hout hcap

end

/-! ## 有限写像 -/

theorem MapInv.represents (hi : MapInv hash s) : Represents hash s.table s.log where
  absent := fun k hnone p hne => hi.logged.eq_none.mp hnone _ ⟨hne, p, rfl⟩
  entry := by
    intro k v d hk
    obtain ⟨id, ⟨hne, p, rfl⟩, hkey, hv, hd⟩ := (hi.logged k v d).mp hk
    refine ⟨p, hne, hkey, fun q hq hqk => ?_, ?_, ?_, hv, hd⟩
    · have hid := hi.stored.unique _ _ ⟨hq, q, rfl⟩ ⟨hne, p, rfl⟩ (hqk.trans hkey.symm)
      exact hi.owned.entry_once q p hid hq
    · rw [← hkey]
      exact hi.stored.home p hne
    · rw [← hkey]
      exact hi.stored.sig p hne
  range := by
    intro k v d hk
    obtain ⟨id, ⟨hne, p, rfl⟩, -, hv, -⟩ := (hi.logged k v d).mp hk
    have hle := hi.owned.entry_le p
    have hne' : s.table.idxAt p ≠ 0 := hne
    omega
  distinct := by
    intro k v d k' v' d' hk hk' hne he
    obtain ⟨id, -, hkey, hv, -⟩ := (hi.logged k v d).mp hk
    obtain ⟨id', -, hkey', hv', -⟩ := (hi.logged k' v' d').mp hk'
    have hid : id = id' := by omega
    rw [hid, hkey'] at hkey
    exact hne hkey.symm

/-- 記録のある key の追加は、記録された番号を返す。 -/
theorem MapInv.ret_eq (hi : MapInv hash s) {v : Int} {d : UInt64}
    (hk : s.log (key8 key) = some (v, d)) (data : UInt64) :
    (addKeyWithHash s.table key (hash (key8 key)) data).1 = v := by
  obtain ⟨id, hid, hkey, hv, -⟩ := (hi.logged _ v d).mp hk
  rcases addKeyWithHash_cases s.table key (hash (key8 key)) data with
    ⟨ret, t', heq, p, -, hhit, -, hret, -⟩ | ⟨hmiss, -⟩
  · have huse : InUse s.table (s.table.idxAt p) := ⟨hhit.2.2, p, rfl⟩
    rw [heq, hv, hret, hi.stored.unique _ _ huse hid (hhit.storedKey.trans hkey.symm)]
  · exact absurd hkey (hi.fresh hmiss hid)

theorem mapInv_of_reaches (hlen : h.keyLen = 8) {keyStore : Mem}
    (hr : Reaches (MapState.step hash) SlotFits (MapState.init h keyStore) s) : MapInv hash s := by
  refine hr.invariant (MapInv.init hash h keyStore) ?_
  intro u op u' hu hfit hstep
  obtain rfl := Option.some.inj hstep
  exact hu.add hlen op hfit

/--
**逐次の追加は有限写像への書き込みである。**

どの hash でも、extendable bucket があってもなくても、key store の最初の中身が何でも成り立つ。
記録のある key の追加はいつも同じ番号を返し、負の値を返す追加は何も変えない。
-/
theorem addKeyWithHash_refines_map (hlen : h.keyLen = 8) {keyStore : Mem}
    (hr : Reaches (MapState.step hash) SlotFits (MapState.init h keyStore) s) :
    Represents hash s.table s.log ∧
      (∀ key data v d, s.log (key8 key) = some (v, d) →
        (addKeyWithHash s.table key (hash (key8 key)) data).1 = v) ∧
      ∀ key data, SlotFits s (key, data) →
        (addKeyWithHash s.table key (hash (key8 key)) data).1 < 0 →
          Represents hash (addKeyWithHash s.table key (hash (key8 key)) data).2 s.log := by
  have hi := mapInv_of_reaches hlen hr
  refine ⟨hi.represents, fun key data v d hk => hi.ret_eq hk data, fun key data hfit hneg => ?_⟩
  have hnext := (hi.add hlen (key, data) hfit).represents
  unfold MapState.add at hnext
  simp only [if_neg (Int.not_le.mpr hneg)] at hnext
  exact hnext

/-- 一つの key を加えた後。同じ key の追加は、同じ番号を返す。 -/
theorem addKeyWithHash_refines_map_again :
    (addKeyWithHash ((MapState.init eightKeys fun _ => 0).add (fun _ => 0) (keyOf 1, 7)).table
      (keyOf 1) 0 9).1 = 0 := by
  have hfits : SlotFits (MapState.init eightKeys fun _ => 0) (keyOf 1, 7) := by
    intro _ id hid
    obtain rfl : (1 : Nat) = id := Option.some.inj hid
    decide
  have hr : Reaches (MapState.step fun _ => 0) SlotFits (MapState.init eightKeys fun _ => 0)
      ((MapState.init eightKeys fun _ => 0).add (fun _ => 0) (keyOf 1, 7)) :=
    (Reaches.refl _).snoc hfits rfl
  exact (addKeyWithHash_refines_map rfl hr).2.1 (keyOf 1) 9 0 7 (by decide +kernel)

/-! ## 折り返しで上書きされる key -/

/-- 最後の slot の位置が折り返し、slot 1 と同じになる table。 -/
def wrappingKeys : RteHash :=
  { eightKeys with
    entries := 2 ^ 28 + 1
    extTableSupport := false
    entries_ge := by decide
    entries_le := by decide }

theorem key8_keyOf_inj {m n : Nat} (hm : m < 256) (hn : n < 256)
    (he : key8 (keyOf m) = key8 (keyOf n)) : m = n := by
  have h0 : UInt8.ofNat m = UInt8.ofNat n := congrFun he 0
  have := congrArg UInt8.toNat h0
  rwa [UInt8.toNat_ofNat', UInt8.toNat_ofNat', Nat.mod_eq_of_lt hm, Nat.mod_eq_of_lt hn] at this

/-- 0 番の bucket の前から `k` 個に、番号 `1, …, k` の key が入っている。 -/
structure FrontFilled (t : Table h) (k : Nat) : Prop where
  idx : ∀ i : Fin bucketEntries, t.idxAt (.main 0, i) = if i.val < k then i.val + 1 else 0
  sig : ∀ i, t.sigAt (.main 0, i) = 0
  next : t.nextOf (.main 0) = none
  keys : ∀ i, i < k → t.storedKey (i + 1) = key8 (keyOf (i + 1))

theorem FrontFilled.congr {k : Nat} (hf : FrontFilled t k) (hb : t'.bkts = t.bkts)
    (hkey : ∀ i, i < k → t'.storedKey (i + 1) = t.storedKey (i + 1)) : FrontFilled t' k where
  idx := by rw [idxAt_congr hb]; exact hf.idx
  sig := by rw [sigAt_congr hb]; exact hf.sig
  next := by rw [nextOf_congr hb]; exact hf.next
  keys := fun i hi => (hkey i hi).trans (hf.keys i hi)

theorem FrontFilled.dataOnly {k : Nat} (hf : FrontFilled t k) (hd : DataOnly t t') :
    FrontFilled t' k := hf.congr hd.bkts fun i _ => hd.storedKey (i + 1)

/-- 検査で合うのは、入っている key だけである。 -/
theorem FrontFilled.hit {k : Nat} (hf : FrontFilled t k) {p : Pos} {sig : UInt16}
    (hh : Hit t key sig (searched t (.main 0) (.main 0)) p) :
    p.1 = .main 0 ∧ p.2.val < k ∧ t.idxAt p = p.2.val + 1 := by
  have hp : p.1 = .main 0 := by
    rcases List.mem_cons.mp hh.1 with he | hmem
    · exact he
    · exact mem_chain_of_next_none hf.next hmem
  have hidx := hf.idx p.2
  rw [← hp] at hidx
  have hne : t.idxAt p ≠ 0 := hh.2.2
  by_cases hk : p.2.val < k
  · rw [if_pos hk] at hidx
    exact ⟨hp, hk, hidx⟩
  · rw [if_neg hk] at hidx
    exact absurd hidx hne

theorem FrontFilled.missed {k m : Nat} (hf : FrontFilled t k) (hk : k < m) (hm : m < 256)
    {sig : UInt16} : Missed t (keyOf m) sig (.main 0) (.main 0) := by
  intro p hh
  obtain ⟨-, hpk, hidx⟩ := hf.hit hh
  have hkey := hh.storedKey
  rw [hidx, hf.keys _ hpk] at hkey
  have := key8_keyOf_inj (by omega) hm hkey
  omega

theorem FrontFilled.takeSlot {k : Nat} (hlen : h.keyLen = 8) (hf : FrontFilled t k) (key : Key)
    (data : UInt64)
    (hoff : ∀ i, i < k → h.slotOffset (t.takeSlot key data).1 ≠ h.slotOffset (i + 1)) :
    FrontFilled (t.takeSlot key data).2 k :=
  hf.congr (takeSlot_cases t key data).1 fun i hi => (takeSlot_other hlen t key data (hoff i hi)).1

/-- 一杯の 0 番の bucket からは、どこへも押し出せない。 -/
theorem bucketZero_full_shifts
    (hfull : ∀ i, t.idxAt (.main 0, i) ≠ emptySlot ∧ t.sigAt (.main 0, i) = 0)
    (hs : Shifts t t') : ∀ i, t'.idxAt (.main 0, i) ≠ emptySlot ∧ t'.sigAt (.main 0, i) = 0 := by
  refine Shifts.invariant (P := fun v => ∀ i, v.idxAt (.main 0, i) ≠ emptySlot ∧
    v.sigAt (.main 0, i) = 0) hs hfull ?_ ?_
  · intro v v' hv hsame i
    rw [idxAt_congr hsame.bkts, sigAt_congr hsame.bkts]
    exact hv i
  · intro v v' q p hv hshift i
    have hp : p.1 ≠ .main 0 := fun he => (hv p.2).1 (by rw [← he]; exact hshift.empty)
    have hq : q.1 ≠ .main 0 := by
      intro he
      obtain ⟨b, hb, hpb⟩ := hshift.source
      obtain rfl := BktRef.main.inj (hb.symm.trans he)
      have hsig : v.sigAt q = 0 := by
        have := (hv q.2).2
        rwa [← he] at this
      rw [hsig, getAltBucketIndex] at hpb
      exact hp (by rw [hpb, show (0 : UInt16).toUInt32 = 0 from rfl, UInt32.xor_zero,
        UInt32.zero_and])
    have hnp : ((BktRef.main 0, i) : Pos) ≠ p := by
      rintro rfl
      exact hp rfl
    have hnq : ((BktRef.main 0, i) : Pos) ≠ q := by
      rintro rfl
      exact hq rfl
    rw [hshift.idx, hshift.sig, if_neg hnp, if_neg hnq, if_neg hnp]
    exact hv i

/--
0 番の bucket に key が `k` 個入り、`free_slots` の先頭から `n, n + 1, …` が並ぶ。

最初の 8 個の key が bucket を埋め、その後の追加は失敗して `free_slots` を回す。
-/
structure Filling (s : MapState wrappingKeys) (k n : Nat) : Prop where
  front : FrontFilled s.table k
  ring : ∃ extra, s.table.freeSlots.items
    = List.range' n (wrappingKeys.entries + 1 - n) ++ extra
  log : 0 < k → ∃ d, s.log (key8 (keyOf 1)) = some (0, d)

/-- hash がすべて 0 の追加。 -/
abbrev addZero (s : MapState wrappingKeys) (n : Nat) : MapState wrappingKeys :=
  s.add (fun _ => 0) (keyOf n, 0)

/-- 取られる番号は `n` で、残りには `n + 1` からが並ぶ。 -/
theorem takeSlot_of_ring {t : Table wrappingKeys} {n : Nat} (extra : List Nat)
    (hn : n ≤ wrappingKeys.entries)
    (hring : t.freeSlots.items = List.range' n (wrappingKeys.entries + 1 - n) ++ extra) (key : Key)
    (data : UInt64) :
    (t.takeSlot key data).1 = n ∧ (t.takeSlot key data).2.freeSlots.items
      = List.range' (n + 1) (wrappingKeys.entries + 1 - (n + 1)) ++ extra := by
  rw [show wrappingKeys.entries + 1 - n = (wrappingKeys.entries + 1 - (n + 1)) + 1 by omega,
    List.range'_succ, List.cons_append] at hring
  obtain ⟨-, -, ⟨hnil, -⟩ | hcons⟩ := takeSlot_cases t key data
  · rw [hring] at hnil
    cases hnil
  · rw [hring] at hcons
    obtain ⟨h1, h2⟩ := List.cons.inj hcons
    exact ⟨h1.symm, h2.symm⟩

/-- 折り返す前の slot は、bucket にある key の slot とは違う。 -/
theorem wrappingKeys_slotOffset {n i : Nat} (hi : i < n - 1) (hi8 : i < 8) (hn : n ≤ 2 ^ 28) :
    wrappingKeys.slotOffset n ≠ wrappingKeys.slotOffset (i + 1) := by
  have hsize : wrappingKeys.keyEntrySize = 16 := keyEntrySize_eq rfl
  unfold RteHash.slotOffset
  rw [hsize]
  omega

/-- 検査で見つからなければ、slot を取って書く。 -/
theorem addKeyWithHash_missed {hv : UInt32} (data : UInt64)
    (hmiss : Missed t key (getShortSig hv) (primOf h hv) (secOf h hv)) :
    ∃ t0, Touched data t t0 ∧ addKeyWithHash t key hv data
      = storeSlot (t0.takeSlot key data).2 (t0.takeSlot key data).1 key hv data := by
  rw [addKeyWithHash_eq]
  rcases checkDup_cases t data key (getShortSig hv) (primOf h hv) (secOf h hv) with
    ⟨-, hret, ht0⟩ | ⟨-, p, -, hhit, -⟩
  · rw [if_neg (not_not_intro hret)]
    exact ⟨_, ht0, rfl⟩
  · exact absurd hhit (hmiss p)

/-- 空きのある間は、次の entry に入る。 -/
theorem Filling.fill {s : MapState wrappingKeys} {k : Nat} (hf : Filling s k (k + 1))
    (hk : k < bucketEntries) : Filling (addZero s (k + 1)) (k + 1) (k + 2) := by
  have hk8 : k < 8 := hk
  obtain ⟨hprim, hsec, hsig⟩ := bkts_of_zero wrappingKeys
  obtain ⟨extra, hring⟩ := hf.ring
  have hmiss : ∀ t : Table wrappingKeys, FrontFilled t k →
      Missed t (keyOf (k + 1)) (getShortSig 0) (primOf wrappingKeys 0)
        (secOf wrappingKeys 0) := by
    intro t ht
    rw [hprim, hsec]
    exact ht.missed (Nat.lt_succ_self k) (by omega)
  obtain ⟨t0, ht0, heq⟩ := addKeyWithHash_missed 0 (hmiss _ hf.front)
  have hf0 := hf.front.dataOnly ht0.dataOnly
  obtain ⟨hslot, hring'⟩ := takeSlot_of_ring (t := t0) (n := k + 1) extra
    (by show k + 1 ≤ 2 ^ 28 + 1; omega) (by rw [ht0.dataOnly.freeSlots]; exact hring)
    (keyOf (k + 1)) 0
  have hself := (takeSlot_self rfl t0 (keyOf (k + 1)) 0).1
  have hfu := hf0.takeSlot rfl (keyOf (k + 1)) 0 (by
    intro i hi
    rw [hslot]
    exact wrappingKeys_slotOffset (by omega) (by omega) (by omega))
  generalize t0.takeSlot (keyOf (k + 1)) 0 = r at hslot hring' hself hfu heq
  obtain ⟨slotId, u⟩ := r
  obtain rfl : slotId = k + 1 := hslot
  have hfirst : u.firstEmpty (primOf wrappingKeys 0) = some ⟨k, hk⟩ := by
    rw [hprim, firstEmpty_eq_some, hfu.idx, if_neg (Nat.lt_irrefl k)]
    refine ⟨rfl, fun j hj => ?_⟩
    rw [hfu.idx, if_pos (show j.val < k from hj)]
    exact Nat.succ_ne_zero _
  obtain ⟨u1, hu1, hres⟩ := storeSlot_direct (k + 1) 0 (hmiss u hfu) hfirst
  rw [hres, hprim, hsig] at heq
  have hfu1 := hfu.dataOnly hu1.dataOnly
  have hadd : addZero s (k + 1) = ⟨u1.setEntry (.main 0, ⟨k, hk⟩) 0 (k + 1),
      Function.update s.log (key8 (keyOf (k + 1))) (some (((k + 1 : Nat) : Int) - 1, 0))⟩ := by
    unfold addZero MapState.add
    simp only [heq]
    rw [if_pos (by omega)]
  rw [hadd]
  refine ⟨⟨?_, ?_, ?_, ?_⟩, ⟨extra, ?_⟩, fun _ => ?_⟩
  · intro i
    rw [idxAt_setEntry, hfu1.idx]
    by_cases hi : i = ⟨k, hk⟩
    · rw [if_pos (by rw [hi]), hi, if_pos (Nat.lt_succ_self k)]
    · have hne : i.val ≠ k := fun he => hi (Fin.ext he)
      rw [if_neg (fun he => hi (Prod.mk.inj he).2)]
      by_cases hlt : i.val < k
      · rw [if_pos hlt, if_pos (by omega)]
      · rw [if_neg hlt, if_neg (by omega)]
  · intro i
    rw [sigAt_setEntry, hfu1.sig]
    split <;> rfl
  · rw [nextOf_setEntry]
    exact hfu1.next
  · intro i hi
    show u1.storedKey (i + 1) = _
    rcases Nat.lt_succ_iff_lt_or_eq.mp hi with hlt | rfl
    · exact hfu1.keys i hlt
    · exact (hu1.dataOnly.storedKey _).trans hself
  · show u1.freeSlots.items = _
    rw [hu1.dataOnly.freeSlots]
    exact hring'
  · by_cases hk0 : k = 0
    · subst hk0
      exact ⟨0, Function.update_self (key8 (keyOf 1)) (some (((1 : Nat) : Int) - 1, 0)) s.log⟩
    · have hne : key8 (keyOf 1) ≠ key8 (keyOf (k + 1)) := fun he =>
        hk0 (by have := key8_keyOf_inj (by decide) (by omega) he; omega)
      obtain ⟨d, hd⟩ := hf.log (Nat.pos_of_ne_zero hk0)
      exact ⟨d, (Function.update_of_ne hne _ _).trans hd⟩

/-- 一杯になった後の追加でできること。検査で見つかるか、slot を返す。 -/
theorem Filling.full_cases {s : MapState wrappingKeys} {n : Nat} (hf : Filling s bucketEntries n)
    {u : Table wrappingKeys} {slotId : Nat} (hu : u.bkts = s.table.bkts)
    {r : Int × Table wrappingKeys} (hout : StoreOutcome u slotId (keyOf 9) 0 0 r) :
    (∃ p, Hit u (keyOf 9) 0 (searched u (.main 0) (.main 0)) p ∧ r.1 = (u.idxAt p : Int) - 1) ∨
    (Missed u (keyOf 9) 0 (.main 0) (.main 0) ∧ r.1 = -enospc ∧
      ∃ u1, Touched 0 u u1 ∧ r.2 = u1.enqueueSlotBack slotId) := by
  obtain ⟨hprim, hsec, hsig⟩ := bkts_of_zero wrappingKeys
  cases hout with
  | present hroles hpres =>
    obtain ⟨p, -, hhit, -, hret, -⟩ := hpres
    rw [hprim, hsec] at hroles
    obtain ⟨rfl, rfl⟩ | ⟨rfl, rfl⟩ := hroles
    · exact Or.inl ⟨p, hhit, hret⟩
    · exact Or.inl ⟨p, hhit, hret⟩
  | @placed u1 p t' hmiss hu1 hp hplaced hfill =>
    -- 0 番の bucket に空きは作れない
    obtain ⟨v, hv, hempty, -⟩ := hplaced
    have hb : p.1 = .main 0 := by
      rw [hprim, hsec] at hp
      rcases hp with hp | hp
      · exact hp
      · exact mem_chain_of_next_none (by rw [nextOf_congr hu]; exact hf.front.next) hp
    have hbkts : u1.bkts = s.table.bkts := hu1.dataOnly.bkts.trans hu
    have hfull : ∀ i, u1.idxAt (.main 0, i) ≠ emptySlot ∧ u1.sigAt (.main 0, i) = 0 := by
      intro i
      rw [idxAt_congr hbkts, sigAt_congr hbkts, hf.front.idx, if_pos i.isLt]
      exact ⟨Nat.succ_ne_zero _, hf.front.sig i⟩
    have hne := (bucketZero_full_shifts hfull hv p.2).1
    rw [← hb] at hne
    exact absurd hempty hne
  | linked hext => cases hext
  | noBucket hext => cases hext
  | noSpace hext hmiss hu1 =>
    rw [hprim, hsec, hsig] at hmiss
    exact Or.inr ⟨hmiss, rfl, _, hu1, rfl⟩

/-- 九個目の key の追加は、slot を取って書くところまで進む。 -/
theorem Filling.ninth {s : MapState wrappingKeys} {n : Nat} (hf : Filling s bucketEntries n)
    (hn : n ≤ wrappingKeys.entries) :
    ∃ (u : Table wrappingKeys) (extra : List Nat), u.bkts = s.table.bkts ∧
      u.freeSlots.items = List.range' (n + 1) (wrappingKeys.entries + 1 - (n + 1)) ++ extra ∧
      u.storedKey n = key8 (keyOf 9) ∧
      (∀ id, wrappingKeys.slotOffset n ≠ wrappingKeys.slotOffset id →
        u.storedKey id = s.table.storedKey id) ∧
      StoreOutcome u n (keyOf 9) 0 0 (addKeyWithHash s.table (keyOf 9) 0 0) := by
  obtain ⟨hprim, hsec, hsig⟩ := bkts_of_zero wrappingKeys
  obtain ⟨extra, hring⟩ := hf.ring
  have hmiss : Missed s.table (keyOf 9) (getShortSig 0) (primOf wrappingKeys 0)
      (secOf wrappingKeys 0) := by
    rw [hprim, hsec]
    exact hf.front.missed (by decide) (by decide)
  obtain ⟨t0, ht0, heq⟩ := addKeyWithHash_missed 0 hmiss
  obtain ⟨hslot, hring'⟩ := takeSlot_of_ring (t := t0) extra hn
    (by rw [ht0.dataOnly.freeSlots]; exact hring) (keyOf 9) 0
  refine ⟨(t0.takeSlot (keyOf 9) 0).2, extra, (takeSlot_cases t0 (keyOf 9) 0).1.trans
    ht0.dataOnly.bkts, hring', ?_, fun id hoff => ?_, ?_⟩
  · have hself := (takeSlot_self rfl t0 (keyOf 9) 0).1
    rwa [hslot] at hself
  · rw [← hslot] at hoff
    exact (takeSlot_other rfl t0 (keyOf 9) 0 hoff).1.trans (ht0.dataOnly.storedKey id)
  · rw [heq, hslot]
    exact storeSlot_outcome _ _ _ _ _

/-- 折り返す前の追加は失敗し、`free_slots` が一つ回る。 -/
theorem Filling.rotate {s : MapState wrappingKeys} {n : Nat} (hf : Filling s bucketEntries n)
    (h9 : 9 ≤ n) (hn : n ≤ 2 ^ 28) : Filling (addZero s 9) bucketEntries (n + 1) := by
  obtain ⟨u, extra, hbkts, hring, -, hkeep, hout⟩ :=
    hf.ninth (by show n ≤ 2 ^ 28 + 1; omega)
  have hfu : FrontFilled u bucketEntries := by
    refine hf.front.congr hbkts fun i hi => hkeep _ ?_
    have hi8 : i < 8 := hi
    exact wrappingKeys_slotOffset (by omega) hi8 hn
  rcases hf.full_cases hbkts hout with ⟨p, hhit, -⟩ | ⟨-, hret, u1, hu1, hres⟩
  · exact absurd hhit (hfu.missed (by decide) (by decide) p)
  · have hadd : addZero s 9 = ⟨u1.enqueueSlotBack n, s.log⟩ := by
      unfold addZero MapState.add
      simp only [hret, hres]
      rw [if_neg (by decide)]
    have hfu1 := hfu.dataOnly hu1.dataOnly
    rw [hadd]
    rcases enqueueSlotBack_cases u1 n with heq | ⟨q, hitems, heq⟩
    · rw [heq]
      exact ⟨hfu1, ⟨extra, by rw [← hring, ← hu1.dataOnly.freeSlots]⟩, hf.log⟩
    · rw [heq]
      refine ⟨hfu1.congr rfl fun _ _ => rfl, ⟨extra ++ [n], ?_⟩, hf.log⟩
      show q.items = _
      rw [hitems, hu1.dataOnly.freeSlots, hring, List.append_assoc]

/-- 折り返した slot は slot 1 と同じ位置にあり、九個目の key が一個目の key を上書きする。 -/
theorem Filling.wrap {s : MapState wrappingKeys} (hf : Filling s bucketEntries (2 ^ 28 + 1)) :
    ∃ d d', (addZero s 9).log (key8 (keyOf 1)) = some (0, d) ∧
      (addZero s 9).log (key8 (keyOf 9)) = some (0, d') := by
  obtain ⟨u, -, hbkts, -, hself, hkeep, hout⟩ := hf.ninth (Nat.le_refl _)
  have hsize : wrappingKeys.keyEntrySize = 16 := keyEntrySize_eq rfl
  have hone : u.storedKey 1 = key8 (keyOf 9) := by
    rw [← hself]
    have hoff : wrappingKeys.slotOffset 1 = wrappingKeys.slotOffset (2 ^ 28 + 1) := by
      unfold RteHash.slotOffset
      rw [hsize]
      decide
    unfold storedKey
    rw [hoff]
  have hidx : ∀ i : Fin bucketEntries, u.idxAt (.main 0, i) = i.val + 1 := by
    intro i
    rw [idxAt_congr hbkts, hf.front.idx, if_pos i.isLt]
  have hrest : ∀ i, i < 8 → i ≠ 0 → u.storedKey (i + 1) = key8 (keyOf (i + 1)) := by
    intro i hi hne
    refine (hkeep _ ?_).trans (hf.front.keys i hi)
    unfold RteHash.slotOffset
    rw [hsize]
    omega
  have hret : (addKeyWithHash s.table (keyOf 9) 0 0).1 = 0 := by
    rcases hf.full_cases hbkts hout with ⟨p, hhit, hret⟩ | ⟨hmiss, -⟩
    · have hp : p.1 = .main 0 := by
        rcases List.mem_cons.mp hhit.1 with he | hmem
        · exact he
        · exact mem_chain_of_next_none (by rw [nextOf_congr hbkts]; exact hf.front.next) hmem
      have hpi := hidx p.2
      rw [← hp] at hpi
      have hkey := hhit.storedKey
      rw [show u.idxAt p = p.2.val + 1 from hpi] at hkey hret
      have hp8 : p.2.val < 8 := p.2.isLt
      have hzero : p.2.val = 0 := by
        by_contra hne
        rw [hrest _ hp8 hne] at hkey
        have := key8_keyOf_inj (by omega) (by decide) hkey
        omega
      rw [hret, hzero]
      rfl
    · -- 先頭の entry が合うので、見落とすことはない
      refine absurd ?_ (hmiss (.main 0, 0))
      refine ⟨List.mem_cons_self, findEntry_eq_some.mpr ⟨⟨?_, ?_⟩, fun j hj => ?_⟩, ?_⟩
      · rw [sigAt_congr hbkts]
        exact hf.front.sig 0
      · rw [hidx]
        exact hone
      · exact absurd hj (Fin.not_lt_zero j)
      · rw [hidx]
        exact Nat.succ_ne_zero _
  obtain ⟨d, hd⟩ := hf.log (by decide)
  have hne : key8 (keyOf 1) ≠ key8 (keyOf 9) := fun he =>
    absurd (key8_keyOf_inj (by decide) (by decide) he) (by decide)
  have hlog : (addZero s 9).log = Function.update s.log (key8 (keyOf 9)) (some (0, 0)) := by
    unfold addZero MapState.add
    simp only [hret]
    rw [if_pos (Int.le_refl 0)]
  refine ⟨d, 0, ?_, ?_⟩
  · rw [hlog, Function.update_of_ne hne]
    exact hd
  · rw [hlog, Function.update_self]

/-- 追加を続ければ、`free_slots` の先頭はどの番号にもなる。 -/
theorem filling_reaches (n : Nat) (hn : n ≤ 2 ^ 28 - 8) : ∃ s : MapState wrappingKeys,
    Reaches (MapState.step fun _ => 0) Always (MapState.init wrappingKeys fun _ => 0) s ∧
      Filling s bucketEntries (n + 9) := by
  induction n with
  | zero =>
    have hfill : ∀ k, k ≤ bucketEntries → ∃ s : MapState wrappingKeys,
        Reaches (MapState.step fun _ => 0) Always (MapState.init wrappingKeys fun _ => 0) s ∧
          Filling s k (k + 1) := by
      intro k hk
      induction k with
      | zero =>
        refine ⟨_, Reaches.refl _, ⟨fun _ => rfl, fun _ => rfl, rfl, fun i hi => absurd hi (by
          omega)⟩, ⟨[], ?_⟩, fun h0 => absurd h0 (Nat.lt_irrefl 0)⟩
        rw [List.append_nil]
        rfl
      | succ k ih =>
        obtain ⟨s, hr, hf⟩ := ih (Nat.le_of_succ_le hk)
        exact ⟨_, hr.snoc trivial rfl, hf.fill hk⟩
    exact hfill bucketEntries (Nat.le_refl _)
  | succ n ih =>
    obtain ⟨s, hr, hf⟩ := ih (Nat.le_of_succ_le hn)
    have hnext := hf.rotate (by omega) (by omega)
    rw [show n + 9 + 1 = n + 1 + 9 by omega] at hnext
    exact ⟨_, hr.snoc trivial rfl, hnext⟩

/-- **二つの key が同じ番号を返す実行。** hash はすべて 0 である。 -/
theorem addKeyWithHash_overwrites : ∃ s : MapState wrappingKeys,
    Reaches (MapState.step fun _ => 0) Always (MapState.init wrappingKeys fun _ => 0) s ∧
      ¬ Represents (fun _ => 0) s.table s.log := by
  obtain ⟨s, hr, hf⟩ := filling_reaches (2 ^ 28 - 8) (Nat.le_refl _)
  obtain ⟨d, d', h1, h9⟩ := hf.wrap
  have hne : key8 (keyOf 1) ≠ key8 (keyOf 9) := fun he =>
    absurd (key8_keyOf_inj (by decide) (by decide) he) (by decide)
  exact ⟨_, hr.snoc trivial rfl, fun hrep => hrep.distinct _ _ _ _ _ _ h1 h9 hne rfl⟩

end L3fwd.Hash
