import L3fwd.Hash.Slots

/-!
# 格納された key

key の長さが 8 の table では、比較される 8 byte が key のすべてである。
key ごとの hash を `hash` とし、格納された entry について次を述べる（`Stored`）。

* signature は key の hash の上位 16 bit である
* entry は、key の第一の bucket か、第二の bucket の連なりにある
* 同じ key の slot は一つしか使われていない

押し出しは entry を第一の bucket と第二の bucket の間で動かすだけなので、これらを保つ。
検査が格納された key を見落とすのは、同じ bucket の前の方にある空の entry の古い signature が合い、
しかも dummy の slot 0 の key も合うときに限る（`Masked`）。
-/

namespace L3fwd.Hash

open Infra Table

variable {h : RteHash} {t t' u : Table h} {c : Nat} {key : Key} {data : UInt64}

/-! ## 行き先の bucket -/

/-- 第二の bucket から見た行き先は第一の bucket である。 -/
theorem getAltBucketIndex_sec (h : RteHash) (hv : UInt32) :
    getAltBucketIndex h (getSecBucketIndex h hv) (getShortSig hv) = getPrimBucketIndex h hv := by
  unfold getSecBucketIndex getAltBucketIndex getPrimBucketIndex
  generalize h.bucketBitmask = m
  generalize (getShortSig hv).toUInt32 = s
  refine UInt32.eq_of_toBitVec_eq ?_
  simp only [UInt32.toBitVec_and, UInt32.toBitVec_xor]
  refine BitVec.eq_of_getLsbD_eq fun i hi => ?_
  simp only [BitVec.getLsbD_and, BitVec.getLsbD_xor]
  cases hv.toBitVec.getLsbD i <;> cases s.toBitVec.getLsbD i <;> cases m.toBitVec.getLsbD i <;> rfl

/-- hash が `hv` の key が置かれうる bucket。 -/
def Home (t : Table h) (hv : UInt32) (b : BktRef) : Prop :=
  b = primOf h hv ∨ b ∈ t.chain h.numBuckets (secOf h hv)

/-- 連なりの中の `buckets` の bucket は、始まりだけである。 -/
theorem main_mem_chain {b i : UInt32} : ∀ {fuel : Nat},
    BktRef.main b ∈ t.chain fuel (.main i) → b = i := by
  have hext : ∀ fuel id, BktRef.main b ∉ t.chain fuel (.ext id) := by
    intro fuel
    induction fuel with
    | zero =>
      intro id hmem
      cases List.mem_singleton.mp hmem
    | succ fuel ih =>
      intro id hmem
      rcases mem_chain_succ.mp hmem with he | ⟨id', -, hmem⟩
      · cases he
      · exact ih id' hmem
  intro fuel hmem
  cases fuel with
  | zero => exact BktRef.main.inj (List.mem_singleton.mp hmem)
  | succ fuel =>
    rcases mem_chain_succ.mp hmem with he | ⟨id, -, hmem⟩
    · exact BktRef.main.inj he
    · exact absurd hmem (hext fuel id)

/-- 押し出しの行き先も、その key の置かれうる bucket である。 -/
theorem Home.alt {hv : UInt32} {b : UInt32} (hh : Home t hv (.main b)) :
    Home t hv (.main (getAltBucketIndex h b (getShortSig hv))) := by
  rcases hh with hb | hb
  · obtain rfl := BktRef.main.inj hb
    exact Or.inr (self_mem_chain t _ _)
  · obtain rfl := main_mem_chain hb
    rw [getAltBucketIndex_sec]
    exact Or.inl rfl

theorem Home.congr {hv : UInt32} {b : BktRef} (hh : Home t hv b) (hn : t'.nextOf = t.nextOf) :
    Home t' hv b := by
  rw [Home, chain_congr hn]
  exact hh

/-! ## 格納された entry -/

variable {hash : Key8 → UInt32}

/-- 番号 `id` の slot を使う entry がある。 -/
def InUse (t : Table h) (id : Nat) : Prop := id ≠ emptySlot ∧ ∃ p, t.idxAt p = id

/-- 格納された key の不変条件。 -/
structure Stored (hash : Key8 → UInt32) (t : Table h) : Prop where
  sig : ∀ p, t.idxAt p ≠ emptySlot → t.sigAt p = getShortSig (hash (t.storedKey (t.idxAt p)))
  home : ∀ p, t.idxAt p ≠ emptySlot → Home t (hash (t.storedKey (t.idxAt p))) p.1
  unique : ∀ id id', InUse t id → InUse t id' → t.storedKey id = t.storedKey id' → id = id'

theorem Stored.init (hash : Key8 → UInt32) (h : RteHash) (keyStore : Mem) :
    Stored hash (Table.init h keyStore) where
  sig := fun _ hne => absurd rfl hne
  home := fun _ hne => absurd rfl hne
  unique := by
    rintro id - ⟨hne, p, hp⟩
    exact absurd hp.symm hne

theorem InUse.of_idxAt (hidx : t'.idxAt = t.idxAt) {id : Nat} : InUse t' id ↔ InUse t id := by
  rw [InUse, InUse, hidx]

/-- bucket と、使われている slot の key が同じなら、不変条件も同じである。 -/
theorem Stored.congr (hs : Stored hash t) (hb : t'.bkts = t.bkts)
    (hkey : ∀ id, InUse t id → t'.storedKey id = t.storedKey id) : Stored hash t' := by
  have hidx := idxAt_congr hb
  have hkey' : ∀ p, t.idxAt p ≠ emptySlot → t'.storedKey (t.idxAt p) = t.storedKey (t.idxAt p) :=
    fun p hp => hkey _ ⟨hp, p, rfl⟩
  refine ⟨?_, ?_, ?_⟩
  · intro p hp
    rw [hidx] at hp ⊢
    rw [sigAt_congr hb, hkey' p hp]
    exact hs.sig p hp
  · intro p hp
    rw [hidx] at hp ⊢
    rw [hkey' p hp]
    exact (hs.home p hp).congr (nextOf_congr hb)
  · intro id id' hid hid' he
    rw [InUse.of_idxAt hidx] at hid hid'
    rw [hkey id hid, hkey id' hid'] at he
    exact hs.unique id id' hid hid' he

theorem Stored.dataOnly (hs : Stored hash t) (hd : DataOnly t t') : Stored hash t' :=
  hs.congr hd.bkts fun id _ => hd.storedKey id

theorem storedKey_congr (hk : t'.keyStore = t.keyStore) (id : Nat) :
    t'.storedKey id = t.storedKey id := by
  unfold storedKey
  rw [hk]

theorem Stored.ringOnly (hs : Stored hash t) (hr : RingOnly t t') : Stored hash t' :=
  hs.congr hr.bkts fun id _ => storedKey_congr hr.keyStore id

/-- 移した後の entry は、移す前の空でない entry である。 -/
theorem Shift.origin {q p r : Pos} (hs : Shift t t' q p) (hr : t'.idxAt r ≠ emptySlot) :
    ∃ r', t'.idxAt r = t.idxAt r' ∧ t'.sigAt r = t.sigAt r' ∧
      (r = p ∧ r' = q ∨ r = r') := by
  by_cases hrp : r = p
  · exact ⟨q, by rw [hs.idx, if_pos hrp], by rw [hs.sig, if_pos hrp], Or.inl ⟨hrp, rfl⟩⟩
  · have hidx := hs.idx r
    rw [if_neg hrp] at hidx
    by_cases hrq : r = q
    · rw [if_pos hrq] at hidx
      exact absurd hidx hr
    · rw [if_neg hrq] at hidx
      exact ⟨r, hidx, by rw [hs.sig, if_neg hrp], Or.inr rfl⟩

/-- 移しても、使われている slot は変わらない。 -/
theorem Shift.inUse {q p : Pos} (hs : Shift t t' q p) {id : Nat} : InUse t' id ↔ InUse t id := by
  constructor
  · rintro ⟨hne, r, hr⟩
    obtain ⟨r', hr', -⟩ := hs.origin (r := r) (by rw [hr]; exact hne)
    exact ⟨hne, r', hr'.symm.trans hr⟩
  · rintro ⟨hne, r, hr⟩
    by_cases hrq : r = q
    · exact ⟨hne, p, by rw [hs.idx, if_pos rfl, ← hrq, hr]⟩
    · by_cases hrp : r = p
      · rw [hrp, hs.empty] at hr
        exact absurd hr.symm hne
      · exact ⟨hne, r, by rw [hs.idx, if_neg hrp, if_neg hrq, hr]⟩

theorem Stored.shift {q p : Pos} (hs : Stored hash t) (hshift : Shift t t' q p) :
    Stored hash t' := by
  have hkey := storedKey_congr hshift.keyStore
  refine ⟨?_, ?_, ?_⟩
  · intro r hr
    obtain ⟨r', hidx, hsig, -⟩ := hshift.origin hr
    rw [hidx] at hr ⊢
    rw [hsig, hkey]
    exact hs.sig r' hr
  · intro r hr
    obtain ⟨r', hidx, hsig, hwhere⟩ := hshift.origin hr
    rw [hidx] at hr ⊢
    rw [hkey]
    have hhome := hs.home r' hr
    refine Home.congr ?_ hshift.next
    rcases hwhere with ⟨rfl, rfl⟩ | rfl
    · -- 動いた entry は、行き先の bucket に移った
      obtain ⟨b, hq, hp⟩ := hshift.source
      rw [hs.sig r' hr] at hp
      rw [hq] at hhome
      rw [hp]
      exact hhome.alt
    · exact hhome
  · intro id id' hid hid' he
    rw [hkey, hkey] at he
    exact hs.unique id id' (hshift.inUse.mp hid) (hshift.inUse.mp hid') he

theorem Stored.shifts (hs : Stored hash t) (hm : Shifts t t') : Stored hash t' := by
  refine Shifts.invariant (P := fun v => Stored hash v) hm hs ?_ ?_
  · intro v v' hv hsame
    exact hv.congr hsame.bkts fun id _ => storedKey_congr hsame.keyStore id
  · intro v v' q p hv hshift
    exact hv.shift hshift

theorem Shifts.inUse (hm : Shifts t t') {id : Nat} : InUse t' id ↔ InUse t id := by
  refine Shifts.invariant (P := fun v => InUse v id ↔ InUse t id) hm Iff.rfl ?_ ?_
  · intro v v' hv hsame
    exact (InUse.of_idxAt (idxAt_congr hsame.bkts)).trans hv
  · intro v v' q p hv hshift
    exact hshift.inUse.trans hv

/-! ## slot への書き込み -/

/-- slot の位置が 32 bit に収まる。 -/
def Fits (h : RteHash) (id : Nat) : Prop := id * h.keyEntrySize < 2 ^ 32

instance (h : RteHash) (id : Nat) : Decidable (Fits h id) :=
  inferInstanceAs (Decidable (id * h.keyEntrySize < 2 ^ 32))

theorem fits_zero (h : RteHash) : Fits h emptySlot := by
  rw [Fits, Nat.zero_mul]
  exact Nat.two_pow_pos 32

section

variable (hlen : h.keyLen = 8)
include hlen

theorem keyEntrySize_eq : h.keyEntrySize = 16 := by
  rw [RteHash.keyEntrySize, hlen]
  decide

/-- 32 bit に収まる番号の slot は、番号が違えば位置も違う。 -/
theorem slotOffset_ne {id id' : Nat} (hid : Fits h id) (hid' : Fits h id') (hne : id ≠ id') :
    h.slotOffset id ≠ h.slotOffset id' := by
  have hsize := keyEntrySize_eq hlen
  unfold Fits at hid hid'
  unfold RteHash.slotOffset
  rw [hsize] at hid hid' ⊢
  omega

theorem storedKey_setKey_self (t : Table h) (id : Nat) (key : Key) :
    (t.setKey id key).storedKey id = key8 key := by
  funext j
  exact Mem.write_inside (by rw [hlen]; exact j.isLt)

theorem storedKey_setKey_of_ne (t : Table h) (key : Key) {id id' : Nat}
    (hne : h.slotOffset id ≠ h.slotOffset id') :
    (t.setKey id key).storedKey id' = t.storedKey id' := by
  funext j
  have h1 := slotOffset_mod h id
  have h2 := slotOffset_mod h id'
  have hj := j.isLt
  exact Mem.write_outside (by rw [hlen]; omega)

/-- key を書いても、どの slot の data も変わらない。 -/
theorem storedData_setKey (t : Table h) (id : Nat) (key : Key) (id' : Nat) :
    (t.setKey id key).storedData id' = t.storedData id' := by
  have h1 := slotOffset_mod h id
  have h2 := slotOffset_mod h id'
  unfold storedData
  refine congrArg UInt64.ofNat (Mem.load_write_of_disjoint ?_)
  rw [hlen]
  omega

end

theorem storedData_setData_self (t : Table h) (id : Nat) (data : UInt64) :
    (t.setData id data).storedData id = data := by
  have hlt := data.toNat_lt
  unfold storedData setData
  simp only [Mem.load_store]
  rw [Nat.mod_eq_of_lt (by omega), UInt64.ofNat_toNat]

theorem storedData_setData_of_ne (t : Table h) (data : UInt64) {id id' : Nat}
    (hne : h.slotOffset id ≠ h.slotOffset id') :
    (t.setData id data).storedData id' = t.storedData id' := by
  have h1 := slotOffset_mod h id
  have h2 := slotOffset_mod h id'
  unfold storedData
  exact congrArg UInt64.ofNat (Mem.load_write_of_disjoint (by omega))

/-! ## 新しい entry -/

/-- 空きに書いた後に使われている slot。 -/
theorem inUse_insert {p : Pos} {slotId : Nat} (hp : t.idxAt p = emptySlot)
    (hidx : ∀ r, t'.idxAt r = if r = p then slotId else t.idxAt r) {id : Nat} :
    InUse t' id ↔ InUse t id ∨ (id = slotId ∧ slotId ≠ emptySlot) := by
  constructor
  · rintro ⟨hne, r, hr⟩
    rw [hidx] at hr
    by_cases hrp : r = p
    · rw [if_pos hrp] at hr
      exact Or.inr ⟨hr.symm, hr ▸ hne⟩
    · rw [if_neg hrp] at hr
      exact Or.inl ⟨hne, r, hr⟩
  · rintro (⟨hne, r, hr⟩ | ⟨rfl, hne⟩)
    · have hrp : r ≠ p := by
        rintro rfl
        exact hne (hr.symm.trans hp)
      exact ⟨hne, r, by rw [hidx, if_neg hrp, hr]⟩
    · exact ⟨hne, p, by rw [hidx, if_pos rfl]⟩

/--
**空きに新しい entry を書く。**

番号が 0 でなければ、signature と bucket がその key のもので、その key がまだ格納されていないこと。
-/
theorem Stored.insert {p : Pos} {sig : UInt16} {slotId : Nat} (hs : Stored hash t)
    (hp : t.idxAt p = emptySlot)
    (hidx : ∀ r, t'.idxAt r = if r = p then slotId else t.idxAt r)
    (hsig : ∀ r, t'.sigAt r = if r = p then sig else t.sigAt r)
    (hhome : ∀ hv b, Home t hv b → Home t' hv b) (hkey : ∀ id, t'.storedKey id = t.storedKey id)
    (hnew : slotId ≠ emptySlot → sig = getShortSig (hash (t.storedKey slotId)) ∧
      Home t' (hash (t.storedKey slotId)) p.1 ∧
      ∀ id, InUse t id → t.storedKey id ≠ t.storedKey slotId) : Stored hash t' := by
  refine ⟨?_, ?_, ?_⟩
  · intro r hr
    rw [hkey, hsig]
    rw [hidx] at hr ⊢
    by_cases hrp : r = p
    · rw [if_pos hrp] at hr
      rw [if_pos hrp, if_pos hrp]
      exact (hnew hr).1
    · rw [if_neg hrp] at hr
      rw [if_neg hrp, if_neg hrp]
      exact hs.sig r hr
  · intro r hr
    rw [hkey]
    rw [hidx] at hr ⊢
    by_cases hrp : r = p
    · rw [if_pos hrp] at hr
      rw [if_pos hrp, hrp]
      exact (hnew hr).2.1
    · rw [if_neg hrp] at hr
      rw [if_neg hrp]
      exact hhome _ _ (hs.home r hr)
  · intro id id' hid hid' he
    rw [hkey, hkey] at he
    rcases (inUse_insert hp hidx).mp hid with hid | ⟨rfl, hne⟩
    · rcases (inUse_insert hp hidx).mp hid' with hid' | ⟨rfl, hne⟩
      · exact hs.unique id id' hid hid' he
      · exact absurd he ((hnew hne).2.2 id hid)
    · rcases (inUse_insert hp hidx).mp hid' with hid' | ⟨rfl, -⟩
      · exact absurd he.symm ((hnew hne).2.2 id' hid')
      · rfl

/-- 番号 `slotId` の slot にある key は、まだ格納されていない。 -/
def Fresh (t : Table h) (slotId : Nat) : Prop :=
  ∀ id, InUse t id → t.storedKey id ≠ t.storedKey slotId

theorem Stored.placed {p : Pos} {sig : UInt16} {slotId : Nat} (hs : Stored hash t)
    (hp : Placed sig slotId t p t')
    (hnew : slotId ≠ emptySlot → sig = getShortSig (hash (t.storedKey slotId)) ∧
      Home t (hash (t.storedKey slotId)) p.1 ∧ Fresh t slotId) : Stored hash t' := by
  obtain ⟨v, hv, hempty, hsame⟩ := hp
  have hkey := storedKey_congr hv.keyStore
  have hinsert : Stored hash (v.setEntry p sig slotId) := by
    refine (hs.shifts hv).insert hempty (fun r => idxAt_setEntry v p r sig slotId)
      (fun r => sigAt_setEntry v p r sig slotId)
      (fun hv' b hh => hh.congr (funext fun d => nextOf_setEntry v p sig slotId d))
      (fun _ => rfl) fun hne => ?_
    obtain ⟨hsig, hhome, hfresh⟩ := hnew hne
    refine ⟨by rw [hkey]; exact hsig, ?_, fun id hid => ?_⟩
    · rw [hkey]
      have hnext : (v.setEntry p sig slotId).nextOf = t.nextOf :=
        (funext fun d => nextOf_setEntry v p sig slotId d).trans hv.nextOf
      exact hhome.congr hnext
    · rw [hkey, hkey]
      exact hfresh id (hv.inUse.mp hid)
  exact hinsert.congr hsame.bkts fun id _ => storedKey_congr hsame.keyStore id

theorem Placed.inUse {p : Pos} {sig : UInt16} {slotId : Nat} (hp : Placed sig slotId t p t')
    {id : Nat} : InUse t' id ↔ InUse t id ∨ (id = slotId ∧ slotId ≠ emptySlot) := by
  obtain ⟨v, hv, hempty, hsame⟩ := hp
  rw [InUse.of_idxAt (idxAt_congr hsame.bkts),
    inUse_insert hempty fun r => idxAt_setEntry v p r sig slotId, hv.inUse]

theorem Placed.keyStore {p : Pos} {sig : UInt16} {slotId : Nat} (hp : Placed sig slotId t p t') :
    t'.keyStore = t.keyStore := by
  obtain ⟨v, hv, -, hsame⟩ := hp
  exact hsame.keyStore.trans hv.keyStore

/-- つないだ後の entry。 -/
theorem linkExt_entries {b : BktRef} {sig : UInt16} {slotId : Nat} (r : Pos) :
    ((linkExt t b sig slotId).idxAt r
        = if r = (.ext (allocExtBkt t).1, 0) then slotId else t.idxAt r) ∧
      (linkExt t b sig slotId).sigAt r
        = if r = (.ext (allocExtBkt t).1, 0) then sig else t.sigAt r := by
  have hb := (allocExtBkt_bkts t).1
  unfold linkExt
  rw [idxAt_setNext, sigAt_setNext, idxAt_setEntry, sigAt_setEntry, idxAt_congr hb, sigAt_congr hb]
  exact ⟨rfl, rfl⟩

theorem linkExt_keyStore {b : BktRef} {sig : UInt16} {slotId : Nat} :
    (linkExt t b sig slotId).keyStore = t.keyStore := (allocExtBkt_bkts t).2.2

/-- つないだ bucket は第二の bucket の連なりに入り、今までの連なりも残る。 -/
theorem Linked.linkExt_home (hl : Linked t c) (halloc : (allocExtBkt t).1 ≠ 0) (b : UInt32)
    (sig : UInt16) (slotId : Nat) :
    t.idxAt (.ext (allocExtBkt t).1, 0) = emptySlot ∧
      .ext (allocExtBkt t).1 ∈ (linkExt t (.main b) sig slotId).chain h.numBuckets (.main b) ∧
      ∀ hv d, Home t hv d → Home (linkExt t (.main b) sig slotId) hv d := by
  have hlinked := hl.extend halloc b sig slotId
  have hid : (allocExtBkt t).1 = c + 1 := by
    rcases hl.alloc_cases with ⟨-, heq⟩ | ⟨q, -, -, heq⟩
    · rw [heq] at halloc
      exact absurd rfl halloc
    · rw [heq]
  obtain ⟨q, -, -, heq⟩ := hl.linkExt_eq halloc b sig slotId
  obtain ⟨hmem, hlast⟩ := hl.last_bkt b
  have hnext : (({ t with freeExtBkts := q }).setEntry (.ext (c + 1), 0) sig slotId).nextOf
      = t.nextOf := funext fun d => nextOf_setEntry { t with freeExtBkts := q } _ sig slotId d
  have hkeep : ∀ fuel d x, x ∈ t.chain fuel d →
      x ∈ (linkExt t (.main b) sig slotId).chain fuel d := by
    intro fuel d x hx
    rw [heq]
    refine mem_chain_setNext (by rw [hnext]; exact hlast) ?_
    rw [chain_congr hnext]
    exact hx
  rw [hid]
  refine ⟨(hl.fresh (c + 1) (Nat.lt_succ_self c)).2 0, ?_, ?_⟩
  · refine hlinked.mem_chain_next (show h.numBuckets ≤ 0 + h.numBuckets by omega)
      (hkeep _ _ _ hmem) ?_
    rw [heq, nextOf_setNext, if_pos rfl]
  · rintro hv d (hd | hd)
    · exact Or.inl hd
    · exact Or.inr (hkeep _ _ _ hd)

theorem Stored.linkExt {hv : UInt32} {slotId : Nat} (hs : Stored hash t) (hl : Linked t c)
    (halloc : (allocExtBkt t).1 ≠ 0)
    (hnew : slotId ≠ emptySlot → hv = hash (t.storedKey slotId) ∧ Fresh t slotId) :
    Stored hash (linkExt t (secOf h hv) (getShortSig hv) slotId) := by
  obtain ⟨hempty, hmem, hhome⟩ :=
    hl.linkExt_home halloc (getSecBucketIndex h hv) (getShortSig hv) slotId
  refine hs.insert hempty (fun r => (linkExt_entries r).1) (fun r => (linkExt_entries r).2) hhome
    (storedKey_congr linkExt_keyStore) fun hne => ?_
  obtain ⟨hhash, hfresh⟩ := hnew hne
  rw [← hhash]
  exact ⟨rfl, Or.inr hmem, hfresh⟩

theorem inUse_linkExt {hv : UInt32} {slotId : Nat} (hl : Linked t c)
    (halloc : (allocExtBkt t).1 ≠ 0) {id : Nat} :
    InUse (linkExt t (secOf h hv) (getShortSig hv) slotId) id ↔
      InUse t id ∨ (id = slotId ∧ slotId ≠ emptySlot) :=
  inUse_insert (hl.linkExt_home halloc (getSecBucketIndex h hv) (getShortSig hv) slotId).1
    fun r => (linkExt_entries r).1

/-! ## 検査の見落とし -/

/-- bucket `b` の、key の合う空でない entry の前に、slot 0 を指す entry が合う。 -/
def Masked (t : Table h) (key : Key8) (sig : UInt16) (b : BktRef) : Prop :=
  ∃ i j, i < j ∧ t.idxAt (b, i) = emptySlot ∧ t.sigAt (b, i) = sig ∧
    t.storedKey emptySlot = key ∧ t.idxAt (b, j) ≠ emptySlot ∧ t.sigAt (b, j) = sig ∧
    t.storedKey (t.idxAt (b, j)) = key

/-- 探される bucket に格納された key は、隠れていなければ見つかる。 -/
theorem Missed.masked {sig : UInt16} {bkt altBkt : BktRef} (hm : Missed t key sig bkt altBkt)
    {p : Pos} (hmem : p.1 ∈ searched t bkt altBkt) (hne : t.idxAt p ≠ emptySlot)
    (hsig : t.sigAt p = sig) (hkey : t.storedKey (t.idxAt p) = key8 key) :
    Masked t (key8 key) sig p.1 := by
  have hsome : ∃ i, findEntry t key p.1 sig = some i := by
    rw [← Option.isSome_iff_exists, findEntry, List.find?_isSome]
    refine ⟨p.2, List.mem_finRange _, ?_⟩
    rw [Bool.and_eq_true, beq_iff_eq, cmpEq_iff]
    exact ⟨hsig, hkey⟩
  obtain ⟨i, hi⟩ := hsome
  obtain ⟨⟨hisig, hikey⟩, hfirst⟩ := findEntry_eq_some.mp hi
  have hzero : t.idxAt (p.1, i) = emptySlot := by
    by_contra hne'
    exact hm (p.1, i) ⟨hmem, hi, hne'⟩
  refine ⟨i, p.2, ?_, hzero, hisig, by rw [← hzero]; exact hikey, hne, hsig, hkey⟩
  rcases Fin.lt_or_eq_of_le (Fin.not_lt.mp fun hlt => hfirst p.2 hlt ⟨hsig, hkey⟩) with hlt | he
  · exact hlt
  · rw [he] at hzero
    exact absurd hzero hne

/-- 第一の bucket と第二の連なりの検査が見落とした key は、隠れているか、格納されていない。 -/
theorem Stored.missed (hs : Stored hash t)
    (hm : Missed t key (getShortSig (hash (key8 key))) (primOf h (hash (key8 key)))
      (secOf h (hash (key8 key))))
    (hmask : ∀ b, Home t (hash (key8 key)) b →
      ¬ Masked t (key8 key) (getShortSig (hash (key8 key))) b)
    {id : Nat} (hid : InUse t id) : t.storedKey id ≠ key8 key := by
  obtain ⟨hne, p, rfl⟩ := hid
  intro hkey
  have hhome := hs.home p hne
  have hsig := hs.sig p hne
  rw [hkey] at hhome hsig
  refine hmask p.1 hhome (hm.masked ?_ hne hsig hkey)
  rcases hhome with hb | hb
  · rw [hb]
    exact List.mem_cons_self
  · exact List.mem_cons_of_mem _ hb

end L3fwd.Hash
