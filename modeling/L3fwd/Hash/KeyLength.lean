import L3fwd.Hash.AddCongr
import L3fwd.Hash.Displacement
import L3fwd.Hash.FiniteMap

/-!
# key の長さと比較の幅

`rte_hash_cmp_eq` は `sizeof(key1)` byte、つまり pointer の大きさの 8 byte を比べる。
`key_len` が 8 でない table では、これは key の比較ではない。

* `key_len` が 8 より大きければ、先頭 8 byte の同じ違う key が同じ key とみなされる
* `key_len` が 8 より小さければ、key の後ろの byte だけが違う同じ key が別の key とみなされる

`key_len` が 8 なら、新しい slot の位置が 32 bit に収まる追加だけの実行で、
違う key は決して混ざらない（`distinguishes_iff`）。
-/

namespace L3fwd.Hash

open Infra Table

variable {h : RteHash} {t : Table h} {hash : List UInt8 → UInt32}

/-! ## key を区別する追加 -/

/-- key の pointer の先の `key_len` byte。 -/
def RteHash.keyBytesOf (h : RteHash) (key : Key) : List UInt8 := (List.range h.keyLen).map key

/-- key の hash は `rte_hash_hash` と同じく `key_len` byte から求める。 -/
def keyedAdd (hash : List UInt8 → UInt32) (t : Table h) (op : Key × UInt64) : Int × Table h :=
  addKeyWithHash t op.1 (hash (h.keyBytesOf op.1)) op.2

def keyedStep (hash : List UInt8 → UInt32) (t : Table h) (op : Key × UInt64) : Option (Table h) :=
  some (keyedAdd hash t op).2

/-- slot を取る追加では、`free_slots` の先頭の slot の位置が 32 bit に収まる。 -/
def TakenFits (hash : List UInt8 → UInt32) (t : Table h) (op : Key × UInt64) : Prop :=
  Missed t op.1 (getShortSig (hash (h.keyBytesOf op.1))) (primOf h (hash (h.keyBytesOf op.1)))
      (secOf h (hash (h.keyBytesOf op.1))) →
    ∀ id ∈ t.freeSlots.items.head?, Fits h id

/-- この追加は、`key_len` byte の違う key を混ぜない。 -/
structure Distinguishes (hash : List UInt8 → UInt32) (t : Table h) (op : Key × UInt64) :
    Prop where
  /-- 違う key の slot は、key も data も残る。 -/
  others : ∀ id, InUse t id → t.keyBytes id ≠ h.keyBytesOf op.1 →
    InUse (keyedAdd hash t op).2 id ∧ (keyedAdd hash t op).2.keyBytes id = t.keyBytes id ∧
      (keyedAdd hash t op).2.storedData id = t.storedData id
  /-- 違う key の追加は、後でも同じ番号を返す。 -/
  index : ∀ id, InUse t id → t.keyBytes id ≠ h.keyBytesOf op.1 → ∀ op' : Key × UInt64,
    h.keyBytesOf op'.1 = t.keyBytes id →
      (keyedAdd hash t op').1 = (id : Int) - 1 ∧
        (keyedAdd hash (keyedAdd hash t op).2 op').1 = (id : Int) - 1
  /-- 格納された key とみなすのは、`key_len` byte の同じ key があるときに限る。 -/
  recognised : (∃ id, InUse t id ∧ (keyedAdd hash t op).1 = (id : Int) - 1) ↔
    ∃ id, InUse t id ∧ t.keyBytes id = h.keyBytesOf op.1
  /-- 返り値は、引数の `key_len` byte より先によらない。 -/
  keyTail : ∀ key', h.keyBytesOf key' = h.keyBytesOf op.1 →
    (keyedAdd hash t (key', op.2)).1 = (keyedAdd hash t op).1
  /-- 返り値は、slot にある key の `key_len` byte より先によらない。 -/
  storeTail : ∀ keyStore : Mem,
    (∀ id, id ≤ h.entries → ({ t with keyStore := keyStore }).keyBytes id = t.keyBytes id) →
      (keyedAdd hash { t with keyStore := keyStore } op).1 = (keyedAdd hash t op).1

/-! ## key の長さが 8 のとき -/

/-- 8 byte の key の hash。 -/
def hash8 (hash : List UInt8 → UInt32) (k : Key8) : UInt32 := hash (List.ofFn k)

/-- slot を取る追加の条件は、記録の無い key の追加の条件である。 -/
theorem TakenFits.slotFits {log : AddLog} {op : Key × UInt64}
    (hi : MapInv (hash8 hash) (⟨t, log⟩ : MapState h)) (hfit : TakenFits hash t op) :
    SlotFits ⟨t, log⟩ op := by
  intro hnone
  refine hfit fun p hhit => ?_
  exact hi.logged.eq_none.mp hnone _ ⟨hhit.2.2, p, rfl⟩ hhit.storedKey

/-- 使われている slot の記録は、違う key の追加の後も残る。 -/
theorem MapInv.log_kept {log : AddLog} (hi : MapInv (hash8 hash) (⟨t, log⟩ : MapState h))
    {op : Key × UInt64} {id : Nat} (hid : InUse t id) (hne : t.storedKey id ≠ key8 op.1) :
    log (t.storedKey id) = some ((id : Int) - 1, t.storedData id) ∧
      ((⟨t, log⟩ : MapState h).add (hash8 hash) op).log (t.storedKey id)
        = some ((id : Int) - 1, t.storedData id) := by
  have hlog : log (t.storedKey id) = some ((id : Int) - 1, t.storedData id) :=
    (hi.logged _ _ _).mpr ⟨id, hid, rfl, rfl, rfl⟩
  refine ⟨hlog, ?_⟩
  unfold MapState.add
  dsimp only
  split
  · rw [Function.update_of_ne hne]
    exact hlog
  · exact hlog

section

variable (hlen : h.keyLen = 8)
include hlen

theorem map_range_keyLen (f : Nat → UInt8) :
    (List.range h.keyLen).map f = List.ofFn fun j : Fin 8 => f j := by
  rw [hlen]
  rfl

theorem keyBytesOf_eq (key : Key) : h.keyBytesOf key = List.ofFn (key8 key) :=
  map_range_keyLen hlen key

theorem keyBytes_eq (t : Table h) (id : Nat) : t.keyBytes id = List.ofFn (t.storedKey id) :=
  map_range_keyLen hlen fun j => t.keyStore (h.slotOffset id + 8 + j)

theorem keyBytesOf_inj {key key' : Key} :
    h.keyBytesOf key' = h.keyBytesOf key ↔ key8 key' = key8 key := by
  rw [keyBytesOf_eq hlen, keyBytesOf_eq hlen]
  exact List.ofFn_injective.eq_iff

theorem keyBytes_eq_keyBytesOf {id : Nat} {key : Key} :
    t.keyBytes id = h.keyBytesOf key ↔ t.storedKey id = key8 key := by
  rw [keyBytes_eq hlen, keyBytesOf_eq hlen]
  exact List.ofFn_injective.eq_iff

theorem keyedAdd_eq (t : Table h) (op : Key × UInt64) :
    keyedAdd hash t op = addKeyWithHash t op.1 (hash8 hash (key8 op.1)) op.2 := by
  rw [keyedAdd, hash8, keyBytesOf_eq hlen]

/-- 逐次の追加の間、table は何かの記録を持つ。 -/
theorem mapInv_keyed {keyStore : Mem}
    (hr : Reaches (keyedStep hash) (TakenFits hash) (Table.init h keyStore) t) :
    ∃ log, MapInv (hash8 hash) (⟨t, log⟩ : MapState h) := by
  have hstep : ∀ (u : Table h) (op : Key × UInt64) (u' : Table h),
      (∃ log, MapInv (hash8 hash) (⟨u, log⟩ : MapState h)) → TakenFits hash u op →
        keyedStep hash u op = some u' → ∃ log, MapInv (hash8 hash) (⟨u', log⟩ : MapState h) := by
    rintro u op u' ⟨log, hu⟩ hfit hstep
    obtain rfl := Option.some.inj hstep
    rw [keyedAdd_eq hlen]
    exact ⟨_, hu.add hlen op (hfit.slotFits hu)⟩
  exact hr.invariant ⟨fun _ => none, MapInv.init (hash8 hash) h keyStore⟩ hstep

/-- **違う key の slot は変わらない。** -/
theorem MapInv.others {log : AddLog} (hi : MapInv (hash8 hash) (⟨t, log⟩ : MapState h))
    {op : Key × UInt64} (hfit : TakenFits hash t op) {id : Nat} (hid : InUse t id)
    (hne : t.storedKey id ≠ key8 op.1) :
    InUse (keyedAdd hash t op).2 id ∧ (keyedAdd hash t op).2.storedKey id = t.storedKey id ∧
      (keyedAdd hash t op).2.storedData id = t.storedData id := by
  have hi' := hi.add hlen op (hfit.slotFits hi)
  obtain ⟨id', hid', hkey, hv, hd⟩ := (hi'.logged _ _ _).mp (hi.log_kept hid hne).2
  obtain rfl : id = id' := by omega
  rw [keyedAdd_eq hlen]
  exact ⟨hid', hkey, hd⟩

/-- 違う key の返り値は、追加の前も後も同じである。 -/
theorem MapInv.index {log : AddLog} (hi : MapInv (hash8 hash) (⟨t, log⟩ : MapState h))
    {op : Key × UInt64} (hfit : TakenFits hash t op) {id : Nat} (hid : InUse t id)
    (hne : t.storedKey id ≠ key8 op.1) {op' : Key × UInt64} (hop : key8 op'.1 = t.storedKey id) :
    (keyedAdd hash t op').1 = (id : Int) - 1 ∧
      (keyedAdd hash (keyedAdd hash t op).2 op').1 = (id : Int) - 1 := by
  obtain ⟨hlog, hlog'⟩ := hi.log_kept hid hne
  have hi' := hi.add hlen op (hfit.slotFits hi)
  rw [← hop] at hlog hlog'
  constructor
  · rw [keyedAdd_eq hlen]
    exact hi.ret_eq hlog op'.2
  · rw [keyedAdd_eq hlen, keyedAdd_eq hlen]
    exact hi'.ret_eq hlog' op'.2

/-- **使われている slot の番号が返るのは、その key が格納されているときに限る。** -/
theorem MapInv.recognised {log : AddLog} (hi : MapInv (hash8 hash) (⟨t, log⟩ : MapState h))
    {op : Key × UInt64} (hfit : TakenFits hash t op) :
    (∃ id, InUse t id ∧ (keyedAdd hash t op).1 = (id : Int) - 1) ↔
      ∃ id, InUse t id ∧ t.storedKey id = key8 op.1 := by
  constructor
  · rintro ⟨id, hid, hret⟩
    by_contra hno
    have hne : ∀ j, InUse t j → t.storedKey j ≠ key8 op.1 := fun j hj hk => hno ⟨j, hj, hk⟩
    -- 返った番号は記録され、その slot にはいまの key がある。もとの key は変わらないはずである
    have hi' := hi.add hlen op (hfit.slotFits hi)
    have hpos : 0 ≤ (id : Int) - 1 := by
      have : id ≠ 0 := hid.1
      omega
    have hlog : ((⟨t, log⟩ : MapState h).add (hash8 hash) op).log (key8 op.1)
        = some ((id : Int) - 1, op.2) := by
      rw [keyedAdd_eq hlen] at hret
      unfold MapState.add
      dsimp only
      rw [hret, if_pos hpos, Function.update_self]
    obtain ⟨id', hid', hkey, hv, -⟩ := (hi'.logged _ _ _).mp hlog
    obtain rfl : id = id' := by omega
    obtain ⟨-, hkeep, -⟩ := hi.others hlen hfit hid (hne id hid)
    rw [keyedAdd_eq hlen] at hkeep
    exact hne id hid (hkeep.symm.trans hkey)
  · rintro ⟨id, hid, hkey⟩
    refine ⟨id, hid, ?_⟩
    rw [keyedAdd_eq hlen]
    refine hi.ret_eq (d := t.storedData id) ?_ op.2
    exact (hi.logged _ _ _).mpr ⟨id, hid, hkey, rfl, rfl⟩

/-- **key の長さが 8 なら、追加は違う key を混ぜない。** -/
theorem MapInv.distinguishes {log : AddLog}
    (hi : MapInv (hash8 hash) (⟨t, log⟩ : MapState h)) {op : Key × UInt64}
    (hfit : TakenFits hash t op) : Distinguishes hash t op := by
  have halike : ∀ keyStore : Mem,
      (∀ id, id ≤ h.entries → ({ t with keyStore := keyStore }).keyBytes id = t.keyBytes id) →
        Alike t { t with keyStore := keyStore } := by
    intro keyStore hsame
    refine ⟨rfl, rfl, rfl, fun id hid => ?_, hi.owned.entry_le, hi.owned.ring_le⟩
    have := hsame id hid
    rw [keyBytes_eq hlen, keyBytes_eq hlen] at this
    exact List.ofFn_injective this
  refine ⟨?_, ?_, ?_, ?_, ?_⟩
  · intro id hid hne
    obtain ⟨hid', hkey, hdata⟩ := hi.others hlen hfit hid
      (fun he => hne ((keyBytes_eq_keyBytesOf hlen).mpr he))
    refine ⟨hid', ?_, hdata⟩
    rw [keyBytes_eq hlen, keyBytes_eq hlen, hkey]
  · intro id hid hne op' hop
    exact hi.index hlen hfit hid (fun he => hne ((keyBytes_eq_keyBytesOf hlen).mpr he))
      ((keyBytes_eq_keyBytesOf hlen).mp hop.symm).symm
  · simp only [keyBytes_eq_keyBytesOf hlen]
    exact hi.recognised hlen hfit
  · intro key' hkey
    have hk := (keyBytesOf_inj hlen).mp hkey
    have hself : Alike t t := halike t.keyStore fun _ _ => rfl
    rw [keyedAdd, keyedAdd, hkey]
    exact (hself.addKeyWithHash hlen hk _ op.2).1
  · intro keyStore hsame
    exact ((halike keyStore hsame).addKeyWithHash hlen rfl _ op.2).1

end

/-! ## key の長さが 8 でないとき -/

/-- 番号 `n` の byte だけが 1 の key。 -/
def tailKey (n : Nat) : Key := fun j => if j = n then 1 else 0

theorem key8_tailKey : key8 (tailKey 8) = fun _ => 0 :=
  funext fun j => if_neg (Nat.ne_of_lt j.isLt)

/-- 0 だけの key を一つ入れた table。key store もすべて 0 である。 -/
structure OneZero (t : Table h) : Prop where
  store : ∀ x, t.keyStore x = 0
  idx : ∀ p, t.idxAt p = if p = (.main 0, 0) then 1 else emptySlot
  sig : ∀ p, t.sigAt p = 0
  ring : t.freeSlots.items = List.range' 2 (h.entries - 1)

/-- 0 の書き込みは、0 だけの key store を変えない。 -/
theorem setData_zero (hz : ∀ x, t.keyStore x = 0) (id x : Nat) : (t.setData id 0).keyStore x = 0 := by
  show Mem.write _ _ _ _ _ = 0
  unfold Mem.write
  split
  · rw [Mem.byteOf, UInt64.toNat_zero, Nat.zero_div]
    rfl
  · exact hz x

theorem setKey_zero {key : Key} (hz : ∀ x, t.keyStore x = 0)
    (hkey : ∀ j, j < h.keyLen → key j = 0) (id x : Nat) : (t.setKey id key).keyStore x = 0 := by
  show Mem.write _ _ _ _ _ = 0
  unfold Mem.write
  split
  · exact hkey _ (by omega)
  · exact hz x

theorem Touched.zero {t' : Table h} (ht : Touched 0 t t') (hz : ∀ x, t.keyStore x = 0) (x : Nat) :
    t'.keyStore x = 0 := by
  rcases ht with rfl | rfl
  · exact hz x
  · exact setData_zero hz _ x

theorem takeSlot_zero (key : Key) (hz : ∀ x, t.keyStore x = 0)
    (hkey : ∀ j, j < h.keyLen → key j = 0) (x : Nat) :
    (t.takeSlot key 0).2.keyStore x = 0 := by
  have halloc : ∀ y, t.allocSlot.2.keyStore y = 0 := by
    intro y
    rw [(ringOnly_allocSlot t).keyStore]
    exact hz y
  exact setKey_zero (setData_zero halloc _) hkey _ x

theorem storedKey_of_zero (hz : ∀ x, t.keyStore x = 0) (id : Nat) : t.storedKey id = fun _ => 0 :=
  funext fun _ => hz _

/-- 最初の table に、0 だけの key を入れる。 -/
def zeroAdded (h : RteHash) : Table h :=
  (keyedAdd (fun _ => 0) (Table.init h fun _ => 0) (fun _ => 0, 0)).2

theorem oneZero_zeroAdded (h : RteHash) : OneZero (zeroAdded h) := by
  obtain ⟨hprim, hsec, hsig⟩ := bkts_of_zero h
  have hmiss : ∀ u : Table h, u.bkts = (Table.init h fun _ => 0).bkts →
      Missed u (fun _ => 0) (getShortSig 0) (primOf h 0) (secOf h 0) := by
    intro u hu p hhit
    refine hhit.2.2 ?_
    rw [idxAt_congr hu]
    rfl
  obtain ⟨t0, ht0, heq⟩ := addKeyWithHash_missed 0 (hmiss (Table.init h fun _ => 0) rfl)
  obtain ⟨hub, -, hring⟩ := takeSlot_cases t0 (fun _ => 0) 0
  have hzero := takeSlot_zero (fun _ => 0) (ht0.zero fun _ => rfl) fun _ _ => rfl
  rw [ht0.dataOnly.freeSlots] at hring
  rw [ht0.dataOnly.bkts] at hub
  generalize t0.takeSlot (fun _ => 0) 0 = r at heq hub hring hzero
  obtain ⟨slotId, u⟩ := r
  have hitems : (Table.init h fun _ => 0).freeSlots.items = 1 :: List.range' 2 (h.entries - 1) := by
    have hge : 8 ≤ h.entries := h.entries_ge
    show List.range' 1 h.entries = _
    rw [show h.entries = h.entries - 1 + 1 by omega, List.range'_succ]
    rfl
  rw [hitems] at hring
  obtain ⟨rfl, hrest⟩ : slotId = 1 ∧ u.freeSlots.items = List.range' 2 (h.entries - 1) := by
    rcases hring with ⟨hnil, -⟩ | hcons
    · cases hnil
    · obtain ⟨h1, h2⟩ := List.cons.inj hcons
      exact ⟨h1.symm, h2.symm⟩
  have hfirst : u.firstEmpty (primOf h 0) = some 0 := by
    rw [firstEmpty_eq_some, idxAt_congr hub]
    exact ⟨rfl, fun j hj => absurd hj (Fin.not_lt_zero j)⟩
  obtain ⟨u1, hu1, hres⟩ := storeSlot_direct 1 0 (hmiss u hub) hfirst
  have hbkts := hu1.dataOnly.bkts.trans hub
  have hadd : zeroAdded h = u1.setEntry (.main 0, 0) 0 1 := by
    unfold zeroAdded keyedAdd
    dsimp only
    rw [heq, hres, hprim, hsig]
  rw [hadd]
  refine ⟨hu1.zero hzero, fun p => ?_, fun p => ?_, hu1.dataOnly.freeSlots ▸ hrest⟩
  · rw [idxAt_setEntry, idxAt_congr hbkts]
    rfl
  · rw [sigAt_setEntry, sigAt_congr hbkts]
    split
    · rfl
    · rfl

theorem OneZero.inUse (ho : OneZero t) {id : Nat} : InUse t id ↔ id = 1 := by
  constructor
  · rintro ⟨hne, p, rfl⟩
    have hp := ho.idx p
    by_cases he : p = (.main 0, 0)
    · rw [if_pos he] at hp
      exact hp
    · rw [if_neg he] at hp
      exact absurd hp hne
  · rintro rfl
    refine ⟨by decide, (.main 0, 0), ?_⟩
    rw [ho.idx, if_pos rfl]

/-- 先頭 8 byte が 0 の key は、入っている key とみなされる。 -/
theorem OneZero.found (ho : OneZero t) (op : Key × UInt64) (hkey : key8 op.1 = fun _ => 0) :
    ¬ Missed t op.1 (getShortSig 0) (primOf h 0) (secOf h 0) ∧
      (keyedAdd (fun _ => 0) t op).1 = 0 := by
  obtain ⟨hprim, -, hsig⟩ := bkts_of_zero h
  have hnot : ¬ Missed t op.1 (getShortSig 0) (primOf h 0) (secOf h 0) := by
    intro hmiss
    refine hmiss (.main 0, 0) ⟨?_, findEntry_eq_some.mpr ⟨⟨?_, ?_⟩, fun j hj => ?_⟩, ?_⟩
    · rw [hprim]
      exact List.mem_cons_self
    · rw [hsig]
      exact ho.sig _
    · rw [hkey]
      exact storedKey_of_zero ho.store _
    · exact absurd hj (Fin.not_lt_zero j)
    · rw [ho.idx, if_pos rfl]
      decide
  refine ⟨hnot, ?_⟩
  unfold keyedAdd
  rcases addKeyWithHash_cases t op.1 0 op.2 with ⟨ret, t', heq, p, -, hhit, -, hret, -⟩ | ⟨hmiss, -⟩
  · rw [heq, hret, ho.inUse.mp ⟨hhit.2.2, p, rfl⟩]
    rfl
  · exact absurd hmiss hnot

/-- 先頭 8 byte のどれかが 0 でなければ、`key_len` byte が 0 でも、入っている key とみなされない。 -/
theorem OneZero.notFound (ho : OneZero t) {key : Key} (hkey : key8 key ≠ fun _ => 0)
    (hbytes : ∀ j, j < h.keyLen → key j = 0) : (keyedAdd (fun _ => 0) t (key, 0)).1 ≠ 0 := by
  unfold keyedAdd
  have hmiss : ∀ u : Table h, (∀ x, u.keyStore x = 0) → ∀ sig bs p, ¬ Hit u key sig bs p := by
    intro u hu sig bs p hhit
    exact hkey (hhit.storedKey.symm.trans (storedKey_of_zero hu _))
  rcases addKeyWithHash_cases t key 0 0 with ⟨ret, t', -, p, -, hhit, -⟩ | ⟨-, t0, ht0, hout⟩
  · exact absurd hhit (hmiss t ho.store _ _ p)
  · have hzero := takeSlot_zero key (ht0.zero ho.store) hbytes
    have hslot : (t0.takeSlot key 0).1 ≠ 1 := by
      obtain ⟨-, -, ⟨-, hslot, -⟩ | hcons⟩ := takeSlot_cases t0 key 0
      · rw [hslot]
        decide
      · intro he
        have hmem : 1 ∈ t0.freeSlots.items := by
          rw [hcons, he]
          exact List.mem_cons_self
        rw [ht0.dataOnly.freeSlots, ho.ring] at hmem
        exact absurd (List.mem_range'_1.mp hmem).1 (by decide)
    generalize addKeyWithHash t key 0 0 = r at hout
    generalize t0.takeSlot key 0 = a at hout hzero hslot
    cases hout with
    | present hroles hpres =>
      obtain ⟨p, -, hhit, -⟩ := hpres
      exact absurd hhit (hmiss _ hzero _ _ p)
    | placed =>
      show (a.1 : Int) - 1 ≠ 0
      omega
    | linked =>
      show (a.1 : Int) - 1 ≠ 0
      omega
    | noBucket =>
      show -enospc ≠ 0
      decide
    | noSpace =>
      show -enospc ≠ 0
      decide

/-- **`key_len` が 8 より大きければ、先頭 8 byte の同じ key が混ざる。** -/
theorem OneZero.conflates (ho : OneZero t) (hlen : 8 < h.keyLen) :
    ¬ Distinguishes (fun _ => 0) t (tailKey 8, 0) := by
  intro hd
  have hret : (keyedAdd (fun _ => 0) t (tailKey 8, 0)).1 = ((1 : Nat) : Int) - 1 :=
    (ho.found (tailKey 8, 0) key8_tailKey).2
  obtain ⟨id, -, hbytes⟩ := hd.recognised.mp ⟨1, ho.inUse.mpr rfl, hret⟩
  have h8 := List.map_inj_left.mp hbytes 8 (List.mem_range.mpr hlen)
  rw [ho.store] at h8
  exact absurd h8 (by decide)

/-- **`key_len` が 8 より小さければ、同じ key を見落とす。** -/
theorem OneZero.splits (ho : OneZero t) (hlen : h.keyLen < 8) :
    ¬ Distinguishes (fun _ => 0) t (tailKey h.keyLen, 0) := by
  intro hd
  have hbytes : ∀ j, j < h.keyLen → tailKey h.keyLen j = 0 := fun j hj => if_neg (Nat.ne_of_lt hj)
  have hkey : key8 (tailKey h.keyLen) ≠ fun _ => 0 := by
    intro he
    have hone : tailKey h.keyLen h.keyLen = 0 := congrFun he ⟨h.keyLen, hlen⟩
    rw [tailKey, if_pos rfl] at hone
    exact absurd hone (by decide)
  have hsame : t.keyBytes 1 = h.keyBytesOf (tailKey h.keyLen) := by
    refine List.map_congr_left fun j hj => ?_
    rw [ho.store, hbytes j (List.mem_range.mp hj)]
  obtain ⟨id, hid, hret⟩ := hd.recognised.mpr ⟨1, ho.inUse.mpr rfl, hsame⟩
  rw [ho.inUse.mp hid] at hret
  exact ho.notFound hkey hbytes hret

/-! ## 必要十分な長さ -/

/-- 0 だけの key の追加は、slot 1 を取る。 -/
theorem zeroAdded_reaches (h : RteHash) :
    Reaches (keyedStep fun _ => 0) (TakenFits fun _ => 0) (Table.init h fun _ => 0)
      (zeroAdded h) := by
  refine (Reaches.refl _).snoc (a := ((fun _ => 0 : Key), 0)) (fun _ id hid => ?_) rfl
  have hge : 8 ≤ h.entries := h.entries_ge
  obtain rfl : 1 = id := by
    have hhead : (List.range' 1 h.entries).head? = some id := hid
    rw [show h.entries = h.entries - 1 + 1 by omega, List.range'_succ] at hhead
    exact Option.some.inj hhead
  unfold Fits RteHash.keyEntrySize
  omega

/--
**違う key が決して混ざらないのは、`key_len` が 8 の table に限る。**

どの hash でも、key store の最初の中身が何でも、slot の位置が 32 bit に収まる追加だけの実行で
到達するどの table でも、次の追加が区別することを求める。
-/
theorem distinguishes_iff (h : RteHash) :
    (∀ (hash : List UInt8 → UInt32) (keyStore : Mem) (t : Table h) (op : Key × UInt64),
      Reaches (keyedStep hash) (TakenFits hash) (Table.init h keyStore) t →
        TakenFits hash t op → Distinguishes hash t op) ↔ h.keyLen = 8 := by
  constructor
  · intro hall
    have ho := oneZero_zeroAdded h
    have hd := fun op => hall (fun _ => 0) (fun _ => 0) (zeroAdded h) op (zeroAdded_reaches h)
    rcases Nat.lt_trichotomy h.keyLen 8 with hlt | heq | hgt
    · refine absurd (hd (tailKey h.keyLen, 0) fun _ id hid => ?_) (ho.splits hlt)
      rw [ho.ring] at hid
      have hge : 8 ≤ h.entries := h.entries_ge
      obtain rfl : 2 = id := by
        rw [show h.entries - 1 = h.entries - 2 + 1 by omega, List.range'_succ] at hid
        exact Option.some.inj hid
      unfold Fits RteHash.keyEntrySize
      omega
    · exact heq
    · refine absurd (hd (tailKey 8, 0) fun hmiss => ?_) (ho.conflates hgt)
      exact absurd hmiss (ho.found (tailKey 8, 0) key8_tailKey).1
  · intro hlen hash keyStore t op hr hfit
    obtain ⟨log, hi⟩ := mapInv_keyed hlen hr
    exact hi.distinguishes hlen hfit

/-- 先頭 8 byte の同じ二つの 37 byte の key は混ざる。 -/
theorem ipv6_conflated :
    Reaches (keyedStep fun _ => 0) Always (Table.init ipv6Keys fun _ => 0) (zeroAdded ipv6Keys) ∧
      ¬ Distinguishes (fun _ => 0) (zeroAdded ipv6Keys) (tailKey 8, 0) :=
  ⟨(Reaches.refl _).snoc (a := ((fun _ => 0 : Key), 0)) trivial rfl,
    (oneZero_zeroAdded ipv6Keys).conflates (by decide)⟩

end L3fwd.Hash
