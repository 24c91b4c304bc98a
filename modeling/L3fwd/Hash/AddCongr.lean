import L3fwd.Hash.Slots

/-!
# 追加が見る byte

`__rte_hash_add_key_with_hash` が key store から読むのは、slot ごとの key の先頭 8 byte だけである。

bucket と ring が同じで、どの slot でもこの 8 byte が同じ二つの table を `Alike` と呼ぶ。
関数ごとに、`Alike` な table に先頭 8 byte の同じ key を渡せば、返り値は同じで、
後の table も `Alike` であることを示す（congruence）。

key が 8 byte なら、slot に書かれる key もこの 8 byte で決まるので、追加の全体がそうなる。
-/

namespace L3fwd.Hash

open Infra Table

variable {h : RteHash} {t u : Table h} {key key' : Key} {data : UInt64} {sig : UInt16}

/-- bucket と ring が同じで、どの slot でも比較される 8 byte が同じ table。番号は範囲にある。 -/
structure Alike (t u : Table h) : Prop where
  bkts : u.bkts = t.bkts
  freeSlots : u.freeSlots = t.freeSlots
  freeExtBkts : u.freeExtBkts = t.freeExtBkts
  storedKey : ∀ idx, idx ≤ h.entries → u.storedKey idx = t.storedKey idx
  idx_le : ∀ p, t.idxAt p ≤ h.entries
  slots_le : ∀ id ∈ t.freeSlots.items, id ≤ h.entries

/-- 返り値が同じで、後の table も `Alike` である。 -/
def AlikeResult {α : Type} (r r' : α × Table h) : Prop := r'.1 = r.1 ∧ Alike r.2 r'.2

/-! ## 読み書き -/

theorem Alike.idxAt (ha : Alike t u) : u.idxAt = t.idxAt := idxAt_congr ha.bkts

theorem Alike.sigAt (ha : Alike t u) : u.sigAt = t.sigAt := sigAt_congr ha.bkts

theorem Alike.chain (ha : Alike t u) (fuel : Nat) (b : BktRef) :
    u.chain fuel b = t.chain fuel b := chain_congr (nextOf_congr ha.bkts) fuel b

theorem Alike.firstEmpty (ha : Alike t u) (b : BktRef) : u.firstEmpty b = t.firstEmpty b := by
  rw [Table.firstEmpty, Table.firstEmpty, ha.bkts]

theorem Alike.setData (ha : Alike t u) (idx : Nat) (data : UInt64) :
    Alike (t.setData idx data) (u.setData idx data) :=
  { ha with
    storedKey := fun j hj => by
      rw [storedKey_setData, storedKey_setData]
      exact ha.storedKey j hj }

theorem Alike.setEntry (ha : Alike t u) (p : Pos) (sig : UInt16) {idx : Nat}
    (hidx : idx ≤ h.entries) : Alike (t.setEntry p sig idx) (u.setEntry p sig idx) where
  bkts := by rw [Table.setEntry, Table.setEntry, ha.bkts]
  freeSlots := ha.freeSlots
  freeExtBkts := ha.freeExtBkts
  storedKey := ha.storedKey
  idx_le := by
    intro q
    rw [idxAt_setEntry]
    split
    · exact hidx
    · exact ha.idx_le q
  slots_le := ha.slots_le

/-- entry を空にする。 -/
theorem Alike.clear (ha : Alike t u) (p : Pos) :
    Alike (t.setIdx p emptySlot) (u.setIdx p emptySlot) where
  bkts := by rw [Table.setIdx, Table.setIdx, ha.bkts]
  freeSlots := ha.freeSlots
  freeExtBkts := ha.freeExtBkts
  storedKey := ha.storedKey
  idx_le := by
    intro q
    rw [idxAt_setIdx]
    split
    · exact Nat.zero_le _
    · exact ha.idx_le q
  slots_le := ha.slots_le

theorem Alike.setNext (ha : Alike t u) (b : BktRef) (id : Nat) :
    Alike (t.setNext b id) (u.setNext b id) where
  bkts := by rw [Table.setNext, Table.setNext, ha.bkts]
  freeSlots := ha.freeSlots
  freeExtBkts := ha.freeExtBkts
  storedKey := ha.storedKey
  idx_le := by
    intro q
    rw [idxAt_setNext]
    exact ha.idx_le q
  slots_le := ha.slots_le

theorem Alike.bumpChngCnt (ha : Alike t u) : Alike t.bumpChngCnt u.bumpChngCnt := by
  unfold Table.bumpChngCnt
  split
  · exact ⟨ha.bkts, ha.freeSlots, ha.freeExtBkts, ha.storedKey, ha.idx_le, ha.slots_le⟩
  · exact ha

/-- 8 byte の key を同じ slot に書く。 -/
theorem Alike.setKey (hlen : h.keyLen = 8) (ha : Alike t u) (hk : key8 key' = key8 key)
    (idx : Nat) : Alike (t.setKey idx key) (u.setKey idx key') :=
  { ha with
    storedKey := fun j hj => by
      funext i
      have hold : u.keyStore (h.slotOffset j + 8 + i) = t.keyStore (h.slotOffset j + 8 + i) :=
        congrFun (ha.storedKey j hj) i
      show Mem.write _ _ _ _ _ = Mem.write _ _ _ _ _
      unfold Mem.write
      split
      · next hin =>
        rw [hlen] at hin
        exact congrFun hk ⟨_, by omega⟩
      · exact hold }

/-! ## ring -/

theorem Alike.allocSlot (ha : Alike t u) :
    AlikeResult t.allocSlot u.allocSlot ∧ t.allocSlot.1 ≤ h.entries := by
  unfold Table.allocSlot
  rw [ha.freeSlots]
  cases hpop : t.freeSlots.pop with
  | none => exact ⟨⟨rfl, ha⟩, Nat.zero_le _⟩
  | some r =>
    obtain ⟨id, q⟩ := r
    have hitems := Fifo.pop_items hpop
    have hslots := ha.slots_le
    rw [hitems] at hslots
    refine ⟨⟨rfl, ha.bkts, rfl, ha.freeExtBkts, ha.storedKey, ha.idx_le, ?_⟩, ?_⟩
    · exact fun x hx => hslots x (List.mem_cons_of_mem _ hx)
    · exact hslots id List.mem_cons_self

theorem Alike.enqueueSlotBack (ha : Alike t u) {slotId : Nat} (hslot : slotId ≤ h.entries) :
    Alike (t.enqueueSlotBack slotId) (u.enqueueSlotBack slotId) := by
  unfold Table.enqueueSlotBack
  rw [ha.freeSlots]
  cases hpush : t.freeSlots.push slotId with
  | none => exact ha
  | some q =>
    refine ⟨ha.bkts, rfl, ha.freeExtBkts, ha.storedKey, ha.idx_le, fun x hx => ?_⟩
    rw [Fifo.push_items hpush] at hx
    rcases List.mem_append.mp hx with hx | hx
    · exact ha.slots_le x hx
    · rw [List.mem_singleton.mp hx]
      exact hslot

theorem Alike.allocExtBkt (ha : Alike t u) : AlikeResult (allocExtBkt t) (allocExtBkt u) := by
  unfold Hash.allocExtBkt
  rw [ha.freeExtBkts]
  cases t.freeExtBkts.pop with
  | none => exact ⟨rfl, ha⟩
  | some r => exact ⟨rfl, ha.bkts, ha.freeSlots, rfl, ha.storedKey, ha.idx_le, ha.slots_le⟩

/-! ## 重複の検査 -/

theorem Alike.findEntry (ha : Alike t u) (hk : key8 key' = key8 key) (b : BktRef) (sig : UInt16) :
    findEntry u key' b sig = findEntry t key b sig := by
  have hcmp : ∀ i, u.cmpEq key' ((t.bkts b).keyIdx i) = t.cmpEq key ((t.bkts b).keyIdx i) := by
    intro i
    have hkey : u.storedKey ((t.bkts b).keyIdx i) = t.storedKey ((t.bkts b).keyIdx i) :=
      ha.storedKey _ (ha.idx_le (b, i))
    rw [Bool.eq_iff_iff, cmpEq_iff, cmpEq_iff, hkey, hk]
  unfold Hash.findEntry
  simp only [ha.bkts, hcmp]

theorem Alike.searchAndUpdate (ha : Alike t u) (hk : key8 key' = key8 key) (data : UInt64)
    (b : BktRef) (sig : UInt16) :
    AlikeResult (searchAndUpdate t data key b sig) (searchAndUpdate u data key' b sig) := by
  unfold Hash.searchAndUpdate
  rw [ha.findEntry hk]
  cases Hash.findEntry t key b sig with
  | none => exact ⟨rfl, ha⟩
  | some i =>
    dsimp only
    rw [ha.idxAt]
    exact ⟨rfl, ha.setData _ data⟩

theorem Alike.searchBuckets (hk : key8 key' = key8 key) (data : UInt64) (sig : UInt16)
    (bs : List BktRef) (ha : Alike t u) :
    AlikeResult (searchBuckets data key sig bs t) (searchBuckets data key' sig bs u) := by
  induction bs generalizing t u with
  | nil => exact ⟨rfl, ha⟩
  | cons b bs ih =>
    obtain ⟨hret, hnext⟩ := ha.searchAndUpdate hk data b sig
    rw [Hash.searchBuckets, Hash.searchBuckets, hret]
    split
    · exact ⟨hret, hnext⟩
    · exact ih hnext

theorem Alike.checkDup (ha : Alike t u) (hk : key8 key' = key8 key) (data : UInt64) (sig : UInt16)
    (bkt altBkt : BktRef) :
    AlikeResult (checkDup t data key sig bkt altBkt) (checkDup u data key' sig bkt altBkt) := by
  unfold Hash.checkDup
  rw [ha.chain]
  exact Alike.searchBuckets hk data sig _ ha

/-! ## 空きへの挿入と押し出し -/

theorem Alike.cuckooInsertMw (ha : Alike t u) (hk : key8 key' = key8 key) (data : UInt64)
    (sig : UInt16) (primBkt secBkt : BktRef) {newIdx : Nat} (hnew : newIdx ≤ h.entries) :
    AlikeResult (cuckooInsertMw t primBkt secBkt key data sig newIdx)
      (cuckooInsertMw u primBkt secBkt key' data sig newIdx) := by
  obtain ⟨hret, hnext⟩ := ha.checkDup hk data sig primBkt secBkt
  unfold Hash.cuckooInsertMw
  dsimp only
  rw [hret, hnext.firstEmpty]
  split
  · exact ⟨rfl, hnext⟩
  · split
    · exact ⟨rfl, hnext.setEntry _ sig hnew⟩
    · exact ⟨rfl, hnext⟩

theorem Alike.moveAlong (sig : UInt16) {newIdx : Nat} (hnew : newIdx ≤ h.entries)
    (node : QueueNode) : ∀ (slot : Fin bucketEntries) {t u : Table h}, Alike t u →
      AlikeResult (moveAlong sig newIdx node slot t) (moveAlong sig newIdx node slot u) := by
  induction node with
  | root bkt idx =>
    intro slot t u ha
    exact ⟨rfl, ha.bumpChngCnt.setEntry _ sig hnew⟩
  | child bkt idx prev prevSlot ih =>
    intro slot t u ha
    rw [Hash.moveAlong, Hash.moveAlong, ha.sigAt, ha.idxAt]
    split
    · exact ⟨rfl, ha.clear _⟩
    · exact ih prevSlot (ha.bumpChngCnt.setEntry _ _ (ha.idx_le _))

theorem Alike.cuckooMoveInsertMw (ha : Alike t u) (hk : key8 key' = key8 key) (data : UInt64)
    (sig : UInt16) (bkt altBkt : BktRef) (leaf : QueueNode) (slot : Fin bucketEntries)
    {newIdx : Nat} (hnew : newIdx ≤ h.entries) :
    AlikeResult (cuckooMoveInsertMw t bkt altBkt key data leaf slot sig newIdx)
      (cuckooMoveInsertMw u bkt altBkt key' data leaf slot sig newIdx) := by
  obtain ⟨hret, hnext⟩ := ha.checkDup hk data sig bkt altBkt
  unfold Hash.cuckooMoveInsertMw
  dsimp only
  rw [ha.idxAt, hret]
  split
  · exact ⟨rfl, ha⟩
  · split
    · exact ⟨rfl, hnext⟩
    · exact Alike.moveAlong sig hnew leaf slot hnext

theorem Alike.enqueue (ha : Alike t u) (s : Bfs) (node : QueueNode) :
    s.enqueue u node = s.enqueue t node := by
  unfold Bfs.enqueue
  rw [ha.sigAt]

theorem Alike.makeSpaceLoop
    {move move' : Table h → QueueNode → Fin bucketEntries → CuckooRet × Table h}
    (hmove : ∀ t u, Alike t u → ∀ node slot, AlikeResult (move t node slot) (move' u node slot))
    (fuel : Nat) : ∀ (s : Bfs) {t u : Table h}, Alike t u →
      AlikeResult (makeSpaceLoop move fuel s t) (makeSpaceLoop move' fuel s u) := by
  induction fuel with
  | zero =>
    intro s t u ha
    exact ⟨rfl, ha⟩
  | succ fuel ih =>
    intro s t u ha
    rw [Hash.makeSpaceLoop, Hash.makeSpaceLoop]
    cases s.queue with
    | nil => exact ⟨rfl, ha⟩
    | cons node rest =>
      dsimp only
      rw [ha.idxAt]
      split
      · exact ⟨rfl, ha⟩
      · split
        · obtain ⟨hret, hnext⟩ := hmove t u ha node s.slot
          generalize move t node s.slot = r at hret hnext
          generalize move' u node s.slot = r' at hret hnext
          obtain ⟨ret, t1⟩ := r
          obtain ⟨ret', u1⟩ := r'
          obtain rfl : ret' = ret := hret
          cases ret' with
          | failed =>
            dsimp only
            rw [Alike.enqueue hnext]
            exact ih _ hnext
          | inserted => exact ⟨rfl, hnext⟩
          | present retVal => exact ⟨rfl, hnext⟩
        · rw [ha.enqueue]
          exact ih _ ha

theorem Alike.cuckooMakeSpaceMw (ha : Alike t u) (hk : key8 key' = key8 key) (data : UInt64)
    (sig : UInt16) (bkt secBkt : BktRef) (bucketIdx : UInt32) {newIdx : Nat}
    (hnew : newIdx ≤ h.entries) :
    AlikeResult (cuckooMakeSpaceMw t bkt secBkt key data sig bucketIdx newIdx)
      (cuckooMakeSpaceMw u bkt secBkt key' data sig bucketIdx newIdx) :=
  Alike.makeSpaceLoop (fun _ _ ha node slot =>
    ha.cuckooMoveInsertMw hk data sig bkt secBkt node slot hnew) _ _ ha

/-! ## extendable bucket -/

theorem Alike.firstEmptyIn (ha : Alike t u) (bs : List BktRef) :
    firstEmptyIn u bs = firstEmptyIn t bs := by
  induction bs with
  | nil => rfl
  | cons b bs ih => rw [Hash.firstEmptyIn, Hash.firstEmptyIn, ha.firstEmpty, ih]

theorem Alike.insertExtNew (ha : Alike t u) (secBkt : BktRef) (sig : UInt16) {slotId : Nat}
    (hslot : slotId ≤ h.entries) :
    AlikeResult (insertExtNew t secBkt sig slotId) (insertExtNew u secBkt sig slotId) := by
  obtain ⟨hret, hnext⟩ := ha.allocExtBkt
  unfold Hash.insertExtNew
  rw [ha.chain, ha.firstEmptyIn]
  split
  · exact ⟨rfl, ha.setEntry _ sig hslot⟩
  · dsimp only
    rw [hret]
    split
    · exact ⟨rfl, hnext⟩
    · have hset := hnext.setEntry (.ext (Hash.allocExtBkt t).1, 0) sig hslot
      refine ⟨rfl, ?_⟩
      dsimp only
      rw [getLastBkt, getLastBkt, hset.chain]
      exact hset.setNext _ _

theorem Alike.insertExt (ha : Alike t u) (hk : key8 key' = key8 key) (data : UInt64)
    (sig : UInt16) (primBkt secBkt : BktRef) {slotId : Nat} (hslot : slotId ≤ h.entries) :
    AlikeResult (insertExt t primBkt secBkt key data sig slotId)
      (insertExt u primBkt secBkt key' data sig slotId) := by
  obtain ⟨hret, hnext⟩ := ha.checkDup hk data sig primBkt secBkt
  unfold Hash.insertExt
  dsimp only
  rw [hret]
  split
  · exact ⟨rfl, hnext.enqueueSlotBack hslot⟩
  · exact hnext.insertExtNew secBkt sig hslot

/-! ## 追加の全体 -/

theorem AlikeResult.finishWith {slotId : Nat} {next next' : Table h → Int × Table h}
    {r r' : CuckooRet × Table h} (hr : AlikeResult r r') (hslot : slotId ≤ h.entries)
    (hnext : ∀ t u, Alike t u → AlikeResult (next t) (next' u)) :
    AlikeResult (finishWith slotId next r) (finishWith slotId next' r') := by
  obtain ⟨ret, t⟩ := r
  obtain ⟨ret', u⟩ := r'
  obtain ⟨hret, ha⟩ := hr
  obtain rfl : ret' = ret := hret
  cases ret' with
  | inserted => exact ⟨rfl, ha⟩
  | present retVal => exact ⟨rfl, ha.enqueueSlotBack hslot⟩
  | failed => exact hnext t u ha

theorem Alike.storeSlot (ha : Alike t u) (hk : key8 key' = key8 key) (hv : UInt32)
    (data : UInt64) {slotId : Nat} (hslot : slotId ≤ h.entries) :
    AlikeResult (storeSlot t slotId key hv data) (storeSlot u slotId key' hv data) := by
  unfold Hash.storeSlot
  refine (ha.cuckooInsertMw hk data _ _ _ hslot).finishWith hslot fun t u ha => ?_
  refine (ha.cuckooMakeSpaceMw hk data _ _ _ _ hslot).finishWith hslot fun t u ha => ?_
  refine (ha.cuckooMakeSpaceMw hk data _ _ _ _ hslot).finishWith hslot fun t u ha => ?_
  split
  · exact ha.insertExt hk data _ _ _ hslot
  · exact ⟨rfl, ha.enqueueSlotBack hslot⟩

/-- **key が 8 byte なら、追加の結果は、比較される byte のほかによらない。** -/
theorem Alike.addKeyWithHash (hlen : h.keyLen = 8) (ha : Alike t u) (hk : key8 key' = key8 key)
    (hv : UInt32) (data : UInt64) :
    AlikeResult (addKeyWithHash t key hv data) (addKeyWithHash u key' hv data) := by
  obtain ⟨hret, hnext⟩ := ha.checkDup hk data (getShortSig hv) (primOf h hv) (secOf h hv)
  rw [addKeyWithHash_eq, addKeyWithHash_eq, hret]
  split
  · exact ⟨hret, hnext⟩
  · obtain ⟨⟨hslot, halloc⟩, hle⟩ := hnext.allocSlot
    unfold Table.takeSlot
    dsimp only
    rw [hslot]
    exact ((halloc.setData _ data).setKey hlen hk _).storeSlot hk hv data hle

end L3fwd.Hash
