import L3fwd.Hash.Trace
import L3fwd.Hash.Sizes
import L3fwd.Hash.Capacity

/-!
# writer の lock の使い方

追加が残す出来事（`Hash/Trace.lean`）の列を、lock を持っているかどうかの二つの局面で調べる。

* lock を持つあいだに取り直すことも、持たずに返すこともなく、どの返り道でも返している
* bucket への書き込みはすべて lock の中にある
* lock の外の書き込みは、取ったばかりの slot の data と key だけである

他の writer が table をどう変えても最初の二つは成り立つ。残るのは三つ目で、その slot の byte が、
使われている slot の data と重なるかどうかで決まる（`lock_discipline_iff`）。
slot の位置は 32 bit で折り返すので、別の番号の slot と重なることがある。
-/

namespace L3fwd.Hash

open Infra Table

variable {h : RteHash}

/-! ## 決まり -/

/-- `addr` からの `len` byte は、bucket が指すどの slot の data とも重ならない。 -/
def Table.DataClear (t : Table h) (addr len : Nat) : Prop :=
  ∀ p, t.idxAt p ≠ emptySlot → Apart addr len (h.slotOffset (t.idxAt p)) 8

namespace Trace

/-- lock を持つかどうかで許されること。 -/
def Entry.Allowed (held : Bool) (e : Entry h) : Prop :=
  match e.event with
  | .lock => held = false
  | .unlock | .storeEntry _ | .storeIdx _ | .storeNext _ => held = true
  | .storeData idx => held = true ∨ e.table.DataClear (h.slotOffset idx) 8
  | .storeKey idx => held = true ∨ e.table.DataClear (h.slotOffset idx + 8) h.keyLen
  | .pathCheck _ | .moveInsert _ _ _ => True

/-- 出来事の後で lock を持つか。 -/
def Entry.holds (held : Bool) (e : Entry h) : Bool :=
  match e.event with
  | .lock => true
  | .unlock => false
  | _ => held

/-- lock を持たずに始め、決まりを守り、持たずに終わる。 -/
def Disciplined (trace : List (Entry h)) : Prop :=
  Conforms Entry.Allowed Entry.holds false trace false

/-- `f` は、lock を持つかどうかを `held` から `held'` に変えるまで、決まりを守る。 -/
abbrev Keeps {α : Type} (held : Bool) (f : M h α) (held' : Bool) : Prop :=
  Traced.Obeys Entry.Allowed Entry.holds held f held'

variable {env : Nat → Table h → Table h} {hw : Bool}

/-! ## lock の中 -/

/-- lock の中ならどこに書いてもよい。 -/
theorem keeps_store (e : Event) (f : Table h → Table h) (he : e.stores = true) :
    Keeps true (store e f) true := by
  intro s
  cases e with
  | storeEntry p => exact ⟨rfl, rfl⟩
  | storeIdx p => exact ⟨rfl, rfl⟩
  | storeNext b => exact ⟨rfl, rfl⟩
  | storeData idx => exact ⟨Or.inl rfl, rfl⟩
  | storeKey idx => exact ⟨Or.inl rfl, rfl⟩
  | lock => cases he
  | unlock => cases he
  | pathCheck ok => cases he
  | moveInsert leaf leafSlot ret => cases he

section

variable (hlock : h.writerTakesLock = true)
include hlock

theorem keeps_lock : Keeps false (hashRwWriterLock env hw) true := by
  unfold hashRwWriterLock
  refine (obeys_interfere env).bind fun _ => ?_
  cases hw with
  | true =>
    rw [if_pos (by rw [hlock]; rfl)]
    exact fun _ => ⟨rfl, rfl⟩
  | false =>
    rw [if_neg (by simp), if_pos hlock]
    exact fun _ => ⟨rfl, rfl⟩

theorem keeps_unlock : Keeps true (hashRwWriterUnlock hw : M h Unit) false := by
  unfold hashRwWriterUnlock
  cases hw with
  | true =>
    rw [if_pos (by rw [hlock]; rfl)]
    exact fun _ => ⟨rfl, rfl⟩
  | false =>
    rw [if_neg (by simp), if_pos hlock]
    exact fun _ => ⟨rfl, rfl⟩

theorem lockRules : LockRules Entry.Allowed Entry.holds env hw false true where
  lock := keeps_lock hlock
  unlock := keeps_unlock hlock
  store := keeps_store

/-- **押し出しは、path が崩れていても最後まで進んでも、lock を一度だけ返す。** -/
theorem keeps_moveAlong (sig : UInt16) (newIdx : Nat) (node : QueueNode)
    (slot : Fin bucketEntries) :
    Keeps true (moveAlong hw sig newIdx node slot : M h CuckooRet) false := by
  have hr : LockRules Entry.Allowed Entry.holds alone hw false true := lockRules hlock
  induction node generalizing slot with
  | root bkt idx => exact hr.finish _ rfl _
  | child currBkt idx prev prevSlot ih =>
    refine obeys_table.bind fun t => Traced.Obeys.bind (fun _ => ⟨trivial, rfl⟩) fun _ => ?_
    split
    · exact hr.finish _ (by rfl) _
    · exact (hr.store _ _ (by rfl)).bind fun _ => ih prevSlot

theorem keeps_callMoveInsert (bkt altBkt : BktRef) (key : Key) (data : UInt64) (sig : UInt16)
    (newIdx : Nat) (leaf : QueueNode) (leafSlot : Fin bucketEntries) :
    Keeps false (callMoveInsert env hw bkt altBkt key data sig newIdx leaf leafSlot) false := by
  have hr : LockRules Entry.Allowed Entry.holds env hw false true := lockRules hlock
  have hbody : Keeps false
      (cuckooMoveInsertMw env hw bkt altBkt key data leaf leafSlot sig newIdx) false := by
    refine hr.lock.bind fun _ => obeys_table.bind fun t => ?_
    split
    · exact hr.return_ _
    · refine (hr.checkDup data key sig bkt altBkt).bind fun r => ?_
      split
      · exact hr.return_ _
      · exact keeps_moveAlong hlock sig newIdx leaf leafSlot
  exact obeys_table.bind fun t => hbody.bind fun ret =>
    Traced.Obeys.bind (fun _ => ⟨trivial, rfl⟩) fun _ => Traced.Obeys.pure ret

omit hlock in
/-- 押し出しが lock を持たずに始まり持たずに終わるなら、探索もそうである。 -/
theorem keeps_makeSpaceLoop {move : QueueNode → Fin bucketEntries → M h CuckooRet}
    (hmove : ∀ node slot, Keeps false (move node slot) false) (fuel : Nat) (bfs : Bfs) :
    Keeps false (makeSpaceLoop env move fuel bfs) false := by
  induction fuel generalizing bfs with
  | zero => exact Traced.Obeys.pure _
  | succ fuel ih =>
    unfold makeSpaceLoop
    split
    · exact Traced.Obeys.pure _
    · next node _ _ =>
      have hnext : Keeps false (do
          interfere env
          makeSpaceLoop env move fuel (bfs.enqueue (← table) node)) false :=
        (obeys_interfere env).bind fun _ => obeys_table.bind fun t => ih _
      split
      · exact Traced.Obeys.pure _
      · refine (obeys_interfere env).bind fun _ => obeys_table.bind fun t => ?_
        split
        · refine (hmove node bfs.slot).bind fun ret => ?_
          cases ret with
          | inserted => exact Traced.Obeys.pure _
          | present retVal => exact Traced.Obeys.pure _
          | failed => exact hnext
        · exact hnext

theorem keeps_cuckooMakeSpaceMw (bkt secBkt : BktRef) (key : Key) (data : UInt64) (sig : UInt16)
    (bucketIdx : UInt32) (newIdx : Nat) :
    Keeps false (cuckooMakeSpaceMw env hw bkt secBkt key data sig bucketIdx newIdx) false :=
  keeps_makeSpaceLoop (keeps_callMoveInsert hlock bkt secBkt key data sig newIdx) bfsQueueMaxLen
    (Bfs.start bkt bucketIdx)

omit hlock in
theorem keeps_finishWith {slotId : Nat} {next : M h Int} (hnext : Keeps false next false)
    (ret : CuckooRet) : Keeps false (finishWith env slotId next ret) false := by
  cases ret with
  | inserted => exact Traced.Obeys.pure _
  | present retVal =>
    exact (obeys_interfere env).bind fun _ => (obeys_update _).bind fun _ => Traced.Obeys.pure _
  | failed => exact hnext

theorem keeps_storeSlot (slotId : Nat) (key : Key) (hash : UInt32) (data : UInt64) :
    Keeps false (storeSlot env hw slotId key hash data) false := by
  have hr : LockRules Entry.Allowed Entry.holds env hw false true := lockRules hlock
  refine (hr.cuckooInsertMw _ _ key data _ slotId).bind (keeps_finishWith ?_)
  refine (keeps_cuckooMakeSpaceMw hlock _ _ key data _ _ slotId).bind (keeps_finishWith ?_)
  refine (keeps_cuckooMakeSpaceMw hlock _ _ key data _ _ slotId).bind (keeps_finishWith ?_)
  split
  · exact hr.insertExt _ _ key data _ slotId
  · exact (obeys_interfere env).bind fun _ => (obeys_update _).bind fun _ => Traced.Obeys.pure _

end

/-! ## lock の外の書き込み -/

variable (env hw)

theorem state_lock (s : Running h) :
    (hashRwWriterLock env hw).state s = ⟨env s.clock s.table, s.clock + 1⟩ := by
  unfold hashRwWriterLock
  rw [Traced.state_bind]
  split
  · rfl
  · split <;> rfl

theorem state_unlock (s : Running h) : (hashRwWriterUnlock hw : M h Unit).state s = s := by
  unfold hashRwWriterUnlock
  split
  · rfl
  · split <;> rfl

/-- 検査のあいだ、他の writer が動く機会は無い。 -/
theorem clock_searchBuckets (data : UInt64) (key : Key) (sig : UInt16) (bs : List BktRef)
    (s : Running h) : ((searchBuckets data key sig bs).state s).clock = s.clock := by
  have hone : ∀ (b : BktRef) (s : Running h),
      ((searchAndUpdate data key b sig).state s).clock = s.clock := by
    intro b s
    unfold searchAndUpdate
    rw [Traced.state_bind]
    split <;> rfl
  induction bs generalizing s with
  | nil => rfl
  | cons b bs ih =>
    unfold searchBuckets
    rw [Traced.state_bind]
    split
    · exact hone b s
    · rw [ih, hone]

theorem val_firstCheck (key : Key) (hash : UInt32) (data : UInt64) (s : Running h) :
    (firstCheck env hw key hash data).val s = (Hash.checkDup (env s.clock s.table) data key
      (getShortSig hash) (primOf h hash) (secOf h hash)).1 := by
  have hval := (erases_checkDup data key (getShortSig hash) (primOf h hash) (secOf h hash)).val
    ((hashRwWriterLock env hw).state s)
  rw [state_lock] at hval
  rw [← hval, ← state_lock env hw]
  rfl

theorem state_firstCheck (key : Key) (hash : UInt32) (data : UInt64) (s : Running h) :
    (firstCheck env hw key hash data).state s = ⟨(Hash.checkDup (env s.clock s.table) data key
      (getShortSig hash) (primOf h hash) (secOf h hash)).2, s.clock + 1⟩ := by
  have htable := (erases_checkDup data key (getShortSig hash) (primOf h hash) (secOf h hash)).state
    ((hashRwWriterLock env hw).state s)
  have hclock := clock_searchBuckets data key (getShortSig hash)
    (primOf h hash :: (env s.clock s.table).chain h.numBuckets (secOf h hash))
    ⟨env s.clock s.table, s.clock + 1⟩
  rw [state_lock] at htable
  unfold firstCheck
  rw [Traced.state_bind, state_lock, Traced.state_bind, Traced.state_bind, state_unlock]
  exact congrArg₂ Running.mk htable hclock

end Trace

/-- lock の外で書くときの、取った番号と、二つの書き込みの直前の table。 -/
structure UnlockedStores (h : RteHash) where
  slotId : Nat
  atData : Table h
  atKey : Table h

/-- `alloc_slot` から `memcpy` まで。一つごとに、他の writer が先に動くかもしれない。 -/
def unlockedStores (env : Nat → Table h → Table h) (clock : Nat) (t : Table h) (data : UInt64) :
    UnlockedStores h :=
  let a := (env clock t).allocSlot
  let u := env (clock + 1) a.2
  ⟨a.1, u, env (clock + 2) (u.setData a.1 data)⟩

/--
最初の検査で見つからなければ、取った slot の data と key の byte は、
書くときに bucket が指しているどの slot の data とも重ならない。
-/
def TakesClear (env : Nat → Table h → Table h) (t : Table h) (key : Key) (hash : UInt32)
    (data : UInt64) : Prop :=
  let found := checkDup (env 0 t) data key (getShortSig hash) (primOf h hash) (secOf h hash)
  let w := unlockedStores env 1 found.2 data
  found.1 = -1 → w.atData.DataClear (h.slotOffset w.slotId) 8 ∧
    w.atKey.DataClear (h.slotOffset w.slotId + 8) h.keyLen

namespace Trace

variable (env : Nat → Table h → Table h) (hw : Bool)

/-- lock の外の二つの書き込み。 -/
theorem conforms_takeSlot (key : Key) (data : UInt64) (s : Running h) :
    Disciplined ((takeSlot env key data).trace s) ↔
      (unlockedStores env s.clock s.table data).atData.DataClear
          (h.slotOffset (unlockedStores env s.clock s.table data).slotId) 8 ∧
        (unlockedStores env s.clock s.table data).atKey.DataClear
          (h.slotOffset (unlockedStores env s.clock s.table data).slotId + 8) h.keyLen := by
  constructor
  · rintro ⟨hdata | hdata, hkey | hkey, -⟩
    · cases hdata
    · cases hdata
    · cases hkey
    · exact ⟨hdata, hkey⟩
  · rintro ⟨hdata, hkey⟩
    exact ⟨Or.inr hdata, Or.inr hkey, rfl⟩

/-- 最初の検査で見つからなければ、決まりを守るかどうかは lock の外の二つの書き込みで決まる。 -/
theorem disciplined_add_iff (hlock : h.writerTakesLock = true) {t : Table h} {key : Key}
    {hash : UInt32} {data : UInt64} (hmiss : (Hash.checkDup (env 0 t) data key (getShortSig hash)
      (primOf h hash) (secOf h hash)).1 = -1) :
    Disciplined ((addKeyWithHash env hw key hash data).trace ⟨t, 0⟩) ↔
      Disciplined ((takeSlot env key data).trace ⟨(Hash.checkDup (env 0 t) data key
        (getShortSig hash) (primOf h hash) (secOf h hash)).2, 1⟩) := by
  have hfirst : Keeps false (firstCheck env hw key hash data) false :=
    (lockRules hlock).firstCheck key hash data
  unfold addKeyWithHash Disciplined
  rw [Traced.trace_bind, (hfirst _).append_iff, val_firstCheck, state_firstCheck]
  dsimp only
  rw [if_neg (not_not_intro hmiss), Traced.trace_bind, conforms_append]
  constructor
  · rintro ⟨m, hm, -⟩
    -- 二つの書き込みの後も lock は持っていない
    obtain rfl : false = m := hm.2.2
    exact hm
  · exact fun htake => ⟨false, htake, keeps_storeSlot hlock _ _ _ _ _⟩

/-- 最初の検査で見つかれば、いつも決まりを守る。 -/
theorem disciplined_add_of_found (hlock : h.writerTakesLock = true) {t : Table h} {key : Key}
    {hash : UInt32} {data : UInt64} (hfound : (Hash.checkDup (env 0 t) data key (getShortSig hash)
      (primOf h hash) (secOf h hash)).1 ≠ -1) :
    Disciplined ((addKeyWithHash env hw key hash data).trace ⟨t, 0⟩) := by
  have hfirst : Keeps false (firstCheck env hw key hash data) false :=
    (lockRules hlock).firstCheck key hash data
  unfold addKeyWithHash Disciplined
  rw [Traced.trace_bind, (hfirst _).append_iff, val_firstCheck, state_firstCheck]
  dsimp only
  rw [if_pos hfound]
  rfl

end Trace

/--
**lock の使い方の決まりを守る条件。**

table の中身も、他の writer による変化も任意である。lock の出し入れと bucket への書き込みはいつも決まりを守り、
守られないのは、lock の外で書く slot が、使われている slot の data と重なるときに限る。
-/
theorem lock_discipline_iff (hlock : h.writerTakesLock = true) (env : Nat → Table h → Table h)
    (hwTransMemSupport : Bool) (t : Table h) (key : Key) (hash : UInt32) (data : UInt64) :
    Trace.Disciplined ((Trace.addKeyWithHash env hwTransMemSupport key hash data).trace ⟨t, 0⟩) ↔
      TakesClear env t key hash data := by
  by_cases hmiss : (checkDup (env 0 t) data key (getShortSig hash) (primOf h hash)
      (secOf h hash)).1 = -1
  · rw [Trace.disciplined_add_iff env hwTransMemSupport hlock hmiss, Trace.conforms_takeSlot]
    exact ⟨fun hclear _ => hclear, fun hclear => hclear hmiss⟩
  · have hok := Trace.disciplined_add_of_found env hwTransMemSupport hlock hmiss
    exact ⟨fun _ hx => absurd hx hmiss, fun _ => hok⟩

/-! ## 一人の writer の追加 -/

variable {t : Table h}

/-- 追加の外では、番号は `free_slots` か entry のどちらか高々一か所にしかない。 -/
def OwnedOutside (t : Table h) : Prop := Owned t fun _ : Unit => 0

/-- 一人の writer の追加で到達するどの table でも、番号は高々一か所にしかない。 -/
theorem owned_of_reaches {keyStore : Mem}
    (hr : Reaches addStep Always (Table.init h keyStore) t) : OwnedOutside t := by
  have hinit : OwnedOutside (Table.init h keyStore) := Owned.init h keyStore
  refine hr.invariant hinit ?_
  rintro u op u' hu - hstep
  obtain rfl := Option.some.inj hstep
  rcases addKeyWithHash_cases u op.key op.hash op.data with
    ⟨ret, t', heq, hpres⟩ | ⟨-, t0, ht0, hout⟩
  · rw [heq]
    exact hpres.dataOnly.owned hu
  · have htake : Owned (t0.takeSlot op.key op.data).2
        fun _ : Unit => (t0.takeSlot op.key op.data).1 := by
      have := Owned.allocSlot (i := ()) (ht0.dataOnly.owned hu) rfl
      rw [update_unit] at this
      exact this.congr rfl rfl
    generalize addKeyWithHash u op.key op.hash op.data = r at hout ⊢
    exact hout.owned htake

/-- 取った番号は、bucket の指すどの番号とも違う。 -/
theorem OwnedOutside.allocSlot_ne (ho : OwnedOutside t) {p : Pos}
    (hp : t.idxAt p ≠ emptySlot) : t.allocSlot.1 ≠ t.idxAt p ∧ t.allocSlot.1 ≤ h.entries := by
  rcases allocSlot_cases t with ⟨-, heq⟩ | ⟨id, q, hitems, heq⟩
  · rw [heq]
    exact ⟨hp.symm, Nat.zero_le _⟩
  · rw [heq]
    refine ⟨?_, ho.ring_le id (by rw [hitems]; exact List.mem_cons_self)⟩
    rintro rfl
    exact ho.ring_entry p hp (by rw [hitems]; exact List.mem_cons_self)

/-- 位置が折り返さなければ、取った slot は、使われている slot の data と重ならない。 -/
theorem OwnedOutside.unlockedStores_clear (ho : OwnedOutside t)
    (hfit : h.entries * h.alignedSize < 2 ^ 32) (clock : Nat) (data : UInt64) :
    (unlockedStores Trace.alone clock t data).atData.DataClear
        (h.slotOffset (unlockedStores Trace.alone clock t data).slotId) 8 ∧
      (unlockedStores Trace.alone clock t data).atKey.DataClear
        (h.slotOffset (unlockedStores Trace.alone clock t data).slotId + 8) h.keyLen := by
  have hidx : t.allocSlot.2.idxAt = t.idxAt := idxAt_congr (ringOnly_allocSlot t).bkts
  have hapart : ∀ p, t.allocSlot.2.idxAt p ≠ emptySlot → Apart (h.slotOffset t.allocSlot.1)
      (RteHash.sizeofKey + h.keyLen) (h.slotOffset (t.allocSlot.2.idxAt p))
        (RteHash.sizeofKey + h.keyLen) := by
    intro p hp
    rw [hidx] at hp ⊢
    obtain ⟨hne, hle⟩ := ho.allocSlot_ne hp
    exact (RteHash.slotsDisjoint_of_lt hfit _ _ hle (ho.entry_le p) hne).1
  unfold RteHash.sizeofKey at hapart
  constructor
  · intro p hp
    show Apart (h.slotOffset t.allocSlot.1) 8 (h.slotOffset (t.allocSlot.2.idxAt p)) 8
    exact (hapart p hp).mono (le_refl _) (by omega) (le_refl _) (by omega)
  · intro p hp
    show Apart (h.slotOffset t.allocSlot.1 + 8) h.keyLen (h.slotOffset (t.allocSlot.2.idxAt p)) 8
    exact (hapart p hp).mono (by omega) (by omega) (le_refl _) (by omega)

/-- **slot の位置が 32 bit に収まるなら、一人の writer で到達するどの table でも、条件が成り立つ。** -/
theorem takesClear_of_reaches (hfit : h.entries * h.alignedSize < 2 ^ 32) {keyStore : Mem}
    (hr : Reaches addStep Always (Table.init h keyStore) t) (key : Key) (hash : UInt32)
    (data : UInt64) : TakesClear Trace.alone t key hash data := by
  intro hmiss
  rcases checkDup_cases t data key (getShortSig hash) (primOf h hash) (secOf h hash) with
    ⟨-, -, ht⟩ | ⟨hne, -⟩
  · have ho : OwnedOutside (checkDup (Trace.alone 0 t) data key (getShortSig hash) (primOf h hash)
        (secOf h hash)).2 := ht.dataOnly.owned (owned_of_reaches hr)
    exact ho.unlockedStores_clear hfit 1 data
  · exact absurd hmiss hne

/-- lock を使う、8 byte の key の table。 -/
def lockedKeys : RteHash := { eightKeys with writerTakesLock := true }

theorem lock_discipline_second :
    Trace.Disciplined ((Trace.addKeyWithHash Trace.alone true (keyOf 2) 0 0).trace
      ⟨(addKeyWithHash (Table.init lockedKeys fun _ => 0) (keyOf 1) 0 0).2, 0⟩) := by
  have hr : Reaches addStep Always (Table.init lockedKeys fun _ => 0)
      (addKeyWithHash (Table.init lockedKeys fun _ => 0) (keyOf 1) 0 0).2 :=
    (Reaches.refl _).snoc (a := ⟨keyOf 1, 0, 0⟩) trivial rfl
  exact (lock_discipline_iff rfl Trace.alone true _ (keyOf 2) 0 0).mpr
    (takesClear_of_reaches (by decide) hr (keyOf 2) 0 0)

/-! ## 重なる slot への書き込み -/

/-- 二つの key を入れた table。三つ目の追加が取る slot 3 は、slot 1 と同じ位置にある。 -/
def twoHugeKeys : Table hugeKeys :=
  (addKeyWithHash (addKeyWithHash (Table.init hugeKeys fun _ => 0) (keyOf 1) 0 0).2 (keyOf 2) 0 0).2

theorem twoHugeKeys_undisciplined :
    Reaches addStep Always (Table.init hugeKeys fun _ => 0) twoHugeKeys ∧
      ¬ Trace.Disciplined
        ((Trace.addKeyWithHash Trace.alone false (keyOf 3) 0 0).trace ⟨twoHugeKeys, 0⟩) := by
  have hr : Reaches addStep Always (Table.init hugeKeys fun _ => 0) twoHugeKeys :=
    ((Reaches.refl _).snoc (a := ⟨keyOf 1, 0, 0⟩) trivial rfl).snoc
      (a := ⟨keyOf 2, 0, 0⟩) trivial rfl
  refine ⟨hr, ?_⟩
  have hmiss : (checkDup (Trace.alone 0 twoHugeKeys) 0 (keyOf 3) (getShortSig 0) (primOf hugeKeys 0)
      (secOf hugeKeys 0)).1 = -1 := by decide +kernel
  rw [Trace.disciplined_add_iff (t := twoHugeKeys) Trace.alone false rfl hmiss,
    Trace.conforms_takeSlot]
  rintro ⟨hdata, -⟩
  refine hdata (.main 0, 0) (by decide +kernel) (2 ^ 31) ?_ ?_ ?_ ?_
  · decide +kernel
  · decide +kernel
  · decide +kernel
  · decide +kernel

end L3fwd.Hash
