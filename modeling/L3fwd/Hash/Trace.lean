import L3fwd.Infra.Traced
import L3fwd.Hash.Sections

/-!
# 追加が残す出来事

`Hash/Insert.lean` の関数を、lock の出し入れと一つ一つの書き込みが見える形で書き直す。

* lock を取るところと、lock の外で table を読み書きするところでは、その前に他の writer が table を
  変えているかもしれない。`env n` が `n` 回目にその変化を与える
* 書き込みの出来事には、書く直前の table を添える
* 押し出しの呼び出しは、返ったところで、呼ばれたときの table と返り値を添えて残す

他の writer がいなければ、もとの関数と同じものを計算する（`Trace.erases_addKeyWithHash`）。
-/

namespace L3fwd.Hash

open Infra Table

namespace Trace

/-- 追加のあいだの出来事。 -/
inductive Event where
  /-- `rte_rwlock_write_lock`。 -/
  | lock
  /-- `rte_rwlock_write_unlock`。 -/
  | unlock
  /-- `sig_current` と `key_idx` への書き込み。 -/
  | storeEntry (p : Pos)
  /-- `key_idx` だけへの書き込み。 -/
  | storeIdx (p : Pos)
  | storeNext (b : BktRef)
  /-- slot の `pdata` への書き込み。 -/
  | storeData (idx : Nat)
  /-- slot の key への書き込み。 -/
  | storeKey (idx : Nat)
  /-- path の検査。`ok` は行き先がいまの bucket だったかどうか。 -/
  | pathCheck (ok : Bool)
  /-- `rte_hash_cuckoo_move_insert_mw` の呼び出し。 -/
  | moveInsert (leaf : QueueNode) (leafSlot : Fin bucketEntries) (ret : CuckooRet)

/-- table を添えた出来事。 -/
structure Entry (h : RteHash) where
  table : Table h
  event : Event

/-- 追加の途中。`clock` は、他の writer が動く機会が何度あったかを数える。 -/
structure Running (h : RteHash) where
  table : Table h
  clock : Nat

variable {h : RteHash}

abbrev M (h : RteHash) := Traced (Running h) (Entry h)

/-! ## 基本の操作 -/

def table : M h (Table h) := Traced.read Running.table

/-- 出来事を、いまの table を添えて残す。 -/
def record (e : Event) : M h Unit := do Traced.emit ⟨← table, e⟩

/-- 出来事を残さずに table を変える。 -/
def update (f : Table h → Table h) : M h Unit :=
  Traced.modify fun s => { s with table := f s.table }

/-- 書き込む。 -/
def store (e : Event) (f : Table h → Table h) : M h Unit := do
  record e
  update f

/-- 値を返す table の操作。出来事は残さない。 -/
def apply {α : Type} (f : Table h → α × Table h) : M h α := do
  let t ← table
  update fun _ => (f t).2
  return (f t).1

/-- 他の writer が table を変える。 -/
def interfere (env : Nat → Table h → Table h) : M h Unit :=
  Traced.modify fun s => ⟨env s.clock s.table, s.clock + 1⟩

section

variable (s : Running h)

@[simp] theorem val_table : (table : M h _).val s = s.table := rfl

@[simp] theorem state_table : (table : M h _).state s = s := rfl

@[simp] theorem trace_table : (table : M h _).trace s = [] := rfl

@[simp] theorem state_record (e : Event) : (record e : M h _).state s = s := rfl

@[simp] theorem trace_record (e : Event) : (record e : M h _).trace s = [⟨s.table, e⟩] := rfl

@[simp] theorem state_store (e : Event) (f : Table h → Table h) :
    (store e f).state s = ⟨f s.table, s.clock⟩ := rfl

@[simp] theorem trace_store (e : Event) (f : Table h → Table h) :
    (store e f).trace s = [⟨s.table, e⟩] := rfl

end

/-! ## lock -/

section

variable (env : Nat → Table h → Table h) (hwTransMemSupport : Bool)

/-- `__hash_rw_writer_lock`。取るまでのあいだに、他の writer が table を変えているかもしれない。 -/
def hashRwWriterLock : M h Unit := do
  interfere env
  if h.writerTakesLock && hwTransMemSupport then record .lock
  else if h.writerTakesLock then record .lock

/-- `__hash_rw_writer_unlock`。 -/
def hashRwWriterUnlock : M h Unit := do
  if h.writerTakesLock && hwTransMemSupport then record .unlock
  else if h.writerTakesLock then record .unlock

/-! ## 検査 -/

/-- `search_and_update`。 -/
def searchAndUpdate (data : UInt64) (key : Key) (b : BktRef) (sig : UInt16) : M h Int := do
  let t ← table
  match findEntry t key b sig with
  | none => return -1
  | some i =>
    store (.storeData (t.idxAt (b, i))) fun t' => t'.setData (t.idxAt (b, i)) data
    return (t.idxAt (b, i) : Int) - 1

/-- bucket を順に探す。 -/
def searchBuckets (data : UInt64) (key : Key) (sig : UInt16) : List BktRef → M h Int
  | [] => return -1
  | b :: bs => do
    let r ← searchAndUpdate data key b sig
    if r ≠ -1 then return r else searchBuckets data key sig bs

/-- 重複の検査。 -/
def checkDup (data : UInt64) (key : Key) (sig : UInt16) (bkt altBkt : BktRef) : M h Int := do
  let t ← table
  searchBuckets data key sig (bkt :: t.chain h.numBuckets altBkt)

/-! ## 空きへの挿入 -/

/-- `rte_hash_cuckoo_insert_mw`。 -/
def cuckooInsertMw (primBkt secBkt : BktRef) (key : Key) (data : UInt64) (sig : UInt16)
    (newIdx : Nat) : M h CuckooRet := do
  hashRwWriterLock env hwTransMemSupport
  let r ← checkDup data key sig primBkt secBkt
  if r ≠ -1 then
    hashRwWriterUnlock hwTransMemSupport
    return .present r
  else
    match (← table).firstEmpty primBkt with
    | some i =>
      store (.storeEntry (primBkt, i)) fun t => t.setEntry (primBkt, i) sig newIdx
      hashRwWriterUnlock hwTransMemSupport
      return .inserted
    | none =>
      hashRwWriterUnlock hwTransMemSupport
      return .failed

/-! ## 押し出し -/

/-- path に沿う押し出し。終われば lock を返す。 -/
def moveAlong (sig : UInt16) (newIdx : Nat) : QueueNode → Fin bucketEntries → M h CuckooRet
  | .root bkt _, currSlot => do
    store (.storeEntry (bkt, currSlot)) fun t => t.bumpChngCnt.setEntry (bkt, currSlot) sig newIdx
    hashRwWriterUnlock hwTransMemSupport
    return .inserted
  | .child currBkt _ prev prevSlot, currSlot => do
    let t ← table
    let prevSig := t.sigAt (prev.bkt, prevSlot)
    let prevAlt := BktRef.main (getAltBucketIndex h prev.curBktIdx prevSig)
    record (.pathCheck (prevAlt = currBkt))
    if prevAlt ≠ currBkt then
      store (.storeIdx (currBkt, currSlot)) fun t => t.setIdx (currBkt, currSlot) emptySlot
      hashRwWriterUnlock hwTransMemSupport
      return .failed
    else
      store (.storeEntry (currBkt, currSlot)) fun t' =>
        t'.bumpChngCnt.setEntry (currBkt, currSlot) prevSig (t.idxAt (prev.bkt, prevSlot))
      moveAlong sig newIdx prev prevSlot

/-- `rte_hash_cuckoo_move_insert_mw`。 -/
def cuckooMoveInsertMw (bkt altBkt : BktRef) (key : Key) (data : UInt64) (leaf : QueueNode)
    (leafSlot : Fin bucketEntries) (sig : UInt16) (newIdx : Nat) : M h CuckooRet := do
  hashRwWriterLock env hwTransMemSupport
  if (← table).idxAt (leaf.bkt, leafSlot) ≠ emptySlot then
    hashRwWriterUnlock hwTransMemSupport
    return .failed
  else
    let r ← checkDup data key sig bkt altBkt
    if r ≠ -1 then
      hashRwWriterUnlock hwTransMemSupport
      return .present r
    else moveAlong hwTransMemSupport sig newIdx leaf leafSlot

/-- 押し出しを呼び、呼び出しを残す。 -/
def callMoveInsert (bkt altBkt : BktRef) (key : Key) (data : UInt64) (sig : UInt16) (newIdx : Nat)
    (leaf : QueueNode) (leafSlot : Fin bucketEntries) : M h CuckooRet := do
  let t ← table
  let ret ← cuckooMoveInsertMw env hwTransMemSupport bkt altBkt key data leaf leafSlot sig newIdx
  Traced.emit ⟨t, .moveInsert leaf leafSlot ret⟩
  return ret

/-! ## 幅優先探索 -/

/-- `rte_hash_cuckoo_make_space_mw` のループ。`key_idx` と `sig_current` は lock の外で読む。 -/
def makeSpaceLoop (move : QueueNode → Fin bucketEntries → M h CuckooRet) :
    Nat → Bfs → M h CuckooRet
  | 0, _ => return .failed
  | fuel + 1, s =>
    match s.queue with
    | [] => return .failed
    | node :: _ => do
      if s.slot = 0 ∧ s.hasRoom = false then return .failed
      else
        interfere env
        if (← table).idxAt (node.bkt, s.slot) = emptySlot then
          match ← move node s.slot with
          | .failed =>
            interfere env
            makeSpaceLoop move fuel (s.enqueue (← table) node)
          | ret => return ret
        else
          interfere env
          makeSpaceLoop move fuel (s.enqueue (← table) node)

/-- `rte_hash_cuckoo_make_space_mw`。 -/
def cuckooMakeSpaceMw (bkt secBkt : BktRef) (key : Key) (data : UInt64) (sig : UInt16)
    (bucketIdx : UInt32) (newIdx : Nat) : M h CuckooRet :=
  makeSpaceLoop env
    (callMoveInsert env hwTransMemSupport bkt secBkt key data sig newIdx)
    bfsQueueMaxLen (Bfs.start bkt bucketIdx)

/-! ## extendable bucket -/

/-- 新しい extendable bucket をつなぐ。 -/
def linkExt (secBkt : BktRef) (sig : UInt16) (slotId : Nat) : M h Int := do
  let extBktId ← apply allocExtBkt
  if extBktId = 0 then
    hashRwWriterUnlock hwTransMemSupport
    return -enospc
  else
    store (.storeEntry (.ext extBktId, 0)) fun t => t.setEntry (.ext extBktId, 0) sig slotId
    let last := getLastBkt (← table) secBkt
    store (.storeNext last) fun t => t.setNext last extBktId
    hashRwWriterUnlock hwTransMemSupport
    return (slotId : Int) - 1

/-- 最後の区間のうち、重複の検査の後。 -/
def insertExtNew (secBkt : BktRef) (sig : UInt16) (slotId : Nat) : M h Int := do
  let t ← table
  match firstEmptyIn t (t.chain h.numBuckets secBkt) with
  | some p =>
    store (.storeEntry p) fun t => t.setEntry p sig slotId
    hashRwWriterUnlock hwTransMemSupport
    return (slotId : Int) - 1
  | none => linkExt hwTransMemSupport secBkt sig slotId

/-- 追加の最後の区間。 -/
def insertExt (primBkt secBkt : BktRef) (key : Key) (data : UInt64) (sig : UInt16)
    (slotId : Nat) : M h Int := do
  hashRwWriterLock env hwTransMemSupport
  let r ← checkDup data key sig primBkt secBkt
  if r ≠ -1 then
    update fun t => t.enqueueSlotBack slotId
    hashRwWriterUnlock hwTransMemSupport
    return r
  else insertExtNew hwTransMemSupport secBkt sig slotId

/-! ## 追加の全体 -/

/-- 返り値が 0 か 1 なら追加は終わる。 -/
def finishWith (slotId : Nat) (next : M h Int) : CuckooRet → M h Int
  | .inserted => return (slotId : Int) - 1
  | .present retVal => do
    interfere env
    update fun t => t.enqueueSlotBack slotId
    return retVal
  | .failed => next

/-- slot に書いた後の追加。 -/
def storeSlot (slotId : Nat) (key : Key) (hash : UInt32) (data : UInt64) : M h Int := do
  let shortSig := getShortSig hash
  let primIdx := getPrimBucketIndex h hash
  let secIdx := getAltBucketIndex h primIdx shortSig
  let primBkt := BktRef.main primIdx
  let secBkt := BktRef.main secIdx
  finishWith env slotId
    (do finishWith env slotId
          (do finishWith env slotId
                (if h.extTableSupport then
                  insertExt env hwTransMemSupport primBkt secBkt key data shortSig slotId
                else do
                  interfere env
                  update fun t => t.enqueueSlotBack slotId
                  return -enospc)
                (← cuckooMakeSpaceMw env hwTransMemSupport secBkt primBkt key data shortSig secIdx
                  slotId))
          (← cuckooMakeSpaceMw env hwTransMemSupport primBkt secBkt key data shortSig primIdx
            slotId))
    (← cuckooInsertMw env hwTransMemSupport primBkt secBkt key data shortSig slotId)

/-- 最初の検査。 -/
def firstCheck (key : Key) (hash : UInt32) (data : UInt64) : M h Int := do
  hashRwWriterLock env hwTransMemSupport
  let primIdx := getPrimBucketIndex h hash
  let r ← checkDup data key (getShortSig hash) (.main primIdx)
    (.main (getAltBucketIndex h primIdx (getShortSig hash)))
  hashRwWriterUnlock hwTransMemSupport
  return r

/-- slot を取り、lock の外で data と key を書く。 -/
def takeSlot (key : Key) (data : UInt64) : M h Nat := do
  interfere env
  let slotId ← apply Table.allocSlot
  interfere env
  store (.storeData slotId) fun t => t.setData slotId data
  interfere env
  store (.storeKey slotId) fun t => t.setKey slotId key
  return slotId

/-- `__rte_hash_add_key_with_hash`。 -/
def addKeyWithHash (key : Key) (hash : UInt32) (data : UInt64) : M h Int := do
  let r ← firstCheck env hwTransMemSupport key hash data
  if r ≠ -1 then return r
  else
    let slotId ← takeSlot env key data
    storeSlot env hwTransMemSupport slotId key hash data

end

/-! ## lock の中の区間 -/

/-- 書き込みの出来事。 -/
def Event.stores : Event → Bool
  | .storeEntry _ | .storeIdx _ | .storeNext _ | .storeData _ | .storeKey _ => true
  | _ => false

/--
lock の出し入れで局面が `free` と `held` のあいだを行き来し、`held` ではどこに書いてもよい決まり。

押し出しを除く区間は、このような決まりにいつも従う。
-/
structure LockRules {κ : Type} (ok : κ → Entry h → Prop) (next : κ → Entry h → κ)
    (env : Nat → Table h → Table h) (hw : Bool) (free held : κ) : Prop where
  lock : Traced.Obeys ok next free (hashRwWriterLock env hw) held
  unlock : Traced.Obeys ok next held (hashRwWriterUnlock hw : M h Unit) free
  store : ∀ (e : Event) (f : Table h → Table h), e.stores = true →
    Traced.Obeys ok next held (store e f) held

section

variable {κ : Type} {ok : κ → Entry h → Prop} {next : κ → Entry h → κ} {k : κ}

theorem obeys_table : Traced.Obeys ok next k (table : M h _) k := Traced.Obeys.read _

theorem obeys_update (f : Table h → Table h) : Traced.Obeys ok next k (update f) k :=
  Traced.Obeys.modify _

theorem obeys_interfere (env : Nat → Table h → Table h) :
    Traced.Obeys ok next k (interfere env) k :=
  Traced.Obeys.modify _

theorem obeys_apply {α : Type} (f : Table h → α × Table h) : Traced.Obeys ok next k (apply f) k :=
  obeys_table.bind fun _ => (obeys_update _).bind fun _ => Traced.Obeys.pure _

namespace LockRules

variable {env : Nat → Table h → Table h} {hw : Bool} {free held : κ}
  (hr : LockRules ok next env hw free held)
include hr

/-- lock を返して値を返す。 -/
theorem return_ {α : Type} (a : α) :
    Traced.Obeys ok next held (do hashRwWriterUnlock hw; return a : M h α) free :=
  hr.unlock.bind fun _ => Traced.Obeys.pure a

/-- 書いて、lock を返して値を返す。 -/
theorem finish {α : Type} {e : Event} (f : Table h → Table h) (he : e.stores = true) (a : α) :
    Traced.Obeys ok next held (do Trace.store e f; hashRwWriterUnlock hw; return a : M h α) free :=
  (hr.store e f he).bind fun _ => hr.return_ a

theorem searchAndUpdate (data : UInt64) (key : Key) (b : BktRef) (sig : UInt16) :
    Traced.Obeys ok next held (Trace.searchAndUpdate data key b sig : M h Int) held := by
  refine obeys_table.bind fun t => ?_
  cases findEntry t key b sig with
  | none => exact Traced.Obeys.pure _
  | some i => exact (hr.store _ _ (by rfl)).bind fun _ => Traced.Obeys.pure _

theorem searchBuckets (data : UInt64) (key : Key) (sig : UInt16) (bs : List BktRef) :
    Traced.Obeys ok next held (Trace.searchBuckets data key sig bs : M h Int) held := by
  induction bs with
  | nil => exact Traced.Obeys.pure _
  | cons b bs ih =>
    refine (hr.searchAndUpdate data key b sig).bind fun r => ?_
    split
    · exact Traced.Obeys.pure _
    · exact ih

theorem checkDup (data : UInt64) (key : Key) (sig : UInt16) (bkt altBkt : BktRef) :
    Traced.Obeys ok next held (Trace.checkDup data key sig bkt altBkt : M h Int) held :=
  obeys_table.bind fun _ => hr.searchBuckets data key sig _

theorem cuckooInsertMw (primBkt secBkt : BktRef) (key : Key) (data : UInt64) (sig : UInt16)
    (newIdx : Nat) :
    Traced.Obeys ok next free (Trace.cuckooInsertMw env hw primBkt secBkt key data sig newIdx)
      free := by
  refine hr.lock.bind fun _ => (hr.checkDup data key sig primBkt secBkt).bind fun r => ?_
  split
  · exact hr.return_ _
  · refine obeys_table.bind fun t => ?_
    cases t.firstEmpty primBkt with
    | none => exact hr.return_ _
    | some i => exact hr.finish _ (by rfl) _

theorem insertExt (primBkt secBkt : BktRef) (key : Key) (data : UInt64) (sig : UInt16)
    (slotId : Nat) :
    Traced.Obeys ok next free (Trace.insertExt env hw primBkt secBkt key data sig slotId) free := by
  refine hr.lock.bind fun _ => (hr.checkDup data key sig primBkt secBkt).bind fun r => ?_
  split
  · exact (obeys_update _).bind fun _ => hr.return_ _
  · refine obeys_table.bind fun t => ?_
    cases firstEmptyIn t (t.chain h.numBuckets secBkt) with
    | some p => exact hr.finish _ (by rfl) _
    | none =>
      refine (obeys_apply allocExtBkt).bind fun id => ?_
      split
      · exact hr.return_ _
      · exact (hr.store _ _ (by rfl)).bind fun _ => obeys_table.bind fun _ => hr.finish _ (by rfl) _

theorem firstCheck (key : Key) (hash : UInt32) (data : UInt64) :
    Traced.Obeys ok next free (Trace.firstCheck env hw key hash data) free :=
  hr.lock.bind fun _ => (hr.checkDup data key _ _ _).bind fun _ => hr.return_ _

end LockRules

end

/-! ## 他の writer がいないとき -/

/-- 他の writer は何もしない。 -/
def alone : Nat → Table h → Table h := fun _ t => t

/-- 出来事を忘れれば、`f` は `g` と同じ値と table を返す。 -/
abbrev Erases {α : Type} (f : M h α) (g : Table h → α × Table h) : Prop :=
  Traced.Computes Running.table f g

variable {hw : Bool}

theorem erases_pure {α : Type} (a : α) : Erases (pure a : M h α) fun t => (a, t) := fun _ => rfl

theorem erases_table : Erases (table : M h _) fun t => (t, t) := fun _ => rfl

/-- table を読んでから進む。 -/
theorem erases_table_bind {α : Type} {f : Table h → M h α} {g : Table h → α × Table h}
    (hf : ∀ s : Running h, ((f s.table).val s, ((f s.table).state s).table) = g s.table) :
    Erases (do f (← table)) g := hf

theorem erases_record (e : Event) : Erases (record e : M h Unit) fun t => ((), t) := fun _ => rfl

theorem erases_emit (e : Entry h) : Erases (Traced.emit e : M h Unit) fun t => ((), t) :=
  fun _ => rfl

theorem erases_update (f : Table h → Table h) : Erases (update f) fun t => ((), f t) := fun _ => rfl

theorem erases_store (e : Event) (f : Table h → Table h) : Erases (store e f) fun t => ((), f t) :=
  fun _ => rfl

theorem erases_apply {α : Type} (f : Table h → α × Table h) : Erases (apply f) f := fun _ => rfl

theorem erases_interfere : Erases (interfere (alone (h := h))) fun t => ((), t) := fun _ => rfl

theorem erases_lock : Erases (hashRwWriterLock (alone (h := h)) hw) fun t => ((), t) := by
  refine (erases_interfere.bind fun _ => Traced.Computes.ite (erases_record _)
    (Traced.Computes.ite (erases_record _) (erases_pure ()))).congr fun t => ?_
  split
  · rfl
  · split <;> rfl

theorem erases_unlock : Erases (hashRwWriterUnlock hw : M h Unit) fun t => ((), t) := by
  refine (Traced.Computes.ite (erases_record _)
    (Traced.Computes.ite (erases_record _) (erases_pure ()))).congr fun t => ?_
  split
  · rfl
  · split <;> rfl

theorem erases_searchAndUpdate (data : UInt64) (key : Key) (b : BktRef) (sig : UInt16) :
    Erases (searchAndUpdate data key b sig : M h Int)
      fun t => Hash.searchAndUpdate t data key b sig := by
  refine erases_table_bind fun s => ?_
  unfold Hash.searchAndUpdate
  cases findEntry s.table key b sig with
  | none => rfl
  | some i => rfl

theorem erases_searchBuckets (data : UInt64) (key : Key) (sig : UInt16) (bs : List BktRef) :
    Erases (searchBuckets data key sig bs : M h Int) (Hash.searchBuckets data key sig bs) := by
  induction bs with
  | nil => exact erases_pure (-1)
  | cons b bs ih =>
    refine ((erases_searchAndUpdate data key b sig).bind fun r =>
      Traced.Computes.ite (c := r ≠ -1) (erases_pure r) ih).congr fun t => ?_
    rw [Hash.searchBuckets]

theorem erases_checkDup (data : UInt64) (key : Key) (sig : UInt16) (bkt altBkt : BktRef) :
    Erases (checkDup data key sig bkt altBkt : M h Int)
      fun t => Hash.checkDup t data key sig bkt altBkt :=
  erases_table.bind fun t => erases_searchBuckets data key sig (bkt :: t.chain h.numBuckets altBkt)

/-- 書いて lock を返し、値を返す。 -/
theorem erases_finish {α : Type} (e : Event) (f : Table h → Table h) (a : α) :
    Erases (do store e f; hashRwWriterUnlock hw; return a) fun t => (a, f t) :=
  (erases_store e f).bind fun _ => erases_unlock.bind fun _ => erases_pure a

theorem erases_cuckooInsertMw (primBkt secBkt : BktRef) (key : Key) (data : UInt64) (sig : UInt16)
    (newIdx : Nat) :
    Erases (cuckooInsertMw (alone (h := h)) hw primBkt secBkt key data sig newIdx)
      fun t => Hash.cuckooInsertMw t primBkt secBkt key data sig newIdx := by
  refine (erases_lock.bind fun _ => (erases_checkDup data key sig primBkt secBkt).bind fun r =>
    Traced.Computes.ite (erases_unlock.bind fun _ => erases_pure (CuckooRet.present r))
      (show Traced.Computes _ _ fun t => match t.firstEmpty primBkt with
        | some i => (.inserted, t.setEntry (primBkt, i) sig newIdx)
        | none => (.failed, t) from fun s => ?_)).congr fun t => rfl
  cases hfirst : s.table.firstEmpty primBkt with
  | none =>
    simp only [Traced.val_bind, Traced.state_bind, val_table, state_table, hfirst]
    exact (erases_unlock.bind fun _ => erases_pure CuckooRet.failed) s
  | some i =>
    simp only [Traced.val_bind, Traced.state_bind, val_table, state_table, hfirst]
    exact erases_finish _ _ CuckooRet.inserted s

theorem erases_moveAlong (sig : UInt16) (newIdx : Nat) (node : QueueNode)
    (slot : Fin bucketEntries) :
    Erases (moveAlong hw sig newIdx node slot : M h CuckooRet)
      fun t => Hash.moveAlong sig newIdx node slot t := by
  induction node generalizing slot with
  | root bkt idx => exact erases_finish _ _ CuckooRet.inserted
  | child currBkt idx prev prevSlot ih =>
    refine (erases_table.bind fun t => (erases_record _).bind fun _ => Traced.Computes.ite
      (erases_finish _ _ CuckooRet.failed) ((erases_store _ _).bind fun _ => ih prevSlot)).congr
      fun t => ?_
    rw [Hash.moveAlong]

theorem erases_cuckooMoveInsertMw (bkt altBkt : BktRef) (key : Key) (data : UInt64)
    (leaf : QueueNode) (leafSlot : Fin bucketEntries) (sig : UInt16) (newIdx : Nat) :
    Erases (cuckooMoveInsertMw (alone (h := h)) hw bkt altBkt key data leaf leafSlot sig newIdx)
      fun t => Hash.cuckooMoveInsertMw t bkt altBkt key data leaf leafSlot sig newIdx := by
  refine (erases_lock.bind fun _ => erases_table.bind fun t => Traced.Computes.ite
    (erases_unlock.bind fun _ => erases_pure CuckooRet.failed)
    ((erases_checkDup data key sig bkt altBkt).bind fun r => Traced.Computes.ite
      (erases_unlock.bind fun _ => erases_pure (CuckooRet.present r))
      (erases_moveAlong sig newIdx leaf leafSlot))).congr fun t => ?_
  rw [Hash.cuckooMoveInsertMw]

theorem erases_callMoveInsert (bkt altBkt : BktRef) (key : Key) (data : UInt64) (sig : UInt16)
    (newIdx : Nat) (leaf : QueueNode) (leafSlot : Fin bucketEntries) :
    Erases (callMoveInsert (alone (h := h)) hw bkt altBkt key data sig newIdx leaf leafSlot)
      fun t => Hash.cuckooMoveInsertMw t bkt altBkt key data leaf leafSlot sig newIdx := by
  refine erases_table.bind fun t =>
    (Traced.Computes.bind_pair id (erases_cuckooMoveInsertMw bkt altBkt key data leaf leafSlot sig
      newIdx) fun ret => ?_)
  exact (erases_emit _).bind fun _ => erases_pure ret

/-- 押し出しが失敗したときだけ、探索は続く。 -/
def afterMove (next : Table h → CuckooRet × Table h) : CuckooRet × Table h → CuckooRet × Table h
  | (.failed, t) => next t
  | r => r

theorem erases_makeSpaceLoop {move : QueueNode → Fin bucketEntries → M h CuckooRet}
    {move' : Table h → QueueNode → Fin bucketEntries → CuckooRet × Table h}
    (hmove : ∀ node slot, Erases (move node slot) fun t => move' t node slot) (fuel : Nat)
    (bfs : Bfs) :
    Erases (makeSpaceLoop alone move fuel bfs) (Hash.makeSpaceLoop move' fuel bfs) := by
  induction fuel generalizing bfs with
  | zero => exact erases_pure CuckooRet.failed
  | succ fuel ih =>
    unfold makeSpaceLoop
    cases hq : bfs.queue with
    | nil => exact (erases_pure CuckooRet.failed).congr fun _ => by rw [Hash.makeSpaceLoop, hq]
    | cons node rest =>
      have hnext : Erases (do
          interfere alone
          makeSpaceLoop alone move fuel (bfs.enqueue (← table) node))
          fun t => Hash.makeSpaceLoop move' fuel (bfs.enqueue t node) t :=
        erases_interfere.bind fun _ => erases_table.bind fun t => ih (bfs.enqueue t node)
      refine (Traced.Computes.ite (erases_pure CuckooRet.failed) (erases_interfere.bind fun _ =>
        erases_table.bind fun _ => Traced.Computes.ite (Traced.Computes.bind_pair
          (afterMove fun t' => Hash.makeSpaceLoop move' fuel (bfs.enqueue t' node) t')
          (hmove node bfs.slot) fun ret => ?_) hnext)).congr fun t => ?_
      · cases ret with
        | inserted => exact erases_pure CuckooRet.inserted
        | present retVal => exact erases_pure (CuckooRet.present retVal)
        | failed => exact hnext
      · exact (makeSpaceLoop_cons hq fuel t).symm

theorem erases_cuckooMakeSpaceMw (bkt secBkt : BktRef) (key : Key) (data : UInt64) (sig : UInt16)
    (bucketIdx : UInt32) (newIdx : Nat) :
    Erases (cuckooMakeSpaceMw (alone (h := h)) hw bkt secBkt key data sig bucketIdx newIdx)
      fun t => Hash.cuckooMakeSpaceMw t bkt secBkt key data sig bucketIdx newIdx := by
  unfold cuckooMakeSpaceMw Hash.cuckooMakeSpaceMw
  exact erases_makeSpaceLoop (erases_callMoveInsert bkt secBkt key data sig newIdx) bfsQueueMaxLen
    (Bfs.start bkt bucketIdx)

theorem erases_linkExt (secBkt : BktRef) (sig : UInt16) (slotId : Nat) :
    Erases (linkExt hw secBkt sig slotId : M h Int) fun t =>
      if (allocExtBkt t).1 = 0 then (-enospc, (allocExtBkt t).2)
      else ((slotId : Int) - 1, Hash.linkExt t secBkt sig slotId) :=
  ((erases_apply allocExtBkt).bind fun _ => Traced.Computes.ite
    (erases_unlock.bind fun _ => erases_pure (-enospc)) ((erases_store _ _).bind fun _ =>
      erases_table.bind fun _ => erases_finish _ _ ((slotId : Int) - 1))).congr fun _ => rfl

theorem erases_insertExtNew (secBkt : BktRef) (sig : UInt16) (slotId : Nat) :
    Erases (insertExtNew hw secBkt sig slotId : M h Int)
      fun t => Hash.insertExtNew t secBkt sig slotId := by
  refine (erases_table.bind fun t => show Traced.Computes Running.table _ fun t' : Table h =>
    match firstEmptyIn t (t.chain h.numBuckets secBkt) with
    | some p => ((slotId : Int) - 1, t'.setEntry p sig slotId)
    | none => if (allocExtBkt t').1 = 0 then (-enospc, (allocExtBkt t').2)
      else ((slotId : Int) - 1, Hash.linkExt t' secBkt sig slotId) from ?_).congr fun t => ?_
  · cases firstEmptyIn t (t.chain h.numBuckets secBkt) with
    | some p => exact erases_finish _ _ ((slotId : Int) - 1)
    | none => exact erases_linkExt secBkt sig slotId
  · rw [Hash.insertExtNew]
    rfl

theorem erases_insertExt (primBkt secBkt : BktRef) (key : Key) (data : UInt64) (sig : UInt16)
    (slotId : Nat) :
    Erases (insertExt (alone (h := h)) hw primBkt secBkt key data sig slotId)
      fun t => Hash.insertExt t primBkt secBkt key data sig slotId :=
  (erases_lock.bind fun _ => (erases_checkDup data key sig primBkt secBkt).bind fun r =>
    Traced.Computes.ite ((erases_update _).bind fun _ => erases_unlock.bind fun _ => erases_pure r)
      (erases_insertExtNew secBkt sig slotId)).congr fun _ => rfl

theorem erases_finishWith {slotId : Nat} {next : M h Int} {next' : Table h → Int × Table h}
    (hnext : Erases next next') (ret : CuckooRet) :
    Erases (finishWith alone slotId next ret) fun t => Hash.finishWith slotId next' (ret, t) := by
  cases ret with
  | inserted => exact erases_pure _
  | present retVal =>
    exact erases_interfere.bind fun _ => (erases_update _).bind fun _ => erases_pure retVal
  | failed => exact hnext

theorem erases_storeSlot (slotId : Nat) (key : Key) (hash : UInt32) (data : UInt64) :
    Erases (storeSlot (alone (h := h)) hw slotId key hash data)
      fun t => Hash.storeSlot t slotId key hash data := by
  unfold storeSlot Hash.storeSlot
  refine Traced.Computes.bind_pair _ (erases_cuckooInsertMw _ _ key data _ slotId)
    (erases_finishWith ?_)
  refine Traced.Computes.bind_pair _ (erases_cuckooMakeSpaceMw _ _ key data _ _ slotId)
    (erases_finishWith ?_)
  refine Traced.Computes.bind_pair _ (erases_cuckooMakeSpaceMw _ _ key data _ _ slotId)
    (erases_finishWith ?_)
  exact Traced.Computes.ite (erases_insertExt _ _ key data _ slotId)
    (erases_interfere.bind fun _ => (erases_update _).bind fun _ => erases_pure (-enospc))

theorem erases_firstCheck (key : Key) (hash : UInt32) (data : UInt64) :
    Erases (firstCheck (alone (h := h)) hw key hash data) fun t =>
      Hash.checkDup t data key (getShortSig hash) (primOf h hash) (secOf h hash) := by
  unfold firstCheck
  refine erases_lock.bind fun _ => Traced.Computes.bind_pair id
    (erases_checkDup data key (getShortSig hash) (primOf h hash) (secOf h hash)) fun r => ?_
  exact erases_unlock.bind fun _ => erases_pure r

theorem erases_takeSlot (key : Key) (data : UInt64) :
    Erases (takeSlot (alone (h := h)) key data) fun t => t.takeSlot key data :=
  (erases_interfere.bind fun _ => (erases_apply Table.allocSlot).bind fun slotId =>
    erases_interfere.bind fun _ => (erases_store _ _).bind fun _ =>
      erases_interfere.bind fun _ => (erases_store _ _).bind fun _ => erases_pure slotId).congr
    fun _ => rfl

/-- **出来事を忘れれば、もとの追加である。** -/
theorem erases_addKeyWithHash (key : Key) (hash : UInt32) (data : UInt64) :
    Erases (addKeyWithHash (alone (h := h)) hw key hash data) fun t =>
      Hash.addKeyWithHash t key hash data := by
  refine ((erases_firstCheck key hash data).bind fun r => Traced.Computes.ite (erases_pure r)
    ((erases_takeSlot key data).bind fun slotId => erases_storeSlot slotId key hash data)).congr
    fun t => ?_
  rw [addKeyWithHash_eq]

end Trace

end L3fwd.Hash
