import L3fwd.Hash.Table

/-!
# 追加

`rte_lib/rte_cuckoo_hash.c` の `__rte_hash_add_key_with_hash` と、そこから呼ばれる関数。

lock の中の一区間ごとに一つの関数にする。逐次の追加 `addKeyWithHash` はそれらをつないだもの、
並行な追加（`Hash/Writers.lean`）は同じ関数を一歩ずつ実行するものである。

* 探索の返り値は source と同じく `key_idx - 1` で、見つからなければ -1 である。
  空の entry の古い signature が合い、dummy の slot 0 の key が合ったときも -1 になる。
* `queue_node` の `prev` は先に書かれた node への pointer なので、node そのものを持たせる。
-/

namespace L3fwd.Hash

open Infra

variable {h : RteHash}

def enospc : Int := 28

/-- 挿入を試みる関数の返り値。順に 0, 1（`*ret_val` つき）, 失敗を表す。 -/
inductive CuckooRet where
  | inserted
  | present (retVal : Int)
  | failed
  deriving DecidableEq

/-! ## 探索 -/

/-- bucket の中で signature と key が合う最初の entry。 -/
def findEntry (t : Table h) (key : Key) (b : BktRef) (sig : UInt16) :
    Option (Fin bucketEntries) :=
  (List.finRange bucketEntries).find? fun i =>
    (t.bkts b).sigCurrent i == sig && t.cmpEq key ((t.bkts b).keyIdx i)

/-- `search_and_update`。合う entry があれば data を書き換え、番号を返す。 -/
def searchAndUpdate (t : Table h) (data : UInt64) (key : Key) (b : BktRef) (sig : UInt16) :
    Int × Table h :=
  match findEntry t key b sig with
  | none => (-1, t)
  | some i => ((t.idxAt (b, i) : Int) - 1, t.setData (t.idxAt (b, i)) data)

/-- bucket を順に探す。-1 でない返り値が出たところで止まる。 -/
def searchBuckets (data : UInt64) (key : Key) (sig : UInt16) :
    List BktRef → Table h → Int × Table h
  | [], t => (-1, t)
  | b :: bs, t =>
    let r := searchAndUpdate t data key b sig
    if r.1 ≠ -1 then r else searchBuckets data key sig bs r.2

/-- 重複の検査。`bkt` を探し、それから `altBkt` の連なりを探す。 -/
def checkDup (t : Table h) (data : UInt64) (key : Key) (sig : UInt16) (bkt altBkt : BktRef) :
    Int × Table h :=
  searchBuckets data key sig (bkt :: t.chain h.numBuckets altBkt) t

/-! ## 空きへの挿入 -/

/-- `rte_hash_cuckoo_insert_mw`。 -/
def cuckooInsertMw (t : Table h) (primBkt secBkt : BktRef) (key : Key) (data : UInt64)
    (sig : UInt16) (newIdx : Nat) : CuckooRet × Table h :=
  let r := checkDup t data key sig primBkt secBkt
  if r.1 ≠ -1 then (.present r.1, r.2)
  else
    match r.2.firstEmpty primBkt with
    | some i => (.inserted, r.2.setEntry (primBkt, i) sig newIdx)
    | none => (.failed, r.2)

/-! ## 押し出し -/

/-- `struct queue_node`。 -/
inductive QueueNode where
  | root (bkt : BktRef) (curBktIdx : UInt32)
  | child (bkt : BktRef) (curBktIdx : UInt32) (prev : QueueNode) (prevSlot : Fin bucketEntries)

def QueueNode.bkt : QueueNode → BktRef
  | .root bkt _ => bkt
  | .child bkt _ _ _ => bkt

def QueueNode.curBktIdx : QueueNode → UInt32
  | .root _ curBktIdx => curBktIdx
  | .child _ curBktIdx _ _ => curBktIdx

/-- path に沿って entry を一つずつ押し出し、root に空いた entry へ新しい番号を書く。 -/
def moveAlong (sig : UInt16) (newIdx : Nat) :
    QueueNode → Fin bucketEntries → Table h → CuckooRet × Table h
  | .root bkt _, currSlot, t => (.inserted, t.bumpChngCnt.setEntry (bkt, currSlot) sig newIdx)
  | .child currBkt _ prev prevSlot, currSlot, t =>
    let prevSig := t.sigAt (prev.bkt, prevSlot)
    if BktRef.main (getAltBucketIndex h prev.curBktIdx prevSig) ≠ currBkt then
      -- path が崩れていた。空けた entry を空に戻して諦める
      (.failed, t.setIdx (currBkt, currSlot) emptySlot)
    else
      moveAlong sig newIdx prev prevSlot
        (t.bumpChngCnt.setEntry (currBkt, currSlot) prevSig (t.idxAt (prev.bkt, prevSlot)))

/-- `rte_hash_cuckoo_move_insert_mw`。 -/
def cuckooMoveInsertMw (t : Table h) (bkt altBkt : BktRef) (key : Key) (data : UInt64)
    (leaf : QueueNode) (leafSlot : Fin bucketEntries) (sig : UInt16) (newIdx : Nat) :
    CuckooRet × Table h :=
  if t.idxAt (leaf.bkt, leafSlot) ≠ emptySlot then (.failed, t)
  else
    let r := checkDup t data key sig bkt altBkt
    if r.1 ≠ -1 then (.present r.1, r.2) else moveAlong sig newIdx leaf leafSlot r.2

/-! ## 幅優先探索 -/

/-- `RTE_HASH_BFS_QUEUE_MAX_LEN`。 -/
def bfsQueueMaxLen : Nat := 1000

/--
探索の途中。`queue` は `tail` から `head` の手前までの node で、先頭がいま調べている node である。
`head` は書いた node の数、`slot` は調べている entry の番号である。
-/
structure Bfs where
  queue : List QueueNode
  head : Nat
  slot : Fin bucketEntries

/-- root だけを積んだ探索。 -/
def Bfs.start (bkt : BktRef) (bucketIdx : UInt32) : Bfs where
  queue := [.root bkt bucketIdx]
  head := 1
  slot := 0

/-- いまの entry の行き先を積み、次の entry へ進む。bucket を調べ終えたら `tail` を進める。 -/
def Bfs.enqueue (t : Table h) (s : Bfs) (node : QueueNode) : Bfs :=
  let altIdx := getAltBucketIndex h node.curBktIdx (t.sigAt (node.bkt, s.slot))
  let queue := s.queue ++ [.child (.main altIdx) altIdx node s.slot]
  if hlast : s.slot.val + 1 < bucketEntries then
    { queue := queue, head := s.head + 1, slot := ⟨s.slot.val + 1, hlast⟩ }
  else { queue := queue.tail, head := s.head + 1, slot := 0 }

/-- 一つの node を調べ始める前の条件。`tail != head` で、あと 8 個積む余地がある。 -/
def Bfs.hasRoom (s : Bfs) : Bool :=
  !s.queue.isEmpty && decide (s.head < bfsQueueMaxLen - bucketEntries)

/-- `rte_hash_cuckoo_make_space_mw` のループ。`move` は空いた entry を見つけたときの押し出しである。 -/
def makeSpaceLoop (move : Table h → QueueNode → Fin bucketEntries → CuckooRet × Table h) :
    Nat → Bfs → Table h → CuckooRet × Table h
  | 0, _, t => (.failed, t)
  | fuel + 1, s, t =>
    match s.queue with
    | [] => (.failed, t)
    | node :: _ =>
      if s.slot = 0 ∧ s.hasRoom = false then (.failed, t)
      else if t.idxAt (node.bkt, s.slot) = emptySlot then
        match move t node s.slot with
        | (.failed, t') => makeSpaceLoop move fuel (s.enqueue t' node) t'
        | r => r
      else makeSpaceLoop move fuel (s.enqueue t node) t

/-- 先頭の node の entry を一つ調べる。 -/
theorem makeSpaceLoop_cons
    {move : Table h → QueueNode → Fin bucketEntries → CuckooRet × Table h} {s : Bfs}
    {node : QueueNode} {rest : List QueueNode} (hq : s.queue = node :: rest) (fuel : Nat)
    (t : Table h) :
    makeSpaceLoop move (fuel + 1) s t =
      if s.slot = 0 ∧ s.hasRoom = false then (.failed, t)
      else if t.idxAt (node.bkt, s.slot) = emptySlot then
        match move t node s.slot with
        | (.failed, t') => makeSpaceLoop move fuel (s.enqueue t' node) t'
        | r => r
      else makeSpaceLoop move fuel (s.enqueue t node) t := by
  rw [makeSpaceLoop, hq]

/-- `rte_hash_cuckoo_make_space_mw`。`failed` は `-ENOSPC` を表す。 -/
def cuckooMakeSpaceMw (t : Table h) (bkt secBkt : BktRef) (key : Key) (data : UInt64)
    (sig : UInt16) (bucketIdx : UInt32) (newIdx : Nat) : CuckooRet × Table h :=
  makeSpaceLoop
    (fun t node slot => cuckooMoveInsertMw t bkt secBkt key data node slot sig newIdx)
    bfsQueueMaxLen (Bfs.start bkt bucketIdx) t

/-! ## extendable bucket -/

/-- 連なりの中で空いた entry のある最初の bucket。 -/
def firstEmptyIn (t : Table h) : List BktRef → Option (Table.Pos)
  | [] => none
  | b :: bs =>
    match t.firstEmpty b with
    | some i => some (b, i)
    | none => firstEmptyIn t bs

/-- `rte_hash_get_last_bkt`。 -/
def getLastBkt (t : Table h) (b : BktRef) : BktRef :=
  (t.chain h.numBuckets b).getLastD b

/-- `free_ext_bkts` から番号を取る。空でも 0 でも 0 になる。 -/
def allocExtBkt (t : Table h) : Nat × Table h :=
  match t.freeExtBkts.pop with
  | none => (0, t)
  | some (id, q) => (id, { t with freeExtBkts := q })

/-- 最後の区間のうち、重複の検査の後。連なりの空きに入れるか、新しい bucket をつなぐ。 -/
def insertExtNew (t : Table h) (secBkt : BktRef) (sig : UInt16) (slotId : Nat) : Int × Table h :=
  match firstEmptyIn t (t.chain h.numBuckets secBkt) with
  | some p => ((slotId : Int) - 1, t.setEntry p sig slotId)
  | none =>
    let a := allocExtBkt t
    -- bucket が尽きていても、取った slot は返されない
    if a.1 = 0 then (-enospc, a.2)
    else
      let t := a.2.setEntry (.ext a.1, 0) sig slotId
      ((slotId : Int) - 1, t.setNext (getLastBkt t secBkt) a.1)

/-- 追加の最後の区間。重複を調べ直してから、extendable bucket に入れる。 -/
def insertExt (t : Table h) (primBkt secBkt : BktRef) (key : Key) (data : UInt64) (sig : UInt16)
    (slotId : Nat) : Int × Table h :=
  let r := checkDup t data key sig primBkt secBkt
  if r.1 ≠ -1 then (r.1, r.2.enqueueSlotBack slotId) else insertExtNew r.2 secBkt sig slotId

/-! ## 追加の全体 -/

/-- 返り値が 0 か 1 なら追加は終わる。1 のときは取った slot を返す。 -/
def finishWith (slotId : Nat) (next : Table h → Int × Table h) :
    CuckooRet × Table h → Int × Table h
  | (.inserted, t) => ((slotId : Int) - 1, t)
  | (.present retVal, t) => (retVal, t.enqueueSlotBack slotId)
  | (.failed, t) => next t

/-- `__rte_hash_add_key_with_hash`。 -/
def addKeyWithHash (t : Table h) (key : Key) (sig : UInt32) (data : UInt64) : Int × Table h :=
  let shortSig := getShortSig sig
  let primIdx := getPrimBucketIndex h sig
  let secIdx := getAltBucketIndex h primIdx shortSig
  let primBkt := BktRef.main primIdx
  let secBkt := BktRef.main secIdx
  let r := checkDup t data key shortSig primBkt secBkt
  if r.1 ≠ -1 then r
  else
    -- `alloc_slot` が失敗しても、番号 0 のまま先へ進む
    let a := r.2.allocSlot
    let slotId := a.1
    let t := (a.2.setData slotId data).setKey slotId key
    finishWith slotId
      (fun t => finishWith slotId
        (fun t => finishWith slotId
          (fun t =>
            if h.extTableSupport then insertExt t primBkt secBkt key data shortSig slotId
            else (-enospc, t.enqueueSlotBack slotId))
          (cuckooMakeSpaceMw t secBkt primBkt key data shortSig secIdx slotId))
        (cuckooMakeSpaceMw t primBkt secBkt key data shortSig primIdx slotId))
      (cuckooInsertMw t primBkt secBkt key data shortSig slotId)

end L3fwd.Hash
