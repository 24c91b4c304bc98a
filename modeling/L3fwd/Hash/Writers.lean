import L3fwd.Infra.Run
import L3fwd.Hash.Slots

/-!
# 並行な writer

`writer_takes_lock` の立った table に、任意個の writer が同時に追加する。

lock の中の区間は一歩である。lock の外の読み書きは一つずつ一歩とする。すなわち

* `rte_ring_sc_dequeue_elem` と `rte_ring_sp_enqueue_elem` は、呼び出しの始まりと終わりの二歩
* 取った slot への data と key の書き込みは、それぞれ一歩
* 幅優先探索は、`key_idx` を読むのに一歩、`sig_current` を読むのに一歩

最後の区間だけは lock を持ったまま slot を返すので、`lock` に持ち主を記す。
各区間の中身は、逐次の追加と同じ関数（`Hash/Insert.lean`）である。
-/

namespace L3fwd.Hash

open Infra Table

variable {h : RteHash}

/-! ## 状態 -/

/-- `__rte_hash_add_key_with_hash` の引数。 -/
structure Job where
  key : Key
  hash : UInt32
  data : UInt64

/-- どちらの bucket から空きを作るか。 -/
inductive Side where
  | prim
  | sec
  deriving DecidableEq

/-- 探索の根の番号。 -/
def Side.rootIdx (h : RteHash) (hash : UInt32) : Side → UInt32
  | .prim => getPrimBucketIndex h hash
  | .sec => getSecBucketIndex h hash

/-- 空きを作る bucket。 -/
def Side.bkt (h : RteHash) (hash : UInt32) (side : Side) : BktRef := .main (side.rootIdx h hash)

/-- もう一方の bucket。 -/
def Side.alt (h : RteHash) (hash : UInt32) : Side → BktRef
  | .prim => secOf h hash
  | .sec => primOf h hash

/-- writer の居場所。 -/
inductive Pc where
  /-- 呼び出しの外。直前の返り値を持つ。 -/
  | idle (ret : Option Int)
  | check (job : Job)
  /-- `alloc_slot` を呼ぶ前。 -/
  | alloc (job : Job)
  /-- `rte_ring_sc_dequeue_elem` の中。 -/
  | dequeuing (job : Job)
  | storeData (job : Job) (slotId : Nat)
  | storeKey (job : Job) (slotId : Nat)
  | insert (job : Job) (slotId : Nat)
  | readIdx (job : Job) (slotId : Nat) (side : Side) (bfs : Bfs)
  | move (job : Job) (slotId : Nat) (side : Side) (bfs : Bfs)
  | readSig (job : Job) (slotId : Nat) (side : Side) (bfs : Bfs)
  | ext (job : Job) (slotId : Nat)
  /-- `enqueue_slot_back` を呼ぶ前。`locked` は lock を持ったまま呼ぶことを表す。 -/
  | giveBack (slotId : Nat) (ret : Int) (locked : Bool)
  /-- `rte_ring_sp_enqueue_elem` の中。 -/
  | enqueuing (slotId : Nat) (ret : Int) (locked : Bool)

/-- lock の中の区間の前である。 -/
def Pc.isSection : Pc → Bool
  | .check _ | .insert _ _ | .move _ _ _ _ | .ext _ _ => true
  | _ => false

/-- lock を持っている。 -/
def Pc.holdsLock : Pc → Bool
  | .giveBack _ _ locked | .enqueuing _ _ locked => locked
  | _ => false

/-- 手にしている slot の番号。無ければ 0。 -/
def Pc.held : Pc → Nat
  | .storeData _ slotId | .storeKey _ slotId | .insert _ slotId | .readIdx _ slotId _ _
  | .move _ slotId _ _ | .readSig _ slotId _ _ | .ext _ slotId | .giveBack slotId _ _
  | .enqueuing slotId _ _ => slotId
  | _ => emptySlot

/-- table と lock と、各 writer の居場所。 -/
structure Writers (h : RteHash) where
  table : Table h
  lock : Option Nat
  pcs : Nat → Pc

/-- 誰も呼び出しの中にいない。 -/
def Writers.init (h : RteHash) (keyStore : Mem) : Writers h where
  table := Table.init h keyStore
  lock := none
  pcs := fun _ => .idle none

/-! ## 一歩 -/

/-- 探索を始める。 -/
def startSearch (h : RteHash) (job : Job) (slotId : Nat) (side : Side) : Pc :=
  .readIdx job slotId side (Bfs.start (side.bkt h job.hash) (side.rootIdx h job.hash))

/-- 探索で空きが作れなかったとき、次に進むところ。 -/
def afterSearch (h : RteHash) (job : Job) (slotId : Nat) : Side → Pc
  | .prim => startSearch h job slotId .sec
  | .sec => if h.extTableSupport then .ext job slotId else .giveBack slotId (-enospc) false

/-- 挿入を試みた区間の後。`failed` は失敗したときに進むところである。 -/
def afterInsert (slotId : Nat) (failed : Pc) : CuckooRet → Pc
  | .inserted => .idle (some ((slotId : Int) - 1))
  | .present ret => .giveBack slotId ret false
  | .failed => failed

/-- 一人の writer が一歩進む。 -/
def runPc (t : Table h) : Pc → Option (Table h × Pc)
  | .idle _ => none
  | .check job =>
    let r := checkDup t job.data job.key (getShortSig job.hash) (primOf h job.hash)
      (secOf h job.hash)
    some (r.2, if r.1 ≠ -1 then .idle (some r.1) else .alloc job)
  | .alloc job => some (t, .dequeuing job)
  | .dequeuing job => some (t.allocSlot.2, .storeData job t.allocSlot.1)
  | .storeData job slotId => some (t.setData slotId job.data, .storeKey job slotId)
  | .storeKey job slotId => some (t.setKey slotId job.key, .insert job slotId)
  | .insert job slotId =>
    let r := cuckooInsertMw t (primOf h job.hash) (secOf h job.hash) job.key job.data
      (getShortSig job.hash) slotId
    some (r.2, afterInsert slotId (startSearch h job slotId .prim) r.1)
  | .readIdx job slotId side bfs =>
    match bfs.queue with
    | [] => some (t, afterSearch h job slotId side)
    | node :: _ =>
      if bfs.slot = 0 ∧ bfs.hasRoom = false then some (t, afterSearch h job slotId side)
      else if t.idxAt (node.bkt, bfs.slot) = emptySlot then some (t, .move job slotId side bfs)
      else some (t, .readSig job slotId side bfs)
  | .move job slotId side bfs =>
    match bfs.queue with
    | [] => none
    | node :: _ =>
      let r := cuckooMoveInsertMw t (side.bkt h job.hash) (side.alt h job.hash) job.key job.data
        node bfs.slot (getShortSig job.hash) slotId
      some (r.2, afterInsert slotId (.readSig job slotId side bfs) r.1)
  | .readSig job slotId side bfs =>
    match bfs.queue with
    | [] => none
    | node :: _ => some (t, .readIdx job slotId side (bfs.enqueue t node))
  | .ext job slotId =>
    let r := checkDup t job.data job.key (getShortSig job.hash) (primOf h job.hash)
      (secOf h job.hash)
    if r.1 ≠ -1 then some (r.2, .giveBack slotId r.1 true)
    else
      let r' := insertExtNew r.2 (secOf h job.hash) (getShortSig job.hash) slotId
      some (r'.2, .idle (some r'.1))
  | .giveBack slotId ret locked => some (t, .enqueuing slotId ret locked)
  | .enqueuing slotId ret _ => some (t.enqueueSlotBack slotId, .idle (some ret))

/-- 許された action。 -/
inductive Act where
  /-- 新しい追加を始める。 -/
  | call (i : Nat) (key : Key) (data : UInt64)
  | run (i : Nat)

/-- 動く writer。 -/
def Act.writer : Act → Nat
  | .call i _ _ | .run i => i

/-- lock を取れる。lock を使う table だけを考える。 -/
def Writers.canLock (s : Writers h) : Bool := h.writerTakesLock && s.lock.isNone

/-- writer `i` の居場所が変わった後の lock。 -/
def Writers.relock (s : Writers h) (i : Nat) (pc : Pc) : Option Nat :=
  if pc.holdsLock then some i else if (s.pcs i).holdsLock then none else s.lock

def Writers.step (hash : Key8 → UInt32) (s : Writers h) : Act → Option (Writers h)
  | .call i key data =>
    match s.pcs i with
    | .idle _ =>
      some { s with pcs := Function.update s.pcs i (.check ⟨key, hash (key8 key), data⟩) }
    | _ => none
  | .run i =>
    if (s.pcs i).isSection && !s.canLock then none
    else (runPc s.table (s.pcs i)).map fun r =>
      { table := r.1, lock := s.relock i r.2, pcs := Function.update s.pcs i r.2 }

/-! ## 一歩でできること -/

/-- 一歩は、writer `i` の居場所を変え、`runPc` のとおりに table を変える。 -/
theorem Writers.step_cases {hash : Key8 → UInt32} {s s' : Writers h} {a : Act}
    (hstep : s.step hash a = some s') :
    (∃ i key data ret, a = .call i key data ∧ s.pcs i = .idle ret ∧
      s' = { s with pcs := Function.update s.pcs i (.check ⟨key, hash (key8 key), data⟩) }) ∨
    (∃ i t' pc', a = .run i ∧ runPc s.table (s.pcs i) = some (t', pc') ∧
      s' = { table := t', lock := s.relock i pc', pcs := Function.update s.pcs i pc' }) := by
  cases a with
  | call i key data =>
    refine Or.inl ⟨i, key, data, ?_⟩
    simp only [step] at hstep
    split at hstep
    · next ret hpc => exact ⟨ret, rfl, hpc, (Option.some.inj hstep).symm⟩
    · cases hstep
  | run i =>
    refine Or.inr ⟨i, ?_⟩
    simp only [step] at hstep
    split at hstep
    · cases hstep
    · obtain ⟨r, hr, hs'⟩ := Option.map_eq_some_iff.mp hstep
      exact ⟨r.1, r.2, rfl, hr, hs'.symm⟩

/-- 動かなかった writer の居場所は変わらない。 -/
theorem Writers.step_pcs_of_ne {hash : Key8 → UInt32} {s s' : Writers h} {a : Act} {j : Nat}
    (hstep : s.step hash a = some s') (hj : j ≠ a.writer) : s'.pcs j = s.pcs j := by
  rcases step_cases hstep with ⟨i, key, data, ret, rfl, -, rfl⟩ | ⟨i, t', pc', rfl, -, rfl⟩
  · exact Function.update_of_ne hj _ _
  · exact Function.update_of_ne hj _ _

/-- 追加の引数。slot を返すだけの writer はもう使わない。 -/
def Pc.job : Pc → Option Job
  | .check job | .alloc job | .dequeuing job | .storeData job _ | .storeKey job _ | .insert job _
  | .readIdx job _ _ _ | .move job _ _ _ | .readSig job _ _ _ | .ext job _ => some job
  | _ => none

/-- 手にした slot に key を書き終えた writer の、引数と slot。 -/
def Pc.written : Pc → Option (Job × Nat)
  | .insert job slotId | .readIdx job slotId _ _ | .move job slotId _ _ | .readSig job slotId _ _
  | .ext job slotId => some (job, slotId)
  | _ => none

/-- 空きを作っている側。第一の bucket への挿入と最後の区間の検査は、第一の側と同じである。 -/
def Pc.side : Pc → Side
  | .readIdx _ _ side _ | .move _ _ side _ | .readSig _ _ side _ => side
  | _ => .prim

/-- 探索の queue の node は、どれも根から続く正しい node である。 -/
def Pc.SearchOk (h : RteHash) : Pc → Prop
  | .readIdx job _ side bfs | .move job _ side bfs | .readSig job _ side bfs =>
    ∀ node ∈ bfs.queue, node.WellFormed ∧ node.rootBkt = side.bkt h job.hash
  | _ => True

/-- 手にした slot も、引数も変わらずに進む。 -/
structure Follows (h : RteHash) (pc pc' : Pc) : Prop where
  held : pc'.held = pc.held
  job : ∀ job, pc'.job = some job → pc.job = some job
  written : ∀ js, pc'.written = some js → pc.written = some js
  search : pc.SearchOk h → pc'.SearchOk h

/--
一人の writer の一歩でできること。

table が data のほかに変わるのは、slot の出し入れと、挿入と、途中で諦めた押し出しだけである。
-/
inductive Effect (t : Table h) (pc : Pc) : Table h → Pc → Prop
  | quiet {t' : Table h} {pc' : Pc} (hd : DataOnly t t') (hf : Follows h pc pc') : Effect t pc t' pc'
  | shifted {data : UInt64} {t1 t' : Table h} {pc' : Pc} (ht1 : Touched data t t1)
      (hs : Shifts t1 t') (hf : Follows h pc pc') : Effect t pc t' pc'
  | dequeued {job : Job} (hpc : pc = .dequeuing job) :
      Effect t pc t.allocSlot.2 (.storeData job t.allocSlot.1)
  | storedData {job : Job} {slotId : Nat} (hpc : pc = .storeData job slotId) :
      Effect t pc (t.setData slotId job.data) (.storeKey job slotId)
  | storedKey {job : Job} {slotId : Nat} (hpc : pc = .storeKey job slotId) :
      Effect t pc (t.setKey slotId job.key) (.insert job slotId)
  | placed {job : Job} {slotId : Nat} {t1 t' : Table h} {p : Pos} {ret : Option Int}
      (hsec : pc.isSection = true) (hpc : pc.written = some (job, slotId))
      (hmiss : Missed t job.key (getShortSig job.hash) (pc.side.bkt h job.hash)
        (pc.side.alt h job.hash))
      (ht1 : Touched job.data t t1)
      (hp : p.1 = primOf h job.hash ∨ p.1 ∈ t.chain h.numBuckets (secOf h job.hash))
      (hplaced : Placed (getShortSig job.hash) slotId t1 p t') : Effect t pc t' (.idle ret)
  | linked {job : Job} {slotId : Nat} {t1 : Table h} {ret : Option Int}
      (hsec : pc.isSection = true) (hpc : pc.written = some (job, slotId))
      (hmiss : Missed t job.key (getShortSig job.hash) (pc.side.bkt h job.hash)
        (pc.side.alt h job.hash))
      (ht1 : Touched job.data t t1) (halloc : (allocExtBkt t1).1 ≠ 0) :
      Effect t pc (linkExt t1 (secOf h job.hash) (getShortSig job.hash) slotId) (.idle ret)
  | leaked {data : UInt64} {t1 : Table h} {ret : Option Int} (ht1 : Touched data t t1)
      (halloc : (allocExtBkt t1).1 = 0) : Effect t pc (allocExtBkt t1).2 (.idle ret)
  | enqueued {slotId : Nat} {ret : Int} {locked : Bool} (hpc : pc = .enqueuing slotId ret locked) :
      Effect t pc (t.enqueueSlotBack slotId) (.idle (some ret))

theorem startSearch_searchOk (job : Job) (slotId : Nat) (side : Side) :
    (startSearch h job slotId side).SearchOk h := by
  intro node hnode
  obtain rfl := List.mem_singleton.mp hnode
  exact ⟨rfl, rfl⟩

theorem Bfs.mem_enqueue {t : Table h} {bfs : Bfs} {node x : QueueNode}
    (hx : x ∈ (bfs.enqueue t node).queue) :
    x ∈ bfs.queue ∨ ∃ idx, x = .child (.main idx) idx node bfs.slot := by
  have hmem : x ∈ bfs.queue ++ [QueueNode.child
      (.main (getAltBucketIndex h node.curBktIdx (t.sigAt (node.bkt, bfs.slot))))
      (getAltBucketIndex h node.curBktIdx (t.sigAt (node.bkt, bfs.slot))) node bfs.slot] := by
    unfold Bfs.enqueue at hx
    split at hx
    · exact hx
    · exact List.mem_of_mem_tail hx
  rcases List.mem_append.mp hmem with hx | hx
  · exact Or.inl hx
  · exact Or.inr ⟨_, List.mem_singleton.mp hx⟩

/-- 探索の次に進むところ。 -/
theorem follows_afterSearch {job : Job} {slotId : Nat} {side : Side} {bfs : Bfs} :
    Follows h (.readIdx job slotId side bfs) (afterSearch h job slotId side) := by
  cases side with
  | prim =>
    exact ⟨rfl, fun _ hj => hj, fun _ hj => hj, fun _ => startSearch_searchOk job slotId .sec⟩
  | sec =>
    rw [afterSearch]
    split
    · exact ⟨rfl, fun _ hj => hj, fun _ hj => hj, fun _ => trivial⟩
    · exact ⟨rfl, nofun, nofun, fun _ => trivial⟩

theorem follows_giveBack {pc : Pc} {slotId : Nat} (hpc : pc.held = slotId) (ret : Int)
    (locked : Bool) : Follows h pc (.giveBack slotId ret locked) :=
  ⟨hpc.symm, nofun, nofun, fun _ => trivial⟩

/-- 第一の bucket への挿入の区間。 -/
theorem insert_effect (t : Table h) (job : Job) (slotId : Nat) :
    Effect t (.insert job slotId)
      (cuckooInsertMw t (primOf h job.hash) (secOf h job.hash) job.key job.data
        (getShortSig job.hash) slotId).2
      (afterInsert slotId (startSearch h job slotId .prim)
        (cuckooInsertMw t (primOf h job.hash) (secOf h job.hash) job.key job.data
          (getShortSig job.hash) slotId).1) := by
  rcases cuckooInsertMw_cases t (primOf h job.hash) (secOf h job.hash) job.key job.data
    (getShortSig job.hash) slotId with
    ⟨ret, t', heq, hpres⟩ | ⟨hmiss, t1, ht1, ⟨i, hfirst, heq⟩ | ⟨-, heq⟩⟩
  · rw [heq]
    exact .quiet hpres.dataOnly (follows_giveBack rfl ret false)
  · rw [heq]
    have hwritten : (Pc.insert job slotId).written = some (job, slotId) := rfl
    exact .placed rfl hwritten hmiss ht1 (Or.inl rfl)
      (placed_setEntry (ht1.dataOnly.empty_of_firstEmpty hfirst) _ _)
  · rw [heq]
    exact .quiet ht1.dataOnly ⟨rfl, fun _ hj => hj, fun _ hj => hj,
      fun _ => startSearch_searchOk job slotId .prim⟩

/-- 押し出しの区間。 -/
theorem move_effect (t : Table h) {job : Job} {slotId : Nat} {side : Side} {bfs : Bfs}
    {node : QueueNode} {rest : List QueueNode} (hq : bfs.queue = node :: rest)
    (hok : Pc.SearchOk h (.move job slotId side bfs)) :
    Effect t (.move job slotId side bfs)
      (cuckooMoveInsertMw t (side.bkt h job.hash) (side.alt h job.hash) job.key job.data node
        bfs.slot (getShortSig job.hash) slotId).2
      (afterInsert slotId (.readSig job slotId side bfs)
        (cuckooMoveInsertMw t (side.bkt h job.hash) (side.alt h job.hash) job.key job.data node
          bfs.slot (getShortSig job.hash) slotId).1) := by
  obtain ⟨hwf, hroot⟩ := hok node (by rw [hq]; exact List.mem_cons_self)
  have hcases := cuckooMoveInsertMw_cases t (side.alt h job.hash) job.key job.data hwf bfs.slot
    (getShortSig job.hash) slotId
  rw [hroot] at hcases
  rcases hcases with ⟨t1, ht1, v, hv, heq⟩ | ⟨ret, t', heq, hpres⟩ |
    ⟨hmiss, t1, ht1, p, t', hp, hplaced, heq⟩
  · rw [heq]
    exact .shifted ht1 hv ⟨rfl, fun _ hj => hj, fun _ hj => hj, fun h => h⟩
  · rw [heq]
    exact .quiet hpres.dataOnly (follows_giveBack rfl ret false)
  · rw [heq]
    have hwritten : (Pc.move job slotId side bfs).written = some (job, slotId) := rfl
    refine .placed rfl hwritten hmiss ht1 ?_ hplaced
    rw [hp]
    cases side with
    | prim => exact Or.inl rfl
    | sec => exact Or.inr (self_mem_chain t _ _)

/-- 最後の区間。 -/
theorem ext_effect (t : Table h) (job : Job) (slotId : Nat) {t' : Table h} {pc' : Pc}
    (hrun : runPc t (.ext job slotId) = some (t', pc')) : Effect t (.ext job slotId) t' pc' := by
  rcases checkDup_cases t job.data job.key (getShortSig job.hash) (primOf h job.hash)
    (secOf h job.hash) with ⟨hmiss, hret, ht1⟩ | ⟨hret, hpres⟩
  · simp only [runPc, hret, ne_eq, not_true_eq_false, if_false, Option.some.injEq,
      Prod.mk.injEq] at hrun
    obtain ⟨rfl, rfl⟩ := hrun
    have hwritten : (Pc.ext job slotId).written = some (job, slotId) := rfl
    rcases insertExtNew_cases (checkDup t job.data job.key (getShortSig job.hash)
      (primOf h job.hash) (secOf h job.hash)).2 (secOf h job.hash) (getShortSig job.hash) slotId
      with ⟨p, hmem, hfirst, hnew⟩ | ⟨-, ⟨halloc, hnew⟩ | ⟨halloc, hnew⟩⟩
    · rw [hnew]
      rw [ht1.dataOnly.chain] at hmem
      exact .placed rfl hwritten hmiss ht1 (Or.inr hmem)
        (placed_setEntry (firstEmpty_eq_some.mp hfirst).1 _ _)
    · rw [hnew]
      exact .leaked ht1 halloc
    · rw [hnew]
      exact .linked rfl hwritten hmiss ht1 halloc
  · simp only [runPc, ne_eq, hret, not_false_eq_true, if_true, Option.some.injEq,
      Prod.mk.injEq] at hrun
    obtain ⟨rfl, rfl⟩ := hrun
    exact .quiet hpres.dataOnly (follows_giveBack rfl _ true)

/-- **一人の writer の一歩は、上のどれかである。** -/
theorem runPc_effect {t t' : Table h} {pc pc' : Pc} (hrun : runPc t pc = some (t', pc'))
    (hok : pc.SearchOk h) : Effect t pc t' pc' := by
  cases pc with
  | idle ret => cases hrun
  | check job =>
    simp only [runPc, Option.some.injEq, Prod.mk.injEq] at hrun
    obtain ⟨rfl, rfl⟩ := hrun
    rcases checkDup_cases t job.data job.key (getShortSig job.hash) (primOf h job.hash)
      (secOf h job.hash) with ⟨-, hret, ht1⟩ | ⟨hret, hpres⟩
    · rw [if_neg (not_not_intro hret)]
      exact .quiet ht1.dataOnly ⟨rfl, fun _ hj => hj, nofun, fun _ => trivial⟩
    · rw [if_pos hret]
      exact .quiet hpres.dataOnly ⟨rfl, nofun, nofun, fun _ => trivial⟩
  | alloc job =>
    obtain ⟨rfl, rfl⟩ := Prod.mk.inj (Option.some.inj hrun)
    exact .quiet (DataOnly.refl t) ⟨rfl, fun _ hj => hj, nofun, fun _ => trivial⟩
  | dequeuing job =>
    obtain ⟨rfl, rfl⟩ := Prod.mk.inj (Option.some.inj hrun)
    exact .dequeued rfl
  | storeData job slotId =>
    obtain ⟨rfl, rfl⟩ := Prod.mk.inj (Option.some.inj hrun)
    exact .storedData rfl
  | storeKey job slotId =>
    obtain ⟨rfl, rfl⟩ := Prod.mk.inj (Option.some.inj hrun)
    exact .storedKey rfl
  | insert job slotId =>
    obtain ⟨rfl, rfl⟩ := Prod.mk.inj (Option.some.inj hrun)
    exact insert_effect t job slotId
  | readIdx job slotId side bfs =>
    have hnext : Follows h (.readIdx job slotId side bfs) (afterSearch h job slotId side) :=
      follows_afterSearch
    simp only [runPc] at hrun
    split at hrun
    · obtain ⟨rfl, rfl⟩ := Prod.mk.inj (Option.some.inj hrun)
      exact .quiet (DataOnly.refl t) hnext
    · split at hrun
      · obtain ⟨rfl, rfl⟩ := Prod.mk.inj (Option.some.inj hrun)
        exact .quiet (DataOnly.refl t) hnext
      · split at hrun
        · obtain ⟨rfl, rfl⟩ := Prod.mk.inj (Option.some.inj hrun)
          exact .quiet (DataOnly.refl t) ⟨rfl, fun _ hj => hj, fun _ hj => hj, fun h => h⟩
        · obtain ⟨rfl, rfl⟩ := Prod.mk.inj (Option.some.inj hrun)
          exact .quiet (DataOnly.refl t) ⟨rfl, fun _ hj => hj, fun _ hj => hj, fun h => h⟩
  | move job slotId side bfs =>
    simp only [runPc] at hrun
    split at hrun
    · cases hrun
    · next node rest hq =>
      obtain ⟨rfl, rfl⟩ := Prod.mk.inj (Option.some.inj hrun)
      exact move_effect t hq hok
  | readSig job slotId side bfs =>
    simp only [runPc] at hrun
    split at hrun
    · cases hrun
    · next node rest hq =>
      obtain ⟨rfl, rfl⟩ := Prod.mk.inj (Option.some.inj hrun)
      refine .quiet (DataOnly.refl t) ⟨rfl, fun _ hj => hj, fun _ hj => hj, fun _ => ?_⟩
      have hnode := hok node (by rw [hq]; exact List.mem_cons_self)
      intro x hx
      rcases Bfs.mem_enqueue hx with hx | ⟨idx, rfl⟩
      · exact hok x hx
      · exact ⟨⟨rfl, hnode.1⟩, hnode.2⟩
  | ext job slotId => exact ext_effect t job slotId hrun
  | giveBack slotId ret locked =>
    obtain ⟨rfl, rfl⟩ := Prod.mk.inj (Option.some.inj hrun)
    exact .quiet (DataOnly.refl t) ⟨rfl, nofun, nofun, fun _ => trivial⟩
  | enqueuing slotId ret locked =>
    obtain ⟨rfl, rfl⟩ := Prod.mk.inj (Option.some.inj hrun)
    exact .enqueued rfl

/-! ## 連なりと slot の不変条件 -/

/-- 手にしている番号。 -/
def Writers.held (s : Writers h) (i : Nat) : Nat := (s.pcs i).held

/-- どの順に進んでも保たれる不変条件。 -/
structure WritersInv (s : Writers h) : Prop where
  linked : ∃ c, Linked s.table c
  owned : Owned s.table s.held
  search : ∀ i, (s.pcs i).SearchOk h

theorem WritersInv.init (h : RteHash) (keyStore : Mem) : WritersInv (Writers.init h keyStore) where
  linked := ⟨0, Linked.init h keyStore⟩
  owned := Owned.init h keyStore
  search := fun _ => trivial

theorem held_update (s : Writers h) (t' : Table h) (lock : Option Nat) (i : Nat) (pc : Pc) :
    Writers.held ⟨t', lock, Function.update s.pcs i pc⟩ = Function.update s.held i pc.held := by
  funext j
  unfold Writers.held
  by_cases hj : j = i
  · simp only [hj, Function.update_self]
  · simp only [Function.update_of_ne hj]

theorem Follows.held_eq {s : Writers h} {i : Nat} {pc' : Pc} (hf : Follows h (s.pcs i) pc') :
    Function.update s.held i pc'.held = s.held := by
  rw [Function.update_eq_self_iff, hf.held]
  rfl

/-- 一歩の後も、extendable bucket は順につながれている。 -/
theorem Effect.linked_inv {t t' : Table h} {pc pc' : Pc} (he : Effect t pc t' pc') {c : Nat}
    (hl : Linked t c) : ∃ c', Linked t' c' := by
  cases he with
  | quiet hd hf => exact ⟨c, hd.linked hl⟩
  | shifted ht1 hs hf => exact ⟨c, (ht1.dataOnly.linked hl).shifts hs⟩
  | dequeued hpc => exact ⟨c, (ringOnly_allocSlot t).linked hl⟩
  | storedData hpc => exact ⟨c, hl.of_bkts rfl rfl⟩
  | storedKey hpc => exact ⟨c, hl.of_bkts rfl rfl⟩
  | placed hsec hpc hmiss ht1 hp hplaced =>
    refine ⟨c, (ht1.dataOnly.linked hl).placed ?_ hplaced⟩
    rcases hp with hp | hp
    · rw [hp]
      exact Nat.zero_le c
    · exact hl.rank_le (b := secOf h _) (Nat.zero_le c) hp
  | linked hsec hpc hmiss ht1 halloc => exact ⟨c + 1, (ht1.dataOnly.linked hl).extend halloc _ _ _⟩
  | leaked ht1 halloc =>
    rcases (ht1.dataOnly.linked hl).alloc_cases with ⟨-, heq⟩ | ⟨q, -, -, heq⟩
    · rw [heq]
      exact ⟨c, ht1.dataOnly.linked hl⟩
    · rw [heq] at halloc
      exact absurd halloc (Nat.succ_ne_zero c)
  | enqueued hpc => exact ⟨c, (ringOnly_enqueueSlotBack t _).linked hl⟩

theorem written_held {s : Writers h} {i : Nat} {job : Job} {slotId : Nat}
    (hpc : (s.pcs i).written = some (job, slotId)) : s.held i = slotId := by
  unfold Writers.held
  cases hq : s.pcs i <;> rw [hq] at hpc <;> cases hpc <;> rfl

theorem Effect.searchOk {t t' : Table h} {pc pc' : Pc} (he : Effect t pc t' pc')
    (hok : pc.SearchOk h) : pc'.SearchOk h := by
  cases he with
  | quiet hd hf => exact hf.search hok
  | shifted ht1 hs hf => exact hf.search hok
  | dequeued hpc => trivial
  | storedData hpc => trivial
  | storedKey hpc => trivial
  | placed hsec hpc hmiss ht1 hp hplaced => trivial
  | linked hsec hpc hmiss ht1 halloc => trivial
  | leaked ht1 halloc => trivial
  | enqueued hpc => trivial

/-- 一歩の後も、slot の番号は高々一か所にある。 -/
theorem Effect.owned {s : Writers h} {i : Nat} {t' : Table h} {pc' : Pc}
    (he : Effect s.table (s.pcs i) t' pc') (ho : Owned s.table s.held) :
    Owned t' (Function.update s.held i pc'.held) := by
  cases he with
  | quiet hd hf =>
    rw [hf.held_eq]
    exact hd.owned ho
  | shifted ht1 hs hf =>
    rw [hf.held_eq]
    exact (ht1.dataOnly.owned ho).shifts hs
  | dequeued hpc =>
    refine ho.allocSlot ?_
    rw [Writers.held, hpc]
    rfl
  | @storedData job slotId hpc =>
    have hself : Function.update s.held i slotId = s.held := by
      rw [Function.update_eq_self_iff, Writers.held, hpc]
      rfl
    exact (hself.symm ▸ ho).congr rfl rfl
  | @storedKey job slotId hpc =>
    have hself : Function.update s.held i slotId = s.held := by
      rw [Function.update_eq_self_iff, Writers.held, hpc]
      rfl
    exact (hself.symm ▸ ho).congr rfl rfl
  | placed hsec hpc hmiss ht1 hp hplaced =>
    rw [← written_held hpc] at hplaced
    exact (ht1.dataOnly.owned ho).placed i hplaced
  | linked hsec hpc hmiss ht1 halloc =>
    rw [← written_held hpc]
    exact (ht1.dataOnly.owned ho).linkExt i _ _
  | @leaked data t1 ret ht1 halloc =>
    obtain ⟨hb, hring, -⟩ := allocExtBkt_bkts t1
    exact Tokens.drop i ((ht1.dataOnly.owned ho).congr hb hring)
  | @enqueued slotId ret locked hpc =>
    have hheld : s.held i = slotId := by
      rw [Writers.held, hpc]
      rfl
    rw [← hheld]
    exact ho.enqueueSlotBack i

/-- **どの順に進んでも、一歩ごとに保たれる。** -/
theorem WritersInv.step {hash : Key8 → UInt32} {s s' : Writers h} {a : Act} (hi : WritersInv s)
    (hstep : s.step hash a = some s') : WritersInv s' := by
  rcases Writers.step_cases hstep with ⟨i, key, data, ret, -, hpc, rfl⟩ |
    ⟨i, t', pc', -, hrun, rfl⟩
  · refine ⟨hi.linked, ?_, fun j => ?_⟩
    · have hself : Function.update s.held i emptySlot = s.held := by
        rw [Function.update_eq_self_iff, Writers.held, hpc]
        rfl
      rw [held_update, show (Pc.check ⟨key, hash (key8 key), data⟩).held = emptySlot from rfl, hself]
      exact hi.owned
    · by_cases hj : j = i
      · simp only [hj, Function.update_self]
        trivial
      · simp only [Function.update_of_ne hj]
        exact hi.search j
  · have he := runPc_effect hrun (hi.search i)
    obtain ⟨c, hl⟩ := hi.linked
    refine ⟨he.linked_inv hl, ?_, fun j => ?_⟩
    · rw [held_update]
      exact he.owned hi.owned
    · by_cases hj : j = i
      · simp only [hj, Function.update_self]
        exact he.searchOk (hi.search i)
      · simp only [Function.update_of_ne hj]
        exact hi.search j

theorem writersInv_of_reaches {hash : Key8 → UInt32} {ok : Writers h → Act → Prop}
    {keyStore : Mem} {s : Writers h}
    (hr : Reaches (Writers.step hash) ok (Writers.init h keyStore) s) : WritersInv s := by
  refine hr.invariant (WritersInv.init h keyStore) ?_
  rintro u a u' hu - hstep
  exact hu.step hstep

end L3fwd.Hash
