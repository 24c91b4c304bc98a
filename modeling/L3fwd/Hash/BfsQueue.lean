import L3fwd.Infra.Run
import L3fwd.Hash.Path

/-!
# 探索の queue

`rte_hash_cuckoo_make_space_mw` を、固定長の配列 `queue` と二つの pointer のまま書く。

`Hash/Insert.lean` の探索は、調べていない node だけを list で持ち、`prev` には node そのものを持たせる。
ここでは source のとおり、node は配列の段であり、`prev` は段への pointer である。
table から読む値と押し出しの返り値は一歩ごとに与えられる。ほかの writer が何をしてもよい。

* 配列の外への書き込みと、まだ書かれていない段の読み出しは `fault` で表す
* 8 個積むごとに一度しか余地を調べないが、`head` は `8 * tail + 1 + i` なので 999 を越えない
* どの段の `prev` も自分より小さい段を指すので、たどれば必ず根に着く（`bfsQueue_wellFormed`）

list の探索は、この機械の `tail` から `head` までの段を読んだもので、同じ結果を返す
（`cuckooMakeSpaceMw_arrayRun`）。
-/

namespace L3fwd.Hash

open Infra Table

variable {h : RteHash}

/-! ## 配列の探索 -/

/-- `struct queue_node`。`prev` は配列の段を指す。 -/
structure ArrayNode where
  bkt : BktRef
  curBktIdx : UInt32
  prev : Option Nat
  prevSlot : Int

/-- 次に行うこと。 -/
inductive SearchPc where
  /-- `while` の条件を調べる。 -/
  | test
  /-- `for` の条件を調べ、entry の `key_idx` を読む。 -/
  | scan
  /-- `rte_hash_cuckoo_move_insert_mw` を呼ぶ。 -/
  | move
  /-- entry の行き先を積む。 -/
  | enqueue
  | done (ret : CuckooRet)
  | fault
  deriving DecidableEq

/-- 局所変数。`queue` は書かれた段だけが値を持つ。 -/
structure ArraySearch where
  queue : Nat → Option ArrayNode
  tail : Nat
  head : Nat
  i : Nat
  currBkt : BktRef
  curIdx : UInt32
  pc : SearchPc

/-- 一歩のあいだに読まれる table と、押し出しの返り値。 -/
structure SearchInput (h : RteHash) where
  table : Table h
  ret : CuckooRet

namespace ArraySearch

/-- `queue[pos] = node`。配列の長さは `RTE_HASH_BFS_QUEUE_MAX_LEN` である。 -/
def put (s : ArraySearch) (pos : Nat) (node : ArrayNode) : Option (Nat → Option ArrayNode) :=
  if pos < bfsQueueMaxLen then some (Function.update s.queue pos (some node)) else none

/-- 根を積んだところ。 -/
def start (bkt : BktRef) (bucketIdx : UInt32) : ArraySearch where
  queue := Function.update (fun _ => none) 0 (some ⟨bkt, bucketIdx, none, -1⟩)
  tail := 0
  head := 1
  i := 0
  currBkt := bkt
  curIdx := bucketIdx
  pc := .test

/-- `rte_hash_cuckoo_make_space_mw` の一歩。 -/
def step (s : ArraySearch) (inp : SearchInput h) : ArraySearch :=
  match s.pc with
  | .test =>
    if s.tail ≠ s.head ∧ s.head < bfsQueueMaxLen - bucketEntries then
      match s.queue s.tail with
      | none => { s with pc := .fault }
      | some node => { s with pc := .scan, i := 0, currBkt := node.bkt, curIdx := node.curBktIdx }
    else { s with pc := .done .failed }
  | .scan =>
    if hi : s.i < bucketEntries then
      if inp.table.idxAt (s.currBkt, ⟨s.i, hi⟩) = emptySlot then { s with pc := .move }
      else { s with pc := .enqueue }
    else { s with pc := .test, tail := s.tail + 1 }
  | .move =>
    match inp.ret with
    | .failed => { s with pc := .enqueue }
    | ret => { s with pc := .done ret }
  | .enqueue =>
    if hi : s.i < bucketEntries then
      let altIdx := getAltBucketIndex h s.curIdx (inp.table.sigAt (s.currBkt, ⟨s.i, hi⟩))
      match s.put s.head ⟨.main altIdx, altIdx, some s.tail, s.i⟩ with
      | none => { s with pc := .fault }
      | some queue => { s with pc := .scan, queue := queue, head := s.head + 1, i := s.i + 1 }
    else { s with pc := .fault }
  | .done _ => s
  | .fault => s

/-- 一歩で書かれる段は `head` だけで、そこには mask された番号が入る。 -/
theorem step_queue (s : ArraySearch) (inp : SearchInput h) :
    (s.step inp).queue = s.queue ∨ ∃ idx sig node, node.curBktIdx = getAltBucketIndex h idx sig ∧
      (s.step inp).queue = Function.update s.queue s.head (some node) := by
  unfold step put
  cases s.pc with
  | test =>
    dsimp only
    split
    · split <;> exact Or.inl rfl
    · exact Or.inl rfl
  | scan =>
    dsimp only
    split
    · split <;> exact Or.inl rfl
    · exact Or.inl rfl
  | move =>
    dsimp only
    split <;> exact Or.inl rfl
  | enqueue =>
    dsimp only
    split
    · next hi =>
      by_cases hput : s.head < bfsQueueMaxLen
      · rw [if_pos hput]
        exact Or.inr ⟨_, _, _, rfl, rfl⟩
      · rw [if_neg hput]
        exact Or.inl rfl
    · exact Or.inl rfl
  | done ret => exact Or.inl rfl
  | fault => exact Or.inl rfl

end ArraySearch

def searchStep (s : ArraySearch) (inp : SearchInput h) : Option ArraySearch := some (s.step inp)

/-! ## queue の形 -/

/-- 段から `prev` を、小さい番号の段へたどって根に着く。どの node の pointer と番号も同じ bucket を指す。 -/
inductive LeadsToRoot (root : UInt32) (queue : Nat → Option ArrayNode) : Nat → Prop
  | root (hq : queue 0 = some ⟨.main root, root, none, -1⟩) : LeadsToRoot root queue 0
  | child {pos prev : Nat} {idx : UInt32} {slot : Int}
      (hq : queue pos = some ⟨.main idx, idx, some prev, slot⟩) (hlt : prev < pos)
      (hslot : 0 ≤ slot ∧ slot < bucketEntries) (hprev : LeadsToRoot root queue prev) :
      LeadsToRoot root queue pos

variable {root : UInt32} {queue : Nat → Option ArrayNode} {pos n : Nat}

/-- まだ使っていない段に書いても、小さい段からの道は変わらない。 -/
theorem LeadsToRoot.put (hl : LeadsToRoot root queue pos) (hlt : pos < n) (node : ArrayNode) :
    LeadsToRoot root (Function.update queue n (some node)) pos := by
  induction hl with
  | root hq => exact .root (by rw [Function.update_of_ne hlt.ne]; exact hq)
  | child hq hprev hslot _ ih =>
    exact .child (by rw [Function.update_of_ne hlt.ne]; exact hq) hprev hslot (ih (hprev.trans hlt))

theorem LeadsToRoot.node (hl : LeadsToRoot root queue pos) :
    ∃ node, queue pos = some node ∧ node.bkt = .main node.curBktIdx := by
  cases hl with
  | root hq => exact ⟨_, hq, rfl⟩
  | child hq => exact ⟨_, hq, rfl⟩

/-- node を調べている途中。 -/
def SearchPc.inNode : SearchPc → Prop
  | .scan | .move | .enqueue => True
  | _ => False

/-- 探索の途中で成り立つこと。 -/
structure ArrayInv (root : UInt32) (s : ArraySearch) : Prop where
  written : ∀ j, j < s.head → LeadsToRoot root s.queue j
  unwritten : ∀ j, s.head ≤ j → s.queue j = none
  tested : s.pc = .test → s.head = 8 * s.tail + 1
  placed : s.pc.inNode → s.head = 8 * s.tail + 1 + s.i ∧ s.i ≤ 8 ∧ 8 * s.tail + 1 < 992
  slot_lt : s.pc = .move ∨ s.pc = .enqueue → s.i < 8
  current : s.pc.inNode → ∃ node, s.queue s.tail = some node ∧ node.bkt = s.currBkt ∧
    node.curBktIdx = s.curIdx
  head_le : s.head ≤ 999
  noFault : s.pc ≠ .fault

theorem arrayInv_start (root : UInt32) : ArrayInv root (ArraySearch.start (.main root) root) where
  written := by
    intro j hj
    obtain rfl : j = 0 := Nat.lt_one_iff.mp hj
    exact .root (by simp [ArraySearch.start])
  unwritten := by
    intro j hj
    have hne : j ≠ 0 := Nat.ne_of_gt hj
    simp [ArraySearch.start, hne]
  tested := fun _ => rfl
  placed := nofun
  slot_lt := by rintro (hx | hx) <;> cases hx
  current := nofun
  head_le := show 1 ≤ 999 by decide
  noFault := nofun

variable {s : ArraySearch} {inp : SearchInput h}

/-- queue を変えない一歩。 -/
theorem ArrayInv.goto (hi : ArrayInv root s) {s' : ArraySearch} (hq : s'.queue = s.queue)
    (hh : s'.head = s.head) (ht : s'.pc = .test → s'.head = 8 * s'.tail + 1)
    (hp : s'.pc.inNode → s'.head = 8 * s'.tail + 1 + s'.i ∧ s'.i ≤ 8 ∧ 8 * s'.tail + 1 < 992)
    (hs : s'.pc = .move ∨ s'.pc = .enqueue → s'.i < 8)
    (hc : s'.pc.inNode → ∃ node, s.queue s'.tail = some node ∧ node.bkt = s'.currBkt ∧
      node.curBktIdx = s'.curIdx) (hf : s'.pc ≠ .fault) : ArrayInv root s' where
  written := by rw [hq, hh]; exact hi.written
  unwritten := by rw [hq, hh]; exact hi.unwritten
  tested := ht
  placed := hp
  slot_lt := hs
  current := by rw [hq]; exact hc
  head_le := by rw [hh]; exact hi.head_le
  noFault := hf

theorem ArrayInv.step (hi : ArrayInv root s) : ArrayInv root (s.step inp) := by
  cases hpc : s.pc with
  | test =>
    have hhead := hi.tested hpc
    obtain ⟨node, hnode, -⟩ := (hi.written s.tail (by omega)).node
    simp only [ArraySearch.step, hpc, hnode]
    split
    · next hgo =>
      have hroom : s.head < 992 := hgo.2
      refine hi.goto rfl rfl nofun (fun _ => ⟨by simpa using hhead, Nat.zero_le 8, ?_⟩)
        (by rintro (hx | hx) <;> cases hx) (fun _ => ⟨node, hnode, rfl, rfl⟩) nofun
      show 8 * s.tail + 1 < 992
      omega
    · exact hi.goto rfl rfl nofun nofun (by rintro (hx | hx) <;> cases hx) nofun nofun
  | scan =>
    obtain ⟨hhead, hle, hroom⟩ := hi.placed (by rw [hpc]; trivial)
    have hcur := hi.current (by rw [hpc]; trivial)
    simp only [ArraySearch.step, hpc]
    split
    · next hlt =>
      split
      · exact hi.goto rfl rfl nofun (fun _ => ⟨hhead, hle, hroom⟩) (fun _ => hlt) (fun _ => hcur)
          nofun
      · exact hi.goto rfl rfl nofun (fun _ => ⟨hhead, hle, hroom⟩) (fun _ => hlt) (fun _ => hcur)
          nofun
    · next hge =>
      have hge' : ¬ s.i < 8 := hge
      refine hi.goto rfl rfl (fun _ => ?_) nofun (by rintro (hx | hx) <;> cases hx) nofun nofun
      show s.head = 8 * (s.tail + 1) + 1
      omega
  | move =>
    have hplace := hi.placed (by rw [hpc]; trivial)
    have hcur := hi.current (by rw [hpc]; trivial)
    have hlt := hi.slot_lt (Or.inl hpc)
    simp only [ArraySearch.step, hpc]
    split
    · exact hi.goto rfl rfl nofun (fun _ => hplace) (fun _ => hlt) (fun _ => hcur) nofun
    · exact hi.goto rfl rfl nofun nofun (by rintro (hx | hx) <;> cases hx) nofun nofun
  | enqueue =>
    obtain ⟨hhead, hle, hroom⟩ := hi.placed (by rw [hpc]; trivial)
    obtain ⟨node, hnode, hbkt, hidx⟩ := hi.current (by rw [hpc]; trivial)
    have hlt : s.i < bucketEntries := hi.slot_lt (Or.inr hpc)
    have hlt' : s.i < 8 := hlt
    have hput : s.head < bfsQueueMaxLen := by
      show s.head < 1000
      omega
    simp only [ArraySearch.step, hpc, dif_pos hlt, ArraySearch.put, if_pos hput]
    refine ⟨fun j hj => ?_, fun j hj => ?_, nofun, fun _ => ⟨?_, hlt', hroom⟩,
      (by rintro (hx | hx) <;> cases hx), fun _ => ⟨node, ?_, hbkt, hidx⟩, ?_, nofun⟩
    · rcases Nat.lt_succ_iff_lt_or_eq.mp hj with hj | rfl
      · exact (hi.written j hj).put hj _
      · -- 積んだ段は、いま調べている段を指す
        have htail : s.tail < s.head := by omega
        exact .child (Function.update_self _ _ _) htail ⟨Int.natCast_nonneg _, by exact_mod_cast hlt⟩
          ((hi.written s.tail htail).put htail _)
    · have hne : s.head + 1 ≤ j := hj
      show Function.update s.queue s.head _ j = none
      rw [Function.update_of_ne (by omega)]
      exact hi.unwritten j (by omega)
    · show s.head + 1 = 8 * s.tail + 1 + (s.i + 1)
      omega
    · show Function.update s.queue s.head _ s.tail = some node
      rw [Function.update_of_ne (by omega)]
      exact hnode
    · show s.head + 1 ≤ 999
      omega
  | done ret =>
    simp only [ArraySearch.step, hpc]
    exact hi
  | fault => exact absurd hpc hi.noFault

/-! ## 停止 -/

/-- 次に積むまでの歩数。 -/
def SearchPc.remaining (i : Nat) : SearchPc → Nat
  | .test => 4
  | .scan => if i < 8 then 3 else 5
  | .move => 2
  | .enqueue => 1
  | .done _ | .fault => 0

/-- 残りの歩数の上限。一つ積むごとに 5 減る。 -/
def ArraySearch.remaining (s : ArraySearch) : Nat := 5 * (1000 - s.head) + s.pc.remaining s.i

/-- 返り値が決まった。 -/
def ArraySearch.Returned (s : ArraySearch) : Prop := ∃ ret, s.pc = .done ret

theorem ArrayInv.remaining_step (hi : ArrayInv root s) (hne : ¬ s.Returned) :
    (s.step inp).remaining < s.remaining := by
  have hle := hi.head_le
  cases hpc : s.pc with
  | test =>
    have hhead := hi.tested hpc
    obtain ⟨node, hnode, -⟩ := (hi.written s.tail (by omega)).node
    simp only [ArraySearch.step, hpc, hnode, ArraySearch.remaining]
    split <;> simp [SearchPc.remaining]
  | scan =>
    simp only [ArraySearch.step, hpc, ArraySearch.remaining]
    split
    · next hlt =>
      have hlt' : s.i < 8 := hlt
      split <;> simp [SearchPc.remaining, hlt']
    · next hge =>
      have hge' : ¬ s.i < 8 := hge
      simp [SearchPc.remaining, hge']
  | move =>
    simp only [ArraySearch.step, hpc, ArraySearch.remaining]
    split <;> simp [SearchPc.remaining]
  | enqueue =>
    have hlt : s.i < bucketEntries := hi.slot_lt (Or.inr hpc)
    have hput : s.head < bfsQueueMaxLen := Nat.lt_succ_of_le hle
    simp only [ArraySearch.step, hpc, dif_pos hlt, ArraySearch.put, if_pos hput,
      ArraySearch.remaining, SearchPc.remaining]
    split <;> omega
  | done ret => exact absurd ⟨ret, hpc⟩ hne
  | fault => exact absurd hpc hi.noFault

theorem ArrayInv.run (hr : Reaches (searchStep (h := h)) Always
    (ArraySearch.start (.main root) root) s) : ArrayInv root s := by
  refine hr.invariant (arrayInv_start root) fun u a u' hu _ hs => ?_
  obtain rfl := Option.some.inj hs
  exact hu.step

/--
**探索の queue は壊れず、溢れない。**

table の中身がどう変わり、押し出しが何度失敗しても、配列の外には書かず、書いていない段は読まない。
押し出しを呼ぶとき、leaf から根までの node はどれも正しい bucket を指す。
一歩ずつ 5000 歩進めれば必ず返る。
-/
theorem bfsQueue_wellFormed (root : UInt32) (inputs : List (SearchInput h)) :
    ∃ s, exec searchStep (ArraySearch.start (.main root) root) inputs = some s ∧
      s.pc ≠ .fault ∧ (∀ j, s.queue j ≠ none → j < bfsQueueMaxLen) ∧
      (s.pc = .move → LeadsToRoot root s.queue s.tail ∧ s.i < bucketEntries) ∧
      (5000 ≤ inputs.length → s.Returned) := by
  have htotal : ∀ (as : List (SearchInput h)) (u : ArraySearch),
      ∃ s, exec searchStep u as = some s := by
    intro as
    induction as with
    | nil => exact fun u => ⟨u, rfl⟩
    | cons a as ih => exact fun u => ih (u.step a)
  obtain ⟨s, hrun⟩ := htotal inputs (ArraySearch.start (.main root) root)
  have hi : ArrayInv root s := ArrayInv.run (reaches_of_exec (fun _ _ _ => trivial) hrun)
  have hle := hi.head_le
  refine ⟨s, hrun, hi.noFault, fun j hj => ?_, fun hpc => ⟨?_, hi.slot_lt (Or.inl hpc)⟩,
    fun hlen => ?_⟩
  · by_contra hge
    have hge' : ¬ j < 1000 := hge
    exact hj (hi.unwritten j (by omega))
  · obtain ⟨hhead, -⟩ := hi.placed (by rw [hpc]; trivial)
    exact hi.written s.tail (by omega)
  · refine done_of_exec ArraySearch.Returned (ArrayInv root) ArraySearch.remaining ?_ ?_
      (arrayInv_start root) (show 5 * (1000 - 1) + 4 ≤ inputs.length by omega) ?_ hrun
    · intro u a u' hu hne hs
      obtain rfl := Option.some.inj hs
      exact ⟨hu.step, hu.remaining_step hne⟩
    · rintro u a u' ⟨ret, hret⟩ hs
      obtain rfl := Option.some.inj hs
      exact ⟨ret, by simp only [ArraySearch.step, hret]⟩
    · intro u hzero hu
      have := hu.head_le
      unfold ArraySearch.remaining at hzero
      omega

/-- 空の table の上で押し出しが失敗し続けても、探索は返る。 -/
theorem bfsQueue_wellFormed_failing :
    ∃ s, exec searchStep (ArraySearch.start (.main 0) 0)
        (List.replicate 5000 (⟨Table.init eightKeys fun _ => 0, .failed⟩ : SearchInput eightKeys))
          = some s ∧ s.Returned := by
  obtain ⟨s, hrun, -, -, -, hdone⟩ := bfsQueue_wellFormed 0
    (List.replicate 5000 (⟨Table.init eightKeys fun _ => 0, .failed⟩ : SearchInput eightKeys))
  exact ⟨s, hrun, hdone (by rw [List.length_replicate])⟩

/-! ## list の探索との対応 -/

/-- 配列の段を、`prev` をたどって node として読む。 -/
inductive Decodes (queue : Nat → Option ArrayNode) : Nat → QueueNode → Prop
  | root {pos : Nat} {bkt : BktRef} {idx : UInt32} {slot : Int}
      (hq : queue pos = some ⟨bkt, idx, none, slot⟩) : Decodes queue pos (.root bkt idx)
  | child {pos prev : Nat} {bkt : BktRef} {idx : UInt32} {node : QueueNode}
      {slot : Fin bucketEntries} (hq : queue pos = some ⟨bkt, idx, some prev, slot.val⟩)
      (hlt : prev < pos) (hprev : Decodes queue prev node) :
      Decodes queue pos (.child bkt idx node slot)

theorem Decodes.put {node : QueueNode} (hd : Decodes queue pos node) (hlt : pos < n)
    (new : ArrayNode) : Decodes (Function.update queue n (some new)) pos node := by
  induction hd with
  | root hq => exact .root (by rw [Function.update_of_ne hlt.ne]; exact hq)
  | child hq hprev _ ih =>
    exact .child (by rw [Function.update_of_ne hlt.ne]; exact hq) hprev (ih (hprev.trans hlt))

theorem forall₂_decodes_put {l : List Nat} {nodes : List QueueNode}
    (hd : List.Forall₂ (Decodes queue) l nodes) (hlt : ∀ pos ∈ l, pos < n) (new : ArrayNode) :
    List.Forall₂ (Decodes (Function.update queue n (some new))) l nodes := by
  induction hd with
  | nil => exact .nil
  | cons hhead _ ih =>
    exact .cons (hhead.put (hlt _ List.mem_cons_self) new)
      (ih fun pos hpos => hlt pos (List.mem_cons_of_mem _ hpos))

theorem Decodes.fields {node : QueueNode} {a : ArrayNode} (hd : Decodes queue pos node)
    (ha : queue pos = some a) : node.bkt = a.bkt ∧ node.curBktIdx = a.curBktIdx := by
  cases hd with
  | root hq =>
    obtain rfl := Option.some.inj (hq.symm.trans ha)
    exact ⟨rfl, rfl⟩
  | child hq =>
    obtain rfl := Option.some.inj (hq.symm.trans ha)
    exact ⟨rfl, rfl⟩

/-- 配列の探索を、実際の table と押し出しの上で最後まで進めた結果。 -/
inductive ArrayRun (move : Table h → QueueNode → Fin bucketEntries → CuckooRet × Table h) :
    ArraySearch → Table h → CuckooRet × Table h → Prop
  | done {s : ArraySearch} {t : Table h} {ret : CuckooRet} (hpc : s.pc = .done ret) :
      ArrayRun move s t (ret, t)
  | move {s : ArraySearch} {t : Table h} {node : QueueNode} {out : CuckooRet × Table h}
      (hpc : s.pc = .move) (hleaf : Decodes s.queue s.tail node) (hi : s.i < bucketEntries)
      (hrest : ArrayRun move (s.step ⟨(move t node ⟨s.i, hi⟩).2, (move t node ⟨s.i, hi⟩).1⟩)
        (move t node ⟨s.i, hi⟩).2 out) : ArrayRun move s t out
  | read {s : ArraySearch} {t : Table h} {out : CuckooRet × Table h}
      (hpc : s.pc = .test ∨ s.pc = .scan ∨ s.pc = .enqueue)
      (hrest : ArrayRun move (s.step ⟨t, .failed⟩) t out) : ArrayRun move s t out

/-- list の queue は、配列の `tail` から `head` までの段である。 -/
structure QueueSim (s : ArraySearch) (bfs : Bfs) : Prop where
  head : bfs.head = s.head
  queue : List.Forall₂ (Decodes s.queue) (List.range' s.tail (s.head - s.tail)) bfs.queue

/-- list の探索が entry を調べる前に、配列の探索がいる位置。 -/
def AtEntry (s : ArraySearch) (bfs : Bfs) : Prop :=
  (s.pc = .test ∧ bfs.slot.val = 0) ∨ (s.pc = .scan ∧ bfs.slot.val = s.i ∧ 0 < s.i)

variable {bfs : Bfs} {t : Table h} {node : QueueNode} {rest : List QueueNode}
  {move : Table h → QueueNode → Fin bucketEntries → CuckooRet × Table h}

/-- `tail` の段を読むと、list の先頭の node である。 -/
theorem QueueSim.decodes_tail (hs : QueueSim s bfs) (hq : bfs.queue = node :: rest) :
    Decodes s.queue s.tail node ∧
      List.Forall₂ (Decodes s.queue) (List.range' (s.tail + 1) (s.head - (s.tail + 1))) rest := by
  have hall := hs.queue
  rw [hq] at hall
  cases hn : s.head - s.tail with
  | zero =>
    rw [hn] at hall
    cases hall
  | succ k =>
    rw [hn, List.range'_succ] at hall
    cases hall with
    | cons hhead htail =>
      refine ⟨hhead, ?_⟩
      rwa [show s.head - (s.tail + 1) = k by omega]

theorem QueueSim.exists_cons (hs : QueueSim s bfs) (hlt : s.tail < s.head) :
    ∃ node rest, bfs.queue = node :: rest := by
  have hlen := hs.queue.length_eq
  rw [List.length_range'] at hlen
  cases hq : bfs.queue with
  | nil =>
    rw [hq, List.length_nil] at hlen
    omega
  | cons node rest => exact ⟨node, rest, rfl⟩

/-- **行き先を積むと、配列と list は同じように進む。** -/
theorem QueueSim.enqueue
    (move : Table h → QueueNode → Fin bucketEntries → CuckooRet × Table h)
    (hi : ArrayInv root s) (hs : QueueSim s bfs) (hpc : s.pc = .enqueue)
    (hslot : bfs.slot.val = s.i) (t : Table h) (hq : bfs.queue = node :: rest) :
    ∃ s', (∀ out, ArrayRun move s' t out → ArrayRun move s t out) ∧ ArrayInv root s' ∧
      QueueSim s' (bfs.enqueue t node) ∧ AtEntry s' (bfs.enqueue t node) := by
  obtain ⟨hhead, -, hroom⟩ := hi.placed (by rw [hpc]; trivial)
  obtain ⟨a, ha, hbkt, hidx⟩ := hi.current (by rw [hpc]; trivial)
  obtain ⟨hleaf, hrest⟩ := hs.decodes_tail hq
  obtain ⟨hnbkt, hnidx⟩ := hleaf.fields ha
  have hlt : s.i < bucketEntries := hi.slot_lt (Or.inr hpc)
  have hput : s.head < bfsQueueMaxLen := Nat.lt_succ_of_le hi.head_le
  have hfin : (⟨s.i, hlt⟩ : Fin bucketEntries) = bfs.slot := Fin.ext hslot.symm
  have htail : s.tail < s.head := by omega
  -- 積む node は、配列でも list でも同じ
  have halt : getAltBucketIndex h s.curIdx (t.sigAt (s.currBkt, ⟨s.i, hlt⟩))
      = getAltBucketIndex h node.curBktIdx (t.sigAt (node.bkt, bfs.slot)) := by
    rw [hfin, hnbkt, hnidx, hbkt, hidx]
  have hstep : s.step (⟨t, .failed⟩ : SearchInput h) = { s with
      pc := .scan
      queue := Function.update s.queue s.head (some ⟨.main (getAltBucketIndex h node.curBktIdx
        (t.sigAt (node.bkt, bfs.slot))), getAltBucketIndex h node.curBktIdx
          (t.sigAt (node.bkt, bfs.slot)), some s.tail, bfs.slot.val⟩)
      head := s.head + 1
      i := s.i + 1 } := by
    simp only [ArraySearch.step, hpc, dif_pos hlt, ArraySearch.put, if_pos hput, halt, hslot]
  have hinv : ArrayInv root (s.step (⟨t, .failed⟩ : SearchInput h)) := hi.step
  unfold Bfs.enqueue
  dsimp only
  generalize getAltBucketIndex h node.curBktIdx (t.sigAt (node.bkt, bfs.slot)) = alt at hstep ⊢
  have hread : ∀ out, ArrayRun move (s.step ⟨t, .failed⟩) t out → ArrayRun move s t out :=
    fun _ => .read (Or.inr (Or.inr hpc))
  have hall : List.Forall₂ (Decodes (Function.update s.queue s.head
      (some ⟨.main alt, alt, some s.tail, bfs.slot.val⟩))) (List.range' s.tail (s.head + 1 - s.tail))
      (bfs.queue ++ [.child (.main alt) alt node bfs.slot]) := by
    rw [show s.head + 1 - s.tail = s.head - s.tail + 1 by omega, List.range'_1_concat,
      show s.tail + (s.head - s.tail) = s.head by omega]
    refine List.rel_append (forall₂_decodes_put hs.queue (fun pos hpos => ?_) _) (.cons ?_ .nil)
    · have := List.mem_range'_1.mp hpos
      omega
    · exact .child (Function.update_self _ _ _) htail (hleaf.put htail _)
  rw [hstep] at hread hinv
  by_cases hlast : bfs.slot.val + 1 < bucketEntries
  · rw [dif_pos hlast]
    refine ⟨_, hread, hinv, ⟨congrArg (· + 1) hs.head, hall⟩, Or.inr ⟨rfl, ?_, Nat.succ_pos _⟩⟩
    exact congrArg (· + 1) hslot
  · rw [dif_neg hlast]
    have hend : ¬ s.i + 1 < bucketEntries := by rwa [← hslot]
    refine ⟨_, fun out hrun => hread out (.read (Or.inr (Or.inl rfl)) hrun), hinv.step,
      ⟨?_, ?_⟩, Or.inl ⟨?_, rfl⟩⟩
    · simp only [ArraySearch.step, dif_neg hend]
      exact congrArg (· + 1) hs.head
    · simp only [ArraySearch.step, dif_neg hend]
      rw [hq] at hall ⊢
      rw [show s.head + 1 - s.tail = (s.head + 1 - (s.tail + 1)) + 1 by omega, List.range'_succ,
        List.cons_append] at hall
      cases hall with
      | cons _ htl => exact htl
    · simp only [ArraySearch.step, dif_neg hend]

theorem Bfs.enqueue_head (t : Table h) (bfs : Bfs) (node : QueueNode) :
    (bfs.enqueue t node).head = bfs.head + 1 := by
  unfold Bfs.enqueue
  dsimp only
  split <;> rfl

/-- 一つの entry を調べるあいだ、配列の探索は list の探索と同じ分岐をたどる。 -/
theorem QueueSim.scan {fuel : Nat} (hi : ArrayInv root s) (hs : QueueSim s bfs) (hpc : s.pc = .scan)
    (hslot : bfs.slot.val = s.i) (hq : bfs.queue = node :: rest)
    (hnext : ∀ s' bfs' t', ArrayInv root s' → QueueSim s' bfs' → AtEntry s' bfs' →
      bfs'.head = bfs.head + 1 → ArrayRun move s' t' (makeSpaceLoop move fuel bfs' t')) :
    ArrayRun move s t (if t.idxAt (node.bkt, bfs.slot) = emptySlot then
        match move t node bfs.slot with
        | (.failed, t') => makeSpaceLoop move fuel (bfs.enqueue t' node) t'
        | r => r
      else makeSpaceLoop move fuel (bfs.enqueue t node) t) := by
  obtain ⟨a, ha, hbkt, -⟩ := hi.current (by rw [hpc]; trivial)
  obtain ⟨hleaf, -⟩ := hs.decodes_tail hq
  have hlt : s.i < bucketEntries := hslot ▸ bfs.slot.isLt
  have hfin : (⟨s.i, hlt⟩ : Fin bucketEntries) = bfs.slot := Fin.ext hslot.symm
  have hentry : (s.currBkt, (⟨s.i, hlt⟩ : Fin bucketEntries)) = (node.bkt, bfs.slot) := by
    rw [hfin, (hleaf.fields ha).1, hbkt]
  -- 積んでから先は、帰納法の仮定
  have hpush : ∀ (u : ArraySearch) (t' : Table h), ArrayInv root u → QueueSim u bfs →
      u.pc = .enqueue → u.i = s.i →
      ArrayRun move u t' (makeSpaceLoop move fuel (bfs.enqueue t' node) t') := by
    intro u t' hu hsu hpcu hiu
    obtain ⟨s', hback, hinv, hsim, hat⟩ :=
      hsu.enqueue move hu hpcu (hslot.trans hiu.symm) t' hq
    exact hback _ (hnext s' _ t' hinv hsim hat (Bfs.enqueue_head t' bfs node))
  refine .read (Or.inr (Or.inl hpc)) ?_
  have hscan : ArrayInv root (s.step (⟨t, .failed⟩ : SearchInput h)) := hi.step
  split
  · next hempty =>
    have hstep : s.step (⟨t, .failed⟩ : SearchInput h) = { s with pc := .move } := by
      simp only [ArraySearch.step, hpc, dif_pos hlt, hentry, if_pos hempty]
    rw [hstep] at hscan ⊢
    refine .move rfl hleaf hlt ?_
    have hmoved : ArrayInv root (ArraySearch.step { s with pc := .move }
        (⟨(move t node ⟨s.i, hlt⟩).2, (move t node ⟨s.i, hlt⟩).1⟩ : SearchInput h)) := hscan.step
    simp only [hfin] at hmoved ⊢
    cases hmove : move t node bfs.slot with
    | mk ret t' =>
      simp only [hmove] at hmoved ⊢
      cases ret with
      | failed => exact hpush _ t' hmoved ⟨hs.head, hs.queue⟩ rfl rfl
      | inserted => exact .done rfl
      | present retVal => exact .done rfl
  · next hfull =>
    have hstep : s.step (⟨t, .failed⟩ : SearchInput h) = { s with pc := .enqueue } := by
      simp only [ArraySearch.step, hpc, dif_pos hlt, hentry, if_neg hfull]
    rw [hstep] at hscan ⊢
    exact hpush _ t hscan ⟨hs.head, hs.queue⟩ rfl rfl

/-- **list の探索は、配列の探索と同じ結果を返す。** -/
theorem makeSpaceLoop_arrayRun {fuel : Nat} (hi : ArrayInv root s) (hs : QueueSim s bfs)
    (hat : AtEntry s bfs) (hfuel : bfsQueueMaxLen ≤ bfs.head + fuel) (t : Table h) :
    ArrayRun move s t (makeSpaceLoop move fuel bfs t) := by
  induction fuel generalizing s bfs t with
  | zero =>
    have hle := hi.head_le
    have hfuel' : 1000 ≤ bfs.head := hfuel
    rw [hs.head] at hfuel'
    omega
  | succ fuel ih =>
    have hnext : ∀ s' bfs' t', ArrayInv root s' → QueueSim s' bfs' → AtEntry s' bfs' →
        bfs'.head = bfs.head + 1 → ArrayRun move s' t' (makeSpaceLoop move fuel bfs' t') :=
      fun s' bfs' t' hi' hs' hat' hhead => ih hi' hs' hat' (by rw [hhead]; omega) t'
    rcases hat with ⟨hpc, hslot⟩ | ⟨hpc, hslot, hpos⟩
    · have hhead := hi.tested hpc
      have htail : s.tail < s.head := by omega
      obtain ⟨node, rest, hq⟩ := hs.exists_cons htail
      obtain ⟨a, ha, -⟩ := (hi.written s.tail htail).node
      have hzero : bfs.slot = 0 := Fin.ext hslot
      have hroom : bfs.hasRoom = decide (s.head < bfsQueueMaxLen - bucketEntries) := by
        rw [Bfs.hasRoom, hq, hs.head]
        rfl
      have htest : ArrayInv root (s.step (⟨t, .failed⟩ : SearchInput h)) := hi.step
      rw [makeSpaceLoop_cons hq]
      refine .read (Or.inl hpc) ?_
      by_cases hgo : s.head < bfsQueueMaxLen - bucketEntries
      · have hstep : s.step (⟨t, .failed⟩ : SearchInput h)
            = { s with pc := .scan, i := 0, currBkt := a.bkt, curIdx := a.curBktIdx } := by
          simp only [ArraySearch.step, hpc, ha]
          rw [if_pos ⟨htail.ne, hgo⟩]
        rw [if_neg (by rw [hroom]; simp [hgo])]
        rw [hstep] at htest ⊢
        exact QueueSim.scan htest ⟨hs.head, hs.queue⟩ rfl hslot hq hnext
      · have hstep : s.step (⟨t, .failed⟩ : SearchInput h) = { s with pc := .done .failed } := by
          simp only [ArraySearch.step, hpc]
          rw [if_neg (by rintro ⟨-, hx⟩; exact hgo hx)]
        rw [if_pos ⟨hzero, by rw [hroom]; simp [hgo]⟩, hstep]
        exact .done rfl
    · obtain ⟨hhead, -, -⟩ := hi.placed (by rw [hpc]; trivial)
      obtain ⟨node, rest, hq⟩ := hs.exists_cons (show s.tail < s.head by omega)
      have hne : bfs.slot ≠ 0 := by
        intro hx
        have : bfs.slot.val = 0 := congrArg Fin.val hx
        omega
      rw [makeSpaceLoop_cons hq]
      rw [if_neg (by rintro ⟨hx, -⟩; exact hne hx)]
      exact QueueSim.scan hi hs hpc hslot hq hnext

/-- 逐次の `rte_hash_cuckoo_make_space_mw` は、配列の探索の結果である。 -/
theorem cuckooMakeSpaceMw_arrayRun (t : Table h) (secBkt : BktRef) (key : Key) (data : UInt64)
    (sig : UInt16) (bucketIdx : UInt32) (newIdx : Nat) :
    ArrayRun (fun t node slot => cuckooMoveInsertMw t (.main bucketIdx) secBkt key data node slot sig
        newIdx) (ArraySearch.start (.main bucketIdx) bucketIdx) t
      (cuckooMakeSpaceMw t (.main bucketIdx) secBkt key data sig bucketIdx newIdx) := by
  refine makeSpaceLoop_arrayRun (arrayInv_start bucketIdx) ⟨rfl, ?_⟩ (Or.inl ⟨rfl, rfl⟩)
    (show 1000 ≤ 1 + 1000 by decide) t
  have hroot : (ArraySearch.start (.main bucketIdx) bucketIdx).queue 0
      = some ⟨.main bucketIdx, bucketIdx, none, -1⟩ := by simp [ArraySearch.start]
  exact .cons (.root hroot) .nil

end L3fwd.Hash
