import L3fwd.Hash.Writers

/-!
# 一人で進む writer

他の writer が動かなければ、並行な model の writer は逐次の追加 `addKeyWithHash` と同じことをする。

二つの model のずれは探索の繰り返しだけにある。逐次の方は `fuel` で止まり、並行な方は
queue に余地が無くなって止まる。調べた entry の数が `head` に表れるので、`fuel` は足りている。
-/

namespace L3fwd.Hash

open Infra Table

variable {h : RteHash} {t t' : Table h}

/-- 一人の writer が何歩か進む。 -/
def Advances : Table h × Pc → Table h × Pc → Prop :=
  Relation.ReflTransGen fun x y => runPc x.1 x.2 = some y

theorem Advances.head {x y z : Table h × Pc} (hxy : runPc x.1 x.2 = some y) (hyz : Advances y z) :
    Advances x z := Relation.ReflTransGen.head hxy hyz

theorem Advances.trans {x y z : Table h × Pc} (hxy : Advances x y) (hyz : Advances y z) :
    Advances x z := Relation.ReflTransGen.trans hxy hyz

/-! ## 探索 -/

/-- 探索と押し出しの結果に応じて進むところ。 -/
def searchResult (job : Job) (slotId : Nat) (side : Side) (r : CuckooRet × Table h) :
    Table h × Pc :=
  (r.2, afterInsert slotId (afterSearch h job slotId side) r.1)

/-- 調べた entry の数から、次に調べる entry の番号が分かる。 -/
def Bfs.Counted (bfs : Bfs) : Prop :=
  1 ≤ bfs.head ∧ (bfs.head - 1) % bucketEntries = bfs.slot.val

theorem Bfs.Counted.enqueue {bfs : Bfs} (hc : bfs.Counted) (t : Table h) (node : QueueNode) :
    (bfs.enqueue t node).Counted ∧ (bfs.enqueue t node).head = bfs.head + 1 := by
  obtain ⟨hpos, hslot⟩ := hc
  have hslot' : (bfs.head - 1) % 8 = bfs.slot.val := hslot
  have hlt : bfs.slot.val < 8 := bfs.slot.isLt
  unfold Bfs.enqueue
  split
  · next hlast =>
    have hlast' : bfs.slot.val + 1 < 8 := hlast
    refine ⟨⟨Nat.le_add_left 1 _, ?_⟩, rfl⟩
    show (bfs.head + 1 - 1) % 8 = bfs.slot.val + 1
    omega
  · next hlast =>
    have hlast' : ¬ bfs.slot.val + 1 < 8 := hlast
    refine ⟨⟨Nat.le_add_left 1 _, ?_⟩, rfl⟩
    show (bfs.head + 1 - 1) % 8 = 0
    omega

/-- queue に余地が無ければ、探索は終わる。 -/
theorem advances_noRoom {job : Job} {slotId : Nat} {side : Side} {bfs : Bfs}
    (hstop : bfs.queue = [] ∨ bfs.slot = 0 ∧ bfs.hasRoom = false) :
    runPc t (.readIdx job slotId side bfs) = some (t, afterSearch h job slotId side) := by
  rw [runPc]
  split
  · rfl
  · next node rest hq =>
    rcases hstop with hnil | hroom
    · rw [hq] at hnil
      cases hnil
    · rw [if_pos hroom]

/-- **探索の繰り返しは、`fuel` の足りる `makeSpaceLoop` と同じである。** -/
theorem advances_makeSpaceLoop (job : Job) (slotId : Nat) (side : Side) : ∀ (fuel : Nat) (bfs : Bfs)
    (t : Table h), bfs.Counted → bfs.head + fuel = bfsQueueMaxLen + 1 →
    Advances (t, .readIdx job slotId side bfs) (searchResult job slotId side
      (makeSpaceLoop (fun t node slot => cuckooMoveInsertMw t (side.bkt h job.hash)
        (side.alt h job.hash) job.key job.data node slot (getShortSig job.hash) slotId)
        fuel bfs t)) := by
  intro fuel
  induction fuel with
  | zero =>
    intro bfs t hc hfuel
    -- `head` が上限を超えているので、余地は無い
    obtain ⟨-, hslot⟩ := hc
    have hhead : bfs.head = 1001 := hfuel
    have hzero : bfs.slot = 0 := by
      refine Fin.ext ?_
      rw [← hslot, hhead]
      rfl
    have hroom : bfs.hasRoom = false := by
      rw [Bfs.hasRoom, hhead]
      simp [bfsQueueMaxLen, bucketEntries]
    exact Relation.ReflTransGen.single (advances_noRoom (Or.inr ⟨hzero, hroom⟩))
  | succ fuel ih =>
    intro bfs t hc hfuel
    have hrest : ∀ (u : Table h) (node : QueueNode), Advances (u, .readIdx job slotId side
        (bfs.enqueue u node)) (searchResult job slotId side (makeSpaceLoop (fun t node slot =>
          cuckooMoveInsertMw t (side.bkt h job.hash) (side.alt h job.hash) job.key job.data node
            slot (getShortSig job.hash) slotId) fuel (bfs.enqueue u node) u)) := by
      intro u node
      obtain ⟨hc', hhead⟩ := hc.enqueue u node
      exact ih _ u hc' (by omega)
    rw [makeSpaceLoop]
    cases hq : bfs.queue with
    | nil => exact Relation.ReflTransGen.single (advances_noRoom (Or.inl hq))
    | cons node rest =>
      dsimp only
      have hsig : ∀ u : Table h, runPc u (.readSig job slotId side bfs)
          = some (u, .readIdx job slotId side (bfs.enqueue u node)) := by
        intro u
        rw [runPc, hq]
      split
      · next hstop => exact Relation.ReflTransGen.single (advances_noRoom (Or.inr hstop))
      · next hgo =>
        split
        · next hempty =>
          have hread : runPc t (.readIdx job slotId side bfs)
              = some (t, .move job slotId side bfs) := by
            rw [runPc, hq]
            simp only [hgo, if_false, hempty, if_true]
          refine Advances.head hread ?_
          have hmove : ∀ r, cuckooMoveInsertMw t (side.bkt h job.hash) (side.alt h job.hash) job.key
              job.data node bfs.slot (getShortSig job.hash) slotId = r →
              runPc t (.move job slotId side bfs)
                = some (r.2, afterInsert slotId (.readSig job slotId side bfs) r.1) := by
            rintro r rfl
            rw [runPc, hq]
          split
          · next t' hres =>
            exact Advances.head (hmove _ hres) (Advances.head (hsig t') (hrest t' node))
          · next r hne =>
            refine Relation.ReflTransGen.single ?_
            rw [hmove _ rfl]
            generalize cuckooMoveInsertMw t (side.bkt h job.hash) (side.alt h job.hash) job.key
              job.data node bfs.slot (getShortSig job.hash) slotId = r at hne
            obtain ⟨ret, t'⟩ := r
            cases ret with
            | inserted => rfl
            | present ret => rfl
            | failed => exact absurd rfl (hne t')
        · next hfull =>
          have hread : runPc t (.readIdx job slotId side bfs)
              = some (t, .readSig job slotId side bfs) := by
            rw [runPc, hq]
            simp only [hgo, if_false, hfull]
          exact Advances.head hread (Advances.head (hsig t) (hrest t node))

/-! ## 追加の全体 -/

/-- 何歩か進むと、返り値を持って呼び出しを終える。 -/
def Finishes (x : Table h × Pc) (res : Int × Table h) : Prop :=
  Advances x (res.2, .idle (some res.1))

theorem finishes_giveBack (t : Table h) (slotId : Nat) (ret : Int) (locked : Bool) :
    Finishes (t, .giveBack slotId ret locked) (ret, t.enqueueSlotBack slotId) :=
  Advances.head rfl (Relation.ReflTransGen.single rfl)

/-- 挿入を試みた区間の後は、`finishWith` のとおりに終わる。 -/
theorem finishes_afterInsert {slotId : Nat} {failed : Pc} {next : Table h → Int × Table h}
    (hnext : ∀ t, Finishes (t, failed) (next t)) (r : CuckooRet × Table h) :
    Finishes (r.2, afterInsert slotId failed r.1) (finishWith slotId next r) := by
  obtain ⟨ret, t⟩ := r
  cases ret with
  | inserted => exact Relation.ReflTransGen.refl
  | present ret => exact finishes_giveBack t slotId ret false
  | failed => exact hnext t

/-- 探索から始めて終わるまで。 -/
theorem finishes_startSearch {job : Job} {slotId : Nat} {side : Side}
    {next : Table h → Int × Table h}
    (hnext : ∀ t, Finishes (t, afterSearch h job slotId side) (next t)) (t : Table h) :
    Finishes (t, startSearch h job slotId side) (finishWith slotId next
      (cuckooMakeSpaceMw t (side.bkt h job.hash) (side.alt h job.hash) job.key job.data
        (getShortSig job.hash) (side.rootIdx h job.hash) slotId)) := by
  have hsearch := advances_makeSpaceLoop job slotId side bfsQueueMaxLen
    (Bfs.start (side.bkt h job.hash) (side.rootIdx h job.hash)) t ⟨Nat.le_refl 1, rfl⟩
    (Nat.add_comm 1 bfsQueueMaxLen)
  exact hsearch.trans (finishes_afterInsert hnext _)

/-- 二つの探索の後。 -/
theorem finishes_afterSearch (job : Job) (slotId : Nat) (t : Table h) :
    Finishes (t, afterSearch h job slotId .sec)
      (if h.extTableSupport then
        insertExt t (primOf h job.hash) (secOf h job.hash) job.key job.data (getShortSig job.hash)
          slotId
      else (-enospc, t.enqueueSlotBack slotId)) := by
  rw [afterSearch]
  split
  · unfold insertExt
    dsimp only
    split
    · next hdup =>
      refine Advances.head ?_ (finishes_giveBack _ slotId _ true)
      simp only [runPc]
      rw [if_pos hdup]
    · next hnew =>
      refine Relation.ReflTransGen.single ?_
      simp only [runPc]
      rw [if_neg hnew]
  · exact finishes_giveBack t slotId (-enospc) false

/-- slot に書いた後。 -/
theorem finishes_storeSlot (job : Job) (slotId : Nat) (t : Table h) :
    Finishes (t, .insert job slotId) (storeSlot t slotId job.key job.hash job.data) := by
  have hsec := finishes_startSearch (finishes_afterSearch (h := h) job slotId)
  have hprim := finishes_startSearch
    (show ∀ t, Finishes (t, afterSearch h job slotId .prim) _ from hsec)
  exact Advances.head rfl (finishes_afterInsert hprim _)

/-- **一人で進む writer は、逐次の追加と同じ返り値と table で終わる。** -/
theorem finishes_addKeyWithHash (t : Table h) (job : Job) :
    Finishes (t, .check job) (addKeyWithHash t job.key job.hash job.data) := by
  rw [addKeyWithHash_eq]
  split
  · next hdup =>
    refine Relation.ReflTransGen.single ?_
    simp only [runPc]
    rw [if_pos hdup]
  · next hmiss =>
    have hcheck : runPc t (.check job) = some ((checkDup t job.data job.key (getShortSig job.hash)
        (primOf h job.hash) (secOf h job.hash)).2, .alloc job) := by
      simp only [runPc]
      rw [if_neg hmiss]
    refine Advances.head hcheck (Advances.head rfl (Advances.head rfl ?_))
    exact Advances.head rfl (Advances.head rfl (finishes_storeSlot job _ _))

/-! ## 他の writer がいるところで -/

/-- 一人だけが動くときの lock。 -/
def lockOf (i : Nat) (pc : Pc) : Option Nat := if pc.holdsLock then some i else none

theorem lockOf_section {i : Nat} {pc : Pc} (hsec : pc.isSection = true) : lockOf i pc = none := by
  cases pc <;> first | rfl | cases hsec

/-- 一人で進めるなら、他の writer を止めたまま進める。 -/
theorem reaches_of_advances (hash : Key8 → UInt32) (hlock : h.writerTakesLock = true)
    (pcs : Nat → Pc) (i : Nat) {x y : Table h × Pc} (hadv : Advances x y) :
    Reaches (Writers.step hash) (fun _ a => a.writer = i)
      ⟨x.1, lockOf i x.2, Function.update pcs i x.2⟩
      ⟨y.1, lockOf i y.2, Function.update pcs i y.2⟩ := by
  induction hadv with
  | refl => exact Reaches.refl _
  | @tail u v _ hrun ih =>
    refine ih.snoc (a := .run i) rfl ?_
    have hcan : (u.2.isSection && !(h.writerTakesLock && (lockOf i u.2).isNone)) = false := by
      cases hsec : u.2.isSection with
      | false => rfl
      | true => simp [hlock, lockOf_section hsec]
    simp only [Writers.step, Writers.canLock, Function.update_self, hcan, Bool.false_eq_true,
      if_false, hrun, Option.map_some, Function.update_idem, Option.some.injEq]
    -- lock は、持ったか手放したかで決まる
    have hrelock : Writers.relock ⟨u.1, lockOf i u.2, Function.update pcs i u.2⟩ i v.2
        = lockOf i v.2 := by
      simp only [Writers.relock, Function.update_self, lockOf]
      split
      · rfl
      · split
        · rfl
        · rfl
    rw [hrelock]

/--
**lock の空いているときに始めた追加は、他の writer を止めておけば、逐次の追加と同じところに着く。**
-/
theorem reaches_addKeyWithHash {hash : Key8 → UInt32} (hlock : h.writerTakesLock = true)
    {s : Writers h} {i : Nat} {ret : Option Int} (hfree : s.lock = none)
    (hidle : s.pcs i = .idle ret) (key : Key) (data : UInt64) :
    Reaches (Writers.step hash) (fun _ a => a.writer = i) s
      { table := (addKeyWithHash s.table key (hash (key8 key)) data).2
        lock := none
        pcs := Function.update s.pcs i
          (.idle (some (addKeyWithHash s.table key (hash (key8 key)) data).1)) } := by
  have hcall : s.step hash (.call i key data) = some
      ⟨s.table, lockOf i (.check ⟨key, hash (key8 key), data⟩),
        Function.update s.pcs i (.check ⟨key, hash (key8 key), data⟩)⟩ := by
    simp only [Writers.step, hidle]
    rw [hfree]
    rfl
  have hrest := reaches_of_advances hash hlock s.pcs i
    (finishes_addKeyWithHash s.table ⟨key, hash (key8 key), data⟩)
  refine Reaches.trans (Reaches.snoc (Reaches.refl s) ?_ hcall) hrest
  rfl

end L3fwd.Hash
