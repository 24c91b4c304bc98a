import L3fwd.Hash.Writers

/-!
# `free_slots` の使い方

`rte_ring_sc_dequeue_elem` と `rte_ring_sp_enqueue_elem` は、それぞれ同時に一人しか呼んではならない。
`alloc_slot` は lock の外で呼ばれ、`enqueue_slot_back` も最後の区間のほかは lock の外で呼ばれる。

したがって writer が一人なら約束は守られ、二人以上なら破られる。
一人のとき、同じ番号を二つの追加や二つの entry が持つことはない。
-/

namespace L3fwd.Hash

open Infra Table

variable {h : RteHash} {hash : Key8 → UInt32} {s : Writers h}

/-- `rte_ring_sc_dequeue_elem` の中にいる。 -/
def Writers.Dequeuing (s : Writers h) (i : Nat) : Prop := ∃ job, s.pcs i = .dequeuing job

/-- `rte_ring_sp_enqueue_elem` の中にいる。 -/
def Writers.Enqueuing (s : Writers h) (i : Nat) : Prop :=
  ∃ slotId ret locked, s.pcs i = .enqueuing slotId ret locked

/-- 取り出しどうし、返しどうしは重ならない。 -/
def RingContract (s : Writers h) : Prop :=
  (∀ i j, s.Dequeuing i → s.Dequeuing j → i = j) ∧ ∀ i j, s.Enqueuing i → s.Enqueuing j → i = j

/-- 同じ番号を、二つの追加も二つの entry も持たない。 -/
def SlotsUnshared (s : Writers h) : Prop :=
  (∀ i j, s.held i = s.held j → s.held i ≠ emptySlot → i = j) ∧
    ∀ p q, s.table.idxAt p = s.table.idxAt q → s.table.idxAt p ≠ emptySlot → p = q

/-- `n` 人の writer だけが動く。 -/
def Among (n : Nat) (_ : Writers h) (a : Act) : Prop := a.writer < n

/-! ## 一人のとき -/

/-- `n` 番より先の writer は、呼び出しの外にいる。 -/
def IdleFrom (n : Nat) (s : Writers h) : Prop := ∀ i, n ≤ i → ∃ ret, s.pcs i = .idle ret

/-- 動かない writer は、呼び出しの外にいる。 -/
theorem idle_of_reaches {n : Nat} {keyStore : Mem}
    (hr : Reaches (Writers.step hash) (Among n) (Writers.init h keyStore) s) :
    IdleFrom n s := by
  have hinit : IdleFrom n (Writers.init h keyStore) := fun _ _ => ⟨none, rfl⟩
  refine hr.invariant hinit ?_
  intro u a u' hu hlt hstep j hj
  have hne : j ≠ a.writer := Nat.ne_of_gt (Nat.lt_of_lt_of_le hlt hj)
  obtain ⟨ret, hret⟩ := hu j hj
  exact ⟨ret, (Writers.step_pcs_of_ne hstep hne).trans hret⟩

theorem ringContract_of_le_one {n : Nat} (hn : n ≤ 1) {keyStore : Mem}
    (hr : Reaches (Writers.step hash) (Among n) (Writers.init h keyStore) s) : RingContract s := by
  -- 呼び出しの中にいるのは 0 番だけである
  have hzero : ∀ i, (∀ ret, s.pcs i ≠ .idle ret) → i = 0 := by
    intro i hi
    by_contra hne
    obtain ⟨ret, hret⟩ := idle_of_reaches hr i (by omega)
    exact hi ret hret
  constructor
  · rintro i j ⟨job, hi⟩ ⟨job', hj⟩
    rw [hzero i (by rw [hi]; nofun), hzero j (by rw [hj]; nofun)]
  · rintro i j ⟨slotId, ret, locked, hi⟩ ⟨slotId', ret', locked', hj⟩
    rw [hzero i (by rw [hi]; nofun), hzero j (by rw [hj]; nofun)]

theorem WritersInv.slotsUnshared (hi : WritersInv s) : SlotsUnshared s :=
  ⟨hi.owned.held_once, hi.owned.entry_once⟩

/-! ## 二人以上のとき -/

/-- 何も格納されておらず、lock も空いている。 -/
structure Vacant (s : Writers h) : Prop where
  empty : ∀ p, s.table.idxAt p = emptySlot
  unlocked : s.lock = none

/-- 何も格納されていない table では、追加を始めた writer は `rte_ring_sc_dequeue_elem` に入る。 -/
theorem Vacant.dequeuing (hash : Key8 → UInt32) (hlock : h.writerTakesLock = true) (hv : Vacant s)
    {n i : Nat} (hi : i < n) {ret : Option Int} (hpc : s.pcs i = .idle ret) :
    ∃ s', Reaches (Writers.step hash) (Among n) s s' ∧ Vacant s' ∧ s'.Dequeuing i ∧
      ∀ j, j ≠ i → s'.pcs j = s.pcs j := by
  let key : Key := fun _ => 0
  let job : Job := ⟨key, hash (key8 key), 0⟩
  obtain ⟨t1, ht1, hcheck⟩ : ∃ t1, Touched 0 s.table t1 ∧
      runPc s.table (.check job) = some (t1, .alloc job) := by
    rcases checkDup_cases s.table 0 key (getShortSig job.hash) (primOf h job.hash)
      (secOf h job.hash) with ⟨-, hret, ht1⟩ | ⟨-, p, -, hhit, -⟩
    · refine ⟨_, ht1, ?_⟩
      show some (_, if _ ≠ (-1 : Int) then _ else _) = _
      rw [if_neg (not_not_intro hret)]
    · exact absurd (hv.empty p) hhit.2.2
  have hcan : s.canLock = true := by
    rw [Writers.canLock, hlock, hv.unlocked]
    rfl
  let s1 : Writers h := { s with pcs := Function.update s.pcs i (.check job) }
  let s2 : Writers h := ⟨t1, none, Function.update s1.pcs i (.alloc job)⟩
  let s3 : Writers h := ⟨t1, none, Function.update s2.pcs i (.dequeuing job)⟩
  have h1 : s.step hash (.call i key 0) = some s1 := by
    simp only [Writers.step, hpc]
    rfl
  have hpc1 : s1.pcs i = .check job := Function.update_self i _ _
  have h2 : s1.step hash (.run i) = some s2 := by
    have hcan1 : s1.canLock = true := hcan
    simp only [Writers.step, hpc1, hcan1, Bool.not_true, Bool.and_false, Bool.false_eq_true,
      if_false]
    rw [show s1.table = s.table from rfl, hcheck]
    simp only [Option.map_some, Writers.relock, hpc1]
    rw [show s1.lock = none from hv.unlocked]
    rfl
  have hpc2 : s2.pcs i = .alloc job := Function.update_self i _ _
  have h3 : s2.step hash (.run i) = some s3 := by
    simp only [Writers.step, hpc2]
    rw [if_neg (by simp [Pc.isSection])]
    simp only [runPc, Option.map_some, Writers.relock, hpc2]
    rfl
  refine ⟨s3, (((Reaches.refl s).snoc (a := .call i key 0) hi h1).snoc (a := .run i) hi h2).snoc
    (a := .run i) hi h3, ⟨fun p => ?_, rfl⟩, ⟨job, Function.update_self i _ _⟩, fun j hj => ?_⟩
  · show t1.idxAt p = emptySlot
    rw [ht1.dataOnly.idxAt]
    exact hv.empty p
  · show Function.update (Function.update (Function.update s.pcs i _) i _) i _ j = s.pcs j
    rw [Function.update_of_ne hj, Function.update_of_ne hj, Function.update_of_ne hj]

/-- 二人目が動けるなら、二人が同時に `rte_ring_sc_dequeue_elem` に入る実行がある。 -/
theorem exists_overlap (hlock : h.writerTakesLock = true) (hash : Key8 → UInt32) (keyStore : Mem)
    {n : Nat} (hn : 1 < n) : ∃ s : Writers h,
    Reaches (Writers.step hash) (Among n) (Writers.init h keyStore) s ∧
      s.Dequeuing 0 ∧ s.Dequeuing 1 := by
  have hv : Vacant (Writers.init h keyStore) := ⟨fun _ => rfl, rfl⟩
  obtain ⟨s1, hr1, hv1, hd0, hother⟩ :=
    hv.dequeuing hash hlock (show 0 < n by omega) rfl
  have hpc : s1.pcs 1 = .idle none := hother 1 (by decide)
  obtain ⟨s2, hr2, -, hd1, hother'⟩ := hv1.dequeuing hash hlock hn hpc
  refine ⟨s2, hr1.trans hr2, ?_, hd1⟩
  obtain ⟨job, hjob⟩ := hd0
  exact ⟨job, (hother' 0 (by decide)).trans hjob⟩

/--
**約束が守られるのは、writer が一人のとき、そのときに限る。**

どの順に進んでも取り出しも返しも重ならず、同じ番号を二か所が持たないことと、
動く writer が高々一人であることは同じである。
-/
theorem ringContract_iff (hlock : h.writerTakesLock = true) (hash : Key8 → UInt32) (keyStore : Mem)
    (n : Nat) :
    (∀ s, Reaches (Writers.step hash) (Among n) (Writers.init h keyStore) s →
      RingContract s ∧ SlotsUnshared s) ↔ n ≤ 1 := by
  constructor
  · intro hall
    by_contra hn
    obtain ⟨s, hr, hd0, hd1⟩ := exists_overlap hlock hash keyStore (n := n) (by omega)
    exact absurd ((hall s hr).1.1 0 1 hd0 hd1) (by decide)
  · intro hn s hr
    exact ⟨ringContract_of_le_one hn hr, (writersInv_of_reaches hr).slotsUnshared⟩

/-- entry が 9 個で、lock を使う table。 -/
def nineLocked : RteHash :=
  { eightKeys with
    entries := 9
    extTableSupport := false
    writerTakesLock := true
    entries_ge := by decide
    entries_le := by decide }

theorem ringContract_iff_one : nineLocked.writerTakesLock = true ∧ ∀ s : Writers nineLocked,
    Reaches (Writers.step fun _ => 0) (Among 1) (Writers.init nineLocked fun _ => 0) s →
      RingContract s ∧ SlotsUnshared s :=
  ⟨rfl, (ringContract_iff (h := nineLocked) rfl (fun _ => 0) (fun _ => 0) 1).mpr (Nat.le_refl 1)⟩

/-- 二人の writer が最初の検査を終えて、同時に番号を取る。 -/
theorem ringContract_two_writers : ∃ s : Writers nineLocked,
    Reaches (Writers.step fun _ => 0) (Among 2) (Writers.init nineLocked fun _ => 0) s ∧
      ¬ RingContract s := by
  obtain ⟨s, hr, hd0, hd1⟩ :=
    exists_overlap (h := nineLocked) rfl (fun _ => 0) (fun _ => 0) (n := 2) (by decide)
  exact ⟨s, hr, fun hc => absurd (hc.1 0 1 hd0 hd1) (by decide)⟩

end L3fwd.Hash
