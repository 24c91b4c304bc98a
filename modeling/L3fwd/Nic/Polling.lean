import L3fwd.Nic.CompletionQueue

/-!
# poll の停止

`rmc_check_cq` の内側のループは、読んだ entry の `SR` が `cq->SR` と一致するあいだ回る。
`cq->SR` は端を越えるたびにループ自身が反転するので、残りの段の数は周回のたびに元へ戻り、
そのままでは減る量にならない。

NIC が push しなければ、段の `SR` は呼び出しのあいだ変わらない。`k` 回目に消費した段の `SR` は
cursor の bit と一致していたので、一周したところで同じ段の `SR` は反転した bit と食い違う。
よって一回の呼び出しで消費するのは高々 128 個である（`Polling.consumed_le`）。
外側のループが何度回っても、止まった段をもう一度読むだけなので数は増えない。
-/

namespace L3fwd.Nic

open Infra

/-- 呼び出しの途中。`rounds` は内側のループの本体に入った回数である。 -/
structure Polling where
  cq : RmcCq
  frame : CheckFrame
  rounds : Nat

/-- queue をほかの誰も変えないときの一歩。 -/
def Polling.step (wq : RmcWq) (s : Polling) : Polling where
  cq := (checkStep wq s.cq s.frame).1
  frame := (checkStep wq s.cq s.frame).2
  rounds := if s.frame.pc = .clear then s.rounds + 1 else s.rounds

/-- 呼び出しの入口。 -/
def Polling.enter (cq : RmcCq) (junk : CheckFrame) : Polling where
  cq := cq
  frame := CheckFrame.enter cq junk
  rounds := 0

/-- SEND でも RESP でもない entry は、WQ の番号を持つ。 -/
def TidsInRange (cq : RmcCq) : Prop :=
  ∀ i, (cq.q i).success ≠ 1 → (cq.q i).success ≠ 0x7F → (cq.q i).tid.toNat < maxNumWq

/-! ## 消費した段 -/

/-- valid のほかは同じ entry。 -/
def CqEntry.SameBut (e e' : CqEntry) : Prop := { e with valid := false } = { e' with valid := false }

theorem CqEntry.SameBut.fields {e e' : CqEntry} (h : e.SameBut e') :
    e.sr = e'.sr ∧ e.success = e'.success ∧ e.tid = e'.tid := by
  obtain ⟨hsr, -, hsuccess, htid, -⟩ := CqEntry.mk.inj h
  exact ⟨hsr, hsuccess, htid⟩

/-- 通し番号 `j` の段の、呼び出しの前の `SR` が、そこを通る cursor の bit と一致する。 -/
def Matches (cq : RmcCq) (j : Nat) : Prop :=
  (cq.q (cq.cursor.after j).idx).sr = (cq.cursor.after j).sense

/-- **一周した段は一致しない。** -/
theorem lt_maxNumWq_of_matches {cq : RmcCq} {k : Nat} (h : ∀ j, j ≤ k → Matches cq j) :
    k < maxNumWq := by
  by_contra hge
  have hlap : Matches cq (0 + maxNumWq) := h _ (by omega)
  have hfirst := h 0 (Nat.zero_le k)
  unfold Matches at hlap hfirst
  rw [Cursor.after_add_lap] at hlap
  rw [hfirst] at hlap
  exact Bool.not_ne_self _ hlap.symm

/-- 呼び出しの途中で成り立つこと。`cq₀` は呼び出しの前の queue、`k` は消費した数である。 -/
structure PollInv (cq₀ : RmcCq) (k : Nat) (s : Polling) : Prop where
  entries : ∀ i, (s.cq.q i).SameBut (cq₀.q i)
  cursor : s.cq.cursor = cq₀.cursor.after k
  passed : ∀ j, j < k → Matches cq₀ j
  synced : s.frame.pc.synced → s.frame.cqTail = s.cq.tail
  tested : s.frame.pc = .test → s.frame.rawCqe.SameBut (cq₀.q s.cq.tail)
  held : s.frame.pc = .clear ∨ s.frame.pc = .advance → Matches cq₀ k ∧
    s.frame.rawCqe.SameBut (cq₀.q s.cq.tail)
  taken : s.frame.pc = .branch ∨ s.frame.pc = .readOp → ∃ i, s.frame.rawCqe.SameBut (cq₀.q i)
  other : s.frame.pc = .readOp → s.frame.rawCqe.deliver = none
  noFault : s.frame.pc ≠ .fault
  rounds : s.rounds = if s.frame.pc = .advance then k + 1 else k

variable {wq : RmcWq} {cq cq₀ : RmcCq} {k : Nat} {s : Polling}

theorem pollInv_enter (cq : RmcCq) (junk : CheckFrame) : PollInv cq 0 (Polling.enter cq junk) where
  entries := fun _ => rfl
  cursor := by rw [Cursor.after_zero]; rfl
  passed := fun j hj => absurd hj (Nat.not_lt_zero j)
  synced := fun _ => rfl
  tested := nofun
  held := by rintro (h | h) <;> cases h
  taken := by rintro (h | h) <;> cases h
  other := nofun
  noFault := nofun
  rounds := rfl

/-- queue も `cq_tail` も変えず、消費にも関わらない位置へ進む一歩。 -/
theorem PollInv.quiet (h : PollInv cq₀ k s) {f : CheckFrame} (hpc : s.frame.pc ≠ .advance)
    (hsync : f.pc.synced → f.cqTail = s.cq.tail)
    (htest : f.pc = .test → f.rawCqe.SameBut (cq₀.q s.cq.tail))
    (hf : f.pc ≠ .clear ∧ f.pc ≠ .advance ∧ f.pc ≠ .branch ∧ f.pc ≠ .readOp ∧ f.pc ≠ .fault) :
    PollInv cq₀ k ⟨s.cq, f, s.rounds⟩ where
  entries := h.entries
  cursor := h.cursor
  passed := h.passed
  synced := hsync
  tested := htest
  held := by
    rintro (hx | hx)
    · exact absurd hx hf.1
    · exact absurd hx hf.2.1
  taken := by
    rintro (hx | hx)
    · exact absurd hx hf.2.2.1
    · exact absurd hx hf.2.2.2.1
  other := fun hx => absurd hx hf.2.2.2.1
  noFault := hf.2.2.2.2
  rounds := by rw [h.rounds, if_neg hpc, if_neg hf.2.1]

/-- `test` で一致した段は、次に消費する番号の段である。 -/
theorem PollInv.matches_tail (h : PollInv cq₀ k s) (ht : s.frame.pc = .test)
    (hsr : s.frame.rawCqe.sr = s.cq.sr) : Matches cq₀ k := by
  have hidx : s.cq.tail = (cq₀.cursor.after k).idx := congrArg Cursor.idx h.cursor
  have hsense : s.cq.sr = (cq₀.cursor.after k).sense := congrArg Cursor.sense h.cursor
  unfold Matches
  rw [← hidx, ← hsense, ← hsr]
  exact (h.tested ht).fields.1.symm

/-- 一歩の後に消費した数。 -/
def Polling.nextCount (k : Nat) (s : Polling) : Nat := if s.frame.pc = .advance then k + 1 else k

/-- **一歩ごとに保たれる。** -/
theorem PollInv.step (h : PollInv cq₀ k s) (htid : TidsInRange cq₀) :
    PollInv cq₀ (s.nextCount k) (s.step wq) := by
  obtain ⟨cq, f, rounds⟩ := s
  have hsync : f.pc.synced → f.cqTail = cq.tail := h.synced
  cases hpc : f.pc with
  | readWqe =>
    simp only [Polling.step, Polling.nextCount, checkStep, hpc, reduceCtorEq, if_false]
    refine h.quiet (by simp [hpc]) (fun _ => hsync (by rw [hpc]; trivial)) ?_ ?_
    all_goals simp
  | readCqe =>
    have htail : f.cqTail = cq.tail := hsync (by rw [hpc]; trivial)
    simp only [Polling.step, Polling.nextCount, checkStep, hpc, reduceCtorEq, if_false]
    refine h.quiet (by simp [hpc]) (fun _ => htail) (fun _ => ?_) (by simp)
    show (cq.q f.cqTail).SameBut (cq₀.q cq.tail)
    rw [htail]
    exact h.entries cq.tail
  | test =>
    have htail : f.cqTail = cq.tail := hsync (by rw [hpc]; trivial)
    simp only [Polling.step, Polling.nextCount, checkStep, hpc, reduceCtorEq, if_false]
    split
    · next hgo =>
      have hmatch : Matches cq₀ k := h.matches_tail hpc hgo.1
      have hraw : f.rawCqe.SameBut (cq₀.q cq.tail) := h.tested hpc
      have hrounds : rounds = k := by simpa [hpc] using h.rounds
      exact { h with
        synced := fun _ => htail
        tested := by simp
        held := fun _ => ⟨hmatch, hraw⟩
        taken := by rintro (hx | hx) <;> cases hx
        other := by simp
        noFault := by simp
        rounds := hrounds }
    · exact h.quiet (by simp [hpc]) (fun _ => htail) (by simp) (by simp)
  | clear =>
    have htail : f.cqTail = cq.tail := hsync (by rw [hpc]; trivial)
    obtain ⟨hmatch, hraw⟩ := h.held (Or.inl hpc)
    have hrounds : rounds = k := by simpa [hpc] using h.rounds
    simp only [Polling.step, Polling.nextCount, checkStep, hpc, reduceCtorEq, if_false, if_true]
    refine ⟨fun i => ?_, h.cursor, h.passed, fun _ => htail, (by simp), fun _ => ⟨hmatch, hraw⟩,
      (by rintro (hx | hx) <;> cases hx), (by simp), (by simp), congrArg (· + 1) hrounds⟩
    by_cases hi : i = f.cqTail
    · rw [hi]
      show ((cq.clearValid f.cqTail).q f.cqTail).SameBut _
      rw [RmcCq.clearValid_q_self]
      exact h.entries f.cqTail
    · show ((cq.clearValid f.cqTail).q i).SameBut _
      rw [RmcCq.clearValid_q_of_ne hi]
      exact h.entries i
  | advance =>
    obtain ⟨hmatch, hraw⟩ := h.held (Or.inr hpc)
    have hrounds : rounds = k + 1 := by simpa [hpc] using h.rounds
    have hcursor : cq.cursor = cq₀.cursor.after k := h.cursor
    simp only [Polling.step, Polling.nextCount, checkStep, hpc, reduceCtorEq, if_false, if_true]
    refine ⟨fun i => ?_, ?_, fun j hj => ?_, False.elim, (by simp),
      (by rintro (hx | hx) <;> cases hx), fun _ => ⟨_, hraw⟩, (by simp), (by simp), hrounds⟩
    · show (cq.advanceTail.q i).SameBut _
      rw [RmcCq.advanceTail_q]
      exact h.entries i
    · show cq.advanceTail.cursor = _
      rw [RmcCq.advanceTail_cursor, hcursor, Cursor.after_succ]
    · rcases Nat.lt_succ_iff_lt_or_eq.mp hj with hlt | rfl
      · exact h.passed j hlt
      · exact hmatch
  | branch =>
    have htaken : ∃ i, f.rawCqe.SameBut (cq₀.q i) := h.taken (Or.inl hpc)
    have hrounds : rounds = k := by simpa [hpc] using h.rounds
    simp only [Polling.step, Polling.nextCount, checkStep, hpc, reduceCtorEq, if_false]
    split
    · exact h.quiet (by simp [hpc]) False.elim (by simp) (by simp)
    · next hsend =>
      split
      · exact h.quiet (by simp [hpc]) False.elim (by simp) (by simp)
      · next hresp =>
        exact { h with
          synced := False.elim
          tested := by simp
          held := by rintro (hx | hx) <;> cases hx
          taken := fun _ => htaken
          other := fun _ => CqEntry.deliver_eq_none.mpr ⟨hsend, hresp⟩
          noFault := by simp
          rounds := hrounds }
  | readOp =>
    obtain ⟨i, hi⟩ := h.taken (Or.inr hpc)
    obtain ⟨-, hsuccess, htideq⟩ := hi.fields
    obtain ⟨hsend, hresp⟩ := CqEntry.deliver_eq_none.mp (h.other hpc)
    have hlt : f.rawCqe.tid.toNat < maxNumWq := by
      rw [htideq]
      exact htid i (hsuccess ▸ hresp) (hsuccess ▸ hsend)
    simp only [Polling.step, Polling.nextCount, checkStep, hpc, reduceCtorEq, if_false, dif_pos hlt]
    split
    · exact h.quiet (by simp [hpc]) False.elim (by simp) (by simp)
    · exact h.quiet (by simp [hpc]) False.elim (by simp) (by simp)
  | readSuccess =>
    simp only [Polling.step, Polling.nextCount, checkStep, hpc, reduceCtorEq, if_false]
    exact h.quiet (by simp [hpc]) False.elim (by simp) (by simp)
  | refresh =>
    simp only [Polling.step, Polling.nextCount, checkStep, hpc, reduceCtorEq, if_false]
    exact h.quiet (by simp [hpc]) (fun _ => rfl) (fun _ => h.entries cq.tail) (by simp)
  | again =>
    have htail : f.cqTail = cq.tail := hsync (by rw [hpc]; trivial)
    simp only [Polling.step, Polling.nextCount, checkStep, hpc, reduceCtorEq, if_false]
    split
    · exact h.quiet (by simp [hpc]) (fun _ => htail) (by simp) (by simp)
    · exact h.quiet (by simp [hpc]) False.elim (by simp) (by simp)
  | done =>
    simp only [Polling.step, Polling.nextCount, checkStep, hpc, reduceCtorEq, if_false]
    exact h
  | fault => exact absurd hpc h.noFault

/-! ## 呼び出しの全体 -/

theorem PollInv.run (wq : RmcWq) (htid : TidsInRange cq) (junk : CheckFrame) (n : Nat) :
    ∃ k, PollInv cq k ((Polling.step wq)^[n] (Polling.enter cq junk)) := by
  induction n with
  | zero => exact ⟨0, pollInv_enter cq junk⟩
  | succ n ih =>
    obtain ⟨k, hk⟩ := ih
    rw [Function.iterate_succ_apply']
    exact ⟨_, hk.step htid⟩

theorem PollInv.count_lt (h : PollInv cq₀ k s) (hpc : s.frame.pc = .clear ∨ s.frame.pc = .advance) :
    k < maxNumWq := by
  have hmatch : ∀ j, j ≤ k → Matches cq₀ j := by
    intro j hj
    rcases Nat.lt_or_eq_of_le hj with hlt | rfl
    · exact h.passed j hlt
    · exact (h.held hpc).1
  exact lt_maxNumWq_of_matches hmatch

/-- **一回の呼び出しで、内側のループは高々 128 回しか回らない。** -/
theorem PollInv.rounds_le (h : PollInv cq₀ k s) : s.rounds ≤ maxNumWq := by
  rw [h.rounds]
  split
  · next hpc => exact h.count_lt (Or.inr hpc)
  · cases k with
    | zero => exact Nat.zero_le _
    | succ k => exact lt_maxNumWq_of_matches fun j hj => h.passed j (Nat.lt_succ_of_le hj)

/-- 位置ごとの残りの歩数。内側のループを一周するあいだに減るのは `rounds` の側である。 -/
def CheckPc.remaining : CheckPc → Nat
  | .advance => 16
  | .branch => 15
  | .readOp => 14
  | .readSuccess => 13
  | .readWqe | .refresh => 12
  | .readCqe => 11
  | .test => 10
  | .clear => 9
  | .again => 1
  | .done | .fault => 0

def Polling.remaining (s : Polling) : Nat :=
  8 * (maxNumWq + 1 - s.rounds) + s.frame.pc.remaining

/-- 呼び出しの間に読んだ WQ entry は、`head` の段である。 -/
def Polling.ReadHead (wq : RmcWq) (s : Polling) : Prop :=
  s.frame.pc = .readWqe ∨ s.frame.rawWqe = wq.q wq.head

theorem Polling.ReadHead.step (h : s.ReadHead wq) : (s.step wq).ReadHead wq := by
  obtain ⟨cq, f, rounds⟩ := s
  rcases h with hpc | hraw
  · refine Or.inr ?_
    simp only [Polling.step, checkStep, show f.pc = .readWqe from hpc]
  · have hraw' : f.rawWqe = wq.q wq.head := hraw
    have hkeep : (checkStep wq cq f).2.rawWqe = wq.q wq.head := by
      unfold checkStep
      repeat' split
      all_goals first | exact hraw' | rfl
    exact Or.inr hkeep

/-- `head` の段が投入中でなければ、終わるまで一歩ごとに残りが減る。 -/
theorem PollInv.remaining_step (h : PollInv cq₀ k s) (hread : s.ReadHead wq)
    (hvalid : (wq.q wq.head).valid = false) (hne : s.frame.pc ≠ .done) :
    (s.step wq).remaining < s.remaining := by
  obtain ⟨cq, f, rounds⟩ := s
  have hle : rounds ≤ maxNumWq := h.rounds_le
  cases hpc : f.pc with
  | readWqe | readCqe | advance | readSuccess | refresh =>
    simp [Polling.remaining, Polling.step, checkStep, hpc, CheckPc.remaining]
  | test =>
    simp only [Polling.remaining, Polling.step, checkStep, hpc, reduceCtorEq, if_false]
    split <;> simp [CheckPc.remaining]
  | clear =>
    -- 本体に入ると `rounds` が増え、その 8 歩分で一周を賄う
    simp only [Polling.remaining, Polling.step, checkStep, hpc, if_true, CheckPc.remaining]
    omega
  | branch =>
    simp only [Polling.remaining, Polling.step, checkStep, hpc, reduceCtorEq, if_false]
    repeat' split
    all_goals simp [CheckPc.remaining]
  | readOp =>
    simp only [Polling.remaining, Polling.step, checkStep, hpc, reduceCtorEq, if_false]
    repeat' split
    all_goals simp [CheckPc.remaining]
  | again =>
    have hraw : f.rawWqe = wq.q wq.head := by
      rcases hread with hx | hx
      · rw [hpc] at hx
        cases hx
      · exact hx
    simp [Polling.remaining, Polling.step, checkStep, hpc, CheckPc.remaining, hraw, hvalid]
  | done => exact absurd hpc hne
  | fault => exact absurd hpc h.noFault

/--
**queue が変わらなければ、`rmc_check_cq` は止まる。**

どんな中身の queue でも、内側のループは呼び出し全体で高々 128 回しか回らず、`cq->tail` は範囲を
外れない。WQ の `head` の段が投入中でなければ、呼び出しは返る。
-/
theorem checkCq_terminates (wq : RmcWq) (cq : RmcCq) (junk : CheckFrame) (htid : TidsInRange cq) :
    (∀ n, ((Polling.step wq)^[n] (Polling.enter cq junk)).rounds ≤ 128 ∧
      ((Polling.step wq)^[n] (Polling.enter cq junk)).cq.tail.val < 128 ∧
      ((Polling.step wq)^[n] (Polling.enter cq junk)).frame.pc ≠ .fault) ∧
    ((wq.q wq.head).valid = false →
      ∃ n, ((Polling.step wq)^[n] (Polling.enter cq junk)).frame.pc = .done) := by
  refine ⟨fun n => ?_, fun hvalid => ?_⟩
  · obtain ⟨k, hk⟩ := PollInv.run wq htid junk n
    exact ⟨hk.rounds_le, Fin.isLt _, hk.noFault⟩
  · refine exists_iterate (fun s => s.frame.pc = .done)
      (fun s => (∃ k, PollInv cq k s) ∧ s.ReadHead wq) Polling.remaining ?_
      ⟨⟨0, pollInv_enter cq junk⟩, Or.inl rfl⟩
    rintro u ⟨⟨k, hk⟩, hread⟩ hne
    exact ⟨⟨⟨_, hk.step htid⟩, hread.step⟩, hk.remaining_step hread hvalid hne⟩

/-- 端の二段前から始めて、どの段の `SR` も一致している queue。端を越えたところで止まる。 -/
theorem checkCq_terminates_atEnd :
    ∃ n, ((Polling.step ⟨fun _ => ⟨0, false, false, 0, 0, 0, 0, 0⟩, 0, false⟩)^[n]
      (Polling.enter ⟨fun _ => ⟨false, true, 0, 0, 0⟩, 126, false⟩
        ⟨.done, ⟨0, 0, 0, 0⟩, 0, ⟨0, false, false, 0, 0, 0, 0, 0⟩,
          ⟨false, false, 0, 0, 0⟩⟩)).frame.pc = .done :=
  (checkCq_terminates ⟨fun _ => ⟨0, false, false, 0, 0, 0, 0, 0⟩, 0, false⟩
    ⟨fun _ => ⟨false, true, 0, 0, 0⟩, 126, false⟩ _
    (fun _ _ _ => (by decide : (0 : UInt32).toNat < maxNumWq))).2 rfl

end L3fwd.Nic
