import L3fwd.Nic.CheckCq
import L3fwd.Nic.WorkQueue
import L3fwd.Infra.Run

/-!
# CQ の受け渡し

NIC の push と `rmc_check_cq` の一歩を任意の順に混ぜた system。
NIC は simulator の側にあるので契約だけを書く：自分の bit を付けて `q[nicHead]` に書き、
一つ進む。未消費の entry が 128 個あるあいだは push しない。

## 最初の状態

空かどうかは `SR` だけで判定される。周回の途中（`tail ≠ 0`）から始めるなら、
`tail` より前の段はすでに今の周で書かれたもの、つまり `SR` が一致していなければならない。
すべての段の `SR` が食い違う状態から始めると、端を越えたところで
一度も push されていない段を消費してしまう（`checkCq_phantom`）。
-/

namespace L3fwd.Nic

open Infra

/-! ## system -/

/--
CQ と NIC と、途中の呼び出し。

`pushed` は NIC が書いた entry、`consumed` は `cq->tail` が通り過ぎた entry、
`cleared` は valid を落とされた entry、`results` は呼び出しの返り値の履歴である。
-/
structure CqSystem where
  wq : RmcWq
  cq : RmcCq
  nic : Cursor maxNumWq
  call : Option CheckFrame
  pushed : List CqEntry
  consumed : List CqEntry
  cleared : List CqEntry
  results : List SuccessStruct

inductive CqAction where
  | push (e : CqEntry)
  | setValid (i : Fin maxNumWq) (b : Bool)
  | enter (junk : CheckFrame)
  | poll

/-- NIC の push。`SR` は NIC の bit で上書きされる。 -/
def CqSystem.push (s : CqSystem) (e : CqEntry) : CqSystem :=
  { s with
    cq := { s.cq with q := Function.update s.cq.q s.nic.idx { e with sr := s.nic.sense } }
    nic := s.nic.next
    pushed := s.pushed ++ [{ e with sr := s.nic.sense }] }

/-- 呼び出しの一歩。消費と valid の消去を履歴に残す。 -/
def CqSystem.advance (s : CqSystem) (f : CheckFrame) : CqSystem :=
  { s with
    cq := (checkStep s.wq s.cq f).1
    call := some (checkStep s.wq s.cq f).2
    consumed := if f.pc = .advance then s.consumed ++ [f.rawCqe] else s.consumed
    cleared := if f.pc = .clear then s.cleared ++ [s.cq.q f.cqTail] else s.cleared }

def cqStep (s : CqSystem) : CqAction → Option CqSystem
  | .push e => if s.pushed.length < s.consumed.length + maxNumWq then some (s.push e) else none
  | .setValid i b =>
    some { s with
      wq := { s.wq with q := Function.update s.wq.q i { s.wq.q i with valid := b } } }
  | .enter junk =>
    match s.call with
    | none => some { s with call := some (CheckFrame.enter s.cq junk) }
    | some _ => none
  | .poll =>
    match s.call with
    | none => none
    | some f =>
      if f.pc = .done then some { s with call := none, results := s.results ++ [f.ret] }
      else some (s.advance f)

/-- NIC は消費側と同じ位置・同じ bit から始まる。 -/
def CqSystem.init (wq : RmcWq) (cq : RmcCq) : CqSystem :=
  { wq := wq, cq := cq, nic := cq.cursor, call := none, pushed := [], consumed := [],
    cleared := [], results := [] }

/-- SEND でも RESP でもない completion は、自分の WQ entry の番号を持つ。 -/
def TidInRange (_ : CqSystem) : CqAction → Prop
  | .push e => e.success ≠ 1 → e.success ≠ 0x7F → e.tid.toNat < maxNumWq
  | _ => True

def CqSystem.inFlight (s : CqSystem) : List (UInt32 × UInt32 × UInt64) :=
  match s.call with
  | none => []
  | some f => f.inFlight

/-! ## 呼び出しの途中の条件 -/

/-- 局所変数 `cq_tail` が `cq->tail` と一致している位置。 -/
def CheckPc.synced : CheckPc → Prop
  | .readWqe | .readCqe | .test | .clear | .advance | .again => True
  | _ => False

/-- 消費したあと、`raw_cqe_entry` がまだ消費した entry のままの位置。 -/
def CheckPc.passed : CheckPc → Prop
  | .branch | .readOp | .readSuccess | .refresh => True
  | _ => False

/--
呼び出しの途中で成り立つこと。`pushed` を通し番号で見る。

* `held`：消費しようとしている `raw_cqe_entry` は次の番号の entry である
* `passed`：消費した直後の `raw_cqe_entry` は最後に消費した番号の entry である
* `quiet`：返り値の op は、返すと決めるまで SEND / RESP にならない
-/
structure FrameInv (s : CqSystem) (f : CheckFrame) : Prop where
  synced : f.pc.synced → f.cqTail = s.cq.tail
  tested : f.pc = .test → f.rawCqe.sr = s.cq.sr →
    ∃ h : s.consumed.length < s.pushed.length, f.rawCqe = s.pushed[s.consumed.length]
  held : f.pc = .clear ∨ f.pc = .advance →
    ∃ h : s.consumed.length < s.pushed.length, f.rawCqe = s.pushed[s.consumed.length]
  passed : f.pc.passed → f.rawCqe ∈ s.pushed
  other : f.pc = .readOp ∨ f.pc = .readSuccess ∨ f.pc = .refresh → f.rawCqe.deliver = none
  quiet : f.Quiet
  noFault : f.pc ≠ .fault

/-- 呼び出しの途中で valid だけ先に落とされた entry の数。 -/
def CqSystem.ahead (s : CqSystem) : Nat :=
  match s.call with
  | none => 0
  | some f => if f.pc = .advance then 1 else 0

/-- 番号 `k` の entry が memory に残っていれば、こう見える。 -/
def CqSystem.stored (s : CqSystem) (k : Nat) (hk : k < s.pushed.length) : CqEntry :=
  if k < s.cleared.length then { s.pushed[k] with valid := false } else s.pushed[k]

/--
通し番号で書いた CQ の不変条件。`c` は最初の cursor である。

`stale` が空の判定を支える：これから書かれる段の bit は、その周の bit と逆である。
-/
structure CqInv (c : Cursor maxNumWq) (s : CqSystem) : Prop where
  consumed_eq : s.consumed = s.pushed.take s.consumed.length
  cleared_eq : s.cleared = s.pushed.take s.cleared.length
  cleared_len : s.cleared.length = s.consumed.length + s.ahead
  cleared_le : s.cleared.length ≤ s.pushed.length
  room : s.pushed.length ≤ s.consumed.length + maxNumWq
  tail : s.cq.cursor = c.after s.consumed.length
  nic : s.nic = c.after s.pushed.length
  sense : ∀ k, (hk : k < s.pushed.length) → s.pushed[k].sr = (c.after k).sense
  tid : ∀ e ∈ s.pushed, e.deliver = none → e.tid.toNat < maxNumWq
  memory : ∀ k, (hk : k < s.pushed.length) → s.pushed.length ≤ k + maxNumWq →
    s.cq.q (c.after k).idx = s.stored k hk
  stale : ∀ k, s.pushed.length ≤ k → k < s.pushed.length + maxNumWq →
    (s.cq.q (c.after k).idx).sr = !(c.after k).sense
  frame : ∀ f, s.call = some f → FrameInv s f
  delivered : s.results.filterMap SuccessStruct.incoming ++ s.inFlight
    = s.consumed.filterMap CqEntry.deliver

variable {c : Cursor maxNumWq} {s s' : CqSystem} {f : CheckFrame}

theorem CqInv.tail_idx (h : CqInv c s) : s.cq.tail = (c.after s.consumed.length).idx :=
  congrArg Cursor.idx h.tail

theorem CqInv.tail_sr (h : CqInv c s) : s.cq.sr = (c.after s.consumed.length).sense :=
  congrArg Cursor.sense h.tail

theorem CqInv.consumed_le (h : CqInv c s) : s.consumed.length ≤ s.pushed.length := by
  have h1 := h.cleared_len
  have h2 := h.cleared_le
  omega

/-! ## 最初の状態 -/

/-- 途中から始まる周では、`tail` より前の段だけが今の周の bit を持つ。 -/
def LapConsistent (cq : RmcCq) : Prop := ∀ i, (cq.q i).sr = cq.sr ↔ i < cq.tail

theorem LapConsistent.stale {cq : RmcCq} (h : LapConsistent cq) {k : Nat} (hk : k < maxNumWq) :
    (cq.q (cq.cursor.after k).idx).sr = !(cq.cursor.after k).sense := by
  have ht : cq.tail.val < maxNumWq := cq.tail.isLt
  have hiff := h (cq.cursor.after k).idx
  have hval : (cq.cursor.after k).idx.val = (cq.tail.val + k) % maxNumWq := rfl
  have hsense : (cq.cursor.after k).sense
      = (cq.sr ^^ decide ((cq.tail.val + k) / maxNumWq % 2 = 1)) := rfl
  rw [Fin.lt_def, hval] at hiff
  by_cases hw : cq.tail.val + k < maxNumWq
  · rw [Nat.mod_eq_of_lt hw] at hiff
    rw [hsense, Nat.div_eq_of_lt hw]
    have hne : (cq.q (cq.cursor.after k).idx).sr ≠ cq.sr := fun he => by
      have := hiff.mp he
      omega
    simpa using Bool.eq_not.mpr hne
  · have hdiv : (cq.tail.val + k) / maxNumWq = 1 := by
      rw [Nat.div_eq_of_lt_le] <;> omega
    have hmod : (cq.tail.val + k) % maxNumWq = cq.tail.val + k - maxNumWq := by
      rw [Nat.mod_eq_sub_mod (by omega), Nat.mod_eq_of_lt (by omega)]
    rw [hmod] at hiff
    rw [hsense, hdiv, hiff.mpr (by omega)]
    simp

theorem cqInv_init {wq : RmcWq} {cq : RmcCq} (h : LapConsistent cq) :
    CqInv cq.cursor (CqSystem.init wq cq) where
  consumed_eq := rfl
  cleared_eq := rfl
  cleared_len := rfl
  cleared_le := Nat.le_refl _
  room := Nat.zero_le _
  tail := by simp [CqSystem.init]
  nic := by simp [CqSystem.init]
  sense := fun k hk => absurd hk (Nat.not_lt_zero k)
  tid := fun e he => absurd he List.not_mem_nil
  memory := fun k hk => absurd hk (Nat.not_lt_zero k)
  stale := fun k _ hk => h.stale (by simpa [CqSystem.init] using hk)
  frame := fun f hf => by cases hf
  delivered := rfl

/-! ## NIC の一歩 -/

/-- push しても、それまでの番号の entry は変わらない。 -/
theorem FrameInv.push (h : FrameInv s f) (e : CqEntry) : FrameInv (s.push e) f where
  synced := h.synced
  tested := fun hpc hsr => by
    obtain ⟨hlt, he⟩ := h.tested hpc hsr
    refine ⟨by simp [CqSystem.push]; omega, ?_⟩
    simp [CqSystem.push, List.getElem_append_left hlt, he]
  held := fun hpc => by
    obtain ⟨hlt, he⟩ := h.held hpc
    refine ⟨by simp [CqSystem.push]; omega, ?_⟩
    simp [CqSystem.push, List.getElem_append_left hlt, he]
  passed := fun hpc => List.mem_append_left _ (h.passed hpc)
  other := h.other
  quiet := h.quiet
  noFault := h.noFault

theorem CqInv.push (h : CqInv c s) {e : CqEntry}
    (hroom : s.pushed.length < s.consumed.length + maxNumWq)
    (htid : e.success ≠ 1 → e.success ≠ 0x7F → e.tid.toNat < maxNumWq) :
    CqInv c (s.push e) := by
  have hcl := h.cleared_le
  have hco := h.consumed_le
  have hnic : s.nic = c.after s.pushed.length := h.nic
  have hlen : (s.push e).pushed.length = s.pushed.length + 1 := by simp [CqSystem.push]
  -- 新しい段は、直前の一周のどの番号の段とも重ならない
  have hq : ∀ k, s.pushed.length < k + maxNumWq → k < s.pushed.length + maxNumWq →
      k ≠ s.pushed.length → (s.push e).cq.q (c.after k).idx = s.cq.q (c.after k).idx := by
    intro k hk1 hk2 hne
    refine Function.update_of_ne (fun he => hne ?_) _ _
    rw [hnic] at he
    rcases Nat.le_total k s.pushed.length with hle | hle
    · exact Cursor.after_idx_inj hle (by omega) he
    · exact (Cursor.after_idx_inj hle (by omega) he.symm).symm
  have hself : (s.push e).cq.q (c.after s.pushed.length).idx
      = { e with sr := (c.after s.pushed.length).sense } := by
    rw [← hnic]
    exact Function.update_self _ _ _
  refine ⟨?_, ?_, h.cleared_len, by rw [hlen]; exact Nat.le_succ_of_le hcl, ?_, h.tail, ?_, ?_, ?_,
    ?_, ?_, fun f hf => (h.frame f hf).push e, h.delivered⟩
  · show s.consumed = (s.pushed ++ [_]).take s.consumed.length
    rw [List.take_append_of_le_length hco]
    exact h.consumed_eq
  · show s.cleared = (s.pushed ++ [_]).take s.cleared.length
    rw [List.take_append_of_le_length hcl]
    exact h.cleared_eq
  · rw [hlen]
    show s.pushed.length + 1 ≤ s.consumed.length + maxNumWq
    omega
  · show s.nic.next = _
    rw [hlen, Cursor.after_succ, hnic]
  · intro k hk
    rw [hlen] at hk
    by_cases hk' : k < s.pushed.length
    · simpa [CqSystem.push, List.getElem_append_left hk'] using h.sense k hk'
    · obtain rfl : k = s.pushed.length := by omega
      simp [CqSystem.push, hnic]
  · intro x hx hd
    rcases List.mem_append.mp hx with hx | hx
    · exact h.tid x hx hd
    · rw [List.mem_singleton.mp hx] at hd ⊢
      have := CqEntry.deliver_eq_none.mp hd
      exact htid this.2 this.1
  · intro k hk hwin
    rw [hlen] at hk hwin
    by_cases hk' : k < s.pushed.length
    · rw [hq k (by omega) (by omega) (by omega), h.memory k hk' (by omega)]
      simp [CqSystem.stored, CqSystem.push, List.getElem_append_left hk']
    · obtain rfl : k = s.pushed.length := by omega
      rw [hself]
      simp [CqSystem.stored, CqSystem.push, hnic, show ¬s.pushed.length < s.cleared.length by omega]
  · intro k hk1 hk2
    rw [hlen] at hk1 hk2
    by_cases hk : k = s.pushed.length + maxNumWq
    · subst hk
      rw [Cursor.after_add_lap]
      simp [hself]
    · rw [hq k (by omega) (by omega) (by omega)]
      exact h.stale k (by omega) (by omega)

theorem CqInv.setValid (h : CqInv c s) (wq : RmcWq) : CqInv c { s with wq := wq } :=
  ⟨h.consumed_eq, h.cleared_eq, h.cleared_len, h.cleared_le, h.room, h.tail, h.nic, h.sense, h.tid,
    h.memory, h.stale, fun f hf => ⟨(h.frame f hf).synced, (h.frame f hf).tested,
      (h.frame f hf).held, (h.frame f hf).passed, (h.frame f hf).other, (h.frame f hf).quiet,
      (h.frame f hf).noFault⟩, h.delivered⟩

/-! ## 呼び出しの一歩 -/

/-- CQ に触れない一歩。局所変数の条件と、返していない到着が同じことだけを示せばよい。 -/
theorem CqInv.setCall (h : CqInv c s) {o : Option CheckFrame}
    (hfr : ∀ f, o = some f → FrameInv s f)
    (hah : ({ s with call := o } : CqSystem).ahead = s.ahead)
    (hin : ({ s with call := o } : CqSystem).inFlight = s.inFlight) :
    CqInv c { s with call := o } := by
  refine ⟨h.consumed_eq, h.cleared_eq, ?_, h.cleared_le, h.room, h.tail, h.nic, h.sense, h.tid,
    h.memory, h.stale, ?_, ?_⟩
  · rw [hah]
    exact h.cleared_len
  · intro f hf
    obtain ⟨h1, h2, h3, h4, h5, h6, h7⟩ := hfr f hf
    exact ⟨h1, h2, h3, h4, h5, h6, h7⟩
  · rw [hin]
    exact h.delivered

/-- **読んだ段の bit が合うなら、それは次の番号の entry である。** -/
theorem CqInv.read_tail (h : CqInv c s) (hah : s.ahead = 0)
    (hsr : (s.cq.q s.cq.tail).sr = s.cq.sr) :
    ∃ hlt : s.consumed.length < s.pushed.length,
      s.cq.q s.cq.tail = s.pushed[s.consumed.length] := by
  have hroom := h.room
  have hle := h.consumed_le
  have hpos : 0 < maxNumWq := by decide
  have hlt : s.consumed.length < s.pushed.length := by
    by_contra hge
    -- push が追いついていなければ、この段の bit は一周前のものである
    have hst := h.stale s.consumed.length (by omega) (by omega)
    rw [← h.tail_idx, ← h.tail_sr, hsr] at hst
    simp at hst
  refine ⟨hlt, ?_⟩
  have hmem := h.memory _ hlt (by omega)
  rw [← h.tail_idx] at hmem
  rw [hmem, CqSystem.stored, if_neg]
  have := h.cleared_len
  omega

theorem CqInv.enter (h : CqInv c s) (hc : s.call = none) (junk : CheckFrame) :
    CqInv c { s with call := some (CheckFrame.enter s.cq junk) } := by
  refine h.setCall ?_ ?_ ?_
  · intro f hf
    rw [Option.some.injEq] at hf
    subst hf
    refine ⟨fun _ => rfl, nofun, ?_, nofun, ?_, fun _ => ⟨?_, ?_⟩, nofun⟩
    · rintro (hx | hx) <;> cases hx
    · rintro (hx | hx | hx) <;> cases hx
    · exact (by decide : rmcInval ≠ rmcIncomingSend)
    · exact (by decide : rmcInval ≠ rmcIncomingResp)
  · simp [CqSystem.ahead, hc, CheckFrame.enter]
  · simp [CqSystem.inFlight, hc, CheckFrame.enter, CheckFrame.inFlight]

/-- 返り値を渡す。到着なら履歴に移り、そうでなければ何も足されない。 -/
theorem CqInv.return (h : CqInv c s) (hc : s.call = some f) (hpc : f.pc = .done) :
    CqInv c { s with call := none, results := s.results ++ [f.ret] } := by
  refine ⟨h.consumed_eq, h.cleared_eq, ?_, h.cleared_le, h.room, h.tail, h.nic, h.sense, h.tid,
    h.memory, h.stale, ?_, ?_⟩
  · have := h.cleared_len
    simpa [CqSystem.ahead, hc, hpc] using this
  · intro f' hf'
    cases hf'
  · have hd := h.delivered
    simp only [CqSystem.inFlight, hc, CheckFrame.inFlight, hpc] at hd
    rw [← hd]
    cases hi : f.ret.incoming <;> simp [CqSystem.inFlight, hi]

/-- valid を落とす一歩。番号は進まない。 -/
theorem CqInv.clear (h : CqInv c s) (hc : s.call = some f) (hpc : f.pc = .clear) :
    CqInv c (s.advance f) := by
  obtain ⟨hsync, -, hheld, -, -, hquiet, -⟩ := h.frame f hc
  have htail : f.cqTail = s.cq.tail := hsync (by rw [hpc]; trivial)
  obtain ⟨hlt, hraw⟩ := hheld (Or.inl hpc)
  have hlen : s.cleared.length = s.consumed.length := by
    have := h.cleared_len
    simpa [CqSystem.ahead, hc, hpc] using this
  have hroom := h.room
  have hidx : s.cq.tail = (c.after s.consumed.length).idx := h.tail_idx
  have hmem : s.cq.q s.cq.tail = s.pushed[s.consumed.length] := by
    rw [hidx, h.memory _ hlt (by omega), CqSystem.stored, if_neg (by omega)]
  have hadv : s.advance f = { s with
      cq := s.cq.clearValid s.cq.tail
      call := some { f with pc := .advance }
      cleared := s.cleared ++ [s.pushed[s.consumed.length]] } := by
    simp [CqSystem.advance, checkStep, hpc, htail, hmem]
  rw [hadv]
  refine ⟨h.consumed_eq, ?_, ?_, by simp; omega, h.room, h.tail, h.nic, h.sense, h.tid, ?_, ?_, ?_,
    ?_⟩
  · show s.cleared ++ [_] = s.pushed.take (s.cleared ++ [_]).length
    have hcl : s.pushed.take s.consumed.length = s.cleared := by
      rw [← hlen]
      exact h.cleared_eq.symm
    rw [List.length_append, List.length_singleton, hlen, List.take_succ_eq_append_getElem hlt, hcl]
  · simp [CqSystem.ahead, hlen]
  · intro k hk hwin
    have hk' : k < s.pushed.length := hk
    by_cases he : k = s.consumed.length
    · subst he
      show (s.cq.clearValid s.cq.tail).q (c.after s.consumed.length).idx = _
      rw [← hidx, RmcCq.clearValid_q_self, hmem]
      simp [CqSystem.stored, hlen]
    · have hne : (c.after k).idx ≠ s.cq.tail := fun hx => by
        rw [hidx] at hx
        rcases Nat.le_total k s.consumed.length with hle | hle
        · have hwin' : s.pushed.length ≤ k + maxNumWq := hwin
          exact he (Cursor.after_idx_inj hle (by omega) hx)
        · exact he (Cursor.after_idx_inj hle (by omega) hx.symm).symm
      show (s.cq.clearValid s.cq.tail).q (c.after k).idx = _
      rw [RmcCq.clearValid_q_of_ne hne, h.memory k hk' hwin]
      simp only [CqSystem.stored, List.length_append, List.length_singleton, hlen]
      by_cases hlt' : k < s.consumed.length
      · rw [if_pos hlt', if_pos (by omega)]
      · rw [if_neg hlt', if_neg (by omega)]
  · intro k hk1 hk2
    show ((s.cq.clearValid s.cq.tail).q (c.after k).idx).sr = _
    rw [RmcCq.clearValid_q_sr]
    exact h.stale k hk1 hk2
  · intro f' hf'
    rw [Option.some.injEq] at hf'
    subst hf'
    exact ⟨fun _ => htail, fun hx => by simp at hx, fun _ => ⟨hlt, hraw⟩, fun hx => hx.elim,
      fun hx => by simp at hx, fun _ => hquiet (by simp [hpc]), fun hx => by simp at hx⟩
  · have hd := h.delivered
    simpa [CqSystem.inFlight, hc, CheckFrame.inFlight, hpc] using hd

/-- **消費の一歩。** `tail` が一つ進み、次の番号の entry が消費された列に加わる。 -/
theorem CqInv.consume (h : CqInv c s) (hc : s.call = some f) (hpc : f.pc = .advance) :
    CqInv c (s.advance f) := by
  obtain ⟨-, -, hheld, -, -, hquiet, -⟩ := h.frame f hc
  obtain ⟨hlt, hraw⟩ := hheld (Or.inr hpc)
  have hlen : s.cleared.length = s.consumed.length + 1 := by
    have := h.cleared_len
    simpa [CqSystem.ahead, hc, hpc] using this
  have hroom := h.room
  have hadv : s.advance f = { s with
      cq := s.cq.advanceTail
      call := some { f with pc := .branch }
      consumed := s.consumed ++ [f.rawCqe] } := by
    simp [CqSystem.advance, checkStep, hpc]
  rw [hadv]
  refine ⟨?_, h.cleared_eq, ?_, h.cleared_le, by simp; omega, ?_, h.nic, h.sense, h.tid, ?_, ?_,
    ?_, ?_⟩
  · show s.consumed ++ [f.rawCqe] = s.pushed.take (s.consumed ++ [f.rawCqe]).length
    rw [List.length_append, List.length_singleton, List.take_succ_eq_append_getElem hlt, hraw,
      ← h.consumed_eq]
  · simp [CqSystem.ahead, hlen]
  · show s.cq.advanceTail.cursor = _
    rw [RmcCq.advanceTail_cursor, h.tail, List.length_append, List.length_singleton,
      Cursor.after_succ]
  · intro k hk hwin
    show s.cq.advanceTail.q (c.after k).idx = _
    rw [RmcCq.advanceTail_q]
    exact h.memory k hk hwin
  · intro k hk1 hk2
    show (s.cq.advanceTail.q (c.after k).idx).sr = _
    rw [RmcCq.advanceTail_q]
    exact h.stale k hk1 hk2
  · intro f' hf'
    rw [Option.some.injEq] at hf'
    subst hf'
    exact ⟨fun hx => hx.elim, fun hx => by simp at hx, fun hx => by simp at hx,
      fun _ => hraw ▸ List.getElem_mem hlt, fun hx => by simp at hx,
      fun _ => hquiet (by simp [hpc]), fun hx => by simp at hx⟩
  · have hd := h.delivered
    simp only [CqSystem.inFlight, hc, CheckFrame.inFlight, hpc, List.append_nil] at hd
    show s.results.filterMap _ ++ f.rawCqe.deliver.toList = _
    rw [hd, List.filterMap_append]
    cases hdel : f.rawCqe.deliver <;> simp [hdel]

/-- CQ に触れない位置では、一歩は局所変数だけを変える。 -/
theorem CqSystem.advance_local (hne1 : f.pc ≠ .clear) (hne2 : f.pc ≠ .advance) :
    s.advance f = { s with call := some (checkStep s.wq s.cq f).2 } := by
  have hcq : (checkStep s.wq s.cq f).1 = s.cq := by
    unfold checkStep
    split <;> first | rfl | contradiction | skip
    all_goals (repeat' split) <;> rfl
  simp [CqSystem.advance, hne1, hne2, hcq]

/-- 局所的な一歩のあとも、局所変数の条件は保たれる。 -/
theorem CqInv.frame_local (h : CqInv c s) (hc : s.call = some f) (hne1 : f.pc ≠ .clear)
    (hne2 : f.pc ≠ .advance) (hne3 : f.pc ≠ .done) :
    FrameInv s (checkStep s.wq s.cq f).2 := by
  have hinv := h.frame f hc
  have hah : s.ahead = 0 := by simp [CqSystem.ahead, hc, hne2]
  have hquiet := hinv.quiet hne3
  cases hpc : f.pc with
  | clear => exact absurd hpc hne1
  | advance => exact absurd hpc hne2
  | done => exact absurd hpc hne3
  | fault => exact absurd hpc hinv.noFault
  | readWqe =>
    have htail := hinv.synced (by rw [hpc]; trivial)
    simp only [checkStep, hpc]
    exact ⟨fun _ => htail, by simp, by simp, fun hx => hx.elim, by simp, fun _ => hquiet, by simp⟩
  | readCqe =>
    have htail := hinv.synced (by rw [hpc]; trivial)
    simp only [checkStep, hpc]
    refine ⟨fun _ => htail, fun _ hsr => ?_, by simp, fun hx => hx.elim, by simp, fun _ => hquiet,
      by simp⟩
    rw [htail] at hsr ⊢
    exact h.read_tail hah hsr
  | test =>
    have htail := hinv.synced (by rw [hpc]; trivial)
    simp only [checkStep, hpc]
    split
    · next hcond =>
      exact ⟨fun _ => htail, by simp, fun _ => hinv.tested hpc hcond.1, fun hx => hx.elim,
        by simp, fun _ => hquiet, by simp⟩
    · exact ⟨fun _ => htail, by simp, by simp, fun hx => hx.elim, by simp, fun _ => hquiet, by simp⟩
  | branch =>
    have hmem := hinv.passed (by rw [hpc]; trivial)
    simp only [checkStep, hpc]
    split
    · exact ⟨fun hx => hx.elim, by simp, by simp, fun hx => hx.elim, by simp,
      fun hx => absurd rfl hx, by simp⟩
    · next hsend =>
      split
      · exact ⟨fun hx => hx.elim, by simp, by simp, fun hx => hx.elim, by simp,
        fun hx => absurd rfl hx, by simp⟩
      · next hresp =>
        exact ⟨fun hx => hx.elim, by simp, by simp, fun _ => hmem,
          fun _ => CqEntry.deliver_eq_none.mpr ⟨hsend, hresp⟩, fun _ => hquiet, by simp⟩
  | readOp =>
    have hmem := hinv.passed (by rw [hpc]; trivial)
    have hother := hinv.other (Or.inl hpc)
    have htid := h.tid _ hmem hother
    simp only [checkStep, hpc, htid, dite_true]
    split
    · exact ⟨fun hx => hx.elim, by simp, by simp, fun _ => hmem, fun _ => hother,
      fun _ => (by decide : rmcSabre ≠ rmcIncomingSend ∧ rmcSabre ≠ rmcIncomingResp), by simp⟩
    · exact ⟨fun hx => hx.elim, by simp, by simp, fun _ => hmem, fun _ => hother,
      fun _ => (by decide : (0 : UInt32) ≠ rmcIncomingSend ∧ (0 : UInt32) ≠ rmcIncomingResp),
        by simp⟩
  | readSuccess =>
    have hmem := hinv.passed (by rw [hpc]; trivial)
    have hother := hinv.other (Or.inr (Or.inl hpc))
    simp only [checkStep, hpc]
    exact ⟨fun hx => hx.elim, by simp, by simp, fun _ => hmem, fun _ => hother, fun _ => hquiet,
      by simp⟩
  | refresh =>
    simp only [checkStep, hpc]
    exact ⟨fun _ => rfl, fun _ hsr => h.read_tail hah hsr, by simp, fun hx => hx.elim, by simp,
      fun _ => hquiet, by simp⟩
  | again =>
    have htail := hinv.synced (by rw [hpc]; trivial)
    simp only [checkStep, hpc]
    split
    · exact ⟨fun _ => htail, by simp, by simp, fun hx => hx.elim, by simp, fun _ => hquiet, by simp⟩
    · exact ⟨fun hx => hx.elim, by simp, by simp, fun hx => hx.elim, by simp,
      fun hx => absurd rfl hx, by simp⟩

/-- valid を落とす位置に入るのは `clear` からだけである。 -/
theorem checkStep_pc_ne_advance {wq : RmcWq} {cq : RmcCq} (hne1 : f.pc ≠ .clear)
    (hne2 : f.pc ≠ .advance) : (checkStep wq cq f).2.pc ≠ .advance := by
  unfold checkStep
  split
  case h_4 hpc => exact absurd hpc hne1
  case h_5 hpc => exact absurd hpc hne2
  all_goals (repeat' split) <;> simp_all

theorem CqInv.poll (h : CqInv c s) (hc : s.call = some f) (hne3 : f.pc ≠ .done) :
    CqInv c (s.advance f) := by
  by_cases h1 : f.pc = .clear
  · exact h.clear hc h1
  by_cases h2 : f.pc = .advance
  · exact h.consume hc h2
  rw [CqSystem.advance_local h1 h2]
  refine h.setCall ?_ ?_ ?_
  · intro f' hf'
    rw [Option.some.injEq] at hf'
    exact hf' ▸ h.frame_local hc h1 h2 hne3
  · simp [CqSystem.ahead, hc, h2, checkStep_pc_ne_advance h1 h2]
  · simp only [CqSystem.inFlight, hc]
    rw [CheckFrame.inFlight_step _ _ (h.frame f hc).quiet hne3, if_neg h2]

theorem CqInv.step (h : CqInv c s) {a : CqAction} (ha : TidInRange s a)
    (hs : cqStep s a = some s') : CqInv c s' := by
  cases a with
  | push e =>
    simp only [cqStep] at hs
    split at hs
    · next hroom =>
      rw [Option.some.injEq] at hs
      exact hs ▸ h.push hroom ha
    · cases hs
  | setValid i b =>
    rw [cqStep, Option.some.injEq] at hs
    exact hs ▸ h.setValid _
  | enter junk =>
    cases hc : s.call with
    | none =>
      simp only [cqStep, hc, Option.some.injEq] at hs
      exact hs ▸ h.enter hc junk
    | some f => simp [cqStep, hc] at hs
  | poll =>
    cases hc : s.call with
    | none => simp [cqStep, hc] at hs
    | some f =>
      simp only [cqStep, hc] at hs
      split at hs
      · next hpc =>
        rw [Option.some.injEq] at hs
        exact hs ▸ h.return hc hpc
      · next hpc =>
        rw [Option.some.injEq] at hs
        exact hs ▸ h.poll hc hpc

/-! ## 全体の定理 -/

/--
**CQ は順序どおりに、ちょうど一度ずつ渡す。**

NIC の push・WQ の valid の変化・`rmc_check_cq` の一歩をどう混ぜても、

* 消費された列は push された列の prefix である
* SEND / RESP を告げる返り値の列は、消費された列のうち success が 0x7F / 1 のものと一致する。
  呼び出しの途中なら、消費済みでまだ返していない一つが最後に加わる
* valid を落とされた entry は消費された entry と一致する。途中なら高々一つだけ先に落ちている。
  memory に残る entry のうち、valid だけが変わっているのもちょうどそれらである
* `wq->q[tid]` の範囲外を読むことはない
-/
theorem checkCq_exactlyOnce {wq : RmcWq} {cq : RmcCq} (hinit : LapConsistent cq)
    (h : Reaches cqStep TidInRange (CqSystem.init wq cq) s) :
    s.consumed <+: s.pushed ∧
      s.results.filterMap SuccessStruct.incoming ++ s.inFlight
        = s.consumed.filterMap CqEntry.deliver ∧
      (s.cleared <+: s.pushed ∧ s.cleared.length = s.consumed.length + s.ahead ∧
        ∀ k, (hk : k < s.pushed.length) → s.pushed.length ≤ k + maxNumWq →
          s.cq.q (cq.cursor.after k).idx = s.stored k hk) ∧
      (s.call = none → s.inFlight = [] ∧ s.cleared = s.consumed) ∧
      (∀ f, s.call = some f → f.pc ≠ .fault) := by
  have hinv : CqInv cq.cursor s :=
    h.invariant (cqInv_init hinit) fun _ _ _ hu ha hs => hu.step ha hs
  refine ⟨?_, hinv.delivered, ⟨?_, hinv.cleared_len, hinv.memory⟩, ?_, fun f hf =>
    (hinv.frame f hf).noFault⟩
  · rw [hinv.consumed_eq]
    exact List.take_prefix _ _
  · rw [hinv.cleared_eq]
    exact List.take_prefix _ _
  · intro hc
    have hlen : s.cleared.length = s.consumed.length := by
      have := hinv.cleared_len
      simpa [CqSystem.ahead, hc] using this
    refine ⟨by simp [CqSystem.inFlight, hc], ?_⟩
    rw [hinv.cleared_eq, hinv.consumed_eq, hlen]

/-- 段の `SR` がすべて `sr`、中身が 0 の CQ。 -/
def idleCq (tail : Fin maxNumWq) (sr : Bool) : RmcCq where
  q := fun _ => { sr := sr, valid := false, success := 0, tid := 0, recvBufAddr := 0 }
  tail := tail
  sr := !sr

/-- 何も入っていない局所変数。 -/
def emptyFrame : CheckFrame where
  pc := .done
  ret := { success := 0, op := 0, tid := 0, recvBufAddr := 0 }
  cqTail := 0
  rawWqe :=
    { op := 0, sr := false, valid := false, bufAddr := 0, cid := 0, nid := 0, offset := 0,
      length := 0 }
  rawCqe := { sr := false, valid := false, success := 0, tid := 0, recvBufAddr := 0 }

/-- tid が 0 の、SEND の到着を告げる entry。 -/
def sendEntry (recvBufAddr : UInt64) : CqEntry :=
  { sr := false, valid := true, success := 0x7F, tid := 0, recvBufAddr := recvBufAddr }

/-- 端の段の entry を一つ受け取り、返ったあとで次の呼び出しが `q[0]` を消費するまで。 -/
def lapRun : List CqAction :=
  [.push (sendEntry 4096), .enter emptyFrame] ++ List.replicate 7 .poll ++ [.enter emptyFrame] ++
    List.replicate 5 .poll

theorem lapRun_tid : ∀ a ∈ lapRun, ∀ s, TidInRange s a := by
  simp [lapRun, TidInRange, sendEntry]

/-- 先頭から始まる CQ なら、同じ実行の二度目の呼び出しは空のまま返る。 -/
theorem checkCq_exactlyOnce_first :
    LapConsistent (idleCq 0 false) ∧
      ∃ s, Reaches cqStep TidInRange (CqSystem.init idleWq (idleCq 0 false)) s ∧
        s.results.length = 2 ∧ s.consumed.length = 1 ∧ s.consumed <+: s.pushed := by
  have hinit : LapConsistent (idleCq 0 false) := fun i => by simp [idleCq]
  have hrun := reaches_of_exec (fun a ha s => lapRun_tid a ha s)
    (show exec cqStep (CqSystem.init idleWq (idleCq 0 false)) lapRun = some _ from rfl)
  exact ⟨hinit, _, hrun, rfl, rfl, (checkCq_exactlyOnce hinit hrun).1⟩

/--
すべての段の `SR` が食い違うだけでは足りない。`tail = 127` から一つ受け取ると `SR` が反転し、
次の呼び出しは一度も push されていない `q[0]` を消費する。
-/
theorem checkCq_phantom :
    ¬ ∀ (wq : RmcWq) (cq : RmcCq) (s : CqSystem), (∀ i, (cq.q i).sr ≠ cq.sr) →
      Reaches cqStep TidInRange (CqSystem.init wq cq) s → s.consumed <+: s.pushed := by
  intro h
  have hrun := reaches_of_exec (fun a ha s => lapRun_tid a ha s)
    (show exec cqStep (CqSystem.init idleWq (idleCq 127 false)) lapRun = some _ from rfl)
  have hlen := (h _ _ _ (fun i => by simp [idleCq]) hrun).length_le
  exact absurd hlen (by decide)

end L3fwd.Nic
