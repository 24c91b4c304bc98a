import L3fwd.Nic.Defs

/-!
# `rmc_check_cq`

CQ を一回見に行く関数を、共有 memory への access ごとに一歩ずつ進む機械として書く。
NIC は歩と歩のあいだに割り込めるので、呼び出しを不可分とみなすことはできない。

* 二重のループの位置は `CheckPc`、局所変数は `CheckFrame` が持つ。
* `tail_SR` は `raw_cqe_entry.SR` の写しで、両者は必ず続けて代入される。別の field にはしない。
* `wq->q[tid]` の添字は CQ entry から来るので範囲を検査されない。
  範囲外の読み出しは `CheckPc.fault` で表す。
* `cq->tail` と `cq->SR` に触れるのはこの関数だけなので、両者の更新は一歩にまとめる。
-/

namespace L3fwd.Nic

/-- `rmc_check_cq` の実行位置。次に行う access を表す。 -/
inductive CheckPc where
  | readWqe
  | readCqe
  | test
  | clear
  | advance
  | branch
  | readOp
  | readSuccess
  | refresh
  | again
  | done
  | fault
  deriving DecidableEq

/-- `rmc_check_cq` の局所変数。 -/
structure CheckFrame where
  pc : CheckPc
  ret : SuccessStruct
  cqTail : Fin maxNumWq
  rawWqe : WqEntry
  rawCqe : CqEntry

/-- 呼び出しの入口。初期化されない変数は前の内容 `junk` のままである。 -/
def CheckFrame.enter (cq : RmcCq) (junk : CheckFrame) : CheckFrame :=
  { junk with
    pc := .readWqe
    ret := { junk.ret with success := 1, op := rmcInval }
    cqTail := cq.tail }

/-- `cq->tail` を進める。末尾に達したら 0 に戻し、`SR` を反転する。 -/
def RmcCq.advanceTail (cq : RmcCq) : RmcCq :=
  if h : cq.tail.val + 1 < maxNumWq then { cq with tail := ⟨cq.tail.val + 1, h⟩ }
  else { cq with tail := 0, sr := !cq.sr }

/-- `cq->q[i].valid = 0`。 -/
def RmcCq.clearValid (cq : RmcCq) (i : Fin maxNumWq) : RmcCq :=
  { cq with q := Function.update cq.q i { cq.q i with valid := false } }

/-- 届いた SEND / RESP の completion を返り値に写す。 -/
def SuccessStruct.ofIncoming (r : SuccessStruct) (op : UInt32) (e : CqEntry) : SuccessStruct :=
  { r with recvBufAddr := e.recvBufAddr, op := op, tid := e.tid }

/-- `rmc_check_cq` の一歩。 -/
def checkStep (wq : RmcWq) (cq : RmcCq) (f : CheckFrame) : RmcCq × CheckFrame :=
  match f.pc with
  | .readWqe => (cq, { f with pc := .readCqe, rawWqe := wq.q wq.head })
  | .readCqe => (cq, { f with pc := .test, rawCqe := cq.q f.cqTail })
  | .test =>
    if f.rawCqe.sr = cq.sr ∧ f.ret.success ≠ 0 then (cq, { f with pc := .clear })
    else (cq, { f with pc := .again })
  | .clear => (cq.clearValid f.cqTail, { f with pc := .advance })
  | .advance => (cq.advanceTail, { f with pc := .branch })
  | .branch =>
    if f.rawCqe.success = 0x7F then
      (cq, { f with pc := .done, ret := f.ret.ofIncoming rmcIncomingSend f.rawCqe })
    else if f.rawCqe.success = 1 then
      (cq, { f with pc := .done, ret := f.ret.ofIncoming rmcIncomingResp f.rawCqe })
    else (cq, { f with pc := .readOp })
  | .readOp =>
    if h : f.rawCqe.tid.toNat < maxNumWq then
      if (wq.q ⟨f.rawCqe.tid.toNat, h⟩).op = rmcSabre then
        (cq, { f with pc := .readSuccess, ret := { f.ret with op := rmcSabre } })
      else (cq, { f with pc := .refresh, ret := { f.ret with op := 0 } })
    else (cq, { f with pc := .fault })
  | .readSuccess =>
    -- `raw_cqe_entry` ではなく memory を読み直す。ここはもう消費した段である
    let success := (cq.q f.cqTail).success
    let tid := if success = 0 then f.rawCqe.tid else f.ret.tid
    (cq, { f with pc := .refresh, ret := { f.ret with success := success, tid := tid } })
  | .refresh => (cq, { f with pc := .test, cqTail := cq.tail, rawCqe := cq.q cq.tail })
  | .again =>
    if f.rawWqe.valid ∧ f.ret.success ≠ 0 then (cq, { f with pc := .readWqe })
    else (cq, { f with pc := .done })
  | .done => (cq, f)
  | .fault => (cq, f)

/-! ## 一歩の補題 -/

@[simp] theorem RmcCq.advanceTail_q (cq : RmcCq) : cq.advanceTail.q = cq.q := by
  unfold advanceTail
  split <;> rfl

@[simp] theorem RmcCq.advanceTail_cursor (cq : RmcCq) :
    cq.advanceTail.cursor = cq.cursor.next := by
  unfold advanceTail cursor Infra.Cursor.next
  split <;> rfl

@[simp] theorem RmcCq.clearValid_q_self (cq : RmcCq) (i : Fin maxNumWq) :
    (cq.clearValid i).q i = { cq.q i with valid := false } := by
  simp [clearValid]

theorem RmcCq.clearValid_q_of_ne {cq : RmcCq} {i j : Fin maxNumWq} (h : j ≠ i) :
    (cq.clearValid i).q j = cq.q j := by
  simp [clearValid, h]

@[simp] theorem RmcCq.clearValid_q_sr (cq : RmcCq) (i j : Fin maxNumWq) :
    ((cq.clearValid i).q j).sr = (cq.q j).sr := by
  by_cases h : j = i
  · rw [h, clearValid_q_self]
  · rw [clearValid_q_of_ne h]

/-! ## 届いたもの -/

/-- 消費した entry が呼び出し側に渡るべき内容。 -/
def CqEntry.deliver (e : CqEntry) : Option (UInt32 × UInt32 × UInt64) :=
  if e.success = 0x7F then some (rmcIncomingSend, e.tid, e.recvBufAddr)
  else if e.success = 1 then some (rmcIncomingResp, e.tid, e.recvBufAddr)
  else none

/-- 返り値のうち、SEND / RESP の到着を告げるもの。 -/
def SuccessStruct.incoming (r : SuccessStruct) : Option (UInt32 × UInt32 × UInt64) :=
  if r.op = rmcIncomingSend ∨ r.op = rmcIncomingResp then some (r.op, r.tid, r.recvBufAddr)
  else none

theorem SuccessStruct.incoming_eq_none {r : SuccessStruct}
    (h : r.op ≠ rmcIncomingSend ∧ r.op ≠ rmcIncomingResp) : r.incoming = none := by
  unfold incoming
  rw [if_neg]
  rintro (h' | h')
  · exact h.1 h'
  · exact h.2 h'

/-- 消費済みで、まだ返っていない到着。呼び出しの途中でなければ空である。 -/
def CheckFrame.inFlight (f : CheckFrame) : List (UInt32 × UInt32 × UInt64) :=
  match f.pc with
  | .branch => f.rawCqe.deliver.toList
  | .done => f.ret.incoming.toList
  | _ => []

theorem CqEntry.deliver_eq_none {e : CqEntry} :
    e.deliver = none ↔ e.success ≠ 0x7F ∧ e.success ≠ 1 := by
  unfold deliver
  split
  · next h => simp [h]
  · next h =>
    split
    · next h' => simp [h']
    · next h' => simp [h, h']

/-! ## 到着が返るまで -/

/-- 返り値の op は、返すと決めるまで SEND / RESP にならない。 -/
def CheckFrame.Quiet (f : CheckFrame) : Prop :=
  f.pc ≠ .done → f.ret.op ≠ rmcIncomingSend ∧ f.ret.op ≠ rmcIncomingResp

variable {wq : RmcWq} {cq : RmcCq} {f : CheckFrame}

theorem CheckFrame.quiet_enter (cq : RmcCq) (junk : CheckFrame) : (enter cq junk).Quiet :=
  fun _ => (by decide : rmcInval ≠ rmcIncomingSend ∧ rmcInval ≠ rmcIncomingResp)

theorem CheckFrame.inFlight_enter (cq : RmcCq) (junk : CheckFrame) :
    (enter cq junk).inFlight = [] := rfl

theorem CheckFrame.Quiet.step (h : f.Quiet) (hne : f.pc ≠ .done) :
    (checkStep wq cq f).2.Quiet := by
  have hop := h hne
  cases hpc : f.pc with
  | done => exact absurd hpc hne
  | readWqe | readCqe | clear | advance | readSuccess | refresh | fault =>
    simp only [checkStep, hpc]
    exact fun _ => hop
  | test =>
    simp only [checkStep, hpc]
    split <;> exact fun _ => hop
  | branch =>
    simp only [checkStep, hpc]
    split
    · exact fun hx => absurd rfl hx
    · split
      · exact fun hx => absurd rfl hx
      · exact fun _ => hop
  | readOp =>
    simp only [checkStep, hpc]
    split
    · split
      · exact fun _ => (by decide : rmcSabre ≠ rmcIncomingSend ∧ rmcSabre ≠ rmcIncomingResp)
      · exact fun _ => (by decide : (0 : UInt32) ≠ rmcIncomingSend ∧ (0 : UInt32) ≠ rmcIncomingResp)
    · exact fun _ => hop
  | again =>
    simp only [checkStep, hpc]
    split
    · exact fun _ => hop
    · exact fun hx => absurd rfl hx

/-- **返していない到着は、消費の一歩でだけ増える。** -/
theorem CheckFrame.inFlight_step (wq : RmcWq) (cq : RmcCq) (h : f.Quiet) (hne : f.pc ≠ .done) :
    (checkStep wq cq f).2.inFlight
      = if f.pc = .advance then f.rawCqe.deliver.toList else f.inFlight := by
  have hop := h hne
  cases hpc : f.pc with
  | done => exact absurd hpc hne
  | readWqe | readCqe | clear | advance | readSuccess | refresh | fault =>
    simp [checkStep, hpc, inFlight]
  | test =>
    simp only [checkStep, hpc]
    split <;> simp [inFlight, hpc]
  | branch =>
    simp only [checkStep, hpc]
    split
    · next hs =>
      simp [inFlight, hpc, SuccessStruct.ofIncoming, SuccessStruct.incoming, CqEntry.deliver, hs]
    · next hs =>
      split
      · next hr =>
        simp [inFlight, hpc, SuccessStruct.ofIncoming, SuccessStruct.incoming, CqEntry.deliver, hr]
      · next hr => simp [inFlight, hpc, CqEntry.deliver_eq_none.mpr ⟨hs, hr⟩]
  | readOp =>
    simp only [checkStep, hpc]
    split
    · split <;> simp [inFlight, hpc]
    · simp [inFlight, hpc]
  | again =>
    simp only [checkStep, hpc]
    split
    · simp [inFlight, hpc]
    · simp [inFlight, hpc, SuccessStruct.incoming_eq_none hop]

end L3fwd.Nic
