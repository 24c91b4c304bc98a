import L3fwd.Rpc.Replies

/-!
# 返信の宛先

返信の SEND は、要求してきた node に届くか。

宛先は CQ entry の `tid` から、`uint16_t *` を通した書き込み、ループの中で宣言された 64 bit の
局所変数、`unsigned int` の引数、`uint64_t` の field を順に通って descriptor に入る。
局所変数は初期化されないので、書き込まれる下位 16 bit の上の 16 bit には前の内容が残り、
それも宛先の一部になる。

どの返信がどの到着に応じたものかは、worker の実行に履歴を付けて書く（`ReplyTrace`）。
履歴は worker の動きを変えない（`traceStep_sys`, `exists_traceStep`）。
-/

namespace L3fwd.Rpc

open Infra Nic

/-! ## 宛先の計算 -/

/-- 宛先は、下位 16 bit が `tid`、その上の 16 bit が局所変数の前の内容である。 -/
theorem destNode_toNat (stale : UInt64) (tid : UInt32) :
    (writeSourceNodeId stale tid).toUInt32.toNat
      = 2 ^ 16 * (stale.toNat / 2 ^ 16 % 2 ^ 16) + tid.toNat % 2 ^ 16 := by
  have hmask : (0xFFFFFFFFFFFF0000 : UInt64).toNat = (2 ^ 48 - 1) <<< 16 := by decide
  have hlow : tid.toUInt16.toUInt64.toNat = tid.toNat % 2 ^ 16 := rfl
  have hval : (writeSourceNodeId stale tid).toUInt32.toNat
      = (stale.toNat &&& (2 ^ 48 - 1) <<< 16 ||| tid.toNat % 2 ^ 16) % 2 ^ 32 := by
    rw [writeSourceNodeId, UInt64.toNat_toUInt32, UInt64.toNat_or, UInt64.toNat_and, hmask, hlow]
  rw [hval]
  refine Nat.eq_of_testBit_eq fun i => ?_
  rw [Nat.testBit_two_pow_mul_add _ (Nat.mod_lt _ (by decide))]
  simp only [Nat.testBit_mod_two_pow, Nat.testBit_or, Nat.testBit_and, Nat.testBit_shiftLeft,
    Nat.testBit_two_pow_sub_one, Nat.testBit_div_two_pow]
  by_cases hlt : i < 16
  · simp [hlt, show i < 32 by omega]
  by_cases hmid : i < 32
  · have hback : i - 16 + 16 = i := by omega
    simp [hlt, hmid, show i - 16 < 48 by omega, show 16 ≤ i by omega, show i - 16 < 16 by omega,
      hback]
  · simp [hlt, hmid, show ¬ i - 16 < 16 by omega]

/-- 16 bit に収まる `tid` が宛先になるのは、前の内容の 16 から 31 bit 目が 0 のときに限る。 -/
theorem destNode_eq_iff {stale : UInt64} {tid : UInt32} (htid : tid.toNat < 2 ^ 16) :
    (writeSourceNodeId stale tid).toUInt32.toUInt64 = tid.toUInt64 ↔
      stale.toNat / 2 ^ 16 % 2 ^ 16 = 0 := by
  rw [← UInt64.toNat_inj, UInt32.toNat_toUInt64, UInt32.toNat_toUInt64, destNode_toNat,
    Nat.mod_eq_of_lt htid]
  omega

/-! ## 返信の履歴 -/

/-- 一つの返信。応じた到着、そのときの `source_node_id` の前の内容、投入した descriptor。 -/
structure Reply where
  completion : CqEntry
  stale : UInt64
  descriptor : WqEntry

/-- 返信の履歴を付けた worker。`serving` は今の iteration が応じている SEND の到着である。 -/
structure ReplyTrace where
  sys : WorkerSystem
  serving : Option CqEntry
  stale : UInt64
  replies : List Reply

/-- `s` から `s'` への一歩で `RMC_SEND` の descriptor が投入されたなら、その descriptor。 -/
def postedSend (s s' : WorkerSystem) : Option WqEntry :=
  if s.accepted.length < s'.accepted.length ∧ (s'.q.wq.q s.q.wq.head).op = rmcSend then
    some (s'.q.wq.q s.q.wq.head)
  else none

/-- `rmc_check_cq` が SEND の到着を返したなら、応じるのは最後に消費した CQ entry である。 -/
def ReplyTrace.servingAfter (t : ReplyTrace) : WorkerAction → Option CqEntry
  | .run _ =>
    match t.sys.pc with
    | .test ret => if ret.op = rmcIncomingSend then t.sys.q.consumed.getLast? else none
    | _ => t.serving
  | _ => t.serving

/-- `source_node_id` の前の内容は、それを使う一歩の `junk` にある。 -/
def ReplyTrace.staleAfter (t : ReplyTrace) : WorkerAction → UInt64
  | .run junk =>
    match t.sys.pc with
    | .checkDone _ => junk.sourceNodeId
    | _ => t.stale
  | _ => t.stale

/-- 投入された返信を履歴に加える。 -/
def ReplyTrace.repliesAfter (t : ReplyTrace) (s' : WorkerSystem) : List Reply :=
  match t.serving, postedSend t.sys s' with
  | some e, some d => t.replies ++ [⟨e, t.stale, d⟩]
  | _, _ => t.replies

def traceStep (w : WorkerParams) (t : ReplyTrace) (a : WorkerAction) : Option ReplyTrace :=
  (workerStep w t.sys a).map fun s' =>
    { sys := s', serving := t.servingAfter a, stale := t.staleAfter a
      replies := t.repliesAfter s' }

def ReplyTrace.init (wq : RmcWq) (cq : RmcCq) (mem : UInt64 → UInt8) : ReplyTrace where
  sys := WorkerSystem.init wq cq mem
  serving := none
  stale := 0
  replies := []

/-- 返信の宛先は、応じた到着の `tid` である。 -/
def Reply.ToAsker (r : Reply) : Prop :=
  r.completion.tid.toNat < 2 ^ 16 → r.descriptor.nid = r.completion.tid.toUInt64

/-- `tid` が 16 bit に収まる到着に応じるとき、前の内容の 16 から 31 bit 目は 0 である。 -/
def ClearAbove (e : CqEntry) (stale : UInt64) : Prop :=
  e.tid.toNat < 2 ^ 16 → stale.toNat / 2 ^ 16 % 2 ^ 16 = 0

/-- 到着に応じる iteration では、到着と `source_node_id` の前の内容が `P` を満たす。 -/
def StaleBy (P : CqEntry → UInt64 → Prop) (t : ReplyTrace) : WorkerAction → Prop
  | .run junk => ∀ ret e, t.sys.pc = .checkDone ret → t.serving = some e → P e junk.sourceNodeId
  | _ => True

variable {w : WorkerParams} {t t' : ReplyTrace} {s s' : WorkerSystem} {a : WorkerAction}
  {P : CqEntry → UInt64 → Prop}

/-- 履歴を忘れると、もとの worker の一歩である。 -/
theorem traceStep_sys (h : traceStep w t a = some t') : workerStep w t.sys a = some t'.sys := by
  obtain ⟨s', hs, rfl⟩ := Option.map_eq_some_iff.mp h
  exact hs

/-- worker のどの一歩にも、履歴を付けた一歩がある。 -/
theorem exists_traceStep (t : ReplyTrace) (h : workerStep w t.sys a = some s') :
    ∃ t', traceStep w t a = some t' ∧ t'.sys = s' :=
  ⟨_, by rw [traceStep, h]; rfl, rfl⟩

/-! ## 不変条件 -/

/-- 返していない到着は、あるとすれば最後に消費した entry のものである。 -/
def LastArrived (consumed : List CqEntry) (arrivals : List (UInt32 × UInt32 × UInt64)) : Prop :=
  arrivals = [] ∨ ∃ e, consumed.getLast? = some e ∧ arrivals = e.deliver.toList

/-- worker が消費した SEND の到着である。 -/
def WorkerSystem.Arrived (s : WorkerSystem) (e : CqEntry) : Prop :=
  e ∈ s.q.consumed ∧ e.success = 0x7F

/-- 位置ごとに決まること。`write` からは宛先が前の内容と `tid` で書けている。 -/
def ReplyTrace.Mid (P : CqEntry → UInt64 → Prop) (t : ReplyTrace) : Prop :=
  match t.sys.pc with
  | .test ret => LastArrived t.sys.q.consumed ret.incoming.toList
  | .checkDone ret => ∀ e, t.serving = some e → t.sys.Arrived e ∧ ret.tid = e.tid
  | .write _ destNode | .spin _ destNode => ∀ e, t.serving = some e →
    t.sys.Arrived e ∧ P e t.stale ∧ destNode = (writeSourceNodeId t.stale e.tid).toUInt32
  | _ => True

/-- 返信は消費した SEND の到着に応じたもので、宛先は前の内容と `tid` で決まる。 -/
def WorkerSystem.Replied (P : CqEntry → UInt64 → Prop) (s : WorkerSystem) (r : Reply) : Prop :=
  s.Arrived r.completion ∧ P r.completion r.stale ∧ r.descriptor.op = rmcSend ∧
    r.descriptor.nid = (writeSourceNodeId r.stale r.completion.tid).toUInt32.toUInt64

/-- 前の内容がいつも `P` を満たす実行で保たれること。 -/
structure TargetInv (P : CqEntry → UInt64 → Prop) (t : ReplyTrace) : Prop where
  call : ∀ f, t.sys.q.call = some f →
    t.sys.pc = .receive ∧ f.Quiet ∧ LastArrived t.sys.q.consumed f.inFlight
  mid : t.Mid P
  replies : ∀ r ∈ t.replies, t.sys.Replied P r

theorem targetInv_init (wq : RmcWq) (cq : RmcCq) (mem : UInt64 → UInt8) :
    TargetInv P (ReplyTrace.init wq cq mem) where
  call := fun f hf => by cases hf
  mid := trivial
  replies := fun r hr => by cases hr

/-- **SEND を告げる返り値は、最後に消費した entry の `tid` を持つ。** -/
theorem LastArrived.tid {consumed : List CqEntry} {ret : SuccessStruct}
    (h : LastArrived consumed ret.incoming.toList) (hop : ret.op = rmcIncomingSend) {e : CqEntry}
    (he : consumed.getLast? = some e) : e ∈ consumed ∧ e.success = 0x7F ∧ ret.tid = e.tid := by
  have hin : ret.incoming = some (rmcIncomingSend, ret.tid, ret.recvBufAddr) := by
    simp [SuccessStruct.incoming, hop]
  rw [hin] at h
  rcases h with hnil | ⟨e', he', hdel⟩
  · cases hnil
  · obtain rfl : e = e' := Option.some.inj (he.symm.trans he')
    have hmem : e ∈ consumed := List.mem_of_getLast? he
    unfold CqEntry.deliver at hdel
    by_cases hs : e.success = 0x7F
    · rw [if_pos hs] at hdel
      simp only [Option.toList_some, List.cons.injEq, Prod.mk.injEq] at hdel
      exact ⟨hmem, hs, hdel.1.2.1⟩
    · rw [if_neg hs] at hdel
      by_cases hr : e.success = 1
      · rw [if_pos hr] at hdel
        simp only [Option.toList_some, List.cons.injEq, Prod.mk.injEq] at hdel
        exact absurd hdel.1.1 (by decide)
      · rw [if_neg hr] at hdel
        cases hdel

/-! ## 一歩ごとの保存 -/

/-- 受け付けられた投入が無ければ、新しい descriptor も無い。 -/
theorem postedSend_eq_none (h : s'.accepted = s.accepted) : postedSend s s' = none := by
  unfold postedSend
  rw [if_neg (by rw [h]; omega)]

theorem repliesAfter_of_none (h : postedSend t.sys s' = none) : t.repliesAfter s' = t.replies := by
  unfold ReplyTrace.repliesAfter
  rw [h]
  split
  · next heq => cases heq
  · rfl

theorem WorkerSystem.Replied.mono {r : Reply} (h : s.Replied P r)
    (hsub : s.q.consumed ⊆ s'.q.consumed) : s'.Replied P r :=
  ⟨⟨hsub h.1.1, h.1.2⟩, h.2⟩

/-- SEND の投入が無い一歩。位置ごとの条件だけを示せばよい。 -/
theorem TargetInv.keep (h : TargetInv P t) {serving : Option CqEntry} {stale : UInt64}
    (hnone : postedSend t.sys s' = none) (hsub : t.sys.q.consumed ⊆ s'.q.consumed)
    (hcall : ∀ f, s'.q.call = some f →
      s'.pc = .receive ∧ f.Quiet ∧ LastArrived s'.q.consumed f.inFlight)
    (hmid : (ReplyTrace.mk s' serving stale t.replies).Mid P) :
    TargetInv P ⟨s', serving, stale, t.repliesAfter s'⟩ := by
  rw [repliesAfter_of_none hnone]
  exact ⟨hcall, hmid, fun r hr => (h.replies r hr).mono hsub⟩

theorem TargetInv.call_none (h : TargetInv P t) (hpc : t.sys.pc ≠ .receive) :
    t.sys.q.call = none := by
  cases hc : t.sys.q.call with
  | none => rfl
  | some f => exact absurd (h.call f hc).1 hpc

/-- NIC の一歩。worker の位置も、消費の履歴も、途中の呼び出しも変わらない。 -/
theorem TargetInv.nic (h : TargetInv P t) (hpc : s'.pc = t.sys.pc)
    (hacc : s'.accepted = t.sys.accepted) (hcons : s'.q.consumed = t.sys.q.consumed)
    (hcall : s'.q.call = t.sys.q.call) :
    TargetInv P ⟨s', t.serving, t.stale, t.repliesAfter s'⟩ := by
  refine h.keep (postedSend_eq_none hacc) (by rw [hcons]; exact fun _ hx => hx) (fun f hf => ?_) ?_
  · rw [hpc, hcons]
    exact h.call f (hcall ▸ hf)
  · have hm := h.mid
    unfold ReplyTrace.Mid WorkerSystem.Arrived at hm ⊢
    simpa only [hpc, hcons] using hm

theorem TargetInv.poll (h : TargetInv P t) (hpc : t.sys.pc = .receive) {junk : Locals}
    (hs : t.sys.poll junk = some s') :
    TargetInv P ⟨s', t.serving, t.stale, t.repliesAfter s'⟩ := by
  cases hcall : t.sys.q.call with
  | none =>
    simp only [WorkerSystem.poll, hcall, cqStep, Option.map_some, Option.some.injEq] at hs
    subst hs
    refine h.keep (postedSend_eq_none rfl) (fun _ hx => hx) (fun f hf => ?_)
      (by simp only [ReplyTrace.Mid, hpc])
    rw [← Option.some.inj hf]
    exact ⟨hpc, CheckFrame.quiet_enter _ _, Or.inl (CheckFrame.inFlight_enter _ _)⟩
  | some f =>
    obtain ⟨-, hquiet, hlast⟩ := h.call f hcall
    simp only [WorkerSystem.poll, hcall, cqStep] at hs
    by_cases hdone : f.pc = .done
    · simp only [if_pos hdone, Option.map_some, Option.some.injEq] at hs
      subst hs
      refine h.keep (postedSend_eq_none rfl) (fun _ hx => hx) (fun _ hf => by cases hf) ?_
      simpa only [ReplyTrace.Mid, CheckFrame.inFlight, hdone] using hlast
    · simp only [if_neg hdone, Option.map_some, Option.some.injEq] at hs
      subst hs
      have hin := CheckFrame.inFlight_step t.sys.q.wq t.sys.q.cq hquiet hdone
      by_cases hadv : f.pc = .advance
      · -- 消費の一歩。最後に消費した entry がいま読んだ entry になる
        rw [if_pos hadv] at hin
        refine h.keep (postedSend_eq_none rfl) ?_ (fun f' hf' => ?_) trivial
        · simp only [CqSystem.advance, if_pos hadv]
          exact List.subset_append_left _ _
        · rw [← Option.some.inj hf']
          refine ⟨rfl, hquiet.step hdone, Or.inr ⟨f.rawCqe, ?_, hin⟩⟩
          simp only [CqSystem.advance, if_pos hadv, List.getLast?_append, List.getLast?_singleton,
            Option.some_or]
      · rw [if_neg hadv] at hin
        refine h.keep (postedSend_eq_none rfl) ?_ (fun f' hf' => ?_) trivial
        · simp only [CqSystem.advance, if_neg hadv]
          exact fun _ hx => hx
        · rw [← Option.some.inj hf']
          refine ⟨rfl, hquiet.step hdone, ?_⟩
          simp only [CqSystem.advance, if_neg hadv]
          rw [hin]
          exact hlast

theorem TargetInv.test (h : TargetInv P t) {ret : SuccessStruct} (hpc : t.sys.pc = .test ret) :
    let s' := { t.sys with
      pc := if ret.op ≠ rmcIncomingSend ∧ t.sys.clientDone = false then .receive
        else .checkDone ret }
    TargetInv P ⟨s', if ret.op = rmcIncomingSend then t.sys.q.consumed.getLast? else none, t.stale,
      t.repliesAfter s'⟩ := by
  have hcall := h.call_none (by rw [hpc]; simp)
  have hm := h.mid
  simp only [ReplyTrace.Mid, hpc] at hm
  refine h.keep (postedSend_eq_none rfl) (fun _ hx => hx)
    (fun f hf => absurd (hcall.symm.trans hf) (by simp)) ?_
  by_cases hback : ret.op ≠ rmcIncomingSend ∧ t.sys.clientDone = false
  · simp only [ReplyTrace.Mid, if_pos hback]
  · simp only [ReplyTrace.Mid, if_neg hback]
    intro e he
    by_cases hop : ret.op = rmcIncomingSend
    · rw [if_pos hop] at he
      obtain ⟨hmem, hsucc, htid⟩ := hm.tid hop he
      exact ⟨⟨hmem, hsucc⟩, htid⟩
    · rw [if_neg hop] at he
      cases he

theorem TargetInv.checkDone (h : TargetInv P t) {ret : SuccessStruct}
    (hpc : t.sys.pc = .checkDone ret) (rpc : RPCWithHeader) {stale : UInt64}
    (hstale : ∀ e, t.serving = some e → P e stale) :
    let s' := { t.sys with pc := .write rpc (writeSourceNodeId stale ret.tid).toUInt32 }
    TargetInv P ⟨s', t.serving, stale, t.repliesAfter s'⟩ := by
  have hcall := h.call_none (by rw [hpc]; simp)
  have hm := h.mid
  simp only [ReplyTrace.Mid, hpc] at hm
  refine h.keep (postedSend_eq_none rfl) (fun _ hx => hx)
    (fun f hf => absurd (hcall.symm.trans hf) (by simp)) ?_
  intro e he
  obtain ⟨harr, htid⟩ := hm e he
  exact ⟨harr, hstale e he, by rw [htid]⟩

/-- 受け付けられた SEND の descriptor は、宛先をそのまま持つ。 -/
theorem postedSend_of_not_valid (hv : (s.q.wq.q s.q.wq.head).valid = false) {c : UInt32}
    {d l n : UInt64} (hacc : s'.accepted = s.accepted ++ [.send c d l n])
    (hwq : s'.q.wq = ((Post.send c d l n).call s.q.wq).2) :
    postedSend s s' = some ((Post.send c d l n).entry s.q.wq.sr) := by
  have hentry : s'.q.wq.q s.q.wq.head = (Post.send c d l n).entry s.q.wq.sr := by
    rw [hwq, Post.call_of_not_valid hv]
    simp
  unfold postedSend
  rw [hentry, if_pos]
  exact ⟨by rw [hacc]; simp, rfl⟩

theorem TargetInv.spin (h : TargetInv P t) {rpc : RPCWithHeader} {destNode : UInt32}
    (hpc : t.sys.pc = .spin rpc destNode) :
    let p := sendPost w t.sys.nbTxTot destNode
    let s' := { t.sys.post p with
      pc := if (p.call t.sys.q.wq).1 ≠ 0 then .spin rpc destNode else .recv rpc }
    TargetInv P ⟨s', t.serving, t.stale, t.repliesAfter s'⟩ := by
  intro p s'
  have hcall := h.call_none (by rw [hpc]; simp)
  have hm := h.mid
  simp only [ReplyTrace.Mid, hpc] at hm
  have hnocall : ∀ f, s'.q.call = some f → s'.pc = .receive ∧ f.Quiet ∧
      LastArrived s'.q.consumed f.inFlight :=
    fun f hf => absurd (hcall.symm.trans hf) (by simp)
  cases hv : (t.sys.q.wq.q t.sys.q.wq.head).valid with
  | true =>
    have hs' : s' = { t.sys with pc := .spin rpc destNode } := by
      simp only [s', WorkerSystem.post_of_valid hv, Post.call_of_valid hv]
      rfl
    refine h.keep (postedSend_eq_none (by rw [hs'])) (by rw [hs']; exact fun _ hx => hx) hnocall ?_
    rw [hs']
    exact hm
  | false =>
    have hpc' : s'.pc = .recv rpc := by
      simp only [s', Post.call_of_not_valid hv]
      rfl
    have hpost : postedSend t.sys s' = some (p.entry t.sys.q.wq.sr) :=
      postedSend_of_not_valid hv (WorkerSystem.post_accepted_of_not_valid hv p) rfl
    refine ⟨hnocall, by simp only [ReplyTrace.Mid, hpc'], ?_⟩
    intro r hr
    simp only [ReplyTrace.repliesAfter, hpost] at hr
    cases hserving : t.serving with
    | none =>
      simp only [hserving] at hr
      exact (h.replies r hr).mono fun _ hx => hx
    | some e =>
      simp only [hserving] at hr
      rcases List.mem_append.mp hr with hold | hnew
      · exact (h.replies r hold).mono fun _ hx => hx
      · obtain ⟨harr, hstale, hdest⟩ := hm e hserving
        rw [List.mem_singleton.mp hnew]
        exact ⟨harr, hstale, rfl, by simp only [p, sendPost, Post.entry, hdest]⟩

theorem TargetInv.recv (h : TargetInv P t) {rpc : RPCWithHeader} (hpc : t.sys.pc = .recv rpc) :
    let s' := { t.sys.post (recvPost w rpc) with pc := .receive, nbTxTot := t.sys.nbTxTot + 1 }
    TargetInv P ⟨s', t.serving, t.stale, t.repliesAfter s'⟩ := by
  intro s'
  have hcall := h.call_none (by rw [hpc]; simp)
  refine h.keep ?_ (fun _ hx => hx) (fun f hf => absurd (hcall.symm.trans hf) (by simp)) trivial
  cases hv : (t.sys.q.wq.q t.sys.q.wq.head).valid with
  | true =>
    refine postedSend_eq_none ?_
    simp only [s', WorkerSystem.post_of_valid hv]
  | false =>
    have hentry : s'.q.wq.q t.sys.q.wq.head = (recvPost w rpc).entry t.sys.q.wq.sr := by
      simp only [s', WorkerSystem.post, Post.call_of_not_valid hv]
      simp
    unfold postedSend
    rw [hentry, if_neg]
    exact fun hx => absurd hx.2 (by decide : rmcRecv ≠ rmcSend)

theorem TargetInv.run (h : TargetInv P t) {junk : Locals} (hok : StaleBy P t (.run junk))
    (hs : t.sys.run w junk = some s') :
    TargetInv P ⟨s', t.servingAfter (.run junk), t.staleAfter (.run junk), t.repliesAfter s'⟩ := by
  cases hpc : t.sys.pc with
  | receive =>
    simp only [WorkerSystem.run, hpc] at hs
    simpa only [ReplyTrace.servingAfter, ReplyTrace.staleAfter, hpc] using h.poll hpc hs
  | test ret =>
    simp only [WorkerSystem.run, hpc, Option.some.injEq] at hs
    subst hs
    simpa only [ReplyTrace.servingAfter, ReplyTrace.staleAfter, hpc] using h.test hpc
  | checkDone ret =>
    simp only [WorkerSystem.run, hpc] at hs
    simp only [ReplyTrace.servingAfter, ReplyTrace.staleAfter, hpc]
    split at hs
    · rw [← Option.some.inj hs]
      have hcall := h.call_none (by rw [hpc]; simp)
      exact h.keep (postedSend_eq_none rfl) (fun _ hx => hx)
        (fun f hf => absurd (hcall.symm.trans hf) (by simp)) trivial
    · rw [← Option.some.inj hs]
      exact h.checkDone hpc _ fun e he => hok ret e hpc he
  | write rpc destNode =>
    simp only [WorkerSystem.run, hpc, Option.some.injEq] at hs
    subst hs
    simp only [ReplyTrace.servingAfter, ReplyTrace.staleAfter, hpc]
    have hcall := h.call_none (by rw [hpc]; simp)
    have hm := h.mid
    simp only [ReplyTrace.Mid, hpc] at hm
    exact h.keep (postedSend_eq_none rfl) (fun _ hx => hx)
      (fun f hf => absurd (hcall.symm.trans hf) (by simp)) hm
  | spin rpc destNode =>
    simp only [WorkerSystem.run, hpc, Option.some.injEq] at hs
    subst hs
    simpa only [ReplyTrace.servingAfter, ReplyTrace.staleAfter, hpc] using h.spin hpc
  | recv rpc =>
    simp only [WorkerSystem.run, hpc, Option.some.injEq] at hs
    subst hs
    simpa only [ReplyTrace.servingAfter, ReplyTrace.staleAfter, hpc] using h.recv hpc
  | exited => simp [WorkerSystem.run, hpc] at hs

theorem TargetInv.step (h : TargetInv P t) (hok : StaleBy P t a)
    (ht : traceStep w t a = some t') : TargetInv P t' := by
  obtain ⟨s', hs, rfl⟩ := Option.map_eq_some_iff.mp ht
  cases a with
  | push e =>
    obtain ⟨q, hq, rfl⟩ := Option.map_eq_some_iff.mp hs
    simp only [cqStep] at hq
    split at hq
    · rw [← Option.some.inj hq]
      exact h.nic rfl rfl rfl rfl
    · cases hq
  | complete i =>
    rw [← Option.some.inj hs]
    exact h.nic rfl rfl rfl rfl
  | setClientDone b =>
    rw [← Option.some.inj hs]
    exact h.nic rfl rfl rfl rfl
  | run junk => exact h.run hok hs

/-! ## 全体の定理 -/

/-- どの返信も、宛先が正しいのは前の内容の 16 から 31 bit 目が 0 のときに限る。 -/
theorem TargetInv.toAsker_iff (h : TargetInv P t) {r : Reply} (hr : r ∈ t.replies) :
    r.ToAsker ↔ ClearAbove r.completion r.stale := by
  obtain ⟨-, -, -, hnid⟩ := h.replies r hr
  unfold Reply.ToAsker ClearAbove
  refine forall_congr' fun htid => ?_
  rw [hnid]
  exact destNode_eq_iff htid

/-- 前の内容に条件を付けなければ、どの一歩も許される。 -/
theorem staleBy_true (t : ReplyTrace) (a : WorkerAction) : StaleBy (fun _ _ => True) t a := by
  cases a with
  | run junk => exact fun _ _ _ _ => trivial
  | push e | complete i | setClientDone b => trivial

/--
**返信の宛先が正しいのは、局所変数の前の内容の 16 から 31 bit 目が 0 のときに限る。**

どの実行でも、返信は消費した SEND の到着に応じて投入された `RMC_SEND` の descriptor である。

* どの iteration でも前の内容の 16 から 31 bit 目が 0 の実行では、どの返信も要求した node に届く
* 前の内容に制限の無い実行でも、返信ごとに、宛先が正しいことと前の内容の条件とは同じである
-/
theorem replies_toAsker (w : WorkerParams) (wq : RmcWq) (cq : RmcCq) (mem : UInt64 → UInt8) :
    (∀ t, Reaches (traceStep w) (StaleBy ClearAbove) (ReplyTrace.init wq cq mem) t →
      ∀ r ∈ t.replies, r.ToAsker) ∧
    (∀ t, Reaches (traceStep w) Always (ReplyTrace.init wq cq mem) t →
      ∀ r ∈ t.replies, t.sys.Arrived r.completion ∧ r.descriptor.op = rmcSend ∧
        (r.ToAsker ↔ ClearAbove r.completion r.stale)) := by
  constructor
  · intro t ht r hr
    have hinv : TargetInv ClearAbove t :=
      ht.invariant (targetInv_init wq cq mem) fun _ _ _ hu hok hs => hu.step hok hs
    exact (hinv.toAsker_iff hr).mpr (hinv.replies r hr).2.1
  · intro t ht r hr
    have hinv : TargetInv (fun _ _ => True) t :=
      ht.invariant (targetInv_init wq cq mem) fun u a _ hu _ hs => hu.step (staleBy_true u a) hs
    obtain ⟨harr, -, hop, -⟩ := hinv.replies r hr
    exact ⟨harr, hop, hinv.toAsker_iff hr⟩

/-- node 5 から届いた要求に応じるまで。局所変数の前の内容は `stale` である。 -/
def askRun (stale : UInt64) : List WorkerAction :=
  .push { sendEntry 4096 with tid := 5 } ::
    List.replicate 13 (.run { zeroLocals with sourceNodeId := stale })

/-- 前の内容が上位の 32 bit にだけあるなら、返信は node 5 に届く。 -/
theorem replies_toAsker_five :
    ∃ t, Reaches (traceStep exampleWorker) (StaleBy ClearAbove)
        (ReplyTrace.init { idleWq with head := 0 } (idleCq 0 false) fun _ => 0) t ∧
      t.replies.length = 1 ∧ ∀ r ∈ t.replies, r.completion.tid = 5 ∧ r.descriptor.nid = 5 := by
  have hclear : ∀ a ∈ askRun 0x700000000, ∀ u, StaleBy ClearAbove u a := by
    intro a ha u
    rcases List.mem_cons.mp ha with rfl | hrun
    · trivial
    · rw [List.eq_of_mem_replicate hrun]
      intro _ _ _ _ _
      decide
  have hrun := reaches_of_exec hclear (show exec (traceStep exampleWorker)
    (ReplyTrace.init { idleWq with head := 0 } (idleCq 0 false) fun _ => 0)
    (askRun 0x700000000) = some _ from rfl)
  refine ⟨_, hrun, rfl, fun r hr => ?_⟩
  have hnid := (replies_toAsker _ _ _ _).1 _ hrun r hr
  have htid : r.completion.tid = 5 := by
    rw [List.mem_singleton.mp hr]
    rfl
  refine ⟨htid, ?_⟩
  rw [hnid (by rw [htid]; decide), htid]
  rfl

/-- 前の内容の 16 bit 目が 1 なら、node 5 への返信は node 65541 に送られる。 -/
theorem replies_misdirected :
    ¬ ∀ t, Reaches (traceStep exampleWorker) Always
        (ReplyTrace.init { idleWq with head := 0 } (idleCq 0 false) fun _ => 0) t →
      ∀ r ∈ t.replies, r.completion.tid.toNat < 2 ^ 16 →
        r.descriptor.nid = r.completion.tid.toUInt64 := by
  intro h
  have hrun := reaches_of_exec (fun _ _ _ => trivial : ∀ a ∈ _, ∀ u, Always u a)
    (show exec (traceStep exampleWorker)
      (ReplyTrace.init { idleWq with head := 0 } (idleCq 0 false) fun _ => 0)
      (askRun 0x10000) = some _ from rfl)
  have hnid := h _ hrun _ (List.mem_singleton.mpr rfl) (by decide)
  exact absurd hnid (by decide)

end L3fwd.Rpc
