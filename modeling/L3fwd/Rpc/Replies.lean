import L3fwd.Rpc.Worker

/-!
# 返信と受信 buffer の返却

消費した SEND の到着ひとつにつき、SEND と RECV がちょうど一つずつ、この順に投入されるか。

`sendToNode_zsim` は断られた投入をやり直すが、`do_Recv_zsim` は `rmc_hw_recv` の
返り値を捨てる。WQ が埋まっているあいだに RECV を投入すると、受信 buffer は返らない。
`do_Recv_zsim` のたびに `head` の段が空いている実行では一つも欠けず、
欠けた実行は必ず空いていない段に RECV を投入している（`replies_right_iff`）。
-/

namespace L3fwd.Rpc

open Infra Nic

/-! ## 要求と返信 -/

/-- SEND の到着が渡す受信 buffer の番地。 -/
def request (e : CqEntry) : Option UInt64 := if e.success = 0x7F then some e.recvBufAddr else none

/-- 消費された SEND の到着の列。 -/
def WorkerSystem.requests (s : WorkerSystem) : List UInt64 := s.q.consumed.filterMap request

/-- 到着の列 `as` に、SEND と RECV が一つずつこの順に応じている。 -/
def Served : List UInt64 → List Post → Prop
  | [], [] => True
  | a :: as, .send _ _ _ _ :: .recv _ b _ :: ps => b = a ∧ Served as ps
  | _, _ => False

/--
終わった iteration の到着にはすべて応じている。
途中の iteration の到着は高々一つで、それには SEND だけが先に投入されうる。
-/
def WorkerSystem.RepliesRight (s : WorkerSystem) : Prop :=
  ∃ ps rest, s.accepted = ps ++ rest ∧ Served (s.requests.take s.nbTxTot) ps ∧
    s.nbTxTot ≤ s.requests.length ∧ s.requests.length ≤ s.nbTxTot + 1 ∧
    (rest = [] ∨ s.requests.length = s.nbTxTot + 1 ∧ ∃ c a l n, rest = [.send c a l n])

/-- `client_done` が false のままの実行の一歩。 -/
def servingStep (w : WorkerParams) (s : WorkerSystem) : WorkerAction → Option WorkerSystem
  | .setClientDone true => none
  | a => workerStep w s a

/-- `do_Recv_zsim` が投入するとき、`head` の段は空いている。 -/
def RecvRoom (s : WorkerSystem) : WorkerAction → Prop
  | .run _ => ∀ rpc, s.pc = .recv rpc → (s.q.wq.q s.q.wq.head).valid = false
  | _ => True

/-! ## 列の補題 -/

theorem Served.snoc {c c' : UInt32} {d l n l' b : UInt64} :
    ∀ {as : List UInt64} {ps : List Post}, Served as ps →
      Served (as ++ [b]) (ps ++ [.send c d l n, .recv c' b l'])
  | [], [], _ => ⟨rfl, trivial⟩
  | [], _ :: _, h => by simp [Served] at h
  | _ :: _, [], h => by simp [Served] at h
  | _ :: _, [.send .., .send ..], h => by simp [Served] at h
  | _ :: _, [.send ..], h => by simp [Served] at h
  | _ :: _, .recv .. :: _, h => by simp [Served] at h
  | _ :: _, .send .. :: .send .. :: _ :: _, h => by simp [Served] at h
  | _ :: _, .send .. :: .recv .. :: _, h => ⟨h.1, h.2.snoc⟩

theorem Served.length : ∀ {as : List UInt64} {ps : List Post}, Served as ps →
    ps.length = 2 * as.length
  | [], [], _ => rfl
  | [], _ :: _, h => by simp [Served] at h
  | _ :: _, [], h => by simp [Served] at h
  | _ :: _, [_], h => by simp [Served] at h
  | _ :: _, .recv .. :: _ :: _, h => by simp [Served] at h
  | _ :: _, .send .. :: .send .. :: _, h => by simp [Served] at h
  | _ :: as, .send .. :: .recv .. :: ps, h => by
    have := Served.length h.2
    simp only [List.length_cons, this]
    omega

/-- 返り値の到着のうち、SEND のもの。 -/
def requestOf (r : UInt32 × UInt32 × UInt64) : Option UInt64 :=
  if r.1 = rmcIncomingSend then some r.2.2 else none

theorem filterMap_requestOf_deliver (e : CqEntry) :
    e.deliver.toList.filterMap requestOf = (request e).toList := by
  have hne : rmcIncomingResp ≠ rmcIncomingSend := by decide
  unfold CqEntry.deliver request
  by_cases hs : e.success = 0x7F
  · simp [hs, requestOf]
  · by_cases hr : e.success = 1
    · simp [hr, requestOf, hne]
    · simp [hs, hr]

theorem filterMap_requestOf_incoming (r : SuccessStruct) :
    r.incoming.toList.filterMap requestOf
      = if r.op = rmcIncomingSend then [r.recvBufAddr] else [] := by
  unfold SuccessStruct.incoming
  by_cases hs : r.op = rmcIncomingSend
  · simp [hs, requestOf]
  · by_cases hr : r.op = rmcIncomingResp
    · have hne : rmcIncomingResp ≠ rmcIncomingSend := by decide
      simp [hr, requestOf, hne]
    · simp [hs, hr]

theorem CheckFrame.inFlight_length (f : CheckFrame) : f.inFlight.length ≤ 1 := by
  unfold CheckFrame.inFlight
  split
  · cases f.rawCqe.deliver <;> simp
  · cases f.ret.incoming <;> simp
  · simp

/-! ## 不変条件 -/

/-- 途中の iteration の到着 `extra` と、それに先に投入された `rest`。位置ごとに決まる。 -/
def WorkerSystem.Mid (s : WorkerSystem) (extra : List UInt64) (rest : List Post) : Prop :=
  match s.pc with
  | .receive => extra = s.q.inFlight.filterMap requestOf ∧ rest = []
  | .test ret => extra = ret.incoming.toList.filterMap requestOf ∧ rest = []
  | .checkDone ret => extra = [ret.recvBufAddr] ∧ rest = []
  | .write rpc _ => extra = [UInt64.ofNat rpc.payload] ∧ rest = []
  | .spin rpc _ => extra = [UInt64.ofNat rpc.payload] ∧ rest = []
  | .recv rpc => extra = [UInt64.ofNat rpc.payload] ∧ ∃ c a l n, rest = [.send c a l n]
  | .exited => extra.length ≤ 1 ∧ rest = []

/-- 呼び出しは `receive` の位置でだけ途中であり、要求と投入の履歴は iteration ごとに対応する。 -/
structure ReplyInv (s : WorkerSystem) : Prop where
  clientDone : s.clientDone = false
  call : ∀ f, s.q.call = some f → s.pc = .receive ∧ f.Quiet
  served : ∃ done extra ps rest, s.requests = done ++ extra ∧ s.accepted = ps ++ rest ∧
    done.length = s.nbTxTot ∧ Served done ps ∧ s.Mid extra rest

variable {w : WorkerParams} {s s' : WorkerSystem}

theorem replyInv_init (wq : RmcWq) (cq : RmcCq) (mem : UInt64 → UInt8) :
    ReplyInv (WorkerSystem.init wq cq mem) where
  clientDone := rfl
  call := fun f hf => absurd hf.symm (Option.some_ne_none f)
  served := ⟨[], [], [], [], rfl, rfl, rfl, trivial, rfl, rfl⟩

theorem WorkerSystem.Mid.extra_length {extra : List UInt64} {rest : List Post}
    (h : s.Mid extra rest) : extra.length ≤ 1 := by
  unfold WorkerSystem.Mid at h
  split at h
  · rw [h.1]
    refine (List.length_filterMap_le ..).trans ?_
    unfold CqSystem.inFlight
    split
    · simp
    · exact CheckFrame.inFlight_length _
  · rw [h.1, filterMap_requestOf_incoming]
    split <;> simp
  · simp [h.1]
  · simp [h.1]
  · simp [h.1]
  · simp [h.1]
  · exact h.1

theorem ReplyInv.repliesRight (h : ReplyInv s) : s.RepliesRight := by
  obtain ⟨done, extra, ps, rest, hreq, hacc, hlen, hserved, hmid⟩ := h.served
  have hextra := hmid.extra_length
  have hreqlen : s.requests.length = s.nbTxTot + extra.length := by
    rw [hreq, List.length_append, hlen]
  have htake : s.requests.take s.nbTxTot = done := by
    rw [hreq, ← hlen, List.take_left]
  refine ⟨ps, rest, hacc, htake ▸ hserved, by omega, by omega, ?_⟩
  unfold WorkerSystem.Mid at hmid
  split at hmid
  case h_6 =>
    refine Or.inr ⟨?_, hmid.2⟩
    rw [hreqlen, hmid.1, List.length_singleton]
  all_goals exact Or.inl hmid.2

/-! ## 一歩ごとの保存 -/

/-- 消費の履歴と途中の呼び出しに触れない変化。 -/
theorem ReplyInv.setQ (h : ReplyInv s) {q : CqSystem} (hcons : q.consumed = s.q.consumed)
    (hcall : q.call = s.q.call) : ReplyInv { s with q := q } := by
  obtain ⟨done, extra, ps, rest, hreq, hacc, hlen, hserved, hmid⟩ := h.served
  have hin : q.inFlight = s.q.inFlight := by rw [CqSystem.inFlight, CqSystem.inFlight, hcall]
  refine ⟨h.clientDone, fun f hf => h.call f (hcall ▸ hf), done, extra, ps, rest, ?_, hacc, hlen,
    hserved, ?_⟩
  · show q.consumed.filterMap request = done ++ extra
    rw [hcons]
    exact hreq
  · unfold WorkerSystem.Mid at hmid ⊢
    simpa only [hin] using hmid

theorem ReplyInv.poll (h : ReplyInv s) (hpc : s.pc = .receive) {junk : Locals}
    (hs : s.poll junk = some s') : ReplyInv s' := by
  obtain ⟨done, extra, ps, rest, hreq, hacc, hlen, hserved, hmid⟩ := h.served
  simp only [WorkerSystem.Mid, hpc] at hmid
  obtain ⟨hextra, hrest⟩ := hmid
  cases hcall : s.q.call with
  | none =>
    simp only [WorkerSystem.poll, hcall, cqStep, Option.map_some, Option.some.injEq] at hs
    subst hs
    refine ⟨h.clientDone, ?_, done, extra, ps, rest, hreq, hacc, hlen, hserved, ?_⟩
    · intro f hf
      exact ⟨hpc, (Option.some.inj hf) ▸ CheckFrame.quiet_enter _ _⟩
    · simp only [WorkerSystem.Mid, hpc]
      refine ⟨?_, hrest⟩
      rw [hextra]
      simp only [CqSystem.inFlight, hcall, CheckFrame.inFlight_enter]
  | some f =>
    have hquiet := (h.call f hcall).2
    simp only [CqSystem.inFlight, hcall] at hextra
    simp only [WorkerSystem.poll, hcall, cqStep] at hs
    by_cases hdone : f.pc = .done
    · -- 呼び出しが返った。まだ返していなかった到着が返り値にある
      simp only [if_pos hdone, Option.map_some, Option.some.injEq] at hs
      subst hs
      refine ⟨h.clientDone, fun _ hf => (by cases hf), done, extra, ps, rest, hreq, hacc, hlen,
        hserved, ?_⟩
      simp only [WorkerSystem.Mid]
      refine ⟨?_, hrest⟩
      rw [hextra, CheckFrame.inFlight, hdone]
    · simp only [if_neg hdone, Option.map_some, Option.some.injEq] at hs
      subst hs
      have hcall' : ∀ f', some (checkStep s.q.wq s.q.cq f).2 = some f' →
          WorkerPc.receive = .receive ∧ f'.Quiet := fun f' hf' =>
        ⟨rfl, (Option.some.inj hf') ▸ hquiet.step hdone⟩
      by_cases hadv : f.pc = .advance
      · -- 消費の一歩。新しい到着は、消費した entry が SEND のときだけ増える
        have hnil : extra = [] := by simp [hextra, CheckFrame.inFlight, hadv]
        refine ⟨h.clientDone, hcall', done, (request f.rawCqe).toList, ps, rest, ?_, hacc, hlen,
          hserved, ?_⟩
        · show ((if f.pc = .advance then s.q.consumed ++ [f.rawCqe] else s.q.consumed).filterMap
            request) = _
          rw [if_pos hadv, List.filterMap_append, ← WorkerSystem.requests, hreq, hnil,
            List.append_nil]
          cases hr : request f.rawCqe <;> simp [hr]
        · simp only [WorkerSystem.Mid]
          refine ⟨?_, hrest⟩
          show _ = (checkStep s.q.wq s.q.cq f).2.inFlight.filterMap requestOf
          rw [CheckFrame.inFlight_step _ _ hquiet hdone, if_pos hadv, filterMap_requestOf_deliver]
      · refine ⟨h.clientDone, hcall', done, extra, ps, rest, ?_, hacc, hlen, hserved, ?_⟩
        · show ((if f.pc = .advance then s.q.consumed ++ [f.rawCqe] else s.q.consumed).filterMap
            request) = _
          rw [if_neg hadv]
          exact hreq
        · simp only [WorkerSystem.Mid]
          refine ⟨?_, hrest⟩
          show _ = (checkStep s.q.wq s.q.cq f).2.inFlight.filterMap requestOf
          rw [CheckFrame.inFlight_step _ _ hquiet hdone, if_neg hadv, hextra]

/-- `receive` の外では、途中の呼び出しは無い。 -/
theorem ReplyInv.call_none (h : ReplyInv s) (hpc : s.pc ≠ .receive) : s.q.call = none := by
  cases hc : s.q.call with
  | none => rfl
  | some f => exact absurd (h.call f hc).1 hpc

/-- 呼び出しの外で `pc` だけが変わる一歩。 -/
theorem ReplyInv.setPc (h : ReplyInv s) (hcall : s.q.call = none) (pc : WorkerPc)
    (hmid : ∀ extra rest, s.Mid extra rest → ({ s with pc := pc } : WorkerSystem).Mid extra rest) :
    ReplyInv { s with pc := pc } := by
  obtain ⟨done, extra, ps, rest, hreq, hacc, hlen, hserved, hm⟩ := h.served
  refine ⟨h.clientDone, fun f hf => ?_, done, extra, ps, rest, hreq, hacc, hlen, hserved,
    hmid extra rest hm⟩
  rw [hcall] at hf
  cases hf

theorem ReplyInv.test (h : ReplyInv s) {ret : SuccessStruct} (hpc : s.pc = .test ret) :
    ReplyInv { s with
      pc := if ret.op ≠ rmcIncomingSend ∧ s.clientDone = false then .receive else .checkDone ret } := by
  have hcall := h.call_none (by rw [hpc]; nofun)
  refine h.setPc hcall _ fun extra rest hm => ?_
  simp only [WorkerSystem.Mid, hpc, filterMap_requestOf_incoming] at hm
  by_cases hop : ret.op = rmcIncomingSend
  · rw [if_pos hop] at hm
    simpa [WorkerSystem.Mid, hop] using hm
  · rw [if_neg hop] at hm
    simpa [WorkerSystem.Mid, hop, h.clientDone, CqSystem.inFlight, hcall] using hm

/-- `payload_len` の残りかすが 0xdead なら、到着を受け取ったままループを抜ける。 -/
theorem ReplyInv.exit (h : ReplyInv s) {ret : SuccessStruct} (hpc : s.pc = .checkDone ret) :
    ReplyInv { s with pc := .exited } := by
  refine h.setPc (h.call_none (by rw [hpc]; nofun)) _ fun extra rest hm => ?_
  simp only [WorkerSystem.Mid, hpc] at hm ⊢
  exact ⟨by rw [hm.1, List.length_singleton], hm.2⟩

theorem ReplyInv.checkDone (h : ReplyInv s) {ret : SuccessStruct} (hpc : s.pc = .checkDone ret)
    (junk : RPCWithHeader) (destNode : UInt32) :
    ReplyInv { s with pc := .write (receivedRpc s.clientDone junk ret) destNode } := by
  refine h.setPc (h.call_none (by rw [hpc]; nofun)) _ fun extra rest hm => ?_
  simp only [WorkerSystem.Mid, hpc] at hm ⊢
  refine ⟨?_, hm.2⟩
  rw [hm.1, receivedRpc, h.clientDone, if_neg (by decide)]
  exact congrArg (fun a => [a]) UInt64.ofNat_toNat.symm

theorem ReplyInv.spin (h : ReplyInv s) {rpc : RPCWithHeader} {destNode : UInt32}
    (hpc : s.pc = .spin rpc destNode) {p : Post} (hp : ∃ c a l n, p = .send c a l n) :
    ReplyInv { s.post p with
      pc := if (p.call s.q.wq).1 ≠ 0 then .spin rpc destNode else .recv rpc } := by
  have hcall := h.call_none (by rw [hpc]; nofun)
  cases hv : (s.q.wq.q s.q.wq.head).valid with
  | true =>
    rw [WorkerSystem.post_of_valid hv, Post.call_of_valid hv]
    refine h.setPc hcall _ fun extra rest hm => ?_
    simpa [WorkerSystem.Mid, hpc] using hm
  | false =>
    obtain ⟨done, extra, ps, rest, hreq, hacc, hlen, hserved, hm⟩ := h.served
    simp only [WorkerSystem.Mid, hpc] at hm
    refine ⟨h.clientDone, fun f hf => ?_, done, extra, ps, [p], hreq, ?_, hlen, hserved, ?_⟩
    · have hf' : s.q.call = some f := hf
      rw [hcall] at hf'
      cases hf'
    · show (s.post p).accepted = ps ++ [p]
      rw [WorkerSystem.post_accepted_of_not_valid hv, hacc, hm.2, List.append_nil]
    · obtain ⟨c, a, l, n, rfl⟩ := hp
      simp [WorkerSystem.Mid, Post.call_of_not_valid hv, hm.1]

theorem ReplyInv.recv (h : ReplyInv s) {rpc : RPCWithHeader} (hpc : s.pc = .recv rpc)
    (hv : (s.q.wq.q s.q.wq.head).valid = false) :
    ReplyInv { s.post (recvPost w rpc) with pc := .receive, nbTxTot := s.nbTxTot + 1 } := by
  have hcall := h.call_none (by rw [hpc]; nofun)
  obtain ⟨done, extra, ps, rest, hreq, hacc, hlen, hserved, hm⟩ := h.served
  simp only [WorkerSystem.Mid, hpc] at hm
  obtain ⟨hextra, c, a, l, n, hrest⟩ := hm
  refine ⟨h.clientDone, fun f hf => ?_, done ++ [UInt64.ofNat rpc.payload], [],
    ps ++ [.send c a l n, recvPost w rpc], [], ?_, ?_, ?_, hserved.snoc, ?_⟩
  · have hf' : s.q.call = some f := hf
    rw [hcall] at hf'
    cases hf'
  · show s.requests = _
    rw [hreq, hextra, List.append_nil]
  · show (s.post (recvPost w rpc)).accepted = _
    rw [WorkerSystem.post_accepted_of_not_valid hv, hacc, hrest]
    simp
  · simp [hlen]
  · simp [WorkerSystem.Mid, CqSystem.inFlight, hcall]

theorem ReplyInv.run (h : ReplyInv s) {junk : Locals} (hok : RecvRoom s (.run junk))
    (hs : s.run w junk = some s') : ReplyInv s' := by
  cases hpc : s.pc with
  | receive =>
    simp only [WorkerSystem.run, hpc] at hs
    exact h.poll hpc hs
  | test ret =>
    simp only [WorkerSystem.run, hpc, Option.some.injEq] at hs
    exact hs ▸ h.test hpc
  | checkDone ret =>
    simp only [WorkerSystem.run, hpc] at hs
    split at hs
    · exact (Option.some.inj hs) ▸ h.exit hpc
    · exact (Option.some.inj hs) ▸ h.checkDone hpc _ _
  | write rpc destNode =>
    simp only [WorkerSystem.run, hpc, Option.some.injEq] at hs
    have hset := h.setPc (h.call_none (by rw [hpc]; nofun)) (.spin rpc destNode)
      fun extra rest hm => by simpa [WorkerSystem.Mid, hpc] using hm
    exact hs ▸ ⟨hset.clientDone, hset.call, hset.served⟩
  | spin rpc destNode =>
    simp only [WorkerSystem.run, hpc, Option.some.injEq] at hs
    exact hs ▸ h.spin hpc ⟨_, _, _, _, rfl⟩
  | recv rpc =>
    simp only [WorkerSystem.run, hpc, Option.some.injEq] at hs
    exact hs ▸ h.recv hpc (hok rpc hpc)
  | exited => simp [WorkerSystem.run, hpc] at hs

/-- 実行でできることは、`client_done` を立てないこと以外は `workerStep` と同じである。 -/
theorem servingStep_eq {a : WorkerAction} (hs : servingStep w s a = some s') :
    a ≠ .setClientDone true ∧ workerStep w s a = some s' := by
  unfold servingStep at hs
  split at hs
  · cases hs
  · next h => exact ⟨h, hs⟩

theorem ReplyInv.step (h : ReplyInv s) {a : WorkerAction} (hok : RecvRoom s a)
    (hs : servingStep w s a = some s') : ReplyInv s' := by
  obtain ⟨hne, hs⟩ := servingStep_eq hs
  cases a with
  | push e =>
    simp only [workerStep, cqStep] at hs
    split at hs
    · exact (Option.some.inj hs) ▸ h.setQ rfl rfl
    · cases hs
  | complete i =>
    rw [workerStep, Option.some.injEq] at hs
    exact hs ▸ h.setQ rfl rfl
  | setClientDone b =>
    cases b with
    | true => exact absurd rfl hne
    | false =>
      rw [workerStep, Option.some.injEq, ← h.clientDone] at hs
      exact hs ▸ h
  | run junk => exact h.run hok hs

/-! ## 条件を破る一歩 -/

/-- **断られた RECV の直後には、応じていない到着が残る。** -/
theorem ReplyInv.exact (h : ReplyInv s) {a : WorkerAction} (hs : servingStep w s a = some s')
    (hright : s'.RepliesRight) : RecvRoom s a := by
  obtain ⟨-, hs⟩ := servingStep_eq hs
  cases a with
  | push e => trivial
  | complete i => trivial
  | setClientDone b => trivial
  | run junk =>
    intro rpc hpc
    by_contra hv
    rw [Bool.not_eq_false] at hv
    simp only [workerStep, WorkerSystem.run, hpc, Option.some.injEq,
      WorkerSystem.post_of_valid hv] at hs
    subst hs
    obtain ⟨done, extra, ps, rest, hreq, hacc, hlen, hserved, hm⟩ := h.served
    simp only [WorkerSystem.Mid, hpc] at hm
    obtain ⟨-, c, a, l, n, hrest⟩ := hm
    obtain ⟨ps', rest', hacc', hserved', hle, -, -⟩ := hright
    -- 受け付けられた投入は `2 * nb_tx_tot + 1` 個だが、応じたはずの到着はその倍数に合わない
    have hcount : s.accepted.length = 2 * s.nbTxTot + 1 := by
      rw [hacc, hrest, List.length_append, List.length_singleton, hserved.length, hlen]
    have hcount' := hserved'.length
    rw [List.length_take, Nat.min_eq_left hle] at hcount'
    have hacclen : s.accepted.length = ps'.length + rest'.length := by
      rw [show s.accepted = ps' ++ rest' from hacc', List.length_append]
    simp only at hcount'
    omega

/-! ## 全体の定理 -/

/--
**要求ひとつに返信ひとつ、受信 buffer の返却ひとつ。**

`client_done` が false のままの実行で、どの状態でも要求と投入が対応することと、
どの `do_Recv_zsim` も空いている段に投入することとは同じである。
-/
theorem replies_right_iff (w : WorkerParams) (wq : RmcWq) (cq : RmcCq) (mem : UInt64 → UInt8)
    (as : List WorkerAction) :
    Throughout (servingStep w) WorkerSystem.RepliesRight (WorkerSystem.init wq cq mem) as ↔
      Along (servingStep w) RecvRoom (WorkerSystem.init wq cq mem) as :=
  throughout_iff_along (fun _ hu => hu.repliesRight) (fun _ _ _ hu hok hs => hu.step hok hs)
    (fun _ _ _ hu hs hright => hu.exact hs hright) (replyInv_init wq cq mem)

/-- NIC が遅れ、64 個の要求のあいだ一つも処理せず、65 番目の途中で一つだけ処理する実行。 -/
def laggingRun : List WorkerAction :=
  (List.range 64).flatMap serveRun ++ .complete 0 :: serveRun 64

/-- 遅れた NIC のもとでは、65 番目の要求の RECV が失われる。 -/
theorem recv_dropped :
    (∃ s, exec (servingStep exampleWorker) exampleStart laggingRun = some s ∧
      s.nbTxTot = 65 ∧ s.requests.length = 65 ∧ s.accepted.length = 129) ∧
    ¬ Throughout (servingStep exampleWorker) WorkerSystem.RepliesRight exampleStart laggingRun := by
  have hrun : ((exec (servingStep exampleWorker) exampleStart laggingRun).any fun s =>
      s.nbTxTot == 65 && s.requests.length == 65 && s.accepted.length == 129) = true := by
    decide +kernel
  obtain ⟨s, hs, hcount⟩ := (Option.any_eq_true _ _).mp hrun
  simp only [Bool.and_eq_true, beq_iff_eq] at hcount
  obtain ⟨⟨hn, hreq⟩, hacc⟩ := hcount
  refine ⟨⟨s, hs, hn, hreq, hacc⟩, fun h => ?_⟩
  obtain ⟨ps, rest, hsplit, hserved, hle, -, -⟩ := h.last hs
  have hps := hserved.length
  rw [List.length_take, Nat.min_eq_left hle, hn] at hps
  rw [hsplit, List.length_append, hps] at hacc
  omega

end L3fwd.Rpc
