import L3fwd.Rpc.Worker

/-!
# 返信 buffer の上書き

`sendToNode_zsim` は、WQ に空きがあるかを調べる前に local buffer へ書く。
NIC がまだ読みうる entry の範囲を上書きしないことは、queue の段数と buffer の段数の関係による。

* 段の上書きは valid が落ちてからなので、valid な段にあるのは直前の 128 個の投入のどれかである
  （`WqWindow`）。NIC がどの順に valid を落としてもよい
* したがって valid な SEND は、いま書く返信より 1 以上 128 以下だけ前の返信である
* 返信の段は 256 個の周期で回るので、両者の段は異なる。`nb_tx_tot` が 2^32 を越えて
  切り詰められても、256 は 2^32 を割り切るので周期は崩れない

段の番地は `uint32_t *` への足し算で決まるので、256 段ぜんぶは登録した大きさに収まらない
（`sendsInside_iff`）。
-/

namespace L3fwd.Rpc

open Infra Nic

/-! ## 直前の 128 個の投入 -/

/-- valid な段には、直前の 128 個の投入のうち、その段に来たものが書かれたまま残っている。 -/
structure WqWindow (c : Cursor maxNumWq) (wq : RmcWq) (accepted : List Post) : Prop where
  head : wq.cursor = c.after accepted.length
  window : ∀ i, (wq.q i).valid = true → ∃ j, ∃ hj : j < accepted.length,
    accepted.length ≤ j + maxNumWq ∧ (c.after j).idx = i ∧ ∃ sr, wq.q i = (accepted[j]).entry sr

variable {c : Cursor maxNumWq} {wq : RmcWq} {accepted : List Post}

theorem wqWindow_init (h : ∀ i, (wq.q i).valid = false) : WqWindow wq.cursor wq [] where
  head := by simp
  window := fun i hi => by
    rw [h i] at hi
    cases hi

/-- NIC はどの段の valid を落としてもよい。 -/
theorem WqWindow.complete (h : WqWindow c wq accepted) (i : Fin maxNumWq) :
    WqWindow c (clearWqValid wq i) accepted where
  head := h.head
  window := fun j hj => by
    by_cases he : j = i
    · subst he
      simp [clearWqValid] at hj
    · have hq : (clearWqValid wq i).q j = wq.q j := Function.update_of_ne he _ _
      rw [hq] at hj ⊢
      exact h.window j hj

/-- 受け付けられた投入は `head` の段に入る。ちょうど 128 個前の投入はその段にあったので、もう無い。 -/
theorem WqWindow.accept (h : WqWindow c wq accepted) (hv : (wq.q wq.head).valid = false)
    (p : Post) : WqWindow c (p.call wq).2 (accepted ++ [p]) := by
  have hhead : wq.head = (c.after accepted.length).idx := congrArg Cursor.idx h.head
  rw [Post.call_of_not_valid hv]
  refine ⟨?_, fun i hi => ?_⟩
  · rw [RmcWq.advanceHead_cursor, List.length_append, List.length_singleton, Cursor.after_succ,
      ← h.head]
    rfl
  · simp only [RmcWq.advanceHead_q] at hi ⊢
    by_cases he : i = wq.head
    · refine ⟨accepted.length, by simp, by simp, ?_, wq.sr, ?_⟩
      · rw [he, hhead]
      · rw [he, Function.update_self]
        simp
    · rw [Function.update_of_ne he] at hi ⊢
      obtain ⟨j, hj, hwin, hidx, sr, hq⟩ := h.window i hi
      refine ⟨j, by simp; omega, ?_, hidx, sr, by rw [hq, List.getElem_append_left hj]⟩
      have hne : accepted.length ≠ j + maxNumWq := by
        intro hlap
        refine he ?_
        rw [← hidx, hhead, hlap, Cursor.after_add_lap]
      simp only [List.length_append, List.length_singleton]
      omega

/-! ## 送信の通し番号 -/

/-- 投入のうち SEND の番地と byte 数。 -/
def sendOf : Post → Option (UInt64 × UInt64)
  | .send _ dataAddress length _ => some (dataAddress, length)
  | .recv _ _ _ => none

/-- `m` 番目の返信の番地と byte 数。 -/
def replyAt (w : WorkerParams) (m : Nat) : UInt64 × UInt64 :=
  (netBufferVaddr w.ctx w.buf (UInt32.ofNat m), (w.reply m).size)

/-- これまでに受け付けられた SEND の数。 -/
def WorkerSystem.sentCount (s : WorkerSystem) : Nat :=
  match s.pc with
  | .recv _ => s.nbTxTot + 1
  | _ => s.nbTxTot

theorem WorkerSystem.sentCount_of_ne {s : WorkerSystem} (h : ∀ rpc, s.pc ≠ .recv rpc) :
    s.sentCount = s.nbTxTot := by
  unfold sentCount
  split
  · next rpc hpc => exact absurd hpc (h rpc)
  · rfl

/-- worker の実行で保たれること。SEND は返信の番号の順に受け付けられている。 -/
structure BufInv (w : WorkerParams) (c : Cursor maxNumWq) (s : WorkerSystem) : Prop where
  window : WqWindow c s.q.wq s.accepted
  sends : s.accepted.filterMap sendOf = (List.range s.sentCount).map (replyAt w)

variable {w : WorkerParams} {s s' : WorkerSystem}

theorem bufInv_init {cq : RmcCq} {mem : UInt64 → UInt8} (h : ∀ i, (wq.q i).valid = false) :
    BufInv w wq.cursor (WorkerSystem.init wq cq mem) where
  window := wqWindow_init h
  sends := rfl

/-- 投入と返信の数に触れない一歩。 -/
theorem BufInv.congr (h : BufInv w c s) (hwq : s'.q.wq = s.q.wq) (hacc : s'.accepted = s.accepted)
    (hsent : s'.sentCount = s.sentCount) : BufInv w c s' where
  window := by
    rw [hwq, hacc]
    exact h.window
  sends := by
    rw [hacc, hsent]
    exact h.sends

/-- 受け付けられた投入のあと。番号は SEND のときだけ進む。 -/
theorem BufInv.accept (h : BufInv w c s) (hv : (s.q.wq.q s.q.wq.head).valid = false) {p : Post}
    (hwq : s'.q.wq = (p.call s.q.wq).2) (hacc : s'.accepted = s.accepted ++ [p])
    (hsent : (List.range s'.sentCount).map (replyAt w)
      = (List.range s.sentCount).map (replyAt w) ++ (sendOf p).toList) : BufInv w c s' where
  window := by
    rw [hwq, hacc]
    exact h.window.accept hv p
  sends := by
    rw [hacc, hsent, List.filterMap_append, h.sends]
    cases hp : sendOf p <;> simp [hp]

theorem BufInv.spin (h : BufInv w c s) {rpc : RPCWithHeader} {destNode : UInt32}
    (hpc : s.pc = .spin rpc destNode) :
    let p := sendPost w s.nbTxTot destNode
    BufInv w c { s.post p with
      pc := if (p.call s.q.wq).1 ≠ 0 then .spin rpc destNode else .recv rpc } := by
  intro p
  cases hv : (s.q.wq.q s.q.wq.head).valid with
  | true =>
    rw [WorkerSystem.post_of_valid hv, Post.call_of_valid hv]
    exact h.congr rfl rfl (by simp [WorkerSystem.sentCount, hpc])
  | false =>
    refine h.accept hv rfl (WorkerSystem.post_accepted_of_not_valid hv p) ?_
    simp [WorkerSystem.sentCount, hpc, Post.call_of_not_valid hv, List.range_succ, p, sendPost,
      sendOf, replyAt]

theorem BufInv.recv (h : BufInv w c s) {rpc : RPCWithHeader} (hpc : s.pc = .recv rpc) :
    BufInv w c { s.post (recvPost w rpc) with pc := .receive, nbTxTot := s.nbTxTot + 1 } := by
  cases hv : (s.q.wq.q s.q.wq.head).valid with
  | true =>
    rw [WorkerSystem.post_of_valid hv]
    exact h.congr rfl rfl (by simp [WorkerSystem.sentCount, hpc])
  | false =>
    refine h.accept hv rfl (WorkerSystem.post_accepted_of_not_valid hv _) ?_
    simp [WorkerSystem.sentCount, hpc, recvPost, sendOf]

theorem WorkerSystem.poll_wq {junk : Locals} (hs : s.poll junk = some s') :
    s'.q.wq = s.q.wq ∧ s'.accepted = s.accepted ∧ s'.nbTxTot = s.nbTxTot ∧
      ∀ rpc, s'.pc ≠ .recv rpc ∨ s'.pc = s.pc := by
  unfold WorkerSystem.poll at hs
  split at hs
  · obtain ⟨q, hq, rfl⟩ := Option.map_eq_some_iff.mp hs
    exact ⟨cqStep_wq hq (by simp), rfl, rfl, fun _ => Or.inr rfl⟩
  · obtain ⟨q, hq, rfl⟩ := Option.map_eq_some_iff.mp hs
    refine ⟨cqStep_wq hq (by simp), rfl, rfl, fun _ => Or.inl ?_⟩
    dsimp only
    split <;> simp

theorem BufInv.step (h : BufInv w c s) {a : WorkerAction} (hs : workerStep w s a = some s') :
    BufInv w c s' := by
  cases a with
  | push e =>
    obtain ⟨q, hq, rfl⟩ := Option.map_eq_some_iff.mp hs
    exact h.congr (cqStep_wq hq (by simp)) rfl rfl
  | complete i =>
    rw [workerStep, Option.some.injEq] at hs
    subst hs
    exact ⟨h.window.complete i, h.sends⟩
  | setClientDone b =>
    rw [workerStep, Option.some.injEq] at hs
    exact hs ▸ h.congr rfl rfl rfl
  | run junk =>
    have hs : s.run w junk = some s' := hs
    cases hpc : s.pc with
    | receive =>
      simp only [WorkerSystem.run, hpc] at hs
      obtain ⟨hwq, hacc, hn, hnot⟩ := WorkerSystem.poll_wq hs
      refine h.congr hwq hacc ?_
      have hne : ∀ rpc, s'.pc ≠ .recv rpc := fun rpc => by
        rcases hnot rpc with hx | hx
        · exact hx
        · rw [hx, hpc]
          nofun
      rw [WorkerSystem.sentCount_of_ne hne, hn, WorkerSystem.sentCount_of_ne (by simp [hpc])]
    | test ret =>
      simp only [WorkerSystem.run, hpc, Option.some.injEq] at hs
      subst hs
      refine h.congr rfl rfl ?_
      rw [WorkerSystem.sentCount_of_ne, WorkerSystem.sentCount_of_ne (by simp [hpc])]
      intro rpc
      dsimp only
      split <;> simp
    | checkDone ret =>
      simp only [WorkerSystem.run, hpc] at hs
      split at hs <;> exact (Option.some.inj hs) ▸ h.congr rfl rfl
        (by simp [WorkerSystem.sentCount, hpc])
    | write rpc destNode =>
      simp only [WorkerSystem.run, hpc, Option.some.injEq] at hs
      exact hs ▸ h.congr rfl rfl (by simp [WorkerSystem.sentCount, hpc])
    | spin rpc destNode =>
      simp only [WorkerSystem.run, hpc, Option.some.injEq] at hs
      exact hs ▸ h.spin hpc
    | recv rpc =>
      simp only [WorkerSystem.run, hpc, Option.some.injEq] at hs
      exact hs ▸ h.recv hpc
    | exited => simp [WorkerSystem.run, hpc] at hs

/-! ## 段の番号 -/

/-- **valid な SEND は、直前の 128 回のどれかの返信である。** -/
theorem BufInv.valid_send (h : BufInv w c s) {i : Fin maxNumWq}
    (hv : (s.q.wq.q i).valid = true) (hop : (s.q.wq.q i).op = rmcSend) :
    ∃ m, m < s.sentCount ∧ s.sentCount ≤ m + maxNumWq ∧
      (s.q.wq.q i).bufAddr = (replyAt w m).1 ∧
      (s.q.wq.q i).length = ((replyAt w m).2 + (cacheBlockSize - 1)) >>> cacheBlockBits := by
  obtain ⟨j, hj, hwin, -, sr, hq⟩ := h.window.window i hv
  -- 投入の列を `j` 番目で分け、その前後の SEND を数える
  have hsplit : s.accepted = s.accepted.take j ++ s.accepted[j] :: s.accepted.drop (j + 1) := by
    rw [← List.drop_eq_getElem_cons hj, List.take_append_drop]
  cases hp : s.accepted[j] with
  | recv ctxId recvBuf length =>
    rw [hq, hp] at hop
    exact absurd hop (by decide : rmcRecv ≠ rmcSend)
  | send ctxId dataAddress length nid =>
    have hsends := h.sends
    rw [hsplit, hp, List.filterMap_append, List.filterMap_cons_some
      (show sendOf (.send ctxId dataAddress length nid) = some (dataAddress, length) from rfl)]
      at hsends
    have hcount := congrArg List.length hsends
    simp only [List.length_append, List.length_cons, List.length_map, List.length_range] at hcount
    have hafter : ((s.accepted.drop (j + 1)).filterMap sendOf).length
        ≤ s.accepted.length - (j + 1) := by
      refine (List.length_filterMap_le ..).trans ?_
      rw [List.length_drop]
    have hm : ((s.accepted.take j).filterMap sendOf).length < s.sentCount := by omega
    have hat := congrArg (fun l => l[((s.accepted.take j).filterMap sendOf).length]?) hsends
    simp only [List.getElem?_append_right (Nat.le_refl _), Nat.sub_self, List.getElem?_cons_zero,
      List.getElem?_map, List.getElem?_range hm, Option.map_some, Option.some.injEq] at hat
    refine ⟨_, hm, by omega, ?_, ?_⟩
    · rw [hq, hp, ← hat]
      rfl
    · rw [hq, hp, ← hat]
      rfl

/-! ## 番地 -/

/-- 2^31 未満の offset は、`int` を通しても変わらない。 -/
theorem offset_through_int {x : UInt64} (h : x.toNat < 2 ^ 31) :
    x.toUInt32.toInt32.toInt64.toUInt64 = x := by
  have hx : x.toBitVec.toNat < 2 ^ 31 := h
  have hb : x.toUInt32.toInt32.toInt64.toUInt64.toBitVec
      = (x.toBitVec.setWidth 32).signExtend 64 := rfl
  have hmsb : (x.toBitVec.setWidth 32).msb = false := by
    rw [BitVec.msb_eq_false_iff_two_mul_lt, BitVec.toNat_setWidth]
    omega
  refine UInt64.toBitVec_inj.mp ?_
  rw [hb, BitVec.signExtend_eq_setWidth_of_msb_false hmsb]
  refine BitVec.eq_of_toNat_eq ?_
  rw [BitVec.toNat_setWidth, BitVec.toNat_setWidth]
  omega

/-- **`createRPCNUMAContext` の設定では、`k` 番目の返信は 2048 byte 刻みの `k % 256` 番目にある。** -/
theorem netBufferVaddr_eq (buf : NIExposedBuffer) (k : Nat) :
    netBufferVaddr createRPCNUMAContext buf (UInt32.ofNat k)
      = buf.underlyingBuffer + UInt64.ofNat (2048 * (k % 256)) := by
  have hoff : ((UInt32.ofNat k).toUInt64 % msgsPerPair * rpcMaxPayload).toNat = k % 256 * 512 := by
    simp only [msgsPerPair, rpcMaxPayload, UInt64.toNat_mul, UInt64.toNat_mod,
      UInt32.toNat_toUInt64, UInt32.toNat_ofNat', UInt64.reduceToNat]
    omega
  show buf.underlyingBuffer + 4 * ((UInt32.ofNat k).toUInt64 % msgsPerPair * rpcMaxPayload
    ).toUInt32.toInt32.toInt64.toUInt64 = _
  rw [offset_through_int (by rw [hoff]; omega)]
  congr 1
  refine UInt64.toNat_inj.mp ?_
  rw [UInt64.toNat_mul, hoff, UInt64.toNat_ofNat']
  simp only [UInt64.reduceToNat]
  omega

/-- 段 `t` の範囲にある番地は、base から `2048 * t` byte より先にある。2^64 で折り返していてもよい。 -/
theorem offset_of_inRange {base a : UInt64} {t l : Nat} (ht : t < 256) (hl : l ≤ 512)
    (h : InRange (base + UInt64.ofNat (2048 * t)) l a) :
    ∃ x, x < l ∧ (a - base).toNat = 2048 * t + x := by
  have hlt : (a - (base + UInt64.ofNat (2048 * t))).toNat < l := h
  have hsum : a - base = (a - (base + UInt64.ofNat (2048 * t))) + UInt64.ofNat (2048 * t) := by
    have hbase := base.toNat_lt
    refine UInt64.toNat_inj.mp ?_
    simp only [UInt64.toNat_sub, UInt64.toNat_add]
    omega
  have hval : (UInt64.ofNat (2048 * t)).toNat = 2048 * t := by
    rw [UInt64.toNat_ofNat']
    omega
  refine ⟨_, hlt, ?_⟩
  rw [hsum, UInt64.toNat_add, hval]
  omega

/-- 段が異なれば、512 byte までの範囲は重ならない。 -/
theorem slot_disjoint {base a : UInt64} {i j l l' : Nat} (hi : i < 256) (hj : j < 256)
    (hne : i ≠ j) (hl : l ≤ 512) (hl' : l' ≤ 512)
    (h : InRange (base + UInt64.ofNat (2048 * i)) l a) :
    ¬ InRange (base + UInt64.ofNat (2048 * j)) l' a := by
  intro h'
  obtain ⟨x, hx, hbase⟩ := offset_of_inRange hi hl h
  obtain ⟨y, hy, hbase'⟩ := offset_of_inRange hj hl' h'
  omega

/-! ## 全体の定理 -/

theorem Message.writtenLen_le {m : Message} (h : m.size.toNat ≤ rpcMaxPayload.toNat) :
    m.writtenLen ≤ 512 := by
  have h512 : rpcMaxPayload.toNat = 512 := rfl
  unfold writtenLen
  split <;> omega

/-- 書く直前の状態では、valid な SEND の範囲はどれも書く範囲と重ならない。 -/
theorem BufInv.disjoint (h : BufInv w c s) (hctx : w.ctx = createRPCNUMAContext)
    (hsize : ∀ k, (w.reply k).size.toNat ≤ rpcMaxPayload.toNat) {rpc : RPCWithHeader}
    {destNode : UInt32} (hpc : s.pc = .write rpc destNode) {i : Fin maxNumWq}
    (hv : (s.q.wq.q i).valid = true) (hop : (s.q.wq.q i).op = rmcSend) :
    ∃ m, m < s.nbTxTot ∧ (s.q.wq.q i).bufAddr = (replyAt w m).1 ∧
      (w.reply m).size.toNat ≤ 64 * (s.q.wq.q i).length.toNat ∧
      ∀ a, InRange (replyAt w s.nbTxTot).1 (w.reply s.nbTxTot).writtenLen a →
        ¬ InRange (s.q.wq.q i).bufAddr (64 * (s.q.wq.q i).length.toNat) a := by
  obtain ⟨m, hm, hwin, haddr, hlen⟩ := h.valid_send hv hop
  rw [WorkerSystem.sentCount_of_ne (by simp [hpc])] at hm hwin
  have h512 : rpcMaxPayload.toNat = 512 := rfl
  have h128 : maxNumWq = 128 := rfl
  have hmsize := hsize m
  have hblocks : (s.q.wq.q i).length.toNat = ((w.reply m).size.toNat + 63) / 64 := by
    rw [hlen]
    exact sendBlocks_toNat (show (w.reply m).size.toNat ≤ 2 ^ 64 - 64 by omega)
  refine ⟨m, hm, haddr, by omega, fun a ha => ?_⟩
  rw [haddr]
  simp only [replyAt, hctx, netBufferVaddr_eq] at ha ⊢
  exact slot_disjoint (by omega) (by omega) (by omega) (Message.writtenLen_le (hsize _))
    (by omega) ha

/-- 返信を書く一歩。 -/
theorem WorkerSystem.run_write {rpc : RPCWithHeader} {destNode : UInt32}
    (hpc : s.pc = .write rpc destNode) (junk : Locals) :
    s.run w junk = some { s with
      mem := writeRange s.mem (replyAt w s.nbTxTot).1 (w.reply s.nbTxTot).writtenLen
        (w.reply s.nbTxTot).writtenByte
      pc := .spin rpc destNode } := by
  simp only [WorkerSystem.run, hpc]
  rfl

/-- local buffer の memory が変わるのは `sendToNode_zsim` の書き込みだけである。 -/
theorem workerStep_mem {a : WorkerAction} (hs : workerStep w s a = some s') :
    s'.mem = s.mem ∨ ∃ rpc destNode, s.pc = .write rpc destNode ∧
      s'.mem = writeRange s.mem (replyAt w s.nbTxTot).1 (w.reply s.nbTxTot).writtenLen
        (w.reply s.nbTxTot).writtenByte := by
  cases a with
  | push e =>
    obtain ⟨q, -, rfl⟩ := Option.map_eq_some_iff.mp hs
    exact Or.inl rfl
  | complete i => exact Or.inl ((Option.some.inj hs) ▸ rfl)
  | setClientDone b => exact Or.inl ((Option.some.inj hs) ▸ rfl)
  | run junk =>
    have hs : s.run w junk = some s' := hs
    cases hpc : s.pc with
    | receive =>
      simp only [WorkerSystem.run, hpc, WorkerSystem.poll] at hs
      split at hs
      all_goals
        obtain ⟨q, -, rfl⟩ := Option.map_eq_some_iff.mp hs
        exact Or.inl rfl
    | write rpc destNode =>
      rw [WorkerSystem.run_write hpc, Option.some.injEq] at hs
      exact Or.inr ⟨rpc, destNode, rfl, hs ▸ rfl⟩
    | checkDone ret =>
      simp only [WorkerSystem.run, hpc] at hs
      split at hs <;> exact Or.inl ((Option.some.inj hs) ▸ rfl)
    | test ret | spin rpc destNode | recv rpc =>
      simp only [WorkerSystem.run, hpc, Option.some.injEq] at hs
      exact Or.inl (hs ▸ rfl)
    | exited => simp [WorkerSystem.run, hpc] at hs

/-- どの一歩も valid な SEND の範囲の byte を変えない。 -/
theorem BufInv.bytes_stable (h : BufInv w c s) (hctx : w.ctx = createRPCNUMAContext)
    (hsize : ∀ k, (w.reply k).size.toNat ≤ rpcMaxPayload.toNat) {a : WorkerAction}
    (hs : workerStep w s a = some s') {i : Fin maxNumWq} (hv : (s.q.wq.q i).valid = true)
    (hop : (s.q.wq.q i).op = rmcSend) {x : UInt64}
    (hx : InRange (s.q.wq.q i).bufAddr (64 * (s.q.wq.q i).length.toNat) x) :
    s'.mem x = s.mem x := by
  obtain hmem | ⟨rpc, destNode, hpc, hmem⟩ := workerStep_mem hs
  · rw [hmem]
  · obtain ⟨m, -, -, -, hdisj⟩ := h.disjoint hctx hsize hpc hv hop
    rw [hmem, writeRange, if_neg fun hin => hdisj x hin hx]

/--
**返信 buffer は、NIC がまだ読みうるあいだは上書きされない。**

`createRPCNUMAContext` の設定で、どの返信も `msg_entry_size` 以下なら、NIC がどの順に valid を
落としても、`sendToNode_zsim` が書く範囲は valid な SEND の範囲と重ならない。
SEND の範囲は cache block に切り上げた長さで取ってもよい。書く一歩は memory のその範囲だけを変え、
どの一歩も valid な SEND の範囲の byte を変えない。
-/
theorem replyBuffer_disjoint {cq : RmcCq} {mem : UInt64 → UInt8}
    (hctx : w.ctx = createRPCNUMAContext)
    (hsize : ∀ k, (w.reply k).size.toNat ≤ rpcMaxPayload.toNat)
    (hempty : ∀ i, (wq.q i).valid = false)
    (h : Reaches (workerStep w) Always (WorkerSystem.init wq cq mem) s) (i : Fin maxNumWq)
    (hv : (s.q.wq.q i).valid = true) (hop : (s.q.wq.q i).op = rmcSend) :
    (∀ rpc destNode, s.pc = .write rpc destNode →
      (∀ junk s', workerStep w s (.run junk) = some s' →
        s'.mem = writeRange s.mem (replyAt w s.nbTxTot).1 (w.reply s.nbTxTot).writtenLen
          (w.reply s.nbTxTot).writtenByte) ∧
      ∃ m, m < s.nbTxTot ∧ (s.q.wq.q i).bufAddr = (replyAt w m).1 ∧
        (w.reply m).size.toNat ≤ 64 * (s.q.wq.q i).length.toNat ∧
        ∀ a, InRange (replyAt w s.nbTxTot).1 (w.reply s.nbTxTot).writtenLen a →
          ¬ InRange (s.q.wq.q i).bufAddr (64 * (s.q.wq.q i).length.toNat) a) ∧
      ∀ a s', workerStep w s a = some s' → ∀ x,
        InRange (s.q.wq.q i).bufAddr (64 * (s.q.wq.q i).length.toNat) x → s'.mem x = s.mem x := by
  have hinv : BufInv w wq.cursor s :=
    h.invariant (bufInv_init hempty) fun _ _ _ hu _ hs => hu.step hs
  refine ⟨fun rpc destNode hpc => ⟨fun junk s' hs => ?_, hinv.disjoint hctx hsize hpc hv hop⟩,
    fun a s' hs x hx => hinv.bytes_stable hctx hsize hs hv hop hx⟩
  change s.run w junk = some s' at hs
  rw [WorkerSystem.run_write hpc, Option.some.injEq] at hs
  exact hs ▸ rfl

/-- 二つ目の要求の返信を書く直前。一つ目の SEND はまだ `q[0]` で valid である。 -/
theorem replyBuffer_disjoint_second :
    ∃ s rpc destNode, Reaches (workerStep exampleWorker) Always exampleStart s ∧
      s.pc = .write rpc destNode ∧ (s.q.wq.q 0).valid = true ∧ s.nbTxTot = 1 ∧
      (∀ a, InRange (replyAt exampleWorker 1).1 4 a → ¬ InRange (s.q.wq.q 0).bufAddr 64 a) ∧
      ∃ s', workerStep exampleWorker s (.run zeroLocals) = some s' ∧
        s'.mem = writeRange s.mem (replyAt exampleWorker 1).1 4 (Mem.byteOf 0x1234) ∧
        ∀ x, InRange (s.q.wq.q 0).bufAddr 64 x → s'.mem x = s.mem x := by
  obtain ⟨s, rpc, destNode, hexec, hpc, hv, hop, hblocks, hn⟩ : ∃ s rpc destNode,
      exec (workerStep exampleWorker) exampleStart
        (serveRun 0 ++ .push (sendEntry 4096) :: List.replicate 10 (.run zeroLocals)) = some s ∧
      s.pc = .write rpc destNode ∧ (s.q.wq.q 0).valid = true ∧ (s.q.wq.q 0).op = rmcSend ∧
      64 * (s.q.wq.q 0).length.toNat = 64 ∧ s.nbTxTot = 1 :=
    ⟨_, _, _, rfl, rfl, rfl, rfl, rfl, rfl⟩
  have hrun := reaches_of_exec (fun _ _ _ => trivial : ∀ a ∈ _, ∀ u, Always u a) hexec
  have hsize : ∀ k, (exampleWorker.reply k).size.toNat ≤ rpcMaxPayload.toNat := by
    intro k
    show (64 : UInt64).toNat ≤ (512 : UInt64).toNat
    decide
  obtain ⟨s', hs⟩ : ∃ s', workerStep exampleWorker s (.run zeroLocals) = some s' :=
    ⟨_, WorkerSystem.run_write hpc zeroLocals⟩
  obtain ⟨hwrite, hstable⟩ := replyBuffer_disjoint rfl hsize (fun _ => rfl) hrun 0 hv hop
  obtain ⟨hmem, m, -, -, -, hdisj⟩ := hwrite rpc destNode hpc
  rw [hblocks] at hdisj hstable
  rw [hn] at hmem hdisj
  exact ⟨s, rpc, destNode, hrun, hpc, hv, hn, hdisj, s', hs, hmem _ _ hs, hstable _ _ hs⟩

/-! ## 登録した大きさ -/

/-- `createRPCNUMAContext` の `lbuf_size_bytes`。`run_worker` はこの大きさの buffer を登録する。 -/
def lbufSizeBytes : UInt64 := msgsPerPair * rpcMaxPayload

/-- 送信の `len` byte は登録した buffer に収まり、番号を周期で割った余りの異なる送信とは重ならない。 -/
structure SendsInside (buf : NIExposedBuffer) (rpcSendCount : UInt32) (len : Nat) : Prop where
  inside : ∀ a, InRange (netBufferVaddr createRPCNUMAContext buf rpcSendCount) len a →
    InRange buf.underlyingBuffer lbufSizeBytes.toNat a
  apart : ∀ (count : UInt32) (len' : Nat), len' ≤ createRPCNUMAContext.msgEntrySize.toNat →
    count.toUInt64 % createRPCNUMAContext.msgsPerDest
      ≠ rpcSendCount.toUInt64 % createRPCNUMAContext.msgsPerDest →
    ∀ a, InRange (netBufferVaddr createRPCNUMAContext buf rpcSendCount) len a →
      ¬ InRange (netBufferVaddr createRPCNUMAContext buf count) len' a

/-- 書く範囲と NIC に渡す範囲の長い方。copy を省けば、渡す長さが 0 でも 4 byte を書く。 -/
def Message.touchedLen (m : Message) : Nat := max m.size.toNat m.writtenLen

theorem netBufferVaddr_count (buf : NIExposedBuffer) (count : UInt32) :
    netBufferVaddr createRPCNUMAContext buf count
      = buf.underlyingBuffer + UInt64.ofNat (2048 * (count.toNat % 256)) := by
  have h := netBufferVaddr_eq buf count.toNat
  rwa [UInt32.ofNat_toNat] at h

theorem count_mod_msgsPerDest (count : UInt32) :
    (count.toUInt64 % createRPCNUMAContext.msgsPerDest).toNat = count.toNat % 256 := by
  rw [UInt64.toNat_mod, UInt32.toNat_toUInt64]
  rfl

/-- 段 `t` の空でない範囲が登録した大きさに収まるのは、前の 64 段に限る。 -/
theorem slot_inside_iff (base : UInt64) {t l : Nat} (ht : t < 256) (hl : l ≤ 512) :
    (∀ a, InRange (base + UInt64.ofNat (2048 * t)) l a → InRange base lbufSizeBytes.toNat a) ↔
      t < 64 ∨ l = 0 := by
  have hsize : lbufSizeBytes.toNat = 131072 := rfl
  constructor
  · intro h
    by_contra hbad
    rw [not_or, Nat.not_lt] at hbad
    obtain ⟨hfar, hne⟩ := hbad
    -- 段の先頭の番地がもう外にある
    have hfirst : InRange (base + UInt64.ofNat (2048 * t)) l (base + UInt64.ofNat (2048 * t)) := by
      unfold InRange
      rw [UInt64.sub_self]
      exact Nat.pos_of_ne_zero hne
    have hin : (base + UInt64.ofNat (2048 * t) - base).toNat < 131072 := hsize ▸ h _ hfirst
    obtain ⟨x, -, hoff⟩ := offset_of_inRange ht hl hfirst
    omega
  · intro h a ha
    obtain ⟨x, hx, hoff⟩ := offset_of_inRange ht hl ha
    unfold InRange
    omega

/-- `len` byte の送信が収まるのは、前の 64 段か、空の範囲に限る。 -/
theorem sendsInside_len_iff (buf : NIExposedBuffer) (rpcSendCount : UInt32) {len : Nat}
    (hl : len ≤ 512) :
    SendsInside buf rpcSendCount len ↔ rpcSendCount.toNat % 256 < 64 ∨ len = 0 := by
  have ht : rpcSendCount.toNat % 256 < 256 := Nat.mod_lt _ (by decide)
  have hin := slot_inside_iff buf.underlyingBuffer ht hl
  rw [← netBufferVaddr_count] at hin
  constructor
  · intro h
    exact hin.mp h.inside
  · intro h
    refine ⟨hin.mpr h, fun count len' hl' hne a ha => ?_⟩
    have hmod : rpcSendCount.toNat % 256 ≠ count.toNat % 256 := by
      intro he
      refine hne (UInt64.toNat_inj.mp ?_)
      rw [count_mod_msgsPerDest, count_mod_msgsPerDest, he]
    rw [netBufferVaddr_count] at ha ⊢
    exact slot_disjoint ht (Nat.mod_lt _ (by decide)) hmod hl hl' ha

/-- 何も書かず渡さないのは、copy を省かない空の返信だけである。 -/
theorem Message.touchedLen_eq_zero {m : Message} :
    m.touchedLen = 0 ↔ m.size = 0 ∧ m.skipcpy = false := by
  have hzero : m.size.toNat = 0 ↔ m.size = 0 := UInt64.toNat_inj (b := 0)
  unfold touchedLen writtenLen
  cases hskip : m.skipcpy with
  | true => simp
  | false => simp [hzero]

/--
**送信が登録した buffer に収まるのは、256 段のうち前の 64 段に限る。**

`getUnderlyingAddress` は byte の offset を `uint32_t *` に足すので、段は 512 byte ではなく
2048 byte 刻みに並び、65 番目から先は登録した 131072 byte の外に出る。段どうしは重ならない。
NIC に渡す `messageByteSize` byte についても、copy を省くときの 4 byte の書き込みまで合わせた範囲に
ついても同じである。
-/
theorem sendsInside_iff (buf : NIExposedBuffer) (rpcSendCount : UInt32) {m : Message}
    (hsize : m.size.toNat ≤ createRPCNUMAContext.msgEntrySize.toNat) :
    (SendsInside buf rpcSendCount m.size.toNat ↔
      rpcSendCount.toNat % 256 < 64 ∨ m.size = 0) ∧
      (SendsInside buf rpcSendCount m.touchedLen ↔
        rpcSendCount.toNat % 256 < 64 ∨ m.size = 0 ∧ m.skipcpy = false) := by
  have hl : m.size.toNat ≤ 512 := hsize
  have htouched : m.touchedLen ≤ 512 := max_le hl (Message.writtenLen_le hsize)
  have hzero : m.size.toNat = 0 ↔ m.size = 0 := UInt64.toNat_inj (b := 0)
  rw [← hzero, sendsInside_len_iff buf rpcSendCount hl, hzero,
    sendsInside_len_iff buf rpcSendCount htouched, Message.touchedLen_eq_zero]
  exact ⟨Iff.rfl, Iff.rfl⟩

/-- 収まる最後の段。copy を省いても、渡す 64 byte も書く 4 byte も収まる。 -/
theorem sendsInside_slot63 :
    SendsInside ⟨65536⟩ 63 64 ∧
      SendsInside ⟨65536⟩ 63 (Message.touchedLen ⟨64, true, fun _ => 0⟩) := by
  obtain ⟨hhanded, htouched⟩ := @sendsInside_iff ⟨65536⟩ 63 ⟨64, true, fun _ => 0⟩
    (show (64 : UInt64).toNat ≤ 512 by decide)
  exact ⟨hhanded.mpr (by decide), htouched.mpr (by decide)⟩

/-- 65 番目の返信は、登録した buffer のすぐ後ろに書かれる。 -/
theorem sendsInside_slot64 :
    netBufferVaddr createRPCNUMAContext ⟨65536⟩ 64 = 65536 + 131072 ∧
      InRange (netBufferVaddr createRPCNUMAContext ⟨65536⟩ 64) 64 (65536 + 131072) ∧
      ¬ InRange 65536 lbufSizeBytes.toNat (65536 + 131072) ∧ ¬ SendsInside ⟨65536⟩ 64 64 := by
  have hin : InRange (netBufferVaddr createRPCNUMAContext ⟨65536⟩ 64) 64 (65536 + 131072) := by
    decide
  have hout : ¬ InRange 65536 lbufSizeBytes.toNat (65536 + 131072) := by decide
  exact ⟨by decide, hin, hout, fun h => hout (h.inside _ hin)⟩

end L3fwd.Rpc
