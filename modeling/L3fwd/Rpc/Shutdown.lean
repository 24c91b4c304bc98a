import L3fwd.Rpc.Worker

/-!
# worker の終了

worker は、`receiveRPCRequest_zsim_l3fwd` の返した `payload_len` が 0xdead ならループを抜ける。
`client_done` を見たときはこの値が代入されるが、要求を返すときは代入されず、
`payload_len` には stack の前の内容が残る。

* 前の内容がたまたま 0xdead なら、`client_done` が false のままループを抜ける。
  抜けるのがちょうど `client_done` を見たときになるのは、それが起きない実行に限る
* それが起きない二つの実行は、前の内容がどう違っていても同じ歩で抜ける。
  前の内容は、要求の `payload` を除くどの状態にも現れない（`SameLoop`）
-/

namespace L3fwd.Rpc

open Infra Nic

/-- `client_done` を見て戻ったかどうかを付けた worker。 -/
structure ShutdownTrace where
  sys : WorkerSystem
  sawDone : Bool

/-- `receiveRPCRequest_zsim_l3fwd` が最後に調べた `client_done` の値を残す。 -/
def ShutdownTrace.sawAfter (t : ShutdownTrace) : WorkerAction → Bool
  | .run _ =>
    match t.sys.pc with
    | .checkDone _ => t.sys.clientDone
    | _ => t.sawDone
  | _ => t.sawDone

def shutdownStep (w : WorkerParams) (t : ShutdownTrace) (a : WorkerAction) :
    Option ShutdownTrace :=
  (workerStep w t.sys a).map fun s' => { sys := s', sawDone := t.sawAfter a }

def ShutdownTrace.init (wq : RmcWq) (cq : RmcCq) (mem : UInt64 → UInt8) : ShutdownTrace where
  sys := WorkerSystem.init wq cq mem
  sawDone := false

/-- ループを抜けているのは、`client_done` を見たときに限る。 -/
def ShutdownTrace.LeavesRight (t : ShutdownTrace) : Prop :=
  t.sys.pc = .exited ↔ t.sawDone = true

/-- 要求を返すとき、`payload_len` の前の内容は 0xdead ではない。 -/
def NoSentinel (s : WorkerSystem) : WorkerAction → Prop
  | .run junk => ∀ ret, s.pc = .checkDone ret → s.clientDone = false → junk.rpc.payloadLen ≠ 0xdead
  | _ => True

/-- 二つの schedule は、返り値の `RPCWithHeader` の前の内容だけが違う。 -/
inductive SameSchedule : WorkerAction → WorkerAction → Prop
  | push (e : CqEntry) : SameSchedule (.push e) (.push e)
  | complete (i : Fin maxNumWq) : SameSchedule (.complete i) (.complete i)
  | setClientDone (b : Bool) : SameSchedule (.setClientDone b) (.setClientDone b)
  | run (junk : Locals) (rpc : RPCWithHeader) :
    SameSchedule (.run junk) (.run { junk with rpc := rpc })

variable {w : WorkerParams} {t t' : ShutdownTrace} {s s' : WorkerSystem} {a b : WorkerAction}

/-! ## 抜けるとき -/

/-- `checkDone` の外の一歩では、ループを抜けない。 -/
theorem WorkerSystem.run_not_exited {junk : Locals} (hs : s.run w junk = some s')
    (hpc : ∀ ret, s.pc ≠ .checkDone ret) : s.pc ≠ .exited ∧ s'.pc ≠ .exited := by
  cases hcase : s.pc with
  | receive =>
    simp only [WorkerSystem.run, hcase, WorkerSystem.poll] at hs
    refine ⟨by simp, ?_⟩
    split at hs
    · obtain ⟨q, -, rfl⟩ := Option.map_eq_some_iff.mp hs
      simp
    · obtain ⟨q, -, rfl⟩ := Option.map_eq_some_iff.mp hs
      dsimp only
      split <;> simp
  | test ret =>
    simp only [WorkerSystem.run, hcase, Option.some.injEq] at hs
    subst hs
    refine ⟨by simp, ?_⟩
    dsimp only
    split <;> simp
  | checkDone ret => exact absurd hcase (hpc ret)
  | write rpc destNode =>
    simp only [WorkerSystem.run, hcase, Option.some.injEq] at hs
    exact ⟨by simp, by simp [← hs]⟩
  | spin rpc destNode =>
    simp only [WorkerSystem.run, hcase, Option.some.injEq] at hs
    subst hs
    refine ⟨by simp, ?_⟩
    dsimp only
    split <;> simp
  | recv rpc =>
    simp only [WorkerSystem.run, hcase, Option.some.injEq] at hs
    exact ⟨by simp, by simp [← hs]⟩
  | exited => simp [WorkerSystem.run, hcase] at hs

/-- 要求を返すかどうかを調べる一歩は、`client_done` を見たときか、前の内容が 0xdead のとき抜ける。 -/
theorem WorkerSystem.run_checkDone {junk : Locals} {ret : SuccessStruct}
    (hpc : s.pc = .checkDone ret) (hs : s.run w junk = some s') :
    s'.pc = .exited ↔ s.clientDone = true ∨ junk.rpc.payloadLen = 0xdead := by
  have hlen : (receivedRpc s.clientDone junk.rpc ret).payloadLen = 0xdead ↔
      s.clientDone = true ∨ junk.rpc.payloadLen = 0xdead := by
    cases s.clientDone <;> simp [receivedRpc]
  rw [← hlen]
  simp only [WorkerSystem.run, hpc] at hs
  split at hs
  · next hsentinel => simp [← Option.some.inj hs, hsentinel]
  · next hserve => simp [← Option.some.inj hs, hserve]

/-- worker の外の一歩では、位置は変わらない。 -/
theorem workerStep_pc_of_nic (hs : workerStep w s a = some s') (ha : ∀ junk, a ≠ .run junk) :
    s'.pc = s.pc := by
  cases a with
  | push e =>
    obtain ⟨q, -, rfl⟩ := Option.map_eq_some_iff.mp hs
    rfl
  | complete i => exact (Option.some.inj hs) ▸ rfl
  | setClientDone b => exact (Option.some.inj hs) ▸ rfl
  | run junk => exact absurd rfl (ha junk)

/-- 一歩のあと、抜けるときの条件が成り立つのは、前の内容が 0xdead でないときである。 -/
theorem ShutdownTrace.LeavesRight.step_iff (h : t.LeavesRight)
    (ht : shutdownStep w t a = some t') : t'.LeavesRight ↔ NoSentinel t.sys a := by
  obtain ⟨s', hs, rfl⟩ := Option.map_eq_some_iff.mp ht
  cases a with
  | push e | complete i | setClientDone b =>
    have hpc := workerStep_pc_of_nic hs (by simp)
    refine iff_of_true ?_ trivial
    unfold LeavesRight at h ⊢
    rw [hpc]
    exact h
  | run junk =>
    have hs : t.sys.run w junk = some s' := hs
    by_cases hpc : ∃ ret, t.sys.pc = .checkDone ret
    · obtain ⟨ret, hpc⟩ := hpc
      have hexit := WorkerSystem.run_checkDone hpc hs
      simp only [LeavesRight, sawAfter, hpc, hexit, NoSentinel, WorkerPc.checkDone.injEq]
      cases t.sys.clientDone <;> simp
    · have hne : ∀ ret, t.sys.pc ≠ .checkDone ret := fun ret he => hpc ⟨ret, he⟩
      obtain ⟨hbefore, hafter⟩ := WorkerSystem.run_not_exited hs hne
      have hsaw : t.sawAfter (.run junk) = t.sawDone := by
        simp only [sawAfter]
      have hfalse : t.sawDone ≠ true := fun hd => hbefore (h.mpr hd)
      refine iff_of_true (iff_of_false hafter ?_) fun ret he => absurd he (hne ret)
      rw [hsaw]
      exact hfalse

/-! ## 二つの実行 -/

/-- 位置が同じで、要求の `payload` も同じである。 -/
inductive SamePc : WorkerPc → WorkerPc → Prop
  | receive : SamePc .receive .receive
  | test (ret : SuccessStruct) : SamePc (.test ret) (.test ret)
  | checkDone (ret : SuccessStruct) : SamePc (.checkDone ret) (.checkDone ret)
  | write {rpc rpc' : RPCWithHeader} (destNode : UInt32) (h : rpc.payload = rpc'.payload) :
    SamePc (.write rpc destNode) (.write rpc' destNode)
  | spin {rpc rpc' : RPCWithHeader} (destNode : UInt32) (h : rpc.payload = rpc'.payload) :
    SamePc (.spin rpc destNode) (.spin rpc' destNode)
  | recv {rpc rpc' : RPCWithHeader} (h : rpc.payload = rpc'.payload) :
    SamePc (.recv rpc) (.recv rpc')
  | exited : SamePc .exited .exited

/-- 要求の代入されない field を除いて、二つの状態は同じである。 -/
def SameLoop (s u : WorkerSystem) : Prop := ∃ pc, SamePc s.pc pc ∧ u = { s with pc := pc }

theorem SamePc.refl (pc : WorkerPc) : SamePc pc pc := by
  cases pc with
  | receive => exact .receive
  | test ret => exact .test ret
  | checkDone ret => exact .checkDone ret
  | write rpc destNode => exact .write destNode rfl
  | spin rpc destNode => exact .spin destNode rfl
  | recv rpc => exact .recv rfl
  | exited => exact .exited

theorem SamePc.exited_iff {pc pc' : WorkerPc} (h : SamePc pc pc') :
    pc = .exited ↔ pc' = .exited := by
  cases h <;> simp

/-- 前の内容だけが違う worker の一歩。 -/
theorem SameLoop.run {u : WorkerSystem} (h : SameLoop s u) {junk : Locals} (rpc' : RPCWithHeader)
    (hs : NoSentinel s (.run junk)) (hu : NoSentinel u (.run { junk with rpc := rpc' })) :
    Option.Rel SameLoop (s.run w junk) (u.run w { junk with rpc := rpc' }) := by
  obtain ⟨q, mem, clientDone, pc, nbTxTot, accepted⟩ := s
  obtain ⟨pc', hpc, rfl⟩ := h
  dsimp only at hpc
  cases hpc with
  | receive =>
    simp only [WorkerSystem.run, WorkerSystem.poll]
    split
    · cases cqStep q (.enter junk.frame) with
      | none => exact .none
      | some q' => exact .some ⟨_, .refl _, rfl⟩
    · cases cqStep q .poll with
      | none => exact .none
      | some q' => exact .some ⟨_, .refl _, rfl⟩
  | test ret => exact .some ⟨_, .refl _, rfl⟩
  | checkDone ret =>
    cases clientDone with
    | true => exact .some ⟨_, .exited, rfl⟩
    | false =>
      -- どちらの前の内容も 0xdead でないので、どちらも要求に応じる
      have hlen : junk.rpc.payloadLen ≠ 0xdead := hs ret rfl rfl
      have hlen' : rpc'.payloadLen ≠ 0xdead := hu ret rfl rfl
      simp only [WorkerSystem.run, receivedRpc, Bool.false_eq_true, if_false, if_neg hlen,
        if_neg hlen']
      refine .some ⟨_, ?_, rfl⟩
      exact .write _ rfl
  | write destNode hpay => exact .some ⟨_, .spin destNode hpay, rfl⟩
  | @spin rpc rpc'' destNode hpay =>
    refine .some ⟨_, ?_, rfl⟩
    dsimp only
    split
    · exact .spin destNode hpay
    · exact .recv hpay
  | @recv rpc rpc'' hpay =>
    have hpost : recvPost w rpc = recvPost w rpc'' := by rw [recvPost, recvPost, hpay]
    simp only [WorkerSystem.run, hpost]
    exact .some ⟨_, .receive, rfl⟩
  | exited => exact .none

/-- `checkDone` の一歩はいつも許されるので、条件も許された一歩についてだけ分かれば足りる。 -/
theorem noSentinel_of_enabled {junk : Locals}
    (h : ∀ s', workerStep w s (.run junk) = some s' → NoSentinel s (.run junk)) :
    NoSentinel s (.run junk) := by
  intro ret hpc
  have hsome : ∃ s', workerStep w s (.run junk) = some s' := by
    simp only [workerStep, WorkerSystem.run, hpc]
    split <;> exact ⟨_, rfl⟩
  obtain ⟨s', hs'⟩ := hsome
  exact h s' hs' ret hpc

theorem SameLoop.step {u : WorkerSystem} (h : SameLoop s u) (hab : SameSchedule a b)
    (hs : ∀ s', workerStep w s a = some s' → NoSentinel s a)
    (hu : ∀ u', workerStep w u b = some u' → NoSentinel u b) :
    Option.Rel SameLoop (workerStep w s a) (workerStep w u b) := by
  cases hab with
  | push e =>
    obtain ⟨pc, hpc, rfl⟩ := h
    simp only [workerStep]
    cases cqStep s.q (.push e) with
    | none => exact .none
    | some q => exact .some ⟨pc, hpc, rfl⟩
  | complete i =>
    obtain ⟨pc, hpc, rfl⟩ := h
    exact .some ⟨pc, hpc, rfl⟩
  | setClientDone d =>
    obtain ⟨pc, hpc, rfl⟩ := h
    exact .some ⟨pc, hpc, rfl⟩
  | run junk rpc => exact h.run rpc (noSentinel_of_enabled hs) (noSentinel_of_enabled hu)

/-- 前の内容だけが違う二つの実行は、最後まで同じように進む。 -/
theorem sameLoop_exec {as bs : List WorkerAction} (has : List.Forall₂ SameSchedule as bs)
    (s : WorkerSystem) (ha : Along (workerStep w) NoSentinel s as)
    (hb : Along (workerStep w) NoSentinel s bs) :
    Option.Rel SameLoop (exec (workerStep w) s as) (exec (workerStep w) s bs) :=
  exec_rel (fun _ _ _ _ hsu hab hs hu => hsu.step hab hs hu) has ⟨s.pc, .refl _, rfl⟩ ha hb

/-! ## 全体の定理 -/

/--
**worker がちょうど `client_done` を見たときに抜けるのは、前の内容が 0xdead でない実行に限る。**

* 実行を通して「抜けているのは `client_done` を見たとき」が成り立つことと、
  要求を返すどの一歩でも `payload_len` の前の内容が 0xdead でないこととは同じである
* その条件を満たす二つの実行は、前の内容だけが違うなら、同じ歩で、同じ数の要求に応じたあとで抜ける
-/
theorem shutdown_on_clientDone (w : WorkerParams) (wq : RmcWq) (cq : RmcCq) (mem : UInt64 → UInt8)
    (as : List WorkerAction) :
    (Throughout (shutdownStep w) ShutdownTrace.LeavesRight (ShutdownTrace.init wq cq mem) as ↔
      Along (shutdownStep w) (fun t a => NoSentinel t.sys a) (ShutdownTrace.init wq cq mem) as) ∧
    ∀ bs, List.Forall₂ SameSchedule as bs →
      Along (workerStep w) NoSentinel (WorkerSystem.init wq cq mem) as →
      Along (workerStep w) NoSentinel (WorkerSystem.init wq cq mem) bs →
      ∀ k s, exec (workerStep w) (WorkerSystem.init wq cq mem) (as.take k) = some s →
        ∃ u, exec (workerStep w) (WorkerSystem.init wq cq mem) (bs.take k) = some u ∧
          (u.pc = .exited ↔ s.pc = .exited) ∧ u.nbTxTot = s.nbTxTot := by
  constructor
  · have hinit : ShutdownTrace.LeavesRight (ShutdownTrace.init wq cq mem) :=
      iff_of_false (by simp [ShutdownTrace.init, WorkerSystem.init]) (by simp [ShutdownTrace.init])
    exact throughout_iff_along (fun _ hu => hu)
      (fun _ _ _ hu hok hs => (ShutdownTrace.LeavesRight.step_iff hu hs).mpr hok)
      (fun _ _ _ hu hs hright => (ShutdownTrace.LeavesRight.step_iff hu hs).mp hright) hinit
  · intro bs hsame ha hb k s hs
    have hrel := sameLoop_exec (List.forall₂_take k hsame) _ (ha.take k) (hb.take k)
    rw [hs] at hrel
    cases hu : exec (workerStep w) (WorkerSystem.init wq cq mem) (bs.take k) with
    | none =>
      rw [hu] at hrel
      cases hrel
    | some u =>
      rw [hu] at hrel
      obtain ⟨pc, hpc, rfl⟩ := hrel
      exact ⟨_, rfl, hpc.exited_iff.symm, rfl⟩

/-- 要求がひとつ届き、worker が応じるかどうかを決めるまで。`payload_len` の前の内容は `len` である。 -/
def staleLenRun (len : UInt32) : List WorkerAction :=
  .push (sendEntry 4096) ::
    List.replicate 10 (.run { zeroLocals with rpc := { zeroLocals.rpc with payloadLen := len } })

theorem staleLenRun_same (len len' : UInt32) :
    List.Forall₂ SameSchedule (staleLenRun len) (staleLenRun len') := by
  refine .cons (.push _) ?_
  rw [List.forall₂_iff_get]
  refine ⟨by simp, fun i hi hi' => ?_⟩
  simp only [List.get_eq_getElem, List.getElem_replicate]
  exact .run _ _

theorem staleLenRun_noSentinel {len : UInt32} (hlen : len ≠ 0xdead) :
    ∀ a ∈ staleLenRun len, ∀ u, NoSentinel u a := by
  intro a ha u
  rcases List.mem_cons.mp ha with rfl | hrun
  · trivial
  · rw [List.eq_of_mem_replicate hrun]
    exact fun _ _ _ => hlen

/-- 前の内容が 0 でも 7 でも、要求に応じるところまで同じように進む。 -/
theorem shutdown_on_clientDone_served :
    Throughout (shutdownStep exampleWorker) ShutdownTrace.LeavesRight
        (ShutdownTrace.init { idleWq with head := 0 } (idleCq 0 false) fun _ => 0)
        (staleLenRun 0) ∧
      ∃ u, exec (workerStep exampleWorker) exampleStart (staleLenRun 7) = some u ∧
        u.pc ≠ .exited := by
  obtain ⟨hleaves, htwo⟩ := shutdown_on_clientDone exampleWorker { idleWq with head := 0 }
    (idleCq 0 false) (fun _ => 0) (staleLenRun 0)
  refine ⟨hleaves.mpr (along_of_forall fun a ha u =>
    staleLenRun_noSentinel (by decide) a ha u.sys), ?_⟩
  obtain ⟨s, hs, rpc, destNode, hpc⟩ : ∃ s, exec (workerStep exampleWorker) exampleStart
      ((staleLenRun 0).take 11) = some s ∧ ∃ rpc destNode, s.pc = .write rpc destNode :=
    ⟨_, rfl, _, _, rfl⟩
  obtain ⟨u, hu, hexit, -⟩ := htwo (staleLenRun 7) (staleLenRun_same 0 7)
    (along_of_forall (staleLenRun_noSentinel (by decide)))
    (along_of_forall (staleLenRun_noSentinel (by decide))) 11 s hs
  refine ⟨u, hu, fun hx => ?_⟩
  rw [hexit, hpc] at hx
  cases hx

/--
`payload_len` の前の内容が 0xdead なら、`client_done` が false のまま抜ける。
前の内容が 0 の実行は、同じ schedule で要求に応じる。
-/
theorem shutdown_on_stale_payloadLen :
    List.Forall₂ SameSchedule (staleLenRun 0xdead) (staleLenRun 0) ∧
      (∃ s, exec (workerStep exampleWorker) exampleStart (staleLenRun 0xdead) = some s ∧
        s.pc = .exited ∧ s.clientDone = false) ∧
      (∃ u rpc destNode, exec (workerStep exampleWorker) exampleStart (staleLenRun 0) = some u ∧
        u.pc = .write rpc destNode) ∧
      ¬ Throughout (shutdownStep exampleWorker) ShutdownTrace.LeavesRight
        (ShutdownTrace.init { idleWq with head := 0 } (idleCq 0 false) fun _ => 0)
        (staleLenRun 0xdead) := by
  refine ⟨staleLenRun_same _ _, ⟨_, rfl, rfl, rfl⟩, ⟨_, _, _, rfl, rfl⟩, fun h => ?_⟩
  have hlast := h.last (show exec (shutdownStep exampleWorker) _ _ = some _ from rfl)
  exact absurd (hlast.mp rfl) (by decide)

end L3fwd.Rpc
