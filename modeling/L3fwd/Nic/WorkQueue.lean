import Mathlib.Data.List.Forall2
import L3fwd.Nic.Defs
import L3fwd.Infra.Run
import L3fwd.Infra.Fifo

/-!
# WQ は容量 128 の FIFO である

投入側（`rmc_hw_send` / `rmc_hw_recv`）と NIC の取り出しを任意の順に混ぜた system。
NIC は simulator の側にあって source には無いので、契約だけを書く：
自分の `tail` と期待する bit を持ち、`q[tail]` が valid で bit が合えば取り出して
valid を落とし、一つ進む。

満杯・空・周回は `valid`・`SR`・`head` に重複して書かれている。証明ではすべてを
「投入が受け付けられた回数」と「取り出された回数」の二つの通し番号に戻す（`WqInv`）。
-/

namespace L3fwd.Nic

open Infra

/-! ## system -/

/-- WQ への投入の要求。引数は source の二つの関数のものである。 -/
inductive Post where
  | send (ctxId : UInt32) (dataAddress length nid : UInt64)
  | recv (ctxId : UInt32) (recvBuf length : UInt64)

/-- 要求に対応する関数を呼ぶ。 -/
def Post.call (wq : RmcWq) : Post → Int × RmcWq
  | .send ctxId dataAddress length nid => rmcHwSend wq ctxId dataAddress length nid
  | .recv ctxId recvBuf length => rmcHwRecv wq ctxId recvBuf length

/--
entry `e` が要求のとおりに書かれていること。

SEND の長さは cache block の数で、byte 数が `2^64 - 64` 以下なら切り上げの商である。
RECV の長さは byte 数そのもの、宛先は使われないので 0 である。
-/
def Describes (e : WqEntry) : Post → Prop
  | .send ctxId dataAddress length nid =>
    e.op = rmcSend ∧ e.cid = ctxId ∧ e.nid = nid ∧ e.bufAddr = dataAddress ∧
      (length.toNat ≤ 2 ^ 64 - 64 → e.length.toNat = (length.toNat + 63) / 64)
  | .recv ctxId recvBuf length =>
    e.op = rmcRecv ∧ e.cid = ctxId ∧ e.nid = 0 ∧ e.bufAddr = recvBuf ∧ e.length = length

/-- WQ と NIC。`accepted` は 0 を返した投入、`taken` は NIC が取り出した entry の履歴である。 -/
structure WqSystem where
  wq : RmcWq
  nic : Cursor maxNumWq
  accepted : List Post
  taken : List WqEntry

inductive WqAction where
  | post (p : Post)
  | nic

/-- NIC が `q[tail]` を取り出し、valid を落として進む。 -/
def WqSystem.takeTail (s : WqSystem) : WqSystem :=
  let e := s.wq.q s.nic.idx
  { s with
    wq := { s.wq with q := Function.update s.wq.q s.nic.idx { e with valid := false } }
    nic := s.nic.next
    taken := s.taken ++ [e] }

/-- NIC の一歩。取り出せる entry が無ければ何もしない。 -/
def nicTake (s : WqSystem) : WqSystem :=
  if (s.wq.q s.nic.idx).valid && (s.wq.q s.nic.idx).sr == s.nic.sense then s.takeTail else s

def wqStep (s : WqSystem) : WqAction → Option WqSystem
  | .post p =>
    some { s with
      wq := (p.call s.wq).2
      accepted := if (p.call s.wq).1 = 0 then s.accepted ++ [p] else s.accepted }
  | .nic => some (nicTake s)

/-- NIC は投入側と同じ位置・同じ bit から始まる。 -/
def WqSystem.init (wq : RmcWq) : WqSystem :=
  { wq := wq, nic := wq.cursor, accepted := [], taken := [] }

/-- 投入されて、まだ取り出されていない entry の数。 -/
def WqSystem.outstanding (s : WqSystem) : Nat := s.accepted.length - s.taken.length

/-! ## 投入ひとつ -/

/-- 要求が書く entry。 -/
def Post.entry (sr : Bool) : Post → WqEntry
  | .send ctxId dataAddress length nid =>
    { op := rmcSend, sr := sr, valid := true, bufAddr := dataAddress, cid := ctxId, nid := nid,
      offset := 0, length := (length + (cacheBlockSize - 1)) >>> cacheBlockBits }
  | .recv ctxId recvBuf length =>
    { op := rmcRecv, sr := sr, valid := true, bufAddr := recvBuf, cid := ctxId, nid := 0,
      offset := 0, length := length }

theorem Post.entry_valid (sr : Bool) (p : Post) : (p.entry sr).valid = true := by
  cases p <;> rfl

theorem Post.entry_sr (sr : Bool) (p : Post) : (p.entry sr).sr = sr := by
  cases p <;> rfl

theorem Post.describes_entry (sr : Bool) (p : Post) : Describes (p.entry sr) p := by
  cases p with
  | send ctxId dataAddress length nid => exact ⟨rfl, rfl, rfl, rfl, fun h => sendBlocks_toNat h⟩
  | recv ctxId recvBuf length => exact ⟨rfl, rfl, rfl, rfl, rfl⟩

/-- 二つの投入関数に共通の形。`head` の entry が valid なら断り、そうでなければ書いて進む。 -/
theorem Post.call_eq (wq : RmcWq) (p : Post) :
    p.call wq = if (wq.q wq.head).valid then (-1, wq)
      else (0, RmcWq.advanceHead
        { wq with q := Function.update wq.q wq.head (p.entry wq.sr) }) := by
  cases p <;> rfl

theorem Post.call_of_valid {wq : RmcWq} (h : (wq.q wq.head).valid = true) (p : Post) :
    p.call wq = (-1, wq) := by
  rw [Post.call_eq, if_pos h]

theorem Post.call_of_not_valid {wq : RmcWq} (h : (wq.q wq.head).valid = false) (p : Post) :
    p.call wq = (0, RmcWq.advanceHead
      { wq with q := Function.update wq.q wq.head (p.entry wq.sr) }) := by
  rw [Post.call_eq, if_neg (by simp [h])]

/-- `-1` は `head` の entry が valid であることと同じである。 -/
theorem Post.call_eq_neg_one_iff {wq : RmcWq} {p : Post} :
    (p.call wq).1 = -1 ↔ (wq.q wq.head).valid = true := by
  cases h : (wq.q wq.head).valid with
  | true => simp [Post.call_of_valid h]
  | false => simp [Post.call_of_not_valid h]

/-! ## 不変条件 -/

/--
通し番号で書いた WQ の不変条件。`c` は最初の cursor である。

投入側は `accepted.length` 回、NIC は `taken.length` 回進んでいる。
valid な段は、その間の通し番号が指す段に限る（`valid_only`）。
逆にその間の段はどれも valid で、bit はその周のものであり、要求のとおりに書かれている（`live`）。
-/
structure WqInv (c : Cursor maxNumWq) (s : WqSystem) : Prop where
  taken_le : s.taken.length ≤ s.accepted.length
  accepted_le : s.accepted.length ≤ s.taken.length + maxNumWq
  head : s.wq.cursor = c.after s.accepted.length
  tail : s.nic = c.after s.taken.length
  valid_only : ∀ i, (s.wq.q i).valid = true →
    ∃ k, s.taken.length ≤ k ∧ k < s.accepted.length ∧ (c.after k).idx = i
  live : ∀ k, s.taken.length ≤ k → (hk : k < s.accepted.length) →
    (s.wq.q (c.after k).idx).valid = true ∧ (s.wq.q (c.after k).idx).sr = (c.after k).sense ∧
      Describes (s.wq.q (c.after k).idx) (s.accepted[k])
  history : List.Forall₂ Describes s.taken (s.accepted.take s.taken.length)

variable {c : Cursor maxNumWq} {s s' : WqSystem}

theorem WqInv.head_idx (h : WqInv c s) : s.wq.head = (c.after s.accepted.length).idx :=
  congrArg Cursor.idx h.head

theorem WqInv.head_sr (h : WqInv c s) : s.wq.sr = (c.after s.accepted.length).sense :=
  congrArg Cursor.sense h.head

theorem wqInv_init {wq : RmcWq} (h : ∀ i, (wq.q i).valid = false) :
    WqInv wq.cursor (WqSystem.init wq) where
  taken_le := by simp [WqSystem.init]
  accepted_le := by simp [WqSystem.init]
  head := by simp [WqSystem.init]
  tail := by simp [WqSystem.init]
  valid_only := fun i hi => by
    have hf : (wq.q i).valid = true := hi
    rw [h i] at hf
    cases hf
  live := fun k _ hk => by simp [WqSystem.init] at hk
  history := by simp [WqSystem.init]

/-- **`head` の段が valid なのは、128 個が未処理のときに限る。** -/
theorem WqInv.head_valid_iff (h : WqInv c s) :
    (s.wq.q s.wq.head).valid = true ↔ s.outstanding = maxNumWq := by
  have hle := h.taken_le
  have hcap := h.accepted_le
  unfold WqSystem.outstanding
  constructor
  · intro hv
    obtain ⟨k, hk1, hk2, hidx⟩ := h.valid_only _ hv
    rw [h.head_idx] at hidx
    -- 同じ段を指す通し番号が一周未満の差なら等しいので、差はちょうど一周である
    by_contra hne
    have := Cursor.after_idx_inj (by omega) (by omega) hidx
    omega
  · intro hfull
    have hlap : c.after s.accepted.length
        = { c.after s.taken.length with sense := !(c.after s.taken.length).sense } := by
      rw [show s.accepted.length = s.taken.length + maxNumWq by omega, Cursor.after_add_lap]
    rw [h.head_idx, hlap]
    have hpos : 0 < maxNumWq := by decide
    exact (h.live s.taken.length (Nat.le_refl _) (by omega)).1

/-- 受け付けられた投入は不変条件を保つ。 -/
theorem WqInv.accept (h : WqInv c s) (hv : (s.wq.q s.wq.head).valid = false) (p : Post) :
    WqInv c { s with
      wq := RmcWq.advanceHead { s.wq with
        q := Function.update s.wq.q s.wq.head (p.entry s.wq.sr) }
      accepted := s.accepted ++ [p] } := by
  have hle := h.taken_le
  have hcap := h.accepted_le
  have hroom : s.outstanding ≠ maxNumWq := fun hfull => by
    rw [h.head_valid_iff.mpr hfull] at hv
    cases hv
  have hlt : s.accepted.length < s.taken.length + maxNumWq := by
    unfold WqSystem.outstanding at hroom
    omega
  have hq : ∀ k, s.taken.length ≤ k → k < s.accepted.length →
      (c.after k).idx ≠ s.wq.head := by
    intro k hk1 hk2 he
    rw [h.head_idx] at he
    have := Cursor.after_idx_inj (by omega) (by omega) he
    omega
  refine ⟨by simp; omega, by simp; omega, ?_, h.tail, ?_, ?_, ?_⟩
  · show RmcWq.cursor (RmcWq.advanceHead _) = _
    rw [RmcWq.advanceHead_cursor, List.length_append, List.length_singleton, Cursor.after_succ,
      ← h.head]
    rfl
  · intro i hi
    simp only [RmcWq.advanceHead_q] at hi
    by_cases he : i = s.wq.head
    · refine ⟨s.accepted.length, hle, by simp, ?_⟩
      rw [he, h.head_idx]
    · rw [Function.update_of_ne he] at hi
      obtain ⟨k, hk1, hk2, hk3⟩ := h.valid_only i hi
      exact ⟨k, hk1, by simp; omega, hk3⟩
  · intro k hk1 hk2
    simp only [List.length_append, List.length_singleton] at hk2
    simp only [RmcWq.advanceHead_q]
    by_cases hk : k = s.accepted.length
    · subst hk
      rw [← h.head_idx, Function.update_self, ← h.head_sr]
      exact ⟨p.entry_valid _, p.entry_sr _, by simpa using p.describes_entry _⟩
    · have hk' : k < s.accepted.length := by omega
      rw [Function.update_of_ne (hq k hk1 hk')]
      simpa [List.getElem_append_left hk'] using h.live k hk1 hk'
  · show List.Forall₂ Describes s.taken ((s.accepted ++ [p]).take s.taken.length)
    rw [List.take_append_of_le_length hle]
    exact h.history

@[simp] theorem WqSystem.takeTail_accepted : s.takeTail.accepted = s.accepted := rfl

@[simp] theorem WqSystem.takeTail_taken_length :
    s.takeTail.taken.length = s.taken.length + 1 := by
  simp [takeTail]

theorem WqSystem.takeTail_q (i : Fin maxNumWq) :
    s.takeTail.wq.q i = if i = s.nic.idx then { s.wq.q i with valid := false } else s.wq.q i := by
  by_cases h : i = s.nic.idx
  · rw [if_pos h, h]
    simp [takeTail]
  · rw [if_neg h]
    simp [takeTail, h]

/-- NIC の取り出しは不変条件を保つ。 -/
theorem WqInv.take (h : WqInv c s) : WqInv c (nicTake s) := by
  have hle := h.taken_le
  have hcap := h.accepted_le
  have htail : s.nic = c.after s.taken.length := h.tail
  unfold nicTake
  by_cases hcond : ((s.wq.q s.nic.idx).valid && (s.wq.q s.nic.idx).sr == s.nic.sense) = true
  · rw [if_pos hcond]
    simp only [Bool.and_eq_true, beq_iff_eq] at hcond
    -- tail の段が valid なら、そこには一周ぶんも離れていない投入がある
    have hlt : s.taken.length < s.accepted.length := by
      obtain ⟨k, hk1, hk2, _⟩ := h.valid_only _ hcond.1
      omega
    have hlive := h.live s.taken.length (Nat.le_refl _) hlt
    refine ⟨by simp; omega, by simp; omega, h.head, ?_, ?_, ?_, ?_⟩
    · show s.nic.next = _
      rw [WqSystem.takeTail_taken_length, Cursor.after_succ, htail]
    · intro i hi
      rw [WqSystem.takeTail_q] at hi
      by_cases he : i = s.nic.idx
      · rw [if_pos he] at hi
        cases hi
      · rw [if_neg he] at hi
        obtain ⟨k, hk1, hk2, hk3⟩ := h.valid_only i hi
        refine ⟨k, ?_, hk2, hk3⟩
        have : k ≠ s.taken.length := fun hk => he (by rw [← hk3, hk, htail])
        simp
        omega
    · intro k hk1 hk2
      rw [WqSystem.takeTail_taken_length] at hk1
      have hne : (c.after k).idx ≠ s.nic.idx := fun he => by
        rw [htail] at he
        have hk2' : k < s.accepted.length := hk2
        have := Cursor.after_idx_inj (by omega) (by omega) he.symm
        omega
      rw [WqSystem.takeTail_q, if_neg hne]
      exact h.live k (by omega) hk2
    · rw [WqSystem.takeTail_taken_length, WqSystem.takeTail_accepted,
        List.take_succ_eq_append_getElem hlt]
      have hcons : Describes (s.wq.q s.nic.idx) s.accepted[s.taken.length] := by
        rw [htail]
        exact hlive.2.2
      exact List.rel_append h.history (List.Forall₂.cons hcons List.Forall₂.nil)
  · rw [if_neg hcond]
    exact h

theorem WqInv.step (h : WqInv c s) {a : WqAction} (hs : wqStep s a = some s') : WqInv c s' := by
  cases a with
  | nic =>
    rw [wqStep, Option.some.injEq] at hs
    exact hs ▸ h.take
  | post p =>
    rw [wqStep, Option.some.injEq] at hs
    subst hs
    cases hv : (s.wq.q s.wq.head).valid with
    | true => simpa [Post.call_of_valid hv] using h
    | false => simpa [Post.call_of_not_valid hv] using h.accept hv p

/-! ## FIFO の詳細化 -/

/-- 未処理の要求の列。容量つき FIFO の中身である。 -/
def WqInv.fifo (h : WqInv c s) : Fifo Post maxNumWq where
  items := s.accepted.drop s.taken.length
  length_le := by
    have := h.accepted_le
    rw [List.length_drop]
    omega

/-- 投入は FIFO の `push` である。断られるのは `push` が失敗するときに限る。 -/
theorem WqInv.post_refines (h : WqInv c s) {p : Post} (hs : wqStep s (.post p) = some s') :
    (h.fifo.push p = none ∧ (p.call s.wq).1 = -1 ∧ (h.step hs).fifo = h.fifo) ∨
      (h.fifo.push p = some (h.step hs).fifo ∧ (p.call s.wq).1 = 0) := by
  have hle := h.taken_le
  have hlen : h.fifo.items.length = s.outstanding := by simp [fifo, WqSystem.outstanding]
  have hs' := hs
  rw [wqStep, Option.some.injEq] at hs'
  cases hv : (s.wq.q s.wq.head).valid with
  | true =>
    refine Or.inl ⟨Fifo.push_eq_none_iff.mpr ?_, Post.call_eq_neg_one_iff.mpr hv, ?_⟩
    · rw [hlen]
      exact h.head_valid_iff.mp hv
    · refine Fifo.ext ?_
      simp [fifo, ← hs', Post.call_of_valid hv]
  | false =>
    refine Or.inr ⟨?_, by rw [Post.call_of_not_valid hv]⟩
    cases hp : h.fifo.push p with
    | none =>
      have hfull := Fifo.push_eq_none_iff.mp hp
      rw [hlen] at hfull
      rw [h.head_valid_iff.mpr hfull] at hv
      cases hv
    | some f =>
      refine congrArg some (Fifo.ext ?_)
      rw [Fifo.push_items hp]
      simp [fifo, ← hs', Post.call_of_not_valid hv, List.drop_append_of_le_length hle]

/-- NIC の取り出しは FIFO の `pop` である。取り出せないのは空のときに限る。 -/
theorem WqInv.take_refines (h : WqInv c s) :
    (h.fifo.pop = none ∧ nicTake s = s) ∨
      ∃ p, h.fifo.pop = some (p, h.take.fifo) ∧
        ∃ e, (nicTake s).taken = s.taken ++ [e] ∧ Describes e p := by
  have hle := h.taken_le
  by_cases hlt : s.taken.length < s.accepted.length
  · have hlive := h.live s.taken.length (Nat.le_refl _) hlt
    have htake : nicTake s = s.takeTail := by
      unfold nicTake
      refine if_pos ?_
      rw [h.tail, hlive.1, hlive.2.1]
      simp
    refine Or.inr ⟨s.accepted[s.taken.length], ?_, s.wq.q s.nic.idx, by rw [htake]; rfl, ?_⟩
    · have hitems : h.fifo.items = s.accepted[s.taken.length] :: h.take.fifo.items := by
        show s.accepted.drop s.taken.length
          = s.accepted[s.taken.length] :: (nicTake s).accepted.drop (nicTake s).taken.length
        rw [htake, WqSystem.takeTail_accepted, WqSystem.takeTail_taken_length,
          ← List.drop_eq_getElem_cons hlt]
      cases hp : h.fifo.pop with
      | none =>
        rw [Fifo.pop_eq_none_iff.mp hp] at hitems
        cases hitems
      | some r =>
        obtain ⟨x, f⟩ := r
        have := (Fifo.pop_items hp).symm.trans hitems
        rw [List.cons.injEq] at this
        rw [this.1, Fifo.ext this.2]
    · rw [h.tail]
      exact hlive.2.2
  · refine Or.inl ⟨Fifo.pop_eq_none_iff.mpr ?_, ?_⟩
    · simp [fifo]
      omega
    · unfold nicTake
      refine if_neg ?_
      intro hcond
      simp only [Bool.and_eq_true] at hcond
      obtain ⟨k, hk1, hk2, _⟩ := h.valid_only _ hcond.1
      omega

/-! ## 全体の定理 -/

/--
**WQ は順序どおりに、失わず、重複なく渡す。**

どの順に投入と取り出しを混ぜても、

1. NIC が取り出した列は、0 を返した投入の列の prefix で、中身も要求のとおりである
2. valid な段は、NIC の `tail` から `wq->head` までの円環の区間とちょうど一致する
3. 投入が -1 を返すのは、128 個が未処理のときに限る
-/
theorem workQueue_fifo {wq : RmcWq}
    (hinit : ∀ i, (wq.q i).valid = false ∧ (wq.q i).sr ≠ wq.sr)
    (h : Reaches wqStep Always (WqSystem.init wq) s) :
    (s.taken.length ≤ s.accepted.length ∧
        List.Forall₂ Describes s.taken (s.accepted.take s.taken.length)) ∧
      ((s.nic.idx.val + s.outstanding) % maxNumWq = s.wq.head.val ∧ s.outstanding ≤ maxNumWq ∧
        ∀ i, (s.wq.q i).valid = true ↔
          ∃ k, k < s.outstanding ∧ i.val = (s.nic.idx.val + k) % maxNumWq) ∧
      (∀ p : Post, ((p.call s.wq).1 = -1 ↔ s.outstanding = maxNumWq) ∧
        ((p.call s.wq).1 = 0 ↔ s.outstanding ≠ maxNumWq)) := by
  have hinv : WqInv wq.cursor s :=
    h.invariant (wqInv_init fun i => (hinit i).1) fun _ _ _ hu _ hs => hu.step hs
  have hle := hinv.taken_le
  have hcap := hinv.accepted_le
  have hshift : ∀ k, (s.nic.idx.val + k) % maxNumWq
      = (wq.cursor.after (s.taken.length + k)).idx.val := by
    intro k
    rw [hinv.tail, Cursor.after_idx_val, Cursor.after_idx_val, Nat.mod_add_mod, Nat.add_assoc]
  refine ⟨⟨hle, hinv.history⟩, ⟨?_, ?_, ?_⟩, ?_⟩
  · rw [hshift, hinv.head_idx, WqSystem.outstanding, Nat.add_sub_cancel' hle]
  · unfold WqSystem.outstanding
    omega
  · intro i
    constructor
    · intro hv
      obtain ⟨k, hk1, hk2, hk3⟩ := hinv.valid_only i hv
      refine ⟨k - s.taken.length, by unfold WqSystem.outstanding; omega, ?_⟩
      rw [hshift, Nat.add_sub_cancel' hk1, hk3]
    · rintro ⟨k, hk, hi⟩
      unfold WqSystem.outstanding at hk
      rw [hshift] at hi
      rw [Fin.ext hi]
      exact (hinv.live _ (by omega) (by omega)).1
  · intro p
    simp only [ne_eq, ← hinv.head_valid_iff]
    cases hv : (s.wq.q s.wq.head).valid with
    | true => simp [Post.call_of_valid hv]
    | false => simp [Post.call_of_not_valid hv]

/-- 末尾の段から始まる空の WQ。 -/
def idleWq : RmcWq where
  q := fun _ =>
    { op := 0, sr := false, valid := false, bufAddr := 0, cid := 0, nid := 0, offset := 0,
      length := 0 }
  head := 127
  sr := true

/-- 端をまたいで一つ送り、一つ受け、NIC が一つ取り出した状態。 -/
theorem workQueue_fifo_wrap :
    ∃ s, Reaches wqStep Always (WqSystem.init idleWq) s ∧ s.wq.head = 1 ∧
      s.taken.length = 1 ∧
      ∀ p : Post, ((p.call s.wq).1 = 0 ↔ s.outstanding ≠ maxNumWq) := by
  have hrun := reaches_of_exec (fun _ _ _ => trivial : ∀ a ∈ _, ∀ u, Always u a)
    (show exec wqStep (WqSystem.init idleWq)
      [.post (.send 7 4096 65 3), .post (.recv 7 8192 64), .nic] = some _ from rfl)
  exact ⟨_, hrun, rfl, rfl, fun p =>
    ((workQueue_fifo (fun _ => ⟨rfl, by simp [idleWq]⟩) hrun).2.2 p).2⟩

end L3fwd.Nic
