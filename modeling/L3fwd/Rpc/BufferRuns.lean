import L3fwd.Rpc.CircularBuffer

/-!
# 循環 buffer の実行

`CircularReceiveBuffer` の操作を任意の順に重ねた実行について、二つのことを示す。

* **bit の並び**：`writeSRMetadata` と `incTail` の対に、解放と `incHeadAfterMsgProcessed` を
  どう挟んでも `assert` は失敗せず、`vector` の範囲も外れない（`senseReversal_holds`）。
  何周しても、一周ごとに `tail` と `buffer_sr` が同時に変わるところで並びは保たれる
* **添字と個数**：`tail` と `senders_head` が書いた数と解放した数の剰余を表し、
  `is_full` と `isEmpty()` が未解放の数を表すのは、どの解放も端を越えず、
  一度に `numEntries` 個を解放することもない実行に限る（`indices_right_iff`）
-/

namespace L3fwd.Rpc

open Infra

/-! ## bit の並びの実行 -/

inductive BufferAction where
  | write
  | free (inc : UInt32)
  | processed

/-- 一つの操作。`none` は `assert` の失敗か `vector::at` の例外である。 -/
def bufferStep (b : CircularReceiveBuffer) : BufferAction → Option CircularReceiveBuffer
  | .write => b.write
  | .free inc => b.incSendersHeadToFreeSpace inc
  | .processed => some b.incHeadAfterMsgProcessed

namespace CircularReceiveBuffer

variable {b : CircularReceiveBuffer} {n : Nat}

/-- `head` は bit の並びに関わらない。 -/
theorem SenseOk.incHeadAfterMsgProcessed (h : b.SenseOk n) :
    b.incHeadAfterMsgProcessed.SenseOk n :=
  ⟨h.num, h.sender, h.len, h.tail_lt, h.sense⟩

/-- 並びの整った buffer では、どの操作も失敗せず、並びを保つ。 -/
theorem SenseOk.step (h : b.SenseOk n) (a : BufferAction) :
    ∃ b', bufferStep b a = some b' ∧ b'.SenseOk n := by
  cases a with
  | write => exact ⟨b.written, h.write, h.written⟩
  | free inc =>
    exact ⟨b.freedBy inc.toNat, incSendersHeadToFreeSpace_eq h inc, h.freedBy inc.toNat⟩
  | processed => exact ⟨_, rfl, h.incHeadAfterMsgProcessed⟩

/-- 操作の列を最後まで実行でき、着いた buffer でも並びは整っている。 -/
theorem SenseOk.exec (h : b.SenseOk n) (as : List BufferAction) :
    ∃ b', Infra.exec bufferStep b as = some b' ∧ b'.SenseOk n := by
  induction as generalizing b with
  | nil => exact ⟨b, rfl, h⟩
  | cons a as ih =>
    obtain ⟨u, hu, hsense⟩ := h.step a
    obtain ⟨b', hrun, hb'⟩ := ih hsense
    exact ⟨b', by rw [Infra.exec, hu, Option.bind_some, hrun], hb'⟩

end CircularReceiveBuffer

/--
**bit の `assert` は、何周しても失敗しない。**

どの操作の列も最後まで実行でき、そのあと `tail` の手前は今の周の bit、`tail` から先は
その反対の bit である。列は任意なので、途中のどの状態でも同じことが言える。
-/
theorem senseReversal_holds {n : Nat} (hn : 1 ≤ n) (aBase aSize : Nat) (as : List BufferAction) :
    ∃ b, exec bufferStep (CircularReceiveBuffer.new aBase aSize n true) as = some b ∧
      b.tail < n ∧ b.srVector.length = n ∧
      (∀ i, i < b.tail → b.srVector[i]? = some b.bufferSr) ∧
      (∀ i, b.tail ≤ i → i < n → b.srVector[i]? = some (!b.bufferSr)) := by
  have hnew := CircularReceiveBuffer.senseOk_new aBase aSize hn
  obtain ⟨b, hrun, h⟩ := hnew.exec as
  have hlen := h.len
  have htail := h.tail_lt
  refine ⟨b, hrun, htail, hlen, fun i hi => ?_, fun i hi hin => ?_⟩
  · have hin : i < b.srVector.length := by omega
    rw [List.getElem?_eq_getElem hin, h.sense i hin, if_pos hi]
  · have hin' : i < b.srVector.length := by omega
    rw [List.getElem?_eq_getElem hin', h.sense i hin', if_neg (by omega)]

/-- 2 段の buffer を一周半する。空でも満杯でも解放してよい。 -/
theorem senseReversal_holds_twoLaps :
    ∃ b, exec bufferStep (CircularReceiveBuffer.new 4096 64 2 true)
        [.write, .free 7, .processed, .write, .write] = some b ∧
      b.tail = 1 ∧ b.bufferSr = true ∧ b.srVector[0]? = some true ∧
      b.srVector[1]? = some false := by
  obtain ⟨b, hrun, -, -, hbefore, hafter⟩ := senseReversal_holds
    (show 1 ≤ 2 by decide) 4096 64 [.write, .free 7, .processed, .write, .write]
  have hb : b.tail = 1 ∧ b.bufferSr = true := by
    have hsome : exec bufferStep (CircularReceiveBuffer.new 4096 64 2 true)
      [.write, .free 7, .processed, .write, .write] = some _ := rfl
    rw [hsome, Option.some.injEq] at hrun
    subst hrun
    exact ⟨rfl, rfl⟩
  obtain ⟨htail, hsr⟩ := hb
  refine ⟨b, hrun, htail, hsr, ?_, ?_⟩
  · rw [hbefore 0 (by omega), hsr]
  · rw [hafter 1 (by omega) (by decide), hsr]
    rfl

/-! ## 添字と個数の実行 -/

/-- 送信側の buffer と、書いた message の数、解放された message の数。 -/
structure CountedSender where
  buf : CircularReceiveBuffer
  written : Nat
  freed : Nat

inductive IndexAction where
  | writeSRMetadata
  | incTail
  | free (inc : UInt32)

/-- 書かれて、まだ解放されていない message の数。 -/
def CountedSender.outstanding (s : CountedSender) : Nat := s.written - s.freed

/-- `incTail`。`NDEBUG` を付けて build すると `assert` はどれも無くなる。 -/
def CircularReceiveBuffer.incTailBuilt (ndebug : Bool) (b : CircularReceiveBuffer) :
    Option CircularReceiveBuffer :=
  if ndebug then some b.bumpTail.markFull else b.incTail

/-- 書くのは空きがあるとき、解放するのは未解放の数までとする。 -/
def indexStep (ndebug : Bool) (s : CountedSender) : IndexAction → Option CountedSender
  | .writeSRMetadata =>
    (s.buf.writeSRMetadata s.buf.getTailIdxValue).map fun b => { s with buf := b }
  | .incTail =>
    if s.outstanding < s.buf.numEntries then
      (s.buf.incTailBuilt ndebug).map fun b => { s with buf := b, written := s.written + 1 }
    else none
  | .free inc =>
    if 1 ≤ inc.toNat ∧ inc.toNat ≤ s.outstanding then
      (s.buf.incSendersHeadToFreeSpace inc).map fun b =>
        { s with buf := b, freed := s.freed + inc.toNat }
    else none

def CountedSender.init (aBase aSize aNumEntries : Nat) : CountedSender where
  buf := CircularReceiveBuffer.new aBase aSize aNumEntries true
  written := 0
  freed := 0

/-- 二つの添字と満杯の印が、書いた数と解放した数を表している。 -/
structure CountedSender.IndicesRight (s : CountedSender) : Prop where
  tail : s.buf.tail = s.written % s.buf.numEntries
  sendersHead : s.buf.sendersHead = s.freed % s.buf.numEntries
  isFull : s.buf.isFull = true ↔ s.outstanding = s.buf.numEntries
  isEmpty : s.buf.isEmpty = true ↔ s.outstanding = 0

/-- 解放は端を越えず、一度に `numEntries` 個を解放することもない。 -/
def FreesWithinLap (s : CountedSender) : IndexAction → Prop
  | .free inc =>
    s.buf.sendersHead + inc.toNat ≤ s.buf.numEntries ∧ inc.toNat < s.buf.numEntries
  | _ => True

instance decidableFreesWithinLap (s : CountedSender) (a : IndexAction) :
    Decidable (FreesWithinLap s a) := by
  cases a <;> unfold FreesWithinLap <;> infer_instance

namespace CircularReceiveBuffer

variable {b : CircularReceiveBuffer}

/-- `assert` が通った `incTail` は、`assert` の無い `incTail` と同じ buffer を残す。 -/
theorem incTailBuilt_eq {ndebug : Bool} {b' : CircularReceiveBuffer}
    (h : b.incTailBuilt ndebug = some b') : b' = b.bumpTail.markFull := by
  unfold incTailBuilt incTail at h
  split at h
  · exact (Option.some.inj h).symm
  · split at h
    · dsimp only at h
      split at h
      · cases h
      · split at h
        · exact (Option.some.inj h).symm
        · cases h
    · cases h

end CircularReceiveBuffer

variable {ndebug : Bool} {n : Nat} {s s' : CountedSender} {a : IndexAction}

/-- 一歩でできること。 -/
theorem indexStep_cases (hs : indexStep ndebug s a = some s') :
    (a = .writeSRMetadata ∧ ∃ v, s' = { s with buf := { s.buf with srVector := v } }) ∨
    (a = .incTail ∧ s.outstanding < s.buf.numEntries ∧
      s' = { s with buf := s.buf.bumpTail.markFull, written := s.written + 1 }) ∨
    (∃ inc, a = .free inc ∧ 1 ≤ inc.toNat ∧ inc.toNat ≤ s.outstanding ∧
      s' = { s with buf := s.buf.freedBy inc.toNat, freed := s.freed + inc.toNat }) := by
  cases a with
  | writeSRMetadata =>
    obtain ⟨b, hb, rfl⟩ := Option.map_eq_some_iff.mp hs
    unfold CircularReceiveBuffer.writeSRMetadata at hb
    split at hb
    · rw [← Option.some.inj hb]
      exact Or.inl ⟨rfl, _, rfl⟩
    · cases hb
  | incTail =>
    simp only [indexStep] at hs
    split at hs
    · next hroom =>
      obtain ⟨b, hb, rfl⟩ := Option.map_eq_some_iff.mp hs
      rw [CircularReceiveBuffer.incTailBuilt_eq hb]
      exact Or.inr (Or.inl ⟨rfl, hroom, rfl⟩)
    · cases hs
  | free inc =>
    simp only [indexStep] at hs
    split at hs
    · next hinc =>
      obtain ⟨b, hb, rfl⟩ := Option.map_eq_some_iff.mp hs
      unfold CircularReceiveBuffer.incSendersHeadToFreeSpace at hb
      split at hb
      · rw [← Option.some.inj hb]
        exact Or.inr (Or.inr ⟨inc, rfl, hinc.1, hinc.2, rfl⟩)
      · cases hb
    · cases hs

/-- `FreesWithinLap` な一歩だけの実行で保たれること。 -/
structure IndexInv (n : Nat) (s : CountedSender) : Prop where
  pos : 0 < n
  num : s.buf.numEntries = n
  freed_le : s.freed ≤ s.written
  out_le : s.outstanding ≤ n
  tail : s.buf.tail = s.written % n
  head : s.buf.sendersHead = s.freed % n
  full : s.buf.isFull = true ↔ s.outstanding = n

theorem indexInv_init (aBase aSize : Nat) (hn : 0 < n) :
    IndexInv n (CountedSender.init aBase aSize n) where
  pos := hn
  num := rfl
  freed_le := Nat.le_refl 0
  out_le := Nat.zero_le n
  tail := (Nat.zero_mod n).symm
  head := (Nat.zero_mod n).symm
  full := by
    show false = true ↔ 0 = n
    simp [Nat.ne_of_lt hn]

/-- 添字が重なるのは、未解放の数が一周の倍数のときである。 -/
theorem IndexInv.tail_eq_head_iff (h : IndexInv n s) :
    s.buf.sendersHead = s.buf.tail ↔ n ∣ s.outstanding := by
  rw [h.tail, h.head]
  exact Nat.modEq_iff_dvd' h.freed_le

theorem IndexInv.isEmpty_iff (h : IndexInv n s) : s.buf.isEmpty = true ↔ s.outstanding = 0 := by
  have hout := h.out_le
  have hpos := h.pos
  simp only [CircularReceiveBuffer.isEmpty, Bool.and_eq_true, Bool.not_eq_true', beq_iff_eq,
    h.tail_eq_head_iff, ← Bool.not_eq_true, h.full]
  constructor
  · rintro ⟨hne, hdvd⟩
    exact Nat.eq_zero_of_dvd_of_lt hdvd (by omega)
  · intro hzero
    exact ⟨by omega, hzero ▸ Nat.dvd_zero n⟩

theorem IndexInv.indicesRight (h : IndexInv n s) : s.IndicesRight where
  tail := h.num ▸ h.tail
  sendersHead := h.num ▸ h.head
  isFull := h.num ▸ h.full
  isEmpty := h.isEmpty_iff

theorem IndexInv.incTail (h : IndexInv n s) (hroom : s.outstanding < n) :
    IndexInv n { s with buf := s.buf.bumpTail.markFull, written := s.written + 1 } := by
  obtain ⟨hnum, hhead, -⟩ := CircularReceiveBuffer.advanced_rest (b := s.buf)
  have hle := h.freed_le
  have htail : s.buf.bumpTail.markFull.tail = (s.written + 1) % n := by
    rw [CircularReceiveBuffer.advanced_tail, h.num, h.tail, Nat.mod_add_mod]
    rw [h.num, h.tail]
    exact Nat.mod_lt _ h.pos
  unfold CountedSender.outstanding at hroom
  refine ⟨h.pos, hnum.trans h.num, by simp only; omega, ?_, htail, hhead.trans h.head, ?_⟩
  · show s.written + 1 - s.freed ≤ n
    omega
  · -- 書く前は満杯でないので、印が立つのは `tail` が追いついたときだけである
    have hnot : s.buf.isFull = false := by
      rw [← Bool.not_eq_true, h.full]
      unfold CountedSender.outstanding
      omega
    have hcatch : (s.written + 1) % n = s.freed % n ↔ n ∣ s.written + 1 - s.freed :=
      eq_comm.trans (Nat.modEq_iff_dvd' (by omega))
    show s.buf.bumpTail.markFull.isFull = true ↔ s.written + 1 - s.freed = n
    rw [CircularReceiveBuffer.advanced_isFull, hnot, Bool.false_or, decide_eq_true_iff, htail,
      h.head, hcatch]
    constructor
    · intro hdvd
      have := Nat.le_of_dvd (by omega) hdvd
      omega
    · intro heq
      rw [heq]

theorem IndexInv.free (h : IndexInv n s) {inc : Nat} (hpos : 1 ≤ inc)
    (hinc : inc ≤ s.outstanding) (hlap : s.buf.sendersHead + inc ≤ n) (hlt : inc < n) :
    IndexInv n { s with buf := s.buf.freedBy inc, freed := s.freed + inc } := by
  have hle := h.freed_le
  have hout := h.out_le
  unfold CountedSender.outstanding at hinc hout
  have hhead : (s.buf.freedBy inc).sendersHead = (s.freed + inc) % n := by
    show (if s.buf.sendersHead + inc ≥ s.buf.numEntries then 0 else s.buf.sendersHead + inc) = _
    rw [h.num, ← Nat.mod_add_mod, ← h.head]
    by_cases hend : s.buf.sendersHead + inc ≥ n
    · have he : s.buf.sendersHead + inc = n := by omega
      rw [if_pos hend, he, Nat.mod_self]
    · rw [if_neg hend, Nat.mod_eq_of_lt (by omega)]
  refine ⟨h.pos, h.num, by simp only; omega, ?_, h.tail, hhead, ?_⟩
  · show s.written - (s.freed + inc) ≤ n
    omega
  · show (if s.buf.tail ≠ (s.buf.freedBy inc).sendersHead then false else s.buf.isFull) = true
      ↔ s.written - (s.freed + inc) = n
    have hno : ¬ s.written - (s.freed + inc) = n := by omega
    simp only [hno, iff_false]
    split
    · exact Bool.false_ne_true
    · next hsame =>
      -- `tail` と重なったままなのは空になったときで、それまで満杯なら `inc` は一周ぶんである
      rw [hhead, h.tail, not_not] at hsame
      rw [h.full]
      unfold CountedSender.outstanding
      intro hfull
      have hdvd : n ∣ s.written - (s.freed + inc) :=
        (Nat.modEq_iff_dvd' (by omega)).mp hsame.symm
      have hzero := Nat.eq_zero_of_dvd_of_lt hdvd (by omega)
      omega

theorem IndexInv.step (h : IndexInv n s) (hok : FreesWithinLap s a)
    (hs : indexStep ndebug s a = some s') : IndexInv n s' := by
  obtain ⟨rfl, v, rfl⟩ | ⟨rfl, hroom, rfl⟩ | ⟨inc, rfl, hpos, hinc, rfl⟩ := indexStep_cases hs
  · exact ⟨h.pos, h.num, h.freed_le, h.out_le, h.tail, h.head, h.full⟩
  · exact h.incTail (h.num ▸ hroom)
  · obtain ⟨hlap, hlt⟩ := hok
    exact h.free hpos hinc (h.num ▸ hlap) (h.num ▸ hlt)

/-! ## 条件を破る解放 -/

/-- 端を越えた解放のあと、`senders_head` は剰余とずれている。 -/
theorem IndexInv.free_over (h : IndexInv n s) {inc : Nat} (hinc : inc ≤ s.outstanding)
    (hover : n < s.buf.sendersHead + inc) :
    (s.buf.freedBy inc).sendersHead ≠ (s.freed + inc) % n := by
  have hout := h.out_le
  have hlt : s.buf.sendersHead < n := by
    rw [h.head]
    exact Nat.mod_lt _ h.pos
  have hzero : (s.buf.freedBy inc).sendersHead = 0 := by
    show (if s.buf.sendersHead + inc ≥ s.buf.numEntries then 0 else _) = 0
    rw [h.num, if_pos (by omega)]
  rw [hzero, ← Nat.mod_add_mod, ← h.head, Nat.mod_eq_sub_mod (by omega),
    Nat.mod_eq_of_lt (by omega)]
  omega

/-- 満杯の buffer を一度に空けると、添字は元に戻り、満杯の印が残る。 -/
theorem IndexInv.free_all (h : IndexInv n s) (hfull : s.outstanding = n)
    (hlap : s.buf.sendersHead + n ≤ n) : (s.buf.freedBy n).isFull = true := by
  have hzero : (s.buf.freedBy n).sendersHead = 0 := by
    show (if s.buf.sendersHead + n ≥ s.buf.numEntries then 0 else _) = 0
    rw [h.num, if_pos (by omega)]
  have htail : s.buf.tail = 0 := by
    have hsame := h.tail_eq_head_iff.mpr (hfull ▸ Nat.dvd_refl n)
    omega
  show (if s.buf.tail ≠ (s.buf.freedBy n).sendersHead then false else s.buf.isFull) = true
  rw [hzero, htail, if_neg (not_not.mpr rfl)]
  exact h.full.mpr hfull

/-- **条件を破る解放の直後には、必ず表示がずれる。** -/
theorem IndexInv.exact (h : IndexInv n s) (hs : indexStep ndebug s a = some s')
    (hright : s'.IndicesRight) : FreesWithinLap s a := by
  obtain ⟨rfl, v, rfl⟩ | ⟨rfl, -, rfl⟩ | ⟨inc, rfl, hpos, hinc, rfl⟩ := indexStep_cases hs
  · trivial
  · trivial
  · have hnum : (s.buf.freedBy inc.toNat).numEntries = n := h.num
    have hout := h.out_le
    have hlap : s.buf.sendersHead + inc.toNat ≤ n := by
      by_contra hbad
      exact h.free_over hinc (by omega) (hnum ▸ hright.sendersHead)
    refine ⟨h.num ▸ hlap, ?_⟩
    rw [h.num]
    by_contra hbad
    have hall : inc.toNat = n := by omega
    have hfull := hright.isFull.mp (hall ▸ h.free_all (by omega) (hall ▸ hlap))
    simp only [CountedSender.outstanding, hnum] at hfull hinc hout
    omega

/-! ## 全体の定理 -/

/--
**添字と満杯の印が個数を表すのは、端を越えず一度に空けもしない実行に限る。**

実行を通して `tail`、`senders_head`、`is_full`、`isEmpty()` が書いた数と解放した数を表すことと、
どの解放も `senders_head + inc <= numEntries` かつ `inc < numEntries` であることとは同じである。
`assert` の有無によらない。
-/
theorem indices_right_iff (ndebug : Bool) {aBase aSize : Nat} (hn : 1 ≤ n)
    (as : List IndexAction) :
    Throughout (indexStep ndebug) CountedSender.IndicesRight (CountedSender.init aBase aSize n) as ↔
      Along (indexStep ndebug) FreesWithinLap (CountedSender.init aBase aSize n) as :=
  throughout_iff_along (fun _ hu => hu.indicesRight) (fun _ _ _ hu hok hs => hu.step hok hs)
    (fun _ _ _ hu hs hright => hu.exact hs hright) (indexInv_init aBase aSize hn)

/-- 3 段の buffer を満杯にし、二度に分けて空け、また書く。 -/
theorem indices_right_refill :
    Throughout (indexStep false) CountedSender.IndicesRight (CountedSender.init 4096 64 3)
      [.writeSRMetadata, .incTail, .writeSRMetadata, .incTail, .writeSRMetadata, .incTail,
        .free 2, .free 1, .writeSRMetadata, .incTail] :=
  (indices_right_iff false (by decide) _).mpr (by decide)

/--
個数をいつも表すわけではない。2 段の buffer に 2 つ書いて一度に空けると、
満杯の印が残り、`isEmpty()` は偽のままである。
3 段の buffer で端を越えて解放すると、`senders_head` は 1 ではなく 0 になる。
-/
theorem indices_wrong :
    (∃ s, exec (indexStep false) (CountedSender.init 4096 64 2)
        [.writeSRMetadata, .incTail, .writeSRMetadata, .incTail, .free 2] = some s ∧
      s.outstanding = 0 ∧ s.buf.isFull = true ∧ s.buf.isEmpty = false) ∧
    (∃ s, exec (indexStep false) (CountedSender.init 4096 64 3)
        [.writeSRMetadata, .incTail, .writeSRMetadata, .incTail, .free 2,
          .writeSRMetadata, .incTail, .writeSRMetadata, .incTail, .free 2] = some s ∧
      s.freed % 3 = 1 ∧ s.buf.sendersHead = 0) ∧
    ¬ ∀ (n : Nat) (s : CountedSender), 1 ≤ n →
      Reaches (indexStep false) Always (CountedSender.init 4096 64 n) s → s.IndicesRight := by
  have hall : exec (indexStep false) (CountedSender.init 4096 64 2)
    [.writeSRMetadata, .incTail, .writeSRMetadata, .incTail, .free 2] = some _ := rfl
  refine ⟨⟨_, hall, rfl, rfl, rfl⟩, ⟨_, rfl, rfl, rfl⟩, fun h => ?_⟩
  have hright := h 2 _ (by decide) (reaches_of_exec (fun _ _ _ => trivial) hall)
  exact absurd (hright.isFull.mp rfl) (by decide)

end L3fwd.Rpc
