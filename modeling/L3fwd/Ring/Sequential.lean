import L3fwd.Infra.Fifo
import L3fwd.Ring.Defs

/-!
# 一人で使う ring

ほかの thread が動かなければ、`__rte_ring_do_enqueue_elem` と `__rte_ring_do_dequeue_elem` は
一度で `head` を動かし、要素を写し、待たずに `tail` を書く。

そのとき ring は容量つきの列と同じに振る舞う。どんな呼び出しの列でも、返す個数、残りの個数、
渡す要素が列と一致する（`ring_refines_queue`）。位置が 2^32 を越えて折り返しても変わらない。

`rte_hash` は `free_slots` と `free_ext_bkts` を一つずつの出し入れでしか使わない。
その使い方では、ring は `Infra.Fifo` そのものである（`ring_refines_fifo`）。
-/

namespace L3fwd.Ring

open Infra

variable {α : Type*} {g : Geometry} {r : RteRing α} {xs : List α} {c : Call α} {q : Nat}

/-- ほかの thread が動かないときの `__rte_ring_do_enqueue_elem`、`__rte_ring_do_dequeue_elem`。 -/
def doElem (g : Geometry) (r : RteRing α) (c : Call α) : RteRing α × Result α :=
  let old := (r.ht c.side).head
  let free := entries g c.side (r.ht c.side.opp).tail old
  let n := granted c.behavior c.n free
  if n = 0 then (r, ⟨0, free, []⟩)
  else
    let r := r.setHead c.side (old + n)
    let (slots, got) := copyAll g r.slots c old n.toNat
    (RteRing.setTail { r with slots := slots } c.side (old + n), ⟨n, free - n, got⟩)

/-- `rte_ring_init` の直後の ring。 -/
def emptyRing (slots : Nat → α) : RteRing α := ⟨fun _ => ⟨0, 0⟩, slots⟩

/-! ## 容量つきの列 -/

/-- 同じ呼び出しを、容量つきの列に対して行う。 -/
def queueCall (capacity : UInt32) (xs : List α) (c : Call α) : List α × Result α :=
  match c.side with
  | .prod =>
    let free := capacity - UInt32.ofNat xs.length
    let n := granted c.behavior c.n free
    (xs ++ (List.range n.toNat).map c.objs, ⟨n, free - n, []⟩)
  | .cons =>
    let free := UInt32.ofNat xs.length
    let n := granted c.behavior c.n free
    (xs.drop n.toNat, ⟨n, free - n, xs.take n.toNat⟩)

/-- 誰も使っていない ring の、位置 `q` からに `xs` が入っている。 -/
structure Holds (g : Geometry) (r : RteRing α) (xs : List α) (q : Nat) : Prop where
  quiet : ∀ σ, (r.ht σ).head = (r.ht σ).tail
  cons : (r.ht .cons).tail = UInt32.ofNat q
  prod : (r.ht .prod).tail = UInt32.ofNat (q + xs.length)
  fits : xs.length ≤ g.capacity.toNat
  slots : ∀ j x, xs[j]? = some x → r.slots ((q + j) % 2 ^ g.bits) = x

theorem emptyRing_holds (slots : Nat → α) : Holds g (emptyRing slots) [] 0 where
  quiet _ := rfl
  cons := rfl
  prod := rfl
  fits := Nat.zero_le _
  slots := by simp

theorem Holds.length_word (h : Holds g r xs q) : (UInt32.ofNat xs.length).toNat = xs.length := by
  have h1 := h.fits
  have h2 := g.capacity_lt_word
  rw [UInt32.toNat_ofNat', Nat.mod_eq_of_lt (by omega)]

/-- 求めた余裕は、列の余裕である。 -/
theorem Holds.entries_prod (h : Holds g r xs q) :
    entries g .prod (r.ht .cons).tail (r.ht .prod).head = g.capacity - UInt32.ofNat xs.length := by
  have h1 := h.fits
  have h2 := g.capacity_lt_word
  apply UInt32.toNat_inj.mp
  rw [h.quiet, h.cons, h.prod, entries]
  simp only [UInt32.toNat_sub, UInt32.toNat_add, UInt32.toNat_ofNat']
  omega

theorem Holds.entries_cons (h : Holds g r xs q) :
    entries g .cons (r.ht .prod).tail (r.ht .cons).head = UInt32.ofNat xs.length := by
  have h1 := h.fits
  have h2 := g.capacity_lt_word
  apply UInt32.toNat_inj.mp
  rw [h.quiet, h.cons, h.prod, entries]
  simp only [UInt32.toNat_sub, UInt32.toNat_ofNat']
  omega

/-- 両方の位置を進めた後の位置。 -/
theorem setHead_setTail_ht (r : RteRing α) (σ : Side) (x : UInt32) (slots : Nat → α) :
    (RteRing.setTail { r.setHead σ x with slots := slots } σ x).ht =
      Function.update r.ht σ ⟨x, x⟩ := by
  funext τ
  by_cases hτ : τ = σ
  · subst hτ
    simp [RteRing.setTail, RteRing.setHead]
  · simp [RteRing.setTail, RteRing.setHead, hτ]

theorem Holds.enqueue (h : Holds g r xs q) (hc : c.side = .prod) :
    Holds g (doElem g r c).1 (queueCall g.capacity xs c).1 q ∧
      (doElem g r c).2 = (queueCall g.capacity xs c).2 := by
  have hfree : entries g c.side (r.ht c.side.opp).tail (r.ht c.side).head =
      g.capacity - UInt32.ofNat xs.length := by
    rw [hc]
    exact h.entries_prod
  have hlen := h.length_word
  have hcap := g.capacity_lt
  simp only [doElem, queueCall, hfree]
  simp only [hc]
  generalize hn : granted c.behavior c.n (g.capacity - UInt32.ofNat xs.length) = n
  have hle : n.toNat ≤ g.capacity.toNat - xs.length := by
    have hgrant := granted_le c.behavior c.n (g.capacity - UInt32.ofNat xs.length)
    rw [hn, UInt32.toNat_sub_of_le, hlen] at hgrant
    · exact hgrant
    · rw [UInt32.le_iff_toNat_le, hlen]
      exact h.fits
  have hfits := h.fits
  by_cases hzero : n = 0
  · subst hzero
    simpa using h
  · rw [if_neg hzero]
    obtain ⟨hput, hkeep⟩ := @copyAll_prod _ g r.slots c (r.ht .prod).head hc n.toNat (by omega)
    have hgot : (copyAll g r.slots c (r.ht .prod).head n.toNat).2 = [] := by
      clear hput hkeep hn hle hzero
      generalize n.toNat = k
      induction k with
      | zero => rfl
      | succ k ih =>
        simp only [copyAll, copyOne, hc]
        exact ih
    have hword : (r.ht .prod).head = UInt32.ofNat (q + xs.length) := (h.quiet .prod).trans h.prod
    have hindex : ∀ j, slotIndex g (r.ht .prod).head j = (q + xs.length + j) % 2 ^ g.bits := by
      intro j
      rw [hword, slotIndex_ofNat]
    refine ⟨⟨?_, ?_, ?_, ?_, ?_⟩, ?_⟩
    · intro σ
      rw [setHead_setTail_ht]
      cases σ with
      | prod => rw [Function.update_self]
      | cons => rw [Function.update_of_ne (by decide)]; exact h.quiet .cons
    · rw [setHead_setTail_ht, Function.update_of_ne (by decide)]
      exact h.cons
    · rw [setHead_setTail_ht, Function.update_self, hword, ← ofNat_add_word]
      simp [Nat.add_assoc]
    · rw [List.length_append, List.length_map, List.length_range]
      omega
    · intro j x hx
      rw [RteRing.setTail_slots]
      dsimp only [RteRing.setHead_slots]
      by_cases hj : j < xs.length
      · -- 前からある要素の場所は書き換えられない
        rw [List.getElem?_append_left hj] at hx
        rw [hkeep]
        · exact h.slots j x hx
        · intro i hi
          rw [hindex]
          exact @Board.mod_ne_of_near q _ _ _ (by omega) (by omega) (by omega) (by omega)
            (by omega)
      · rw [List.getElem?_append_right (by omega), List.getElem?_map] at hx
        have hlt : j - xs.length < n.toNat := by
          by_contra hge
          rw [List.getElem?_eq_none (by simpa using hge)] at hx
          cases hx
        rw [List.getElem?_range hlt, Option.map_some, Option.some.injEq] at hx
        have := hput (j - xs.length) hlt
        rw [hindex, show q + xs.length + (j - xs.length) = q + j by omega] at this
        rw [← hx]
        exact this
    · rw [RteRing.setHead_slots, hgot]

theorem Holds.dequeue (h : Holds g r xs q) (hc : c.side = .cons) :
    Holds g (doElem g r c).1 (queueCall g.capacity xs c).1
        (q + (queueCall g.capacity xs c).2.n.toNat) ∧
      (doElem g r c).2 = (queueCall g.capacity xs c).2 := by
  have hfree : entries g c.side (r.ht c.side.opp).tail (r.ht c.side).head =
      UInt32.ofNat xs.length := by
    rw [hc]
    exact h.entries_cons
  have hlen := h.length_word
  have hcap := g.capacity_lt
  have hfits := h.fits
  simp only [doElem, queueCall, hfree]
  simp only [hc]
  generalize hn : granted c.behavior c.n (UInt32.ofNat xs.length) = n
  have hle : n.toNat ≤ xs.length := by
    have hgrant := granted_le c.behavior c.n (UInt32.ofNat xs.length)
    rwa [hn, hlen] at hgrant
  by_cases hzero : n = 0
  · subst hzero
    simpa using h
  · rw [if_neg hzero, RteRing.setHead_slots, copyAll_cons hc]
    have hword : (r.ht .cons).head = UInt32.ofNat q := (h.quiet .cons).trans h.cons
    refine ⟨⟨?_, ?_, ?_, ?_, ?_⟩, ?_⟩
    · intro σ
      rw [setHead_setTail_ht]
      cases σ with
      | prod => rw [Function.update_of_ne (by decide)]; exact h.quiet .prod
      | cons => rw [Function.update_self]
    · rw [setHead_setTail_ht, Function.update_self, hword, ← ofNat_add_word]
    · rw [setHead_setTail_ht, Function.update_of_ne (by decide), h.prod, List.length_drop]
      congr 1
      omega
    · rw [List.length_drop]
      omega
    · intro j x hx
      rw [List.getElem?_drop] at hx
      have := h.slots (n.toNat + j) x hx
      rwa [← Nat.add_assoc] at this
    · -- 読み出した要素は、列の先頭の要素である
      have hgot : (List.range n.toNat).map (fun j => r.slots (slotIndex g (r.ht .cons).head j)) =
          xs.take n.toNat := by
        refine List.ext_getElem? fun j => ?_
        by_cases hj : j < n.toNat
        · have hx := List.getElem?_eq_getElem (show j < xs.length by omega)
          rw [List.getElem?_map, List.getElem?_range hj, Option.map_some,
            List.getElem?_take_of_lt hj, hx, hword, slotIndex_ofNat, h.slots j _ hx]
        · rw [List.getElem?_eq_none (by simpa using hj),
            List.getElem?_eq_none (Nat.le_trans (List.length_take_le _ _) (by omega))]
      rw [hgot]

/-- **一回の呼び出し。** ring は列と同じ結果を返し、列と同じ中身になる。 -/
theorem Holds.doElem (h : Holds g r xs q) (c : Call α) :
    (∃ q', Holds g (doElem g r c).1 (queueCall g.capacity xs c).1 q') ∧
      (doElem g r c).2 = (queueCall g.capacity xs c).2 := by
  cases hc : c.side with
  | prod => exact ⟨⟨q, (h.enqueue hc).1⟩, (h.enqueue hc).2⟩
  | cons => exact ⟨⟨_, (h.dequeue hc).1⟩, (h.dequeue hc).2⟩

/-! ## 呼び出しの列 -/

/-- 呼び出しを順に行い、結果を並べる。 -/
def runCalls {σ γ ρ : Type*} (call : σ → γ → σ × ρ) : σ → List γ → List ρ
  | _, [] => []
  | s, c :: cs => (call s c).2 :: runCalls call (call s c).1 cs

/-- **結果の一致。** 一回ごとに結果が等しく関係が保たれるなら、どの列でも結果が等しい。 -/
theorem runCalls_eq {σ τ γ ρ : Type*} {call : σ → γ → σ × ρ} {spec : τ → γ → τ × ρ}
    {R : σ → τ → Prop}
    (hstep : ∀ s t c, R s t → R (call s c).1 (spec t c).1 ∧ (call s c).2 = (spec t c).2)
    (cs : List γ) {s : σ} {t : τ} (h : R s t) : runCalls call s cs = runCalls spec t cs := by
  induction cs generalizing s t with
  | nil => rfl
  | cons c cs ih =>
    obtain ⟨hrel, hres⟩ := hstep s t c h
    rw [runCalls, runCalls, hres, ih hrel]

/--
**容量つきの列との一致。** enqueue と dequeue をどんな個数、どんな順で呼んでも、
ring が返す個数、残りの個数、渡す要素は、容量つきの列のものと同じである。
-/
theorem ring_refines_queue (g : Geometry) (slots : Nat → α) (cs : List (Call α)) :
    runCalls (doElem g) (emptyRing slots) cs = runCalls (queueCall g.capacity) [] cs := by
  have hstep : ∀ (r : RteRing α) (xs : List α) (c : Call α), (∃ q, Holds g r xs q) →
      (∃ q, Holds g (doElem g r c).1 (queueCall g.capacity xs c).1 q) ∧
        (doElem g r c).2 = (queueCall g.capacity xs c).2 := by
    rintro r xs c ⟨q, h⟩
    exact h.doElem c
  exact runCalls_eq hstep cs ⟨0, emptyRing_holds slots⟩

/-- 位置が端で折り返す例。 -/
example : runCalls (doElem fourSlots) (emptyRing fun _ => 0)
    [⟨.prod, 3, .queueFixed, fun j => j⟩, ⟨.cons, 2, .queueFixed, fun _ => 0⟩,
      ⟨.prod, 5, .queueVariable, fun j => 10 + j⟩, ⟨.cons, 9, .queueVariable, fun _ => 0⟩] =
    [⟨3, 0, []⟩, ⟨2, 1, [0, 1]⟩, ⟨2, 0, []⟩, ⟨3, 0, [2, 10, 11]⟩] := rfl

/-! ## 一つずつの出し入れ -/

/-- `-ENOBUFS`。 -/
def enobufs : Int := -105

/-- `-ENOENT`。 -/
def enoent : Int := -2

/-- 一つ入れるか、一つ出す。 -/
inductive ElemOp (α : Type*) where
  | enqueue (x : α)
  | dequeue

/-- `rte_ring_sp_enqueue_elem` と `rte_ring_sc_dequeue_elem`。 -/
def elemCall (g : Geometry) (r : RteRing α) : ElemOp α → RteRing α × Int × Option α
  | .enqueue x =>
    let (r, res) := doElem g r ⟨.prod, 1, .queueFixed, fun _ => x⟩
    (r, if res.n = 0 then enobufs else 0, none)
  | .dequeue =>
    let (r, res) := doElem g r ⟨.cons, 1, .queueFixed, fun j => r.slots j⟩
    (r, if res.n = 0 then enoent else 0, res.objs.head?)

/-- 同じ操作を `Fifo` に対して行う。 -/
def fifoCall {cap : Nat} (f : Fifo α cap) : ElemOp α → Fifo α cap × Int × Option α
  | .enqueue x =>
    match f.push x with
    | some f => (f, 0, none)
    | none => (f, enobufs, none)
  | .dequeue =>
    match f.pop with
    | some (x, f) => (f, 0, some x)
    | none => (f, enoent, none)

/-- 一つだけ頼むとき、動くのは余裕があるときである。 -/
theorem granted_one (free : UInt32) :
    granted .queueFixed 1 free = if free.toNat = 0 then 0 else 1 := by
  unfold granted
  have hone : (free < 1) = (free.toNat = 0) := by
    rw [UInt32.lt_iff_toNat_lt, UInt32.toNat_one]
    exact propext (by omega)
  simp only [hone]

theorem elemCall_fifoCall {f : Fifo α g.capacity.toNat} (h : Holds g r f.items q)
    (op : ElemOp α) : (∃ q', Holds g (elemCall g r op).1 (fifoCall f op).1.items q') ∧
      (elemCall g r op).2 = (fifoCall f op).2 := by
  have hlen := h.length_word
  cases op with
  | enqueue x =>
    obtain ⟨⟨q', hq'⟩, hres⟩ := h.doElem ⟨.prod, 1, .queueFixed, fun _ => x⟩
    have hfree : (g.capacity - UInt32.ofNat f.items.length).toNat =
        g.capacity.toNat - f.items.length := by
      rw [UInt32.toNat_sub_of_le, hlen]
      rw [UInt32.le_iff_toNat_le, hlen]
      exact h.fits
    simp only [queueCall, granted_one, hfree] at hq' hres
    simp only [elemCall, fifoCall, hres]
    cases hpush : f.push x with
    | none =>
      have hfull := Fifo.push_eq_none_iff.mp hpush
      have hnone : g.capacity.toNat - f.items.length = 0 := by omega
      rw [if_pos hnone] at hq' ⊢
      exact ⟨⟨q', by simpa using hq'⟩, rfl⟩
    | some f' =>
      have hroom : ¬ g.capacity.toNat - f.items.length = 0 := by
        intro hzero
        have hfull : f.items.length = g.capacity.toNat := by
          have := f.length_le
          omega
        rw [Fifo.push_eq_none_iff.mpr hfull] at hpush
        cases hpush
      rw [if_neg hroom] at hq' ⊢
      refine ⟨⟨q', ?_⟩, rfl⟩
      rw [Fifo.push_items hpush]
      exact hq'
  | dequeue =>
    obtain ⟨⟨q', hq'⟩, hres⟩ := h.doElem ⟨.cons, 1, .queueFixed, fun j => r.slots j⟩
    simp only [queueCall, granted_one, hlen] at hq' hres
    simp only [elemCall, fifoCall, hres]
    cases hpop : f.pop with
    | none =>
      have hempty := Fifo.pop_eq_none_iff.mp hpop
      simp only [hempty] at hq' ⊢
      exact ⟨⟨q', hq'⟩, rfl⟩
    | some y =>
      obtain ⟨x, f'⟩ := y
      have hitems := Fifo.pop_items hpop
      simp only [hitems] at hq' ⊢
      exact ⟨⟨q', hq'⟩, rfl⟩

/--
**`rte_hash` の使い方。** 空の ring に一つずつ出し入れする限り、返り値も渡す要素も
容量 `capacity` の `Fifo` と同じである。
-/
theorem ring_refines_fifo (g : Geometry) (slots : Nat → α) (ops : List (ElemOp α)) :
    runCalls (elemCall g) (emptyRing slots) ops =
      runCalls fifoCall (Fifo.empty : Fifo α g.capacity.toNat) ops := by
  have hstep : ∀ (r : RteRing α) (f : Fifo α g.capacity.toNat) (op : ElemOp α),
      (∃ q, Holds g r f.items q) → (∃ q, Holds g (elemCall g r op).1 (fifoCall f op).1.items q) ∧
        (elemCall g r op).2 = (fifoCall f op).2 := by
    rintro r f op ⟨q, h⟩
    exact elemCall_fifoCall h op
  exact runCalls_eq hstep ops ⟨0, emptyRing_holds slots⟩

end L3fwd.Ring
