import L3fwd.Infra.Tokens
import L3fwd.Hash.Sections

/-!
# slot の番号の持ち主

key store の slot の番号は、`free_slots` にあるか、bucket の entry にあるか、
追加の途中の writer が手にしているかのどれかである。同じ番号が二か所に現れることはない。
番号 0 は dummy の slot で、いくつあってもよい。

`Infra.Tokens` の番号札を table に当てはめる。writer の種類は任意で、逐次の追加では一人である。
-/

namespace L3fwd.Hash

open Infra Table

variable {h : RteHash} {t t' : Table h} {ι : Type*} {held : ι → Nat}

/-- slot の番号は高々一か所にしかない。`held i` は writer `i` が手にしている番号である。 -/
def Owned (t : Table h) (held : ι → Nat) : Prop :=
  Tokens h.entries t.freeSlots.items t.idxAt held

theorem Owned.init (h : RteHash) (keyStore : Mem) :
    Owned (Table.init h keyStore) (fun _ : ι => 0) := Tokens.init h.entries

/-- entry と `free_slots` が同じなら、持ち主も同じである。 -/
theorem Owned.congr (ho : Owned t held) (hb : t'.bkts = t.bkts)
    (hring : t'.freeSlots = t.freeSlots) : Owned t' held := by
  unfold Owned
  rw [hring, idxAt_congr hb]
  exact ho

theorem DataOnly.owned (hd : DataOnly t t') (ho : Owned t held) : Owned t' held :=
  ho.congr hd.bkts hd.freeSlots

theorem Owned.shifts (ho : Owned t held) (hs : Shifts t t') : Owned t' held := by
  refine Shifts.invariant (P := fun u => Owned u held) hs ho ?_ ?_
  · intro u u' hu hsame
    exact hu.congr hsame.bkts hsame.freeSlots
  · intro u u' q p hu hshift
    unfold Owned
    rw [hshift.freeSlots]
    exact Tokens.move hu hshift.idx

theorem Owned.setNext (ho : Owned t held) (b : BktRef) (id : Nat) :
    Owned (t.setNext b id) held := by
  have hidx : (t.setNext b id).idxAt = t.idxAt := funext fun q => idxAt_setNext t b id q
  unfold Owned
  rw [hidx]
  exact ho

section

variable [DecidableEq ι] {i : ι}

/-- `alloc_slot` で取れた番号は、待ち行列の先頭か、空なら 0 である。 -/
theorem allocSlot_cases (t : Table h) :
    (t.freeSlots.items = [] ∧ t.allocSlot = (emptySlot, t)) ∨
    ∃ id q, t.freeSlots.items = id :: q.items ∧ t.allocSlot = (id, { t with freeSlots := q }) := by
  unfold allocSlot
  cases hpop : t.freeSlots.pop with
  | none => exact Or.inl ⟨Fifo.pop_eq_none_iff.mp hpop, rfl⟩
  | some r =>
    obtain ⟨id, q⟩ := r
    exact Or.inr ⟨id, q, Fifo.pop_items hpop, rfl⟩

/-- slot の出し入れで変わるのは `free_slots` だけである。 -/
structure RingOnly (t t' : Table h) : Prop where
  bkts : t'.bkts = t.bkts
  keyStore : t'.keyStore = t.keyStore
  freeExtBkts : t'.freeExtBkts = t.freeExtBkts

theorem ringOnly_allocSlot (t : Table h) : RingOnly t t.allocSlot.2 := by
  rcases allocSlot_cases t with ⟨-, heq⟩ | ⟨id, q, -, heq⟩
  · rw [heq]
    exact ⟨rfl, rfl, rfl⟩
  · rw [heq]
    exact ⟨rfl, rfl, rfl⟩

theorem Owned.allocSlot (ho : Owned t held) (hi : held i = 0) :
    Owned t.allocSlot.2 (Function.update held i t.allocSlot.1) := by
  rcases allocSlot_cases t with ⟨-, heq⟩ | ⟨id, q, hitems, heq⟩
  · rw [heq]
    have hself : Function.update held i emptySlot = held := by
      rw [Function.update_eq_self_iff]
      exact hi.symm
    rw [hself]
    exact ho
  · rw [heq]
    unfold Owned at ho ⊢
    rw [hitems] at ho
    exact ho.take hi

/-- `enqueue_slot_back` は末尾に足す。ring が一杯なら何もしない。 -/
theorem enqueueSlotBack_cases (t : Table h) (slotId : Nat) :
    t.enqueueSlotBack slotId = t ∨
    ∃ q, q.items = t.freeSlots.items ++ [slotId] ∧
      t.enqueueSlotBack slotId = { t with freeSlots := q } := by
  unfold enqueueSlotBack
  cases hpush : t.freeSlots.push slotId with
  | none => exact Or.inl rfl
  | some q => exact Or.inr ⟨q, Fifo.push_items hpush, rfl⟩

theorem ringOnly_enqueueSlotBack (t : Table h) (slotId : Nat) :
    RingOnly t (t.enqueueSlotBack slotId) := by
  rcases enqueueSlotBack_cases t slotId with heq | ⟨q, -, heq⟩
  · rw [heq]
    exact ⟨rfl, rfl, rfl⟩
  · rw [heq]
    exact ⟨rfl, rfl, rfl⟩

theorem Owned.enqueueSlotBack (ho : Owned t held) (i : ι) :
    Owned (t.enqueueSlotBack (held i)) (Function.update held i 0) := by
  rcases enqueueSlotBack_cases t (held i) with heq | ⟨q, hitems, heq⟩
  · rw [heq]
    exact ho.drop i
  · rw [heq]
    unfold Owned
    rw [hitems]
    exact ho.giveBack i

/-- 手にした番号を entry に書く。 -/
theorem Owned.setEntry (ho : Owned t held) (i : ι) (p : Pos) (sig : UInt16) :
    Owned (t.setEntry p sig (held i)) (Function.update held i 0) :=
  Tokens.place i ho fun r => idxAt_setEntry t p r sig (held i)

theorem Owned.placed {p : Pos} {sig : UInt16} (ho : Owned t held) (i : ι)
    (hp : Placed sig (held i) t p t') : Owned t' (Function.update held i 0) := by
  obtain ⟨v, hv, -, hsame⟩ := hp
  exact ((ho.shifts hv).setEntry i p sig).congr hsame.bkts hsame.freeSlots

theorem allocExtBkt_bkts (t : Table h) :
    (allocExtBkt t).2.bkts = t.bkts ∧ (allocExtBkt t).2.freeSlots = t.freeSlots ∧
      (allocExtBkt t).2.keyStore = t.keyStore := by
  unfold allocExtBkt
  split
  · exact ⟨rfl, rfl, rfl⟩
  · exact ⟨rfl, rfl, rfl⟩

theorem Owned.linkExt (ho : Owned t held) (i : ι) (b : BktRef) (sig : UInt16) :
    Owned (linkExt t b sig (held i)) (Function.update held i 0) := by
  have ha := allocExtBkt_bkts t
  exact ((ho.congr ha.1 ha.2.1).setEntry i _ sig).setNext _ _

end

theorem Linked.placed {c slotId : Nat} {sig : UInt16} {p : Pos} (hl : Linked t c) (hrank : p.1.rank ≤ c)
    (hp : Placed sig slotId t p t') : Linked t' c := by
  obtain ⟨v, hv, -, hsame⟩ := hp
  exact ((hl.shifts hv).setEntry hrank sig slotId).of_bkts hsame.bkts hsame.freeExtBkts

theorem DataOnly.linked {c : Nat} (hd : DataOnly t t') (hl : Linked t c) : Linked t' c :=
  hl.of_bkts hd.bkts hd.freeExtBkts

theorem RingOnly.linked {c : Nat} (hr : RingOnly t t') (hl : Linked t c) : Linked t' c :=
  hl.of_bkts hr.bkts hr.freeExtBkts

theorem Present.dataOnly {key : Key} {data : UInt64} {sig : UInt16} {bkt altBkt : BktRef}
    {ret : Int} (hp : Present t key data sig bkt altBkt ret t') : DataOnly t t' := by
  obtain ⟨p, t1, -, ht1, -, rfl⟩ := hp
  exact ht1.dataOnly.trans (dataOnly_setData t1 _ data)

/-- 見つかった番号は 0 以上である。 -/
theorem Present.ret_nonneg {key : Key} {data : UInt64} {sig : UInt16} {bkt altBkt : BktRef}
    {ret : Int} (hp : Present t key data sig bkt altBkt ret t') : 0 ≤ ret := by
  obtain ⟨p, -, hhit, -, hret, -⟩ := hp
  have hne : t.idxAt p ≠ 0 := hhit.2.2
  omega

end L3fwd.Hash
