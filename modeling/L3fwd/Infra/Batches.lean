import L3fwd.Infra.Board
import Mathlib.Data.List.Flatten
import Mathlib.Data.List.Nodup
import Mathlib.Data.List.Perm.Subperm
import Mathlib.Data.Fintype.Card
import Mathlib.Order.Interval.Finset.Nat

/-!
# 読み終えた区間の全体

読み手が順番に終わらないとき、読み終えた要素の並びは書いた順とは限らない。
それでも区間は重ならず、読み手がいなくなれば隙間もないので、
並べ替えれば書いた列の先頭部分になる。

もうひとつ、空でない区間は重ならないので、区間を持つ人数は位置の幅を超えない。
回数を折り返す数で数える実装は、このことから人数を取り違えない。
-/

namespace Infra

namespace Board

variable {ι α : Type*} {cap : Nat} {b : Board ι α} {σ : Side}

/-- 区間の位置を順に引けば、列のその部分になる。 -/
theorem filterMap_range' (l : List α) (a n : Nat) :
    (List.range' a n).filterMap (fun p => l[p]?) = (l.drop a).take n := by
  induction n with
  | zero => rfl
  | succ n ih =>
    rw [List.range'_concat, List.filterMap_append, ih, Nat.one_mul, List.take_add_one,
      List.getElem?_drop, List.filterMap_cons, List.filterMap_nil]
    cases l[a + n]? <;> rfl

theorem filterMap_range (l : List α) (n : Nat) :
    (List.range n).filterMap (fun p => l[p]?) = l.take n := by
  rw [List.range_eq_range', filterMap_range', List.drop_zero]

/-- 区間の位置。 -/
def batchRange (e : Nat × List α) : List Nat := List.range' e.1 e.2.length

theorem mem_batchRange {e : Nat × List α} {p : Nat} :
    p ∈ batchRange e ↔ e.1 ≤ p ∧ p < batchStop e := by
  rw [batchRange, List.mem_range'_1, batchStop]

/-- 読み終えた位置に重なりはない。 -/
theorem Delivered.nodup (h : Delivered b) : (b.taken.flatMap batchRange).Nodup := by
  refine List.nodup_flatMap.mpr ⟨fun e _ => List.nodup_range', h.apart.imp ?_⟩
  intro e e' hapart p hp hp'
  rw [mem_batchRange] at hp hp'
  simp only [ApartFrom] at hapart
  omega

/-- 読み終えた位置の要素を順に並べたものが、読み終えた要素である。 -/
theorem Delivered.filterMap_eq (h : Delivered b) :
    (b.taken.flatMap batchRange).filterMap (fun p => b.sent[p]?) = b.taken.flatMap Prod.snd := by
  have hcontent := h.content
  generalize b.taken = l at hcontent ⊢
  induction l with
  | nil => rfl
  | cons e es ih =>
    rw [List.flatMap_cons, List.flatMap_cons, List.filterMap_append,
      ih fun e' he' => hcontent e' (List.mem_cons_of_mem _ he'), batchRange, filterMap_range',
      ← hcontent e List.mem_cons_self]

/-- **余分に渡さない。** 読み終えた要素は、位置ごとに見て、書いた列から一度ずつ取ったものである。 -/
theorem Delivered.subperm (h : Delivered b) : (b.taken.flatMap Prod.snd).Subperm b.sent := by
  have hsub : (b.taken.flatMap batchRange).Subperm (List.range (b.head .cons)) := by
    refine List.subperm_of_subset h.nodup fun p hp => ?_
    obtain ⟨e, he, hpe⟩ := List.mem_flatMap.mp hp
    have := h.below e he
    rw [mem_batchRange] at hpe
    exact List.mem_range.mpr (by omega)
  obtain ⟨l, hl, hsublist⟩ := hsub
  refine ⟨l.filterMap fun p => b.sent[p]?, ?_, ?_⟩
  · rw [← h.filterMap_eq]
    exact hl.filterMap _
  · refine (hsublist.filterMap _).trans ?_
    rw [filterMap_range]
    exact List.take_sublist _ _

/-- **残さず渡す。** 読んでいる途中の者がいなければ、読み終えた要素は、書いた列の先頭部分の並べ替えである。 -/
theorem Delivered.perm (h : Delivered b) (hidle : ∀ t, b.win .cons t = none) :
    (b.taken.flatMap Prod.snd).Perm (b.sent.take (b.head .cons)) := by
  have hperm : (b.taken.flatMap batchRange).Perm (List.range (b.head .cons)) := by
    refine (List.perm_ext_iff_of_nodup h.nodup List.nodup_range).mpr fun p => ?_
    rw [List.mem_flatMap, List.mem_range]
    constructor
    · rintro ⟨e, he, hp⟩
      have := h.below e he
      rw [mem_batchRange] at hp
      omega
    · intro hp
      rcases h.covered p hp with ⟨e, he, hin⟩ | ⟨t, w, hw, -⟩
      · exact ⟨e, he, mem_batchRange.mpr hin⟩
      · rw [hidle t] at hw
        cases hw
  rw [← h.filterMap_eq, ← filterMap_range]
  exact hperm.filterMap _

/-- **溜め込まない。** `tail` の手前の位置はどれも読み終えている。 -/
theorem Delivered.tail_le (h : Delivered b) (hpl : Placed cap b) :
    b.tail .cons ≤ (b.taken.flatMap batchRange).length := by
  have hsub : (List.range (b.tail .cons)).Subperm (b.taken.flatMap batchRange) := by
    refine List.subperm_of_subset List.nodup_range fun p hp => List.mem_flatMap.mpr ?_
    have hlt := List.mem_range.mp hp
    have htail := hpl.tail_le .cons
    rcases h.covered p (by omega) with ⟨e, he, hin⟩ | ⟨t, w, hw, hin⟩
    · exact ⟨e, he, mem_batchRange.mpr hin⟩
    · have hlow := (hpl.win_within hw).1
      omega
  simpa using hsub.length_le

theorem length_flatMap_batchRange :
    (b.taken.flatMap batchRange).length = (b.taken.flatMap Prod.snd).length := by
  simp only [List.length_flatMap, batchRange, List.length_range']

/-! ## 区間を持つ人数 -/

section

variable [Fintype ι]

/-- その側に区間を持つ者。 -/
def holders (b : Board ι α) (σ : Side) : Finset ι :=
  Finset.univ.filter fun t => (b.win σ t).isSome = true

theorem mem_holders {t : ι} : t ∈ b.holders σ ↔ ∃ w, b.win σ t = some w := by
  rw [holders, Finset.mem_filter, Option.isSome_iff_exists]
  simp

section

variable {b' : Board ι α} {t : ι}

theorem holders_congr (h : ∀ u, (b'.win σ u).isSome = (b.win σ u).isSome) :
    b'.holders σ = b.holders σ := by
  simp only [holders, h]

variable [DecidableEq ι] (hother : ∀ u, u ≠ t → b'.win σ u = b.win σ u)

include hother

/-- 一人が区間を取る。 -/
theorem holders_insert {w : Window} (hself : b'.win σ t = some w) :
    b'.holders σ = insert t (b.holders σ) := by
  ext u
  rw [Finset.mem_insert, mem_holders, mem_holders]
  by_cases hu : u = t
  · subst hu
    exact ⟨fun _ => Or.inl rfl, fun _ => ⟨w, hself⟩⟩
  · rw [hother u hu]
    simp [hu]

/-- 一人が区間を返す。 -/
theorem holders_erase (hself : b'.win σ t = none) : b'.holders σ = (b.holders σ).erase t := by
  ext u
  rw [Finset.mem_erase, mem_holders, mem_holders]
  by_cases hu : u = t
  · subst hu
    simp [hself]
  · rw [hother u hu]
    simp [hu]

end

/-- **人数の上限。** 区間がどれも空でなければ、区間を持つ人数は `tail` から `head` までの幅を超えない。 -/
theorem Placed.holders_le (h : Placed cap b) (hpos : ∀ t w, b.win σ t = some w → 0 < w.len) :
    (b.holders σ).card ≤ b.head σ - b.tail σ := by
  have hstart : ∀ t w, b.win σ t = some w →
      ((b.win σ t).map Window.start).getD 0 = w.start := by
    intro t w hw
    rw [hw]
    rfl
  rw [← Nat.card_Ico]
  refine Finset.card_le_card_of_injOn (fun t => ((b.win σ t).map Window.start).getD 0) ?_ ?_
  · intro t ht
    obtain ⟨w, hw⟩ := mem_holders.mp ht
    obtain ⟨h1, h2, -⟩ := h.win_within hw
    have := hpos t w hw
    rw [Window.stop] at h2
    dsimp only
    rw [hstart t w hw, Finset.coe_Ico, Set.mem_Ico]
    omega
  · intro t ht u hu heq
    obtain ⟨w, hw⟩ := mem_holders.mp ht
    obtain ⟨v, hv⟩ := mem_holders.mp hu
    dsimp only at heq
    rw [hstart t w hw, hstart u v hv] at heq
    by_contra hne
    have hapart := h.win_apart hw hv hne
    have h1 := hpos t w hw
    have h2 := hpos u v hv
    simp only [ApartFrom, Window.stop] at hapart
    omega

end

end Board

end Infra
