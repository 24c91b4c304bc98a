import Mathlib.Logic.Function.Basic

/-!
# 確保と解放

番号で呼ばれる object の置き場。番号は使い回されない。

確保されていない番号や、もう解放された番号を読み書きしたり解放したりすることはできない。
したがって、失敗せずに終わって中身が元に戻っていれば、確保したものはどれもちょうど一度ずつ解放されている。
-/

namespace Infra

/-- object の置き場。`fresh` から先の番号はまだ使われていない。 -/
structure Heap (α : Type*) where
  cells : Nat → Option α
  fresh : Nat
  unused : ∀ i, fresh ≤ i → cells i = none

namespace Heap

variable {α : Type*}

/-- 空の置き場。 -/
def empty : Heap α := ⟨fun _ => none, 0, fun _ _ => rfl⟩

/-- `fresh` 番に object を置く。 -/
def alloc (m : Heap α) (a : α) : Heap α where
  cells := Function.update m.cells m.fresh (some a)
  fresh := m.fresh + 1
  unused := by
    intro i hi
    rw [Function.update_of_ne (Nat.ne_of_gt hi)]
    exact m.unused i (Nat.le_of_succ_le hi)

/-- 置き換える。なければ失敗する。 -/
def set (m : Heap α) (i : Nat) (a : α) : Option (Heap α) :=
  match h : m.cells i with
  | none => none
  | some _ => some
    { m with
      cells := Function.update m.cells i (some a)
      unused := by
        intro j hj
        have hne : j ≠ i := by
          rintro rfl
          rw [m.unused j hj] at h
          cases h
        rw [Function.update_of_ne hne]
        exact m.unused j hj }

/-- 取り除く。なければ失敗する。 -/
def free (m : Heap α) (i : Nat) : Option (Heap α) :=
  match m.cells i with
  | none => none
  | some _ => some
    { m with
      cells := Function.update m.cells i none
      unused := by
        intro j hj
        by_cases hne : j = i
        · rw [hne, Function.update_self]
        · rw [Function.update_of_ne hne]
          exact m.unused j hj }

/-- 確保してすぐに解放すると、中身は元に戻る。 -/
theorem free_alloc (m : Heap α) (a : α) :
    ∃ m', (m.alloc a).free m.fresh = some m' ∧ m'.cells = m.cells := by
  unfold free
  have hcell : (m.alloc a).cells m.fresh = some a := Function.update_self _ _ _
  split
  · next hnone => rw [hcell] at hnone; cases hnone
  · refine ⟨_, rfl, ?_⟩
    show Function.update (Function.update m.cells m.fresh (some a)) m.fresh none = m.cells
    rw [Function.update_idem, ← m.unused m.fresh (Nat.le_refl _), Function.update_eq_self]

end Heap

end Infra
