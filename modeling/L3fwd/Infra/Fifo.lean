import Mathlib.Data.List.Basic

/-!
# 容量つき FIFO

容量 `cap` を超えて溜められない先入れ先出しの列。容量の条件は構造体が持つので、
溢れた列は作れない。満杯のときの `push` と空のときの `pop` は `none` を返す。
-/

namespace Infra

/-- 長さが `cap` 以下の列。先頭が次に取り出される要素である。 -/
structure Fifo (α : Type*) (cap : Nat) where
  items : List α
  length_le : items.length ≤ cap

namespace Fifo

variable {α : Type*} {cap : Nat}

/-- 末尾に足す。満杯なら失敗する。 -/
def push (f : Fifo α cap) (x : α) : Option (Fifo α cap) :=
  if h : f.items.length < cap then
    some { items := f.items ++ [x], length_le := by rw [List.length_append]; exact h }
  else none

/-- 先頭を取り出す。空なら失敗する。 -/
def pop (f : Fifo α cap) : Option (α × Fifo α cap) :=
  match h : f.items with
  | [] => none
  | x :: rest => some (x, ⟨rest, by have := f.length_le; rw [h] at this; simp at this; omega⟩)

theorem push_items {f f' : Fifo α cap} {x : α} (h : f.push x = some f') :
    f'.items = f.items ++ [x] := by
  unfold push at h
  split at h
  · rw [← Option.some.inj h]
  · cases h

/-- 失敗するのは満杯のときだけである。 -/
theorem push_eq_none_iff {f : Fifo α cap} {x : α} :
    f.push x = none ↔ f.items.length = cap := by
  have := f.length_le
  unfold push
  split <;> simp <;> omega

theorem pop_eq_none_iff {f : Fifo α cap} : f.pop = none ↔ f.items = [] := by
  unfold pop
  split
  · next h => simp [h]
  · next h => simp [h]

theorem pop_items {f f' : Fifo α cap} {x : α} (h : f.pop = some (x, f')) :
    f.items = x :: f'.items := by
  unfold pop at h
  split at h
  · cases h
  · next y rest he =>
    simp only [Option.some.injEq, Prod.mk.injEq] at h
    obtain ⟨rfl, rfl⟩ := h
    exact he

/-- 空の列。 -/
def empty : Fifo α cap := ⟨[], Nat.zero_le _⟩

/-- 余地があるあいだは、順に足していける。 -/
theorem foldlM_push {f : Fifo α cap} {xs : List α} (hroom : f.items.length + xs.length ≤ cap) :
    ∃ f', xs.foldlM push f = some f' ∧ f'.items = f.items ++ xs := by
  induction xs generalizing f with
  | nil => exact ⟨f, rfl, (List.append_nil _).symm⟩
  | cons x xs ih =>
    rw [List.length_cons] at hroom
    cases hpush : f.push x with
    | none =>
      have := push_eq_none_iff.mp hpush
      omega
    | some g =>
      have hitems := push_items hpush
      obtain ⟨f', hf', hf'i⟩ := ih (f := g) (by
        rw [hitems, List.length_append, List.length_singleton]
        omega)
      refine ⟨f', ?_, ?_⟩
      · rw [List.foldlM_cons, hpush]
        exact hf'
      · rw [hf'i, hitems, List.append_assoc, List.singleton_append]

@[ext] theorem ext {f f' : Fifo α cap} (h : f.items = f'.items) : f = f' := by
  cases f
  cases f'
  simpa using h

end Fifo

end Infra
