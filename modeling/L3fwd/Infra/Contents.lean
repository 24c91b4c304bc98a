import Mathlib.Data.Finset.Basic
import Mathlib.Data.Multiset.Filter

/-!
# 置き場所と中身

有限個の場所のそれぞれに、高々一つの値が置かれている。どの場所に置かれているかを忘れたものが
中身の multiset である。空いた場所へ置けば一つ増え、空いた場所へ移しても変わらない。
-/

namespace Infra

variable {ι α : Type*} [DecidableEq ι] {places : Finset ι} {f g : ι → Option α} {p q : ι} {a : α}

/-- 置かれている値の multiset。 -/
def contents (places : Finset ι) (f : ι → Option α) : Multiset α := places.val.filterMap f

omit [DecidableEq ι] in
/-- 中身は、場所の上の値だけで決まる。 -/
theorem contents_congr (h : ∀ i ∈ places, f i = g i) : contents places f = contents places g := by
  unfold contents
  induction places using Finset.cons_induction with
  | empty => rfl
  | cons i places hi ih =>
    have hhead : f i = g i := h i (Finset.mem_cons_self i places)
    have htail := ih fun j hj => h j (Finset.mem_cons_of_mem hj)
    rw [Finset.cons_val, Multiset.filterMap_cons, Multiset.filterMap_cons, hhead, htail]

/-- 一つの場所を取り出す。 -/
theorem contents_erase (hp : p ∈ places) (f : ι → Option α) :
    contents places f = (f p).elim 0 (fun a => {a}) + contents (places.erase p) f := by
  unfold contents
  rw [Finset.erase_val, ← Multiset.cons_erase (Finset.mem_val.mpr hp), Multiset.filterMap_cons,
    Multiset.erase_cons_head]
  cases f p <;> rfl

/-- **空いた場所に置くと、中身は一つ増える。** -/
theorem contents_insert (hp : p ∈ places) (hempty : f p = none) (hg : g p = some a)
    (hrest : ∀ i, i ≠ p → g i = f i) : contents places g = a ::ₘ contents places f := by
  have hsame : contents (places.erase p) g = contents (places.erase p) f :=
    contents_congr fun i hi => hrest i (Finset.ne_of_mem_erase hi)
  rw [contents_erase hp f, contents_erase hp g, hempty, hg, hsame]
  simp

/-- **空いた場所へ移しても、中身は変わらない。** -/
theorem contents_move (hp : p ∈ places) (hq : q ∈ places) (hne : p ≠ q) (hempty : f p = none)
    (hgp : g p = f q) (hgq : g q = none) (hrest : ∀ i, i ≠ p → i ≠ q → g i = f i) :
    contents places g = contents places f := by
  have hq' : q ∈ places.erase p := Finset.mem_erase.mpr ⟨hne.symm, hq⟩
  have hsame : contents ((places.erase p).erase q) g = contents ((places.erase p).erase q) f := by
    refine contents_congr fun i hi => ?_
    obtain ⟨hiq, hi'⟩ := Finset.mem_erase.mp hi
    exact hrest i (Finset.ne_of_mem_erase hi') hiq
  rw [contents_erase hp f, contents_erase hp g, contents_erase hq' f, contents_erase hq' g, hempty,
    hgp, hgq, hsame]
  simp

end Infra
