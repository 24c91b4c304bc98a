import Mathlib.Data.List.Count
import Mathlib.Logic.Function.Basic

/-!
# 番号札

`1` から `limit` までの番号札が、待ち行列 `ring`、置き場 `entry p`、持ち手 `held i` に分かれてある。
`0` は「札が無い」ことを表し、何度現れてもよい。

どの札も高々一か所にしかないこと（`Tokens`）は、札を取る・返す・置く・動かすの
どの操作でも保たれる。持ち手の種類も置き場の種類も任意とする。
-/

namespace Infra

variable {P ι : Type*} {limit : Nat}

/-- どの札も高々一か所にしかない。 -/
structure Tokens (limit : Nat) (ring : List Nat) (entry : P → Nat) (held : ι → Nat) : Prop where
  ring_once : ∀ id, id ≠ 0 → ring.count id ≤ 1
  ring_entry : ∀ p, entry p ≠ 0 → entry p ∉ ring
  ring_held : ∀ i, held i ≠ 0 → held i ∉ ring
  entry_once : ∀ p q, entry p = entry q → entry p ≠ 0 → p = q
  entry_held : ∀ p i, entry p = held i → entry p = 0
  held_once : ∀ i j, held i = held j → held i ≠ 0 → i = j
  ring_le : ∀ id ∈ ring, id ≤ limit
  entry_le : ∀ p, entry p ≤ limit
  held_le : ∀ i, held i ≤ limit

namespace Tokens

variable {ring : List Nat} {entry : P → Nat} {held : ι → Nat}

/-- 最初は、すべての札が待ち行列にある。 -/
theorem init (limit : Nat) :
    Tokens limit (List.range' 1 limit) (fun _ : P => 0) (fun _ : ι => 0) where
  ring_once := fun id _ => List.nodup_iff_count.mp (List.nodup_range' 1) id
  ring_entry := fun _ hne => absurd rfl hne
  ring_held := fun _ hne => absurd rfl hne
  entry_once := fun _ _ _ hne => absurd rfl hne
  entry_held := fun _ _ _ => rfl
  held_once := fun _ _ _ hne => absurd rfl hne
  ring_le := by
    intro id hid
    rw [List.mem_range'_1] at hid
    omega
  entry_le := fun _ => Nat.zero_le _
  held_le := fun _ => Nat.zero_le _

/-- 待ち行列の先頭を取る。 -/
theorem take [DecidableEq ι] {id : Nat} {i : ι} (ht : Tokens limit (id :: ring) entry held) (hi : held i = 0) :
    Tokens limit ring entry (Function.update held i id) where
  ring_once := fun x hx => Nat.le_trans (List.count_le_count_cons) (ht.ring_once x hx)
  ring_entry := fun p hp hmem => ht.ring_entry p hp (List.mem_cons_of_mem id hmem)
  ring_held := by
    intro j hj hmem
    by_cases hji : j = i
    · subst hji
      rw [Function.update_self] at hj hmem
      have honce := ht.ring_once id hj
      have hpos := List.count_pos_iff.mpr hmem
      rw [List.count_cons_self] at honce
      omega
    · rw [Function.update_of_ne hji] at hj hmem
      exact ht.ring_held j hj (List.mem_cons_of_mem id hmem)
  entry_once := ht.entry_once
  entry_held := by
    intro p j hp
    by_cases hji : j = i
    · subst hji
      rw [Function.update_self] at hp
      by_contra hne
      exact ht.ring_entry p hne (hp ▸ List.mem_cons_self)
    · rw [Function.update_of_ne hji] at hp
      exact ht.entry_held p j hp
  held_once := by
    have hring : ∀ j, held j = id → id ≠ 0 → False := fun j hj hid =>
      ht.ring_held j (by rw [hj]; exact hid) (by rw [hj]; exact List.mem_cons_self)
    intro j k hjk hne
    by_cases hji : j = i
    · by_cases hki : k = i
      · rw [hji, hki]
      · subst hji
        rw [Function.update_self] at hjk hne
        rw [Function.update_of_ne hki] at hjk
        exact absurd hne (fun h => hring k hjk.symm h)
    · rw [Function.update_of_ne hji] at hjk hne
      by_cases hki : k = i
      · subst hki
        rw [Function.update_self] at hjk
        exact absurd hne (fun h => hring j hjk (hjk ▸ h))
      · rw [Function.update_of_ne hki] at hjk
        exact ht.held_once j k hjk hne
  ring_le := fun x hx => ht.ring_le x (List.mem_cons_of_mem id hx)
  entry_le := ht.entry_le
  held_le := by
    intro j
    by_cases hji : j = i
    · rw [hji, Function.update_self]
      exact ht.ring_le id List.mem_cons_self
    · rw [Function.update_of_ne hji]
      exact ht.held_le j

/-- 札を手放す。札はどこにも無くなる。 -/
theorem drop [DecidableEq ι] (i : ι) (ht : Tokens limit ring entry held) :
    Tokens limit ring entry (Function.update held i 0) := by
  have hupd : ∀ j, Function.update held i 0 j ≠ 0 → j ≠ i ∧ Function.update held i 0 j = held j := by
    intro j hj
    by_cases hji : j = i
    · rw [hji, Function.update_self] at hj
      exact absurd rfl hj
    · exact ⟨hji, Function.update_of_ne hji _ _⟩
  refine { ht with ring_held := ?_, entry_held := ?_, held_once := ?_, held_le := ?_ }
  · intro j hj
    have he := (hupd j hj).2
    rw [he] at hj ⊢
    exact ht.ring_held j hj
  · intro p j hp
    by_contra hne
    rw [(hupd j (hp ▸ hne)).2] at hp
    exact hne (ht.entry_held p j hp)
  · intro j k hjk hne
    have hj := (hupd j hne).2
    have hk := (hupd k (hjk ▸ hne)).2
    rw [hj] at hjk hne
    rw [hk] at hjk
    exact ht.held_once j k hjk hne
  · intro j
    by_cases hj : Function.update held i 0 j = 0
    · rw [hj]
      exact Nat.zero_le _
    · rw [(hupd j hj).2]
      exact ht.held_le j

/-- 札を待ち行列の末尾へ返す。 -/
theorem giveBack [DecidableEq ι] (i : ι) (ht : Tokens limit ring entry held) :
    Tokens limit (ring ++ [held i]) entry (Function.update held i 0) := by
  have hd := ht.drop i
  refine { hd with ring_once := ?_, ring_entry := ?_, ring_held := ?_, ring_le := ?_ }
  · intro id hid
    rw [List.count_append]
    by_cases he : held i = id
    · have hnot : id ∉ ring := he ▸ ht.ring_held i (he ▸ hid)
      have hcount : ring.count id + [held i].count id = 1 := by
        rw [List.count_eq_zero_of_not_mem hnot, he, List.count_singleton_self]
      exact Nat.le_of_eq hcount
    · rw [List.count_eq_zero_of_not_mem (a := id) (l := [held i])
        (by rw [List.mem_singleton]; exact fun h => he h.symm)]
      exact ht.ring_once id hid
  · intro p hp hmem
    rcases List.mem_append.mp hmem with hmem | hmem
    · exact ht.ring_entry p hp hmem
    · exact hp (ht.entry_held p i (List.mem_singleton.mp hmem))
  · intro j hj hmem
    rcases List.mem_append.mp hmem with hmem | hmem
    · exact hd.ring_held j hj hmem
    · rw [List.mem_singleton] at hmem
      by_cases hji : j = i
      · rw [hji, Function.update_self] at hj
        exact hj rfl
      · rw [Function.update_of_ne hji] at hj hmem
        exact hji (ht.held_once j i hmem hj)
  · intro id hid
    rcases List.mem_append.mp hid with hid | hid
    · exact ht.ring_le id hid
    · rw [List.mem_singleton.mp hid]
      exact ht.held_le i

/-- 札を置き場から置き場へ動かす。 -/
theorem move [DecidableEq P] {p q : P} {entry' : P → Nat} (ht : Tokens limit ring entry held)
    (hmove : ∀ r, entry' r = if r = p then entry q else if r = q then 0 else entry r) :
    Tokens limit ring entry' held := by
  -- 動かした後の札は、動かす前のどこかの札である
  have hfrom : ∀ r, entry' r ≠ 0 → ∃ r', entry' r = entry r' ∧ (r = p ∧ r' = q ∨ r = r' ∧ r' ≠ p ∧
      r' ≠ q) := by
    intro r hr
    rw [hmove] at hr ⊢
    by_cases hrp : r = p
    · exact ⟨q, by rw [if_pos hrp], Or.inl ⟨hrp, rfl⟩⟩
    · rw [if_neg hrp] at hr ⊢
      by_cases hrq : r = q
      · rw [if_pos hrq] at hr
        exact absurd rfl hr
      · exact ⟨r, by rw [if_neg hrq], Or.inr ⟨rfl, hrp, hrq⟩⟩
  refine { ht with ring_entry := ?_, entry_once := ?_, entry_held := ?_, entry_le := ?_ }
  · intro r hr
    obtain ⟨r', hr', -⟩ := hfrom r hr
    rw [hr'] at hr ⊢
    exact ht.ring_entry r' hr
  · intro r s hrs hr
    obtain ⟨r', hr', hwhere⟩ := hfrom r hr
    obtain ⟨s', hs', hwhere'⟩ := hfrom s (hrs ▸ hr)
    have he : r' = s' := ht.entry_once r' s' (hr' ▸ hs' ▸ hrs) (hr' ▸ hr)
    rcases hwhere with ⟨hrp, hr'q⟩ | ⟨hrr, hr'p, hr'q⟩
    · rcases hwhere' with ⟨hsp, -⟩ | ⟨-, -, hs'q⟩
      · rw [hrp, hsp]
      · exact absurd (he ▸ hr'q) hs'q
    · rcases hwhere' with ⟨-, hs'q⟩ | ⟨hss, -, -⟩
      · exact absurd (he ▸ hs'q) hr'q
      · rw [hrr, hss, he]
  · intro r i hr
    by_contra hne
    obtain ⟨r', hr', -⟩ := hfrom r hne
    rw [hr'] at hr hne
    exact hne (ht.entry_held r' i hr)
  · intro r
    by_cases hr : entry' r = 0
    · rw [hr]
      exact Nat.zero_le _
    · obtain ⟨r', hr', -⟩ := hfrom r hr
      rw [hr']
      exact ht.entry_le r'

/-- 手にした札を空いた置き場に置く。 -/
theorem place [DecidableEq P] [DecidableEq ι] {p : P} {entry' : P → Nat} (i : ι)
    (ht : Tokens limit ring entry held)
    (hplace : ∀ r, entry' r = if r = p then held i else entry r) :
    Tokens limit ring entry' (Function.update held i 0) := by
  have hfrom : ∀ r, entry' r ≠ 0 → (r = p ∧ entry' r = held i) ∨ (r ≠ p ∧ entry' r = entry r) := by
    intro r _
    rw [hplace]
    by_cases hrp : r = p
    · exact Or.inl ⟨hrp, if_pos hrp⟩
    · exact Or.inr ⟨hrp, if_neg hrp⟩
  have hd := ht.drop i
  refine { hd with ring_entry := ?_, entry_once := ?_, entry_held := ?_, entry_le := ?_ }
  · intro r hr
    rcases hfrom r hr with ⟨-, he⟩ | ⟨-, he⟩
    · rw [he] at hr ⊢
      exact ht.ring_held i hr
    · rw [he] at hr ⊢
      exact ht.ring_entry r hr
  · intro r s hrs hr
    rcases hfrom r hr with ⟨hrp, he⟩ | ⟨-, he⟩
    · rcases hfrom s (hrs ▸ hr) with ⟨hsp, -⟩ | ⟨-, hs⟩
      · rw [hrp, hsp]
      · rw [he, hs] at hrs
        rw [he, hrs] at hr
        exact absurd (ht.entry_held s i hrs.symm) hr
    · rcases hfrom s (hrs ▸ hr) with ⟨-, hs⟩ | ⟨-, hs⟩
      · rw [he, hs] at hrs
        rw [he] at hr
        exact absurd (ht.entry_held r i hrs) hr
      · rw [he, hs] at hrs
        rw [he] at hr
        exact ht.entry_once r s hrs hr
  · intro r j hrj
    by_contra hne
    have hji : j ≠ i := by
      rintro rfl
      rw [Function.update_self] at hrj
      exact hne hrj
    rw [Function.update_of_ne hji] at hrj
    rcases hfrom r hne with ⟨-, he⟩ | ⟨-, he⟩
    · rw [he] at hrj hne
      exact hji (ht.held_once i j hrj hne).symm
    · rw [he] at hrj hne
      exact hne (ht.entry_held r j hrj)
  · intro r
    rw [hplace]
    split
    · exact ht.held_le i
    · exact ht.entry_le r

end Tokens

end Infra
