import Mathlib.Logic.Relation
import Mathlib.Data.List.Forall2
import Mathlib.Logic.Function.Iterate

/-!
# 状態機械の実行

一歩を `step : σ → ι → Option σ` で書く。`none` はその action が許されないことを表す。
`ok` は「この状態でこの action を選んでよい」という条件で、
条件つきの実行（すべての一歩が `ok` を満たす実行）をこれで書く。

到達可能性は Mathlib の `Relation.ReflTransGen` をそのまま使う。
不変条件の定理は `Reaches.invariant` ひとつで、各 system は一歩ぶんの補題だけを示せばよい。
-/

namespace Infra

variable {σ ι : Type*} {step : σ → ι → Option σ} {ok : σ → ι → Prop} {s s' u : σ}

/-- `ok` を満たす action をひとつ選んで進む。 -/
def StepBy (step : σ → ι → Option σ) (ok : σ → ι → Prop) (s s' : σ) : Prop :=
  ∃ a, ok s a ∧ step s a = some s'

/-- 一歩を任意の回数つないだもの。 -/
def Reaches (step : σ → ι → Option σ) (ok : σ → ι → Prop) : σ → σ → Prop :=
  Relation.ReflTransGen (StepBy step ok)

/-- action を無条件に選べる場合の `ok`。 -/
def Always (_ : σ) (_ : ι) : Prop := True

theorem Reaches.refl (s : σ) : Reaches step ok s s := Relation.ReflTransGen.refl

theorem Reaches.trans (h : Reaches step ok s u) (h' : Reaches step ok u s') :
    Reaches step ok s s' := Relation.ReflTransGen.trans h h'

theorem Reaches.snoc {a : ι} (h : Reaches step ok s u) (ha : ok u a) (hs : step u a = some s') :
    Reaches step ok s s' := Relation.ReflTransGen.tail h ⟨a, ha, hs⟩

/-- 条件をゆるめても、到達できる。 -/
theorem Reaches.mono {ok' : σ → ι → Prop} (h : Reaches step ok s s')
    (hok : ∀ u a, ok u a → ok' u a) : Reaches step ok' s s' := by
  induction h with
  | refl => exact Reaches.refl s
  | tail _ hst ih =>
    obtain ⟨a, ha, hs⟩ := hst
    exact ih.snoc (hok _ a ha) hs

/-- **不変条件の規則。** 最初に成り立ち、許された一歩ごとに保たれるなら、到達する状態で成り立つ。 -/
theorem Reaches.invariant {Inv : σ → Prop} (h : Reaches step ok s s') (h0 : Inv s)
    (hstep : ∀ u a u', Inv u → ok u a → step u a = some u' → Inv u') : Inv s' := by
  induction h with
  | refl => exact h0
  | tail _ hst ih =>
    obtain ⟨a, ha, hs⟩ := hst
    exact hstep _ a _ ih ha hs

/-! ## action の列 -/

/-- 列に沿った実行の、どの一歩も `ok` を満たす。許されない action が来たらそこで終わる。 -/
def Along (step : σ → ι → Option σ) (ok : σ → ι → Prop) : σ → List ι → Prop
  | _, [] => True
  | s, a :: as => ∀ s', step s a = some s' → ok s a ∧ Along step ok s' as

/-- 列に沿った実行の、どの状態でも `P` が成り立つ。 -/
def Throughout (step : σ → ι → Option σ) (P : σ → Prop) : σ → List ι → Prop
  | s, [] => P s
  | s, a :: as => P s ∧ ∀ s', step s a = some s' → Throughout step P s' as

theorem Throughout.head {P : σ → Prop} : ∀ {as : List ι}, Throughout step P s as → P s
  | [], h => h
  | _ :: _, h => h.1

/--
**条件がちょうど必要十分であることの規則。**

`ok` な一歩は `Inv` を保ち、`Inv` は `P` を含み、`Inv` から `P` の成り立つ状態へ進む一歩は
`ok` に限るなら、実行を通して `P` が成り立つことと、どの一歩も `ok` であることは同じである。
-/
theorem throughout_iff_along {Inv P : σ → Prop} (hP : ∀ u, Inv u → P u)
    (hkeep : ∀ u a u', Inv u → ok u a → step u a = some u' → Inv u')
    (hexact : ∀ u a u', Inv u → step u a = some u' → P u' → ok u a) :
    ∀ {as : List ι} {s : σ}, Inv s → (Throughout step P s as ↔ Along step ok s as) := by
  intro as
  induction as with
  | nil =>
    intro s hs
    exact ⟨fun _ => trivial, fun _ => hP s hs⟩
  | cons a as ih =>
    intro s hs
    constructor
    · rintro ⟨-, hrest⟩ s' hstep
      have hok := hexact s a s' hs hstep (hrest s' hstep).head
      exact ⟨hok, (ih (hkeep s a s' hs hok hstep)).mp (hrest s' hstep)⟩
    · intro h
      refine ⟨hP s hs, fun s' hstep => ?_⟩
      obtain ⟨hok, hrest⟩ := h s' hstep
      exact (ih (hkeep s a s' hs hok hstep)).mpr hrest

/-- action の列を順に実行する。途中で許されない action があれば `none`。 -/
def exec (step : σ → ι → Option σ) : σ → List ι → Option σ
  | s, [] => some s
  | s, a :: as => (step s a).bind fun s' => exec step s' as

/-- 実行を通して成り立つことは、着いた状態でも成り立つ。 -/
theorem Throughout.last {P : σ → Prop} {as : List ι} {s s' : σ} (h : Throughout step P s as)
    (hrun : exec step s as = some s') : P s' := by
  induction as generalizing s with
  | nil => exact (Option.some.inj hrun) ▸ h
  | cons a as ih =>
    obtain ⟨u, hu, hrest⟩ := Option.bind_eq_some_iff.mp hrun
    exact ih (h.2 u hu) hrest

/-- どの action もどの状態で選んでよいなら、列に沿った条件は成り立つ。 -/
theorem along_of_forall {as : List ι} {s : σ} (h : ∀ a ∈ as, ∀ u, ok u a) :
    Along step ok s as := by
  induction as generalizing s with
  | nil => trivial
  | cons a as ih =>
    intro s' _
    exact ⟨h a List.mem_cons_self s, ih fun b hb => h b (List.mem_cons_of_mem a hb)⟩

theorem Along.take {as : List ι} {s : σ} (h : Along step ok s as) (k : Nat) :
    Along step ok s (as.take k) := by
  induction as generalizing s k with
  | nil =>
    rw [List.take_nil]
    trivial
  | cons a as ih =>
    cases k with
    | zero => trivial
    | succ k =>
      intro s' hs
      exact ⟨(h s' hs).1, ih (h s' hs).2 k⟩

/--
**二つの実行を並べて進める規則。**

対応する action で一歩進むたびに関係 `R` が保たれるなら、列の終わりでも `R` が成り立つ。
片方だけが許されない action に当たることもない。
-/
theorem exec_rel {R : σ → σ → Prop} {A : ι → ι → Prop}
    (hstep : ∀ s t a b, R s t → A a b → (∀ s', step s a = some s' → ok s a) →
      (∀ t', step t b = some t' → ok t b) → Option.Rel R (step s a) (step t b))
    {as bs : List ι} (has : List.Forall₂ A as bs) {s t : σ} (hst : R s t)
    (ha : Along step ok s as) (hb : Along step ok t bs) :
    Option.Rel R (exec step s as) (exec step t bs) := by
  induction has generalizing s t with
  | nil => exact Option.Rel.some hst
  | @cons a b as bs hab _ ih =>
    have hrel := hstep s t a b hst hab (fun s' hs => (ha s' hs).1) (fun t' ht => (hb t' ht).1)
    rw [exec, exec]
    cases hsa : step s a with
    | none =>
      rw [hsa] at hrel
      cases htb : step t b with
      | none => exact Option.Rel.none
      | some t' => rw [htb] at hrel; cases hrel
    | some s' =>
      rw [hsa] at hrel
      cases htb : step t b with
      | none => rw [htb] at hrel; cases hrel
      | some t' =>
        rw [htb] at hrel
        obtain ⟨hst'⟩ := hrel
        exact ih hst' (ha s' hsa).2 (hb t' htb).2

/-- 条件が判定できるなら、列に沿った条件も実行しながら判定できる。 -/
instance decidableAlong [∀ s a, Decidable (ok s a)] :
    ∀ (s : σ) (as : List ι), Decidable (Along step ok s as)
  | _, [] => isTrue trivial
  | s, a :: as =>
    match hs : step s a with
    | none => isTrue fun s' h => by rw [hs] at h; cases h
    | some u =>
      have := decidableAlong u as
      decidable_of_iff (ok s a ∧ Along step ok u as)
        ⟨fun h s' hs' => (Option.some.inj (hs.symm.trans hs')) ▸ h, fun h => h u hs⟩

/-- 条件を満たす action の列で着いた状態は、条件つきで到達可能である。 -/
theorem reaches_of_along {as : List ι} {s s' : σ} (hok : Along step ok s as)
    (h : exec step s as = some s') : Reaches step ok s s' := by
  induction as generalizing s with
  | nil =>
    rw [exec, Option.some.injEq] at h
    exact h ▸ Reaches.refl s
  | cons a as ih =>
    rw [exec] at h
    obtain ⟨u, hu, hrest⟩ := Option.bind_eq_some_iff.mp h
    obtain ⟨ha, has⟩ := hok u hu
    exact ((Reaches.refl s).snoc ha hu).trans (ih has hrest)

/-- 具体的な action の列で着いた状態は到達可能である。どの action も条件を満たすものとする。 -/
theorem reaches_of_exec {as : List ι} (hok : ∀ a ∈ as, ∀ u, ok u a)
    (h : exec step s as = some s') : Reaches step ok s s' :=
  reaches_of_along (along_of_forall hok) h

/-! ## 同じ action を繰り返す -/

/-- 同じ action で何歩か進む。 -/
def Repeats (step : σ → ι → Option σ) (a : ι) (s s' : σ) : Prop :=
  ∃ k, exec step s (List.replicate k a) = some s'

theorem Repeats.refl {a : ι} (s : σ) : Repeats step a s s := ⟨0, rfl⟩

theorem Repeats.cons {a : ι} (hs : step s a = some u) (h : Repeats step a u s') :
    Repeats step a s s' := by
  obtain ⟨k, hk⟩ := h
  exact ⟨k + 1, by rw [List.replicate_succ, exec, hs, Option.bind_some, hk]⟩

theorem Repeats.trans {a : ι} (h : Repeats step a s u) (h' : Repeats step a u s') :
    Repeats step a s s' := by
  obtain ⟨k, hk⟩ := h
  induction k generalizing s with
  | zero =>
    obtain rfl : s = u := Option.some.inj hk
    exact h'
  | succ k ih =>
    rw [List.replicate_succ, exec] at hk
    obtain ⟨v, hv, hrest⟩ := Option.bind_eq_some_iff.mp hk
    exact (ih hrest).cons hv

/-! ## 模倣 -/

/--
**模倣の規則。** 許された一歩ごとに、関係 `R` で結ばれた抽象の状態が `T` で何歩か進んで
ふたたび `R` で結ばれるなら、どの実行にも対応する抽象の実行がある。
-/
theorem Reaches.simulates {τ : Type*} {R : σ → τ → Prop} {T : τ → τ → Prop} {b : τ}
    (h : Reaches step ok s s') (h0 : R s b)
    (hstep : ∀ u a u' c, R u c → ok u a → step u a = some u' →
      ∃ c', Relation.ReflTransGen T c c' ∧ R u' c') :
    ∃ b', Relation.ReflTransGen T b b' ∧ R s' b' := by
  induction h with
  | refl => exact ⟨b, Relation.ReflTransGen.refl, h0⟩
  | tail _ hst ih =>
    obtain ⟨a, ha, hs⟩ := hst
    obtain ⟨c, hc, hR⟩ := ih
    obtain ⟨c', hc', hR'⟩ := hstep _ a _ c hR ha hs
    exact ⟨c', Relation.ReflTransGen.trans hc hc', hR'⟩

/-! ## 必ず終わる実行 -/

/-- **終わる規則。** 終わっていない状態で一歩ごとに不変条件が保たれ、量が減るなら、いつか終わる。 -/
theorem exists_iterate {f : σ → σ} (done Inv : σ → Prop) (measure : σ → Nat)
    (hstep : ∀ u, Inv u → ¬ done u → Inv (f u) ∧ measure (f u) < measure u) (h0 : Inv s) :
    ∃ n, done (f^[n] s) := by
  induction hm : measure s using Nat.strongRecOn generalizing s with
  | _ m ih =>
    by_cases hdone : done s
    · exact ⟨0, hdone⟩
    · obtain ⟨hinv, hlt⟩ := hstep s h0 hdone
      obtain ⟨n, hn⟩ := ih _ (hm ▸ hlt) hinv rfl
      exact ⟨n + 1, hn⟩

/-- **有限歩で終わる規則。** 終わっていない一歩ごとに量が減るなら、量より長い実行は終わっている。 -/
theorem done_of_exec (done Inv : σ → Prop) (measure : σ → Nat)
    (hstep : ∀ u a u', Inv u → ¬ done u → step u a = some u' → Inv u' ∧ measure u' < measure u)
    (hstay : ∀ u a u', done u → step u a = some u' → done u') {as : List ι} (h0 : Inv s)
    (hlen : measure s ≤ as.length) (hpos : ∀ u, measure u = 0 → Inv u → done u)
    (hrun : exec step s as = some s') : done s' := by
  have hdone : ∀ {bs : List ι} {u : σ}, done u → exec step u bs = some s' → done s' := by
    intro bs
    induction bs with
    | nil =>
      intro u hu hrun
      exact Option.some.inj hrun ▸ hu
    | cons a bs ih =>
      intro u hu hrun
      obtain ⟨v, hv, hrest⟩ := Option.bind_eq_some_iff.mp hrun
      exact ih (hstay u a v hu hv) hrest
  induction as generalizing s with
  | nil => exact Option.some.inj hrun ▸ hpos s (Nat.le_zero.mp hlen) h0
  | cons a as ih =>
    obtain ⟨u, hu, hrest⟩ := Option.bind_eq_some_iff.mp hrun
    by_cases hs : done s
    · exact hdone (hstay s a u hs hu) hrest
    · obtain ⟨hinv, hlt⟩ := hstep s a u h0 hs hu
      rw [List.length_cons] at hlen
      exact ih hinv (by omega) hrest

end Infra
