import Mathlib.Data.List.Basic

/-!
# 出来事を残す計算

状態を変えながら、起きた出来事を順に残す計算 `Traced σ ε α`。

* `Obeys`：残る出来事の列が、どの状態から始めても決まりに従う。決まりは、いまの局面で許される出来事と、
  出来事の後の局面で与える（`Conforms`）
* `Computes`：出来事を忘れれば、もとの関数と同じものを計算する
-/

namespace Infra

universe u

/-- 値、後の状態、残した出来事を返す計算。 -/
def Traced (σ ε α : Type*) := σ → α × σ × List ε

namespace Traced

variable {σ ε : Type*} {α β : Type u}

def val (f : Traced σ ε α) (s : σ) : α := (f s).1

def state (f : Traced σ ε α) (s : σ) : σ := (f s).2.1

def trace (f : Traced σ ε α) (s : σ) : List ε := (f s).2.2

instance : Monad (Traced σ ε) where
  pure a := fun s => (a, s, [])
  bind f g := fun s =>
    ((g (f.val s)).val (f.state s), (g (f.val s)).state (f.state s),
      f.trace s ++ (g (f.val s)).trace (f.state s))

/-- 状態から値を読む。 -/
def read (f : σ → α) : Traced σ ε α := fun s => (f s, s, [])

/-- 状態を変える。出来事は残さない。 -/
def modify (f : σ → σ) : Traced σ ε Unit := fun s => ((), f s, [])

/-- 出来事を一つ残す。 -/
def emit (e : ε) : Traced σ ε Unit := fun s => ((), s, [e])

@[simp] theorem val_bind (f : Traced σ ε α) (g : α → Traced σ ε β) (s : σ) :
    (f >>= g).val s = (g (f.val s)).val (f.state s) := rfl

@[simp] theorem state_bind (f : Traced σ ε α) (g : α → Traced σ ε β) (s : σ) :
    (f >>= g).state s = (g (f.val s)).state (f.state s) := rfl

@[simp] theorem trace_bind (f : Traced σ ε α) (g : α → Traced σ ε β) (s : σ) :
    (f >>= g).trace s = f.trace s ++ (g (f.val s)).trace (f.state s) := rfl

end Traced

/-! ## 決まり -/

section

variable {σ τ ε κ : Type*} {α β : Type u} (ok : κ → ε → Prop) (next : κ → ε → κ)

/-- 局面 `k` から始まる出来事の列が決まりに従い、局面 `k'` で終わる。 -/
def Conforms : κ → List ε → κ → Prop
  | k, [], k' => k = k'
  | k, e :: es, k' => ok k e ∧ Conforms (next k e) es k'

variable {ok next} {k k' k'' : κ}

theorem conforms_append {xs ys : List ε} :
    Conforms ok next k (xs ++ ys) k' ↔
      ∃ m, Conforms ok next k xs m ∧ Conforms ok next m ys k' := by
  induction xs generalizing k with
  | nil =>
    constructor
    · exact fun hf => ⟨k, rfl, hf⟩
    · rintro ⟨m, rfl, hf⟩
      exact hf
  | cons e es ih =>
    rw [List.cons_append, Conforms, ih]
    constructor
    · rintro ⟨he, m, hes, hf⟩
      exact ⟨m, ⟨he, hes⟩, hf⟩
    · rintro ⟨m, ⟨he, hes⟩, hf⟩
      exact ⟨he, m, hes, hf⟩

/-- 終わりの局面は一つに決まる。 -/
theorem Conforms.unique {xs : List ε} (h1 : Conforms ok next k xs k')
    (h2 : Conforms ok next k xs k'') : k' = k'' := by
  induction xs generalizing k with
  | nil => exact (show k = k' from h1).symm.trans h2
  | cons e es ih => exact ih h1.2 h2.2

/-- 前の列が `m` で終わるなら、残りは `m` から従えばよい。 -/
theorem Conforms.append_iff {xs ys : List ε} {m : κ} (h1 : Conforms ok next k xs m) :
    Conforms ok next k (xs ++ ys) k' ↔ Conforms ok next m ys k' := by
  rw [conforms_append]
  constructor
  · rintro ⟨m', h2, hf⟩
    rwa [h1.unique h2]
  · exact fun hf => ⟨m, h1, hf⟩

/-- 局面が一つしかなければ、どの出来事も許されていることを言う。 -/
theorem conforms_unit {ok : Unit → ε → Prop} {next : Unit → ε → Unit} {xs : List ε} :
    Conforms ok next () xs () ↔ ∀ e ∈ xs, ok () e := by
  induction xs with
  | nil => exact ⟨fun _ _ he => absurd he List.not_mem_nil, fun _ => rfl⟩
  | cons e es ih => rw [Conforms, ih, List.forall_mem_cons]

namespace Traced

/-- 局面 `k` で始めれば、どの状態からでも決まりに従い、局面 `k'` で終わる。 -/
def Obeys (ok : κ → ε → Prop) (next : κ → ε → κ) (k : κ) (f : Traced σ ε α) (k' : κ) : Prop :=
  ∀ s, Conforms ok next k (f.trace s) k'

theorem Obeys.pure (a : α) : Obeys ok next k (pure a : Traced σ ε α) k := fun _ => rfl

theorem Obeys.read (f : σ → α) : Obeys ok next k (read f : Traced σ ε α) k := fun _ => rfl

theorem Obeys.modify (f : σ → σ) : Obeys ok next k (modify f : Traced σ ε Unit) k := fun _ => rfl

theorem Obeys.bind {f : Traced σ ε α} {g : α → Traced σ ε β} (hf : Obeys ok next k f k')
    (hg : ∀ a, Obeys ok next k' (g a) k'') : Obeys ok next k (f >>= g) k'' :=
  fun s => conforms_append.mpr ⟨k', hf s, hg _ _⟩

/-! ## 出来事を忘れる -/

/-- `proj` で見れば、`f` は `g` と同じ値と状態を返す。 -/
def Computes (proj : σ → τ) (f : Traced σ ε α) (g : τ → α × τ) : Prop :=
  ∀ s, (f.val s, proj (f.state s)) = g (proj s)

theorem Computes.val {proj : σ → τ} {f : Traced σ ε α} {g : τ → α × τ} (hf : Computes proj f g)
    (s : σ) : f.val s = (g (proj s)).1 := congrArg Prod.fst (hf s)

theorem Computes.state {proj : σ → τ} {f : Traced σ ε α} {g : τ → α × τ} (hf : Computes proj f g)
    (s : σ) : proj (f.state s) = (g (proj s)).2 := congrArg Prod.snd (hf s)

theorem Computes.congr {proj : σ → τ} {f : Traced σ ε α} {g g' : τ → α × τ}
    (hf : Computes proj f g) (hg : ∀ t, g t = g' t) : Computes proj f g' :=
  fun s => (hf s).trans (hg _)

theorem Computes.ite {proj : σ → τ} {c : Prop} [Decidable c] {f f' : Traced σ ε α}
    {g g' : τ → α × τ} (hf : Computes proj f g) (hf' : Computes proj f' g') :
    Computes proj (if c then f else f') fun t => if c then g t else g' t := by
  intro s
  split
  · exact hf s
  · exact hf' s

theorem Computes.bind {proj : σ → τ} {f : Traced σ ε α} {f' : τ → α × τ} {g : α → Traced σ ε β}
    {g' : α → τ → β × τ} (hf : Computes proj f f') (hg : ∀ a, Computes proj (g a) (g' a)) :
    Computes proj (f >>= g) fun t => g' (f' t).1 (f' t).2 := by
  intro s
  show _ = g' (f' (proj s)).1 (f' (proj s)).2
  rw [← hf.val s, ← hf.state s]
  exact hg (f.val s) (f.state s)

/-- 続きが、値と状態の組の関数で書けているとき。 -/
theorem Computes.bind_pair {proj : σ → τ} {f : Traced σ ε α} {f' : τ → α × τ}
    {g : α → Traced σ ε β} (g' : α × τ → β × τ) (hf : Computes proj f f')
    (hg : ∀ a, Computes proj (g a) fun t => g' (a, t)) :
    Computes proj (f >>= g) fun t => g' (f' t) := by
  intro s
  show _ = g' (f' (proj s))
  rw [← hf s]
  exact hg (f.val s) (f.state s)

end Traced

end

end Infra
