import Mathlib.Logic.Relation
import Mathlib.Logic.Function.Basic
import Mathlib.Data.List.Basic
import Mathlib.Data.List.Pairwise

/-!
# 区間を予約して使う輪

有限個の場所を輪のように使い回し、何人もの書き手と読み手が、まず位置の区間を予約し、
自分の区間だけを触り、終えたら区間を返す、という protocol の抽象である。
位置は折り返さない自然数で、場所は位置を `size` で割った余りである。

両側はひとつの形に収まる。どちらの側も `tail ≤ head` で、
`head` は「相手の `tail` に自分のずれを足したもの」を超えない。
書き手のずれは容量、読み手のずれは 0 である。

`tail` をいつどこまで進めるかはここでは決めない。
使っている区間の手前までなら進めてよい、とだけ決める。
進め方は実装ごとに違い、それぞれがこの条件を満たすことを示せばよい。
-/

namespace Infra

/-- 書き手の側と読み手の側。 -/
inductive Side where
  | prod
  | cons
deriving DecidableEq

/-- 相手の側。 -/
def Side.opp : Side → Side
  | .prod => .cons
  | .cons => .prod

/-- 予約してよい量のずれ。書き手は空の輪に容量ぶんだけ先に進める。 -/
def Side.lead (cap : Nat) : Side → Nat
  | .prod => cap
  | .cons => 0

@[simp] theorem Side.opp_prod : Side.opp .prod = .cons := rfl

@[simp] theorem Side.opp_cons : Side.opp .cons = .prod := rfl

@[simp] theorem Side.lead_prod (cap : Nat) : Side.lead cap .prod = cap := rfl

@[simp] theorem Side.lead_cons (cap : Nat) : Side.lead cap .cons = 0 := rfl

/-- 予約した区間と、そのうち触り終えた個数。 -/
structure Window where
  start : Nat
  len : Nat
  done : Nat
deriving DecidableEq

namespace Window

/-- 区間の終わり。 -/
def stop (w : Window) : Nat := w.start + w.len

/-- ひとつ触る。 -/
def advance (w : Window) : Window := { w with done := w.done + 1 }

/-- まだ触っていない位置。 -/
def Pending (w : Window) (p : Nat) : Prop := w.start + w.done ≤ p ∧ p < w.stop

@[simp] theorem advance_start (w : Window) : w.advance.start = w.start := rfl

@[simp] theorem advance_stop (w : Window) : w.advance.stop = w.stop := rfl

end Window

/-- `[a, b)` と `[c, d)` は重ならない。 -/
def ApartFrom (a b c d : Nat) : Prop := b ≤ c ∨ d ≤ a

/--
輪の状態。

`sent` は書き手が予約した要素を予約の順に並べたもので、位置 `p` の要素は `sent[p]` である。
`buf` は読み手が今の区間から読んだ要素、`taken` は読み終えた区間の始まりとその要素である。
-/
structure Board (ι α : Type*) where
  head : Side → Nat
  tail : Side → Nat
  win : Side → ι → Option Window
  slots : Nat → α
  sent : List α
  buf : ι → List α
  taken : List (Nat × List α)

namespace Board

variable {ι α : Type*} [DecidableEq ι] {cap size : Nat} {b b' : Board ι α} {t : ι} {w : Window}

/-- 区間を置き換える。 -/
def setWin (b : Board ι α) (σ : Side) (t : ι) (w : Option Window) : Board ι α :=
  { b with win := Function.update b.win σ (Function.update (b.win σ) t w) }

/-- `head` を進めて区間を取る。 -/
def reserve (b : Board ι α) (σ : Side) (t : ι) (n : Nat) : Board ι α :=
  { b.setWin σ t (some ⟨b.head σ, n, 0⟩) with
    head := Function.update b.head σ (b.head σ + n) }

section

variable (b : Board ι α) (σ : Side) (t : ι) (w : Option Window) (n : Nat)

@[simp] theorem setWin_head : (b.setWin σ t w).head = b.head := rfl

@[simp] theorem setWin_tail : (b.setWin σ t w).tail = b.tail := rfl

@[simp] theorem setWin_slots : (b.setWin σ t w).slots = b.slots := rfl

@[simp] theorem setWin_sent : (b.setWin σ t w).sent = b.sent := rfl

@[simp] theorem setWin_buf : (b.setWin σ t w).buf = b.buf := rfl

@[simp] theorem setWin_taken : (b.setWin σ t w).taken = b.taken := rfl

@[simp] theorem setWin_win : (b.setWin σ t w).win σ = Function.update (b.win σ) t w := by
  simp [setWin]

@[simp] theorem reserve_tail : (b.reserve σ t n).tail = b.tail := rfl

@[simp] theorem reserve_sent : (b.reserve σ t n).sent = b.sent := rfl

@[simp] theorem reserve_head : (b.reserve σ t n).head σ = b.head σ + n := by
  simp [reserve]

@[simp] theorem reserve_win :
    (b.reserve σ t n).win σ = Function.update (b.win σ) t (some ⟨b.head σ, n, 0⟩) := by
  simp [reserve, setWin]

end

/-- 一歩。 -/
inductive Step (cap size : Nat) : Board ι α → Board ι α → Prop
  /-- 書き手が要素の数だけ位置を予約する。 -/
  | put {b : Board ι α} {t : ι} (xs : List α) (hidle : b.win .prod t = none)
      (hroom : b.head .prod + xs.length ≤ cap + b.tail .cons) :
      Step cap size b { b.reserve .prod t xs.length with sent := b.sent ++ xs }
  /-- 書き手が自分の区間の次の位置に要素を書く。 -/
  | write {b : Board ι α} {t : ι} {w : Window} {x : α} (hw : b.win .prod t = some w)
      (hmore : w.done < w.len) (hx : b.sent[w.start + w.done]? = some x) :
      Step cap size b { b.setWin .prod t (some w.advance) with
        slots := Function.update b.slots ((w.start + w.done) % size) x }
  /-- 書き終えた書き手が区間を返す。 -/
  | written {b : Board ι α} {t : ι} {w : Window} (hw : b.win .prod t = some w)
      (hdone : w.done = w.len) : Step cap size b (b.setWin .prod t none)
  /-- 読み手が位置を予約する。 -/
  | get {b : Board ι α} {t : ι} (n : Nat) (hidle : b.win .cons t = none)
      (hroom : b.head .cons + n ≤ b.tail .prod) :
      Step cap size b { b.reserve .cons t n with buf := Function.update b.buf t [] }
  /-- 読み手が自分の区間の次の位置を読む。 -/
  | read {b : Board ι α} {t : ι} {w : Window} (hw : b.win .cons t = some w)
      (hmore : w.done < w.len) :
      Step cap size b { b.setWin .cons t (some w.advance) with
        buf := Function.update b.buf t (b.buf t ++ [b.slots ((w.start + w.done) % size)]) }
  /-- 読み終えた読み手が区間を返す。 -/
  | finished {b : Board ι α} {t : ι} {w : Window} (hw : b.win .cons t = some w)
      (hdone : w.done = w.len) :
      Step cap size b { b.setWin .cons t none with taken := b.taken ++ [(w.start, b.buf t)] }
  /-- `tail` を進める。使っている区間を追い越してはならない。 -/
  | advance {b : Board ι α} (σ : Side) (k : Nat) (hle : b.tail σ ≤ k) (hk : k ≤ b.head σ)
      (hfree : ∀ t w, b.win σ t = some w → k ≤ w.start) :
      Step cap size b { b with tail := Function.update b.tail σ k }

/-! ## 位置の不変条件 -/

/-- 位置どうしの関係。両側で同じ形である。 -/
structure Placed (cap : Nat) (b : Board ι α) : Prop where
  tail_le : ∀ σ, b.tail σ ≤ b.head σ
  head_le : ∀ σ, b.head σ ≤ σ.lead cap + b.tail σ.opp
  win_within : ∀ {σ t w}, b.win σ t = some w →
    b.tail σ ≤ w.start ∧ w.stop ≤ b.head σ ∧ w.done ≤ w.len
  win_apart : ∀ {σ t t' w w'}, b.win σ t = some w → b.win σ t' = some w' → t ≠ t' →
    ApartFrom w.start w.stop w'.start w'.stop

omit [DecidableEq ι] in
theorem Placed.prod_le (h : Placed cap b) : b.head .prod ≤ cap + b.tail .cons :=
  h.head_le .prod

omit [DecidableEq ι] in
theorem Placed.cons_le (h : Placed cap b) : b.head .cons ≤ b.tail .prod := by
  have := h.head_le .cons
  simpa using this

omit [DecidableEq ι] in
/-- 余裕は容量を超えない。 -/
theorem Placed.room_le (h : Placed cap b) (σ : Side) :
    σ.lead cap + b.tail σ.opp ≤ b.head σ + cap := by
  have h1 := h.prod_le
  have h2 := h.cons_le
  have h3 := h.tail_le .prod
  have h4 := h.tail_le .cons
  cases σ with
  | prod => simp only [Side.lead_prod, Side.opp_prod]; omega
  | cons => simp only [Side.lead_cons, Side.opp_cons]; omega

omit [DecidableEq ι] in
/-- どちらの側も、使っている位置は容量を超えない。 -/
theorem Placed.span_le (h : Placed cap b) (σ : Side) : b.head σ ≤ b.tail σ + cap := by
  have h1 := h.prod_le
  have h2 := h.cons_le
  have h3 := h.tail_le .prod
  have h4 := h.tail_le .cons
  cases σ <;> omega

/-- 区間の置き換えで、始まりと終わりが変わらないなら位置の関係は保たれる。 -/
theorem Placed.setWin (h : Placed cap b) {σ : Side} {w' : Option Window}
    (hsub : ∀ v, w' = some v → ∃ u, b.win σ t = some u ∧ v.start = u.start ∧ v.stop = u.stop ∧
      v.done ≤ v.len) : Placed cap (b.setWin σ t w') := by
  -- 置き換えたあとの区間は、置き換える前の同じ持ち主の区間と同じ場所にある
  have hold : ∀ {τ u v}, (b.setWin σ t w').win τ u = some v →
      ∃ v0, b.win τ u = some v0 ∧ v.start = v0.start ∧ v.stop = v0.stop ∧ v.done ≤ v.len := by
    intro τ u v hv
    by_cases hτ : τ = σ
    · subst hτ
      by_cases hu : u = t
      · subst hu
        exact hsub v (by simpa [Board.setWin] using hv)
      · have hv' : b.win τ u = some v := by simpa [Board.setWin, hu] using hv
        exact ⟨v, hv', rfl, rfl, (h.win_within hv').2.2⟩
    · have hv' : b.win τ u = some v := by simpa [Board.setWin, hτ] using hv
      exact ⟨v, hv', rfl, rfl, (h.win_within hv').2.2⟩
  refine ⟨h.tail_le, h.head_le, ?_, ?_⟩
  · intro τ u v hv
    obtain ⟨v0, hv0, hstart, hstop, hdone⟩ := hold hv
    obtain ⟨h1, h2, -⟩ := h.win_within hv0
    refine ⟨?_, ?_, hdone⟩
    · rw [hstart]; exact h1
    · rw [hstop]; exact h2
  · intro τ u u' v v' hv hv' hne
    obtain ⟨v0, hv0, hstart, hstop, -⟩ := hold hv
    obtain ⟨v0', hv0', hstart', hstop', -⟩ := hold hv'
    rw [hstart, hstop, hstart', hstop']
    exact h.win_apart hv0 hv0' hne

/-- 相手の `tail` が許す範囲で予約しても、位置の関係は保たれる。 -/
theorem Placed.reserve (h : Placed cap b) {σ : Side} {n : Nat} (hidle : b.win σ t = none)
    (hroom : b.head σ + n ≤ σ.lead cap + b.tail σ.opp) : Placed cap (b.reserve σ t n) := by
  have hhead : ∀ τ, b.head τ ≤ (b.reserve σ t n).head τ := by
    intro τ
    by_cases hτ : τ = σ
    · subst hτ
      simp [Board.reserve]
    · simp [Board.reserve, hτ]
  -- 予約のあとの区間は、今取ったものか前からのものである
  have hcases : ∀ {τ u v}, (b.reserve σ t n).win τ u = some v →
      (τ = σ ∧ u = t ∧ v = ⟨b.head σ, n, 0⟩) ∨ (b.win τ u = some v ∧ ¬ (τ = σ ∧ u = t)) := by
    intro τ u v hv
    by_cases hτ : τ = σ
    · subst hτ
      by_cases hu : u = t
      · subst hu
        left
        have : v = ⟨b.head τ, n, 0⟩ := by
          simpa [Board.reserve, Board.setWin, eq_comm] using hv
        exact ⟨rfl, rfl, this⟩
      · right
        exact ⟨by simpa [Board.reserve, Board.setWin, hu] using hv, fun hc => hu hc.2⟩
    · right
      exact ⟨by simpa [Board.reserve, Board.setWin, hτ] using hv, fun hc => hτ hc.1⟩
  refine ⟨fun τ => Nat.le_trans (h.tail_le τ) (hhead τ), ?_, ?_, ?_⟩
  · intro τ
    by_cases hτ : τ = σ
    · subst hτ
      simpa [Board.reserve, Board.setWin] using hroom
    · simpa [Board.reserve, Board.setWin, hτ] using h.head_le τ
  · intro τ u v hv
    rcases hcases hv with ⟨rfl, rfl, rfl⟩ | ⟨hv', -⟩
    · refine ⟨h.tail_le τ, ?_, Nat.zero_le _⟩
      simp [Board.reserve, Window.stop]
    · obtain ⟨h1, h2, h3⟩ := h.win_within hv'
      exact ⟨h1, Nat.le_trans h2 (hhead τ), h3⟩
  · intro τ u u' v v' hv hv' hne
    rcases hcases hv with ⟨rfl, rfl, rfl⟩ | ⟨hv0, -⟩
    · rcases hcases hv' with ⟨-, rfl, -⟩ | ⟨hv0', -⟩
      · exact absurd rfl hne
      · exact Or.inr (h.win_within hv0').2.1
    · rcases hcases hv' with ⟨rfl, rfl, rfl⟩ | ⟨hv0', -⟩
      · exact Or.inl (h.win_within hv0).2.1
      · exact h.win_apart hv0 hv0' hne

omit [DecidableEq ι] in
/-- 区間を追い越さずに `tail` を進めても、位置の関係は保たれる。 -/
theorem Placed.advance (h : Placed cap b) {σ : Side} {k : Nat} (hle : b.tail σ ≤ k)
    (hk : k ≤ b.head σ) (hfree : ∀ t w, b.win σ t = some w → k ≤ w.start) :
    Placed cap { b with tail := Function.update b.tail σ k } := by
  have htail : ∀ τ, b.tail τ ≤ Function.update b.tail σ k τ := by
    intro τ
    by_cases hτ : τ = σ
    · subst hτ
      simpa using hle
    · simp [hτ]
  refine ⟨?_, ?_, ?_, h.win_apart⟩
  · intro τ
    by_cases hτ : τ = σ
    · subst hτ
      simpa using hk
    · simpa [hτ] using h.tail_le τ
  · intro τ
    exact Nat.le_trans (h.head_le τ) (Nat.add_le_add_left (htail τ.opp) _)
  · intro τ u v hv
    obtain ⟨-, h2, h3⟩ := h.win_within hv
    refine ⟨?_, h2, h3⟩
    by_cases hτ : τ = σ
    · subst hτ
      simpa using hfree u v hv
    · simpa [hτ] using (h.win_within hv).1

/-- 進めた区間は元の区間と同じ場所にある。 -/
theorem Placed.setWin_advance (h : Placed cap b) {σ : Side} (hw : b.win σ t = some w)
    (hmore : w.done < w.len) : Placed cap (b.setWin σ t (some w.advance)) := by
  refine h.setWin ?_
  intro v hv
  obtain rfl : w.advance = v := Option.some.inj hv
  exact ⟨w, hw, rfl, rfl, hmore⟩

theorem Placed.step (h : Placed cap b) (hs : Step cap size b b') : Placed cap b' := by
  cases hs with
  | put xs hidle hroom =>
    have := h.reserve hidle (n := xs.length) hroom
    exact ⟨this.tail_le, this.head_le, this.win_within, this.win_apart⟩
  | write hw hmore _ =>
    have := h.setWin_advance hw hmore
    exact ⟨this.tail_le, this.head_le, this.win_within, this.win_apart⟩
  | written _ _ => exact h.setWin fun v hv => by cases hv
  | get n hidle hroom =>
    have := h.reserve hidle (n := n) (by simpa using hroom)
    exact ⟨this.tail_le, this.head_le, this.win_within, this.win_apart⟩
  | read hw hmore =>
    have := h.setWin_advance hw hmore
    exact ⟨this.tail_le, this.head_le, this.win_within, this.win_apart⟩
  | @finished t w hw hdone =>
    have : Placed cap (b.setWin .cons t none) := h.setWin fun v hv => by cases hv
    exact ⟨this.tail_le, this.head_le, this.win_within, this.win_apart⟩
  | advance σ k hle hk hfree => exact h.advance hle hk hfree

/-! ## 書かれた要素 -/

/-- 予約されていて、まだ読み手が返していない位置のうち、書き終えたものには要素がある。 -/
def Stored (size : Nat) (b : Board ι α) : Prop :=
  ∀ p, b.tail .cons ≤ p → p < b.head .prod →
    (∀ t w, b.win .prod t = some w → ¬ w.Pending p) → b.sent[p]? = some (b.slots (p % size))

/-- `size` より近い二つの位置は、別の場所である。 -/
theorem mod_ne_of_near {lo p q size : Nat} (hp : lo ≤ p) (hq : lo ≤ q) (hps : p < lo + size)
    (hqs : q < lo + size) (hne : p ≠ q) : p % size ≠ q % size := by
  intro heq
  rcases Nat.lt_or_gt_of_ne hne with hlt | hlt
  · have hzero := Nat.sub_mod_eq_zero_of_mod_eq heq.symm
    rw [Nat.mod_eq_of_lt (by omega)] at hzero
    omega
  · have hzero := Nat.sub_mod_eq_zero_of_mod_eq heq
    rw [Nat.mod_eq_of_lt (by omega)] at hzero
    omega

theorem Stored.put (h : Stored size b) (hlen : b.sent.length = b.head .prod) (xs : List α)
    (hidle : b.win .prod t = none) :
    Stored size { b.reserve .prod t xs.length with sent := b.sent ++ xs } := by
  intro p hlo hhi hwin
  by_cases hp : p < b.head .prod
  · have hold : ∀ u w, b.win .prod u = some w → ¬ w.Pending p := by
      intro u w hw
      by_cases hu : u = t
      · subst hu
        rw [hidle] at hw
        cases hw
      · exact hwin u w (by simpa [hu] using hw)
    have := h p hlo hp hold
    rwa [List.getElem?_append_left (by omega)]
  · -- 今予約した位置は、まだ書いていない
    refine absurd ?_ (hwin t ⟨b.head .prod, xs.length, 0⟩ (by simp))
    have hhi' : p < b.head .prod + xs.length := by simpa using hhi
    exact ⟨by simpa using Nat.le_of_not_lt hp, hhi'⟩

theorem Stored.write (h : Stored size b) (hpl : Placed cap b) (hsize : cap ≤ size) {x : α}
    (hw : b.win .prod t = some w) (hmore : w.done < w.len)
    (hx : b.sent[w.start + w.done]? = some x) :
    Stored size { b.setWin .prod t (some w.advance) with
      slots := Function.update b.slots ((w.start + w.done) % size) x } := by
  obtain ⟨hlow, hstop, -⟩ := hpl.win_within hw
  have hcons := hpl.cons_le
  have htail := hpl.tail_le .cons
  have hcap := hpl.prod_le
  rw [Window.stop] at hstop
  intro p hlo hhi hwin
  replace hlo : b.tail .cons ≤ p := hlo
  replace hhi : p < b.head .prod := hhi
  by_cases hp : p = w.start + w.done
  · subst hp
    simpa using hx
  · -- ほかの位置は別の場所にあり、書き残しも増えない
    have hmod : p % size ≠ (w.start + w.done) % size :=
      mod_ne_of_near hlo (by omega) (by omega) (by omega) hp
    have hold : ∀ u v, b.win .prod u = some v → ¬ v.Pending p := by
      intro u v hv
      by_cases hu : u = t
      · subst hu
        obtain rfl : w = v := Option.some.inj (hw.symm.trans hv)
        intro hpend
        refine hwin u w.advance (by simp) ⟨?_, hpend.2⟩
        have := hpend.1
        simp only [Window.advance]
        omega
      · exact hwin u v (by simpa [hu] using hv)
    have := h p hlo hhi hold
    simpa [Function.update_of_ne hmod] using this

theorem Stored.written (h : Stored size b) (hw : b.win .prod t = some w) (hdone : w.done = w.len) :
    Stored size (b.setWin .prod t none) := by
  intro p hlo hhi hwin
  refine h p hlo hhi ?_
  intro u v hv
  by_cases hu : u = t
  · subst hu
    obtain rfl : w = v := Option.some.inj (hw.symm.trans hv)
    rintro ⟨h1, h2⟩
    rw [Window.stop] at h2
    omega
  · exact hwin u v (by simpa [hu] using hv)

omit [DecidableEq ι] in
/-- 読み手の側だけが変わり、その `tail` が戻らないなら、書かれた要素はそのままである。 -/
theorem Stored.of_cons (h : Stored size b) (hwin : b'.win .prod = b.win .prod)
    (hsent : b'.sent = b.sent) (hslots : b'.slots = b.slots)
    (hhead : b'.head .prod = b.head .prod) (htail : b.tail .cons ≤ b'.tail .cons) :
    Stored size b' := by
  intro p hlo hhi hpend
  rw [hsent, hslots]
  exact h p (Nat.le_trans htail hlo) (hhead ▸ hhi) (hwin ▸ hpend)

/-! ## 読まれた要素 -/

/-- 読み手の手元には、区間の始まりから読んだ個数ぶんの要素がある。 -/
def Held (b : Board ι α) : Prop :=
  ∀ t w, b.win .cons t = some w → b.buf t = (b.sent.drop w.start).take w.done

omit [DecidableEq ι] in
/-- 読み手の区間の位置は書き終えている。 -/
theorem Stored.at_read (h : Stored size b) (hpl : Placed cap b) (hw : b.win .cons t = some w)
    (hmore : w.done < w.len) :
    b.sent[w.start + w.done]? = some (b.slots ((w.start + w.done) % size)) := by
  obtain ⟨hlow, hstop, -⟩ := hpl.win_within hw
  have hcons := hpl.cons_le
  have htail := hpl.tail_le .prod
  rw [Window.stop] at hstop
  refine h _ (by omega) (by omega) ?_
  rintro u v hv ⟨hpend, -⟩
  have := (hpl.win_within hv).1
  omega

/-- 列の手前の部分は、後ろに足しても変わらない。 -/
theorem take_drop_append {l m : List α} {a n : Nat} (h : a + n ≤ l.length) :
    ((l ++ m).drop a).take n = (l.drop a).take n := by
  rw [List.drop_append_of_le_length (by omega),
    List.take_append_of_le_length (by rw [List.length_drop]; omega)]

omit [DecidableEq ι] in
theorem Held.append (h : Held b) (hpl : Placed cap b) (hlen : b.sent.length = b.head .prod)
    {xs : List α} (hwin : b'.win .cons = b.win .cons) (hbuf : b'.buf = b.buf)
    (hsent : b'.sent = b.sent ++ xs) : Held b' := by
  intro t w hw
  rw [hwin] at hw
  obtain ⟨-, hstop, hdone⟩ := hpl.win_within hw
  have hcons := hpl.cons_le
  have htail := hpl.tail_le .prod
  rw [Window.stop] at hstop
  rw [hbuf, hsent, take_drop_append (by omega)]
  exact h t w hw

omit [DecidableEq ι] in
theorem Held.congr (h : Held b) (hwin : b'.win .cons = b.win .cons) (hbuf : b'.buf = b.buf)
    (hsent : b'.sent = b.sent) : Held b' := by
  intro t w hw
  rw [hbuf, hsent]
  exact h t w (hwin ▸ hw)

theorem Held.get (h : Held b) (n : Nat) :
    Held { b.reserve .cons t n with buf := Function.update b.buf t [] } := by
  intro u v hv
  by_cases hu : u = t
  · subst hu
    have hv' : v = ⟨b.head .cons, n, 0⟩ := by simpa [eq_comm] using hv
    simp [hv']
  · have hv' : b.win .cons u = some v := by simpa [hu] using hv
    simpa [hu] using h u v hv'

theorem Held.read (h : Held b) (hw : b.win .cons t = some w)
    (hread : b.sent[w.start + w.done]? = some (b.slots ((w.start + w.done) % size))) :
    Held { b.setWin .cons t (some w.advance) with
      buf := Function.update b.buf t (b.buf t ++ [b.slots ((w.start + w.done) % size)]) } := by
  intro u v hv
  by_cases hu : u = t
  · subst hu
    obtain rfl : w.advance = v := by simpa using hv
    have hget : (b.sent.drop w.start)[w.done]? = some (b.slots ((w.start + w.done) % size)) := by
      rw [List.getElem?_drop]
      exact hread
    simp only [Function.update_self, setWin_sent, Window.advance]
    rw [h u w hw, List.take_add_one, hget, Option.toList_some]
  · have hv' : b.win .cons u = some v := by simpa [hu] using hv
    simpa [hu] using h u v hv'

theorem Held.finished (h : Held b) (taken : List (Nat × List α)) :
    Held { b.setWin .cons t none with taken := taken } := by
  intro u v hv
  by_cases hu : u = t
  · subst hu
    simp at hv
  · exact h u v (by simpa [hu] using hv)

/-! ## 渡された要素 -/

/-- 読み終えた区間の終わり。 -/
def batchStop (e : Nat × List α) : Nat := e.1 + e.2.length

/--
読み終えた区間の要素は、予約の順に並べた列のその区間の部分である。
区間どうしは重ならず、読み手が予約した位置はどれも、読み終えたか、読んでいる途中である。
-/
structure Delivered (b : Board ι α) : Prop where
  content : ∀ e ∈ b.taken, e.2 = (b.sent.drop e.1).take e.2.length
  below : ∀ e ∈ b.taken, batchStop e ≤ b.head .cons
  apart : b.taken.Pairwise fun e e' => ApartFrom e.1 (batchStop e) e'.1 (batchStop e')
  apart_win : ∀ e ∈ b.taken, ∀ {t w}, b.win .cons t = some w →
    ApartFrom e.1 (batchStop e) w.start w.stop
  covered : ∀ p, p < b.head .cons → (∃ e ∈ b.taken, e.1 ≤ p ∧ p < batchStop e) ∨
    ∃ t w, b.win .cons t = some w ∧ w.start ≤ p ∧ p < w.stop

omit [DecidableEq ι] in
theorem Delivered.append (h : Delivered b) (hpl : Placed cap b)
    (hlen : b.sent.length = b.head .prod) {xs : List α} (hwin : b'.win .cons = b.win .cons)
    (htaken : b'.taken = b.taken) (hhead : b'.head .cons = b.head .cons)
    (hsent : b'.sent = b.sent ++ xs) : Delivered b' where
  content := by
    intro e he
    rw [htaken] at he
    have hbelow := h.below e he
    have hcons := hpl.cons_le
    have htail := hpl.tail_le .prod
    rw [batchStop] at hbelow
    rw [hsent, take_drop_append (by omega)]
    exact h.content e he
  below := by rw [htaken, hhead]; exact h.below
  apart := by rw [htaken]; exact h.apart
  apart_win := by rw [htaken, hwin]; exact h.apart_win
  covered := by rw [htaken, hhead, hwin]; exact h.covered

theorem Delivered.get (h : Delivered b) (n : Nat) (hidle : b.win .cons t = none) :
    Delivered { b.reserve .cons t n with buf := Function.update b.buf t [] } where
  content := h.content
  below := by
    intro e he
    have := h.below e he
    simp only [reserve_head]
    omega
  apart := h.apart
  apart_win := by
    intro e he u v hv
    by_cases hu : u = t
    · subst hu
      obtain rfl : (⟨b.head .cons, n, 0⟩ : Window) = v := by simpa using hv
      exact Or.inl (h.below e he)
    · exact h.apart_win e he (t := u) (by simpa [hu] using hv)
  covered := by
    intro p hp
    by_cases hlt : p < b.head .cons
    · rcases h.covered p hlt with he | ⟨u, v, hv, hin⟩
      · exact Or.inl he
      · have hu : u ≠ t := by
          rintro rfl
          rw [hidle] at hv
          cases hv
        exact Or.inr ⟨u, v, by simpa [hu] using hv, hin⟩
    · right
      refine ⟨t, ⟨b.head .cons, n, 0⟩, by simp, Nat.le_of_not_lt hlt, ?_⟩
      simpa [Window.stop] using hp

theorem Delivered.read (h : Delivered b) (hw : b.win .cons t = some w) (buf : ι → List α) :
    Delivered { b.setWin .cons t (some w.advance) with buf := buf } where
  content := h.content
  below := h.below
  apart := h.apart
  apart_win := by
    intro e he u v hv
    by_cases hu : u = t
    · subst hu
      obtain rfl : w.advance = v := by simpa using hv
      have := h.apart_win e he hw
      simpa using this
    · exact h.apart_win e he (t := u) (by simpa [hu] using hv)
  covered := by
    intro p hp
    rcases h.covered p hp with he | ⟨u, v, hv, hin⟩
    · exact Or.inl he
    · by_cases hu : u = t
      · subst hu
        obtain rfl : w = v := Option.some.inj (hw.symm.trans hv)
        exact Or.inr ⟨u, w.advance, by simp, hin⟩
      · exact Or.inr ⟨u, v, by simpa [hu] using hv, hin⟩

theorem Delivered.finished (h : Delivered b) (hpl : Placed cap b) (hheld : Held b)
    (hlen : b.sent.length = b.head .prod) (hw : b.win .cons t = some w) (hdone : w.done = w.len) :
    Delivered { b.setWin .cons t none with taken := b.taken ++ [(w.start, b.buf t)] } := by
  obtain ⟨-, hstop, -⟩ := hpl.win_within hw
  have hcons := hpl.cons_le
  have htail := hpl.tail_le .prod
  have hbuf : (b.buf t).length = w.len := by
    rw [Window.stop] at hstop
    rw [hheld t w hw, List.length_take, List.length_drop, hdone]
    omega
  have hbatch : batchStop (w.start, b.buf t) = w.stop := by rw [batchStop, hbuf, Window.stop]
  refine ⟨?_, ?_, ?_, ?_, ?_⟩
  · intro e he
    rcases List.mem_append.mp he with he | he
    · exact h.content e he
    · obtain rfl := List.mem_singleton.mp he
      rw [hbuf, ← hdone]
      exact hheld t w hw
  · intro e he
    rcases List.mem_append.mp he with he | he
    · exact h.below e he
    · obtain rfl := List.mem_singleton.mp he
      rw [hbatch]
      exact hstop
  · refine List.pairwise_append.mpr ⟨h.apart, List.pairwise_singleton _ _, ?_⟩
    intro e he e' he'
    obtain rfl := List.mem_singleton.mp he'
    rw [hbatch]
    exact h.apart_win e he hw
  · intro e he u v hv
    have hu : u ≠ t := by
      rintro rfl
      simp at hv
    have hv' : b.win .cons u = some v := by simpa [hu] using hv
    rcases List.mem_append.mp he with he | he
    · exact h.apart_win e he hv'
    · obtain rfl := List.mem_singleton.mp he
      rw [hbatch]
      exact hpl.win_apart hw hv' (Ne.symm hu)
  · intro p hp
    rcases h.covered p hp with ⟨e, he, hin⟩ | ⟨u, v, hv, hin⟩
    · exact Or.inl ⟨e, List.mem_append_left _ he, hin⟩
    · by_cases hu : u = t
      · subst hu
        obtain rfl : w = v := Option.some.inj (hw.symm.trans hv)
        refine Or.inl ⟨(w.start, b.buf u), List.mem_append_right _ List.mem_cons_self, hin.1, ?_⟩
        rw [hbatch]
        exact hin.2
      · exact Or.inr ⟨u, v, by simpa [hu] using hv, hin⟩

/-! ## 全体の不変条件 -/

/-- 輪の不変条件。 -/
structure Inv (cap size : Nat) (b : Board ι α) : Prop where
  placed : Placed cap b
  counted : b.sent.length = b.head .prod
  stored : Stored size b
  held : Held b
  delivered : Delivered b

omit [DecidableEq ι] in
/-- どちらの `tail` も、予約された要素の数を超えない。 -/
theorem Inv.tail_le_length (h : Inv cap size b) (σ : Side) : b.tail σ ≤ b.sent.length := by
  have h1 := h.placed.cons_le
  have h2 := h.placed.tail_le .prod
  have h3 := h.placed.tail_le .cons
  rw [h.counted]
  cases σ <;> omega

/-- 誰も予約していない空の輪。 -/
def fresh (slots : Nat → α) : Board ι α where
  head _ := 0
  tail _ := 0
  win _ _ := none
  slots := slots
  sent := []
  buf _ := []
  taken := []

omit [DecidableEq ι] in
theorem fresh_inv (slots : Nat → α) : Inv cap size (fresh slots : Board ι α) where
  placed := ⟨fun _ => Nat.le_refl 0, fun _ => Nat.zero_le _, by simp [fresh], by simp [fresh]⟩
  counted := rfl
  stored := fun p _ hp => absurd hp (Nat.not_lt_zero p)
  held := by simp [Held, fresh]
  delivered := ⟨by simp [fresh], by simp [fresh], List.Pairwise.nil, by simp [fresh],
    fun p hp => absurd hp (Nat.not_lt_zero p)⟩

/-- **一歩の不変条件。** 場所が容量より少なくなければ、どの一歩も不変条件を保つ。 -/
theorem Inv.step (hsize : cap ≤ size) (h : Inv cap size b) (hs : Step cap size b b') :
    Inv cap size b' := by
  have hpl := h.placed.step hs
  cases hs with
  | put xs hidle _ =>
    refine ⟨hpl, ?_, h.stored.put h.counted xs hidle, h.held.append h.placed h.counted rfl rfl rfl,
      h.delivered.append h.placed h.counted rfl rfl rfl rfl⟩
    simp [h.counted]
  | write hw hmore hx =>
    refine ⟨hpl, h.counted, h.stored.write h.placed hsize hw hmore hx, h.held.congr rfl rfl rfl, ?_⟩
    exact h.delivered.append h.placed h.counted rfl rfl rfl (List.append_nil _).symm
  | written hw hdone =>
    refine ⟨hpl, h.counted, h.stored.written hw hdone, h.held.congr rfl rfl rfl, ?_⟩
    exact h.delivered.append h.placed h.counted rfl rfl rfl (List.append_nil _).symm
  | get n hidle _ =>
    exact ⟨hpl, h.counted, h.stored.of_cons rfl rfl rfl rfl (Nat.le_refl _), h.held.get n,
      h.delivered.get n hidle⟩
  | read hw hmore =>
    exact ⟨hpl, h.counted, h.stored.of_cons rfl rfl rfl rfl (Nat.le_refl _),
      h.held.read hw (h.stored.at_read h.placed hw hmore), h.delivered.read hw _⟩
  | finished hw hdone =>
    exact ⟨hpl, h.counted, h.stored.of_cons rfl rfl rfl rfl (Nat.le_refl _), h.held.finished _,
      h.delivered.finished h.placed h.held h.counted hw hdone⟩
  | advance σ k hle _ _ =>
    refine ⟨hpl, h.counted, ?_, h.held.congr rfl rfl rfl,
      h.delivered.append h.placed h.counted rfl rfl rfl (List.append_nil _).symm⟩
    refine h.stored.of_cons rfl rfl rfl rfl ?_
    cases σ with
    | prod => exact Nat.le_refl _
    | cons => simpa using hle

/-- 一歩を任意の回数つないだもの。 -/
def Steps (cap size : Nat) : Board ι α → Board ι α → Prop :=
  Relation.ReflTransGen (Step cap size)

/-- **実行の不変条件。** -/
theorem Inv.steps (hsize : cap ≤ size) (h : Inv cap size b) (hs : Steps cap size b b') :
    Inv cap size b' := by
  induction hs with
  | refl => exact h
  | tail _ hst ih => exact ih.step hsize hst

end Board

end Infra
