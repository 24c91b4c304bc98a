import L3fwd.Hash.Trace
import L3fwd.Hash.FailedInsert
import L3fwd.Hash.KeyLength

/-!
# 探索が渡す path

他の writer がいないとき、`rte_hash_cuckoo_make_space_mw` が押し出しに渡す path を調べる。

* path は根から leaf まで同じ bucket を二度通らず、どの段の entry の行き先も次の段の bucket である
* path の検査はどれも通り、押し出しは -1 を返さない

残るのは、押し出しの中の重複の検査が合う entry を見つけて 1 を返す場合である。
第二の bucket からの押し出しは、直前の検査が見ていない、第一の bucket の連なりも調べる。
比較は 8 byte だけなので、別の key の entry に合うことがある（`calls_insert_iff`）。
-/

namespace L3fwd.Hash

open Infra Table

variable {h : RteHash}

/-! ## path -/

namespace QueueNode

/-- leaf から根までの bucket。 -/
def bkts : QueueNode → List BktRef
  | .root bkt _ => [bkt]
  | .child bkt _ prev _ => bkt :: prev.bkts

/-- どの段でも、前の node の entry の行き先が、この node の bucket である。 -/
def Leads (t : Table h) : QueueNode → Prop
  | .root _ _ => True
  | .child bkt _ prev prevSlot =>
    BktRef.main (getAltBucketIndex h prev.curBktIdx (t.sigAt (prev.bkt, prevSlot))) = bkt ∧
      prev.Leads t

end QueueNode

variable {t : Table h} {b : UInt32}

theorem nodeOf_bkts_mem {ss : List (Fin bucketEntries)} {c : BktRef}
    (hc : c ∈ (nodeOf t b ss).bkts) :
    ∃ rest ss', rest ++ ss' = ss ∧ c = .main (bktIdxOf t b ss') := by
  induction ss with
  | nil => exact ⟨[], [], rfl, List.mem_singleton.mp hc⟩
  | cons s ss ih =>
    rcases List.mem_cons.mp hc with rfl | hc
    · exact ⟨[], s :: ss, rfl, rfl⟩
    · obtain ⟨rest, ss', rfl, hss'⟩ := ih hc
      exact ⟨s :: rest, ss', rfl, hss'⟩

theorem nodeOf_leads (ss : List (Fin bucketEntries)) : (nodeOf t b ss).Leads t := by
  induction ss with
  | nil => trivial
  | cons s ss ih =>
    refine ⟨?_, ih⟩
    rw [nodeOf_curBktIdx, nodeOf_bkt]
    rfl

/-- 途中のどの二つの段も違う bucket なら、path の bucket は重複しない。 -/
theorem nodeOf_bkts_nodup {ss : List (Fin bucketEntries)}
    (hdist : ∀ rest mid ss', rest ++ (mid ++ ss') = ss → mid ≠ [] →
      bktIdxOf t b (mid ++ ss') ≠ bktIdxOf t b ss') : (nodeOf t b ss).bkts.Nodup := by
  induction ss with
  | nil => exact List.nodup_singleton _
  | cons s ss ih =>
    refine List.nodup_cons.mpr ⟨fun hmem => ?_, ih fun rest mid ss' hsp hmid =>
      hdist (s :: rest) mid ss' (by rw [← hsp]; rfl) hmid⟩
    obtain ⟨rest, ss', rfl, heq⟩ := nodeOf_bkts_mem hmem
    exact hdist [] (s :: rest) ss' rfl (List.cons_ne_nil _ _) (BktRef.main.inj heq)

/-- **最初の空きへの path は、同じ bucket を二度通らず、行き先に沿う。** -/
theorem FirstEmptyAt.path {m : Nat} (hf : FirstEmptyAt t b m) :
    (nodeAt t b (m / bucketEntries)).bkts.Nodup ∧
      (nodeAt t b (m / bucketEntries)).rootBkt = .main b ∧
      (nodeAt t b (m / bucketEntries)).Leads t :=
  ⟨nodeOf_bkts_nodup fun _ _ _ hsp hmid => hf.distinct hmid hsp.symm, nodeOf_rootBkt _,
    nodeOf_leads _⟩

namespace Trace

variable {hw : Bool}

/-! ## 押し出しを呼ばない部分 -/

/-- 押し出しの呼び出しではなく、path の検査なら通っている。 -/
def Entry.Quiet (e : Entry h) : Prop :=
  match e.event with
  | .pathCheck ok => ok = true
  | .moveInsert _ _ _ => False
  | _ => True

/-- 局面を区別しない決まり。 -/
abbrev Quietly {α : Type} (f : M h α) : Prop :=
  Traced.Obeys (fun _ : Unit => Entry.Quiet) (fun _ _ => ()) () f ()

theorem Quietly.trace {α : Type} {f : M h α} (hf : Quietly f) (s : Running h) :
    ∀ e ∈ f.trace s, e.Quiet := conforms_unit.mp (hf s)

theorem quietRules :
    LockRules (fun _ : Unit => Entry.Quiet) (fun _ _ => ()) (alone (h := h)) hw () () where
  lock := by
    refine (obeys_interfere alone).bind fun _ => ?_
    split
    · exact fun _ => ⟨trivial, rfl⟩
    · split
      · exact fun _ => ⟨trivial, rfl⟩
      · exact Traced.Obeys.pure _
  unlock := by
    unfold hashRwWriterUnlock
    split
    · exact fun _ => ⟨trivial, rfl⟩
    · split
      · exact fun _ => ⟨trivial, rfl⟩
      · exact Traced.Obeys.pure _
  store := by
    intro e f he s
    cases e with
    | storeEntry p => exact ⟨trivial, rfl⟩
    | storeIdx p => exact ⟨trivial, rfl⟩
    | storeNext b => exact ⟨trivial, rfl⟩
    | storeData idx => exact ⟨trivial, rfl⟩
    | storeKey idx => exact ⟨trivial, rfl⟩
    | lock => cases he
    | unlock => cases he
    | pathCheck ok => cases he
    | moveInsert leaf leafSlot ret => cases he

theorem quietly_takeSlot (key : Key) (data : UInt64) :
    Quietly (takeSlot (alone (h := h)) key data) :=
  fun _ => ⟨trivial, trivial, rfl⟩

/-- 諦めなかった押し出しでは、path の検査はどれも通っている。 -/
theorem quiet_moveAlong {sig : UInt16} {newIdx : Nat} {node : QueueNode} {slot : Fin bucketEntries}
    {s : Running h} (hret : (moveAlong hw sig newIdx node slot).val s ≠ .failed) :
    ∀ e ∈ (moveAlong hw sig newIdx node slot).trace s, e.Quiet := by
  induction node generalizing slot s with
  | root bkt idx => exact Quietly.trace (quietRules.finish _ rfl _) s
  | child currBkt idx prev prevSlot ih =>
    unfold moveAlong at hret ⊢
    rw [Traced.val_bind, val_table, Traced.val_bind, state_table, state_record] at hret
    rw [Traced.trace_bind, val_table, Traced.trace_bind, state_table, state_record, trace_table,
      trace_record, List.nil_append]
    by_cases hcheck : BktRef.main (getAltBucketIndex h prev.curBktIdx
        (s.table.sigAt (prev.bkt, prevSlot))) = currBkt
    · rw [if_neg (not_not_intro hcheck)] at hret ⊢
      rw [Traced.trace_bind, trace_store, state_store]
      exact List.forall_mem_cons.mpr ⟨decide_eq_true hcheck,
        List.forall_mem_cons.mpr ⟨trivial, ih hret⟩⟩
    · rw [if_pos hcheck] at hret
      exact absurd ((erases_finish _ _ CuckooRet.failed).val s) hret

/-! ## 押し出しの呼び出し -/

variable {key : Key} {data : UInt64} {sig : UInt16} {newIdx m : Nat} {altBkt : BktRef}

/-- 諦めなかった押し出しは、静かである。 -/
theorem quiet_cuckooMoveInsertMw {bkt : BktRef} {leaf : QueueNode} {leafSlot : Fin bucketEntries}
    {s : Running h} (hret : (cuckooMoveInsertMw alone hw bkt altBkt key data leaf leafSlot sig
      newIdx).val s ≠ .failed) :
    ∀ e ∈ (cuckooMoveInsertMw alone hw bkt altBkt key data leaf leafSlot sig newIdx).trace s,
      e.Quiet := by
  have hr : LockRules (fun _ : Unit => Entry.Quiet) (fun _ _ => ()) (alone (h := h)) hw () () :=
    quietRules
  unfold cuckooMoveInsertMw at hret ⊢
  rw [Traced.val_bind, Traced.val_bind, val_table, state_table] at hret
  rw [Traced.trace_bind, Traced.trace_bind, val_table, state_table, trace_table, List.nil_append]
  refine List.forall_mem_append.mpr ⟨Quietly.trace hr.lock s, ?_⟩
  split
  · exact Quietly.trace (hr.return_ _) _
  · next hempty =>
    rw [if_neg hempty] at hret
    rw [Traced.trace_bind]
    refine List.forall_mem_append.mpr ⟨Quietly.trace (hr.checkDup data key sig bkt altBkt) _, ?_⟩
    rw [Traced.val_bind] at hret
    split
    · exact Quietly.trace (hr.return_ _) _
    · next hmiss =>
      rw [if_neg hmiss] at hret
      exact quiet_moveAlong hret

/-- 押し出しの呼び出しなら、path は正しく、諦めてもいない。path の検査なら通っている。 -/
def Entry.Sound (hash : UInt32) (e : Entry h) : Prop :=
  match e.event with
  | .pathCheck ok => ok = true
  | .moveInsert leaf leafSlot ret =>
    leaf.bkts.Nodup ∧ PrimOrSec h hash leaf.rootBkt ∧ leaf.Leads e.table ∧
      e.table.idxAt (leaf.bkt, leafSlot) = emptySlot ∧ ret ≠ .failed
  | _ => True

/-- 押し出しの呼び出しなら、新しい entry を入れている。 -/
def Entry.Inserts (e : Entry h) : Prop :=
  match e.event with
  | .moveInsert _ _ ret => ret = .inserted
  | _ => True

theorem Entry.Quiet.sound {e : Entry h} (he : e.Quiet) (hash : UInt32) : e.Sound hash := by
  obtain ⟨t, ev⟩ := e
  cases ev with
  | pathCheck ok => exact he
  | moveInsert leaf leafSlot ret => exact he.elim
  | _ => trivial

theorem Entry.Quiet.inserts {e : Entry h} (he : e.Quiet) : e.Inserts := by
  obtain ⟨t, ev⟩ := e
  cases ev with
  | moveInsert leaf leafSlot ret => exact he.elim
  | _ => trivial

/-- どの呼び出しも正しく、どれも入れて終わるのは `c` のときに限る。 -/
def Judged (hash : UInt32) (tr : List (Entry h)) (c : Prop) : Prop :=
  (∀ e ∈ tr, e.Sound hash) ∧ ((∀ e ∈ tr, e.Inserts) ↔ c)

theorem judged_nil (hash : UInt32) : Judged hash ([] : List (Entry h)) True :=
  ⟨fun _ he => absurd he List.not_mem_nil, iff_true_intro fun _ he => absurd he List.not_mem_nil⟩

theorem Judged.congr {hash : UInt32} {tr : List (Entry h)} {c c' : Prop} (hj : Judged hash tr c)
    (hc : c ↔ c') : Judged hash tr c' := ⟨hj.1, hj.2.trans hc⟩

/-- 静かな部分は結果を変えない。 -/
theorem Judged.append {hash : UInt32} {xs ys : List (Entry h)} {c : Prop}
    (hy : Judged hash ys c) (hx : ∀ e ∈ xs, e.Quiet) : Judged hash (xs ++ ys) c := by
  refine ⟨List.forall_mem_append.mpr ⟨fun e he => (hx e he).sound hash, hy.1⟩, ?_⟩
  rw [List.forall_mem_append, ← hy.2]
  exact and_iff_right fun e he => (hx e he).inserts

theorem judged_quietly {α : Type} {f : M h α} (hf : Quietly f) (hash : UInt32) (s : Running h) :
    Judged hash (f.trace s) True := by
  have := (judged_nil hash).append (hf.trace s)
  rwa [List.append_nil] at this

/-- 最初の空きへの押し出しは諦めず、入れて終わるのは重複の検査に合う entry が無いときである。 -/
theorem val_cuckooMoveInsertMw (hf : FirstEmptyAt t b m) {s : Running h} (hs : s.table = t)
    (hw : Bool) (altBkt : BktRef) (key : Key) (data : UInt64) (sig : UInt16) (newIdx : Nat) :
    (cuckooMoveInsertMw alone hw (.main b) altBkt key data (nodeAt t b (m / bucketEntries))
        (entryAt t b m).2 sig newIdx).val s ≠ .failed ∧
      ((cuckooMoveInsertMw alone hw (.main b) altBkt key data (nodeAt t b (m / bucketEntries))
        (entryAt t b m).2 sig newIdx).val s = .inserted ↔ Missed t key sig (.main b) altBkt) := by
  have hroot : (nodeAt t b (m / bucketEntries)).rootBkt = .main b := nodeOf_rootBkt _
  have hwf : (nodeAt t b (m / bucketEntries)).WellFormed := nodeOf_wellFormed _
  have hcases := cuckooMoveInsertMw_cases t altBkt key data hwf (entryAt t b m).2 sig newIdx
  rw [(@erases_cuckooMoveInsertMw h hw _ _ _ _ _ _ _ _).val s, hs]
  rw [hroot] at hcases
  rcases cuckooMoveInsertMw_firstEmpty hf altBkt key data sig newIdx with
    ⟨ret, t', hres, p, -, hhit, -⟩ | ⟨-, -, -, t', -, -, -, hres⟩
  · rw [hres]
    exact ⟨nofun, nofun, fun hmiss => absurd hhit (hmiss p)⟩
  · rw [hres] at hcases ⊢
    rcases hcases with ⟨t1, -, v, -, hne⟩ | ⟨ret, t'', hne, -⟩ | ⟨hmiss, -⟩
    · cases hne
    · cases hne
    · exact ⟨nofun, iff_of_true rfl hmiss⟩

/-- **最初の空きへの押し出しの呼び出し。** -/
theorem judged_callMoveInsert {hash : UInt32} (hf : FirstEmptyAt t b m)
    (hb : PrimOrSec h hash (.main b)) {s : Running h} (hs : s.table = t) (hw : Bool)
    (altBkt : BktRef) (key : Key) (data : UInt64) (sig : UInt16) (newIdx : Nat) :
    (callMoveInsert alone hw (.main b) altBkt key data sig newIdx (nodeAt t b (m / bucketEntries))
        (entryAt t b m).2).val s ≠ .failed ∧
      Judged hash ((callMoveInsert alone hw (.main b) altBkt key data sig newIdx
        (nodeAt t b (m / bucketEntries)) (entryAt t b m).2).trace s)
        (Missed t key sig (.main b) altBkt) := by
  obtain ⟨hne, hins⟩ := val_cuckooMoveInsertMw hf hs hw altBkt key data sig newIdx
  refine ⟨hne, ?_⟩
  unfold callMoveInsert
  rw [Traced.trace_bind, val_table, state_table, trace_table, List.nil_append, Traced.trace_bind]
  refine Judged.append ?_ (quiet_cuckooMoveInsertMw hne)
  obtain ⟨hnodup, hroot, hleads⟩ := hf.path
  have hempty : t.idxAt ((nodeAt t b (m / bucketEntries)).bkt, (entryAt t b m).2) = emptySlot := by
    have := hf.1
    rw [← nodeAt_entry] at this
    exact this
  subst hs
  constructor
  · refine List.forall_mem_singleton.mpr ⟨hnodup, ?_, hleads, hempty, hne⟩
    rw [hroot]
    exact hb
  · exact List.forall_mem_singleton.trans hins

/-! ## 探索 -/

/-- 探索が続くあいだ、調べる entry は queue の届く範囲にある。 -/
theorem bfsAt_reach (hle : m ≤ bfsQueueMaxLen - bucketEntries)
    (hgo : ¬ ((bfsAt t b m).slot = 0 ∧ (bfsAt t b m).hasRoom = false)) :
    m < bfsQueueMaxLen - bucketEntries := by
  refine Nat.lt_of_le_of_ne hle fun heq => hgo ?_
  subst heq
  refine ⟨rfl, ?_⟩
  rw [Bfs.hasRoom]
  exact Bool.and_eq_false_imp.mpr fun _ => rfl

section

variable {α : Type} (f : Table h → M h α) (s : Running h)

/-! 他の writer がいなければ、lock の外で読むのはいまの table である。 -/

theorem val_alone : (do interfere alone; f (← table)).val s
    = (f s.table).val ⟨s.table, s.clock + 1⟩ := rfl

theorem state_alone : (do interfere alone; f (← table)).state s
    = (f s.table).state ⟨s.table, s.clock + 1⟩ := rfl

theorem trace_alone : (do interfere alone; f (← table)).trace s
    = (f s.table).trace ⟨s.table, s.clock + 1⟩ := rfl

end

/-- **table が変わらないなら、探索は最初の空きへの押し出しを一度だけ呼ぶか、何も残さず諦める。** -/
theorem makeSpaceLoop_calls {move : QueueNode → Fin bucketEntries → M h CuckooRet}
    (hmove : ∀ m, FirstEmptyAt t b m → ∀ s, s.table = t →
      (move (nodeAt t b (m / bucketEntries)) (entryAt t b m).2).val s ≠ .failed)
    (fuel m : Nat) (hbefore : ∀ k, k < m → t.idxAt (entryAt t b k) ≠ emptySlot)
    (hle : m ≤ bfsQueueMaxLen - bucketEntries) (hfuel : bfsQueueMaxLen - bucketEntries ≤ m + fuel)
    {s : Running h} (hs : s.table = t) :
    (SearchFull t b ∧ (makeSpaceLoop alone move fuel (bfsAt t b m)).trace s = [] ∧
      (makeSpaceLoop alone move fuel (bfsAt t b m)).val s = .failed ∧
      ((makeSpaceLoop alone move fuel (bfsAt t b m)).state s).table = t) ∨
    (¬ SearchFull t b ∧ ∃ m' s', FirstEmptyAt t b m' ∧ s'.table = t ∧
      (makeSpaceLoop alone move fuel (bfsAt t b m)).trace s
        = (move (nodeAt t b (m' / bucketEntries)) (entryAt t b m').2).trace s' ∧
      (makeSpaceLoop alone move fuel (bfsAt t b m)).val s ≠ .failed) := by
  induction fuel generalizing m s with
  | zero => exact Or.inl ⟨fun k hk => hbefore k (by omega), rfl, rfl, hs⟩
  | succ fuel ih =>
    rw [makeSpaceLoop, bfsAt_queue]
    dsimp only
    split
    · next hstop =>
      have hdone := bfsAt_noRoom hstop.1 hstop.2
      exact Or.inl ⟨fun k hk => hbefore k (by omega), rfl, rfl, hs⟩
    · next hgo =>
      have hlt := bfsAt_reach hle hgo
      rw [trace_alone, val_alone, state_alone]
      subst hs
      split
      · next hempty =>
        have hfirst : FirstEmptyAt s.table b m := ⟨by rw [← nodeAt_entry]; exact hempty, hbefore⟩
        have hne := hmove m hfirst ⟨s.table, s.clock + 1⟩ rfl
        refine Or.inr ⟨fun hall => hall m hlt hfirst.1, m, ⟨s.table, s.clock + 1⟩, hfirst, rfl, ?_⟩
        have hslot : (bfsAt s.table b m).slot = (entryAt s.table b m).2 := rfl
        rw [hslot, Traced.trace_bind, Traced.val_bind]
        cases hret : (move (nodeAt s.table b (m / bucketEntries)) (entryAt s.table b m).2).val
            ⟨s.table, s.clock + 1⟩ with
        | inserted => exact ⟨List.append_nil _, nofun⟩
        | present retVal => exact ⟨List.append_nil _, nofun⟩
        | failed => exact absurd hret hne
      · next hfull =>
        rw [trace_alone, val_alone, state_alone, bfsAt_enqueue]
        refine ih (m + 1) (fun k hk => ?_) hlt (by omega) rfl
        rcases Nat.lt_succ_iff_lt_or_eq.mp hk with hlt | rfl
        · exact hbefore k hlt
        · rw [← nodeAt_entry]
          exact hfull

theorem trace_finishWith {ret : CuckooRet} (hret : ret ≠ .failed) (slotId : Nat) (next : M h Int)
    (s : Running h) : (finishWith alone slotId next ret).trace s = [] := by
  cases ret with
  | inserted => rfl
  | present retVal => rfl
  | failed => exact absurd rfl hret

/-- **探索と、その後。** 押し出しを呼べば追加は終わり、空きが無ければ次の区間へ同じ table で進む。 -/
theorem judged_makeSpace {hash : UInt32} {s : Running h} (hs : s.table = t)
    (hb : PrimOrSec h hash (.main b)) {next : M h Int} {c : Prop}
    (hnext : ∀ s' : Running h, s'.table = t → Judged hash (next.trace s') c) (hw : Bool)
    (altBkt : BktRef) (key : Key) (data : UInt64) (sig : UInt16) (slotId : Nat) :
    Judged hash ((cuckooMakeSpaceMw alone hw (.main b) altBkt key data sig b slotId >>=
        finishWith alone slotId next).trace s)
      (SearchFull t b ∧ c ∨ ¬ SearchFull t b ∧ Missed t key sig (.main b) altBkt) := by
  have hmove : ∀ m, FirstEmptyAt t b m → ∀ s : Running h, s.table = t →
      (callMoveInsert alone hw (.main b) altBkt key data sig slotId (nodeAt t b (m / bucketEntries))
        (entryAt t b m).2).val s ≠ .failed :=
    fun m hf s hs => (judged_callMoveInsert hf hb hs hw altBkt key data sig slotId).1
  have hcalls := makeSpaceLoop_calls hmove bfsQueueMaxLen 0
    (fun k hk => absurd hk (Nat.not_lt_zero k)) (Nat.zero_le _) (by decide) hs
  rw [bfsAt_zero] at hcalls
  rw [Traced.trace_bind]
  unfold cuckooMakeSpaceMw
  rcases hcalls with ⟨hfull, htrace, hval, hstate⟩ | ⟨hroom, m, s', hf, hs', htrace, hval⟩
  · rw [htrace, hval, List.nil_append]
    refine (hnext _ hstate).congr ⟨fun hc => Or.inl ⟨hfull, hc⟩, ?_⟩
    rintro (⟨-, hc⟩ | ⟨hroom, -⟩)
    · exact hc
    · exact absurd hfull hroom
  · rw [trace_finishWith hval, List.append_nil, htrace]
    refine (judged_callMoveInsert hf hb hs' hw altBkt key data sig slotId).2.congr
      ⟨fun hmiss => Or.inr ⟨hroom, hmiss⟩, ?_⟩
    rintro (⟨hfull, -⟩ | ⟨-, hmiss⟩)
    · exact absurd hfull hroom
    · exact hmiss

end Trace

/-! ## 追加の全体 -/

/--
第二の bucket からの探索だけが空きを見つけ、その押し出しの重複の検査が、
第一の bucket の連なりにある、直前の検査の見なかった entry に合う。
-/
structure LateHit (u : Table h) (key : Key) (hash : UInt32) : Prop where
  missed : Missed u key (getShortSig hash) (primOf h hash) (secOf h hash)
  primFull : SearchFull u (getPrimBucketIndex h hash)
  secRoom : ¬ SearchFull u (getSecBucketIndex h hash)
  hit : ¬ Missed u key (getShortSig hash) (secOf h hash) (primOf h hash)

theorem DataOnly.lateHit {u u' : Table h} (hd : DataOnly u u') {key : Key} {hash : UInt32} :
    LateHit u' key hash ↔ LateHit u key hash := by
  constructor
  · rintro ⟨hmiss, hprim, hsec, hhit⟩
    rw [searchFull_congr hd.bkts] at hprim hsec
    rw [hd.missed] at hmiss hhit
    exact ⟨hmiss, hprim, hsec, hhit⟩
  · rintro ⟨hmiss, hprim, hsec, hhit⟩
    rw [← searchFull_congr hd.bkts] at hprim hsec
    rw [← hd.missed] at hmiss hhit
    exact ⟨hmiss, hprim, hsec, hhit⟩

/-- 根の bucket の entry は、探索の最初の 8 回で調べられる。 -/
theorem entryAt_root (i : Fin bucketEntries) : entryAt t b i.val = (.main b, i) := by
  have hdiv : i.val / bucketEntries = 0 := Nat.div_eq_of_lt i.isLt
  have hmod : i.val % bucketEntries = i.val := Nat.mod_eq_of_lt i.isLt
  simp only [entryAt, hdiv, hmod, pathAt, bktIdxOf]

theorem not_searchFull_of_firstEmpty {i : Fin bucketEntries}
    (hi : t.firstEmpty (.main b) = some i) : ¬ SearchFull t b := by
  intro hfull
  have hlt : i.val < bfsQueueMaxLen - bucketEntries := Nat.lt_of_lt_of_le i.isLt (by decide)
  refine hfull i.val hlt ?_
  rw [entryAt_root]
  exact (firstEmpty_eq_some.mp hi).1

namespace Trace

/-- 挿入の後。失敗のときだけ、次の区間へ進む。 -/
theorem judged_finishWith {ret : CuckooRet} {next : M h Int} {s : Running h} {hash : UInt32}
    {c : Prop} (slotId : Nat) (hend : ret ≠ .failed → c)
    (hnext : ret = .failed → Judged hash (next.trace s) c) :
    Judged hash ((finishWith alone slotId next ret).trace s) c := by
  by_cases hret : ret = .failed
  · subst hret
    exact hnext rfl
  · rw [trace_finishWith hret]
    exact (judged_nil hash).congr (iff_of_true trivial (hend hret))

/-- slot に書いた後の追加。 -/
theorem judged_storeSlot {u : Table h} {s : Running h} (hs : s.table = u) (hw : Bool) (slotId : Nat)
    (key : Key) (hash : UInt32) (data : UInt64) :
    Judged hash ((storeSlot alone hw slotId key hash data).trace s) (¬ LateHit u key hash) := by
  have hr : LockRules (fun _ : Unit => Entry.Quiet) (fun _ _ => ()) (alone (h := h)) hw () () :=
    quietRules
  have hval := (@erases_cuckooInsertMw h hw (primOf h hash) (secOf h hash) key data
    (getShortSig hash) slotId).val s
  have hstate := (@erases_cuckooInsertMw h hw (primOf h hash) (secOf h hash) key data
    (getShortSig hash) slotId).state s
  rw [hs] at hval hstate
  unfold storeSlot
  rw [Traced.trace_bind]
  refine Judged.append ?_ (Quietly.trace (hr.cuckooInsertMw _ _ key data _ slotId) s)
  rcases cuckooInsertMw_cases u (primOf h hash) (secOf h hash) key data (getShortSig hash) slotId
    with ⟨ret, t', heq, p, -, hhit, -⟩ | ⟨hmiss, u1, hu1, ⟨i, hi, heq⟩ | ⟨-, heq⟩⟩
  · rw [heq] at hval
    exact judged_finishWith slotId (fun _ hlate => hlate.missed p hhit)
      fun hfail => absurd (hval.symm.trans hfail) nofun
  · rw [heq] at hval
    exact judged_finishWith slotId (fun _ hlate => not_searchFull_of_firstEmpty hi hlate.primFull)
      fun hfail => absurd (hval.symm.trans hfail) nofun
  · rw [heq] at hval hstate
    refine judged_finishWith slotId (fun hne => absurd hval hne) fun _ => ?_
    have hlast : ∀ s : Running h, s.table = u1 → Judged hash ((if h.extTableSupport then
        insertExt alone hw (primOf h hash) (secOf h hash) key data (getShortSig hash) slotId
      else do
        interfere alone
        update fun t => t.enqueueSlotBack slotId
        return -enospc : M h Int).trace s) True := by
      intro s _
      split
      · exact judged_quietly (hr.insertExt _ _ key data _ slotId) hash s
      · exact judged_nil hash
    refine (judged_makeSpace hstate (Or.inl rfl) (fun s' hs' => judged_makeSpace hs' (Or.inr rfl)
      hlast hw (primOf h hash) key data (getShortSig hash) slotId) hw (secOf h hash) key data
      (getShortSig hash) slotId).congr ?_
    rw [← hu1.dataOnly.lateHit]
    have hmiss1 := hu1.dataOnly.missed.mpr hmiss
    constructor
    · rintro (⟨-, ⟨hsec, -⟩ | ⟨-, hsec⟩⟩ | ⟨hprim, -⟩) hlate
      · exact hlate.secRoom hsec
      · exact hlate.hit hsec
      · exact hprim hlate.primFull
    · intro hlate
      by_cases hprim : SearchFull u1 (getPrimBucketIndex h hash)
      · refine Or.inl ⟨hprim, ?_⟩
        by_cases hsec : SearchFull u1 (getSecBucketIndex h hash)
        · exact Or.inl ⟨hsec, trivial⟩
        · exact Or.inr ⟨hsec, by_contra fun hhit => hlate ⟨hmiss1, hprim, hsec, hhit⟩⟩
      · exact Or.inr ⟨hprim, hmiss1⟩

end Trace

/-- 最初の検査では見つからなかった key が、取った slot に書いた後の押し出しの検査で見つかる。 -/
def Conflated (t : Table h) (key : Key) (hash : UInt32) (data : UInt64) : Prop :=
  Missed t key (getShortSig hash) (primOf h hash) (secOf h hash) ∧
    LateHit ((checkDup t data key (getShortSig hash) (primOf h hash) (secOf h hash)).2.takeSlot key
      data).2 key hash

/--
**一人の writer の追加が呼ぶ押し出し。**

どの呼び出しの path も同じ bucket を二度通らず、どの検査も通り、-1 は返らない。
呼び出しがどれも新しい entry を入れて終わるのは、別の entry との取り違えが起きないときに限る。
-/
theorem calls_insert_iff (hwTransMemSupport : Bool) (t : Table h) (key : Key) (hash : UInt32)
    (data : UInt64) :
    (∀ e ∈ (Trace.addKeyWithHash Trace.alone hwTransMemSupport key hash data).trace ⟨t, 0⟩,
      e.Sound hash) ∧
    ((∀ e ∈ (Trace.addKeyWithHash Trace.alone hwTransMemSupport key hash data).trace ⟨t, 0⟩,
      e.Inserts) ↔ ¬ Conflated t key hash data) := by
  have hr : Trace.LockRules (fun _ : Unit => Trace.Entry.Quiet) (fun _ _ => ())
      (Trace.alone (h := h)) hwTransMemSupport () () := Trace.quietRules
  have hval := (@Trace.erases_firstCheck h hwTransMemSupport key hash data).val ⟨t, 0⟩
  have hstate := (@Trace.erases_firstCheck h hwTransMemSupport key hash data).state ⟨t, 0⟩
  show Trace.Judged hash _ _
  unfold Trace.addKeyWithHash
  rw [Traced.trace_bind]
  refine Trace.Judged.append ?_ (Trace.Quietly.trace (hr.firstCheck key hash data) _)
  rw [hval]
  rcases checkDup_cases t data key (getShortSig hash) (primOf h hash) (secOf h hash) with
    ⟨hmiss, hret, -⟩ | ⟨hret, p, -, hhit, -⟩
  · rw [if_neg (not_not_intro hret), Traced.trace_bind]
    refine Trace.Judged.append ?_ ((Trace.quietly_takeSlot key data).trace _)
    have htake := (Trace.erases_takeSlot key data).state
      ((Trace.firstCheck Trace.alone hwTransMemSupport key hash data).state ⟨t, 0⟩)
    rw [hstate] at htake
    refine (Trace.judged_storeSlot htake hwTransMemSupport _ key hash data).congr (not_congr ?_)
    exact ⟨fun hlate => ⟨hmiss, hlate⟩, fun hconf => hconf.2⟩
  · rw [if_pos hret]
    exact (Trace.judged_nil hash).congr (iff_of_true trivial fun hconf => hconf.1 p hhit)

/-! ## 取り違えの起きない table -/

/--
**key の長さが 8 で、取る slot の位置が折り返さなければ、取り違えは起きない。**

slot を取った後の検査に合う entry は同じ key のもので、最初の検査で見つかっていたはずである。
-/
theorem not_conflated_of_reaches (hlen : h.keyLen = 8) {hash : List UInt8 → UInt32} {keyStore : Mem}
    (hr : Reaches (keyedStep hash) (TakenFits hash) (Table.init h keyStore) t) {op : Key × UInt64}
    (hfit : TakenFits hash t op) : ¬ Conflated t op.1 (hash (h.keyBytesOf op.1)) op.2 := by
  obtain ⟨log, hi⟩ := mapInv_keyed hlen hr
  rw [keyBytesOf_eq hlen]
  rintro ⟨hmiss, hlate⟩
  rcases checkDup_cases t op.2 op.1 (getShortSig (hash8 hash (key8 op.1)))
    (primOf h (hash8 hash (key8 op.1))) (secOf h (hash8 hash (key8 op.1))) with
    ⟨-, -, ht0⟩ | ⟨-, p, -, hhit, -⟩
  · have hfresh : ∀ id, InUse t id → t.storedKey id ≠ key8 op.1 := fun id hid => hi.fresh hmiss hid
    have htaken := hi.slotTaken hlen (hfit.slotFits hi (hi.logged.eq_none.mpr hfresh)) ht0 op.1
    refine hlate.hit fun p hhit => ?_
    have hin : InUse t _ := (InUse.of_idxAt (idxAt_congr htaken.bkts)).mp ⟨hhit.2.2, p, rfl⟩
    exact hfresh _ hin ((htaken.other _ hin).1.symm.trans hhit.storedKey)
  · exact hmiss p hhit

/-! ## 取り違えの起きる table -/

/-- 16 byte の key の、bucket が 8 個の table。 -/
def longKeys : RteHash :=
  { eightKeys with
    entries := 64
    keyLen := 16
    entries_ge := by decide
    entries_le := by decide
    keyLen_pos := by decide
    keyLen_lt := by decide }

/-- byte 8 を signature、byte 9 を第一の bucket の番号とする hash。 -/
def tailHash (bytes : List UInt8) : UInt32 :=
  (bytes.getD 8 0).toUInt32 <<< 16 ||| (bytes.getD 9 0).toUInt32

/-- 先頭の byte が `id` の、`tailHash` の値を選んだ key。 -/
def tailed (id sig prim : UInt8) : Key := fun j =>
  if j = 0 then id else if j = 8 then sig else if j = 9 then prim else 0

/-- 行き先が自分自身の bucket になる、`n` 個の key。 -/
def selfLoops (n : Nat) (prim : UInt8) : List Key :=
  (List.range n).map fun i => tailed 0 (8 * UInt8.ofNat (i + 1)) prim

/--
bucket 1 は自分自身にしか行かない entry で埋まり、bucket 0 からは 2, 4, 5 の順にしか空きへ届かない。
探索はそこまで届かないので、続く key は bucket 1 の extendable bucket に入る。
最後の key は bucket 2 の entry を押し出し、bucket 0 から bucket 3 への近道を作る。
-/
def lateKeys : List Key :=
  selfLoops 8 1 ++ selfLoops 7 0 ++ [tailed 0 2 0] ++ selfLoops 7 2 ++ [tailed 0 6 2] ++
    selfLoops 7 4 ++ [tailed 0 1 4] ++ [tailed 1 1 0, tailed 2 1 2]

/-- key を順に追加する。 -/
def addAll (hash : List UInt8 → UInt32) (t : Table h) (keys : List Key) : Table h :=
  keys.foldl (fun t key => (keyedAdd hash t (key, 0)).2) t

theorem reaches_addAll (hash : List UInt8 → UInt32) (t : Table h) (keys : List Key) :
    Reaches (keyedStep hash) Always t (addAll hash t keys) := by
  induction keys generalizing t with
  | nil => exact Reaches.refl t
  | cons key keys ih =>
    have hone : Reaches (keyedStep hash) Always t (keyedAdd hash t (key, 0)).2 :=
      (Reaches.refl t).snoc (a := (key, 0)) trivial rfl
    exact hone.trans (ih _)

/-- 押し出しの呼び出しの返り値。 -/
def Trace.callRets (tr : List (Trace.Entry h)) : List CuckooRet :=
  tr.filterMap fun e => match e.event with
    | .moveInsert _ _ ret => some ret
    | _ => none

theorem Trace.callRets_inserted {tr : List (Trace.Entry h)} (hall : ∀ e ∈ tr, e.Inserts)
    {ret : CuckooRet} (hret : ret ∈ Trace.callRets tr) : ret = .inserted := by
  obtain ⟨⟨t, ev⟩, he, hev⟩ := List.mem_filterMap.mp hret
  have hins := hall _ he
  cases ev with
  | moveInsert leaf leafSlot ret' =>
    obtain rfl := Option.some.inj hev
    exact hins
  | _ => cases hev

set_option maxRecDepth 100000 in
/-- 追加した key の先頭の 8 byte は、extendable bucket にある別の key と同じである。 -/
theorem lateKeys_present :
    Reaches (keyedStep tailHash) Always (Table.init longKeys fun _ => 0)
      (addAll tailHash (Table.init longKeys fun _ => 0) lateKeys) ∧
    ¬ ∀ e ∈ (Trace.addKeyWithHash Trace.alone false (tailed 1 1 1)
        (tailHash (longKeys.keyBytesOf (tailed 1 1 1))) 0).trace
        ⟨addAll tailHash (Table.init longKeys fun _ => 0) lateKeys, 0⟩, e.Inserts := by
  refine ⟨reaches_addAll _ _ _, fun hall => ?_⟩
  have hrets : Trace.callRets ((Trace.addKeyWithHash Trace.alone false (tailed 1 1 1)
      (tailHash (longKeys.keyBytesOf (tailed 1 1 1))) 0).trace
      ⟨addAll tailHash (Table.init longKeys fun _ => 0) lateKeys, 0⟩) = [.present 32] := by
    decide +kernel
  have hins : CuckooRet.present 32 = .inserted :=
    Trace.callRets_inserted hall (by rw [hrets]; exact List.mem_singleton_self _)
  cases hins

end L3fwd.Hash
