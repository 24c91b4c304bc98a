import L3fwd.Hash.Capacity
import L3fwd.Hash.Stored
import L3fwd.Hash.RingContract

/-!
# 並行な追加と重複

key の長さが 8 の table に何人の writer が追加しても、次の条件のもとでは同じ key は二度格納されない。

* 取った slot の位置が 32 bit に収まる
* 挿入の区間が始まるとき、探される bucket の中で、格納された key が空の entry に隠れていない
* 第二の bucket からの押し出しの区間が始まるとき、key が第二の bucket の先の連なりに無い。
  この区間の検査は二つの bucket の役割を入れ替えて行われ、第二の bucket の先の連なりを見ない

条件の無い実行では重複が起こる。番号が尽きて slot 0 のまま進んだ writer が空の entry を残し、
別の writer が slot 0 に key を書くと、その key の entry が隠れる。
-/

namespace L3fwd.Hash

open Infra Table

variable {h : RteHash} {hash : Key8 → UInt32} {s : Writers h}

/-! ## 条件 -/

/-- 挿入の区間の検査から、格納された key が隠れていない。 -/
def Unhidden (t : Table h) (job : Job) (side : Side) : Prop :=
  (∀ b ∈ searched t (side.bkt h job.hash) (side.alt h job.hash),
    ¬ Masked t (key8 job.key) (getShortSig job.hash) b) ∧
  (side = .sec → ∀ b ∈ t.chain h.numBuckets (secOf h job.hash), b ≠ secOf h job.hash →
    ∀ i, t.idxAt (b, i) ≠ emptySlot → t.storedKey (t.idxAt (b, i)) ≠ key8 job.key)

/-- 居場所ごとの条件。番号 0 のまま進む writer の区間には何も求めない。 -/
def ClearPc (t : Table h) : Pc → Prop
  | .dequeuing _ => ∀ id ∈ t.freeSlots.items.head?, Fits h id
  | .insert job slotId | .ext job slotId => slotId ≠ emptySlot → Unhidden t job .prim
  | .move job slotId side _ => slotId ≠ emptySlot → Unhidden t job side
  | .idle _ | .check _ | .alloc _ | .storeData _ _ | .storeKey _ _ | .readIdx _ _ _ _
  | .readSig _ _ _ _ | .giveBack _ _ _ | .enqueuing _ _ _ => True

/-- 一歩の前に成り立つべき条件。 -/
def Clear (s : Writers h) : Act → Prop
  | .call _ _ _ => True
  | .run i => ClearPc s.table (s.pcs i)

instance (t : Table h) (key : Key8) (sig : UInt16) (b : BktRef) : Decidable (Masked t key sig b) :=
  inferInstanceAs (Decidable (∃ i j, i < j ∧ t.idxAt (b, i) = emptySlot ∧ t.sigAt (b, i) = sig ∧
    t.storedKey emptySlot = key ∧ t.idxAt (b, j) ≠ emptySlot ∧ t.sigAt (b, j) = sig ∧
    t.storedKey (t.idxAt (b, j)) = key))

instance (t : Table h) (job : Job) (side : Side) : Decidable (Unhidden t job side) :=
  inferInstanceAs (Decidable ((∀ b ∈ searched t (side.bkt h job.hash) (side.alt h job.hash),
      ¬ Masked t (key8 job.key) (getShortSig job.hash) b) ∧
    (side = .sec → ∀ b ∈ t.chain h.numBuckets (secOf h job.hash), b ≠ secOf h job.hash →
      ∀ i, t.idxAt (b, i) ≠ emptySlot → t.storedKey (t.idxAt (b, i)) ≠ key8 job.key)))

instance decidableClearPc (t : Table h) : ∀ pc, Decidable (ClearPc t pc)
  | .dequeuing _ => inferInstanceAs (Decidable (∀ id ∈ t.freeSlots.items.head?, Fits h id))
  | .insert job slotId | .ext job slotId =>
    inferInstanceAs (Decidable (slotId ≠ emptySlot → Unhidden t job .prim))
  | .move job slotId side _ =>
    inferInstanceAs (Decidable (slotId ≠ emptySlot → Unhidden t job side))
  | .idle _ | .check _ | .alloc _ | .storeData _ _ | .storeKey _ _ | .readIdx _ _ _ _
  | .readSig _ _ _ _ | .giveBack _ _ _ | .enqueuing _ _ _ => isTrue trivial

instance decidableClear (s : Writers h) : ∀ a, Decidable (Clear s a)
  | .call _ _ _ => isTrue trivial
  | .run i => decidableClearPc s.table (s.pcs i)

theorem Clear.dequeuing {i : Nat} {job : Job} (hc : Clear s (.run i)) (hpc : s.pcs i = .dequeuing job)
    {id : Nat} (hid : id ∈ s.table.freeSlots.items.head?) : Fits h id := by
  rw [Clear, hpc] at hc
  exact hc id hid

theorem Clear.unhidden {i : Nat} {job : Job} {slotId : Nat} (hc : Clear s (.run i))
    (hsec : (s.pcs i).isSection = true) (hpc : (s.pcs i).written = some (job, slotId))
    (hne : slotId ≠ emptySlot) : Unhidden s.table job (s.pcs i).side := by
  rw [Clear] at hc
  cases hq : s.pcs i <;> rw [hq] at hc hsec hpc <;> cases hpc <;> cases hsec <;> exact hc hne

/-- 隠れていない key の検査が見落としたなら、その key は格納されていない。 -/
theorem Unhidden.fresh {t : Table h} {job : Job} {side : Side} (hu : Unhidden t job side)
    (hs : Stored hash t) (hjob : job.hash = hash (key8 job.key))
    (hmiss : Missed t job.key (getShortSig job.hash) (side.bkt h job.hash) (side.alt h job.hash))
    {id : Nat} (hid : InUse t id) : t.storedKey id ≠ key8 job.key := by
  obtain ⟨hne, p, rfl⟩ := hid
  intro hkey
  have hhome := hs.home p hne
  have hsig := hs.sig p hne
  rw [hkey, ← hjob] at hhome hsig
  have hmem : p.1 ∈ searched t (side.bkt h job.hash) (side.alt h job.hash) := by
    cases side with
    | prim =>
      rcases hhome with hb | hb
      · rw [hb]
        exact List.mem_cons_self
      · exact List.mem_cons_of_mem _ hb
    | sec =>
      rcases hhome with hb | hb
      · rw [hb]
        exact List.mem_cons_of_mem _ (self_mem_chain t _ _)
      · by_cases hb' : p.1 = secOf h job.hash
        · rw [hb']
          exact List.mem_cons_self
        · exact absurd hkey (hu.2 rfl p.1 hb hb' p.2 hne)
  exact hu.1 p.1 hmem (hmiss.masked hmem hne hsig hkey)

/-! ## 不変条件 -/

/-- 格納された key と、writer が slot に書いた key。 -/
structure DupInv (hash : Key8 → UInt32) (s : Writers h) : Prop where
  base : WritersInv s
  stored : Stored hash s.table
  fits : ∀ id, InUse s.table id → Fits h id
  heldFits : ∀ i, Fits h (s.held i)
  jobs : ∀ i job, (s.pcs i).job = some job → job.hash = hash (key8 job.key)
  keys : ∀ i job slotId, (s.pcs i).written = some (job, slotId) → slotId ≠ emptySlot →
    s.table.storedKey slotId = key8 job.key

theorem DupInv.init (hash : Key8 → UInt32) (h : RteHash) (keyStore : Mem) :
    DupInv hash (Writers.init h keyStore) where
  base := WritersInv.init h keyStore
  stored := Stored.init hash h keyStore
  fits := by
    rintro id ⟨hne, p, hp⟩
    exact absurd hp.symm hne
  heldFits := fun _ => fits_zero h
  jobs := fun _ _ hj => nomatch hj
  keys := fun _ _ _ hj => nomatch hj

theorem Pc.written_job {pc : Pc} {job : Job} {slotId : Nat}
    (hpc : pc.written = some (job, slotId)) : pc.job = some job := by
  cases pc <;> cases hpc <;> rfl

/-- 一歩で slot の key が変わるのは、key を書く一歩だけである。 -/
theorem Effect.storedKey_cases {t t' : Table h} {pc pc' : Pc} (he : Effect t pc t' pc') :
    (∀ id, t'.storedKey id = t.storedKey id) ∨
      ∃ job slotId, pc = .storeKey job slotId ∧ t' = t.setKey slotId job.key ∧
        pc' = .insert job slotId := by
  cases he with
  | quiet hd hf => exact Or.inl hd.storedKey
  | shifted ht1 hs hf =>
    exact Or.inl fun id => (storedKey_congr hs.keyStore id).trans (ht1.dataOnly.storedKey id)
  | dequeued hpc => exact Or.inl (storedKey_congr (ringOnly_allocSlot t).keyStore)
  | storedData hpc => exact Or.inl fun id => storedKey_setData t _ _ id
  | storedKey hpc => exact Or.inr ⟨_, _, hpc, rfl, rfl⟩
  | placed hsec hpc hmiss ht1 hp hplaced =>
    exact Or.inl fun id => (storedKey_congr hplaced.keyStore id).trans (ht1.dataOnly.storedKey id)
  | linked hsec hpc hmiss ht1 halloc =>
    exact Or.inl fun id => (storedKey_congr linkExt_keyStore id).trans (ht1.dataOnly.storedKey id)
  | @leaked data t1 ret ht1 halloc =>
    exact Or.inl fun id => (storedKey_congr (allocExtBkt_bkts t1).2.2 id).trans
      (ht1.dataOnly.storedKey id)
  | enqueued hpc => exact Or.inl (storedKey_congr (ringOnly_enqueueSlotBack t _).keyStore)

/-- 一歩の後に使われている slot は、前から使われていたか、手にしていたものである。 -/
theorem Effect.inUse {i : Nat} {t' : Table h} {pc' : Pc} (he : Effect s.table (s.pcs i) t' pc')
    {c : Nat} (hl : Linked s.table c) {id : Nat} (hid : InUse t' id) :
    InUse s.table id ∨ id = s.held i := by
  have hsame : ∀ {t1 : Table h}, t1.bkts = s.table.bkts → InUse t1 id → InUse s.table id :=
    fun hb hu => (InUse.of_idxAt (idxAt_congr hb)).mp hu
  cases he with
  | quiet hd hf => exact Or.inl (hsame hd.bkts hid)
  | shifted ht1 hs hf => exact Or.inl (hsame ht1.dataOnly.bkts (hs.inUse.mp hid))
  | dequeued hpc => exact Or.inl (hsame (ringOnly_allocSlot s.table).bkts hid)
  | storedData hpc => exact Or.inl hid
  | storedKey hpc => exact Or.inl hid
  | placed hsec hpc hmiss ht1 hp hplaced =>
    rcases hplaced.inUse.mp hid with hid | ⟨rfl, -⟩
    · exact Or.inl (hsame ht1.dataOnly.bkts hid)
    · exact Or.inr (written_held hpc).symm
  | linked hsec hpc hmiss ht1 halloc =>
    rcases (inUse_linkExt (ht1.dataOnly.linked hl) halloc).mp hid with hid | ⟨rfl, -⟩
    · exact Or.inl (hsame ht1.dataOnly.bkts hid)
    · exact Or.inr (written_held hpc).symm
  | @leaked data t1 ret ht1 halloc =>
    exact Or.inl (hsame ((allocExtBkt_bkts t1).1.trans ht1.dataOnly.bkts) hid)
  | @enqueued slotId ret locked hpc =>
    exact Or.inl (hsame (ringOnly_enqueueSlotBack s.table slotId).bkts hid)

/-- 手にしている番号は、同じままか、手放されるか、取り出されたものになる。 -/
theorem Effect.held_cases {t t' : Table h} {pc pc' : Pc} (he : Effect t pc t' pc') :
    pc'.held = pc.held ∨ pc'.held = emptySlot ∨
      ∃ job, pc = .dequeuing job ∧ pc'.held = t.allocSlot.1 := by
  cases he with
  | quiet hd hf => exact Or.inl hf.held
  | shifted ht1 hs hf => exact Or.inl hf.held
  | dequeued hpc => exact Or.inr (Or.inr ⟨_, hpc, rfl⟩)
  | storedData hpc => exact Or.inl (by rw [hpc]; rfl)
  | storedKey hpc => exact Or.inl (by rw [hpc]; rfl)
  | placed hsec hpc hmiss ht1 hp hplaced => exact Or.inr (Or.inl rfl)
  | linked hsec hpc hmiss ht1 halloc => exact Or.inr (Or.inl rfl)
  | leaked ht1 halloc => exact Or.inr (Or.inl rfl)
  | enqueued hpc => exact Or.inr (Or.inl rfl)

/-- 引数は変わらない。slot に key を書き終えた writer は、key を書いた一歩の後か、前からそうである。 -/
theorem Effect.job_written {t t' : Table h} {pc pc' : Pc} (he : Effect t pc t' pc') :
    (∀ job, pc'.job = some job → pc.job = some job) ∧
      ∀ job slotId, pc'.written = some (job, slotId) →
        pc.written = some (job, slotId) ∨
          pc = .storeKey job slotId ∧ t' = t.setKey slotId job.key := by
  cases he with
  | quiet hd hf => exact ⟨hf.job, fun _ _ hw => Or.inl (hf.written _ hw)⟩
  | shifted ht1 hs hf => exact ⟨hf.job, fun _ _ hw => Or.inl (hf.written _ hw)⟩
  | dequeued hpc => exact ⟨fun _ hj => by rw [hpc]; exact hj, nofun⟩
  | storedData hpc => exact ⟨fun _ hj => by rw [hpc]; exact hj, nofun⟩
  | storedKey hpc =>
    refine ⟨fun _ hj => by rw [hpc]; exact hj, fun job slotId hw => Or.inr ?_⟩
    obtain ⟨rfl, rfl⟩ := Prod.mk.inj (Option.some.inj hw)
    exact ⟨hpc, rfl⟩
  | placed hsec hpc hmiss ht1 hp hplaced => exact ⟨nofun, nofun⟩
  | linked hsec hpc hmiss ht1 halloc => exact ⟨nofun, nofun⟩
  | leaked ht1 halloc => exact ⟨nofun, nofun⟩
  | enqueued hpc => exact ⟨nofun, nofun⟩

/-- 使われている slot は、誰の手にもない。 -/
theorem DupInv.inUse_ne_held (hi : DupInv hash s) {id : Nat} (hid : InUse s.table id) (i : Nat) :
    id ≠ s.held i := by
  obtain ⟨hne, p, hp⟩ := hid
  intro he
  exact hne (hp ▸ hi.base.owned.entry_held p i (hp.trans he))

/-- 条件を満たす一歩の後も、手にしている slot の位置は 32 bit に収まる。 -/
theorem DupInv.heldFits_effect (hi : DupInv hash s) {i : Nat} {t' : Table h} {pc' : Pc}
    (he : Effect s.table (s.pcs i) t' pc') (hc : Clear s (.run i)) : Fits h pc'.held := by
  rcases he.held_cases with heq | heq | ⟨job, hpc, heq⟩
  · rw [heq]
    exact hi.heldFits i
  · rw [heq]
    exact fits_zero h
  · rw [heq]
    rcases allocSlot_cases s.table with ⟨-, hres⟩ | ⟨id, q, hitems, hres⟩
    · rw [hres]
      exact fits_zero h
    · rw [hres]
      exact hc.dequeuing hpc (by rw [hitems]; rfl)

section

variable (hlen : h.keyLen = 8)
include hlen

/-- 手にした slot に key を書いても、使われている slot の key は変わらない。 -/
theorem DupInv.setKey_other (hi : DupInv hash s) (i : Nat) (key : Key) {id : Nat} (hid : Fits h id)
    (hne : id ≠ s.held i) :
    (s.table.setKey (s.held i) key).storedKey id = s.table.storedKey id :=
  storedKey_setKey_of_ne hlen s.table key (slotOffset_ne hlen (hi.heldFits i) hid hne.symm)

/-- **条件を満たす一歩の後も、格納された key の不変条件が成り立つ。** -/
theorem DupInv.stored_effect (hi : DupInv hash s) {i : Nat} {t' : Table h} {pc' : Pc}
    (he : Effect s.table (s.pcs i) t' pc') (hc : Clear s (.run i)) : Stored hash t' := by
  obtain ⟨c, hl⟩ := hi.base.linked
  have hnew : ∀ {job : Job} {slotId : Nat} {t1 : Table h}, (s.pcs i).isSection = true →
      (s.pcs i).written = some (job, slotId) →
      Missed s.table job.key (getShortSig job.hash) ((s.pcs i).side.bkt h job.hash)
        ((s.pcs i).side.alt h job.hash) →
      Touched job.data s.table t1 → slotId ≠ emptySlot →
      job.hash = hash (t1.storedKey slotId) ∧ Fresh t1 slotId := by
    intro job slotId t1 hsec hpc hmiss ht1 hne
    have hkey : t1.storedKey slotId = key8 job.key :=
      (ht1.dataOnly.storedKey slotId).trans (hi.keys i job slotId hpc hne)
    have hjob := hi.jobs i job (Pc.written_job hpc)
    refine ⟨by rw [hkey]; exact hjob, fun id hid => ?_⟩
    rw [hkey, ht1.dataOnly.storedKey]
    exact (hc.unhidden hsec hpc hne).fresh hi.stored hjob hmiss
      ((InUse.of_idxAt ht1.dataOnly.idxAt).mp hid)
  cases he with
  | quiet hd hf => exact hi.stored.dataOnly hd
  | shifted ht1 hs hf => exact (hi.stored.dataOnly ht1.dataOnly).shifts hs
  | dequeued hpc => exact hi.stored.ringOnly (ringOnly_allocSlot s.table)
  | storedData hpc => exact hi.stored.dataOnly (dataOnly_setData _ _ _)
  | @storedKey job slotId hpc =>
    have hheld : s.held i = slotId := by
      rw [Writers.held, hpc]
      rfl
    refine hi.stored.congr rfl fun id hid => ?_
    rw [← hheld]
    exact hi.setKey_other hlen i job.key (hi.fits id hid) (hi.inUse_ne_held hid i)
  | placed hsec hpc hmiss ht1 hp hplaced =>
    refine (hi.stored.dataOnly ht1.dataOnly).placed hplaced fun hne => ?_
    obtain ⟨hhash, hfresh⟩ := hnew hsec hpc hmiss ht1 hne
    rw [← hhash]
    refine ⟨rfl, ?_, hfresh⟩
    rw [Home, ht1.dataOnly.chain]
    exact hp
  | linked hsec hpc hmiss ht1 halloc =>
    exact (hi.stored.dataOnly ht1.dataOnly).linkExt (ht1.dataOnly.linked hl) halloc
      fun hne => hnew hsec hpc hmiss ht1 hne
  | @leaked data t1 ret ht1 halloc =>
    obtain ⟨hb, -, hk⟩ := allocExtBkt_bkts t1
    exact (hi.stored.dataOnly ht1.dataOnly).congr hb fun id _ => storedKey_congr hk id
  | @enqueued slotId ret locked hpc =>
    exact hi.stored.ringOnly (ringOnly_enqueueSlotBack s.table slotId)

/-- 一歩の後も、書き終えた slot には、その writer の key がある。 -/
theorem DupInv.keys_effect (hi : DupInv hash s) {i : Nat} {t' : Table h} {pc' : Pc}
    (he : Effect s.table (s.pcs i) t' pc') {j : Nat} {job : Job} {slotId : Nat}
    (hw : (Function.update s.pcs i pc' j).written = some (job, slotId)) (hne : slotId ≠ emptySlot) :
    t'.storedKey slotId = key8 job.key := by
  by_cases hj : j = i
  · subst hj
    rw [Function.update_self] at hw
    rcases he.job_written.2 job slotId hw with hw | ⟨-, rfl⟩
    · rcases he.storedKey_cases with hkeep | ⟨job', slotId', hpc, -, -⟩
      · exact (hkeep slotId).trans (hi.keys j job slotId hw hne)
      · rw [hpc] at hw
        cases hw
    · exact storedKey_setKey_self hlen _ _ _
  · rw [Function.update_of_ne hj] at hw
    have hold := hi.keys j job slotId hw hne
    rcases he.storedKey_cases with hkeep | ⟨job', slotId', hpc, rfl, -⟩
    · exact (hkeep slotId).trans hold
    · have hheld : s.held i = slotId' := by
        rw [Writers.held, hpc]
        rfl
      have hslot : s.held j = slotId := written_held hw
      have hne' : slotId ≠ s.held i := by
        intro he'
        exact hj (hi.base.owned.held_once j i (hslot.trans he') (by rw [hslot]; exact hne))
      rw [← hheld, hi.setKey_other hlen i job'.key (by rw [← hslot]; exact hi.heldFits j) hne']
      exact hold

/-- **条件を満たす一歩ごとに、不変条件が保たれる。** -/
theorem DupInv.step (hi : DupInv hash s) {a : Act} {s' : Writers h} (hc : Clear s a)
    (hstep : s.step hash a = some s') : DupInv hash s' := by
  have hbase := hi.base.step hstep
  rcases Writers.step_cases hstep with ⟨i, key, data, ret, rfl, hpc, rfl⟩ |
    ⟨i, t', pc', rfl, hrun, rfl⟩
  · refine ⟨hbase, hi.stored, hi.fits, fun j => ?_, fun j job hj => ?_, fun j job slotId hj => ?_⟩
    · by_cases hji : j = i
      · rw [hji, Writers.held]
        simp only [Function.update_self]
        exact fits_zero h
      · rw [Writers.held]
        simp only [Function.update_of_ne hji]
        exact hi.heldFits j
    · by_cases hji : j = i
      · simp only [hji, Function.update_self] at hj
        obtain rfl := Option.some.inj hj
        rfl
      · simp only [Function.update_of_ne hji] at hj
        exact hi.jobs j job hj
    · by_cases hji : j = i
      · simp only [hji, Function.update_self] at hj
        cases hj
      · simp only [Function.update_of_ne hji] at hj
        exact hi.keys j job slotId hj
  · have he := runPc_effect hrun (hi.base.search i)
    obtain ⟨c, hl⟩ := hi.base.linked
    refine ⟨hbase, hi.stored_effect hlen he hc, fun id hid => ?_, fun j => ?_, fun j job hj => ?_,
      fun j job slotId hw hne => hi.keys_effect hlen he hw hne⟩
    · rcases he.inUse hl hid with hid | rfl
      · exact hi.fits id hid
      · exact hi.heldFits i
    · rw [held_update]
      by_cases hji : j = i
      · rw [hji, Function.update_self]
        exact hi.heldFits_effect he hc
      · rw [Function.update_of_ne hji]
        exact hi.heldFits j
    · by_cases hji : j = i
      · simp only [hji, Function.update_self] at hj
        exact hi.jobs i job (he.job_written.1 job hj)
      · simp only [Function.update_of_ne hji] at hj
        exact hi.jobs j job hj

end

/-! ## 重複は無い -/

/-- 違う entry の slot は、違う key を持つ。 -/
def NoDuplicates (t : Table h) : Prop :=
  ∀ p q, p ≠ q → t.idxAt p ≠ emptySlot → t.idxAt q ≠ emptySlot →
    t.storedKey (t.idxAt p) ≠ t.storedKey (t.idxAt q)

theorem DupInv.noDuplicates (hi : DupInv hash s) : NoDuplicates s.table := by
  intro p q hpq hp hq hkey
  have hid := hi.stored.unique _ _ ⟨hp, p, rfl⟩ ⟨hq, q, rfl⟩ hkey
  exact hpq (hi.base.owned.entry_once p q hid hp)

/-- **条件を満たす実行では、何人の writer がどの順に進んでも、同じ key は二度格納されない。** -/
theorem writers_noDuplicates (hlen : h.keyLen = 8) {keyStore : Mem}
    (hr : Reaches (Writers.step hash) Clear (Writers.init h keyStore) s) :
    NoDuplicates s.table := by
  have hi : DupInv hash s := by
    refine hr.invariant (DupInv.init hash h keyStore) ?_
    intro u a u' hu hc hstep
    exact hu.step hlen hc hstep
  exact hi.noDuplicates

/-- writer `i` が `n` 歩進む。 -/
def runs (i n : Nat) : List Act := List.replicate n (.run i)

/-- 二人の writer が同じ key を加える。後から挿入する方は、格納された key を見つけて slot を返す。 -/
def sameKeyActs : List Act :=
  .call 0 (keyOf 2) 0 :: runs 0 5 ++ .call 1 (keyOf 2) 0 :: runs 1 5 ++ runs 0 1 ++ runs 1 3

theorem writers_noDuplicates_sameKey :
    ∃ s, exec (Writers.step fun _ => 0) (Writers.init nineLocked fun _ => 0) sameKeyActs = some s ∧
      NoDuplicates s.table := by
  have hsome : (exec (Writers.step fun _ => 0) (Writers.init nineLocked fun _ => 0)
      sameKeyActs).isSome = true := by decide +kernel
  obtain ⟨s, hs⟩ := Option.isSome_iff_exists.mp hsome
  have halong : Along (Writers.step fun _ => 0) Clear (Writers.init nineLocked fun _ => 0)
      sameKeyActs := by decide +kernel
  exact ⟨s, hs, writers_noDuplicates rfl (reaches_of_along halong hs)⟩

/-- 一つの key だけ、押し出しの行き先が別の bucket になる。 -/
def oneApart (key : Key8) : UInt32 := if key 0 = 1 then 0x10000 else 0x20000

/--
重複の起こる順序。

writer 0 は key 2 のために slot 1 を取って止まる。writer 1 も key 2 の最初の検査を終えて止まる。
writer 2 が key 1, …, 8 を加えると、0 番の bucket は埋まり、`free_slots` は空になる。
writer 2 の key 9 の追加は slot 0 のまま進み、key 1 を押し出して、古い signature の空の entry を残す。
writer 1 も slot 0 のまま進み、slot 0 に key 2 を書く。これで key 2 の entry が隠れ、
writer 0 の検査は key 2 を見落として、もう一度格納する。
-/
def hiddenKeyActs : List Act :=
  .call 0 (keyOf 2) 0 :: runs 0 3 ++ .call 1 (keyOf 2) 0 :: runs 1 1 ++
    ((List.range' 1 8).flatMap fun n => .call 2 (keyOf n) 0 :: runs 2 6) ++
    .call 2 (keyOf 9) 0 :: runs 2 24 ++ runs 1 4 ++ runs 0 3

theorem hiddenKeyActs_entries :
    (exec (Writers.step oneApart) (Writers.init nineLocked fun _ => 0) hiddenKeyActs).map
      (fun s => (s.table.idxAt (.main 0, 0), s.table.idxAt (.main 0, 1),
        decide (s.table.storedKey 1 = s.table.storedKey 3))) = some (1, 3, true) := by
  decide +kernel

/-- **同じ key が二つの entry に格納される実行。** -/
theorem writers_duplicate : ∃ s : Writers nineLocked,
    Reaches (Writers.step oneApart) Always (Writers.init nineLocked fun _ => 0) s ∧
      ¬ NoDuplicates s.table := by
  obtain ⟨s, hrun, hres⟩ := Option.map_eq_some_iff.mp hiddenKeyActs_entries
  obtain ⟨h0, hrest⟩ := Prod.mk.inj hres
  obtain ⟨h1, hkey⟩ := Prod.mk.inj hrest
  refine ⟨s, reaches_of_exec (fun _ _ _ => trivial) hrun, fun hno => ?_⟩
  refine hno (.main 0, 0) (.main 0, 1) (by decide) ?_ ?_ ?_
  · rw [h0]
    decide
  · rw [h1]
    decide
  · rw [h0, h1]
    exact of_decide_eq_true hkey

end L3fwd.Hash
