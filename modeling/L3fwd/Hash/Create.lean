import L3fwd.Infra.Heap
import L3fwd.Hash.Sizes

/-!
# `rte_hash_create`

作成の全体を、pointer と確保の成否のまま書く。

* 確保のたびに、成功するかどうかは外から与えられる。失敗すれば NULL を返す
* NULL や、確保されていないもの、値の入っていない field を通した読み書きは `fault` で止まる
* `goto err_unlock` と `goto err` は例外で表し、飛んだ先は、それまでの局所変数のまま続ける

最初の `rte_rwlock_write_lock(h->tailq_lock)` は、`h` が NULL のまま実行される。
したがって、そこに着かない呼び出しだけが約束を守る（`create_allOrNothing_iff`）。
-/

namespace L3fwd.Hash

open Infra

/-! ## 引数 -/

/-- hash 関数への pointer の先。 -/
inductive HashFunc where
  | rteJhash
  | user (id : Nat)
  deriving DecidableEq

/-- `struct rte_hash_parameters`。`hash_func` の NULL は `none` で表す。 -/
structure HashParameters where
  name : List Char
  entries : UInt32
  keyLen : UInt32
  hashFunc : Option HashFunc
  hashFuncInitVal : UInt32
  extraFlag : UInt8

/-- `RTE_HASH_EXTRA_FLAGS_*`。 -/
inductive ExtraFlag where
  | transMemSupport
  | multiWriterAdd
  | rwConcurrency
  | extTable
  | noFreeOnDel
  | rwConcurrencyLf
  deriving DecidableEq

def ExtraFlag.bits : ExtraFlag → UInt8
  | .transMemSupport => 0x01
  | .multiWriterAdd => 0x02
  | .rwConcurrency => 0x04
  | .extTable => 0x08
  | .noFreeOnDel => 0x10
  | .rwConcurrencyLf => 0x20

/-- `RTE_HASH_EXTRA_FLAGS_MASK`。 -/
def extraFlagsMask : UInt8 :=
  [ExtraFlag.transMemSupport, .multiWriterAdd, .rwConcurrency, .extTable, .noFreeOnDel,
    .rwConcurrencyLf].foldl (fun m f => m ||| f.bits) 0

namespace HashParameters

def has (p : HashParameters) (f : ExtraFlag) : Bool := p.extraFlag &&& f.bits != 0

def badSize (p : HashParameters) : Bool :=
  p.entries > (1 : UInt32) <<< 30 || p.entries < 8 || p.keyLen == 0

def badFlags (p : HashParameters) : Bool := p.extraFlag &&& ~~~ extraFlagsMask != 0

def badConcurrency (p : HashParameters) : Bool := p.has .rwConcurrency && p.has .rwConcurrencyLf

/-- 引数の検査を通る。 -/
def Valid (p : HashParameters) : Prop :=
  p.badSize = false ∧ p.badFlags = false ∧ p.badConcurrency = false

instance (p : HashParameters) : Decidable p.Valid := inferInstanceAs (Decidable (_ ∧ _ ∧ _))

def numKeySlots (p : HashParameters) : UInt32 := p.entries + 1

def numBuckets (p : HashParameters) : UInt32 := rteAlign32pow2 p.entries / 8

def writerTakesLock (p : HashParameters) : Bool := p.has .multiWriterAdd || p.has .rwConcurrency

def noFreeOnDel (p : HashParameters) : Bool := p.has .noFreeOnDel || p.has .rwConcurrencyLf

/-- `key_entry_size`。64 bit で揃えてから 32 bit に切り詰める。 -/
def keyEntrySize (p : HashParameters) : UInt32 :=
  UInt32.ofNat ((RteHash.sizeofKey + p.keyLen.toNat + 15) / 16 * 16)

def keyTblSize (p : HashParameters) : Nat := p.keyEntrySize.toNat * p.numKeySlots.toNat

end HashParameters

/-! ## object と局所変数 -/

inductive Ptr where
  | null
  | obj (id : Nat)
  /-- 値の入っていない pointer。 -/
  | wild
  deriving DecidableEq

/-- `struct rte_hash` の field。 -/
inductive Field where
  | name
  | entries
  | keyLen
  | keyEntrySize
  | hashFuncInitVal
  | numBuckets
  | bucketBitmask
  | buckets
  | bucketsExt
  | freeExtBkts
  | hashFunc
  | keyStore
  | freeSlots
  | extBktToFree
  | tblChngCnt
  | hwTransMemSupport
  | useLocalCache
  | localFreeSlots
  | readwriteConcurSupport
  | extTableSupport
  | writerTakesLock
  | noFreeOnDel
  | readwriteConcurLfSupport
  | cmpJumpTableIdx
  | sigCmpFn
  | readwriteLock
  | tailqLock
  deriving DecidableEq

/-- field に入る値。 -/
inductive Val where
  | num (n : Nat)
  | flag (b : Bool)
  | text (s : List Char)
  | func (f : HashFunc)
  | ptr (p : Ptr)
  deriving DecidableEq

/-- 確保される object。 -/
inductive Obj where
  | ring (name : List Char) (capacity : Nat) (items : List UInt32)
  /-- `struct rte_tailq_entry`。 -/
  | tailqEntry (data : Ptr)
  | hash (fields : Field → Option Val)
  /-- 大きさだけが決まっている領域。 -/
  | bytes (size : Nat)
  | word (value : Option UInt32)
  /-- `rte_rwlock_t` の `cnt`。 -/
  | rwlock (cnt : Option Int)

/-- 局所変数の pointer。 -/
structure Locals where
  h : Ptr := .null
  te : Ptr := .null
  r : Ptr := .null
  rExt : Ptr := .null
  k : Ptr := .null
  buckets : Ptr := .null
  bucketsExt : Ptr := .null
  extBktToFree : Ptr := .null
  tblChngCnt : Ptr := .null
  localFreeSlots : Ptr := .null

inductive LockEvent where
  | lock (p : Ptr)
  | unlock (p : Ptr)
  deriving DecidableEq

/-- 呼び出しのあいだの状態。`grants` の `n` 番が、`n` 回目の確保の成否である。 -/
structure World where
  heap : Heap Obj
  grants : Nat → Bool
  asked : Nat
  refused : Nat
  locks : List LockEvent
  /-- `rte_hash_tailq` につながれた `te`。 -/
  tailq : List Ptr
  locals : Locals

/-- 呼び出す前の状態。 -/
def World.start (heap : Heap Obj) (grants : Nat → Bool) (tailq : List Ptr) : World where
  heap := heap
  grants := grants
  asked := 0
  refused := 0
  locks := []
  tailq := tailq
  locals := {}

/-- 途中で抜ける先。 -/
inductive Exit where
  | fault
  | errUnlock
  | err
  /-- `return NULL`。 -/
  | returnNull
  deriving DecidableEq

abbrev Create := EStateM Exit World

namespace Create

/-! ## 確保と読み書き -/

/-- `malloc`。失敗すれば NULL を返す。 -/
def malloc (o : Obj) : Create Ptr := fun w =>
  if w.grants w.asked then
    .ok (.obj w.heap.fresh) { w with asked := w.asked + 1, heap := w.heap.alloc o }
  else .ok .null { w with asked := w.asked + 1, refused := w.refused + 1 }

/-- pointer の先を読む。 -/
def deref (p : Ptr) : Create (Nat × Obj) := fun w =>
  match p with
  | .obj id =>
    match w.heap.cells id with
    | some o => .ok (id, o) w
    | none => .error .fault w
  | _ => .error .fault w

def store (id : Nat) (o : Obj) : Create Unit := fun w =>
  match w.heap.set id o with
  | some heap => .ok () { w with heap := heap }
  | none => .error .fault w

/-- `rte_free` と `rte_ring_free`。NULL なら何もしない。 -/
def rteFree (p : Ptr) : Create Unit := fun w =>
  match p with
  | .null => .ok () w
  | .wild => .error .fault w
  | .obj id =>
    match w.heap.free id with
    | some heap => .ok () { w with heap := heap }
    | none => .error .fault w

/-- `h->field` を読む。値が入っていなければ `none`。 -/
def readField (p : Ptr) (f : Field) : Create (Option Val) := do
  match (← deref p).2 with
  | .hash fields => return fields f
  | _ => throw .fault

/-- `h->field` の pointer を読む。 -/
def readPtr (p : Ptr) (f : Field) : Create Ptr := do
  match ← readField p f with
  | some (.ptr q) => return q
  | _ => return .wild

/-- `h->field = v`。 -/
def writeField (p : Ptr) (f : Field) (v : Val) : Create Unit := do
  let (id, o) ← deref p
  match o with
  | .hash fields => store id (.hash (Function.update fields f (some v)))
  | _ => throw .fault

/-- `rte_rwlock_write_lock`。 -/
def rteRwlockWriteLock (p : Ptr) : Create Unit := do
  let (id, _) ← deref p
  store id (.rwlock (some (-1)))
  modify fun w => { w with locks := w.locks ++ [.lock p] }

/-- `rte_rwlock_write_unlock`。 -/
def rteRwlockWriteUnlock (p : Ptr) : Create Unit := do
  let (id, _) ← deref p
  store id (.rwlock (some 0))
  modify fun w => { w with locks := w.locks ++ [.unlock p] }

/-- `rte_rwlock_init`。 -/
def rteRwlockInit (p : Ptr) : Create Unit := do
  let (id, _) ← deref p
  store id (.rwlock (some 0))

/-- `rte_ring_sp_enqueue_elem`。一杯なら何もせず、返り値は捨てられる。 -/
def rteRingSpEnqueueElem (p : Ptr) (i : UInt32) : Create Unit := do
  let (id, o) ← deref p
  match o with
  | .ring name capacity items =>
    if items.length < capacity then store id (.ring name capacity (items ++ [i]))
  | _ => throw .fault

/-- 大きさを限って写す `snprintf`。 -/
def snprintf (size : Nat) (s : List Char) : List Char := s.take (size - 1)

/--
`rte_ring_create_elem`。`esize` は 4、`flags` は 0 である。

大きさと名前を検査してから、ring と登録用の entry をまとめて確保する。
entry は、ring の領域が取れなければその場で解放されるので、ここでは一つの object とみなす。
-/
def rteRingCreateElem (name : List Char) (count : UInt32) : Create Ptr := fun w =>
  if rteRingGetMemsizeElem 4 count < 0 then .ok .null { w with refused := w.refused + 1 }
  else if 32 ≤ ("RG_".toList ++ name).length then .ok .null { w with refused := w.refused + 1 }
  else malloc (.ring name (ringCapacity count) []) w

def setLocals (f : Locals → Locals) : Create Unit :=
  modify fun w => { w with locals := f w.locals }

def getLocals : Create Locals := return (← get).locals

end Create

open Create

/-! ## 本体 -/

/-- 引数の検査。 -/
def checkParams (params : Option HashParameters) : Create HashParameters := do
  match params with
  | none => throw .returnNull
  | some p =>
    if p.badSize then throw .returnNull
    if p.badFlags then throw .returnNull
    if p.badConcurrency then throw .returnNull
    return p

/-- `RTE_RING_NAMESIZE` に収めた ring の名前。 -/
def ringName (head : String) (p : HashParameters) : List Char := snprintf 29 (head.toList ++ p.name)

/-- ring を作って局所変数に入れ、NULL なら `err` へ飛ぶ。 -/
def ringLocal (p : HashParameters) (head : String) (count : UInt32)
    (set : Locals → Ptr → Locals) : Create Unit := do
  let r ← rteRingCreateElem (ringName head p) count
  setLocals fun l => set l r
  if r = .null then throw .err

/-- 二つの ring を作る。 -/
def createRings (p : HashParameters) : Create Unit := do
  ringLocal p "HT_" (rteAlign32pow2 p.numKeySlots) fun l r => { l with r := r }
  if p.has .extTable then
    ringLocal p "HT_EXT_" (rteAlign32pow2 (p.numBuckets + 1)) fun l r => { l with rExt := r }

/-- tailq の lock を取る。source は、まだ NULL の `h` から lock の場所を読む。 -/
def lockTailq : Create Unit := do
  rteRwlockWriteLock (← readPtr (← getLocals).h .tailqLock)

/-- `TAILQ_FOREACH` で同じ名前を探す。見つかった `te` を返す。 -/
def findName (name : List Char) : List Ptr → Create Ptr
  | [] => return .null
  | te :: rest => do
    match (← deref te).2 with
    | .tailqEntry data =>
      setLocals fun l => { l with h := data }
      match ← readField data .name with
      | some (.text s) => if name.take 32 = s.take 32 then return te else findName name rest
      | _ => throw .fault
    | _ => throw .fault

/-- 名前が使われていないことを確かめる。 -/
def checkName (p : HashParameters) : Create Unit := do
  let te ← findName p.name (← get).tailq
  setLocals fun l => { l with h := .null, te := te }
  if te ≠ .null then
    setLocals fun l => { l with te := .null }
    throw .errUnlock

/-- `malloc` した pointer を局所変数に入れ、NULL なら `err_unlock` へ飛ぶ。 -/
def mallocLocal (o : Obj) (set : Locals → Ptr → Locals) : Create Ptr := do
  let q ← malloc o
  setLocals fun l => set l q
  if q = .null then throw .errUnlock
  return q

/-- 拡張 bucket を確保し、番号を ring に入れる。 -/
def allocExtBuckets (p : HashParameters) : Create Unit := do
  if p.has .extTable then
    let _ ← mallocLocal (.bytes (p.numBuckets.toNat * sizeofBucket))
      fun l q => { l with bucketsExt := q }
    (List.range' 1 p.numBuckets.toNat).forM fun i => do
      rteRingSpEnqueueElem (← getLocals).rExt (UInt32.ofNat i)
    if p.has .rwConcurrencyLf then
      let _ ← mallocLocal (.bytes (4 * p.numKeySlots.toNat)) fun l q => { l with extBktToFree := q }

/-- `te` から `tbl_chng_cnt` までを順に確保する。 -/
def allocObjects (p : HashParameters) : Create Unit := do
  let _ ← mallocLocal (.tailqEntry .wild) fun l q => { l with te := q }
  let _ ← mallocLocal (.hash fun _ => none) fun l q => { l with h := q }
  let _ ← mallocLocal (.bytes bucketsSize) fun l q => { l with buckets := q }
  allocExtBuckets p
  let _ ← mallocLocal (.bytes p.keyTblSize) fun l q => { l with k := q }
  let _ ← mallocLocal (.word none) fun l q => { l with tblChngCnt := q }

/-- `h` に書く値。`RTE_ARCH_*` はどれも定義されないので、比較は汎用のものになる。 -/
def contextFields (p : HashParameters) (l : Locals) : List (Field × Val) :=
  [(.cmpJumpTableIdx, .num 1),
    (.name, .text (p.name.take 32)),
    (.entries, .num p.entries.toNat),
    (.keyLen, .num p.keyLen.toNat),
    (.keyEntrySize, .num p.keyEntrySize.toNat),
    (.hashFuncInitVal, .num p.hashFuncInitVal.toNat),
    (.numBuckets, .num p.numBuckets.toNat),
    (.bucketBitmask, .num (p.numBuckets - 1).toNat),
    (.buckets, .ptr l.buckets),
    (.bucketsExt, .ptr l.bucketsExt),
    (.freeExtBkts, .ptr l.rExt),
    (.hashFunc, .func (p.hashFunc.getD .rteJhash)),
    (.keyStore, .ptr l.k),
    (.freeSlots, .ptr l.r),
    (.extBktToFree, .ptr l.extBktToFree),
    (.tblChngCnt, .ptr l.tblChngCnt),
    (.hwTransMemSupport, .flag (p.has .transMemSupport)),
    (.useLocalCache, .flag (p.has .multiWriterAdd)),
    (.localFreeSlots, .ptr l.localFreeSlots),
    (.readwriteConcurSupport, .flag (p.has .rwConcurrency)),
    (.extTableSupport, .flag (p.has .extTable)),
    (.writerTakesLock, .flag p.writerTakesLock),
    (.noFreeOnDel, .flag p.noFreeOnDel),
    (.readwriteConcurLfSupport, .flag (p.has .rwConcurrencyLf)),
    (.sigCmpFn, .num 0)]

/-- `h` の field に値を入れ、`*h->tbl_chng_cnt` を 0 にする。 -/
def setupContext (p : HashParameters) : Create Unit := do
  let l ← getLocals
  (contextFields p l).forM fun fv => writeField l.h fv.1 fv.2
  let (id, _) ← deref (← readPtr l.h .tblChngCnt)
  store id (.word (some 0))

/-- lock を確保して `h` の field に入れる。NULL なら `err_unlock` へ飛ぶ。 -/
def setupLock (f : Field) : Create Unit := do
  let l ← getLocals
  let q ← malloc (.rwlock none)
  writeField l.h f (.ptr q)
  if q = .null then throw .errUnlock
  rteRwlockInit q

/-- 二つの lock を用意する。 -/
def setupLocks (p : HashParameters) : Create Unit := do
  if p.writerTakesLock then setupLock .readwriteLock
  setupLock .tailqLock

/-- slot の番号を ring に入れ、table をつなぐ。 -/
def publish (p : HashParameters) : Create Ptr := do
  let l ← getLocals
  (List.range' 1 (p.numKeySlots.toNat - 1)).forM fun i => rteRingSpEnqueueElem l.r (UInt32.ofNat i)
  let (id, _) ← deref l.te
  store id (.tailqEntry l.h)
  modify fun w => { w with tailq := w.tailq ++ [l.te] }
  rteRwlockWriteUnlock (← readPtr l.h .tailqLock)
  return l.h

/-- label の手前までの `rte_hash_create`。 -/
def createBody (params : Option HashParameters) : Create Ptr := do
  let p ← checkParams params
  createRings p
  lockTailq
  checkName p
  allocObjects p
  setupContext p
  setupLocks p
  publish p

/-- `err:` から先。 -/
def err : Create Ptr := do
  let l ← getLocals
  rteFree l.r
  rteFree l.rExt
  rteFree l.te
  rteFree l.localFreeSlots
  rteFree l.h
  rteFree l.buckets
  rteFree l.bucketsExt
  rteFree l.k
  rteFree l.tblChngCnt
  rteFree l.extBktToFree
  return .null

/-- `err_unlock:` から先。 -/
def errUnlock : Create Ptr := do
  rteRwlockWriteUnlock (← readPtr (← getLocals).h .tailqLock)
  err

/-- `rte_hash_create`。 -/
def rteHashCreate (params : Option HashParameters) : Create Ptr := fun w =>
  match createBody params w with
  | .error .errUnlock w' => errUnlock w'
  | .error .err w' => err w'
  | .error .returnNull w' => .ok .null w'
  | out => out

/-! ## 約束 -/

/-- lock と unlock が、同じ lock で交互に並ぶ。 -/
def paired : List LockEvent → Bool
  | [] => true
  | .lock p :: .unlock q :: rest => p = q && paired rest
  | _ => false

/-- 後で使われる field。`readwrite_lock` は writer が lock を取るときだけ使われる。 -/
def HashParameters.relies (p : HashParameters) : Field → Bool
  | .readwriteLock => p.writerTakesLock
  | _ => true

/-- つながれた entry の table の名前。 -/
def World.nameOf (w : World) (te : Ptr) : Option (List Char) :=
  match te with
  | .obj i =>
    match w.heap.cells i with
    | some (.tailqEntry (.obj j)) =>
      match w.heap.cells j with
      | some (.hash fields) =>
        match fields .name with
        | some (.text s) => some (s.take 32)
        | _ => none
      | _ => none
    | _ => none
  | _ => none

/-- 引数が正しく、名前が使われておらず、確保が一度も失敗しなかった。 -/
def Admissible (params : Option HashParameters) (w w' : World) : Prop :=
  ∃ p, params = some p ∧ p.Valid ∧ (∀ te ∈ w.tailq, w.nameOf te ≠ some (p.name.take 32)) ∧
    w'.refused = 0

/-- 後で使われる field がすべて入った table ができ、つながれている。 -/
def Created (params : Option HashParameters) (w w' : World) (q : Ptr) : Prop :=
  (∃ p id fields, params = some p ∧ q = .obj id ∧ w'.heap.cells id = some (.hash fields) ∧
    ∀ f, p.relies f = true → fields f ≠ none) ∧
    ∃ i, w'.tailq = w.tailq ++ [.obj i] ∧ w'.heap.cells i = some (.tailqEntry q)

/-- NULL が返り、確保したものはすべて解放され、登録は変わらない。 -/
def NothingLeft (w w' : World) (q : Ptr) : Prop :=
  q = .null ∧ w'.heap.cells = w.heap.cells ∧ w'.tailq = w.tailq

/-- 不正な pointer を使わず、lock は対になり、完成した table か、何も残さない NULL のどちらかを返す。 -/
def AllOrNothing (params : Option HashParameters) (w : World)
    (out : EStateM.Result Exit World Ptr) : Prop :=
  ∃ q w', out = .ok q w' ∧ paired w'.locks = true ∧
    ((Admissible params w w' ∧ Created params w w' q) ∨
      (¬ Admissible params w w' ∧ NothingLeft w w' q))

/-- ring の作成が成功する。 -/
def RingMade (count : UInt32) (granted : Bool) : Prop :=
  0 ≤ rteRingGetMemsizeElem 4 count ∧ granted = true

/-- 引数の検査を通り、必要な ring がすべて作られる。 -/
def ReachesLock (params : Option HashParameters) (grants : Nat → Bool) : Prop :=
  ∃ p, params = some p ∧ p.Valid ∧ RingMade (rteAlign32pow2 p.numKeySlots) (grants 0) ∧
    (p.has .extTable = true → RingMade (rteAlign32pow2 (p.numBuckets + 1)) (grants 1))

/-! ## 各段の結果 -/

variable {p : HashParameters} {w : World}

theorem checkParams_valid (hv : p.Valid) : checkParams (some p) w = .ok p w := by
  obtain ⟨hsize, hflags, hconc⟩ := hv
  simp only [checkParams, hsize, hflags, hconc]
  rfl

theorem checkParams_invalid {params : Option HashParameters}
    (hv : ∀ p, params = some p → ¬ p.Valid) : checkParams params w = .error .returnNull w := by
  cases params with
  | none => rfl
  | some p =>
    have hbad : ¬ (p.badSize = false ∧ p.badFlags = false ∧ p.badConcurrency = false) := hv p rfl
    cases hsize : p.badSize with
    | true =>
      simp only [checkParams, hsize]
      rfl
    | false =>
      cases hflags : p.badFlags with
      | true =>
        simp only [checkParams, hsize, hflags]
        rfl
      | false =>
        cases hconc : p.badConcurrency with
        | true =>
          simp only [checkParams, hsize, hflags, hconc]
          rfl
        | false => exact absurd ⟨hsize, hflags, hconc⟩ hbad

/-- 名前は切り詰められているので、ring の名前の検査には必ず通る。 -/
theorem ringName_length (head : String) (p : HashParameters) :
    ¬ 32 ≤ ("RG_".toList ++ ringName head p).length := by
  have hlen : (ringName head p).length ≤ 28 := List.length_take_le _ _
  rw [List.length_append]
  show ¬ 32 ≤ 3 + (ringName head p).length
  omega

theorem rteRingCreateElem_made {head : String} {count : UInt32}
    (hm : RingMade count (w.grants w.asked)) :
    rteRingCreateElem (ringName head p) count w = .ok (.obj w.heap.fresh)
      { w with
        asked := w.asked + 1
        heap := w.heap.alloc (.ring (ringName head p) (ringCapacity count) []) } := by
  unfold rteRingCreateElem
  rw [if_neg (Int.not_lt.mpr hm.1), if_neg (ringName_length head p), malloc, if_pos hm.2]

theorem rteRingCreateElem_failed (p : HashParameters) (head : String) {count : UInt32}
    (hm : ¬ RingMade count (w.grants w.asked)) :
    ∃ asked, rteRingCreateElem (ringName head p) count w = .ok .null
      { w with asked := asked, refused := w.refused + 1 } := by
  unfold rteRingCreateElem
  by_cases hsize : rteRingGetMemsizeElem 4 count < 0
  · exact ⟨w.asked, by rw [if_pos hsize]⟩
  · have hgrant : ¬ w.grants w.asked = true := fun hg => hm ⟨Int.not_lt.mp hsize, hg⟩
    exact ⟨w.asked + 1,
      by rw [if_neg hsize, if_neg (ringName_length head p), malloc, if_neg hgrant]⟩

theorem ringLocal_made {head : String} {count : UInt32} {set : Locals → Ptr → Locals}
    (hm : RingMade count (w.grants w.asked)) :
    ringLocal p head count set w = .ok ()
      { w with
        asked := w.asked + 1
        heap := w.heap.alloc (.ring (ringName head p) (ringCapacity count) [])
        locals := set w.locals (.obj w.heap.fresh) } := by
  unfold ringLocal
  simp only [bind, EStateM.bind, rteRingCreateElem_made hm]
  rfl

theorem ringLocal_failed (p : HashParameters) (head : String) {count : UInt32}
    (set : Locals → Ptr → Locals) (hm : ¬ RingMade count (w.grants w.asked)) :
    ∃ asked, ringLocal p head count set w = .error .err
      { w with asked := asked, refused := w.refused + 1, locals := set w.locals .null } := by
  obtain ⟨asked, hring⟩ := rteRingCreateElem_failed p head hm
  refine ⟨asked, ?_⟩
  unfold ringLocal
  simp only [bind, EStateM.bind, hring]
  rfl

/-- どちらの ring もできれば、先へ進む。`h` はまだ変わらない。 -/
theorem createRings_made (hm : RingMade (rteAlign32pow2 p.numKeySlots) (w.grants w.asked))
    (hext : p.has .extTable = true →
      RingMade (rteAlign32pow2 (p.numBuckets + 1)) (w.grants (w.asked + 1))) :
    ∃ w', createRings p w = .ok () w' ∧ w'.locals.h = w.locals.h := by
  unfold createRings
  simp only [bind, EStateM.bind, ringLocal_made hm]
  cases hflag : p.has .extTable with
  | false => exact ⟨_, rfl, rfl⟩
  | true =>
    rw [if_pos rfl, ringLocal_made (hext hflag)]
    exact ⟨_, rfl, rfl⟩

/-- 最初の ring ができない。 -/
theorem createRings_failed
    (hm : ¬ RingMade (rteAlign32pow2 p.numKeySlots) (w.grants w.asked)) :
    ∃ asked, createRings p w = .error .err
      { w with
        asked := asked
        refused := w.refused + 1
        locals := { w.locals with r := .null } } := by
  obtain ⟨asked, hring⟩ := ringLocal_failed p "HT_" (fun l r => { l with r := r }) hm
  refine ⟨asked, ?_⟩
  unfold createRings
  simp only [bind, EStateM.bind, hring]

/-- 最初の ring はできるが、拡張 bucket の ring ができない。 -/
theorem createRings_ext_failed
    (hm : RingMade (rteAlign32pow2 p.numKeySlots) (w.grants w.asked))
    (hflag : p.has .extTable = true)
    (hext : ¬ RingMade (rteAlign32pow2 (p.numBuckets + 1)) (w.grants (w.asked + 1))) :
    ∃ asked o, createRings p w = .error .err
      { w with
        asked := asked
        refused := w.refused + 1
        heap := w.heap.alloc o
        locals := { w.locals with r := .obj w.heap.fresh, rExt := .null } } := by
  unfold createRings
  simp only [bind, EStateM.bind, ringLocal_made hm, hflag, if_true]
  obtain ⟨asked, hring⟩ := ringLocal_failed p "HT_EXT_" (fun l r => { l with rExt := r })
    (w := { w with
      asked := w.asked + 1
      heap := w.heap.alloc (.ring (ringName "HT_" p) (ringCapacity (rteAlign32pow2 p.numKeySlots)) [])
      locals := { w.locals with r := .obj w.heap.fresh } }) hext
  exact ⟨asked, _, hring⟩

theorem getLocals_eq (w : World) : getLocals w = .ok w.locals w := rfl

/-- `h` が NULL のまま lock を取ろうとすると止まる。 -/
theorem lockTailq_null (hnull : w.locals.h = .null) : lockTailq w = .error .fault w := by
  unfold lockTailq
  simp only [bind, EStateM.bind, getLocals_eq, readPtr, readField, deref, hnull]

/-- 何も確保されていないときの `err`。 -/
theorem err_of_null (hl : w.locals = {}) : err w = .ok .null w := by
  unfold err
  simp only [bind, EStateM.bind, getLocals_eq, pure, EStateM.pure, hl, rteFree]

/-- `free_slots` の ring だけがあるときの `err` は、それを解放する。 -/
theorem err_of_ring {i : Nat} {m : Heap Obj} (hl : w.locals = { r := .obj i })
    (hfree : w.heap.free i = some m) : err w = .ok .null { w with heap := m } := by
  unfold err
  simp only [bind, EStateM.bind, getLocals_eq, pure, EStateM.pure, hl, rteFree, hfree]

/-! ## 作成の結果 -/

variable {params : Option HashParameters} {heap : Heap Obj} {grants : Nat → Bool}
  {tailq : List Ptr}

/-- lock に着くと止まる。 -/
theorem rteHashCreate_of_reachesLock (heap : Heap Obj) (tailq : List Ptr)
    (hr : ReachesLock params grants) :
    ∃ w', rteHashCreate params (World.start heap grants tailq) = .error .fault w' := by
  obtain ⟨p, rfl, hv, hring, hext⟩ := hr
  obtain ⟨w', hrings, hh⟩ :=
    createRings_made (w := World.start heap grants tailq) hring hext
  refine ⟨w', ?_⟩
  unfold rteHashCreate createBody
  simp only [bind, EStateM.bind, checkParams_valid hv, hrings, lockTailq_null hh]

/-- ring を作れなければ、`err` の結果が返る。 -/
theorem rteHashCreate_of_err {w w' : World} (hv : p.Valid)
    (hrings : createRings p w = .error .err w') : rteHashCreate (some p) w = err w' := by
  unfold rteHashCreate createBody
  simp only [bind, EStateM.bind, checkParams_valid hv, hrings]

/-- 何も残さずに NULL を返した。 -/
theorem allOrNothing_of_null {w w' : World}
    (hout : rteHashCreate params w = .ok .null w') (hlocks : w'.locks = [])
    (hcells : w'.heap.cells = w.heap.cells) (htailq : w'.tailq = w.tailq)
    (hbad : ¬ Admissible params w w') : AllOrNothing params w (rteHashCreate params w) :=
  ⟨.null, w', hout, by rw [hlocks]; rfl, Or.inr ⟨hbad, rfl, hcells, htailq⟩⟩

theorem not_admissible_of_refused {w w' : World} (hr : w'.refused ≠ 0) :
    ¬ Admissible params w w' := fun ⟨_, _, _, _, hzero⟩ => hr hzero

/-- lock に着かなければ、何も残さずに NULL を返す。 -/
theorem allOrNothing_of_not_reachesLock (hr : ¬ ReachesLock params grants) :
    AllOrNothing params (World.start heap grants tailq)
      (rteHashCreate params (World.start heap grants tailq)) := by
  by_cases hv : ∃ p, params = some p ∧ p.Valid
  · obtain ⟨p, rfl, hv⟩ := hv
    by_cases hring : RingMade (rteAlign32pow2 p.numKeySlots) (grants 0)
    · have hext : ¬ (p.has .extTable = true →
          RingMade (rteAlign32pow2 (p.numBuckets + 1)) (grants 1)) :=
        fun hext => hr ⟨p, rfl, hv, hring, hext⟩
      rw [Classical.not_imp] at hext
      obtain ⟨asked, o, hrings⟩ :=
        createRings_ext_failed (w := World.start heap grants tailq) hring hext.1 hext.2
      obtain ⟨m, hfree, hcells⟩ := heap.free_alloc o
      exact allOrNothing_of_null ((rteHashCreate_of_err hv hrings).trans (err_of_ring rfl hfree)) rfl
        hcells rfl (not_admissible_of_refused (Nat.succ_ne_zero _))
    · obtain ⟨asked, hrings⟩ := createRings_failed (w := World.start heap grants tailq) hring
      exact allOrNothing_of_null ((rteHashCreate_of_err hv hrings).trans (err_of_null rfl)) rfl rfl
        rfl
        (not_admissible_of_refused (Nat.succ_ne_zero _))
  · have hcheck : checkParams params (World.start heap grants tailq)
        = .error .returnNull (World.start heap grants tailq) :=
      checkParams_invalid fun p hp hvalid => hv ⟨p, hp, hvalid⟩
    have hout : rteHashCreate params (World.start heap grants tailq)
        = .ok .null (World.start heap grants tailq) := by
      unfold rteHashCreate createBody
      simp only [bind, EStateM.bind, hcheck]
    exact allOrNothing_of_null hout rfl rfl rfl fun ⟨p, hp, hvalid, _⟩ => hv ⟨p, hp, hvalid⟩

/-- **作成が約束を守るのは、lock に着く前に終わる呼び出しに限る。** -/
theorem create_allOrNothing_iff (params : Option HashParameters) (heap : Heap Obj)
    (grants : Nat → Bool) (tailq : List Ptr) :
    AllOrNothing params (World.start heap grants tailq)
        (rteHashCreate params (World.start heap grants tailq)) ↔ ¬ ReachesLock params grants := by
  constructor
  · rintro ⟨q, w', hout, -⟩ hr
    obtain ⟨w'', hfault⟩ := rteHashCreate_of_reachesLock heap tailq hr
    rw [hfault] at hout
    cases hout
  · exact allOrNothing_of_not_reachesLock

/-- entry が 8 個で、flag のない引数。 -/
def plainParameters : HashParameters where
  name := "l3fwd".toList
  entries := 8
  keyLen := 8
  hashFunc := none
  hashFuncInitVal := 0
  extraFlag := 0

/-- 何も登録されておらず、確保がすべて成功しても、正しい引数での作成は NULL を読んで止まる。 -/
theorem create_plain_faults :
    plainParameters.Valid ∧
      (∃ w', rteHashCreate (some plainParameters) (World.start Heap.empty (fun _ => true) [])
        = .error .fault w') ∧
      ¬ AllOrNothing (some plainParameters) (World.start Heap.empty (fun _ => true) [])
        (rteHashCreate (some plainParameters) (World.start Heap.empty (fun _ => true) [])) := by
  have hv : plainParameters.Valid := by decide
  have hr : ReachesLock (some plainParameters) fun _ => true :=
    ⟨plainParameters, rfl, hv, ⟨by decide, rfl⟩, fun _ => ⟨by decide, rfl⟩⟩
  obtain ⟨w', hfault⟩ := rteHashCreate_of_reachesLock Heap.empty [] hr
  refine ⟨hv, ⟨w', hfault⟩, ?_⟩
  rintro ⟨q, w'', hout, -⟩
  rw [hfault] at hout
  cases hout

end L3fwd.Hash
